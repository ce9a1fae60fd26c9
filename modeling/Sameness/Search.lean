import Sameness.Cursor
import Sameness.Equivalence

/-!
Looking for something along the spine of a list. A cyclic spine without it is searched for ever.
-/

namespace Sameness

namespace Store

def memberTurn (st : Store) (p : Predicate) (item : Value) (tail : Value) :
    Run (Run.Turn Value (Option Value)) :=
  match st.uncons tail with
  | none => pure (.stop none)
  | some (first, rest) => do
    if ← st.same p item first then return .stop (some tail)
    return .again rest

/-- The first tail of the list that begins with the item. -/
def member (st : Store) (p : Predicate) (item list : Value) : Run (Option Value) :=
  Run.loop (st.memberTurn p item) list

def assocTurn (st : Store) (p : Predicate) (key : Value) (tail : Value) :
    Run (Run.Turn Value (Option Value)) :=
  match st.uncons tail with
  | none => pure (.stop none)
  | some (entry, rest) =>
    match st.uncons entry with
    | none => pure (.again rest)
    | some (entryKey, _) => do
      if ← st.same p key entryKey then return .stop (some entry)
      return .again rest

/-- The first entry of the list with that key. What is no pair is no entry. -/
def assoc (st : Store) (p : Predicate) (key alist : Value) : Run (Option Value) :=
  Run.loop (st.assocTurn p key) alist

end Store

end Sameness
