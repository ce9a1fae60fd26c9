import Sameness.Equivalence
import Sameness.HashInput

/-!
Hash tables whose keys are compared by one of the predicates.
-/

namespace Sameness

variable {α : Type}

/-- `items` is the hash input that the key had when it was stored. -/
structure Entry (α : Type) where
  items : List HashItem
  key : Value
  value : α

/-- A `predicate` says when two keys are the same. A set is a table of nothing. -/
structure Table (α : Type) where
  predicate : Predicate
  entries : List (Entry α)

namespace Table

def empty (p : Predicate) : Table α := ⟨p, []⟩

def size (t : Table α) : Nat := t.entries.length

/-- The first entry from `i` on that has the input of the probe and the same key. -/
def searchFrom (st : Store) (p : Predicate) (items : List HashItem) (probe : Value) :
    Nat → List (Entry α) → Run (Option Nat)
  | _, [] => pure none
  | i, e :: es =>
    if e.items = items then do
      if ← st.same p probe e.key then return some i
      searchFrom st p items probe (i + 1) es
    else searchFrom st p items probe (i + 1) es

def find (st : Store) (t : Table α) (probe : Value) : Run (List HashItem × Option Nat) := do
  let items ← st.hashInputFor t.predicate probe
  return (items, ← searchFrom st t.predicate items probe 0 t.entries)

/-- The value stored under the key. -/
def lookup (st : Store) (t : Table α) (key : Value) : Run (Option α) := do
  let (_, found) ← t.find st key
  return found.bind fun i => t.entries[i]?.map (·.value)

/-- The new table and the value that was stored before. A key that is found stays; only its value is
replaced. -/
def insert (st : Store) (t : Table α) (key : Value) (value : α) : Run (Table α × Option α) := do
  let (items, found) ← t.find st key
  match found with
  | some i =>
    return ({ t with entries := t.entries.modify i fun e => { e with value } },
      t.entries[i]?.map (·.value))
  | none => return ({ t with entries := t.entries ++ [⟨items, key, value⟩] }, none)

/-- The new table and the value that was stored. -/
def erase (st : Store) (t : Table α) (key : Value) : Run (Table α × Option α) := do
  let (_, found) ← t.find st key
  match found with
  | some i =>
    return ({ t with entries := t.entries.eraseIdx i }, t.entries[i]?.map (·.value))
  | none => return (t, none)

end Table

end Sameness
