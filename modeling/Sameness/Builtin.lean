import Sameness.Arity
import Sameness.Predicate

/-! The builtin procedures: names, arities and their order in the table. -/

namespace Sameness

/-- Each predicate comes as a comparison of its own, in a search for a member and in a search for an
entry of an association list. -/
inductive Builtin where
  | compare (p : Predicate)
  | member (p : Predicate)
  | assoc (p : Predicate)
  | display
  | newline
  deriving DecidableEq, Repr

namespace Builtin

/-- The table, in order. -/
def all : List Builtin :=
  Predicate.all.map compare ++ Predicate.all.map member ++ Predicate.all.map assoc ++
    [display, newline]

def name : Builtin → String
  | compare p => p.name
  | member .eq => "memq"
  | member .eqv => "memv"
  | member .equal => "member"
  | assoc .eq => "assq"
  | assoc .eqv => "assv"
  | assoc .equal => "assoc"
  | display => "display"
  | newline => "newline"

def arity : Builtin → Arity
  | compare _ | member _ | assoc _ => .exactly 2
  | display => .exactly 1
  | newline => .exactly 0

/-- The position in the table. -/
def index (b : Builtin) : Nat := all.idxOf b

def ofName? (name : String) : Option Builtin := all.find? (·.name == name)

theorem mem_all (b : Builtin) : b ∈ all := by
  cases b with
  | compare p | member p | assoc p => cases p <;> decide
  | display | newline => decide

theorem ofName?_name (b : Builtin) : ofName? b.name = some b := by
  cases b with
  | compare p | member p | assoc p => cases p <;> decide
  | display | newline => decide

end Builtin

end Sameness
