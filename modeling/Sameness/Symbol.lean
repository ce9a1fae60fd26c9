import Std.Data.HashMap

/-! Interned names. -/

namespace Sameness

/-- A symbol is its number; the name comes along for printing. -/
structure Symbol where
  id : Nat
  name : String
  deriving DecidableEq, Repr

/-- Symbols are compared by their numbers alone. -/
def Symbol.same (s t : Symbol) : Bool := s.id == t.id

/-- Names are numbered in the order of their first occurrence and never forgotten. -/
structure SymbolTable where
  names : Array String
  numbers : Std.HashMap String Nat
  numbers_iff {name : String} {i : Nat} : numbers[name]? = some i ↔ names[i]? = some name

namespace SymbolTable

def empty : SymbolTable := ⟨#[], ∅, by simp⟩

instance : Inhabited SymbolTable := ⟨empty⟩

def size (t : SymbolTable) : Nat := t.names.size

/-- The empty text for a number that was not given out. -/
def nameOf (t : SymbolTable) (id : Nat) : String := t.names.getD id ""

def lookup (t : SymbolTable) (name : String) : Option Symbol :=
  t.numbers[name]?.map fun id => ⟨id, t.nameOf id⟩

theorem lt_size (t : SymbolTable) {name : String} {i : Nat} (h : t.numbers[name]? = some i) :
    i < t.names.size :=
  (Array.getElem?_eq_some_iff.1 (t.numbers_iff.1 h)).1

/-- Gives the next number to a new name. -/
def push (t : SymbolTable) (name : String) (new : t.numbers[name]? = none) : SymbolTable :=
  let next := t.names.size
  { names := t.names.push name
    numbers := t.numbers.insert name next
    numbers_iff := by
      intro n i
      rw [Std.HashMap.getElem?_insert, Array.getElem?_push]
      by_cases hn : name = n
      · subst hn
        have fresh : t.names[i]? ≠ some name := fun hi => by
          rw [t.numbers_iff.2 hi] at new
          cases new
        by_cases hi : i = t.names.size
        · simp [hi, next]
        · simpa [hi, Ne.symm hi, next] using fresh
      · by_cases hi : i = t.names.size
        · subst hi
          simp only [beq_iff_eq, hn, if_false, if_true, Option.some.injEq, iff_false]
          exact fun hs => absurd (t.lt_size hs) (Nat.lt_irrefl _)
        · simp [hn, hi, t.numbers_iff] }

/-- The symbol of a name, which gets the next number if it has none. -/
def add (t : SymbolTable) (name : String) : Symbol × SymbolTable :=
  match h : t.numbers[name]? with
  | some id => (⟨id, t.nameOf id⟩, t)
  | none => (⟨t.names.size, name⟩, t.push name h)

theorem add_of_some {t : SymbolTable} {name : String} {id : Nat} (h : t.numbers[name]? = some id) :
    t.add name = (⟨id, t.nameOf id⟩, t) := by
  unfold add
  split <;> simp_all

theorem add_of_none {t : SymbolTable} {name : String} (h : t.numbers[name]? = none) :
    t.add name = (⟨t.names.size, name⟩, t.push name h) := by
  unfold add
  split <;> simp_all

/-- Asks before it adds, so a known name costs one look-up. -/
def intern (t : SymbolTable) (name : String) : Symbol × SymbolTable :=
  match t.lookup name with
  | some s => (s, t)
  | none => t.add name

end SymbolTable

end Sameness
