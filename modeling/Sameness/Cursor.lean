import Sameness.Store

/-! Walking the spine of a list. -/

namespace Sameness

namespace Store

/-- The two fields of a pair. -/
def uncons (st : Store) : Value → Option (Value × Value)
  | .pair a => some (st.parts a)
  | _ => none

end Store

/-- A place on the spine of a list. -/
structure Cursor where
  tail : Value
  deriving DecidableEq

namespace Cursor

/-- The element here and the place behind it; the end of the spine is not left. -/
def next (st : Store) (c : Cursor) : Option Value × Cursor :=
  match st.uncons c.tail with
  | some (first, rest) => (some first, ⟨rest⟩)
  | none => (none, c)

/-- At most so many elements from here on. -/
def take (st : Store) : Nat → Cursor → List Value × Cursor
  | 0, c => ([], c)
  | n + 1, c =>
    match c.next st with
    | (none, c) => ([], c)
    | (some v, c) =>
      let (vs, c) := take st n c
      (v :: vs, c)

end Cursor

end Sameness
