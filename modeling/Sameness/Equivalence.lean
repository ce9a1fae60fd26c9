import Sameness.Run
import Sameness.Store

/-!
The three equivalence predicates.

`isEq` is identity: cells are the same at the same address, atoms when their data are the same, and
a procedure is its code with the very context it was bound to. `isEqv` also compares numbers as
numbers, so the two zeros are the same. `isEqual` compares pairs, vectors and strings by what they
hold. NaN is not the same as anything under any of them; a cell or a context that holds it still is
the same as itself.
-/

namespace Sameness

namespace Value

def isNaN : Value → Bool
  | number x => x.isNaN
  | _ => false

/-- How two contexts of procedures are compared, given whether they are the same by `isEq`: numbers
go by their bits, so that NaN is the same context as itself. -/
def sameContext (same : Bool) : Value → Value → Bool
  | number x, number y => x.bits == y.bits
  | _, _ => same

/-- Whether two values are one object. Symbols, procedures and the values that there is one of are
not asked about. -/
def sameObject : Value → Value → Bool
  | boolean a, boolean b => a == b
  | number x, number y => x.bits == y.bits && x.numEq y
  | character c, character d => c == d
  | pair a, pair b => a == b
  | vector a, vector b => a == b
  | boolVector a, boolVector b => a == b
  | string a, string b => a == b
  | host a, host b => a == b
  | _, _ => false

/-- Two procedures without contexts are the same if they run the same. -/
def sameUnbound : Value → Value → Bool
  | builtin b, builtin c => b == c
  | code i, code j => i == j
  | v, w => v.sameObject w

def isEq : Value → Value → Bool
  | symbol i, symbol j => i == j
  | closure i c, closure j d => i == j && sameContext (c.isEq d) c d
  | nil, nil | unspecified, unspecified => true
  | v, w => v.sameUnbound w

def isEqv : Value → Value → Bool
  | boolean a, boolean b => a == b
  | number x, number y => x.numEq y
  | character c, character d => c == d
  | v, w => v.isEq w

end Value

namespace Store

/-- One step of a comparison: what is left to compare below two values, or `none` if they differ
already. -/
def equalStep (st : Store) : Value → Value → Option (List (Value × Value))
  | .pair a, .pair b =>
    if a = b then some []
    else some [((st.parts a).1, (st.parts b).1), ((st.parts a).2, (st.parts b).2)]
  | .vector a, .vector b =>
    if a = b then some []
    else if (st.elements a).size = (st.elements b).size then
      some ((st.elements a).toList.zip (st.elements b).toList)
    else none
  | .boolVector a, .boolVector b => if a = b ∨ st.bits a = st.bits b then some [] else none
  | .string a, .string b => if a = b ∨ st.text a = st.text b then some [] else none
  | v, w => if v.isEqv w then some [] else none

def visitEqual (st : Store) (_ : Unit) (p : Value × Value) :
    Except Unit (Unit × List (Value × Value)) :=
  match st.equalStep p.1 p.2 with
  | none => .error ()
  | some below => .ok ((), below)

/-- Stops at the first difference, from left to right. Two different cyclic structures may be
compared for ever. -/
def isEqual (st : Store) (v w : Value) : Run Bool := do
  match ← Run.walk st.visitEqual () [(v, w)] with
  | .ok _ => pure true
  | .error _ => pure false

/-- Whether two values are the same under a predicate. -/
def same (st : Store) : Predicate → Value → Value → Run Bool
  | .eq, v, w => pure (v.isEq w)
  | .eqv, v, w => pure (v.isEqv w)
  | .equal, v, w => st.isEqual v w

end Store

end Sameness
