import Sameness.Double

/-! The double nearest to a quotient of natural numbers. -/

namespace Sameness.Double

/-- A half goes to the even neighbour. -/
def roundDiv (num den : Nat) : Nat :=
  let floor := num / den
  let twice := 2 * (num % den)
  if twice < den then floor
  else if den < twice then floor + 1
  else if floor % 2 = 0 then floor else floor + 1

/-- The magnitude of the double nearest to `num / den`. The significand keeps 53 bits; one that is
rounded up to 54 carries into the exponent by itself, and what lies beyond the largest finite number
is infinite. -/
def nearest (num den : Nat) : Nat :=
  let scaled := num * 2 ^ 1074
  let shift := (scaled / den).log2 - 52
  min (shift * 2 ^ 52 + roundDiv scaled (den * 2 ^ shift)) infinite

def ofInt (i : Int) : Double := ofMagnitude (i < 0) (nearest i.natAbs 1)

def ofNat (n : Nat) : Double := ofMagnitude false (nearest n 1)

end Sameness.Double
