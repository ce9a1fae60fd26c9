import Sameness.Double.Rounding

/-!
Decimal text of a double: the fewest digits that read back, always positional.
-/

namespace Sameness

/-- The value `coefficient * 10 ^ exponent`. -/
structure Decimal where
  coefficient : Nat
  exponent : Int
  deriving DecidableEq, Repr

namespace Decimal

/-- The power of ten above the fraction bar. -/
def up (d : Decimal) : Nat := 10 ^ d.exponent.toNat

/-- The power of ten below the fraction bar. -/
def down (d : Decimal) : Nat := 10 ^ (-d.exponent).toNat

def toMagnitude (d : Decimal) : Nat := Double.nearest (d.coefficient * d.up) d.down

/-- Digits, with a point and a fraction only where a digit other than zero follows it. -/
def positional (d : Decimal) : String :=
  let places := (-d.exponent).toNat
  let scaled := d.coefficient * d.up
  let fraction := Nat.toDigits 10 (scaled % d.down)
  let padded := List.replicate (places - fraction.length) '0' ++ fraction
  let kept := (padded.reverse.dropWhile (· == '0')).reverse
  let whole := Nat.toDigits 10 (scaled / d.down)
  String.ofList (if kept.isEmpty then whole else whole ++ '.' :: kept)

end Decimal

namespace Double

/-- Of the two multiples of `10 ^ exponent` around a magnitude, the nearer of those that read back
as it; a tie goes up. -/
def neighbour? (magnitude : Nat) (exponent : Int) : Option Decimal :=
  let grid : Decimal := ⟨1, exponent⟩
  let num := units magnitude * grid.down
  let den := 2 ^ 1074 * grid.up
  let lower : Decimal := ⟨num / den, exponent⟩
  let upper : Decimal := ⟨num / den + 1, exponent⟩
  let near := if 2 * (num % den) < den then [lower, upper] else [upper, lower]
  near.find? fun d => d.toMagnitude == magnitude

/-- The exponent `k` with `10 ^ (k - 1) ≤ x < 10 ^ k`, for a finite `x` other than zero. No double
reaches down to `10 ^ -324`. -/
def decimalExponent (magnitude : Nat) : Int :=
  ((Nat.toDigits 10 (units magnitude * 10 ^ 324 / 2 ^ 1074)).length : Int) - 324

/-- All digits of a finite number. -/
def exactDecimal (magnitude : Nat) : Decimal := ⟨units magnitude * 5 ^ 1074, -1074⟩

/-- The fewest digits that read back. Seventeen always do, so the exact expansion is out
of reach. -/
def shortest (magnitude : Nat) : Decimal :=
  let top := decimalExponent magnitude
  ((List.range' 1 17).findSome? fun (digits : Nat) => neighbour? magnitude (top - digits)).getD
    (exactDecimal magnitude)

def isIntegral (x : Double) : Bool := x.isFinite && units x.magnitude % 2 ^ 1074 == 0

/-- Whole numbers below `10 ^ 15` are written out; they have too few digits for a shorter
spelling. -/
def isShortIntegral (x : Double) : Bool :=
  x.isIntegral && units x.magnitude < 10 ^ 15 * 2 ^ 1074

/-- A finite number by its shortest digits, without regard to whether it is whole. -/
def generalText (x : Double) : String :=
  (if x.isNegative then "-" else "") ++ (shortest x.magnitude).positional

def text (x : Double) : String :=
  if x.isNaN then "+nan.0"
  else if x.isInfinite then (if x.isNegative then "-inf.0" else "+inf.0")
  else if x.isZero && x.isNegative then "-0.0"
  else if x.isShortIntegral then
    (if x.isNegative then "-" else "") ++ toString (units x.magnitude / 2 ^ 1074)
  else x.generalText

end Double

end Sameness
