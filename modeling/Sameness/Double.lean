/-!
Double precision numbers as their 64 bits.

All questions are settled on the bits, in `Nat`. A finite number is a whole number of units of
`2 ^ -1074`, which is what `units` counts.
-/

namespace Sameness

/-- The payload of a NaN and the sign of a zero are part of the value. -/
structure Double where
  bits : UInt64
  deriving DecidableEq, Hashable

/-- `Nat` has powers as a monoid, too. This library writes them in one way everywhere. -/
@[default_instance high]
instance (priority := high) powNat : Pow Nat Nat := instPowNat

namespace Double

instance : Inhabited Double := ⟨⟨0⟩⟩

/-- The magnitude of the infinities: an exponent field of ones and nothing behind it. -/
def infinite : Nat := 2047 * 2 ^ 52

/-- All bits but the sign. -/
def magnitude (x : Double) : Nat := x.bits.toNat % 2 ^ 63

def isNegative (x : Double) : Bool := 2 ^ 63 ≤ x.bits.toNat

def isNaN (x : Double) : Bool := infinite < x.magnitude

def isInfinite (x : Double) : Bool := x.magnitude == infinite

def isFinite (x : Double) : Bool := x.magnitude < infinite

def isZero (x : Double) : Bool := x.magnitude == 0

/-- NaN equals nothing, the two zeros equal each other, and other numbers are equal when their bits
are. -/
def numEq (x y : Double) : Bool :=
  !x.isNaN && !y.isNaN && (x.bits == y.bits || x.isZero && y.isZero)

/-- The bits with the sign of a zero dropped, so numbers that are `numEq` agree on them. -/
def normalBits (x : Double) : UInt64 := if x.isZero then 0 else x.bits

def ofMagnitude (negative : Bool) (magnitude : Nat) : Double :=
  ⟨UInt64.ofNat (if negative then 2 ^ 63 + magnitude else magnitude)⟩

/-- Doublings of the significand. Subnormal numbers have as many as the smallest normal
ones, none. -/
def binade (magnitude : Nat) : Nat := magnitude / 2 ^ 52 - 1

/-- The absolute value of a finite number, in units of `2 ^ -1074`. -/
def units (magnitude : Nat) : Nat :=
  (magnitude - binade magnitude * 2 ^ 52) * 2 ^ binade magnitude

end Double

end Sameness
