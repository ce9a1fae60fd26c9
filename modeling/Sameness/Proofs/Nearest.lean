import Sameness.Double.Decimal

/-!
Rounding to the nearest double depends on the quotient only, and gives every finite double back when
the quotient is its value.
-/

namespace Sameness

namespace Double

/-! ### Quotients -/

theorem roundDiv_mul_left {k : Nat} (hk : 0 < k) (num den : Nat) :
    roundDiv (k * num) (k * den) = roundDiv num den := by
  have hmod : 2 * (k * num % (k * den)) = k * (2 * (num % den)) := by
    rw [Nat.mul_mod_mul_left, Nat.mul_left_comm]
  simp only [roundDiv, Nat.mul_div_mul_left num den hk, hmod, Nat.mul_lt_mul_left hk]

theorem roundDiv_mul_self {den : Nat} (hden : 0 < den) (q : Nat) : roundDiv (q * den) den = q := by
  simp [roundDiv, Nat.mul_div_cancel q hden, hden]

theorem nearest_mul_left {k : Nat} (hk : 0 < k) (num den : Nat) :
    nearest (k * num) (k * den) = nearest num den := by
  simp only [nearest, Nat.mul_assoc k, Nat.mul_div_mul_left _ den hk, roundDiv_mul_left hk]

/-- Fractions of one value are rounded alike. -/
theorem nearest_congr {num den num' den' : Nat} (hden : 0 < den) (hden' : 0 < den')
    (h : num * den' = num' * den) : nearest num den = nearest num' den' := by
  calc nearest num den = nearest (den' * num) (den' * den) := (nearest_mul_left hden' _ _).symm
    _ = nearest (den * num') (den * den') := by
      rw [Nat.mul_comm den' num, h, Nat.mul_comm num', Nat.mul_comm den']
    _ = nearest num' den' := nearest_mul_left hden _ _

theorem nearest_zero (den : Nat) : nearest 0 den = 0 := by
  unfold nearest
  generalize 2 ^ 1074 = one
  by_cases hden : 0 < den <;> simp [roundDiv, hden]

/-! ### Values of doubles -/

/-- The significand of a finite double and the place of its last bit: it is below `2 ^ 53`, and only
the smallest place has significands below `2 ^ 52`. -/
theorem significand_bounds (m : Nat) :
    m - binade m * 2 ^ 52 < 2 ^ 53 ∧ binade m * 2 ^ 52 ≤ m ∧
      (binade m = 0 ∨ 2 ^ 52 ≤ m - binade m * 2 ^ 52) := by
  unfold binade
  omega

theorem log2_units (m : Nat) : (units m).log2 - 52 = binade m := by
  obtain ⟨hlt, -, hnormal⟩ := significand_bounds m
  rcases hnormal with hzero | hle
  · have hunits : units m < 2 ^ 53 := by simpa [units, hzero] using hlt
    rw [hzero, Nat.sub_eq_zero_iff_le]
    by_cases h : units m = 0
    · simp [h]
    · exact Nat.le_of_lt_succ ((Nat.log2_lt h).2 hunits)
  · have hpos : units m ≠ 0 := by
      have := Nat.two_pow_pos (binade m)
      exact Nat.mul_ne_zero (by omega) (by omega)
    have hlog : (units m).log2 = 52 + binade m := by
      rw [Nat.log2_eq_iff hpos, units, Nat.pow_add, Nat.add_right_comm 52, Nat.pow_add]
      exact ⟨Nat.mul_le_mul_right _ hle, Nat.mul_lt_mul_of_pos_right hlt (Nat.two_pow_pos _)⟩
    omega

/-- A finite double is the nearest to its own value. -/
theorem nearest_units {m : Nat} (h : m < infinite) : nearest (units m) (2 ^ 1074) = m := by
  have hsum : binade m * 2 ^ 52 + (m - binade m * 2 ^ 52) = m :=
    Nat.add_sub_cancel' (significand_bounds m).2.1
  unfold nearest
  generalize hone : 2 ^ 1074 = one
  have hpow : ∀ k, 0 < 2 ^ k := Nat.two_pow_pos
  have hpos : 0 < one := hone ▸ hpow 1074
  have hround : roundDiv (units m * one) (one * 2 ^ binade m) = m - binade m * 2 ^ 52 := by
    rw [units, Nat.mul_assoc, Nat.mul_comm (2 ^ binade m)]
    exact roundDiv_mul_self (Nat.mul_pos hpos (Nat.two_pow_pos _)) _
  simp only [Nat.mul_div_cancel _ hpos, log2_units, hround, hsum]
  exact Nat.min_eq_left (Nat.le_of_lt h)

end Double

/-- Tens below the bar are fives and twos. -/
theorem Decimal.toMagnitude_five_pow (n k : Nat) :
    (⟨n * 5 ^ k, -(k : Int)⟩ : Decimal).toMagnitude = Double.nearest n (2 ^ k) := by
  have hfive : 0 < 5 ^ k := Nat.pow_pos (by decide)
  have hten : 10 ^ k = 5 ^ k * 2 ^ k := Nat.mul_pow 5 2 k
  have hup : (⟨n * 5 ^ k, -(k : Int)⟩ : Decimal).up = 1 := by simp [up]
  have hdown : (⟨n * 5 ^ k, -(k : Int)⟩ : Decimal).down = 10 ^ k := by simp [down]
  rw [toMagnitude, hup, hdown, hten, Nat.mul_one, Nat.mul_comm n]
  exact Double.nearest_mul_left hfive n _

namespace Double

theorem toMagnitude_exactDecimal {m : Nat} (h : m < infinite) :
    (exactDecimal m).toMagnitude = m :=
  (Decimal.toMagnitude_five_pow (units m) 1074).trans (nearest_units h)

theorem toMagnitude_of_neighbour? {m : Nat} {e : Int} {d : Decimal}
    (h : neighbour? m e = some d) : d.toMagnitude = m := by
  unfold neighbour? at h
  have hback := List.find?_some h
  simpa only [beq_iff_eq] using hback

/-- The first of the candidates does if any does. -/
theorem toMagnitude_getD_findSome? {m : Nat} {f : Nat → Option Decimal} {candidates : List Nat}
    {d : Decimal} (hf : ∀ i e, f i = some e → e.toMagnitude = m) (hd : d.toMagnitude = m) :
    ((candidates.findSome? f).getD d).toMagnitude = m := by
  cases hfound : candidates.findSome? f with
  | none => exact hd
  | some e =>
    obtain ⟨i, -, hi⟩ := List.exists_of_findSome?_eq_some hfound
    exact hf i e hi

/-- The digits that are printed read back. -/
theorem toMagnitude_shortest {m : Nat} (h : m < infinite) : (shortest m).toMagnitude = m := by
  unfold shortest
  exact toMagnitude_getD_findSome? (fun _ _ => toMagnitude_of_neighbour?)
    (toMagnitude_exactDecimal h)

end Double

end Sameness
