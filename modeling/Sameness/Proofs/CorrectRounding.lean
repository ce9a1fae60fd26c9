import Mathlib.Algebra.Order.Field.Basic
import Mathlib.Algebra.Order.Field.Rat
import Mathlib.Algebra.Order.Ring.Abs
import Mathlib.Order.Monotone.Basic
import Mathlib.Tactic.Linarith
import Mathlib.Tactic.Ring
import Sameness.Proofs.Nearest

/-!
`Double.nearest` is correct rounding: of all doubles it gives the one closest to a quotient, and of
two that are as close the even one. There is no other such double.
-/

namespace Sameness

namespace Double

variable {m k : Nat} {q : ℚ}

/-! ### Distances between doubles -/

/-- From one double to the next it is one unit in the last place. -/
theorem units_succ (m : Nat) : units (m + 1) = units m + 2 ^ binade m := by
  obtain ⟨hlt, hle, -⟩ := significand_bounds m
  by_cases hcarry : (m + 1) % 2 ^ 52 = 0 ∧ 2 ^ 52 < m
  · have hbinade : binade (m + 1) = binade m + 1 := by
      unfold binade
      omega
    have hsignificand : m - binade m * 2 ^ 52 = 2 ^ 53 - 1 := by
      unfold binade
      omega
    have hnext : m + 1 - (binade m + 1) * 2 ^ 52 = 2 ^ 52 := by
      unfold binade at hle hsignificand ⊢
      omega
    rw [units, units, hbinade, hsignificand, hnext, Nat.pow_succ]
    ring
  · have hbinade : binade (m + 1) = binade m := by
      unfold binade
      omega
    rw [units, units, hbinade, Nat.sub_add_comm hle, Nat.add_mul, Nat.one_mul]

theorem units_strictMono : StrictMono units := by
  apply strictMono_nat_of_lt_succ
  intro m
  rw [units_succ]
  exact Nat.lt_add_of_pos_right (Nat.two_pow_pos _)

/-- A significand that is rounded up to 54 bits carries into the exponent. -/
theorem units_of_significand {b s : Nat} (hs : s ≤ 2 ^ 53) (hb : b = 0 ∨ 2 ^ 52 ≤ s) :
    units (b * 2 ^ 52 + s) = s * 2 ^ b ∧ b ≤ binade (b * 2 ^ 52 + s) := by
  rcases Nat.lt_or_eq_of_le hs with hlt | rfl
  · have hbinade : binade (b * 2 ^ 52 + s) = b := by
      unfold binade
      omega
    rw [units, hbinade, Nat.add_sub_cancel_left]
    exact ⟨rfl, Nat.le_refl b⟩
  · have hbinade : binade (b * 2 ^ 52 + 2 ^ 53) = b + 1 := by
      unfold binade
      omega
    have hsignificand : b * 2 ^ 52 + 2 ^ 53 - (b + 1) * 2 ^ 52 = 2 ^ 52 := by omega
    rw [units, hbinade, hsignificand, Nat.pow_succ]
    exact ⟨by ring, Nat.le_succ b⟩

/-- No more than half a divisor is lost, and exactly half only by an even quotient. -/
theorem roundDiv_bounds {den : Nat} (hden : 0 < den) (num : Nat) :
    2 * (roundDiv num den * den) ≤ 2 * num + den ∧ 2 * num ≤ 2 * (roundDiv num den * den) + den ∧
      ((2 * (roundDiv num den * den) = 2 * num + den ∨
        2 * num = 2 * (roundDiv num den * den) + den) → roundDiv num den % 2 = 0) := by
  have hnum : den * (num / den) + num % den = num := Nat.div_add_mod num den
  have hmod : num % den < den := Nat.mod_lt num hden
  have hfloor : num / den * den = den * (num / den) := Nat.mul_comm _ _
  have hup : (num / den + 1) * den = den * (num / den) + den := by rw [Nat.add_mul]; omega
  simp only [roundDiv]
  generalize num / den = floor at *
  generalize num % den = rest at *
  split
  · omega
  · split
    · omega
    · split <;> omega

theorem roundDiv_cases (num den : Nat) :
    roundDiv num den = num / den ∨ roundDiv num den = num / den + 1 := by
  simp only [roundDiv]
  split
  · exact .inl rfl
  · split
    · exact .inr rfl
    · split
      · exact .inl rfl
      · exact .inr rfl

theorem roundDiv_le {den b scaled : Nat} (h : scaled < b * den) : roundDiv scaled den ≤ b := by
  have hfloor : scaled / den < b := Nat.div_lt_of_lt_mul (by rwa [Nat.mul_comm])
  rcases roundDiv_cases scaled den with heq | heq <;> omega

theorem le_roundDiv {den b scaled : Nat} (hden : 0 < den) (h : b * den ≤ scaled) :
    b ≤ roundDiv scaled den := by
  have hfloor : b ≤ scaled / den := (Nat.le_div_iff_mul_le hden).2 h
  rcases roundDiv_cases scaled den with heq | heq <;> omega

/-! ### Correct rounding -/

/-- The absolute value of a number. That of the infinities is taken to be the power of two behind
the largest finite number. -/
def absValue (magnitude : Nat) : ℚ := units magnitude / 2 ^ 1074

/-- No double is closer, and if another is as close, this one is even. -/
structure IsNearest (q : ℚ) (m : Nat) : Prop where
  le_infinite : m ≤ infinite
  closest (k : Nat) : k ≤ infinite → |q - absValue m| ≤ |q - absValue k|
  even (k : Nat) : k ≤ infinite → k ≠ m → |q - absValue m| = |q - absValue k| → m % 2 = 0

theorem absValue_strictMono : StrictMono absValue := by
  intro m k hmk
  have hunits : (units m : ℚ) < units k := Nat.cast_lt.2 (units_strictMono hmk)
  exact div_lt_div_of_pos_right hunits (by positivity)

theorem closer_below_iff {a b : ℚ} (hab : a < b) : |q - a| ≤ |q - b| ↔ 2 * q ≤ a + b := by
  have hsquares : (q - b) ^ 2 - (q - a) ^ 2 = (b - a) * (a + b - 2 * q) := by ring
  rw [← sq_le_sq, ← sub_nonneg, hsquares, mul_nonneg_iff_of_pos_left (sub_pos.2 hab), sub_nonneg]

theorem closer_above_iff {a b : ℚ} (hab : a < b) : |q - b| ≤ |q - a| ↔ a + b ≤ 2 * q := by
  have hsquares : (q - a) ^ 2 - (q - b) ^ 2 = (b - a) * (2 * q - (a + b)) := by ring
  rw [← sq_le_sq, ← sub_nonneg, hsquares, mul_nonneg_iff_of_pos_left (sub_pos.2 hab), sub_nonneg]

theorem as_close_iff {a b : ℚ} (hab : a < b) : |q - a| = |q - b| ↔ 2 * q = a + b := by
  rw [le_antisymm_iff, closer_below_iff hab, closer_above_iff hab, ← le_antisymm_iff]

/-- The quantity lies between the two midpoints around a double, and on one only if that is even. -/
structure Brackets (q : ℚ) (m : Nat) : Prop where
  above : m < infinite → 2 * q ≤ absValue m + absValue (m + 1)
  even_above : m < infinite → 2 * q = absValue m + absValue (m + 1) → m % 2 = 0
  below (k : Nat) : m = k + 1 → absValue k + absValue m ≤ 2 * q
  even_below (k : Nat) : m = k + 1 → 2 * q = absValue k + absValue m → m % 2 = 0

theorem Brackets.isNearest (h : Brackets q m) (hm : m ≤ infinite) : IsNearest q m := by
  have hcloser : ∀ k, k ≤ infinite → k ≠ m → |q - absValue m| ≤ |q - absValue k| ∧
      (|q - absValue m| = |q - absValue k| → m % 2 = 0) := by
    intro k hinf hk
    rcases Nat.lt_or_gt_of_ne hk with hlt | hgt
    · obtain ⟨j, rfl⟩ : ∃ j, m = j + 1 := ⟨m - 1, by omega⟩
      have hkj : absValue k ≤ absValue j := absValue_strictMono.monotone (by omega)
      have hmid : absValue j + absValue (j + 1) ≤ 2 * q := h.below j rfl
      rw [closer_above_iff (absValue_strictMono hlt), eq_comm,
        as_close_iff (absValue_strictMono hlt)]
      exact ⟨by linarith, fun heq => h.even_below j rfl (by linarith)⟩
    · have hmk : absValue (m + 1) ≤ absValue k := absValue_strictMono.monotone hgt
      have hmid := h.above (hgt.trans_le hinf)
      rw [closer_below_iff (absValue_strictMono hgt), as_close_iff (absValue_strictMono hgt)]
      exact ⟨by linarith, fun heq => h.even_above (hgt.trans_le hinf) (by linarith)⟩
  refine ⟨hm, fun k hinf => ?_, fun k hinf hk => (hcloser k hinf hk).2⟩
  by_cases hk : k = m
  · rw [hk]
  · exact (hcloser k hinf hk).1

theorem IsNearest.brackets (h : IsNearest q m) : Brackets q m where
  above hlt := (closer_below_iff (absValue_strictMono m.lt_succ_self)).1 (h.closest (m + 1) hlt)
  even_above hlt heq := h.even (m + 1) hlt (Nat.succ_ne_self m)
    ((as_close_iff (absValue_strictMono m.lt_succ_self)).2 heq)
  below k hk := by
    subst hk
    exact (closer_above_iff (absValue_strictMono k.lt_succ_self)).1
      (h.closest k (Nat.le_of_succ_le h.le_infinite))
  even_below k hk heq := by
    subst hk
    exact h.even k (Nat.le_of_succ_le h.le_infinite) (Nat.succ_ne_self k).symm
      ((as_close_iff (absValue_strictMono k.lt_succ_self)).2 heq).symm

/-- Of two doubles that are as close the one between them would be closer. -/
theorem IsNearest.unique (hm : IsNearest q m) (hk : IsNearest q k) : m = k := by
  have hnot : ∀ {i j}, IsNearest q i → IsNearest q j → ¬i < j := by
    intro i j hi hj hij
    have hsame : |q - absValue i| = |q - absValue j| :=
      le_antisymm (hi.closest j hj.le_infinite) (hj.closest i hi.le_infinite)
    have hmid := (as_close_iff (absValue_strictMono hij)).1 hsame
    have habove := hi.brackets.above (hij.trans_le hj.le_infinite)
    have hieven : i % 2 = 0 := hi.even j hj.le_infinite hij.ne' hsame
    have hjeven : j % 2 = 0 := hj.even i hi.le_infinite hij.ne hsame.symm
    have hbetween : absValue (i + 1) < absValue j := absValue_strictMono (by omega)
    linarith
  exact Nat.le_antisymm (Nat.le_of_not_lt (hnot hk hm)) (Nat.le_of_not_lt (hnot hm hk))

/-- What is rounded to a double has no gaps. -/
theorem IsNearest.between {p r : ℚ} (hp : IsNearest p m) (hr : IsNearest r m) (hpq : p ≤ q)
    (hqr : q ≤ r) : IsNearest q m := by
  refine Brackets.isNearest ?_ hp.le_infinite
  have hlow := hp.brackets
  have hhigh := hr.brackets
  exact {
    above := fun hlt => by linarith [hhigh.above hlt]
    even_above := fun hlt heq => hhigh.even_above hlt (by linarith [hhigh.above hlt])
    below := fun k hk => by linarith [hlow.below k hk]
    even_below := fun k hk heq => hlow.even_below k hk (by linarith [hlow.below k hk]) }

theorem isNearest_absValue (hm : m ≤ infinite) : IsNearest (absValue m) m where
  le_infinite := hm
  closest k _ := by
    rw [sub_self, abs_zero]
    exact abs_nonneg _
  even k _ hk heq := by
    rw [sub_self, abs_zero, eq_comm, abs_eq_zero, sub_eq_zero] at heq
    exact absurd (absValue_strictMono.injective heq).symm hk

/-- From a double to the next it is at least one part in `2 ^ 53`. -/
theorem absValue_succ_le (m : Nat) :
    absValue (m + 1) ≤ 2 ^ 53 * (absValue (m + 1) - absValue m) := by
  have hunits : units (m + 1) ≤ 2 ^ 53 * 2 ^ binade m := by
    obtain ⟨hlt, -, -⟩ := significand_bounds m
    rw [units_succ, units, ← Nat.succ_mul]
    exact Nat.mul_le_mul_right _ hlt
  have hgap : absValue (m + 1) - absValue m = (2 ^ binade m : Nat) / 2 ^ 1074 := by
    rw [absValue, absValue, ← sub_div, units_succ, Nat.cast_add, add_sub_cancel_left]
  rw [hgap, absValue, ← mul_div_assoc]
  refine div_le_div_of_nonneg_right ?_ (by positivity)
  exact_mod_cast hunits

/-- What is off by less than one part in `2 ^ 54` is rounded back. -/
theorem isNearest_of_close (hm : m ≤ infinite) (h : 2 ^ 54 * |q - absValue m| < absValue m) :
    IsNearest q m := by
  have hsucc := absValue_succ_le m
  have hnext : absValue m < absValue (m + 1) := absValue_strictMono m.lt_succ_self
  have hright : q - absValue m ≤ |q - absValue m| := le_abs_self _
  have hleft : -|q - absValue m| ≤ q - absValue m := neg_abs_le _
  refine Brackets.isNearest ?_ hm
  exact {
    above := fun _ => by linarith
    even_above := fun _ heq => by linarith
    below := fun k hk => by
      subst hk
      linarith [absValue_succ_le k]
    even_below := fun k hk heq => by
      subst hk
      linarith [absValue_succ_le k] }

/-! ### The quotient between its neighbours -/

/-- The last place of a quotient: the significand has 53 bits there, or the place is
the smallest. -/
theorem scaled_bounds {den : Nat} (hden : 0 < den) (scaled : Nat) :
    scaled < 2 ^ 53 * (den * 2 ^ ((scaled / den).log2 - 52)) ∧
      ((scaled / den).log2 - 52 = 0 ∨
        2 ^ 52 * (den * 2 ^ ((scaled / den).log2 - 52)) ≤ scaled) := by
  constructor
  · have hlog : scaled / den < 2 ^ ((scaled / den).log2 + 1) := Nat.lt_log2_self
    have hpow : 2 ^ ((scaled / den).log2 + 1) ≤ 2 ^ (53 + ((scaled / den).log2 - 52)) :=
      Nat.pow_le_pow_right (by decide) (by omega)
    rw [Nat.mul_left_comm, ← Nat.pow_add, Nat.mul_comm, ← Nat.div_lt_iff_lt_mul hden]
    exact hlog.trans_le hpow
  · by_cases hshift : (scaled / den).log2 ≤ 52
    · exact .inl (by omega)
    · have hquotient : scaled / den ≠ 0 := by
        rintro hzero
        rw [hzero] at hshift
        exact hshift (by decide)
      have hlog : 2 ^ (scaled / den).log2 ≤ scaled / den := Nat.log2_self_le hquotient
      right
      rw [Nat.mul_left_comm, ← Nat.pow_add, Nat.mul_comm, ← Nat.le_div_iff_mul_le hden,
        Nat.add_sub_cancel' (by omega)]
      exact hlog

/-- Halfway to the next double up and down, in units of the last place. -/
structure Straddles (scaled den m : Nat) : Prop where
  above : 2 * scaled ≤ (units m + units (m + 1)) * den
  even_above : 2 * scaled = (units m + units (m + 1)) * den → m % 2 = 0
  below (k : Nat) : m = k + 1 → (units k + units m) * den ≤ 2 * scaled
  even_below (k : Nat) : m = k + 1 → (units k + units m) * den = 2 * scaled → m % 2 = 0

section

variable {den shift scaled r : Nat}

theorem units_mul_of_place (hr : r ≤ 2 ^ 53) (hshift : shift = 0 ∨ 2 ^ 52 ≤ r) :
    units (shift * 2 ^ 52 + r) * den = r * (den * 2 ^ shift) := by
  rw [(units_of_significand hr hshift).1, Nat.mul_assoc, Nat.mul_comm (2 ^ shift)]

/-- The double below a power of two is only half as far, but then the quotient is not below that
power. -/
theorem below_of_place {k : Nat} (hden : 0 < den) (hr : r ≤ 2 ^ 53)
    (hshift : shift = 0 ∨ 2 ^ 52 ≤ r ∧ 2 ^ 52 * (den * 2 ^ shift) ≤ scaled)
    (hdown : 2 * (r * (den * 2 ^ shift)) ≤ 2 * scaled + den * 2 ^ shift)
    (hk : shift * 2 ^ 52 + r = k + 1) :
    (units k + units (k + 1)) * den ≤ 2 * scaled ∧
      ((units k + units (k + 1)) * den = 2 * scaled →
        2 * (r * (den * 2 ^ shift)) = 2 * scaled + den * 2 ^ shift) := by
  have hvalue : units (k + 1) * den = r * (den * 2 ^ shift) :=
    hk ▸ units_mul_of_place hr (hshift.imp_right And.left)
  have hprevious : (units k + units (k + 1)) * den + 2 ^ binade k * den =
      2 * (r * (den * 2 ^ shift)) := by
    have hsum : units k * den + 2 ^ binade k * den = units (k + 1) * den := by
      rw [units_succ, Nat.add_mul]
    rw [Nat.add_mul]
    omega
  have hbinade : binade k ≤ shift := by
    unfold binade
    omega
  rcases Nat.lt_or_eq_of_le hbinade with hlt | heq
  · have hpower : r = 2 ^ 52 := by
      unfold binade at hlt
      omega
    have hle : r * (den * 2 ^ shift) ≤ scaled := by
      rw [hpower]
      exact (hshift.resolve_left (by omega)).2
    have hpos : 0 < 2 ^ binade k * den := Nat.mul_pos (Nat.two_pow_pos _) hden
    omega
  · rw [heq, Nat.mul_comm (2 ^ shift)] at hprevious
    omega

/-- A quotient is rounded in its last place, and the doubles around it are no closer together than
that place, or it does not matter. -/
theorem straddles_of_place (hden : 0 < den) (hr : r ≤ 2 ^ 53)
    (hshift : shift = 0 ∨ 2 ^ 52 ≤ r ∧ 2 ^ 52 * (den * 2 ^ shift) ≤ scaled)
    (hdown : 2 * (r * (den * 2 ^ shift)) ≤ 2 * scaled + den * 2 ^ shift)
    (hup : 2 * scaled ≤ 2 * (r * (den * 2 ^ shift)) + den * 2 ^ shift)
    (heven : 2 * (r * (den * 2 ^ shift)) = 2 * scaled + den * 2 ^ shift ∨
      2 * scaled = 2 * (r * (den * 2 ^ shift)) + den * 2 ^ shift → r % 2 = 0) :
    Straddles scaled den (shift * 2 ^ 52 + r) := by
  have hvalue : units (shift * 2 ^ 52 + r) * den = r * (den * 2 ^ shift) :=
    units_mul_of_place hr (hshift.imp_right And.left)
  have hparity : (shift * 2 ^ 52 + r) % 2 = r % 2 := by omega
  have hstep : den * 2 ^ shift ≤ 2 ^ binade (shift * 2 ^ 52 + r) * den := by
    rw [Nat.mul_comm]
    exact Nat.mul_le_mul_right den (Nat.pow_le_pow_right (by decide)
      (units_of_significand hr (hshift.imp_right And.left)).2)
  have hnext : (units (shift * 2 ^ 52 + r) + units (shift * 2 ^ 52 + r + 1)) * den =
      2 * (r * (den * 2 ^ shift)) + 2 ^ binade (shift * 2 ^ 52 + r) * den := by
    rw [units_succ, Nat.add_mul, Nat.add_mul, hvalue]
    omega
  exact {
    above := by
      rw [hnext]
      omega
    even_above := fun h => by
      rw [hnext] at h
      rw [hparity]
      exact heven (by omega)
    below := fun k hk => hk ▸ (below_of_place hden hr hshift hdown hk).1
    even_below := fun k hk h => by
      rw [hparity]
      rw [hk] at h
      exact heven (.inl ((below_of_place hden hr hshift hdown hk).2 h)) }

end

theorem straddles_roundDiv {den : Nat} (hden : 0 < den) (scaled : Nat) :
    Straddles scaled den (((scaled / den).log2 - 52) * 2 ^ 52 +
      roundDiv scaled (den * 2 ^ ((scaled / den).log2 - 52))) := by
  obtain ⟨hlt, hshift⟩ := scaled_bounds hden scaled
  generalize (scaled / den).log2 - 52 = shift at *
  have hplace : 0 < den * 2 ^ shift := Nat.mul_pos hden (Nat.two_pow_pos shift)
  obtain ⟨hdown, hup, heven⟩ := roundDiv_bounds hplace scaled
  exact straddles_of_place hden (roundDiv_le hlt)
    (hshift.imp_right fun h => ⟨le_roundDiv hplace h, h⟩) hdown hup heven

theorem absValue_eq_div (m : Nat) : absValue m = (units m : ℚ) / ((2 ^ 1074 : Nat) : ℚ) := by
  rw [absValue, Nat.cast_pow, Nat.cast_ofNat]

theorem absValue_add (i j : Nat) :
    absValue i + absValue j = ((units i + units j : Nat) : ℚ) / ((2 ^ 1074 : Nat) : ℚ) := by
  rw [absValue_eq_div, absValue_eq_div, ← add_div, Nat.cast_add]

theorem natCast_div_le_div_iff {a b c d : Nat} (hb : 0 < b) (hd : 0 < d) :
    (a : ℚ) / b ≤ (c : ℚ) / d ↔ a * d ≤ c * b := by
  rw [div_le_div_iff₀ (Nat.cast_pos.2 hb) (Nat.cast_pos.2 hd)]
  norm_cast

theorem two_mul_natCast_div (num den : Nat) :
    2 * ((num : ℚ) / den) = ((2 * num : Nat) : ℚ) / den := by
  rw [← mul_div_assoc, Nat.cast_mul, Nat.cast_ofNat]

theorem le_midpoint_iff {num den i j : Nat} (hden : 0 < den) :
    2 * ((num : ℚ) / den) ≤ absValue i + absValue j ↔
      2 * (num * 2 ^ 1074) ≤ (units i + units j) * den := by
  have hpow : ∀ k, 0 < 2 ^ k := Nat.two_pow_pos
  rw [two_mul_natCast_div, absValue_add, ← Nat.mul_assoc]
  exact natCast_div_le_div_iff hden (hpow 1074)

theorem midpoint_le_iff {num den i j : Nat} (hden : 0 < den) :
    absValue i + absValue j ≤ 2 * ((num : ℚ) / den) ↔
      (units i + units j) * den ≤ 2 * (num * 2 ^ 1074) := by
  have hpow : ∀ k, 0 < 2 ^ k := Nat.two_pow_pos
  rw [two_mul_natCast_div, absValue_add, ← Nat.mul_assoc]
  exact natCast_div_le_div_iff (hpow 1074) hden

/-- What lies behind the largest finite number is cut off to the infinities. -/
theorem Straddles.brackets {num den : Nat} (hden : 0 < den)
    (h : Straddles (num * 2 ^ 1074) den m) : Brackets ((num : ℚ) / den) (min m infinite) := by
  rcases Nat.lt_or_ge infinite m with hgt | hle
  · rw [Nat.min_eq_right hgt.le]
    have hbelow : ∀ k, infinite = k + 1 →
        absValue k + absValue infinite < 2 * ((num : ℚ) / den) := by
      intro k hk
      obtain ⟨j, rfl⟩ : ∃ j, m = j + 1 := ⟨m - 1, by omega⟩
      have hj : absValue k < absValue j := absValue_strictMono (by omega)
      have hlarge : absValue infinite < absValue (j + 1) := absValue_strictMono hgt
      have hmid := (midpoint_le_iff hden).2 (h.below j rfl)
      linarith
    exact {
      above := fun hlt => absurd hlt (Nat.lt_irrefl _)
      even_above := fun hlt => absurd hlt (Nat.lt_irrefl _)
      below := fun k hk => (hbelow k hk).le
      even_below := fun k hk heq => absurd heq (hbelow k hk).ne' }
  · rw [Nat.min_eq_left hle]
    exact {
      above := fun _ => (le_midpoint_iff hden).2 h.above
      even_above := fun _ heq => h.even_above
        (le_antisymm ((le_midpoint_iff hden).1 heq.le) ((midpoint_le_iff hden).1 heq.ge))
      below := fun k hk => (midpoint_le_iff hden).2 (h.below k hk)
      even_below := fun k hk heq => h.even_below k hk
        (le_antisymm ((midpoint_le_iff hden).1 heq.ge) ((le_midpoint_iff hden).1 heq.le)) }

/-- The nearest double to a quotient, of two the even one. -/
theorem nearest_isNearest {den : Nat} (hden : 0 < den) (num : Nat) :
    IsNearest ((num : ℚ) / den) (nearest num den) :=
  ((straddles_roundDiv hden (num * 2 ^ 1074)).brackets hden).isNearest (Nat.min_le_right _ _)

end Double

namespace Decimal

/-- The number that a decimal stands for. -/
def value (d : Decimal) : ℚ := d.coefficient * 10 ^ d.exponent

theorem value_eq_div (d : Decimal) :
    d.value = ((d.coefficient * d.up : Nat) : ℚ) / (d.down : Nat) := by
  rcases Int.eq_nat_or_neg d.exponent with ⟨k, hk | hk⟩
  · simp [value, up, down, hk]
  · simp [value, up, down, hk, div_eq_mul_inv]

theorem down_pos (d : Decimal) : 0 < d.down := Nat.pow_pos (by decide)

theorem toMagnitude_isNearest (d : Decimal) : Double.IsNearest d.value d.toMagnitude := by
  rw [value_eq_div]
  exact Double.nearest_isNearest d.down_pos _

end Decimal

end Sameness
