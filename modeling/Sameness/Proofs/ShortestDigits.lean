import Sameness.Proofs.CorrectRounding

/-!
`Double.shortest` has the fewest digits that are rounded to a double.

Candidates are looked for on one grid of powers of ten after the other, on each of them next to the
double. What is rounded to it has no gaps, so there is nothing farther off on a grid that has
nothing there, and the grid with seventeen digits is so fine that it always has.
-/

namespace Sameness

namespace Double

variable {m k N : Nat} {q : ℚ} {e : Int} {d : Decimal}

/-! ### Grids -/

/-- How many steps of `10 ^ e` fit below a double. -/
def steps (m : Nat) (e : Int) : Nat :=
  units m * (⟨1, e⟩ : Decimal).down / (2 ^ 1074 * (⟨1, e⟩ : Decimal).up)

theorem mem_either_order {α : Type} {a b x : α} {c : Prop} [Decidable c] :
    x ∈ (if c then [a, b] else [b, a]) ↔ x = a ∨ x = b := by
  split <;> simp [or_comm]

/-- The candidates are the grid points on the two sides, the nearer one first. -/
theorem exists_candidates (m : Nat) (e : Int) : ∃ near : List Decimal,
    neighbour? m e = near.find? (fun d => d.toMagnitude == m) ∧
      ∀ d, d ∈ near ↔ d = ⟨steps m e, e⟩ ∨ d = ⟨steps m e + 1, e⟩ :=
  ⟨_, rfl, fun _ => mem_either_order⟩

theorem eq_of_neighbour? (h : neighbour? m e = some d) :
    d = ⟨steps m e, e⟩ ∨ d = ⟨steps m e + 1, e⟩ := by
  obtain ⟨near, hfind, hmem⟩ := exists_candidates m e
  rw [hfind] at h
  exact (hmem d).1 (List.mem_of_find?_eq_some h)

theorem neighbour?_ne_none (hd : d = ⟨steps m e, e⟩ ∨ d = ⟨steps m e + 1, e⟩)
    (hback : IsNearest d.value m) : neighbour? m e ≠ none := by
  obtain ⟨near, hfind, hmem⟩ := exists_candidates m e
  rw [hfind]
  intro hnone
  have hother := List.find?_eq_none.1 hnone d ((hmem d).2 hd)
  exact hother (beq_iff_eq.2 (d.toMagnitude_isNearest.unique hback))

theorem le_steps_iff : N ≤ steps m e ↔ (⟨N, e⟩ : Decimal).value ≤ absValue m := by
  have hpow : ∀ k, 0 < 2 ^ k := Nat.two_pow_pos
  have hup : 0 < (⟨1, e⟩ : Decimal).up := Nat.pow_pos (by decide)
  have hvalue : (⟨N, e⟩ : Decimal).value =
      ((N * (⟨1, e⟩ : Decimal).up : Nat) : ℚ) / ((⟨1, e⟩ : Decimal).down : Nat) :=
    Decimal.value_eq_div _
  rw [steps, Nat.le_div_iff_mul_le (Nat.mul_pos (hpow 1074) hup), Nat.mul_left_comm,
    Nat.mul_comm (2 ^ 1074), absValue_eq_div, hvalue]
  exact (natCast_div_le_div_iff (Decimal.down_pos _) (hpow 1074)).symm

theorem steps_le (m : Nat) (e : Int) : (⟨steps m e, e⟩ : Decimal).value ≤ absValue m :=
  le_steps_iff.1 le_rfl

theorem lt_steps_succ (m : Nat) (e : Int) : absValue m < (⟨steps m e + 1, e⟩ : Decimal).value :=
  not_le.1 fun hle => (steps m e).lt_irrefl (le_steps_iff.2 hle)

/-- There is a candidate on each grid that has something that is rounded to the double. -/
theorem neighbour?_ne_none_of_isNearest (h : IsNearest q m)
    (hq : q ≤ (⟨steps m e, e⟩ : Decimal).value ∨ (⟨steps m e + 1, e⟩ : Decimal).value ≤ q) :
    neighbour? m e ≠ none := by
  have hself : IsNearest (absValue m) m := isNearest_absValue h.le_infinite
  rcases hq with hq | hq
  · exact neighbour?_ne_none (.inl rfl) (h.between hself hq (steps_le m e))
  · exact neighbour?_ne_none (.inr rfl) (hself.between h (lt_steps_succ m e).le hq)

theorem value_le_value (h : N ≤ k) : (⟨N, e⟩ : Decimal).value ≤ (⟨k, e⟩ : Decimal).value :=
  mul_le_mul_of_nonneg_right (Nat.cast_le.2 h) (zpow_nonneg (by norm_num) _)

theorem neighbour?_ne_none_of_grid (h : IsNearest (⟨N, e⟩ : Decimal).value m) :
    neighbour? m e ≠ none := by
  apply neighbour?_ne_none_of_isNearest h
  rcases Nat.lt_or_ge (steps m e) N with hlt | hge
  · exact .inr (value_le_value hlt)
  · exact .inl (value_le_value hge)

/-! ### The first digit -/

theorem absValue_zero : absValue 0 = 0 := by
  rw [absValue_eq_div]
  exact div_eq_zero_iff.2 (.inl Nat.cast_zero)

theorem absValue_pos (hm : 0 < m) : 0 < absValue m := absValue_zero ▸ absValue_strictMono hm

theorem steps_neg (m k : Nat) : steps m (-(k : Int)) = units m * 10 ^ k / 2 ^ 1074 := by
  have hup : (⟨1, -(k : Int)⟩ : Decimal).up = 1 := by simp [Decimal.up]
  have hdown : (⟨1, -(k : Int)⟩ : Decimal).down = 10 ^ k := by simp [Decimal.down]
  rw [steps, hup, hdown, Nat.mul_one]

/-- The grid on which the first digit is found has a step below the smallest double. -/
theorem steps_pos (hm : 0 < m) : 0 < steps m (-(324 : Nat)) := by
  have hpow : ∀ k, 0 < 2 ^ k := Nat.two_pow_pos
  have hunits : 1 ≤ units m := units_strictMono hm
  have hgrid : 2 ^ 1074 ≤ 10 ^ 324 := by decide +kernel
  rw [steps_neg]
  exact Nat.div_pos (hgrid.trans (Nat.le_mul_of_pos_left _ hunits)) (hpow 1074)

theorem value_ten_pow (j : Nat) (e : Int) : (⟨10 ^ j, e⟩ : Decimal).value = 10 ^ (j + e) := by
  rw [Decimal.value, Nat.cast_pow, Nat.cast_ofNat, zpow_add₀ (by norm_num), zpow_natCast]

theorem le_steps_ten_pow_iff {j : Nat} :
    10 ^ j ≤ steps m e ↔ (10 : ℚ) ^ (j + e) ≤ absValue m := by
  rw [le_steps_iff, value_ten_pow]

theorem decimalExponent_spec (hm : 0 < m) :
    10 ^ (decimalExponent m - 1) ≤ absValue m ∧ absValue m < 10 ^ decimalExponent m := by
  have hpos : 0 < steps m (-(324 : Nat)) := steps_pos hm
  have htop : decimalExponent m =
      ((Nat.toDigits 10 (steps m (-(324 : Nat)))).length : Int) - 324 := by
    rw [steps_neg, decimalExponent]
  have hlength : 0 < (Nat.toDigits 10 (steps m (-(324 : Nat)))).length := Nat.length_toDigits_pos
  have hlt : ∀ j, 0 < j → ((Nat.toDigits 10 (steps m (-(324 : Nat)))).length ≤ j ↔
      steps m (-(324 : Nat)) < 10 ^ j) := fun j => Nat.length_toDigits_le_iff (by decide)
  rw [htop]
  generalize (Nat.toDigits 10 (steps m (-(324 : Nat)))).length = length at *
  obtain ⟨j, rfl⟩ : ∃ j, length = j + 1 := ⟨length - 1, by omega⟩
  have hlow : 10 ^ j ≤ steps m (-(324 : Nat)) := by
    rcases Nat.eq_zero_or_pos j with rfl | hj
    · exact hpos
    · exact Nat.le_of_not_lt fun h => absurd ((hlt j hj).2 h) (by omega)
  have hhigh : ¬10 ^ (j + 1) ≤ steps m (-(324 : Nat)) :=
    Nat.not_le_of_lt ((hlt (j + 1) hlength).1 le_rfl)
  rw [le_steps_ten_pow_iff] at hlow hhigh
  have hexponent : ((j + 1 : Nat) : Int) - 324 - 1 = j + -(324 : Nat) := by omega
  rw [hexponent]
  exact ⟨hlow, not_le.1 hhigh⟩

/-! ### Fewest digits -/

/-- Seventeen digits are off by so little that they are rounded back. -/
theorem neighbour?_seventeen (hm : 0 < m) (hlt : m ≤ infinite) :
    neighbour? m (decimalExponent m - (17 : Nat)) ≠ none := by
  obtain ⟨hfirst, -⟩ := decimalExponent_spec hm
  have hdigits : (10 : ℚ) ^ (decimalExponent m - 1) =
      10 ^ 16 * 10 ^ (decimalExponent m - (17 : Nat)) := by
    rw [← zpow_natCast, ← zpow_add₀ (by norm_num)]
    congr 1
    omega
  generalize decimalExponent m - (17 : Nat) = e at *
  have hstep : (0 : ℚ) < 10 ^ e := zpow_pos (by norm_num) _
  have hlow := steps_le m e
  have hhigh := lt_steps_succ m e
  have hsucc : (⟨steps m e + 1, e⟩ : Decimal).value =
      (⟨steps m e, e⟩ : Decimal).value + 10 ^ e := by
    rw [Decimal.value, Decimal.value, Nat.cast_succ, add_one_mul]
  rcases le_total (2 * (absValue m - (⟨steps m e, e⟩ : Decimal).value)) (10 ^ e) with hnear | hfar
  · refine neighbour?_ne_none (.inl rfl) (isNearest_of_close hlt ?_)
    rw [abs_of_nonpos (by linarith)]
    linarith
  · refine neighbour?_ne_none (.inr rfl) (isNearest_of_close hlt ?_)
    rw [abs_of_nonneg (by linarith)]
    linarith

theorem exists_value_eq (he : e ≤ d.exponent) : ∃ N, d.value = (⟨N, e⟩ : Decimal).value := by
  obtain ⟨j, hj⟩ := Int.le.dest he
  refine ⟨d.coefficient * 10 ^ j, ?_⟩
  rw [Decimal.value, Decimal.value, ← hj, zpow_add₀ (by norm_num), zpow_natCast]
  push_cast
  ring

/-- Where some digits are rounded to the double, a candidate with no more digits is. -/
theorem neighbour?_ne_none_of_digits (hm : 0 < m) (hk : 0 < k) (hd : d.coefficient < 10 ^ k)
    (h : IsNearest d.value m) : neighbour? m (decimalExponent m - k) ≠ none := by
  rcases lt_or_ge d.exponent (decimalExponent m - k) with hfine | hcoarse
  -- The digits are all behind the first digit of the double, whose power of ten is on the grid.
  · obtain ⟨j, rfl⟩ : ∃ j, k = j + 1 := ⟨k - 1, by omega⟩
    obtain ⟨hfirst, -⟩ := decimalExponent_spec hm
    have hsplit : decimalExponent m - 1 = j + (decimalExponent m - (j + 1 : Nat)) := by omega
    have hsteps : 10 ^ j ≤ steps m (decimalExponent m - (j + 1 : Nat)) := by
      rwa [le_steps_ten_pow_iff, ← hsplit]
    refine neighbour?_ne_none_of_isNearest h (.inl ?_)
    calc d.value ≤ (⟨10 ^ (j + 1), d.exponent⟩ : Decimal).value := value_le_value hd.le
      _ = 10 ^ ((j + 1 : Nat) + d.exponent) := value_ten_pow _ _
      _ ≤ 10 ^ (j + (decimalExponent m - (j + 1 : Nat))) :=
        zpow_le_zpow_right₀ (by norm_num) (by omega)
      _ = (⟨10 ^ j, decimalExponent m - (j + 1 : Nat)⟩ : Decimal).value := (value_ten_pow _ _).symm
      _ ≤ _ := value_le_value hsteps
  · obtain ⟨N, hN⟩ := exists_value_eq hcoarse
    rw [hN] at h
    exact neighbour?_ne_none_of_grid h

theorem findSome?_range'_eq_some {α : Type} {f : Nat → Option α} {a : α} {s n : Nat}
    (h : (List.range' s n).findSome? f = some a) :
    ∃ k, s ≤ k ∧ f k = some a ∧ ∀ j, s ≤ j → j < k → f j = none := by
  induction n generalizing s with
  | zero => cases h
  | succ n ih =>
    rw [List.range'_succ, List.findSome?_cons] at h
    cases hs : f s with
    | some b =>
      rw [hs] at h
      exact ⟨s, le_rfl, hs.trans h, fun j hj hlt => absurd hlt (Nat.not_lt_of_le hj)⟩
    | none =>
      rw [hs] at h
      obtain ⟨k, hk, ha, hnone⟩ := ih h
      refine ⟨k, Nat.le_of_succ_le hk, ha, fun j hj hlt => ?_⟩
      rcases Nat.eq_or_lt_of_le hj with rfl | hgt
      · exact hs
      · exact hnone j hgt hlt

/-- The digits are those on the coarsest grid that has a candidate. -/
theorem shortest_spec (hm : 0 < m) (hlt : m < infinite) :
    ∃ k : Nat, neighbour? m (decimalExponent m - k) = some (shortest m) ∧
      ∀ j, 0 < j → neighbour? m (decimalExponent m - (j : Nat)) ≠ none → k ≤ j := by
  have hseventeen := neighbour?_seventeen hm hlt.le
  have hsome : shortest m = ((List.range' 1 17).findSome? fun (digits : Nat) =>
      neighbour? m (decimalExponent m - digits)).getD (exactDecimal m) := rfl
  cases hfound : (List.range' 1 17).findSome? fun (digits : Nat) =>
      neighbour? m (decimalExponent m - digits) with
  | none => exact absurd (List.findSome?_eq_none_iff.1 hfound 17 (by decide)) hseventeen
  | some d =>
    obtain ⟨k, -, hd, hnone⟩ := findSome?_range'_eq_some hfound
    rw [hsome, hfound, Option.getD_some]
    exact ⟨k, hd, fun j hj hne => Nat.le_of_not_lt fun hlt => hne (hnone j hj hlt)⟩

/-- No decimal with fewer digits is rounded to the double. One with a single digit may be written
with a zero behind it. -/
theorem shortest_coefficient_le (hm : 0 < m) (hlt : m < infinite) (h : IsNearest d.value m)
    (hd : d.coefficient < 10 ^ k) : (shortest m).coefficient ≤ 10 ^ k := by
  have hpos : 0 < k := by
    rcases Nat.eq_zero_or_pos k with rfl | hpos
    · have hzero : d.value = absValue 0 := by
        rw [Decimal.value, Nat.lt_one_iff.1 hd, Nat.cast_zero, zero_mul, absValue_zero]
      have hm0 : m = 0 := by
        rw [hzero] at h
        exact h.unique (isNearest_absValue (Nat.zero_le _))
      exact absurd hm0 hm.ne'
    · exact hpos
  obtain ⟨first, hfound, hfirst⟩ := shortest_spec hm hlt
  have hle : first ≤ k := hfirst k hpos (neighbour?_ne_none_of_digits hm hpos hd h)
  have hsteps : steps m (decimalExponent m - first) < 10 ^ first := by
    obtain ⟨-, hbelow⟩ := decimalExponent_spec hm
    have hsum : (first : Int) + (decimalExponent m - first) = decimalExponent m := by omega
    rw [← Nat.not_le, le_steps_ten_pow_iff, hsum, not_le]
    exact hbelow
  calc (shortest m).coefficient ≤ steps m (decimalExponent m - first) + 1 := by
        rcases eq_of_neighbour? hfound with heq | heq <;> rw [heq]
        exact Nat.le_succ _
    _ ≤ 10 ^ first := hsteps
    _ ≤ 10 ^ k := Nat.pow_le_pow_right (by decide) hle

/-! ### Whole numbers -/

/-- The shortest digits of a whole number have none behind the point. -/
theorem shortest_exponent_nonneg (hm : 0 < m) (hlt : m < infinite) (hvalue : absValue m = N) :
    0 ≤ (shortest m).exponent := by
  obtain ⟨first, hfound, hfirst⟩ := shortest_spec hm hlt
  have hN : 1 ≤ N := by
    have hpos : 0 < absValue m := absValue_pos hm
    rw [hvalue] at hpos
    exact Nat.cast_pos.1 hpos
  have htop : 0 < decimalExponent m := by
    obtain ⟨-, hbelow⟩ := decimalExponent_spec hm
    have hone : (10 : ℚ) ^ (0 : Int) < 10 ^ decimalExponent m := by
      rw [zpow_zero]
      exact (Nat.one_le_cast.2 hN).trans_lt (hvalue ▸ hbelow)
    exact (zpow_lt_zpow_iff_right₀ (by norm_num)).1 hone
  obtain ⟨top, hnat⟩ := Int.eq_ofNat_of_zero_le htop.le
  have hself : IsNearest (⟨N, decimalExponent m - top⟩ : Decimal).value m := by
    have hsame : (⟨N, decimalExponent m - top⟩ : Decimal).value = absValue m := by
      rw [Decimal.value, hnat, Int.sub_self, zpow_zero, mul_one, hvalue]
    rw [hsame]
    exact isNearest_absValue hlt.le
  have hle : first ≤ top := hfirst top (by omega) (neighbour?_ne_none_of_grid hself)
  have hexponent : (shortest m).exponent = decimalExponent m - first := by
    rcases eq_of_neighbour? hfound with heq | heq <;> rw [heq]
  omega

end Double

end Sameness
