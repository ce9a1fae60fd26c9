import Sameness.Proofs.ShortestDigits
import Sameness.Proofs.NumberText
import Sameness.Proofs.Spelling

/-!
Numbers are printed readably and without loss.

A finite number is printed as a plain decimal numeral, without a point if it is whole. It is the one
double that is nearest to the numeral. Small whole numbers are written out by way of a machine
integer, and would have the same text by way of their shortest digits.
-/

namespace Sameness

/-- An optional minus, digits, and digits behind a point. -/
structure Numeral where
  negative : Bool
  whole : List Char
  fraction : List Char
  whole_ne_nil : whole ≠ []
  isDigit : ∀ c ∈ whole ++ fraction, c.isDigit = true

namespace Numeral

variable {t u : Numeral}

/-- The point is only there with digits behind it. -/
def chars (t : Numeral) : List Char :=
  (if t.negative then ['-'] else []) ++ Decimal.numeral t.whole t.fraction

/-- The exact value, without the sign. -/
def absValue (t : Numeral) : ℚ := (Decimal.ofDigits t.whole t.fraction).value

theorem exists_numeral_eq_cons (t : Numeral) :
    ∃ c cs, Decimal.numeral t.whole t.fraction = c :: cs ∧ c.isDigit = true :=
  Decimal.Digits.exists_numeral_eq_cons ⟨t.whole_ne_nil, t.isDigit, rfl⟩

theorem read_numeral (t : Numeral) :
    Decimal.read (Decimal.numeral t.whole t.fraction) = Decimal.ofDigits t.whole t.fraction :=
  Decimal.read_numeral fun c hc => t.isDigit c (List.mem_append_left _ hc)

/-- A numeral is read in one way only. -/
theorem eq_of_chars_eq (h : t.chars = u.chars) :
    t.negative = u.negative ∧ t.absValue = u.absValue := by
  have hnumeral : t.negative = u.negative ∧
      Decimal.numeral t.whole t.fraction = Decimal.numeral u.whole u.fraction := by
    obtain ⟨c, cs, hc, hcdigit⟩ := t.exists_numeral_eq_cons
    obtain ⟨d, ds, hd, hddigit⟩ := u.exists_numeral_eq_cons
    have hminus : ('-').isDigit = false := by decide
    unfold chars at h
    rw [hc, hd] at h ⊢
    cases ht : t.negative <;> cases hu : u.negative <;> rw [ht, hu] at h
    · exact ⟨rfl, h⟩
    · rw [(List.cons.inj h).1, hminus] at hcdigit
      cases hcdigit
    · rw [← (List.cons.inj h).1, hminus] at hddigit
      cases hddigit
    · exact ⟨rfl, (List.cons.inj h).2⟩
  refine ⟨hnumeral.1, ?_⟩
  rw [absValue, absValue, ← t.read_numeral, ← u.read_numeral, hnumeral.2]

end Numeral

/-! ### Decimals written out -/

theorem Decimal.value_ofDigits_quotient (n places : Nat) :
    (ofDigits (Nat.toDigits 10 (n / 10 ^ places)) (fractionDigits n places)).value =
      (n : ℚ) / ((10 ^ places : Nat) : ℚ) := by
  have hten : ∀ k, ((10 ^ k : Nat) : ℚ) ≠ 0 :=
    fun k => Nat.cast_ne_zero.2 (Nat.pow_pos (by decide)).ne'
  generalize hfraction : fractionDigits n places = fraction
  generalize hwhole : Nat.toDigits 10 (n / 10 ^ places) = whole
  have hup : (ofDigits whole fraction).up = 1 := by simp [up, ofDigits]
  have hdown : (ofDigits whole fraction).down = 10 ^ fraction.length := by simp [down, ofDigits]
  have hsame : (ofDigits whole fraction).coefficient * 10 ^ places = n * 10 ^ fraction.length := by
    rw [ofDigits, ← hwhole, ← hfraction, ofDigitChars_quotient]
  rw [value_eq_div, hup, hdown, Nat.mul_one, div_eq_div_iff (hten _) (hten _)]
  exact_mod_cast hsame

/-- A decimal is written out exactly. -/
theorem Decimal.exists_numeral_positional (d : Decimal) (negative : Bool) : ∃ t : Numeral,
    t.negative = negative ∧ d.positional.toList = numeral t.whole t.fraction ∧
      t.absValue = d.value := by
  have hdigits := digits_quotient (d.coefficient * d.up) (-d.exponent).toNat
  refine ⟨⟨negative, _, _, hdigits.whole_ne_nil, hdigits.isDigit⟩, rfl, d.positional_eq_numeral, ?_⟩
  rw [value_eq_div]
  exact value_ofDigits_quotient _ _

namespace Double

variable {m n : Nat} {x y : Double} {i : Int}

/-! ### Reading -/

/-- A text is a plain decimal numeral, and a number is the nearest to its exact value, of two the
even one. A zero has the sign of the numeral. -/
def ReadsAs (s : String) (x : Double) : Prop :=
  ∃ t : Numeral, s.toList = t.chars ∧ x.isNegative = t.negative ∧ IsNearest t.absValue x.magnitude

theorem eq_of_magnitude_eq (hsign : x.isNegative = y.isNegative)
    (hmagnitude : x.magnitude = y.magnitude) : x = y := by
  rw [← ofMagnitude_magnitude x, hsign, hmagnitude, ofMagnitude_magnitude]

theorem exists_numeral_text (h : x.isFinite = true) : ∃ t : Numeral,
    x.text.toList = t.chars ∧ x.isNegative = t.negative ∧ IsNearest t.absValue x.magnitude := by
  obtain ⟨whole, fraction, htext, hdigits⟩ := exists_digits_text h
  have hnearest : IsNearest (Decimal.ofDigits whole fraction).value x.magnitude :=
    hdigits.rounds ▸ Decimal.toMagnitude_isNearest _
  exact ⟨⟨x.isNegative, whole, fraction, hdigits.whole_ne_nil, hdigits.isDigit⟩, htext, rfl,
    hnearest⟩

theorem readsAs_text_iff (h : x.isFinite = true) : ReadsAs x.text y ↔ y = x := by
  obtain ⟨t, ht, hsign, hnearest⟩ := exists_numeral_text h
  constructor
  · rintro ⟨u, hu, hysign, hynearest⟩
    obtain ⟨hnegative, hvalue⟩ := Numeral.eq_of_chars_eq (hu.symm.trans ht)
    rw [hvalue] at hynearest
    exact eq_of_magnitude_eq (hysign.trans (hnegative.trans hsign.symm)) (hynearest.unique hnearest)
  · rintro rfl
    exact ⟨t, ht, hsign, hnearest⟩

/-! ### Whole numbers -/

/-- The number that a finite double is. -/
def value (x : Double) : ℚ := if x.isNegative then -absValue x.magnitude else absValue x.magnitude

/-- Without the fraction. -/
def truncated (x : Double) : Int :=
  let n : Nat := units x.magnitude / 2 ^ 1074
  if x.isNegative then -(n : Int) else n

/-- The conversion to a machine integer: it cuts off toward zero, goes no further than the machine
integers do, and gives zero for what is not a number. -/
def toInt64 (x : Double) : Int64 := if x.isNaN then 0 else .ofIntClamp x.truncated

theorem natCast_div_eq_iff {a one : Nat} (hone : 0 < one) : (a : ℚ) / one = n ↔ a = n * one := by
  rw [div_eq_iff (Nat.cast_ne_zero.2 hone.ne')]
  norm_cast

theorem absValue_eq_natCast_iff : absValue m = n ↔ units m = n * 2 ^ 1074 := by
  have hpow : ∀ k, 0 < 2 ^ k := Nat.two_pow_pos
  have hvalue := absValue_eq_div m
  generalize hone : 2 ^ 1074 = one at *
  rw [hvalue]
  exact natCast_div_eq_iff (hone ▸ hpow 1074)

theorem units_div_of_absValue (h : absValue m = n) : units m / 2 ^ 1074 = n := by
  have hpow : ∀ k, 0 < 2 ^ k := Nat.two_pow_pos
  have hone := hpow 1074
  rw [absValue_eq_natCast_iff] at h
  generalize 2 ^ 1074 = one at *
  rw [h, Nat.mul_div_cancel n hone]

theorem absValue_nonneg (m : Nat) : 0 ≤ absValue m :=
  absValue_zero ▸ absValue_strictMono.monotone (Nat.zero_le m)

theorem magnitude_pos (h : absValue m = n) (hn : 0 < n) : 0 < m := by
  rw [Nat.pos_iff_ne_zero]
  rintro rfl
  rw [absValue_zero, eq_comm, Nat.cast_eq_zero] at h
  exact hn.ne' h

theorem absValue_of_value (h : x.value = i) : absValue x.magnitude = i.natAbs := by
  have habs : |x.value| = absValue x.magnitude := by
    unfold value
    split
    · rw [abs_neg, abs_of_nonneg (absValue_nonneg _)]
    · exact abs_of_nonneg (absValue_nonneg _)
  rw [← habs, h, Nat.cast_natAbs, Int.cast_abs]

theorem eq_of_value (h : x.value = i) :
    i = if x.isNegative then -(i.natAbs : Int) else i.natAbs := by
  have habs := absValue_of_value h
  rw [value, habs] at h
  split
  · rename_i hsign
    rw [if_pos hsign, ← Int.cast_natCast, ← Int.cast_neg] at h
    exact (Int.cast_injective h).symm
  · rename_i hsign
    rw [if_neg hsign, ← Int.cast_natCast] at h
    exact (Int.cast_injective h).symm

/-- Whole numbers of up to 53 bits are doubles. -/
theorem exists_absValue_eq (hn : n < 2 ^ 53) : ∃ k < infinite, absValue k = n := by
  rcases Nat.eq_zero_or_pos n with rfl | hpos
  · exact ⟨0, by decide, absValue_zero.trans Nat.cast_zero.symm⟩
  · have hlow : 2 ^ n.log2 ≤ n := Nat.log2_self_le hpos.ne'
    have hhigh : n < 2 ^ (n.log2 + 1) := Nat.lt_log2_self
    have hlog : n.log2 < 53 := (Nat.log2_lt hpos.ne').2 hn
    generalize n.log2 = l at *
    have hsplit : ∀ e, 2 ^ e * 2 ^ (52 - l) = 2 ^ (e + (52 - l)) :=
      fun e => (Nat.pow_add 2 e _).symm
    have hmin : 2 ^ 52 ≤ n * 2 ^ (52 - l) := by
      calc 2 ^ 52 = 2 ^ l * 2 ^ (52 - l) := by rw [hsplit, Nat.add_sub_cancel' (by omega)]
        _ ≤ n * 2 ^ (52 - l) := Nat.mul_le_mul_right _ hlow
    have hmax : n * 2 ^ (52 - l) < 2 ^ 53 := by
      calc n * 2 ^ (52 - l) < 2 ^ (l + 1) * 2 ^ (52 - l) :=
            Nat.mul_lt_mul_of_pos_right hhigh (Nat.two_pow_pos _)
        _ = 2 ^ 53 := by rw [hsplit]; congr 1; omega
    obtain ⟨hunits, -⟩ := units_of_significand (b := 1022 + l) hmax.le (.inr hmin)
    refine ⟨_, ?_, absValue_eq_natCast_iff.2 (hunits.trans ?_)⟩
    · unfold infinite
      omega
    · rw [Nat.mul_assoc, ← Nat.pow_add]
      congr 2
      omega

/-- Only one whole number is rounded to a whole number of fewer than 53 bits. -/
theorem IsNearest.natCast_eq {N : Nat} (h : IsNearest (N : ℚ) m) (hm : absValue m = n)
    (hn : n < 2 ^ 52) : N = n := by
  rcases Nat.lt_or_ge N (2 ^ 53) with hlt | hge
  · obtain ⟨k, hk, hvalue⟩ := exists_absValue_eq hlt
    have hmk : m = k := h.unique (hvalue ▸ isNearest_absValue hk.le)
    rw [hmk, hvalue] at hm
    exact Nat.cast_injective hm
  · obtain ⟨k, hk, hvalue⟩ := exists_absValue_eq (n := 2 ^ 52) (by decide)
    have hcloser := h.closest k hk.le
    have hnq : (n : ℚ) < (2 ^ 52 : Nat) := Nat.cast_lt.2 hn
    have hNq : ((2 ^ 52 : Nat) : ℚ) ≤ N := Nat.cast_le.2 (by omega)
    rw [hm, hvalue, abs_of_nonneg (by linarith), abs_of_nonneg (by linarith)] at hcloser
    linarith

end Double

/-! ### Texts of whole numbers -/

theorem Decimal.value_of_exponent_nonneg {d : Decimal} (h : 0 ≤ d.exponent) :
    d.value = (d.coefficient * d.up : Nat) := by
  obtain ⟨k, hk⟩ := Int.eq_ofNat_of_zero_le h
  simp [value, up, hk]

/-- No digits are left below the point. -/
theorem Decimal.positional_of_exponent_nonneg {d : Decimal} (h : 0 ≤ d.exponent) :
    d.positional = toString (d.coefficient * d.up) := by
  have hplaces : (-d.exponent).toNat = 0 := by omega
  have hdown : d.down = 1 := by rw [down, hplaces, Nat.pow_zero]
  rw [Nat.toString_eq_ofList_toDigits]
  simp [positional, hplaces, hdown, Nat.mod_one]

namespace Double

variable {m n : Nat} {x y : Double} {i : Int}

theorem shortest_isNearest (h : m < infinite) : IsNearest (shortest m).value m := by
  have hback := (shortest m).toMagnitude_isNearest
  rwa [toMagnitude_shortest h] at hback

theorem exists_numeral_generalText (x : Double) : ∃ t : Numeral, x.generalText.toList = t.chars ∧
    x.isNegative = t.negative ∧ t.absValue = (shortest x.magnitude).value := by
  obtain ⟨t, hsign, htext, hvalue⟩ :=
    (shortest x.magnitude).exists_numeral_positional x.isNegative
  refine ⟨t, ?_, hsign.symm, hvalue⟩
  rw [generalText, toList_sign_append, htext, Numeral.chars, hsign, signText]

/-- A whole number has the text of a whole number by way of its shortest digits, too. -/
theorem generalText_of_whole (hx : x.isFinite = true) (hn : absValue x.magnitude = n)
    (hpos : 0 < n) : ∃ N : Nat, x.generalText = (if x.isNegative then "-" else "") ++ toString N ∧
      IsNearest (N : ℚ) x.magnitude := by
  have hlt : x.magnitude < infinite := lt_infinite hx
  have hexponent := shortest_exponent_nonneg (magnitude_pos hn hpos) hlt hn
  refine ⟨_, by rw [generalText, Decimal.positional_of_exponent_nonneg hexponent], ?_⟩
  rw [← Decimal.value_of_exponent_nonneg hexponent]
  exact shortest_isNearest hlt

theorem isShortIntegral_of_whole (hx : x.isFinite = true) (hn : absValue x.magnitude = n) :
    x.isShortIntegral = decide (n < 10 ^ 15) := by
  have hpow : ∀ k, 0 < 2 ^ k := Nat.two_pow_pos
  have hunits : units x.magnitude = n * 2 ^ 1074 := absValue_eq_natCast_iff.1 hn
  have hone : 0 < 2 ^ 1074 := hpow 1074
  rw [isShortIntegral, isIntegral, hx, hunits]
  generalize 2 ^ 1074 = one at *
  rw [Nat.mul_mod_left]
  simp [Nat.mul_lt_mul_right hone]

theorem text_of_whole (hx : x.isFinite = true) (hn : absValue x.magnitude = n)
    (hzero : (x.isZero && x.isNegative) = false) :
    x.text = if n < 10 ^ 15 then (if x.isNegative then "-" else "") ++ toString n
      else x.generalText := by
  simp only [text, isNaN_of_isFinite hx, isInfinite_of_isFinite hx, hzero,
    isShortIntegral_of_whole hx hn, units_div_of_absValue hn, decide_eq_true_eq, Bool.false_eq_true,
    if_false]

theorem point_notMem (x : Double) (N : Nat) :
    '.' ∉ ((if x.isNegative then "-" else "") ++ toString N).toList := by
  rw [toList_sign_append, Nat.toString_eq_ofList_toDigits, String.toList_ofList, List.mem_append]
  rintro (hsign | hdigit)
  · unfold signText at hsign
    split at hsign <;> simp at hsign
  · exact absurd (Nat.isDigit_of_mem_toDigits (by decide) (by decide) hdigit) (by decide)

theorem exists_text_of_whole (hx : x.isFinite = true) (hn : absValue x.magnitude = n)
    (hzero : (x.isZero && x.isNegative) = false) :
    ∃ N : Nat, x.text = (if x.isNegative then "-" else "") ++ toString N := by
  rw [text_of_whole hx hn hzero]
  split
  · exact ⟨n, rfl⟩
  · obtain ⟨N, hN, -⟩ := generalText_of_whole hx hn (by omega)
    exact ⟨N, hN⟩

/-- The two ways of writing a whole number lead to the same digits. -/
theorem text_of_short_whole (hx : x.isFinite = true) (hn : absValue x.magnitude = n) (hpos : 0 < n)
    (hlt : n < 10 ^ 15) : x.text = (if x.isNegative then "-" else "") ++ toString n ∧
      x.generalText = (if x.isNegative then "-" else "") ++ toString n := by
  have hzero : (x.isZero && x.isNegative) = false := by
    rw [isZero, beq_eq_false_iff_ne.2 (magnitude_pos hn hpos).ne', Bool.false_and]
  obtain ⟨N, hN, hnearest⟩ := generalText_of_whole hx hn hpos
  rw [hnearest.natCast_eq hn (by omega)] at hN
  rw [text_of_whole hx hn hzero, if_pos hlt]
  exact ⟨rfl, hN⟩

/-! ### By way of a machine integer -/

theorem truncated_of_value (h : x.value = i) : x.truncated = i := by
  simp only [truncated, units_div_of_absValue (absValue_of_value h)]
  exact (eq_of_value h).symm

theorem toInt_toInt64 (hx : x.isFinite = true) (h : x.value = i) (hi : |i| < 10 ^ 15) :
    x.toInt64.toInt = i := by
  have hmin : Int64.minValue.toInt = -2 ^ 63 := by decide
  have hmax : Int64.maxValue.toInt = 2 ^ 63 - 1 := by decide
  obtain ⟨hlow, hhigh⟩ := abs_lt.1 hi
  rw [toInt64, isNaN_of_isFinite hx, if_neg Bool.false_ne_true, truncated_of_value h]
  exact Int64.toInt_ofIntClamp (by omega) (by omega)

theorem toString_of_value (h : x.value = i) (hi : i ≠ 0) :
    toString i = (if x.isNegative then "-" else "") ++ toString i.natAbs := by
  obtain ⟨k, hk⟩ : ∃ k, i.natAbs = k + 1 := ⟨i.natAbs - 1, by omega⟩
  have hcases := eq_of_value h
  rw [hk] at hcases ⊢
  rw [hcases]
  split <;> rfl

/-! ### Numbers told apart -/

theorem text_of_isNaN (h : x.isNaN = true) : x.text = "+nan.0" := by simp [text, h]

theorem isNaN_of_text_eq (h : x.text = y.text) (hx : x.isNaN = true) : y.isNaN = true := by
  by_contra hy
  rw [Bool.not_eq_true] at hy
  have hletter : 'a' ∈ y.text.toList := by
    rw [← h, text_of_isNaN hx]
    decide
  exact absurd (mem_text hy hletter) (by decide)

theorem text_eq_iff : x.text = y.text ↔ x = y ∨ x.isNaN = true ∧ y.isNaN = true := by
  constructor
  · intro h
    cases hx : x.isNaN with
    | true => exact .inr ⟨rfl, isNaN_of_text_eq h hx⟩
    | false =>
      have hy : y.isNaN = false := by
        by_contra hy
        rw [Bool.not_eq_false] at hy
        rw [isNaN_of_text_eq h.symm hy] at hx
        cases hx
      exact .inl (text_injOn hx hy h)
  · rintro (rfl | ⟨hx, hy⟩)
    · rfl
    · rw [text_of_isNaN hx, text_of_isNaN hy]

/-! ### The law -/

/-- What the text of a number tells, for every number. -/
structure TextLaw (x : Double) : Prop where
  /-- The text of a finite number is a numeral that reads as this number and as no other. -/
  reads : x.isFinite = true → ∀ y, ReadsAs x.text y ↔ y = x
  /-- Whole numbers are written without a point, but for the negative zero. -/
  whole : x.isFinite = true → ∀ i : Int, x.value = i → (x.isZero && x.isNegative) = false →
    '.' ∉ x.text.toList
  infinite : x.isInfinite = true → x.text = if x.isNegative then "-inf.0" else "+inf.0"
  nan : x.isNaN = true → x.text = "+nan.0"
  /-- One text stands for one number, all NaNs taken together. -/
  tells : ∀ y, x.text = y.text ↔ x = y ∨ x.isNaN = true ∧ y.isNaN = true
  /-- The way by a machine integer loses nothing and makes no difference. -/
  machine : x.isFinite = true → ∀ i : Int, x.value = i → i ≠ 0 → |i| < 10 ^ 15 →
    x.toInt64.toInt = i ∧ x.text = toString x.toInt64 ∧ x.text = x.generalText
  /-- The general way writes out a decimal that reads as this number, and none with fewer digits
  does. -/
  general : x.isFinite = true → 0 < x.magnitude →
    (∃ t : Numeral, x.generalText.toList = t.chars ∧ x.isNegative = t.negative ∧
      t.absValue = (shortest x.magnitude).value) ∧
    IsNearest (shortest x.magnitude).value x.magnitude ∧
    ∀ (d : Decimal) (k : Nat), IsNearest d.value x.magnitude → d.coefficient < 10 ^ k →
      (shortest x.magnitude).coefficient ≤ 10 ^ k
  /-- This is the text that is printed, written or displayed. -/
  printed : ∀ (st : Store) (m : Mode), (st.print m (.number x)).Returns x.text

theorem textLaw (x : Double) : TextLaw x where
  reads hx y := readsAs_text_iff hx
  whole hx i h hzero := by
    obtain ⟨N, hN⟩ := exists_text_of_whole hx (absValue_of_value h) hzero
    rw [hN]
    exact point_notMem x N
  infinite h := text_of_infinite (beq_iff_eq.1 h)
  nan := text_of_isNaN
  tells _ := text_eq_iff
  machine hx i h hi hsmall := by
    have hpos : 0 < i.natAbs := Int.natAbs_pos.2 hi
    have hlt : i.natAbs < 10 ^ 15 := by
      rw [Int.abs_eq_natAbs] at hsmall
      exact_mod_cast hsmall
    have hint : x.toInt64.toInt = i := toInt_toInt64 hx h hsmall
    obtain ⟨htext, hgeneral⟩ := text_of_short_whole hx (absValue_of_value h) hpos hlt
    refine ⟨hint, ?_, htext.trans hgeneral.symm⟩
    rw [htext, ← toString_of_value h hi, ← hint]
    rfl
  general hx hm := ⟨exists_numeral_generalText x, shortest_isNearest (lt_infinite hx), fun _ _ =>
    shortest_coefficient_le hm (lt_infinite hx)⟩
  printed st m := by
    rw [Store.returns_print_iff]
    cases m <;> exact (Store.spells_single_iff rfl rfl).2 rfl

end Double

end Sameness
