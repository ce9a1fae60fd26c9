import Mathlib.Data.List.DropRight
import Sameness.Proofs.Identity
import Sameness.Proofs.Nearest

/-!
Numbers as they are printed, and how they are read back.

The text of a finite double is a sign and a positional numeral. Whatever digits were chosen for it,
its value rounds to the double.
-/

namespace Sameness

namespace Decimal

/-- A point and a fraction stand only where the fraction has digits. -/
def numeral (whole fraction : List Char) : List Char :=
  if fraction.isEmpty then whole else whole ++ '.' :: fraction

theorem numeral_nil (whole : List Char) : numeral whole [] = whole := rfl

def ofDigits (whole fraction : List Char) : Decimal :=
  ⟨Nat.ofDigitChars 10 (whole ++ fraction) 0, -(fraction.length : Int)⟩

def read (cs : List Char) : Decimal :=
  ofDigits (cs.takeWhile (· != '.')) ((cs.dropWhile (· != '.')).drop 1)

/-- The digits of a numeral whose value rounds to the magnitude `m`. -/
structure Digits (whole fraction : List Char) (m : Nat) : Prop where
  whole_ne_nil : whole ≠ []
  isDigit : ∀ c ∈ whole ++ fraction, c.isDigit = true
  rounds : (ofDigits whole fraction).toMagnitude = m

theorem toMagnitude_ofDigits (whole fraction : List Char) :
    (ofDigits whole fraction).toMagnitude =
      Double.nearest (Nat.ofDigitChars 10 (whole ++ fraction) 0) (10 ^ fraction.length) := by
  simp [toMagnitude, ofDigits, up, down]

theorem ne_point_of_isDigit {c : Char} (h : c.isDigit = true) : (c != '.') = true := by
  rw [bne_iff_ne]
  rintro rfl
  exact absurd h (by decide)

theorem read_numeral {whole fraction : List Char} (h : ∀ c ∈ whole, c.isDigit = true) :
    read (numeral whole fraction) = ofDigits whole fraction := by
  have hpoint : ∀ c ∈ whole, (c != '.') = true := fun c hc => ne_point_of_isDigit (h c hc)
  unfold read numeral
  cases fraction with
  | nil => simp [List.takeWhile_eq_self_iff.2 hpoint, List.dropWhile_eq_nil_iff.2 hpoint]
  | cons c cs => simp [List.takeWhile_append_of_pos hpoint, List.dropWhile_append_of_pos hpoint]

theorem mem_numeral {whole fraction : List Char} {c : Char} (h : c ∈ numeral whole fraction) :
    c ∈ whole ++ fraction ∨ c = '.' := by
  unfold numeral at h
  split at h
  · exact .inl (List.mem_append_left _ h)
  · rcases List.mem_append.1 h with h | h
    · exact .inl (List.mem_append_left _ h)
    · rcases List.mem_cons.1 h with h | h
      · exact .inr h
      · exact .inl (List.mem_append_right _ h)

theorem Digits.exists_numeral_eq_cons {whole fraction : List Char} {m : Nat}
    (h : Digits whole fraction m) :
    ∃ c cs, numeral whole fraction = c :: cs ∧ c.isDigit = true := by
  obtain ⟨c, cs, rfl⟩ := List.exists_cons_of_ne_nil h.whole_ne_nil
  refine ⟨c, numeral cs fraction, ?_, h.isDigit c (by simp)⟩
  unfold numeral
  split <;> rfl

/-! ### Positional digits -/

theorem exists_zeros_behind (cs : List Char) :
    ∃ zeros, cs = cs.rdropWhile (· == '0') ++ List.replicate zeros '0' := by
  refine ⟨(cs.rtakeWhile (· == '0')).length, ?_⟩
  have hzeros : cs.rtakeWhile (· == '0') =
      List.replicate (cs.rtakeWhile (· == '0')).length '0' := by
    apply List.eq_replicate_of_mem
    intro c hc
    simpa using List.mem_rtakeWhile_imp hc
  rw [← hzeros, List.rdropWhile_append_rtakeWhile]

theorem ofDigitChars_zeros_before (zeros n init : Nat) :
    Nat.ofDigitChars 10 (List.replicate zeros '0' ++ Nat.toDigits 10 n) init =
      10 ^ (zeros + (Nat.toDigits 10 n).length) * init + n := by
  rw [Nat.ofDigitChars_append, Nat.ofDigitChars_replicate_zero,
    Nat.ofDigitChars_eq_ofDigitChars_zero, Nat.ofDigitChars_ten_toDigits, Nat.add_comm zeros,
    Nat.pow_add, Nat.mul_assoc]

/-- The digits of `n / 10 ^ places` behind the point, without zeros at their end. -/
def fractionDigits (n places : Nat) : List Char :=
  (List.replicate (places - (Nat.toDigits 10 (n % 10 ^ places)).length) '0' ++
    Nat.toDigits 10 (n % 10 ^ places)).rdropWhile (· == '0')

theorem isDigit_fractionDigits (n places : Nat) :
    ∀ c ∈ fractionDigits n places, c.isDigit = true := by
  intro c hc
  obtain ⟨zeros, hzeros⟩ := exists_zeros_behind
    (List.replicate (places - (Nat.toDigits 10 (n % 10 ^ places)).length) '0' ++
      Nat.toDigits 10 (n % 10 ^ places))
  have hall := List.mem_append_left (List.replicate zeros '0') hc
  rw [fractionDigits, ← hzeros] at hall
  rcases List.mem_append.1 hall with hzero | hdigit
  · rw [List.eq_of_mem_replicate hzero]
    decide
  · exact Nat.isDigit_of_mem_toDigits (by decide) (by decide) hdigit

/-- All the digits together have the value of the quotient. -/
theorem ofDigitChars_quotient (n places : Nat) :
    Nat.ofDigitChars 10 (Nat.toDigits 10 (n / 10 ^ places) ++ fractionDigits n places) 0 *
      10 ^ places = n * 10 ^ (fractionDigits n places).length := by
  unfold fractionDigits
  generalize hdigits : Nat.toDigits 10 (n % 10 ^ places) = digits
  generalize hzeros : places - digits.length = zeros
  obtain ⟨behind, hbehind⟩ := exists_zeros_behind (List.replicate zeros '0' ++ digits)
  generalize hkept : (List.replicate zeros '0' ++ digits).rdropWhile (· == '0') = kept at hbehind ⊢
  have hten : ∀ k, 0 < 10 ^ k := fun k => Nat.pow_pos (by decide)
  have hlength : kept.length + behind = zeros + digits.length := by
    simpa using (congrArg List.length hbehind).symm
  -- All digits with the zeros behind, read in two ways.
  have hvalue : 10 ^ behind * Nat.ofDigitChars 10 (Nat.toDigits 10 (n / 10 ^ places) ++ kept) 0 =
      10 ^ (zeros + digits.length) * (n / 10 ^ places) + n % 10 ^ places := by
    rw [← Nat.ofDigitChars_replicate_zero, ← Nat.ofDigitChars_append, List.append_assoc,
      ← hbehind, Nat.ofDigitChars_append, Nat.ofDigitChars_ten_toDigits, ← hdigits,
      ofDigitChars_zeros_before]
  have hscaled : (10 ^ (zeros + digits.length) * (n / 10 ^ places) + n % 10 ^ places) *
      10 ^ places = 10 ^ (kept.length + behind) * n := by
    rw [hlength]
    rcases Nat.eq_zero_or_pos places with rfl | hplaces
    · simp [Nat.mod_one]
    · have hle : digits.length ≤ places := by
        rw [← hdigits, Nat.length_toDigits_le_iff (by decide) hplaces]
        exact Nat.mod_lt _ (hten _)
      have hall : zeros + digits.length = places := by omega
      rw [hall, Nat.div_add_mod, Nat.mul_comm]
  apply Nat.eq_of_mul_eq_mul_left (hten behind)
  rw [← Nat.mul_assoc, hvalue, hscaled, Nat.pow_add, Nat.mul_comm n, Nat.mul_right_comm,
    Nat.mul_comm (10 ^ behind)]

/-- The digits of a quotient round as the quotient does. -/
theorem digits_quotient (n places : Nat) :
    Digits (Nat.toDigits 10 (n / 10 ^ places)) (fractionDigits n places)
      (Double.nearest n (10 ^ places)) where
  whole_ne_nil := Nat.toDigits_ne_nil
  isDigit c hc := by
    rcases List.mem_append.1 hc with hwhole | hfraction
    · exact Nat.isDigit_of_mem_toDigits (by decide) (by decide) hwhole
    · exact isDigit_fractionDigits n places c hfraction
  rounds := by
    have hten : ∀ k, 0 < 10 ^ k := fun k => Nat.pow_pos (by decide)
    rw [toMagnitude_ofDigits]
    exact Double.nearest_congr (hten _) (hten _) (ofDigitChars_quotient n places)

theorem positional_eq_numeral (d : Decimal) :
    d.positional.toList = numeral (Nat.toDigits 10 (d.coefficient * d.up / d.down))
      (fractionDigits (d.coefficient * d.up) (-d.exponent).toNat) := by
  simp only [positional, numeral, String.toList_ofList]
  rfl

theorem exists_digits_positional (d : Decimal) :
    ∃ whole fraction, d.positional.toList = numeral whole fraction ∧
      Digits whole fraction d.toMagnitude :=
  ⟨_, _, d.positional_eq_numeral, digits_quotient (d.coefficient * d.up) (-d.exponent).toNat⟩

end Decimal

namespace Double

theorem lt_infinite {x : Double} (h : x.isFinite = true) : x.magnitude < infinite :=
  of_decide_eq_true h

theorem isNaN_of_isFinite {x : Double} (h : x.isFinite = true) : x.isNaN = false :=
  decide_eq_false (Nat.not_lt_of_lt (lt_infinite h))

theorem isInfinite_of_isFinite {x : Double} (h : x.isFinite = true) : x.isInfinite = false :=
  beq_eq_false_iff_ne.2 (Nat.ne_of_lt (lt_infinite h))

theorem ofMagnitude_magnitude (x : Double) : ofMagnitude x.isNegative x.magnitude = x := by
  have hlt : x.bits.toNat < 2 ^ 64 := x.bits.toNat_lt
  have hnat : (if x.isNegative then 2 ^ 63 + x.magnitude else x.magnitude) = x.bits.toNat := by
    simp only [isNegative, magnitude, decide_eq_true_eq]
    split <;> omega
  simp only [ofMagnitude, hnat, UInt64.ofNat_toNat]

def signText (x : Double) : List Char := if x.isNegative then ['-'] else []

theorem toList_sign_append (x : Double) (s : String) :
    ((if x.isNegative then "-" else "") ++ s).toList = x.signText ++ s.toList := by
  rw [String.toList_append, signText]
  split <;> rfl

/-- A whole number needs no fraction. -/
theorem digits_whole {n m : Nat} (hm : m < infinite) (h : units m = n * 2 ^ 1074) :
    Decimal.Digits (Nat.toDigits 10 n) [] m where
  whole_ne_nil := Nat.toDigits_ne_nil
  isDigit c hc := by
    rw [List.append_nil] at hc
    exact Nat.isDigit_of_mem_toDigits (by decide) (by decide) hc
  rounds := by
    rw [Decimal.toMagnitude_ofDigits, List.append_nil, Nat.ofDigitChars_ten_toDigits]
    have hpow : ∀ k, 0 < 2 ^ k := Nat.two_pow_pos
    refine (nearest_congr (by decide) (hpow 1074) ?_).trans (nearest_units hm)
    rw [List.length_nil, Nat.pow_zero, Nat.mul_one, h]

theorem digits_zero : Decimal.Digits ['0'] ['0'] 0 where
  whole_ne_nil := List.cons_ne_nil _ _
  isDigit := List.all_eq_true.1 (by decide)
  rounds := by
    have hvalue : Nat.ofDigitChars 10 (['0'] ++ ['0']) 0 = 0 := by decide
    rw [Decimal.toMagnitude_ofDigits, hvalue, nearest_zero]

theorem exists_digits_text {x : Double} (h : x.isFinite = true) :
    ∃ whole fraction, x.text.toList = x.signText ++ Decimal.numeral whole fraction ∧
      Decimal.Digits whole fraction x.magnitude := by
  have hlt : x.magnitude < infinite := lt_infinite h
  unfold text
  simp only [isNaN_of_isFinite h, isInfinite_of_isFinite h, Bool.false_eq_true, if_false]
  by_cases hzero : (x.isZero && x.isNegative) = true
  · rw [if_pos hzero]
    rw [Bool.and_eq_true, isZero, beq_iff_eq] at hzero
    rw [hzero.1]
    refine ⟨['0'], ['0'], ?_, digits_zero⟩
    simp [signText, hzero.2, Decimal.numeral]
  · rw [if_neg hzero]
    by_cases hshort : x.isShortIntegral = true
    · rw [if_pos hshort, toList_sign_append]
      have hwhole : units x.magnitude % 2 ^ 1074 = 0 := by
        rw [isShortIntegral, isIntegral, Bool.and_eq_true, Bool.and_eq_true, beq_iff_eq] at hshort
        exact hshort.1.2
      refine ⟨_, [], congrArg _ ?_, digits_whole (n := units x.magnitude / 2 ^ 1074) hlt ?_⟩
      · rw [Nat.toString_eq_ofList_toDigits, String.toList_ofList, Decimal.numeral_nil]
      · exact (Nat.div_mul_cancel (Nat.dvd_of_mod_eq_zero hwhole)).symm
    · rw [if_neg hshort, generalText, toList_sign_append]
      obtain ⟨whole, fraction, htext, hdigits⟩ :=
        Decimal.exists_digits_positional (shortest x.magnitude)
      rw [toMagnitude_shortest hlt] at hdigits
      exact ⟨whole, fraction, congrArg _ htext, hdigits⟩

/-! ### Reading back -/

def readMagnitude (cs : List Char) : Nat :=
  if cs = ['i', 'n', 'f', '.', '0'] then infinite else (Decimal.read cs).toMagnitude

/-- Reads any text of a number but that of NaN. -/
def read : List Char → Double
  | '-' :: cs => ofMagnitude true (readMagnitude cs)
  | '+' :: cs => ofMagnitude false (readMagnitude cs)
  | cs => ofMagnitude false (readMagnitude cs)

theorem isInfinite_of_not_isFinite {x : Double} (hnan : x.isNaN = false)
    (hfinite : x.isFinite = false) : x.magnitude = infinite := by
  simp only [isNaN, isFinite, decide_eq_false_iff_not] at hnan hfinite
  omega

theorem text_of_infinite {x : Double} (h : x.magnitude = infinite) :
    x.text = if x.isNegative then "-inf.0" else "+inf.0" := by
  simp [text, isNaN, isInfinite, h]

theorem read_infinite (negative : Bool) :
    read (if negative then "-inf.0" else "+inf.0").toList = ofMagnitude negative infinite := by
  cases negative <;> rfl

theorem read_digits {whole fraction : List Char} {m : Nat}
    (h : Decimal.Digits whole fraction m) :
    readMagnitude (Decimal.numeral whole fraction) = m ∧
      read (Decimal.numeral whole fraction) = ofMagnitude false m := by
  have hread : Decimal.read (Decimal.numeral whole fraction) = Decimal.ofDigits whole fraction :=
    Decimal.read_numeral fun c hc => h.isDigit c (List.mem_append_left _ hc)
  obtain ⟨c, cs, hc, hdigit⟩ := h.exists_numeral_eq_cons
  have hmagnitude : readMagnitude (Decimal.numeral whole fraction) = m := by
    rw [readMagnitude, if_neg, hread, h.rounds]
    rw [hc]
    rintro heq
    cases heq
    exact absurd hdigit (by decide)
  refine ⟨hmagnitude, ?_⟩
  rw [← hmagnitude, hc]
  unfold read
  split
  · rename_i heq
    cases heq
    exact absurd hdigit (by decide)
  · rename_i heq
    cases heq
    exact absurd hdigit (by decide)
  · rfl

/-- The text is that of no other double. -/
theorem read_text {x : Double} (h : x.isNaN = false) : read x.text.toList = x := by
  have hback := ofMagnitude_magnitude x
  cases hfinite : x.isFinite with
  | false =>
    have hinf : x.magnitude = infinite := isInfinite_of_not_isFinite h hfinite
    rw [hinf] at hback
    rw [text_of_infinite hinf, read_infinite, hback]
  | true =>
    obtain ⟨whole, fraction, htext, hdigits⟩ := exists_digits_text hfinite
    obtain ⟨hmagnitude, hread⟩ := read_digits hdigits
    rw [htext, signText]
    cases hsign : x.isNegative with
    | true =>
      rw [hsign] at hback
      exact (congrArg (ofMagnitude true) hmagnitude).trans hback
    | false =>
      rw [hsign] at hback
      exact hread.trans hback

theorem text_injOn {x y : Double} (hx : x.isNaN = false) (hy : y.isNaN = false)
    (h : x.text = y.text) : x = y := by
  rw [← read_text hx, h, read_text hy]

/-! ### Characters -/

theorem exists_text_eq_cons {x : Double} (h : x.isNaN = false) :
    ∃ c cs, x.text.toList = c :: cs ∧ (c.isDigit = true ∨ c = '-' ∨ c = '+') := by
  cases hfinite : x.isFinite with
  | false =>
    rw [text_of_infinite (isInfinite_of_not_isFinite h hfinite)]
    split
    · exact ⟨'-', _, rfl, .inr (.inl rfl)⟩
    · exact ⟨'+', _, rfl, .inr (.inr rfl)⟩
  | true =>
    obtain ⟨whole, fraction, htext, hdigits⟩ := exists_digits_text hfinite
    rw [htext, signText]
    split
    · exact ⟨'-', _, rfl, .inr (.inl rfl)⟩
    · obtain ⟨c, cs, hc, hdigit⟩ := hdigits.exists_numeral_eq_cons
      exact ⟨c, cs, hc, .inl hdigit⟩

theorem mem_text {x : Double} (h : x.isNaN = false) {c : Char} (hc : c ∈ x.text.toList) :
    c.isDigit = true ∨ c ∈ ['-', '+', '.', 'i', 'n', 'f', '0'] := by
  cases hfinite : x.isFinite with
  | false =>
    rw [text_of_infinite (isInfinite_of_not_isFinite h hfinite)] at hc
    have hchars : ∀ s ∈ ["-inf.0", "+inf.0"],
        s.toList.all (· ∈ ['-', '+', '.', 'i', 'n', 'f', '0']) := by decide
    refine .inr (of_decide_eq_true (List.all_eq_true.1 (hchars _ ?_) c hc))
    split <;> simp
  | true =>
    obtain ⟨whole, fraction, htext, hdigits⟩ := exists_digits_text hfinite
    rw [htext, signText] at hc
    rcases List.mem_append.1 hc with hc | hc
    · split at hc
      · simp_all
      · cases hc
    · rcases Decimal.mem_numeral hc with hc | rfl
      · exact .inl (hdigits.isDigit c hc)
      · exact .inr (by decide)

end Double

end Sameness
