import Sameness.Equivalence
import Sameness.HashInput

namespace Sameness

namespace Double

theorem isNaN_of_isZero {x : Double} (h : x.isZero = true) : x.isNaN = false := by
  have hm : x.magnitude = 0 := by simpa [isZero] using h
  simp [isNaN, hm]

theorem ext_iff {x y : Double} :
    x = y ↔ x.magnitude = y.magnitude ∧ x.isNegative = y.isNegative := by
  refine ⟨fun h => h ▸ ⟨rfl, rfl⟩, fun h => ?_⟩
  have hx : x.bits.toNat < 2 ^ 64 := x.bits.toNat_lt
  have hy : y.bits.toNat < 2 ^ 64 := y.bits.toNat_lt
  simp only [magnitude, isNegative, decide_eq_decide] at h
  have hbits : x.bits = y.bits := UInt64.toNat.inj (by omega)
  cases x
  cases y
  exact congrArg mk hbits

/-- Numbers that are the same have the same bits, zeros apart. -/
theorem numEq_iff {x y : Double} :
    x.numEq y = true ↔ x = y ∧ x.isNaN = false ∨ x.isZero = true ∧ y.isZero = true := by
  have hbits : x.bits = y.bits ↔ x = y := by
    cases x
    cases y
    simp
  constructor
  · intro h
    simp only [numEq, Bool.and_eq_true, Bool.or_eq_true, Bool.not_eq_true', beq_iff_eq, hbits] at h
    exact h.2.imp (fun hxy => ⟨hxy, h.1.1⟩) id
  · intro h
    rcases h with ⟨rfl, hn⟩ | ⟨hx, hy⟩
    · simp [numEq, hn]
    · simp [numEq, hx, hy, isNaN_of_isZero hx, isNaN_of_isZero hy]

end Double

namespace Value

/-- A zero of either sign. -/
def isZero : Value → Bool
  | number x => x.isZero
  | _ => false

theorem isNaN_of_isZero {v : Value} (h : v.isZero = true) : v.isNaN = false := by
  cases v with
  | number x => exact Double.isNaN_of_isZero h
  | _ => cases h

/-- One zero is positive and the other negative. -/
def OppositeZeros (v w : Value) : Prop :=
  ∃ x y, v = number x ∧ w = number y ∧ x.isZero = true ∧ y.isZero = true ∧
    x.isNegative ≠ y.isNegative

theorem oppositeZeros_iff {v w : Value} :
    v.OppositeZeros w ↔ v ≠ w ∧ v.isZero = true ∧ w.isZero = true := by
  constructor
  · rintro ⟨x, y, rfl, rfl, hx, hy, hsign⟩
    refine ⟨fun h => ?_, hx, hy⟩
    cases h
    exact hsign rfl
  · rintro ⟨hvw, hv, hw⟩
    cases v with
    | number x =>
      cases w with
      | number y =>
        refine ⟨x, y, rfl, rfl, hv, hw, fun hsign => hvw ?_⟩
        have hx : x.magnitude = 0 := by simpa [isZero, Double.isZero] using hv
        have hy : y.magnitude = 0 := by simpa [isZero, Double.isZero] using hw
        rw [Double.ext_iff.2 ⟨hx.trans hy.symm, hsign⟩]
      | _ => cases hw
    | _ => cases hv

/-- Numbers with the same bits that are the same number are one number, and no NaN. -/
theorem sameObject_number_iff {x y : Double} :
    (number x).sameObject (number y) = true ↔ x = y ∧ x.isNaN = false := by
  simp only [sameObject, Bool.and_eq_true, beq_iff_eq, Double.numEq_iff]
  constructor
  · rintro ⟨hbits, ⟨rfl, hn⟩ | ⟨hx, -⟩⟩
    · exact ⟨rfl, hn⟩
    · cases x
      cases y
      cases hbits
      exact ⟨rfl, Double.isNaN_of_isZero hx⟩
  · rintro ⟨rfl, hn⟩
    exact ⟨rfl, .inl ⟨rfl, hn⟩⟩

theorem sameContext_iff {same : Bool} {c d : Value}
    (h : same = true ↔ c = d ∧ c.isNaN = false) : sameContext same c d = true ↔ c = d := by
  unfold sameContext
  split
  · rename_i x y
    cases x
    cases y
    simp
  · rename_i hnumbers
    rw [h, and_iff_left_iff_imp]
    rintro rfl
    cases c with
    | number x => exact absurd rfl (hnumbers x x rfl)
    | _ => rfl

/-- Identity, case by case, comes to this: all values but NaN are the same as themselves, and
nothing else is the same. -/
theorem isEq_iff {v w : Value} : v.isEq w = true ↔ v = w ∧ v.isNaN = false := by
  -- Contexts of procedures may have contexts again.
  induction v generalizing w with
  | closure id c ih =>
    cases w with
    | closure id' c' => simp [isEq, sameContext_iff ih, isNaN]
    | _ => simp [isEq, sameUnbound, sameObject]
  | number x =>
    cases w with
    | number y => simp [isEq, sameUnbound, sameObject_number_iff, isNaN]
    | _ => simp [isEq, sameUnbound, sameObject]
  | _ => cases w <;> simp [isEq, sameUnbound, sameObject, isNaN]

theorem isEq_eq (v w : Value) : v.isEq w = (v == w && !v.isNaN) := by
  rw [Bool.eq_iff_iff, isEq_iff]
  simp

/-- Identity and the two zeros are all there is to `isEqv`. -/
theorem isEqv_iff {v w : Value} :
    v.isEqv w = true ↔ v = w ∧ v.isNaN = false ∨ v.isZero = true ∧ w.isZero = true := by
  by_cases hn : ∃ x y, v = number x ∧ w = number y
  · obtain ⟨x, y, rfl, rfl⟩ := hn
    simpa [isEqv, isNaN, isZero] using Double.numEq_iff
  · have hz : ¬(v.isZero = true ∧ w.isZero = true) := by
      intro h
      cases v with
      | number x =>
        cases w with
        | number y => exact hn ⟨x, y, rfl, rfl⟩
        | _ => cases h.2
      | _ => cases h.1
    have he : v.isEqv w = v.isEq w := by
      unfold isEqv
      split
      · simp [isEq, sameUnbound, sameObject]
      · exact absurd ⟨_, _, rfl, rfl⟩ hn
      · simp [isEq, sameUnbound, sameObject]
      · rfl
    simp only [he, isEq_iff, hz, or_false]

theorem isEqv_self (v : Value) : v.isEqv v = !v.isNaN := by
  rw [Bool.eq_iff_iff, isEqv_iff]
  have hz := @isNaN_of_isZero v
  cases hv : v.isNaN <;> simp_all

theorem isEq_comm (v w : Value) : v.isEq w = w.isEq v := by
  rw [Bool.eq_iff_iff, isEq_iff, isEq_iff]
  constructor <;> (intro h; exact ⟨h.1.symm, h.1 ▸ h.2⟩)

theorem isEqv_comm (v w : Value) : v.isEqv w = w.isEqv v := by
  rw [Bool.eq_iff_iff, isEqv_iff, isEqv_iff]
  constructor <;> exact Or.imp (fun h => ⟨h.1.symm, h.1 ▸ h.2⟩) And.symm

theorem isEq_trans {u v w : Value} (huv : u.isEq v = true) (hvw : v.isEq w = true) :
    u.isEq w = true := by
  rw [isEq_iff] at *
  exact ⟨huv.1.trans hvw.1, huv.2⟩

theorem isEqv_trans {u v w : Value} (huv : u.isEqv v = true) (hvw : v.isEqv w = true) :
    u.isEqv w = true := by
  rw [isEqv_iff] at *
  rcases huv with ⟨rfl, hn⟩ | ⟨hu, hv⟩
  · exact hvw
  · rcases hvw with ⟨rfl, -⟩ | ⟨-, hw⟩
    · exact .inr ⟨hu, hv⟩
    · exact .inr ⟨hu, hw⟩

theorem hashItems_of_isEqv {v w : Value} (h : v.isEqv w = true) : v.hashItems = w.hashItems := by
  have hzero : ∀ u : Value, u.isZero = true → u.hashItems = [.byte Tag.number.code, .word64 0] := by
    intro u hu
    cases u with
    | number x =>
      have hx : x.isZero = true := hu
      simp [hashItems, tag, Double.normalBits, hx]
    | _ => cases hu
  rcases isEqv_iff.1 h with ⟨rfl, -⟩ | ⟨hv, hw⟩
  · rfl
  · rw [hzero v hv, hzero w hw]

end Value

end Sameness
