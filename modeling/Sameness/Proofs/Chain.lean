import Sameness.Proofs.Alike

/-!
From the finest predicate to the coarsest: each holds wherever the one before it does, and there are
few places where it holds and the one before it does not.
-/

namespace Sameness

namespace Value

/-- Two cells of one kind, not the same, of a kind whose contents can be compared. -/
inductive DistinctCells : Value → Value → Prop
  | pair {a b : Address} (h : a ≠ b) : DistinctCells (.pair a) (.pair b)
  | vector {a b : Address} (h : a ≠ b) : DistinctCells (.vector a) (.vector b)
  | boolVector {a b : Address} (h : a ≠ b) : DistinctCells (.boolVector a) (.boolVector b)
  | string {a b : Address} (h : a ≠ b) : DistinctCells (.string a) (.string b)

theorem isEqv_of_isEq {v w : Value} (h : v.isEq w = true) : v.isEqv w = true :=
  isEqv_iff.2 (.inl (isEq_iff.1 h))

theorem isEqv_and_not_isEq_iff {v w : Value} :
    v.isEqv w = true ∧ v.isEq w = false ↔ v.OppositeZeros w := by
  rw [← Bool.not_eq_true, isEqv_iff, isEq_iff, oppositeZeros_iff]
  constructor
  · rintro ⟨hsame | hzeros, hne⟩
    · exact absurd hsame hne
    · exact ⟨fun h => hne ⟨h, isNaN_of_isZero hzeros.1⟩, hzeros⟩
  · rintro ⟨hne, hzeros⟩
    exact ⟨.inr hzeros, fun h => hne h.1⟩

theorem tag_eq_of_isEqv {v w : Value} (h : v.isEqv w = true) : v.tag = w.tag := by
  rcases isEqv_iff.1 h with ⟨rfl, -⟩ | hzeros
  · rfl
  · by_cases hvw : v = w
    · rw [hvw]
    · obtain ⟨x, y, rfl, rfl, -⟩ := oppositeZeros_iff.2 ⟨hvw, hzeros⟩
      rfl

end Value

def Shell.tag : Shell → Tag
  | pair => .pair
  | vector _ => .vector
  | boolVector _ => .boolVector
  | string _ => .string

namespace Store

variable {st : Store}

theorem tag_of_shell? {v : Value} {s : Shell} (h : st.shell? v = some s) : v.tag = s.tag := by
  cases v <;> cases h <;> rfl

theorem Alike.tag_eq {v w : Value} (h : st.Alike v w) : v.tag = w.tag := by
  cases h with
  | same h => exact Value.tag_eq_of_isEqv h
  | inside hv hw => exact (tag_of_shell? hv).trans (tag_of_shell? hw).symm

theorem distinctCells_of_shell? {v w : Value} {s : Shell} (hv : st.shell? v = some s)
    (hw : st.shell? w = some s) (hne : v ≠ w) : v.DistinctCells w := by
  cases v with
  | pair a =>
    cases w with
    | pair b => exact .pair fun h => hne (congrArg _ h)
    | _ => cases hv; cases hw
  | vector a =>
    cases w with
    | vector b => exact .vector fun h => hne (congrArg _ h)
    | _ => cases hv; cases hw
  | boolVector a =>
    cases w with
    | boolVector b => exact .boolVector fun h => hne (congrArg _ h)
    | _ => cases hv; cases hw
  | string a =>
    cases w with
    | string b => exact .string fun h => hne (congrArg _ h)
    | _ => cases hv; cases hw
  | _ => cases hv

/-- Only below two different cells is there more to a step than `isEqv`. -/
theorem equalStep_of_not_distinctCells (st : Store) {v w : Value} (h : ¬v.DistinctCells w) :
    st.equalStep v w = if v.isEqv w then some [] else none := by
  rw [equalStep_eq]
  by_cases hvw : v.isEqv w = true
  · rw [if_pos hvw, if_pos hvw]
  · have hshell : ¬((st.shell? v).isSome ∧ st.shell? v = st.shell? w) := by
      rintro ⟨hsome, hshell⟩
      obtain ⟨s, hs⟩ := Option.isSome_iff_exists.1 hsome
      have hne : v ≠ w := by
        rintro rfl
        have hnan : v.isNaN = true := by simpa [Value.isEqv_self] using hvw
        cases v with
        | number x => cases hs
        | _ => cases hnan
      exact h (distinctCells_of_shell? hs (hshell ▸ hs) hne)
    rw [if_neg hvw, if_neg hvw, if_neg hshell]

theorem isEqual_within_of_not_distinctCells (st : Store) {v w : Value}
    (h : ¬v.DistinctCells w) : (st.isEqual v w).within 0 = none ∧
      (st.isEqual v w).within 1 = some (v.isEqv w) := by
  refine ⟨rfl, ?_⟩
  have hstep := equalStep_of_not_distinctCells st h
  show ((Run.walk st.visitEqual () [(v, w)]).within 1).bind _ = _
  cases hvw : v.isEqv w with
  | true =>
    have hvisit : st.visitEqual () (v, w) = .ok ((), []) :=
      visitEqual_of_some (by simp [hstep, hvw])
    simp only [Run.walk, Run.walkWithin, hvisit]
    rfl
  | false =>
    have hvisit : st.visitEqual () (v, w) = .error () :=
      visitEqual_of_none (by simp [hstep, hvw])
    simp only [Run.walk, Run.walkWithin, hvisit]
    rfl

theorem tag_eq_of_same {p : Predicate} {v w : Value} (h : (st.same p v w).Returns true) :
    v.tag = w.tag := by
  cases p with
  | eq => exact Value.tag_eq_of_isEqv (Value.isEqv_of_isEq (Run.returns_pure.1 h))
  | eqv => exact Value.tag_eq_of_isEqv (Run.returns_pure.1 h)
  | equal => exact (isEqual_returns_true_iff.1 h).tag_eq

end Store

/-- How the predicates compare on two values. In places where `isEqual` has no contents to compare,
it takes one step to say what `isEqv` says. -/
structure PredicateChain (st : Store) (v w : Value) : Prop where
  tag (p : Predicate) : (st.same p v w).Returns true → v.tag = w.tag
  eqv_of_eq : v.isEq w = true → v.isEqv w = true
  equal_of_eqv : v.isEqv w = true → (st.isEqual v w).Returns true
  eqv_not_eq : v.isEqv w = true ∧ v.isEq w = false ↔ v.OppositeZeros w
  equal_not_eqv : (st.isEqual v w).Returns true ∧ v.isEqv w = false → v.DistinctCells w
  one_step : ¬v.DistinctCells w →
    (st.isEqual v w).within 0 = none ∧ (st.isEqual v w).within 1 = some (v.isEqv w)

theorem predicateChain (st : Store) (v w : Value) : PredicateChain st v w where
  tag _ := Store.tag_eq_of_same
  eqv_of_eq := Value.isEqv_of_isEq
  equal_of_eqv h := (Store.Alike.same h).returns
  eqv_not_eq := Value.isEqv_and_not_isEq_iff
  equal_not_eqv h := by
    by_contra hcells
    have hstep := (st.isEqual_within_of_not_distinctCells hcells).2
    have hverdict : true = v.isEqv w := h.1.unique ⟨1, hstep⟩
    rw [h.2] at hverdict
    cases hverdict
  one_step := st.isEqual_within_of_not_distinctCells

end Sameness
