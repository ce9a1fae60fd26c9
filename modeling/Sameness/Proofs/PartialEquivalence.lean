import Sameness.Proofs.Alike

/-!
Each predicate is a partial equivalence, and the numbers that are NaN are all that is not the same
as itself.
-/

namespace Sameness

namespace Store

variable {st : Store}

/-- The two orders of comparing differ in no step. -/
theorem isEqual_comm (st : Store) (v w : Value) : st.isEqual v w = st.isEqual w v := by
  have hvisit : ∀ s p q, q = Prod.swap p →
      Run.Matching (fun p q => q = Prod.swap p) (st.visitEqual s p) (st.visitEqual s q) := by
    intro s p q hpq
    rw [hpq, visitEqual, visitEqual]
    have hstep : st.equalStep p.swap.1 p.swap.2 = (st.equalStep p.1 p.2).map (·.map Prod.swap) :=
      equalStep_comm st p.1 p.2
    rw [hstep]
    cases st.equalStep p.1 p.2 with
    | none => exact .error ()
    | some below =>
      apply Run.Matching.ok
      rw [List.forall₂_map_right_iff, List.forall₂_same]
      intro q _
      rfl
  have hwalk : Run.walk st.visitEqual () [(v, w)] = Run.walk st.visitEqual () [(w, v)] :=
    Run.walk_congr hvisit () (.cons rfl .nil)
  rw [isEqual, isEqual, hwalk]

theorem same_comm (st : Store) (p : Predicate) (v w : Value) : st.same p v w = st.same p w v := by
  cases p with
  | eq => rw [same, same, Value.isEq_comm]
  | eqv => rw [same, same, Value.isEqv_comm]
  | equal => exact isEqual_comm st v w

/-! ### Itself -/

theorem isEqual_self (st : Store) (v : Value) : (st.isEqual v v).Returns (!v.isNaN) := by
  cases hv : v.isNaN with
  | false =>
    have hvv : v.isEqv v = true := by rw [Value.isEqv_self, hv]; rfl
    exact (Alike.same hvv).returns
  | true =>
    have hvv : v.isEqv v = false := by rw [Value.isEqv_self, hv]; rfl
    have hshell : st.shell? v = none := by
      cases v with
      | number x => rfl
      | _ => cases hv
    have hstep : st.equalStep v v = none := by simp [equalStep_eq, hvv, hshell]
    exact returns_isEqual.2 ((Run.returns_walk_cons_error (visitEqual_of_none hstep)).2 rfl)

theorem same_self (st : Store) (p : Predicate) (v : Value) :
    (st.same p v v).Returns (!v.isNaN) := by
  cases p with
  | eq => simp [same, Value.isEq_eq]
  | eqv => simp [same, Value.isEqv_self]
  | equal => exact isEqual_self st v

/-! ### Something in between -/

theorem exists_between {xs ys zs : List Value} (hxy : xs.length = ys.length) {p : Value × Value}
    (hp : p ∈ xs.zip zs) : ∃ y, (p.1, y) ∈ xs.zip ys ∧ (y, p.2) ∈ ys.zip zs := by
  obtain ⟨i, hi, rfl⟩ := List.mem_iff_getElem.1 hp
  rw [List.length_zip] at hi
  have hx : i < xs.length := by omega
  have hy : i < ys.length := by omega
  have hz : i < zs.length := by omega
  refine ⟨ys[i], ?_, ?_⟩
  · apply List.mem_iff_getElem.2
    exact ⟨i, by rw [List.length_zip]; omega, by simp⟩
  · apply List.mem_iff_getElem.2
    exact ⟨i, by rw [List.length_zip]; omega, by simp⟩

/-- The values may be alike for different reasons on the two sides: because they are the same cell
here, and because of what they hold there. -/
theorem Alike.trans {u v w : Value} (huv : st.Alike u v) (hvw : st.Alike v w) : st.Alike u w := by
  -- Where the first reason is one and the same cell, the second is kept whole; else both go down.
  induction huv generalizing w with
  | @same u v huv =>
    rcases Value.isEqv_iff.1 huv with ⟨rfl, -⟩ | ⟨-, hv⟩
    · exact hvw
    · cases hvw with
      | same hvw => exact .same (Value.isEqv_trans huv hvw)
      | inside hs => rw [shell?_of_isZero hv] at hs; cases hs
  | @inside u v s hu hv huv ih =>
    cases hvw with
    | same hvw =>
      rcases Value.isEqv_iff.1 hvw with ⟨rfl, -⟩ | ⟨hz, -⟩
      · exact .inside hu hv huv
      · rw [shell?_of_isZero hz] at hv; cases hv
    | @inside _ _ s' hv' hw hvw =>
      have hs : s = s' := Option.some.inj (hv.symm.trans hv')
      have hlength : (st.children u).length = (st.children v).length :=
        length_children_congr (hu.trans hv.symm)
      refine .inside hu (hs ▸ hw) fun p hp => ?_
      obtain ⟨y, hxy, hyz⟩ := exists_between hlength hp
      exact ih _ hxy (hvw _ hyz)

theorem same_trans {p : Predicate} {u v w : Value} (huv : (st.same p u v).Returns true)
    (hvw : (st.same p v w).Returns true) : (st.same p u w).Returns true := by
  cases p with
  | eq =>
    rw [same, Run.returns_pure] at *
    exact Value.isEq_trans huv hvw
  | eqv =>
    rw [same, Run.returns_pure] at *
    exact Value.isEqv_trans huv hvw
  | equal =>
    have halike : st.Alike u w :=
      (isEqual_returns_true_iff.1 huv).trans (isEqual_returns_true_iff.1 hvw)
    exact halike.returns

end Store

/-! ### The law -/

/-- A comparison of values that may go on for ever, yet relates whatever is no NaN to itself and
says the same in both directions; and where it relates two values to a third, it comes to relate
them to each other. -/
structure PartialEquivalence (compare : Value → Value → Run Bool) : Prop where
  self (v : Value) : (compare v v).Returns (!v.isNaN)
  symm (v w : Value) (b : Bool) : (compare v w).Returns b ↔ (compare w v).Returns b
  diverges_symm (v w : Value) : (compare v w).Diverges ↔ (compare w v).Diverges
  trans (u v w : Value) : (compare u v).Returns true → (compare v w).Returns true →
    (compare u w).Returns true

theorem partialEquivalence_same (st : Store) (p : Predicate) : PartialEquivalence (st.same p) where
  self v := st.same_self p v
  symm v w b := by rw [st.same_comm]
  diverges_symm v w := by rw [st.same_comm]
  trans _ _ _ huv hvw := Store.same_trans huv hvw

/-- A list that is its own rest, with NaN in it. -/
example : ((⟨#[.pair (.number ⟨0x7ff8000000000000⟩) (.pair 0)], .empty⟩ : Store).same .equal
    (.pair 0) (.pair 0)).Returns true := ⟨1, by decide⟩

end Sameness
