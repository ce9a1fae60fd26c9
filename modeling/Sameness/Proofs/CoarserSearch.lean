import Sameness.Proofs.Chain
import Sameness.Proofs.FirstMatch

/-!
Searches with coarser predicates.

A coarser predicate says yes wherever a finer one does. So what it looks for is found no later, as
long as it has an answer at all places before.
-/

namespace Sameness

namespace Store

variable {st : Store} {search : Search} {p q : Predicate} {item v w : Value} {n : Nat}

/-- Where all comparisons end, something that is looked for has a first place. -/
theorem exists_foundAt (hends : ∀ w, ∃ b, (st.same p item w).Returns b) {tail : Value}
    (htail : st.tailAt n v = some tail) (haccepts : st.Accepts search p item tail w) :
    ∃ k ≤ n, ∃ found, st.FoundAt search p item v k found := by
  induction n using Nat.strong_induction_on generalizing tail w with
  | h n ih =>
    by_cases hpasses : st.PassesBy search p item v n
    · exact ⟨n, Nat.le_refl n, w, hpasses, tail, htail, haccepts⟩
    · simp only [PassesBy, not_forall] at hpasses
      obtain ⟨k, hkn, before, hbefore, hrefuses⟩ := hpasses
      rcases accepts_or_stalls hrefuses with ⟨u, hu⟩ | ⟨asked, -, -, hdiverges⟩
      · obtain ⟨j, hjk, found, hfound⟩ := ih k hkn hbefore hu
        exact ⟨j, hjk.trans hkn.le, found, hfound⟩
      · obtain ⟨b, hb⟩ := hends asked
        exact absurd hb (Run.diverges_iff.1 hdiverges b)

/-- A predicate that says yes wherever the other does, and always says something, finds what it
looks for at the same place or before it. -/
theorem FoundAt.exists_coarser (hends : ∀ w, ∃ b, (st.same q item w).Returns b)
    (hpq : ∀ w, (st.same p item w).Returns true → (st.same q item w).Returns true)
    (h : st.FoundAt search p item v n w) :
    ∃ k ≤ n, ∃ found, st.FoundAt search q item v k found := by
  obtain ⟨-, tail, htail, asked, hasked, htrue⟩ := h
  exact exists_foundAt hends htail ⟨asked, hasked, hpq asked htrue⟩

theorem PassesBy.finer (hends : ∀ w, ∃ b, (st.same p item w).Returns b)
    (hpq : ∀ w, (st.same p item w).Returns true → (st.same q item w).Returns true)
    (h : st.PassesBy search q item v n) : st.PassesBy search p item v n := by
  intro k hk tail htail asked found hasked
  obtain ⟨b, hb⟩ := hends asked
  cases b with
  | true => cases (hpq asked hb).unique (h k hk tail htail asked found hasked)
  | false => exact hb

theorem same_eqv_of_eq (h : (st.same .eq v w).Returns true) : (st.same .eqv v w).Returns true :=
  Run.returns_pure.2 (Value.isEqv_of_isEq (Run.returns_pure.1 h))

theorem same_equal_of_eqv (h : (st.same .eqv v w).Returns true) :
    (st.same .equal v w).Returns true :=
  (Alike.same (Run.returns_pure.1 h)).returns

end Store

/-- The search answers with the value, which it comes to after `n` steps. -/
def Finds (st : Store) (search : Search) (p : Predicate) (item v : Value) (sink : Sink) (n : Nat)
    (found : Value) : Prop :=
  ((search.builtin p).run st [item, v] sink).Returns (.ok found, sink) ∧
    st.FoundAt search p item v n found

def Misses (st : Store) (search : Search) (p : Predicate) (item v : Value) (sink : Sink) : Prop :=
  ((search.builtin p).run st [item, v] sink).Returns (.ok (.boolean false), sink)

theorem Store.FoundAt.finds {st : Store} {search : Search} {p : Predicate} {item v found : Value}
    {n : Nat} (h : st.FoundAt search p item v n found) (sink : Sink) :
    Finds st search p item v sink n found :=
  ⟨Store.returns_run_iff.2 (.inl ⟨n, found, h, rfl⟩), h⟩

/-- For an item without cycles. What a finer predicate finds, a coarser one finds after as many
steps or fewer; and what a coarser one misses, a finer one misses too. -/
theorem coarser_finds_no_later {st : Store} {item : Value} (hitem : st.Acyclic item)
    (search : Search) (v : Value) (sink : Sink) :
    (∀ i w, Finds st search .eq item v sink i w →
      ∃ j ≤ i, ∃ w', Finds st search .eqv item v sink j w' ∧
        ∃ k ≤ j, ∃ w'', Finds st search .equal item v sink k w'') ∧
    (Misses st search .equal item v sink →
      Misses st search .eqv item v sink ∧ Misses st search .eq item v sink) := by
  have hends : ∀ p w, ∃ b, (st.same p item w).Returns b := fun p w =>
    hitem.exists_returns_same p w
  refine ⟨fun i w h => ?_, fun h => ?_⟩
  · obtain ⟨j, hij, w', hw'⟩ := h.2.exists_coarser (hends .eqv) fun _ => Store.same_eqv_of_eq
    obtain ⟨k, hjk, w'', hw''⟩ := hw'.exists_coarser (hends .equal) fun _ => Store.same_equal_of_eqv
    exact ⟨j, hij, w', hw'.finds sink, k, hjk, w'', hw''.finds sink⟩
  · obtain ⟨n, hend, hequal⟩ := Store.returns_run_false_iff.1 h
    have heqv : st.PassesBy search .eqv item v n :=
      hequal.finer (hends .eqv) fun _ => Store.same_equal_of_eqv
    have heq : st.PassesBy search .eq item v n :=
      heqv.finer (hends .eq) fun _ => Store.same_eqv_of_eq
    exact ⟨Store.returns_run_false_iff.2 ⟨n, hend, heqv⟩,
      Store.returns_run_false_iff.2 ⟨n, hend, heq⟩⟩

/-- A list that goes round and round. It holds one of its own pairs, a string, and another string
with the same text. -/
def roundList : Store :=
  ⟨#[.string "a", .string "a", .pair (.pair 2) (.pair 3), .pair (.string 1) (.pair 4),
    .pair (.string 0) (.pair 2)], .empty⟩

/-- Only the string itself is found by identity, and its twin before it by what they hold. -/
theorem coarser_finds_no_later_roundList :
    roundList.Acyclic (.string 0) ∧
      Finds roundList .member .eq (.string 0) (.pair 2) (.unlimited .empty) 2 (.pair 4) ∧
      ∃ k ≤ 2, ∃ w,
        Finds roundList .member .equal (.string 0) (.pair 2) (.unlimited .empty) k w := by
  have hacyclic : roundList.Acyclic (.string 0) := Store.acyclic_of_children rfl
  have hpasses : roundList.PassesBy .member .eq (.string 0) (.pair 2) 2 := by
    intro k hk tail htail asked found hasked
    obtain rfl | rfl : k = 0 ∨ k = 1 := by omega
    all_goals
      cases htail
      cases hasked
      exact ⟨0, rfl⟩
  have hfound : roundList.FoundAt .member .eq (.string 0) (.pair 2) 2 (.pair 4) :=
    ⟨hpasses, .pair 4, rfl, .string 0, rfl, 0, rfl⟩
  have hfinds := hfound.finds (.unlimited .empty)
  obtain ⟨hcoarser, -⟩ :=
    coarser_finds_no_later hacyclic .member (.pair 2) (.unlimited .empty)
  obtain ⟨j, hj, -, -, k, hk, w, hw⟩ := hcoarser 2 (.pair 4) hfinds
  exact ⟨hacyclic, hfinds, k, hk.trans hj, w, hw⟩

end Sameness
