import Sameness.Proofs.Cycles
import Sameness.Proofs.PartialEquivalence
import Sameness.Proofs.Yield

/-!
How long a comparison takes.

It never takes more steps than there are places in one of its two sides. So a value without cycles
can be compared with anything.
-/

namespace Sameness

namespace Store

variable {st : Store} {v w : Value}

/-- All that stands in a value, place by place from left to right: what is shared is there as often
as it is met. -/
def Unfolds (st : Store) (v : Value) (places : List Value) : Prop :=
  Run.Yields (fun u => [u]) st.children [v] places

theorem Acyclic.exists_unfolds (h : st.Acyclic v) : ∃ places, st.Unfolds v places :=
  Run.exists_yields_of_acc h

/-- On its left a step leaves nothing, or all that stands below the value there. -/
theorem map_fst_of_equalStep {below : List (Value × Value)} (h : st.equalStep v w = some below) :
    below = [] ∨ below.map Prod.fst = st.children v := by
  rw [equalStep_eq] at h
  split at h
  · cases h
    exact .inl rfl
  · split at h
    · rename_i hshell
      cases h
      exact .inr (List.map_fst_zip (length_children_congr hshell.2).le)
    · cases h

/-- The budget is for the places on the left that are still to come. -/
theorem exists_within_of_yields {n : Nat} {todo : List (Value × Value)} {places : List Value}
    (h : Run.Yields (fun u => [u]) st.children (todo.map Prod.fst) places)
    (hn : places.length ≤ n) : ∃ r, (Run.walk st.visitEqual () todo).within n = some r := by
  induction n generalizing todo places with
  | zero =>
    cases todo with
    | nil => exact ⟨.ok (), rfl⟩
    | cons p todo =>
      obtain ⟨rest, rfl, -⟩ := Run.yields_cons_iff.1 h
      simp at hn
  | succ n ih =>
    cases todo with
    | nil => exact ⟨.ok (), rfl⟩
    | cons p todo =>
      obtain ⟨rest, rfl, hrest⟩ := Run.yields_cons_iff.1 h
      have hlength : rest.length ≤ n := by simpa using hn
      cases hstep : st.equalStep p.1 p.2 with
      | none =>
        have hvisit := visitEqual_of_none hstep
        exact ⟨.error (), by simp [Run.walk, Run.walkWithin, hvisit]⟩
      | some below =>
        have hvisit := visitEqual_of_some hstep
        have hwithin : ∃ r, (Run.walk st.visitEqual () (below ++ todo)).within n = some r := by
          rcases map_fst_of_equalStep hstep with rfl | hbelow
          · -- Nothing is left to compare here, so the places below `p` are passed over.
            obtain ⟨a, b, rfl, -, hb⟩ := Run.yields_append_iff.1 hrest
            exact ih hb (by rw [List.length_append] at hlength; omega)
          · exact ih (by rwa [List.map_append, hbelow]) hlength
        obtain ⟨r, hr⟩ := hwithin
        exact ⟨r, by simpa [Run.walk, Run.walkWithin, hvisit] using hr⟩

theorem Unfolds.exists_isEqual_within {places : List Value} (h : st.Unfolds v places) (w : Value) :
    ∃ b, (st.isEqual v w).within places.length = some b := by
  have hleft : Run.Yields (fun u => [u]) st.children ([(v, w)].map Prod.fst) places := h
  obtain ⟨r, hr⟩ := exists_within_of_yields hleft (Nat.le_refl places.length)
  have hwithin : (st.isEqual v w).within places.length =
      ((Run.walk st.visitEqual () [(v, w)]).within places.length).bind _ := rfl
  rw [hwithin, hr]
  cases r with
  | ok _ => exact ⟨true, rfl⟩
  | error _ => exact ⟨false, rfl⟩

/-- If one of two values is without cycles, that side has finitely many places, and the comparison
is over after as many steps at most. The other side may go on for ever. -/
theorem isEqual_ends_with_finite_side (h : st.NoCycle v ∨ st.NoCycle w) :
    ∃ places, (st.Unfolds v places ∨ st.Unfolds w places) ∧
      ∃ b, (st.isEqual v w).within places.length = some b := by
  rcases h with h | h
  · obtain ⟨places, hplaces⟩ := h.acyclic.exists_unfolds
    exact ⟨places, .inl hplaces, hplaces.exists_isEqual_within w⟩
  · obtain ⟨places, hplaces⟩ := h.acyclic.exists_unfolds
    rw [isEqual_comm]
    exact ⟨places, .inr hplaces, hplaces.exists_isEqual_within v⟩

/-- A list that goes round and round, and one that ends, with shared cells. -/
def endlessAndEnding : Store :=
  ⟨#[.pair (.boolean true) (.pair 0), .pair (.boolean true) .nil,
    .vector #[.pair 1, .pair 1], .vector #[.pair 0, .pair 1]], .empty⟩

theorem isEqual_ends_with_finite_side_endless :
    ¬endlessAndEnding.NoCycle (.vector 3) ∧ endlessAndEnding.NoCycle (.vector 2) ∧
      ∃ b, (endlessAndEnding.isEqual (.vector 3) (.vector 2)).Returns b := by
  have hround : ¬endlessAndEnding.NoCycle (.vector 3) := by
    intro h
    refine h (.pair 0) (.single ?_) (.single ?_) <;> decide
  have hends : endlessAndEnding.NoCycle (.vector 2) := by
    have hinput : (endlessAndEnding.hashInput (.vector 2)).Returns _ := ⟨7, rfl⟩
    exact (acyclic_of_returns_hashInput hinput).noCycle
  obtain ⟨places, -, b, hb⟩ := isEqual_ends_with_finite_side (.inr hends) (v := .vector 3)
  exact ⟨hround, hends, b, places.length, hb⟩

end Store

end Sameness
