import Sameness.Proofs.HashShape
import Sameness.Proofs.Mutation
import Sameness.Proofs.Skeleton

/-!
Changes that do not show.

Comparing, hashing and printing a value read no other cells than those it reaches. The context of a
procedure is not reached, so whatever becomes of it, none of them can tell.
-/

namespace Sameness

namespace Store

variable {st st' st'' : Store} {v w : Value} {m : Mode}

/-- The cell is one of those that the value is made of. -/
def Contains (st : Store) (v : Value) (a : Address) : Prop :=
  ∃ w, st.Reaches v w ∧ w.cell? = some a

/-! ### Printing -/

/-- A piece leads to the values that it tells and to what stands below them. -/
theorem reaches_of_mem_expand {p q : Piece} (hq : q ∈ (st.expand m p).2) (hw : w ∈ q.values) :
    ∃ u ∈ p.values, st.Reaches u w := by
  have hvalue : ∀ u, q ∈ (st.expand m (.value u)).2 → st.Reaches u w := by
    intro u hq
    have hinner : w ∈ st.inner u :=
      values_expand st m u ▸ List.mem_flatMap.2 ⟨q, hq, hw⟩
    exact .single (mem_children_of_mem_inner hinner)
  cases p with
  | text s => cases hq
  | value u => exact ⟨u, List.mem_singleton_self u, hvalue u hq⟩
  | tail u =>
    cases u with
    | nil => cases hq
    | pair a => exact ⟨.pair a, List.mem_singleton_self _, hvalue (.pair a) hq⟩
    | _ =>
      simp only [expand, List.mem_cons, List.not_mem_nil, or_false] at hq
      rcases hq with rfl | rfl
      · exact ⟨_, hw, .refl⟩
      · cases hw

theorem AgreeAt.leafText_eq (h : st.AgreeAt st' v) (hsymbols : st'.symbols = st.symbols)
    (m : Mode) : st'.leafText m v = st.leafText m v := by
  cases v with
  | symbol id => simp only [leafText, hsymbols]
  | boolVector a => simp only [leafText, bits, h a rfl]
  | string a => simp only [leafText, text, h a rfl]
  | host a => simp only [leafText, hostType, h a rfl]
  | _ => rfl

theorem expand_eq {p : Piece} (h : ∀ w ∈ p.values, st.AgreeAt st' w)
    (hsymbols : st'.symbols = st.symbols) : st'.expand m p = st.expand m p := by
  cases p with
  | text s => rfl
  | value v =>
    have hv : st.AgreeAt st' v := h v (List.mem_singleton_self v)
    cases v with
    | pair a => simp only [expand, parts, hv a rfl]
    | vector a => simp only [expand, elements, hv a rfl]
    | _ => simp only [expand, hv.leafText_eq hsymbols]
  | tail v =>
    cases v with
    | pair a => simp only [expand, parts, h (.pair a) (List.mem_singleton_self _) a rfl]
    | _ => rfl

theorem AgreeBelow.print_eq (h : st.AgreeBelow st' v) (hsymbols : st'.symbols = st.symbols)
    (m : Mode) : st'.print m v = st.print m v := by
  have hvisit : ∀ printed p q, (p = q ∧ ∀ w ∈ p.values, st.Reaches v w) →
      (st'.visitText m printed p).1 = (st.visitText m printed q).1 ∧
        List.Forall₂ (fun p q => p = q ∧ ∀ w ∈ p.values, st.Reaches v w)
          (st'.visitText m printed p).2 (st.visitText m printed q).2 := by
    rintro printed p _ ⟨rfl, hp⟩
    have hexpand : st'.expand m p = st.expand m p := expand_eq (fun w hw => h.at (hp w hw)) hsymbols
    rw [visitText, visitText, hexpand]
    refine ⟨rfl, List.forall₂_same.2 fun q hq => ⟨rfl, fun w hw => ?_⟩⟩
    obtain ⟨u, hu, huw⟩ := reaches_of_mem_expand hq hw
    exact (hp u hu).trans huw
  have hwhole : ∀ w ∈ (whole m v).values, st.Reaches v w := by
    intro w hw
    unfold whole at hw
    split at hw
    · cases hw
    · exact List.mem_singleton.1 hw ▸ .refl
  exact Run.sweep_congr hvisit "" (.cons ⟨rfl, hwhole⟩ .nil)

/-! ### Changes elsewhere -/

theorem AgreeBelow.trans (h : st.AgreeBelow st' v) (h' : st'.AgreeBelow st'' v) :
    st.AgreeBelow st'' v := fun w a hw ha =>
  (h' w a (h.reaches_iff.2 hw) ha).trans (h w a hw ha)

theorem AgreeBelow.contains_iff (h : st.AgreeBelow st' v) {a : Address} :
    st'.Contains v a ↔ st.Contains v a :=
  exists_congr fun w => by rw [h.reaches_iff]

theorem agreeBelow_mutate {a : Address} (h : ¬st.Contains v a) (m : Mutation) :
    st.AgreeBelow (st.mutate a m).2 v := by
  rw [mutate_snd]
  exact agreeBelow_modifyCell m.apply fun w hw ha => h ⟨w, hw, ha⟩

/-- The store after the changes. -/
def changed (st : Store) (changes : List (Address × Mutation)) : Store :=
  st.afterwards (changes.map fun c => .change c.1 c.2)

theorem agreeBelow_changed {changes : List (Address × Mutation)}
    (h : ∀ c ∈ changes, ¬st.Contains v c.1) : st.AgreeBelow (st.changed changes) v := by
  induction changes generalizing st with
  | nil => exact fun _ _ _ _ => rfl
  | cons c changes ih =>
    have hfirst : st.AgreeBelow (st.mutate c.1 c.2).2 v :=
      agreeBelow_mutate (h c List.mem_cons_self) c.2
    refine hfirst.trans (ih fun d hd => ?_)
    rw [hfirst.contains_iff]
    exact h d (List.mem_cons_of_mem c hd)

theorem symbols_changed (st : Store) (changes : List (Address × Mutation)) :
    (st.changed changes).symbols = st.symbols := by
  induction changes generalizing st with
  | nil => rfl
  | cons c changes ih => exact (ih _).trans (symbols_mutate st c.1 c.2)

/-- What there is to find out about two values in one store is found out in the other. -/
structure SeenAlike (st st' : Store) (v w : Value) : Prop where
  returns (b : Bool) : (st'.isEqual v w).Returns b ↔ (st.isEqual v w).Returns b
  diverges : (st'.isEqual v w).Diverges ↔ (st.isEqual v w).Diverges
  hashed : st.Acyclic v →
    ∃ items, (st.hashInput v).Returns items ∧ (st'.hashInput v).Returns items
  written : st.Acyclic v → ∃ text, (st.write v).Returns text ∧ (st'.write v).Returns text
  displayed : st.Acyclic v → ∃ text, (st.display v).Returns text ∧ (st'.display v).Returns text

/-- Changes of cells that two values do not reach cannot be told from the two, be they with cycles
or not. -/
theorem changes_unseen {changes : List (Address × Mutation)}
    (hv : ∀ c ∈ changes, ¬st.Contains v c.1) (hw : ∀ c ∈ changes, ¬st.Contains w c.1) :
    st.SeenAlike (st.changed changes) v w := by
  have hagree : st.AgreeBelow (st.changed changes) v := agreeBelow_changed hv
  have hequal : (st.changed changes).isEqual v w = st.isEqual v w :=
    hagree.isEqual_eq (agreeBelow_changed hw)
  have hprint : ∀ m, st.Acyclic v →
      ∃ text, (st.print m v).Returns text ∧ ((st.changed changes).print m v).Returns text := by
    intro m hacyclic
    obtain ⟨text, htext⟩ := hacyclic.exists_returns_print m
    exact ⟨text, htext, hagree.print_eq (symbols_changed st changes) m ▸ htext⟩
  refine ⟨fun b => by rw [hequal], by rw [hequal], fun hacyclic => ?_, hprint .write,
    hprint .display⟩
  obtain ⟨items, hitems⟩ := hacyclic.exists_returns_hashInput
  exact ⟨items, hitems, hagree.hashInput_eq ▸ hitems⟩

/-- Two lists of a procedure in a procedure, with a vector as their common context. -/
def environment : Store :=
  ⟨#[.vector #[.boolean true, .nil], .pair (.closure 7 (.closure 8 (.vector 0))) .nil,
    .pair (.closure 7 (.closure 8 (.vector 0))) .nil], .empty⟩

/-- One of the lists is put into the context of its own element; another index is out of range. -/
def environmentChanges : List (Address × Mutation) :=
  [(0, .setElement 1 (.pair 1)), (0, .setElement 2 .nil)]

/-- All that stands in one of the lists. -/
def environment.below (k : Nat) : List Value :=
  [.pair k, .closure 7 (.closure 8 (.vector 0)), .nil]

theorem environment.spared {k : Nat} (hk : k ∈ [1, 2]) :
    ∀ c ∈ environmentChanges, ¬environment.Contains (.pair k) c.1 := by
  have hclosed : ∀ k ∈ [1, 2], ∀ u ∈ below k, ∀ w ∈ environment.children u, w ∈ below k := by decide
  have hcells : ∀ k ∈ [1, 2], ∀ u ∈ below k, ∀ c ∈ environmentChanges, u.cell? ≠ some c.1 := by
    decide
  rintro c hc ⟨w, hw, hcell⟩
  exact hcells k hk w (mem_of_reaches (hclosed k hk) List.mem_cons_self hw) c hc hcell

theorem changes_unseen_environment :
    (∀ c ∈ environmentChanges, ¬environment.Contains (.pair 1) c.1) ∧
      (∀ c ∈ environmentChanges, ¬environment.Contains (.pair 2) c.1) ∧
      environment.Acyclic (.pair 1) ∧
      ((environment.changed environmentChanges).isEqual (.pair 1) (.pair 2)).Returns true ∧
      ∃ text, (environment.write (.pair 1)).Returns text ∧
        ((environment.changed environmentChanges).write (.pair 1)).Returns text := by
  have hfirst := environment.spared (k := 1) (by decide)
  have hsecond := environment.spared (k := 2) (by decide)
  have hacyclic : environment.Acyclic (.pair 1) := acyclic_of_returns_hashInput ⟨3, rfl⟩
  have hequal : (environment.isEqual (.pair 1) (.pair 2)).Returns true := ⟨3, by decide⟩
  have hseen := changes_unseen hfirst hsecond
  exact ⟨hfirst, hsecond, hacyclic, (hseen.returns true).2 hequal, hseen.written hacyclic⟩

end Store

end Sameness
