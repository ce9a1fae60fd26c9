import Mathlib.Logic.Relation
import Sameness.Proofs.HashConsistency

/-!
What stands below a value.

Comparing and hashing see of a store only what they reach from their values. They come to an end
where no path goes down for ever, and on one such side is enough for a comparison.
-/

namespace Sameness

namespace Store

variable {st st' : Store}

/-- `w` is `v`, or stands somewhere in it. -/
def Reaches (st : Store) : Value → Value → Prop :=
  Relation.ReflTransGen fun v w => w ∈ st.children v

/-- No path goes down from the value for ever. -/
def Acyclic (st : Store) (v : Value) : Prop := Acc (fun w u => w ∈ st.children u) v

/-- What contains a value and what stands below its own, contains all that the value reaches. -/
theorem mem_of_reaches {vs : List Value} (hclosed : ∀ u ∈ vs, ∀ w ∈ st.children u, w ∈ vs)
    {v w : Value} (hv : v ∈ vs) (h : st.Reaches v w) : w ∈ vs := by
  induction h with
  | refl => exact hv
  | tail _ hw ih => exact hclosed _ ih _ hw

/-! ### Other cells do not matter -/

/-- All cells that are reached from the value are the same in another store. -/
def AgreeBelow (st st' : Store) (v : Value) : Prop :=
  ∀ w a, st.Reaches v w → w.cell? = some a → st'.cells[a]? = st.cells[a]?

/-- The other store has the same cell where the value points, if it does. -/
def AgreeAt (st st' : Store) (v : Value) : Prop :=
  ∀ a, v.cell? = some a → st'.cells[a]? = st.cells[a]?

theorem AgreeBelow.at {v w : Value} (h : st.AgreeBelow st' v) (hw : st.Reaches v w) :
    st.AgreeAt st' w := fun a ha => h w a hw ha

theorem AgreeBelow.child {v w : Value} (h : st.AgreeBelow st' v) (hw : w ∈ st.children v) :
    st.AgreeBelow st' w :=
  fun u a hu ha => h u a (.head hw hu) ha

theorem agreeBelow_modifyCell {v : Value} {a : Address} (f : Cell → Cell)
    (h : ∀ w, st.Reaches v w → w.cell? ≠ some a) : st.AgreeBelow (st.modifyCell a f) v := by
  intro w b hw hb
  have hab : a ≠ b := fun hab => h w hw (hab ▸ hb)
  simp [modifyCell, Array.getElem?_modify, hab]

theorem AgreeAt.children_eq {v : Value} (h : st.AgreeAt st' v) :
    st'.children v = st.children v := by
  cases v with
  | pair a => simp only [children, parts, h a rfl]
  | vector a => simp only [children, elements, h a rfl]
  | _ => rfl

theorem AgreeBelow.reaches_iff {v w : Value} (h : st.AgreeBelow st' v) :
    st'.Reaches v w ↔ st.Reaches v w := by
  constructor
  · intro hw
    induction hw with
    | refl => exact .refl
    | tail _ hchild ih => exact ih.tail ((h.at ih).children_eq ▸ hchild)
  · intro hw
    induction hw with
    | refl => exact .refl
    | tail hu hchild ih => exact ih.tail ((h.at hu).children_eq ▸ hchild)

theorem AgreeAt.shell?_eq {v : Value} (h : st.AgreeAt st' v) : st'.shell? v = st.shell? v := by
  cases v with
  | vector a => simp only [shell?, elements, h a rfl]
  | boolVector a => simp only [shell?, bits, h a rfl]
  | string a => simp only [shell?, text, h a rfl]
  | _ => rfl

theorem AgreeAt.headItems_eq {v : Value} (h : st.AgreeAt st' v) :
    st'.headItems v = st.headItems v := by
  cases hs : st.shell? v with
  | none => rw [headItems_eq_hashItems hs, headItems_eq_hashItems (h.shell?_eq.trans hs)]
  | some s => rw [headItems_of_shell? hs, headItems_of_shell? (h.shell?_eq.trans hs)]

theorem equalStep_congr {v w : Value} (hv : st.AgreeAt st' v) (hw : st.AgreeAt st' w) :
    st'.equalStep v w = st.equalStep v w := by
  rw [equalStep_eq, equalStep_eq, hv.shell?_eq, hw.shell?_eq, hv.children_eq, hw.children_eq]

theorem AgreeBelow.hashInput_eq {v : Value} (h : st.AgreeBelow st' v) :
    st'.hashInput v = st.hashInput v := by
  have hvisit : ∀ items x y, x = y ∧ st.Reaches v x →
      (st'.visitHash items x).1 = (st.visitHash items y).1 ∧
        List.Forall₂ (fun x y => x = y ∧ st.Reaches v x) (st'.visitHash items x).2
          (st.visitHash items y).2 := by
    intro items x y hxy
    obtain ⟨rfl, hx⟩ := hxy
    have hat : st.AgreeAt st' x := h.at hx
    refine ⟨by rw [visitHash, visitHash, hat.headItems_eq], ?_⟩
    rw [visitHash, visitHash, hat.children_eq]
    exact List.forall₂_same.2 fun y hy => ⟨rfl, hx.tail hy⟩
  rw [hashInput, hashInput, Run.sweep_congr hvisit #[] (.cons ⟨rfl, .refl⟩ .nil)]

theorem AgreeBelow.isEqual_eq {v w : Value} (hv : st.AgreeBelow st' v)
    (hw : st.AgreeBelow st' w) : st'.isEqual v w = st.isEqual v w := by
  have hvisit : ∀ s p q, p = q ∧ st.Reaches v p.1 ∧ st.Reaches w p.2 →
      Run.Matching (fun p q => p = q ∧ st.Reaches v p.1 ∧ st.Reaches w p.2)
        (st'.visitEqual s p) (st.visitEqual s q) := by
    intro s p q hpq
    obtain ⟨rfl, hpv, hpw⟩ := hpq
    have hstep : st'.equalStep p.1 p.2 = st.equalStep p.1 p.2 :=
      equalStep_congr (hv.at hpv) (hw.at hpw)
    rw [visitEqual, visitEqual, hstep]
    cases hp : st.equalStep p.1 p.2 with
    | none => exact .error ()
    | some below =>
      apply Run.Matching.ok
      apply List.forall₂_same.2
      intro q hq
      have hbelow := mem_children_of_equalStep hp hq
      exact ⟨rfl, hpv.tail hbelow.1, hpw.tail hbelow.2⟩
  have hwalk : Run.walk st'.visitEqual () [(v, w)] = Run.walk st.visitEqual () [(v, w)] :=
    Run.walk_congr hvisit () (.cons ⟨rfl, .refl, .refl⟩ .nil)
  rw [isEqual, isEqual, hwalk]

/-! ### Ends -/

theorem acyclic_of_returns_hashInput {v : Value} {items : List HashItem}
    (h : (st.hashInput v).Returns items) : st.Acyclic v := by
  rw [hashInput, Run.returns_bind] at h
  obtain ⟨a, ha, -⟩ := h
  have hbelow : ∀ s x t found,
      (.ok (st.visitHash s x) : Except Empty _) = .ok (t, found) → found = st.children x := by
    intro s x t found hfound
    cases hfound
    rfl
  exact Run.acc_of_returns_walk hbelow (Run.returns_sweep.1 ha) v (List.mem_singleton_self v)

/-- It takes only one side without cycles for a comparison to end. -/
theorem Acyclic.exists_returns_isEqual {v : Value} (h : st.Acyclic v) (w : Value) :
    ∃ b, (st.isEqual v w).Returns b := by
  rw [isEqual_eq_compareBy]
  exact exists_returns_compareBy st.children
    (fun hstep _ hp => (mem_children_of_equalStep hstep hp).1) h w

end Store

end Sameness
