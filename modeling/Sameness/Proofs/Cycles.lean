import Mathlib.Data.Set.Finite.Basic
import Sameness.Proofs.Reach

/-!
Cycles in a store.

A store is finite, so a path that goes down for ever comes back to where it was. Without such a
cycle every path ends. There are none where each cell holds only what was there before it.
-/

namespace Sameness

/-- The values in a cell. -/
def Cell.values : Cell → List Value
  | pair first rest => [first, rest]
  | vector elements => elements.toList
  | _ => []

namespace Store

variable {st st' : Store} {v w : Value}

/-- Nothing that the value reaches stands below itself. -/
def NoCycle (st : Store) (v : Value) : Prop :=
  ∀ w, st.Reaches v w → ¬Relation.TransGen (fun u x => x ∈ st.children u) w w

/-- What stands below a value is in one of the cells, or is read where there is no cell. -/
theorem mem_values_of_mem_children (h : w ∈ st.children v) :
    w = .nil ∨ ∃ a c, v.cell? = some a ∧ st.cells[a]? = some c ∧ w ∈ c.values := by
  cases v with
  | pair a =>
    simp only [children, parts] at h
    split at h
    · rename_i first rest hcell
      exact .inr ⟨a, _, rfl, hcell, h⟩
    · exact .inl (by simpa using h)
  | vector a =>
    simp only [children, elements] at h
    split at h
    · rename_i elements hcell
      exact .inr ⟨a, _, rfl, hcell, h⟩
    · cases h
  | _ => cases h

theorem Acyclic.of_reaches (h : st.Acyclic v) (hw : st.Reaches v w) : st.Acyclic w := by
  induction hw with
  | refl => exact h
  | tail _ hchild ih => exact ih.inv hchild

theorem Acyclic.of_agreeBelow (hv : st.Acyclic v) (h : st.AgreeBelow st' v) : st'.Acyclic v := by
  induction hv with
  | intro v _ ih =>
    apply Acc.intro
    intro w hw
    rw [(h.at .refl).children_eq] at hw
    exact ih w hw (h.child hw)

theorem acyclic_of_children (h : st.children v = []) : st.Acyclic v := by
  apply Acc.intro
  intro w hw
  rw [h] at hw
  cases hw

/-! ### No way back -/

theorem finite_reaches (st : Store) (v : Value) : {w | st.Reaches v w}.Finite := by
  let all : List Value := v :: .nil :: st.cells.toList.flatMap Cell.values
  apply (List.finite_toSet all).subset
  intro w hw
  cases hw with
  | refl => exact List.mem_cons_self
  | tail _ hchild =>
    apply List.mem_cons_of_mem
    rcases mem_values_of_mem_children hchild with rfl | ⟨a, c, -, hcell, hw⟩
    · exact List.mem_cons_self
    · apply List.mem_cons_of_mem
      rw [← Array.getElem?_toList] at hcell
      exact List.mem_flatMap.2 ⟨c, List.mem_of_getElem? hcell, hw⟩

theorem Acyclic.noCycle (h : st.Acyclic v) : st.NoCycle v := by
  intro w hw hback
  have hswap : Relation.TransGen (Function.swap fun u x => x ∈ st.children u) w w :=
    Relation.transGen_swap.2 hback
  have hacc := (h.of_reaches hw).transGen
  clear h hw hback
  induction hacc with
  | intro w _ ih => exact ih w hswap hswap

theorem NoCycle.acyclic (h : st.NoCycle v) : st.Acyclic v := by
  let Reached : Type := {w // st.Reaches v w}
  let lower (x y : Reached) : Prop := Relation.TransGen (fun u x => x ∈ st.children u) y.1 x.1
  have : Finite Reached := (finite_reaches st v).to_subtype
  have : IsTrans Reached lower := ⟨fun _ _ _ hxy hyz => hyz.trans hxy⟩
  have : Std.Irrefl lower := ⟨fun x hx => h x.1 x.2 hx⟩
  have hwf : WellFounded lower := Finite.wellFounded_of_trans_of_irrefl lower
  have hall : ∀ x : Reached, st.Acyclic x.1 := by
    intro x
    induction x using hwf.induction with
    | h x ih => exact .intro x.1 fun w hw => ih ⟨w, x.2.tail hw⟩ (.single hw)
  exact hall ⟨v, .refl⟩

/-- In a store, to be without cycles is to come to an end on every path. -/
theorem acyclic_iff_noCycle : st.Acyclic v ↔ st.NoCycle v := ⟨Acyclic.noCycle, NoCycle.acyclic⟩

/-! ### Stores without cycles -/

/-- Every cell holds only what was there before it. -/
def Founded (st : Store) : Prop :=
  ∀ a (ha : a < st.cells.size), ∀ w ∈ st.cells[a].values, ∀ b ∈ w.cell?, b < a

instance : Decidable st.Founded := inferInstanceAs (Decidable (∀ _, ∀ _ : _, _))

def push (st : Store) (c : Cell) : Store := { st with cells := st.cells.push c }

theorem Founded.push {c : Cell} (h : st.Founded)
    (hc : ∀ w ∈ c.values, ∀ b ∈ w.cell?, b < st.cells.size) : (st.push c).Founded := by
  intro a ha w hw b hb
  simp only [Store.push, Array.getElem_push] at hw
  split at hw
  · rename_i hlt
    exact h a hlt w hw b hb
  · rename_i hnew
    exact (hc w hw b hb).trans_le (Nat.le_of_not_lt hnew)

theorem acyclic_of_cell?_eq_none (h : v.cell? = none) : st.Acyclic v := by
  apply acyclic_of_children
  cases v <;> first | rfl | cases h

theorem Founded.acyclic (h : st.Founded) (v : Value) : st.Acyclic v := by
  have hcells : ∀ a w, w.cell? = some a → st.Acyclic w := by
    intro a
    induction a using Nat.strong_induction_on with
    | h a ih =>
      intro w hw
      apply Acc.intro
      intro u hu
      cases hcell : u.cell? with
      | none => exact acyclic_of_cell?_eq_none hcell
      | some b =>
        rcases mem_values_of_mem_children hu with rfl | ⟨a', c, ha', hc, hmem⟩
        · cases hcell
        · obtain rfl : a = a' := Option.some.inj (hw.symm.trans ha')
          obtain ⟨ha, rfl⟩ := Array.getElem?_eq_some_iff.1 hc
          exact ih b (h a ha u hmem b hcell) u hcell
  cases hv : v.cell? with
  | none => exact acyclic_of_cell?_eq_none hv
  | some a => exact hcells a v hv

end Store

end Sameness
