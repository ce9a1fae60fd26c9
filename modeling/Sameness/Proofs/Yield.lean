import Sameness.Proofs.Walk

/-!
What comes out of a walk that puts something out at every visit.

Each thing puts out its own part first, and then comes all that is found below it, before the things
that stood behind it.
-/

namespace Sameness

namespace Run

variable {α β γ σ ε : Type} {head : α → List β} {below : α → List α}

inductive Yields (head : α → List β) (below : α → List α) : List α → List β → Prop
  | nil : Yields head below [] []
  | cons {x : α} {todo : List α} {out : List β} (h : Yields head below (below x ++ todo) out) :
    Yields head below (x :: todo) (head x ++ out)

theorem yields_nil_iff {out : List β} : Yields head below [] out ↔ out = [] := by
  refine ⟨fun h => ?_, fun h => h ▸ .nil⟩
  cases h
  rfl

theorem yields_cons_iff {x : α} {todo : List α} {out : List β} :
    Yields head below (x :: todo) out ↔
      ∃ rest, out = head x ++ rest ∧ Yields head below (below x ++ todo) rest := by
  constructor
  · intro h
    cases h with
    | cons h => exact ⟨_, rfl, h⟩
  · rintro ⟨rest, rfl, h⟩
    exact .cons h

/-- Every part of the list comes out whole. -/
theorem yields_append_iff {xs ys : List α} {out : List β} :
    Yields head below (xs ++ ys) out ↔
      ∃ a b, out = a ++ b ∧ Yields head below xs a ∧ Yields head below ys b := by
  constructor
  · intro h
    generalize hlist : xs ++ ys = todo at h
    -- What stands below the first thing joins `xs`, so the parting stays where it was.
    induction h generalizing xs with
    | nil =>
      obtain ⟨rfl, rfl⟩ := List.append_eq_nil_iff.1 hlist
      exact ⟨[], [], rfl, .nil, .nil⟩
    | @cons x todo out h ih =>
      cases xs with
      | nil =>
        cases hlist
        exact ⟨[], _, rfl, .nil, .cons h⟩
      | cons y xs =>
        cases hlist
        obtain ⟨a, b, rfl, ha, hb⟩ := ih (List.append_assoc _ _ _)
        exact ⟨head x ++ a, b, (List.append_assoc _ _ _).symm, .cons ha, hb⟩
  · rintro ⟨a, b, rfl, ha, hb⟩
    induction ha with
    | nil => exact hb
    | cons _ ih =>
      rw [List.append_assoc, List.cons_append]
      apply Yields.cons
      rwa [← List.append_assoc]

theorem yields_singleton_iff {x : α} {out : List β} :
    Yields head below [x] out ↔
      ∃ rest, out = head x ++ rest ∧ Yields head below (below x) rest := by
  rw [yields_cons_iff, List.append_nil]

/-- What is put out before what stands behind. -/
theorem yields_cons_iff_append {x : α} {todo : List α} {out : List β} :
    Yields head below (x :: todo) out ↔
      ∃ a b, out = a ++ b ∧ Yields head below [x] a ∧ Yields head below todo b := by
  rw [← List.singleton_append, yields_append_iff]

theorem Yields.unique {todo : List α} {a b : List β} (ha : Yields head below todo a)
    (hb : Yields head below todo b) : a = b := by
  induction ha generalizing b with
  | nil => exact (yields_nil_iff.1 hb).symm
  | cons _ ih =>
    obtain ⟨rest, rfl, hrest⟩ := yields_cons_iff.1 hb
    rw [ih hrest]

/-- What is put out is as it should be when each thing puts out such, and so does what is below. -/
theorem Yields.forall {P : β → Prop} {Q : α → Prop} {todo : List α} {out : List β}
    (h : Yields head below todo out) (hhead : ∀ x, Q x → ∀ b ∈ head x, P b)
    (hbelow : ∀ x, Q x → ∀ y ∈ below x, Q y) (htodo : ∀ x ∈ todo, Q x) : ∀ b ∈ out, P b := by
  induction h with
  | nil => simp
  | @cons x todo out _ ih =>
    have hx : Q x := htodo x List.mem_cons_self
    have hout : ∀ b ∈ out, P b := by
      refine ih fun y hy => ?_
      rcases List.mem_append.1 hy with hy | hy
      · exact hbelow x hx y hy
      · exact htodo y (List.mem_cons_of_mem x hy)
    intro b hb
    rcases List.mem_append.1 hb with hb | hb
    · exact hhead x hx b hb
    · exact hout b hb

/-- Whether there is an end does not depend on what is put out. -/
theorem Yields.exists_other {todo : List α} {out : List β} (h : Yields head below todo out)
    (head' : α → List γ) : ∃ out', Yields head' below todo out' := by
  induction h with
  | nil => exact ⟨[], .nil⟩
  | cons _ ih =>
    obtain ⟨out', hout'⟩ := ih
    exact ⟨_, .cons hout'⟩

theorem Yields.flatMap {todo : List α} {out : List β} (h : Yields head below todo out)
    (f : β → List γ) : Yields (fun x => (head x).flatMap f) below todo (out.flatMap f) := by
  induction h with
  | nil => exact .nil
  | cons _ ih =>
    rw [List.flatMap_append]
    exact .cons ih

theorem exists_yields {todo : List α} (h : ∀ x ∈ todo, ∃ out, Yields head below [x] out) :
    ∃ out, Yields head below todo out := by
  induction todo with
  | nil => exact ⟨[], .nil⟩
  | cons x todo ih =>
    obtain ⟨a, ha⟩ := h x List.mem_cons_self
    obtain ⟨b, hb⟩ := ih fun y hy => h y (List.mem_cons_of_mem x hy)
    exact ⟨a ++ b, yields_cons_iff_append.2 ⟨a, b, rfl, ha, hb⟩⟩

/-- What each thing puts out by itself stands in one piece in what all of them put out. -/
theorem yields_flatten {todo : List α} {outs : List (List β)}
    (h : List.Forall₂ (fun x out => Yields head below [x] out) todo outs) :
    Yields head below todo outs.flatten := by
  induction h with
  | nil => exact .nil
  | @cons x out todo outs hx _ ih =>
    rw [List.flatten_cons]
    exact yields_cons_iff_append.2 ⟨out, outs.flatten, rfl, hx, ih⟩

theorem exists_yields_of_acc {x : α} (h : Acc (fun y z => y ∈ below z) x) :
    ∃ out, Yields head below [x] out := by
  induction h with
  | intro x _ ih =>
    obtain ⟨out, hout⟩ := exists_yields fun y hy => ih y hy
    exact ⟨head x ++ out, yields_singleton_iff.2 ⟨out, rfl, hout⟩⟩

/-- A walk that only ever adds to what it has put out ends when all of it is out. Here `state out`
is the state of the walk after `out`. -/
theorem returns_walk_iff_yields {visit : σ → α → Except ε (σ × List α)} {state : List β → σ}
    (hvisit : ∀ out x, visit (state out) x = .ok (state (out ++ head x), below x)) {done : List β}
    {todo : List α} {r : Except ε σ} :
    (walk visit (state done) todo).Returns r ↔
      ∃ out, Yields head below todo out ∧ r = .ok (state (done ++ out)) := by
  constructor
  · intro h
    refine walk_induction (motive := fun s todo r => ∀ done, s = state done →
      ∃ out, Yields head below todo out ∧ r = .ok (state (done ++ out))) ?nil ?error ?ok h done rfl
    case nil =>
      rintro _ done rfl
      exact ⟨[], .nil, by rw [List.append_nil]⟩
    case error =>
      rintro _ x todo e hv done rfl
      rw [hvisit] at hv
      cases hv
    case ok =>
      rintro _ t x todo found r hv ih done rfl
      rw [hvisit] at hv
      cases hv
      obtain ⟨out, hout, rfl⟩ := ih (done ++ head x) rfl
      exact ⟨head x ++ out, .cons hout, by rw [List.append_assoc]⟩
  · rintro ⟨out, hout, rfl⟩
    induction hout generalizing done with
    | nil => simp
    | @cons x todo out _ ih =>
      rw [returns_walk_cons_ok (hvisit done x), ← List.append_assoc]
      exact ih

theorem returns_sweep_iff_yields {visit : σ → α → σ × List α} {state : List β → σ}
    (hvisit : ∀ out x, visit (state out) x = (state (out ++ head x), below x)) {done : List β}
    {todo : List α} {t : σ} :
    (sweep visit (state done) todo).Returns t ↔
      ∃ out, Yields head below todo out ∧ t = state (done ++ out) := by
  have hwalk : ∀ out x, (.ok (visit (state out) x) : Except Empty _) =
      .ok (state (out ++ head x), below x) := fun out x => by rw [hvisit]
  rw [returns_sweep, returns_walk_iff_yields hwalk]
  simp only [Except.ok.injEq]

end Run

end Sameness
