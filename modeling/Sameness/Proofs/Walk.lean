import Mathlib.Data.List.Forall2
import Sameness.Run

/-!
Walks in general: when two of them take the same steps, and when a walk comes to its end.
-/

namespace Sameness

namespace Run

variable {α β σ ε : Type}

@[ext] theorem ext {c d : Run α} (h : ∀ n, c.within n = d.within n) : c = d := by
  cases c
  cases d
  congr
  funext n
  exact h n

/-- `x` is found by some visit to `y`. -/
def FoundBy (visit : σ → α → Except ε (σ × List α)) (x y : α) : Prop :=
  ∃ s t found, visit s y = .ok (t, found) ∧ x ∈ found

/-! ### Walks in step -/

/-- Two visits that end in the same way, and find things that stand in the relation `R`. -/
inductive Matching (R : α → β → Prop) : Except ε (σ × List α) → Except ε (σ × List β) → Prop
  | error (e : ε) : Matching R (.error e) (.error e)
  | ok (s : σ) {xs : List α} {ys : List β} (h : List.Forall₂ R xs ys) :
    Matching R (.ok (s, xs)) (.ok (s, ys))

/-- Two walks take the same steps when visits to related things match. -/
theorem walk_congr {visit : σ → α → Except ε (σ × List α)}
    {visit' : σ → β → Except ε (σ × List β)} {R : α → β → Prop}
    (hvisit : ∀ s x y, R x y → Matching R (visit s x) (visit' s y))
    (s : σ) {xs : List α} {ys : List β} (htodo : List.Forall₂ R xs ys) :
    walk visit s xs = walk visit' s ys := by
  apply Run.ext
  intro n
  show walkWithin visit n s xs = walkWithin visit' n s ys
  -- Both walks take their steps out of one budget.
  induction n generalizing s xs ys with
  | zero => cases htodo <;> rfl
  | succ n ih =>
    cases htodo with
    | nil => rfl
    | @cons x y xs ys hxy htodo =>
      have hmatch := hvisit s x y hxy
      rw [walkWithin, walkWithin]
      generalize visit s x = r, visit' s y = r' at hmatch
      cases hmatch with
      | error e => rfl
      | ok t hfound => exact ih t (List.rel_append hfound htodo)

/-! ### Ends of walks -/

/-- For what is to be shown of all walks that end: it holds when nothing is left, when a visit
fails, and before a visit when it does after it. -/
theorem walk_induction {visit : σ → α → Except ε (σ × List α)}
    {motive : σ → List α → Except ε σ → Prop} (nil : ∀ s, motive s [] (.ok s))
    (error : ∀ {s x todo e}, visit s x = .error e → motive s (x :: todo) (.error e))
    (ok : ∀ {s t x todo found r}, visit s x = .ok (t, found) → motive t (found ++ todo) r →
      motive s (x :: todo) r)
    {s : σ} {todo : List α} {r : Except ε σ} (h : (walk visit s todo).Returns r) :
    motive s todo r := by
  obtain ⟨n, hn⟩ := h
  induction n generalizing s todo with
  | zero =>
    cases todo with
    | nil =>
      cases hn
      exact nil s
    | cons x todo => cases hn
  | succ n ih =>
    cases todo with
    | nil =>
      cases hn
      exact nil s
    | cons x todo =>
      cases hv : visit s x with
      | error e =>
        simp only [walk, walkWithin, hv] at hn
        cases hn
        exact error hv
      | ok p =>
        apply ok hv
        apply ih
        simpa only [walk, walkWithin, hv] using hn

theorem returns_walk_cons {visit : σ → α → Except ε (σ × List α)} {s : σ} {x : α} {todo : List α}
    {r : Except ε σ} :
    (walk visit s (x :: todo)).Returns r ↔
      (∃ e, (walk visit s [x]).Returns (.error e) ∧ r = .error e) ∨
        ∃ t, (walk visit s [x]).Returns (.ok t) ∧ (walk visit t todo).Returns r := by
  rw [← List.singleton_append]
  exact returns_walk_append

/-- A walk that can be made from each thing alone can be made from all of them. -/
theorem exists_returns_walk {visit : σ → α → Except ε (σ × List α)} {todo : List α}
    (h : ∀ x ∈ todo, ∀ s, ∃ r, (walk visit s [x]).Returns r) (s : σ) :
    ∃ r, (walk visit s todo).Returns r := by
  induction todo generalizing s with
  | nil => exact ⟨.ok s, by simp⟩
  | cons x todo ih =>
    obtain ⟨r, hr⟩ := h x List.mem_cons_self s
    cases r with
    | error e => exact ⟨.error e, returns_walk_cons.2 (.inl ⟨e, hr, rfl⟩)⟩
    | ok t =>
      obtain ⟨r', hr'⟩ := ih (fun y hy => h y (List.mem_cons_of_mem x hy)) t
      exact ⟨r', returns_walk_cons.2 (.inr ⟨t, hr, hr'⟩)⟩

/-- A walk ends when what it finds cannot be followed for ever. -/
theorem exists_returns_walk_of_acc {visit : σ → α → Except ε (σ × List α)} {x : α}
    (h : Acc (FoundBy visit) x) (s : σ) : ∃ r, (walk visit s [x]).Returns r := by
  induction h generalizing s with
  | intro x _ ih =>
    cases hv : visit s x with
    | error e => exact ⟨.error e, (returns_walk_cons_error hv).2 rfl⟩
    | ok r =>
      have hfound : ∃ r', (walk visit r.1 r.2).Returns r' :=
        exists_returns_walk (fun y hy => ih y ⟨s, r.1, r.2, hv, hy⟩) r.1
      simpa only [returns_walk_cons_ok hv, List.append_nil] using hfound

/-- After a walk that came through, nothing it met can be followed for ever. Here what is found must
not depend on the state. -/
theorem acc_of_returns_walk {visit : σ → α → Except ε (σ × List α)} {below : α → List α}
    (hbelow : ∀ s x t found, visit s x = .ok (t, found) → found = below x)
    {s t : σ} {todo : List α} (h : (walk visit s todo).Returns (.ok t)) :
    ∀ x ∈ todo, Acc (fun y z => y ∈ below z) x := by
  refine walk_induction (motive := fun _ todo r => r = .ok t →
    ∀ x ∈ todo, Acc (fun y z => y ∈ below z) x) ?nil ?error ?ok h rfl
  case nil => simp
  case error =>
    intro s x todo e hv he
    cases he
  case ok =>
    intro s u x todo found r hv ih hr y hy
    have hfound : found = below x := hbelow s x u found hv
    rcases List.mem_cons.1 hy with rfl | hy
    · apply Acc.intro
      intro z hz
      exact ih hr z (List.mem_append_left todo (hfound ▸ hz))
    · exact ih hr y (List.mem_append_right found hy)

/-- A walk that remembers nothing comes through all things when it comes through each of them. -/
theorem returns_walk_unit_iff {visit : Unit → α → Except ε (Unit × List α)} {todo : List α} :
    (walk visit () todo).Returns (.ok ()) ↔ ∀ x ∈ todo, (walk visit () [x]).Returns (.ok ()) := by
  induction todo with
  | nil => simp
  | cons x todo ih =>
    rw [returns_walk_cons, List.forall_mem_cons, ← ih]
    refine ⟨fun h => ?_, fun h => .inr ⟨(), h.1, h.2⟩⟩
    rcases h with ⟨e, -, he⟩ | ⟨⟨⟩, hx, htodo⟩
    · cases he
    · exact ⟨hx, htodo⟩

/-! ### Sweeps -/

theorem returns_sweep {visit : σ → α → σ × List α} {s t : σ} {todo : List α} :
    (sweep visit s todo).Returns t ↔
      (walk (fun s x => (.ok (visit s x) : Except Empty _)) s todo).Returns (.ok t) := by
  rw [sweep, returns_bind]
  refine ⟨fun h => ?_, fun h => ⟨.ok t, h, by simp⟩⟩
  obtain ⟨r, hr, ht⟩ := h
  cases r with
  | error e => exact e.elim
  | ok u => exact returns_pure.1 ht ▸ hr

theorem sweep_congr {visit : σ → α → σ × List α} {visit' : σ → β → σ × List β} {R : α → β → Prop}
    (hvisit : ∀ s x y, R x y →
      (visit s x).1 = (visit' s y).1 ∧ List.Forall₂ R (visit s x).2 (visit' s y).2)
    (s : σ) {xs : List α} {ys : List β} (htodo : List.Forall₂ R xs ys) :
    sweep visit s xs = sweep visit' s ys := by
  have hmatch : ∀ s x y, R x y →
      Matching R (.ok (visit s x) : Except Empty _) (.ok (visit' s y)) := by
    intro s x y hxy
    obtain ⟨hstate, hfound⟩ := hvisit s x y hxy
    have hx : visit s x = ((visit' s y).1, (visit s x).2) := by rw [← hstate]
    rw [hx]
    exact .ok _ hfound
  rw [sweep, sweep, walk_congr hmatch s htodo]

end Run

end Sameness
