import Sameness.Equivalence
import Sameness.Proofs.Walk

/-!
Comparisons step by step.

A step says of two values that they differ, or what is left to compare below them. A comparison that
takes one step after the other answers true when finitely many steps find no difference.
-/

namespace Sameness

namespace Run

variable {α : Type} {step : α → Option (List α)}

/-- A visit that remembers nothing: it fails, or finds what is to be visited next. -/
def checking (step : α → Option (List α)) (_ : Unit) (x : α) : Except Unit (Unit × List α) :=
  match step x with
  | none => .error ()
  | some below => .ok ((), below)

/-- Finitely many steps are to be taken from here, and none of them fails. -/
inductive Passes (step : α → Option (List α)) : α → Prop
  | intro {x : α} {below : List α} (h : step x = some below)
    (hbelow : ∀ y ∈ below, Passes step y) : Passes step x

theorem checking_of_some {x : α} {below : List α} (h : step x = some below) :
    checking step () x = .ok ((), below) := by
  simp [checking, h]

theorem checking_of_none {x : α} (h : step x = none) : checking step () x = .error () := by
  simp [checking, h]

theorem step_of_checking {s t : Unit} {x : α} {below : List α}
    (h : checking step s x = .ok (t, below)) : step x = some below := by
  cases hstep : step x with
  | none =>
    rw [checking_of_none hstep] at h
    cases h
  | some found =>
    rw [checking_of_some hstep] at h
    cases h
    rfl

/-- The invariant of the walk: all that was visited and all that is still to be visited passes. -/
theorem passes_of_returns_checking {todo : List α}
    (h : (walk (checking step) () todo).Returns (.ok ())) : ∀ x ∈ todo, Passes step x := by
  refine walk_induction (motive := fun _ todo r => r = .ok () → ∀ x ∈ todo, Passes step x)
    ?nil ?error ?ok h rfl
  case nil => simp
  case error =>
    intro _ x todo e hv he
    cases he
  case ok =>
    intro _ _ x todo found r hv ih hr y hy
    have hall : ∀ y ∈ found ++ todo, Passes step y := ih hr
    rcases List.mem_cons.1 hy with rfl | hy
    · exact .intro (step_of_checking hv) fun z hz => hall z (List.mem_append_left todo hz)
    · exact hall y (List.mem_append_right found hy)

theorem Passes.returns {x : α} (h : Passes step x) :
    (walk (checking step) () [x]).Returns (.ok ()) := by
  induction h with
  | intro h _ ih =>
    rw [returns_walk_cons_ok (checking_of_some h), List.append_nil]
    exact returns_walk_unit_iff.2 ih

end Run

/-- Compares two values, one step after the other, up to the first difference. -/
def compareBy (step : Value → Value → Option (List (Value × Value))) (v w : Value) : Run Bool := do
  match ← Run.walk (Run.checking fun p => step p.1 p.2) () [(v, w)] with
  | .ok _ => pure true
  | .error _ => pure false

section

variable {step : Value → Value → Option (List (Value × Value))} {v w : Value}

theorem returns_compareBy {b : Bool} :
    (compareBy step v w).Returns b ↔
      (Run.walk (Run.checking fun p => step p.1 p.2) () [(v, w)]).Returns
        (if b then .ok () else .error ()) := by
  rw [compareBy, Run.returns_bind]
  refine ⟨fun h => ?_, fun h => ⟨_, h, by cases b <;> simp⟩⟩
  obtain ⟨r, hr, hb⟩ := h
  cases r with
  | ok _ => rw [Run.returns_pure] at hb; exact hb ▸ hr
  | error _ => rw [Run.returns_pure] at hb; exact hb ▸ hr

theorem compareBy_returns_true_iff :
    (compareBy step v w).Returns true ↔ Run.Passes (fun p => step p.1 p.2) (v, w) := by
  rw [returns_compareBy]
  refine ⟨fun h => ?_, Run.Passes.returns⟩
  exact Run.passes_of_returns_checking h (v, w) (List.mem_singleton_self (v, w))

/-- A comparison whose steps go down on the left is over when nothing on the left goes down for
ever. -/
theorem exists_returns_compareBy (below : Value → List Value)
    (hstep : ∀ {v w found}, step v w = some found → ∀ p ∈ found, p.1 ∈ below v)
    (h : Acc (fun w u => w ∈ below u) v) (w : Value) : ∃ b, (compareBy step v w).Returns b := by
  have hfst : Acc (InvImage (fun w u => w ∈ below u) Prod.fst) (v, w) :=
    InvImage.accessible Prod.fst h
  have hfound : ∀ {p q : Value × Value}, Run.FoundBy (Run.checking fun p => step p.1 p.2) p q →
      p.1 ∈ below q.1 := by
    rintro p q ⟨s, t, found, hvisit, hp⟩
    exact hstep (Run.step_of_checking hvisit) p hp
  obtain ⟨r, hr⟩ := Run.exists_returns_walk_of_acc (Subrelation.accessible hfound hfst) ()
  cases r with
  | ok _ => exact ⟨true, returns_compareBy.2 hr⟩
  | error _ => exact ⟨false, returns_compareBy.2 hr⟩

end

end Sameness
