import Sameness.Run

/-!
Loops in general: turn by turn, to their end or without one.
-/

namespace Sameness

namespace Run

variable {σ α : Type} {turn : σ → Run (Turn σ α)} {s t u next : σ} {n : Nat} {a found : α}
  {c : Run Bool}

/-- A turn that asks a question, and stops if the answer is yes. -/
theorem returns_ask {r : Turn σ α} :
    (do if ← c then return .stop found
        return .again next : Run (Turn σ α)).Returns r ↔
      c.Returns true ∧ r = .stop found ∨ c.Returns false ∧ r = .again next := by
  rw [returns_bind]
  constructor
  · rintro ⟨b, hb, hr⟩
    cases b with
    | true => exact .inl ⟨hb, (returns_pure.1 hr).symm⟩
    | false => exact .inr ⟨hb, (returns_pure.1 hr).symm⟩
  · rintro (⟨hb, rfl⟩ | ⟨hb, rfl⟩)
    · exact ⟨true, hb, returns_pure.2 rfl⟩
    · exact ⟨false, hb, returns_pure.2 rfl⟩

/-- The loop goes on for `n` turns, from the one state to the other. -/
inductive Goes (turn : σ → Run (Turn σ α)) : Nat → σ → σ → Prop
  | here (s : σ) : Goes turn 0 s s
  | again {n : Nat} {s t u : σ} (hs : (turn s).Returns (.again t)) (ht : Goes turn n t u) :
    Goes turn (n + 1) s u

theorem goes_zero_iff : Goes turn 0 s t ↔ s = t := by
  refine ⟨fun h => ?_, fun h => h ▸ .here s⟩
  cases h
  rfl

theorem goes_succ_iff :
    Goes turn (n + 1) s u ↔ ∃ t, (turn s).Returns (.again t) ∧ Goes turn n t u := by
  refine ⟨fun h => ?_, fun ⟨t, hs, ht⟩ => .again hs ht⟩
  cases h with
  | again hs ht => exact ⟨_, hs, ht⟩

/-- For what is to be shown of all loops that end: it holds before the turn that stops, and before a
turn that goes on when it does after it. -/
theorem loop_induction {motive : σ → α → Prop}
    (stop : ∀ {s a}, (turn s).Returns (.stop a) → motive s a)
    (again : ∀ {s t a}, (turn s).Returns (.again t) → motive t a → motive s a)
    (h : (loop turn s).Returns a) : motive s a := by
  obtain ⟨budget, h⟩ := h
  have hturns : ∀ n s, loopWithin turn budget n s = some a → motive s a := by
    intro n
    induction n with
    | zero => nofun
    | succ n ih =>
      intro s hs
      rw [loopWithin] at hs
      cases ht : (turn s).within budget with
      | none => simp [ht] at hs
      | some next =>
        rw [ht] at hs
        cases next with
        | again t => exact again ⟨budget, ht⟩ (ih t hs)
        | stop b =>
          cases hs
          exact stop ⟨budget, ht⟩
  exact hturns budget s h

/-- A loop answers after the turns that go on. -/
theorem returns_loop_iff :
    (loop turn s).Returns a ↔ ∃ n t, Goes turn n s t ∧ (turn t).Returns (.stop a) := by
  constructor
  · intro h
    refine loop_induction (motive := fun s a => ∃ n t, Goes turn n s t ∧
      (turn t).Returns (.stop a)) ?stop ?again h
    case stop =>
      intro s a hstop
      exact ⟨0, s, .here s, hstop⟩
    case again =>
      rintro s t a hs ⟨n, u, hgoes, hstop⟩
      exact ⟨n + 1, u, .again hs hgoes, hstop⟩
  · rintro ⟨n, t, hgoes, hstop⟩
    induction hgoes with
    | here s => exact returns_loop.2 (.inl hstop)
    | again hs _ ih => exact returns_loop.2 (.inr ⟨_, hs, ih hstop⟩)

theorem returns_loop_of_stop (h : (turn s).Returns (.stop found)) :
    (loop turn s).Returns a ↔ a = found := by
  rw [returns_loop]
  constructor
  · rintro (hstop | ⟨t, hagain, -⟩)
    · cases hstop.unique h
      rfl
    · cases hagain.unique h
  · rintro rfl
    exact .inl h

theorem returns_loop_of_again (h : (turn s).Returns (.again t)) :
    (loop turn s).Returns a ↔ (loop turn t).Returns a := by
  rw [returns_loop]
  constructor
  · rintro (hstop | ⟨u, hagain, hrest⟩)
    · cases hstop.unique h
    · cases hagain.unique h
      exact hrest
  · exact fun hrest => .inr ⟨t, h, hrest⟩

/-- A turn that leads back to where it began is taken for ever. -/
theorem diverges_loop_of_again (h : (turn s).Returns (.again s)) : (loop turn s).Diverges := by
  rw [diverges_iff]
  intro a ha
  refine loop_induction (motive := fun t _ => t ≠ s) ?stop ?again ha rfl
  case stop =>
    rintro t b hstop rfl
    cases hstop.unique h
  case again =>
    rintro t u b hagain hu rfl
    cases hagain.unique h
    exact hu rfl

theorem diverges_bind_pure {β : Type} {c : Run α} {f : α → β} :
    (c >>= fun a => pure (f a)).Diverges ↔ c.Diverges := by
  simp only [diverges_iff, returns_bind, returns_pure, not_exists, not_and]
  exact ⟨fun h a ha => h (f a) a ha rfl, fun h _ a ha _ => h a ha⟩

end Run

end Sameness
