/-!
Computations that may go on for ever.

A cyclic structure can keep a comparison, a search or a printer busy without end, so these answer
with a `Run`: what is known after each budget of steps. `Returns` says that some budget suffices.
-/

namespace Sameness

variable {α β σ ε : Type}

/-- A larger budget keeps an answer, so there is at most one. -/
structure Run (α : Type) where
  within : Nat → Option α
  within_mono {m n : Nat} {a : α} : m ≤ n → within m = some a → within n = some a

namespace Run

def Returns (c : Run α) (a : α) : Prop := ∃ n, c.within n = some a

def Diverges (c : Run α) : Prop := ∀ n, c.within n = none

protected def pure (a : α) : Run α := ⟨fun _ => some a, fun _ h => h⟩

protected def bind (c : Run α) (f : α → Run β) : Run β where
  within n := (c.within n).bind fun a => (f a).within n
  within_mono hmn h := by
    obtain ⟨a, ha, hb⟩ := Option.bind_eq_some_iff.1 h
    exact Option.bind_eq_some_iff.2 ⟨a, c.within_mono hmn ha, (f a).within_mono hmn hb⟩

instance : Monad Run where
  pure := Run.pure
  bind := Run.bind

theorem Returns.unique {c : Run α} {a b : α} (ha : c.Returns a) (hb : c.Returns b) : a = b := by
  obtain ⟨m, hm⟩ := ha
  obtain ⟨n, hn⟩ := hb
  have h := c.within_mono (Nat.le_max_left m n) hm
  rw [c.within_mono (Nat.le_max_right m n) hn] at h
  exact (Option.some.inj h).symm

theorem diverges_iff {c : Run α} : c.Diverges ↔ ∀ a, ¬c.Returns a := by
  simp only [Diverges, Returns, Option.eq_none_iff_forall_ne_some, ne_eq, not_exists]
  exact forall_comm

@[simp] theorem returns_pure {a b : α} : (pure a : Run α).Returns b ↔ a = b :=
  ⟨fun ⟨_, h⟩ => Option.some.inj h, fun h => ⟨0, congrArg some h⟩⟩

@[simp] theorem returns_bind {c : Run α} {f : α → Run β} {b : β} :
    (c >>= f).Returns b ↔ ∃ a, c.Returns a ∧ (f a).Returns b := by
  constructor
  · rintro ⟨n, h⟩
    obtain ⟨a, ha, hb⟩ := Option.bind_eq_some_iff.1 h
    exact ⟨a, ⟨n, ha⟩, ⟨n, hb⟩⟩
  · rintro ⟨a, ⟨m, hm⟩, ⟨n, hn⟩⟩
    exact ⟨max m n, Option.bind_eq_some_iff.2 ⟨a, c.within_mono (Nat.le_max_left m n) hm,
      (f a).within_mono (Nat.le_max_right m n) hn⟩⟩

/-! ### Loops -/

/-- What one turn of a loop decides. -/
inductive Turn (σ α : Type) where
  | again (state : σ)
  | stop (answer : α)

def loopWithin (turn : σ → Run (Turn σ α)) (budget : Nat) : Nat → σ → Option α
  | 0, _ => none
  | n + 1, s =>
    match (turn s).within budget with
    | none => none
    | some (.again s) => loopWithin turn budget n s
    | some (.stop a) => some a

theorem loopWithin_mono (turn : σ → Run (Turn σ α)) {b c m n : Nat} {s : σ} {a : α} (hbc : b ≤ c)
    (hmn : m ≤ n) (h : loopWithin turn b m s = some a) : loopWithin turn c n s = some a := by
  induction m generalizing n s with
  | zero => simp [loopWithin] at h
  | succ m ih =>
    obtain ⟨n, rfl⟩ : ∃ k, n = k + 1 := ⟨n - 1, by omega⟩
    rw [loopWithin] at h ⊢
    cases ht : (turn s).within b with
    | none => simp [ht] at h
    | some t =>
      rw [(turn s).within_mono hbc ht]
      rw [ht] at h
      cases t with
      | again s' => exact ih (by omega) h
      | stop a' => exact h

/-- Takes turns from `s` on until one of them stops. -/
def loop (turn : σ → Run (Turn σ α)) (s : σ) : Run α where
  within n := loopWithin turn n n s
  within_mono h := loopWithin_mono turn h h

theorem returns_loop {turn : σ → Run (Turn σ α)} {s : σ} {a : α} :
    (loop turn s).Returns a ↔
      (turn s).Returns (.stop a) ∨ ∃ t, (turn s).Returns (.again t) ∧ (loop turn t).Returns a := by
  constructor
  · rintro ⟨n, hn⟩
    cases n with
    | zero => cases hn
    | succ n =>
      simp only [loop, loopWithin] at hn
      cases ht : (turn s).within (n + 1) with
      | none => simp [ht] at hn
      | some t =>
        rw [ht] at hn
        cases t with
        | again t =>
          refine .inr ⟨t, ⟨n + 1, ht⟩, n + 1, ?_⟩
          exact loopWithin_mono turn (Nat.le_refl _) (by omega) hn
        | stop b => cases hn; exact .inl ⟨n + 1, ht⟩
  · rintro (⟨n, hn⟩ | ⟨t, ⟨m, hm⟩, n, hn⟩)
    · refine ⟨n + 1, ?_⟩
      simp only [loop, loopWithin, (turn s).within_mono (Nat.le_succ n) hn]
    · refine ⟨max m n + 1, ?_⟩
      simp only [loop, loopWithin, (turn s).within_mono (by omega : m ≤ max m n + 1) hm]
      exact loopWithin_mono turn (by omega) (by omega) hn

/-! ### Walks -/

def walkWithin (visit : σ → α → Except ε (σ × List α)) : Nat → σ → List α → Option (Except ε σ)
  | _, s, [] => some (.ok s)
  | 0, _, _ :: _ => none
  | n + 1, s, x :: todo =>
    match visit s x with
    | .error e => some (.error e)
    | .ok (s, found) => walkWithin visit n s (found ++ todo)

theorem walkWithin_mono (visit : σ → α → Except ε (σ × List α)) {m n : Nat} {s : σ} {todo : List α}
    {r : Except ε σ} (hmn : m ≤ n) (h : walkWithin visit m s todo = some r) :
    walkWithin visit n s todo = some r := by
  induction m generalizing n s todo with
  | zero =>
    cases todo with
    | nil => simpa [walkWithin] using h
    | cons x todo => simp [walkWithin] at h
  | succ m ih =>
    cases todo with
    | nil => simpa [walkWithin] using h
    | cons x todo =>
      obtain ⟨n, rfl⟩ : ∃ k, n = k + 1 := ⟨n - 1, by omega⟩
      rw [walkWithin] at h ⊢
      cases hv : visit s x with
      | error e => simpa [hv] using h
      | ok r =>
        simp only [hv] at h ⊢
        exact ih (by omega) h

/-- Visits the first thing on the list, puts what it finds there in front of the rest, and goes on
until nothing is left or a visit fails. So a thing and all that is found below it come before what
stood behind it. -/
def walk (visit : σ → α → Except ε (σ × List α)) (s : σ) (todo : List α) : Run (Except ε σ) where
  within n := walkWithin visit n s todo
  within_mono := walkWithin_mono visit

@[simp] theorem returns_walk_nil {visit : σ → α → Except ε (σ × List α)} {s : σ} {r : Except ε σ} :
    (walk visit s []).Returns r ↔ r = .ok s :=
  ⟨fun ⟨n, h⟩ => by cases n <;> exact (Option.some.inj h).symm, fun h => ⟨0, h ▸ rfl⟩⟩

theorem returns_walk_cons_error {visit : σ → α → Except ε (σ × List α)} {s : σ} {x : α}
    {todo : List α} {r : Except ε σ} {e : ε} (h : visit s x = .error e) :
    (walk visit s (x :: todo)).Returns r ↔ r = .error e := by
  constructor
  · rintro ⟨n, hn⟩
    cases n with
    | zero => cases hn
    | succ n =>
      simp only [walk, walkWithin, h] at hn
      exact (Option.some.inj hn).symm
  · rintro rfl
    exact ⟨1, by simp [walk, walkWithin, h]⟩

theorem returns_walk_cons_ok {visit : σ → α → Except ε (σ × List α)} {s t : σ} {x : α}
    {todo found : List α} {r : Except ε σ} (h : visit s x = .ok (t, found)) :
    (walk visit s (x :: todo)).Returns r ↔ (walk visit t (found ++ todo)).Returns r := by
  constructor
  · rintro ⟨n, hn⟩
    cases n with
    | zero => cases hn
    | succ n =>
      simp only [walk, walkWithin, h] at hn
      exact ⟨n, hn⟩
  · rintro ⟨n, hn⟩
    exact ⟨n + 1, by simpa [walk, walkWithin, h] using hn⟩

/-- A walk over two lists is one over the first and then, unless it failed, one over the second. -/
theorem returns_walk_append {visit : σ → α → Except ε (σ × List α)} {s : σ} {xs ys : List α}
    {r : Except ε σ} :
    (walk visit s (xs ++ ys)).Returns r ↔
      (∃ e, (walk visit s xs).Returns (.error e) ∧ r = .error e) ∨
        ∃ t, (walk visit s xs).Returns (.ok t) ∧ (walk visit t ys).Returns r := by
  constructor
  · rintro ⟨n, hn⟩
    induction n generalizing s xs with
    | zero =>
      cases xs with
      | nil => exact .inr ⟨s, by simp, 0, hn⟩
      | cons x xs => cases hn
    | succ n ih =>
      cases xs with
      | nil => exact .inr ⟨s, by simp, n + 1, hn⟩
      | cons x xs =>
        cases hv : visit s x with
        | error e =>
          simp only [walk, List.cons_append, walkWithin, hv] at hn
          exact .inl ⟨e, by simp [returns_walk_cons_error hv], (Option.some.inj hn).symm⟩
        | ok p =>
          obtain ⟨t, found⟩ := p
          simp only [walk, List.cons_append, walkWithin, hv, ← List.append_assoc] at hn
          simpa only [returns_walk_cons_ok hv] using ih hn
  · rintro (⟨e, ⟨n, hn⟩, rfl⟩ | ⟨t, ⟨n, hn⟩, hr⟩)
    · induction n generalizing s xs with
      | zero => cases xs <;> cases hn
      | succ n ih =>
        cases xs with
        | nil => cases hn
        | cons x xs =>
          cases hv : visit s x with
          | error e' =>
            simp only [walk, walkWithin, hv] at hn
            exact (returns_walk_cons_error hv).2 (Option.some.inj hn).symm
          | ok p =>
            simp only [walk, walkWithin, hv] at hn
            simpa only [List.cons_append, returns_walk_cons_ok hv, List.append_assoc] using ih hn
    · induction n generalizing s xs with
      | zero =>
        cases xs with
        | nil => cases hn; exact hr
        | cons x xs => cases hn
      | succ n ih =>
        cases xs with
        | nil => cases hn; exact hr
        | cons x xs =>
          cases hv : visit s x with
          | error e => simp [walk, walkWithin, hv] at hn
          | ok p =>
            simp only [walk, walkWithin, hv] at hn
            simpa only [List.cons_append, returns_walk_cons_ok hv, List.append_assoc] using ih hn

/-- A walk none of whose visits fails. -/
def sweep (visit : σ → α → σ × List α) (s : σ) (todo : List α) : Run σ := do
  match ← walk (fun s x => (.ok (visit s x) : Except Empty _)) s todo with
  | .ok s => pure s

end Run

end Sameness
