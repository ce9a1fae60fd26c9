import Mathlib.Order.Preorder.Finite
import Sameness.Cursor
import Sameness.Proofs.Cycles

/-!
The spine of a list, step by step.

A store is finite, so a spine either comes to an end or comes back to one of its own pairs.
-/

namespace Sameness

namespace Store

variable {st : Store} {v w first rest : Value} {m n : Nat}

theorem eq_pair_of_uncons {parts : Value × Value} (h : st.uncons v = some parts) :
    ∃ a, v = .pair a := by
  cases v with
  | pair a => exact ⟨a, rfl⟩
  | _ => cases h

theorem children_of_uncons (h : st.uncons v = some (first, rest)) :
    st.children v = [first, rest] := by
  cases v with
  | pair a =>
    have hparts : st.parts a = (first, rest) := Option.some.inj h
    rw [children, hparts]
  | _ => cases h

theorem uncons_eq_none_iff : st.uncons v = none ↔ v.tag ≠ .pair := by
  cases v <;> simp [uncons, Value.tag]

theorem reaches_first (h : st.uncons v = some (first, rest)) : st.Reaches v first :=
  .single (by rw [children_of_uncons h]; exact List.mem_cons_self)

theorem reaches_rest (h : st.uncons v = some (first, rest)) : st.Reaches v rest :=
  .single (by rw [children_of_uncons h]; simp)

/-- The induction is along the list: either it ends here, or there is less of it behind. -/
theorem Acyclic.list_induction {motive : (v : Value) → st.Acyclic v → Prop}
    (stop : ∀ v (hv : st.Acyclic v), st.uncons v = none → motive v hv)
    (pair : ∀ v first rest (hv : st.Acyclic v) (hrest : st.Acyclic rest),
      st.uncons v = some (first, rest) → motive rest hrest → motive v hv)
    {v : Value} (h : st.Acyclic v) : motive v h := by
  induction h with
  | intro v hbelow ih =>
    cases huncons : st.uncons v with
    | none => exact stop v (.intro v hbelow) huncons
    | some parts =>
      obtain ⟨first, rest⟩ := parts
      have hrest : rest ∈ st.children v := by
        rw [children_of_uncons huncons]
        simp
      exact pair v first rest (.intro v hbelow) (hbelow rest hrest) huncons (ih rest hrest)

/-! ### Many steps -/

/-- What is left of a list after `n` steps along it, if there are so many. -/
def tailAt (st : Store) : Nat → Value → Option Value
  | 0, v => some v
  | n + 1, .pair a => st.tailAt n (st.parts a).2
  | _ + 1, _ => none

/-- The list ends after `n` steps, in the empty list or in anything else that is no pair. -/
def EndsAt (st : Store) (v : Value) (n : Nat) : Prop :=
  ∃ w, st.tailAt n v = some w ∧ w.tag ≠ .pair

/-- The spine comes back to one of its pairs. -/
def IsRing (st : Store) (v : Value) : Prop :=
  ∃ m n a, m < n ∧ st.tailAt m v = some (.pair a) ∧ st.tailAt n v = some (.pair a)

/-- A step along a list is that of a cursor. -/
theorem tailAt_eq_bind (n : Nat) (v : Value) :
    st.tailAt (n + 1) v = (st.uncons v).bind fun parts => st.tailAt n parts.2 := by
  cases v <;> rfl

theorem tailAt_of_uncons (h : st.uncons v = some (first, rest)) (n : Nat) :
    st.tailAt (n + 1) v = st.tailAt n rest := by
  rw [tailAt_eq_bind, h, Option.bind_some]

theorem tailAt_add (m n : Nat) (v : Value) :
    st.tailAt (m + n) v = (st.tailAt m v).bind (st.tailAt n) := by
  induction m generalizing v with
  | zero => rw [Nat.zero_add, tailAt, Option.bind_some]
  | succ m ih =>
    rw [Nat.succ_add, tailAt_eq_bind, tailAt_eq_bind, Option.bind_assoc]
    congr 1
    funext parts
    exact ih parts.2

theorem tailAt_succ (n : Nat) (v : Value) :
    st.tailAt (n + 1) v = (st.tailAt n v).bind fun w => (st.uncons w).map Prod.snd := by
  rw [tailAt_add]
  congr 1
  funext w
  cases h : st.uncons w <;> simp [tailAt_eq_bind, h, tailAt]

theorem reaches_of_tailAt (h : st.tailAt n v = some w) : st.Reaches v w := by
  induction n generalizing v with
  | zero =>
    cases h
    exact .refl
  | succ n ih =>
    rw [tailAt_eq_bind] at h
    obtain ⟨parts, huncons, htail⟩ := Option.bind_eq_some_iff.1 h
    exact (reaches_rest huncons).trans (ih htail)

/-! ### Cursors -/

theorem next_of_uncons (h : st.uncons v = some (first, rest)) :
    Cursor.next st ⟨v⟩ = (some first, ⟨rest⟩) := by
  simp [Cursor.next, h]

theorem next_of_end (h : st.uncons v = none) : Cursor.next st ⟨v⟩ = (none, ⟨v⟩) := by
  simp [Cursor.next, h]

theorem take_of_uncons (h : st.uncons v = some (first, rest)) (n : Nat) :
    Cursor.take st (n + 1) ⟨v⟩ =
      (first :: (Cursor.take st n ⟨rest⟩).1, (Cursor.take st n ⟨rest⟩).2) := by
  simp [Cursor.take, next_of_uncons h]

theorem take_of_end (h : st.uncons v = none) (n : Nat) : Cursor.take st n ⟨v⟩ = ([], ⟨v⟩) := by
  cases n with
  | zero => rfl
  | succ n => simp [Cursor.take, next_of_end h]

theorem eq_of_take_nil (h : Cursor.take st n ⟨v⟩ = ([], ⟨w⟩)) : v = w := by
  cases n with
  | zero =>
    cases h
    rfl
  | succ n =>
    cases huncons : st.uncons v with
    | none =>
      rw [take_of_end huncons] at h
      cases h
      rfl
    | some parts =>
      rw [take_of_uncons huncons] at h
      cases h

theorem exists_of_take_cons {items : List Value}
    (h : Cursor.take st n ⟨v⟩ = (first :: items, ⟨w⟩)) :
    ∃ k rest, st.uncons v = some (first, rest) ∧ Cursor.take st k ⟨rest⟩ = (items, ⟨w⟩) := by
  cases n with
  | zero => cases h
  | succ n =>
    cases huncons : st.uncons v with
    | none =>
      rw [take_of_end huncons] at h
      cases h
    | some parts =>
      rw [take_of_uncons huncons] at h
      obtain ⟨hitems, hplace⟩ := Prod.mk.inj h
      injection hitems with hfirst hitems
      exact ⟨n, parts.2, by rw [← hfirst], Prod.ext hitems hplace⟩

/-- Without cycles a cursor comes to the end. -/
theorem Acyclic.exists_take (h : st.Acyclic v) :
    ∃ n items w, Cursor.take st n ⟨v⟩ = (items, ⟨w⟩) ∧ w.tag ≠ .pair := by
  induction h using Acyclic.list_induction with
  | stop v _ hend => exact ⟨0, [], v, rfl, uncons_eq_none_iff.1 hend⟩
  | pair v first rest _ _ huncons ih =>
    obtain ⟨n, items, w, hitems, hw⟩ := ih
    refine ⟨n + 1, first :: items, w, ?_, hw⟩
    rw [take_of_uncons huncons, hitems]

/-- As long as there is more of the list, a cursor meets something at every step. -/
theorem exists_take_of_tailAt (h : st.tailAt n v = some w) :
    ∃ items, Cursor.take st n ⟨v⟩ = (items, ⟨w⟩) ∧ items.length = n := by
  induction n generalizing v with
  | zero =>
    cases h
    exact ⟨[], rfl, rfl⟩
  | succ n ih =>
    rw [tailAt_eq_bind] at h
    obtain ⟨⟨first, rest⟩, huncons, htail⟩ := Option.bind_eq_some_iff.1 h
    obtain ⟨items, hitems, hlength⟩ := ih htail
    refine ⟨first :: items, ?_, congrArg (· + 1) hlength⟩
    rw [take_of_uncons huncons, hitems]

/-! ### Ends -/

theorem EndsAt.tailAt_eq_none (h : st.EndsAt v m) (hmn : m < n) : st.tailAt n v = none := by
  obtain ⟨w, htail, hend⟩ := h
  obtain ⟨k, rfl⟩ : ∃ k, n = m + (k + 1) := ⟨n - m - 1, by omega⟩
  rw [tailAt_add, htail, Option.bind_some, tailAt_eq_bind, uncons_eq_none_iff.2 hend,
    Option.bind_none]

theorem EndsAt.unique (hm : st.EndsAt v m) (hn : st.EndsAt v n) : m = n := by
  have hnot : ∀ {i j}, st.EndsAt v i → st.EndsAt v j → ¬i < j := by
    intro i j hi hj hlt
    obtain ⟨w, htail, -⟩ := hj
    cases (hi.tailAt_eq_none hlt).symm.trans htail
  exact Nat.le_antisymm (Nat.le_of_not_lt (hnot hn hm)) (Nat.le_of_not_lt (hnot hm hn))

theorem IsRing.not_endsAt (h : st.IsRing v) (k : Nat) : ¬st.EndsAt v k := by
  obtain ⟨m, n, a, hmn, hm, hn⟩ := h
  intro hend
  have hnk : n ≤ k := by
    apply Nat.le_of_not_lt
    intro hlt
    cases (hend.tailAt_eq_none hlt).symm.trans hn
  -- The same end would be reached with one round less.
  have hsooner : st.EndsAt v (m + (k - n)) := by
    obtain ⟨w, htail, hw⟩ := hend
    refine ⟨w, ?_, hw⟩
    rw [← Nat.add_sub_cancel' hnk, tailAt_add, hn] at htail
    rw [tailAt_add, hm]
    exact htail
  have hsame : m + (k - n) = k := hsooner.unique hend
  omega

theorem exists_pair_of_tailAt (hends : ¬st.EndsAt v n) (h : st.tailAt n v = some w) :
    ∃ a, w = .pair a := by
  cases huncons : st.uncons w with
  | none => exact absurd ⟨w, h, uncons_eq_none_iff.1 huncons⟩ hends
  | some parts => exact eq_pair_of_uncons huncons

theorem exists_tailAt (hends : ∀ n, ¬st.EndsAt v n) (n : Nat) :
    ∃ a, st.tailAt n v = some (.pair a) := by
  have hsome : ∃ w, st.tailAt n v = some w := by
    induction n with
    | zero => exact ⟨v, rfl⟩
    | succ n ih =>
      obtain ⟨w, hw⟩ := ih
      obtain ⟨a, rfl⟩ := exists_pair_of_tailAt (hends n) hw
      exact ⟨(st.parts a).2, by rw [tailAt_succ, hw]; rfl⟩
  obtain ⟨w, hw⟩ := hsome
  obtain ⟨a, rfl⟩ := exists_pair_of_tailAt (hends n) hw
  exact ⟨a, hw⟩

/-- There is no third way: a spine that never ends goes round. -/
theorem endsAt_or_isRing (st : Store) (v : Value) : (∃ n, st.EndsAt v n) ∨ st.IsRing v := by
  by_contra hneither
  rw [not_or, not_exists] at hneither
  obtain ⟨hends, hring⟩ := hneither
  choose a ha using exists_tailAt hends
  have hreached : ∀ n, Value.pair (a n) ∈ {w | st.Reaches v w} := fun n => reaches_of_tailAt (ha n)
  obtain ⟨m, n, hmn, hsame⟩ :=
    Set.Finite.exists_lt_map_eq_of_forall_mem hreached (finite_reaches st v)
  exact hring ⟨m, n, a n, hmn, hsame ▸ ha m, ha n⟩

end Store

end Sameness
