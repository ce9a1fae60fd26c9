import Sameness.Proofs.DeepCopy
import Sameness.Proofs.Spine

/-!
Lists that are made and walked.

A list is made from its end, one pair in front of the other, and walked from its front. A cursor
meets what was put in, and on its way it stands at the very pairs that were made.
-/

namespace Sameness

namespace Store

variable {st : Store} {v t : Value} {vs ws : List Value}

/-- The list of the values that ends in `t`, and the store with its pairs. -/
def listed (st : Store) (t : Value) (vs : List Value) : Value × Store := (listOnto t vs).run st

theorem listed_cons (st : Store) (t v : Value) (vs : List Value) :
    st.listed t (v :: vs) = (.pair (st.listed t vs).2.cells.size,
      (st.listed t vs).2.push (.pair v (st.listed t vs).1)) :=
  rfl

theorem listOnto_eq_foldlM (t : Value) (vs : List Value) :
    listOnto t vs = vs.reverse.foldlM (fun rest first => cons first rest) t := by
  induction vs with
  | nil => rfl
  | cons v vs ih => simp [listOnto, ih]

/-- What is made of the last values is there before the rest is. -/
theorem extends_listed (st : Store) (t : Value) (h : ws <:+ vs) :
    (st.listed t ws).2.Extends (st.listed t vs).2 := by
  induction vs with
  | nil =>
    obtain rfl := List.suffix_nil.1 h
    exact .refl _
  | cons v vs ih =>
    rcases List.suffix_cons_iff.1 h with rfl | h
    · exact .refl _
    · exact (ih h).trans (extends_push _ _)

/-- The cell of a pair stays as it was made. -/
theorem uncons_listed (st : Store) (t : Value) (h : v :: ws <:+ vs) :
    (st.listed t vs).2.uncons (st.listed t (v :: ws)).1 = some (v, (st.listed t ws).1) := by
  have hstored : ∀ a ∈ (st.listed t (v :: ws)).1.cell?,
      a < (st.listed t (v :: ws)).2.cells.size := by
    simp [listed_cons, Value.cell?, push]
  have hmade : (st.listed t (v :: ws)).2.cells[(st.listed t ws).2.cells.size]? =
      some (.pair v (st.listed t ws).1) := by
    simp [listed_cons, push]
  have hcell : (st.listed t vs).2.cells[(st.listed t ws).2.cells.size]? =
      some (.pair v (st.listed t ws).1) :=
    ((extends_listed st t h).agreeAt hstored _ rfl).trans hmade
  rw [listed_cons, uncons, parts, hcell]

theorem take_listed (st : Store) (ht : t.tag ≠ .pair) (h : ws <:+ vs) (k : Nat) :
    Cursor.take (st.listed t vs).2 k ⟨(st.listed t ws).1⟩ =
      (ws.take k, ⟨(st.listed t (ws.drop k)).1⟩) := by
  -- Every step leads from the list of one suffix to that of the next, so all of them are taken at
  -- once.
  induction k generalizing ws with
  | zero => rfl
  | succ k ih =>
    cases ws with
    | nil => exact take_of_end (uncons_eq_none_iff.2 ht) _
    | cons w ws =>
      have hrest : ws <:+ vs := (List.suffix_cons w ws).trans h
      rw [take_of_uncons (uncons_listed st t h), ih hrest, List.take_succ_cons, List.drop_succ_cons]

theorem tailAt_listed (st : Store) (t : Value) (h : ws <:+ vs) {k : Nat} (hk : k ≤ ws.length) :
    (st.listed t vs).2.tailAt k (st.listed t ws).1 = some (st.listed t (ws.drop k)).1 := by
  induction k generalizing ws with
  | zero => rfl
  | succ k ih =>
    cases ws with
    | nil => cases hk
    | cons w ws =>
      have hrest : ws <:+ vs := (List.suffix_cons w ws).trans h
      rw [tailAt_of_uncons (uncons_listed st t h), ih hrest (Nat.le_of_succ_le_succ hk),
        List.drop_succ_cons]

/-! ### The law -/

/-- What a cursor meets on the list of `vs` that ends in `t`. -/
structure WalksBack (st : Store) (vs : List Value) (t : Value) : Prop where
  /-- After `k` steps it stands at the pair with which the list of all other values begins. -/
  take (k : Nat) : Cursor.take (st.listed t vs).2 k ⟨(st.listed t vs).1⟩ =
    (vs.take k, ⟨(st.listed t (vs.drop k)).1⟩)
  tailAt {k : Nat} : k ≤ vs.length →
    (st.listed t vs).2.tailAt k (st.listed t vs).1 = some (st.listed t (vs.drop k)).1
  finish {k : Nat} : vs.length ≤ k →
    Cursor.take (st.listed t vs).2 k ⟨(st.listed t vs).1⟩ = (vs, ⟨t⟩)
  stay : Cursor.next (st.listed t vs).2 ⟨t⟩ = (none, ⟨t⟩)

/-- Making a list and walking it. -/
structure CursorLaw (st : Store) : Prop where
  /-- A list is made from its end. -/
  backwards (t : Value) (vs : List Value) :
    listOnto t vs = vs.reverse.foldlM (fun rest first => cons first rest) t
  proper (vs : List Value) : (list vs).run st = st.listed .nil vs
  walksBack (vs : List Value) {t : Value} : t.tag ≠ .pair → st.WalksBack vs t
  /-- Nothing but the end of a spine stops a cursor. -/
  endless {v : Value} : (∀ n, ¬st.EndsAt v n) → ∀ k, ∃ items w first rest,
    Cursor.take st k ⟨v⟩ = (items, ⟨w⟩) ∧ items.length = k ∧
      Cursor.next st ⟨w⟩ = (some first, ⟨rest⟩)

/-- Whatever is put into a list is met again in the same order, and the pairs in between are those
that were made. -/
theorem cursorLaw (st : Store) : st.CursorLaw where
  backwards := listOnto_eq_foldlM
  proper _ := rfl
  walksBack vs {t} ht :=
    { take := take_listed st ht List.suffix_rfl
      tailAt := tailAt_listed st t List.suffix_rfl
      finish := fun {k} hk => by
        have hall := take_listed st ht (List.suffix_refl vs) k
        rwa [List.take_of_length_le hk, List.drop_of_length_le hk] at hall
      stay := next_of_end (uncons_eq_none_iff.2 ht) }
  endless {v} hends k := by
    obtain ⟨a, htail⟩ := exists_tailAt hends k
    obtain ⟨items, hitems, hlength⟩ := exists_take_of_tailAt htail
    exact ⟨items, .pair a, _, _, hitems, hlength, next_of_uncons rfl⟩

/-- A pair that is its own rest is met again and again. -/
example : Cursor.take ⟨#[.pair (.boolean true) (.pair 0)], .empty⟩ 3 ⟨.pair 0⟩ =
    ([.boolean true, .boolean true, .boolean true], ⟨.pair 0⟩) :=
  rfl

end Store

end Sameness
