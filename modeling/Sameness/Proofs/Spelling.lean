import Sameness.Printing
import Sameness.Proofs.Reach
import Sameness.Proofs.Yield

/-!
The text of a value by its structure.

Printing works through a list of pieces. What comes out of it is put together from the texts of the
parts, so that a text can be taken apart as its value is.
-/

namespace Sameness

/-! ### Rows -/

/-- What follows an item of a row: more items with spaces before them, and a parenthesis. -/
inductive RowRest {α : Type} (item : α → List Char → Prop) : List α → List Char → Prop
  | nil : RowRest item [] [')']
  | cons {v : α} {vs : List α} {x y : List Char} (hx : item v x) (hy : RowRest item vs y) :
    RowRest item (v :: vs) (' ' :: (x ++ y))

/-- Items with a space between any two, and a parenthesis. -/
inductive Row {α : Type} (item : α → List Char → Prop) : List α → List Char → Prop
  | nil : Row item [] [')']
  | cons {v : α} {vs : List α} {x y : List Char} (hx : item v x) (hy : RowRest item vs y) :
    Row item (v :: vs) (x ++ y)

namespace Store

variable {st : Store} {m : Mode}

/-- The text of some pieces. -/
def Spells (st : Store) (m : Mode) : List Piece → List Char → Prop :=
  Run.Yields (fun p => (st.expand m p).1.toList) (fun p => (st.expand m p).2)

theorem returns_sweep_visitText_iff {ps : List Piece} {s : String} :
    (Run.sweep (st.visitText m) "" ps).Returns s ↔ st.Spells m ps s.toList := by
  have hvisit : ∀ (out : List Char) (p : Piece), st.visitText m (String.ofList out) p =
      (String.ofList (out ++ (st.expand m p).1.toList), (st.expand m p).2) := by
    intro out p
    simp [visitText, String.ofList_append]
  have hsweep : (Run.sweep (st.visitText m) "" ps).Returns s ↔
      ∃ out, st.Spells m ps out ∧ s = String.ofList ([] ++ out) :=
    Run.returns_sweep_iff_yields hvisit
  rw [hsweep]
  constructor
  · rintro ⟨out, hout, rfl⟩
    simpa using hout
  · intro h
    exact ⟨s.toList, h, by simp⟩

theorem returns_print_iff {v : Value} {s : String} :
    (st.print m v).Returns s ↔ st.Spells m [whole m v] s.toList :=
  returns_sweep_visitText_iff

theorem whole_eq_value {v : Value} (h : v ≠ .nil) (m : Mode) : whole m v = .value v := by
  cases m with
  | write => rfl
  | display => cases v <;> first | rfl | exact absurd rfl h

/-! ### Pieces -/

theorem spells_cons_iff {p : Piece} {ps : List Piece} {cs : List Char} :
    st.Spells m (p :: ps) cs ↔ ∃ x y, cs = x ++ y ∧ st.Spells m [p] x ∧ st.Spells m ps y :=
  Run.yields_cons_iff_append

theorem spells_expand_iff {p : Piece} {cs : List Char} :
    st.Spells m [p] cs ↔
      ∃ rest, cs = (st.expand m p).1.toList ++ rest ∧ st.Spells m (st.expand m p).2 rest :=
  Run.yields_singleton_iff

theorem spells_nil_iff {cs : List Char} : st.Spells m [] cs ↔ cs = [] := Run.yields_nil_iff

/-- A piece with nothing below it. -/
theorem spells_single_iff {p : Piece} {s : String} {x cs : List Char}
    (h : st.expand m p = (s, [])) (hs : s.toList = x) : st.Spells m [p] cs ↔ cs = x := by
  rw [spells_expand_iff, h]
  simp [spells_nil_iff, hs]

theorem spells_text_iff {s : String} {x cs : List Char} (hs : s.toList = x) :
    st.Spells m [.text s] cs ↔ cs = x :=
  spells_single_iff rfl hs

theorem eq_nil_of_tag {v : Value} (h : v.tag = .nil) : v = .nil := by
  cases v <;> cases h
  rfl

theorem exists_pair_of_tag {v : Value} (h : v.tag = .pair) : ∃ a, v = .pair a := by
  cases v <;> cases h
  exact ⟨_, rfl⟩

theorem exists_vector_of_tag {v : Value} (h : v.tag = .vector) : ∃ a, v = .vector a := by
  cases v <;> cases h
  exact ⟨_, rfl⟩

theorem expand_leaf {v : Value} (hpair : v.tag ≠ .pair) (hvector : v.tag ≠ .vector) :
    st.expand m (.value v) = (st.leafText m v, []) := by
  cases v with
  | pair a => exact absurd rfl hpair
  | vector a => exact absurd rfl hvector
  | _ => rfl

theorem spells_leaf_iff {v : Value} (hpair : v.tag ≠ .pair) (hvector : v.tag ≠ .vector)
    {cs : List Char} : st.Spells m [.value v] cs ↔ cs = (st.leafText m v).toList :=
  spells_single_iff (expand_leaf hpair hvector) rfl

theorem returns_write_leaf {v : Value} (hpair : v.tag ≠ .pair) (hvector : v.tag ≠ .vector) :
    (st.write v).Returns (st.leafText .write v) :=
  returns_print_iff.2 ((spells_leaf_iff hpair hvector).2 rfl)

/-- A piece with two below it. -/
theorem spells_two_iff {p q r : Piece} {s : String} {before cs : List Char}
    (h : st.expand m p = (s, [q, r])) (hs : s.toList = before) :
    st.Spells m [p] cs ↔
      ∃ x y, cs = before ++ (x ++ y) ∧ st.Spells m [q] x ∧ st.Spells m [r] y := by
  rw [spells_expand_iff, h, ← hs]
  constructor
  · rintro ⟨rest, rfl, hrest⟩
    obtain ⟨x, y, rfl, hx, hy⟩ := spells_cons_iff.1 hrest
    exact ⟨x, y, rfl, hx, hy⟩
  · rintro ⟨x, y, rfl, hx, hy⟩
    exact ⟨x ++ y, rfl, spells_cons_iff.2 ⟨x, y, rfl, hx, hy⟩⟩

/-! ### Lists -/

theorem spells_pair_iff {a : Address} {cs : List Char} :
    st.Spells m [.value (.pair a)] cs ↔ ∃ x y, cs = '(' :: (x ++ y) ∧
      st.Spells m [.value (st.parts a).1] x ∧ st.Spells m [.tail (st.parts a).2] y := by
  have hexpand : st.expand m (.value (.pair a)) =
      ("(", [.value (st.parts a).1, .tail (st.parts a).2]) := rfl
  have hopening : "(".toList = ['('] := rfl
  rw [spells_two_iff hexpand hopening]
  rfl

theorem spells_tail_nil_iff {cs : List Char} : st.Spells m [.tail .nil] cs ↔ cs = [')'] :=
  spells_single_iff rfl rfl

theorem spells_tail_pair_iff {a : Address} {cs : List Char} :
    st.Spells m [.tail (.pair a)] cs ↔ ∃ x y, cs = ' ' :: (x ++ y) ∧
      st.Spells m [.value (st.parts a).1] x ∧ st.Spells m [.tail (st.parts a).2] y := by
  have hexpand : st.expand m (.tail (.pair a)) =
      (" ", [.value (st.parts a).1, .tail (st.parts a).2]) := rfl
  have hspace : " ".toList = [' '] := rfl
  rw [spells_two_iff hexpand hspace]
  rfl

theorem expand_tail {v : Value} (hnil : v.tag ≠ .nil) (hpair : v.tag ≠ .pair) :
    st.expand m (.tail v) = (" . ", [.value v, .text ")"]) := by
  cases v with
  | nil => exact absurd rfl hnil
  | pair a => exact absurd rfl hpair
  | _ => rfl

/-- A tail that is no list stands behind a dot. -/
theorem spells_tail_iff {v : Value} (hnil : v.tag ≠ .nil) (hpair : v.tag ≠ .pair)
    {cs : List Char} :
    st.Spells m [.tail v] cs ↔
      ∃ x, cs = ' ' :: '.' :: ' ' :: (x ++ [')']) ∧ st.Spells m [.value v] x := by
  have hclose : ∀ y, st.Spells m [.text ")"] y ↔ y = [')'] := fun _ => spells_text_iff rfl
  rw [spells_two_iff (expand_tail hnil hpair) rfl]
  constructor
  · rintro ⟨x, y, rfl, hx, hy⟩
    obtain rfl := (hclose y).1 hy
    exact ⟨x, rfl, hx⟩
  · rintro ⟨x, rfl, hx⟩
    exact ⟨x, _, rfl, hx, (hclose _).2 rfl⟩

/-- A list is over, or there is more of it, or it has a dotted tail. -/
theorem spells_tail_cases {v : Value} {cs : List Char} (h : st.Spells m [.tail v] cs) :
    v = .nil ∧ cs = [')'] ∨
      (∃ a x y, v = .pair a ∧ cs = ' ' :: (x ++ y) ∧
        st.Spells m [.value (st.parts a).1] x ∧ st.Spells m [.tail (st.parts a).2] y) ∨
      v.tag ≠ .nil ∧ ∃ x, cs = ' ' :: '.' :: ' ' :: (x ++ [')']) ∧ st.Spells m [.value v] x := by
  by_cases hnil : v.tag = .nil
  · obtain rfl := eq_nil_of_tag hnil
    exact .inl ⟨rfl, spells_tail_nil_iff.1 h⟩
  by_cases hpair : v.tag = .pair
  · obtain ⟨a, rfl⟩ := exists_pair_of_tag hpair
    obtain ⟨x, y, rfl, hx, hy⟩ := spells_tail_pair_iff.1 h
    exact .inr (.inl ⟨a, x, y, rfl, rfl, hx, hy⟩)
  · exact .inr (.inr ⟨hnil, (spells_tail_iff hnil hpair).1 h⟩)

/-! ### Vectors -/

/-- The pieces of a vector behind its opening. -/
def rowPieces (vs : List Value) : List Piece :=
  (vs.map .value).intersperse (.text " ") ++ [.text ")"]

/-- The pieces behind the first element. -/
def restPieces : List Value → List Piece
  | [] => [.text ")"]
  | v :: vs => .text " " :: .value v :: restPieces vs

theorem rowPieces_cons (v : Value) (vs : List Value) :
    rowPieces (v :: vs) = .value v :: restPieces vs := by
  induction vs generalizing v with
  | nil => rfl
  | cons w vs ih => exact congrArg (fun ps => .value v :: .text " " :: ps) (ih w)

theorem spells_restPieces_iff {vs : List Value} {cs : List Char} :
    st.Spells m (restPieces vs) cs ↔ RowRest (fun v => st.Spells m [.value v]) vs cs := by
  have hspace : ∀ x, st.Spells m [.text " "] x ↔ x = [' '] := fun _ => spells_text_iff rfl
  induction vs generalizing cs with
  | nil =>
    rw [restPieces, spells_text_iff rfl]
    refine ⟨fun h => h ▸ .nil, fun h => ?_⟩
    cases h
    rfl
  | cons v vs ih =>
    rw [restPieces, spells_cons_iff]
    constructor
    · rintro ⟨before, rest, rfl, hbefore, hrest⟩
      rw [(hspace before).1 hbefore]
      obtain ⟨x, y, rfl, hx, hy⟩ := spells_cons_iff.1 hrest
      have hrow : RowRest _ (v :: vs) (' ' :: (x ++ y)) := .cons hx (ih.1 hy)
      exact hrow
    · intro h
      cases h with
      | @cons _ _ x y hx hy =>
        exact ⟨[' '], x ++ y, rfl, (hspace _).2 rfl, spells_cons_iff.2 ⟨x, y, rfl, hx, ih.2 hy⟩⟩

theorem spells_rowPieces_iff {vs : List Value} {cs : List Char} :
    st.Spells m (rowPieces vs) cs ↔ Row (fun v => st.Spells m [.value v]) vs cs := by
  cases vs with
  | nil =>
    refine (spells_text_iff rfl).trans ⟨fun h => h ▸ .nil, fun h => ?_⟩
    cases h
    rfl
  | cons v vs =>
    rw [rowPieces_cons, spells_cons_iff]
    constructor
    · rintro ⟨x, y, rfl, hx, hy⟩
      exact .cons hx (spells_restPieces_iff.1 hy)
    · intro h
      cases h with
      | cons hx hy => exact ⟨_, _, rfl, hx, spells_restPieces_iff.2 hy⟩

theorem spells_vector_iff {a : Address} {cs : List Char} :
    st.Spells m [.value (.vector a)] cs ↔ ∃ x, cs = '#' :: '(' :: x ∧
      Row (fun v => st.Spells m [.value v]) (st.elements a).toList x := by
  have hexpand : st.expand m (.value (.vector a)) = ("#(", rowPieces (st.elements a).toList) := rfl
  have hopening : "#(".toList = ['#', '('] := rfl
  rw [spells_expand_iff, hexpand, hopening]
  simp only [spells_rowPieces_iff, List.cons_append, List.nil_append]

/-! ### Ends -/

theorem exists_rowRest {α : Type} {item : α → List Char → Prop} {vs : List α}
    (h : ∀ v ∈ vs, ∃ x, item v x) : ∃ cs, RowRest item vs cs := by
  induction vs with
  | nil => exact ⟨_, .nil⟩
  | cons v vs ih =>
    obtain ⟨x, hx⟩ := h v List.mem_cons_self
    obtain ⟨y, hy⟩ := ih fun w hw => h w (List.mem_cons_of_mem v hw)
    exact ⟨_, .cons hx hy⟩

theorem exists_row {α : Type} {item : α → List Char → Prop} {vs : List α}
    (h : ∀ v ∈ vs, ∃ x, item v x) : ∃ cs, Row item vs cs := by
  cases vs with
  | nil => exact ⟨_, .nil⟩
  | cons v vs =>
    obtain ⟨x, hx⟩ := h v List.mem_cons_self
    obtain ⟨y, hy⟩ := exists_rowRest fun w hw => h w (List.mem_cons_of_mem v hw)
    exact ⟨_, .cons hx hy⟩

/-- What has a text has one as the tail of a list, if it is no list itself. -/
theorem exists_spells_tail {v : Value} (hnil : v.tag ≠ .nil) (hpair : v.tag ≠ .pair)
    (h : ∃ cs, st.Spells m [.value v] cs) : ∃ cs, st.Spells m [.tail v] cs := by
  obtain ⟨x, hx⟩ := h
  exact ⟨_, (spells_tail_iff hnil hpair).2 ⟨x, rfl, hx⟩⟩

/-- Without cycles a value has a text, also as the tail of a list. -/
theorem Acyclic.exists_spells {v : Value} (h : st.Acyclic v) (m : Mode) :
    (∃ cs, st.Spells m [.value v] cs) ∧ ∃ cs, st.Spells m [.tail v] cs := by
  induction h with
  | intro v _ ih =>
    by_cases hpair : v.tag = .pair
    · obtain ⟨a, rfl⟩ := exists_pair_of_tag hpair
      obtain ⟨x, hx⟩ := (ih (st.parts a).1 (by simp [children])).1
      obtain ⟨y, hy⟩ := (ih (st.parts a).2 (by simp [children])).2
      exact ⟨⟨_, spells_pair_iff.2 ⟨x, y, rfl, hx, hy⟩⟩,
        ⟨_, spells_tail_pair_iff.2 ⟨x, y, rfl, hx, hy⟩⟩⟩
    have hvalue : ∃ cs, st.Spells m [.value v] cs := by
      by_cases hvector : v.tag = .vector
      · obtain ⟨a, rfl⟩ := exists_vector_of_tag hvector
        have helements : ∀ w ∈ (st.elements a).toList, ∃ cs, st.Spells m [.value w] cs :=
          fun w hw => (ih w hw).1
        obtain ⟨x, hx⟩ := exists_row helements
        exact ⟨_, spells_vector_iff.2 ⟨x, rfl, hx⟩⟩
      · exact ⟨_, (spells_leaf_iff hpair hvector).2 rfl⟩
    refine ⟨hvalue, ?_⟩
    by_cases hnil : v.tag = .nil
    · obtain rfl := eq_nil_of_tag hnil
      exact ⟨_, spells_tail_nil_iff.2 rfl⟩
    · exact exists_spells_tail hnil hpair hvalue

theorem Acyclic.exists_returns_print {v : Value} (h : st.Acyclic v) (m : Mode) :
    ∃ s, (st.print m v).Returns s := by
  obtain ⟨cs, hcs⟩ : ∃ cs, st.Spells m [whole m v] cs := by
    cases m with
    | write => exact (h.exists_spells .write).1
    | display =>
      cases v with
      | nil => exact ⟨_, (spells_text_iff rfl).2 rfl⟩
      | _ => exact (h.exists_spells .display).1
  exact ⟨String.ofList cs, returns_print_iff.2 (by rwa [String.toList_ofList])⟩

end Store

end Sameness
