import Sameness.Proofs.Spelling

/-!
What the two forms of a text have in common.

Written or displayed, a value is told by the same leaves in the same order, with the same marks
between them. Only a string or a character is told in two ways. The empty list is a leaf where it
stands for itself, and is not told at all where it ends a list.
-/

namespace Sameness

/-! ### Parts -/

/-- A part of a text: something between the leaves, or one of them. -/
inductive Part where
  | mark (s : String)
  | leaf (v : Value)

namespace Part

/-- Only strings and characters are told in two ways. -/
def text (st : Store) (m : Mode) : Part → String
  | mark s => s
  | leaf (.string a) => m.string (st.text a)
  | leaf (.character c) => m.character c
  | leaf v => st.leafText .write v

def leaf? : Part → Option Value
  | mark _ => none
  | leaf v => some v

def marks : List String := ["(", "#(", " ", " . ", ")"]

end Part

namespace Piece

def part : Piece → Part
  | text s => .mark s
  | value (.pair _) => .mark "("
  | value (.vector _) => .mark "#("
  | value v => .leaf v
  | tail .nil => .mark ")"
  | tail (.pair _) => .mark " "
  | tail _ => .mark " . "

/-- The value that is told, if any. The end of a list is not. -/
def values : Piece → List Value
  | text _ => []
  | value v => [v]
  | tail v => if v = .nil then [] else [v]

/-- If the piece is a text, it is a mark. -/
def IsMarked (p : Piece) : Prop := ∀ s, p = .text s → s ∈ Part.marks

end Piece

namespace Store

variable {st : Store} {m : Mode} {v w : Value}

/-- The values that are told where a value is. An empty list at the end of a list is not. -/
def inner (st : Store) : Value → List Value
  | .pair a => (st.parts a).1 :: if (st.parts a).2 = .nil then [] else [(st.parts a).2]
  | .vector a => (st.elements a).toList
  | _ => []

def ownLeaf : Value → List Value
  | .pair _ | .vector _ => []
  | v => [v]

/-- These are the leaves of the value, from left to right. -/
def HasLeaves (st : Store) (v : Value) (leaves : List Value) : Prop :=
  Run.Yields ownLeaf st.inner [v] leaves

theorem expand_fst (st : Store) (m : Mode) (p : Piece) :
    (st.expand m p).1 = p.part.text st m := by
  cases p with
  | text s => rfl
  | value v => cases v <;> rfl
  | tail v => cases v <;> rfl

theorem expand_snd (st : Store) (m : Mode) (p : Piece) :
    (st.expand m p).2 = (st.expand .write p).2 := by
  cases p with
  | text s => rfl
  | value v => cases v <;> rfl
  | tail v => cases v <;> rfl

/-- The text of some pieces in parts, which are the same for both modes. -/
def Consists (st : Store) : List Piece → List Part → Prop :=
  Run.Yields (fun p => [p.part]) fun p => (st.expand .write p).2

theorem Consists.spells {ps : List Piece} {parts : List Part} (h : st.Consists ps parts)
    (m : Mode) : st.Spells m ps (String.join (parts.map (Part.text st m))).toList := by
  have hhead : (fun p => (st.expand m p).1.toList) =
      fun p => [p.part].flatMap fun q => (q.text st m).toList := by
    funext p
    simp [expand_fst]
  have hbelow : (fun p => (st.expand m p).2) = fun p => (st.expand .write p).2 :=
    funext (expand_snd st m)
  have htext : (String.join (parts.map (Part.text st m))).toList =
      parts.flatMap fun q => (q.text st m).toList := by
    simp [List.flatMap_map]
  rw [Spells, hhead, hbelow, htext]
  exact h.flatMap _

theorem values_restPieces (vs : List Value) : (restPieces vs).flatMap Piece.values = vs := by
  induction vs with
  | nil => rfl
  | cons v vs ih => simp [restPieces, Piece.values, ih]

theorem values_rowPieces (vs : List Value) : (rowPieces vs).flatMap Piece.values = vs := by
  cases vs with
  | nil => rfl
  | cons v vs => simp [rowPieces_cons, Piece.values, values_restPieces]

/-- What follows the opening of a value tells what is told inside of it. -/
theorem values_expand (st : Store) (m : Mode) (v : Value) :
    (st.expand m (.value v)).2.flatMap Piece.values = st.inner v := by
  cases v with
  | pair a => simp [expand, inner, Piece.values]
  | vector a => exact values_rowPieces _
  | _ => rfl

theorem Consists.leaves {ps : List Piece} {parts : List Part} (h : st.Consists ps parts) :
    Run.Yields ownLeaf st.inner (ps.flatMap Piece.values) (parts.filterMap Part.leaf?) := by
  induction h with
  | nil => exact .nil
  | @cons p todo parts _ ih =>
    rw [List.flatMap_append] at ih
    rw [List.flatMap_cons]
    cases p with
    | text s => exact ih
    | value v =>
      rw [values_expand] at ih
      cases v <;> exact .cons ih
    | tail v =>
      -- A tail that is a pair goes on as the pair would; any other is yet to be told.
      cases v with
      | pair a => exact .cons (values_expand st .write (.pair a) ▸ ih)
      | _ => exact ih

theorem isMarked_restPieces (vs : List Value) : ∀ p ∈ restPieces vs, p.IsMarked := by
  induction vs with
  | nil => simp [restPieces, Piece.IsMarked, Part.marks]
  | cons v vs ih => simpa [restPieces, Piece.IsMarked, Part.marks] using ih

theorem isMarked_rowPieces (vs : List Value) : ∀ p ∈ rowPieces vs, p.IsMarked := by
  cases vs with
  | nil => exact isMarked_restPieces []
  | cons v vs =>
    rw [rowPieces_cons, List.forall_mem_cons]
    exact ⟨by simp [Piece.IsMarked], isMarked_restPieces vs⟩

theorem isMarked_expand (st : Store) (m : Mode) (p : Piece) :
    ∀ q ∈ (st.expand m p).2, q.IsMarked := by
  unfold expand
  split
  case h_3 a => exact isMarked_rowPieces _
  all_goals simp [Piece.IsMarked, Part.marks]

theorem Consists.marks {ps : List Piece} {parts : List Part} (h : st.Consists ps parts)
    (hps : ∀ p ∈ ps, p.IsMarked) {s : String} (hs : .mark s ∈ parts) : s ∈ Part.marks := by
  have hpart : ∀ p : Piece, p.IsMarked → ∀ q ∈ [p.part], ∀ s, q = .mark s → s ∈ Part.marks := by
    intro p hp q hq s hs
    rw [List.mem_singleton] at hq
    subst hq
    cases p with
    | text t => exact hp s (by cases hs; rfl)
    | value v => cases v <;> cases hs <;> decide
    | tail v => cases v <;> cases hs <;> decide
  exact h.forall hpart (fun p _ => isMarked_expand st .write p) hps _ hs s rfl

/-! ### Two modes -/

/-- A value is told by these parts. -/
structure ToldBy (st : Store) (v : Value) (parts : List Part) : Prop where
  leaves : st.HasLeaves v (parts.filterMap Part.leaf?)
  marks {s : String} : .mark s ∈ parts → s ∈ Part.marks
  print (m : Mode) : (st.print m v).Returns (String.join (parts.map (Part.text st m)))

theorem mem_children_of_mem_inner (h : w ∈ st.inner v) : w ∈ st.children v := by
  cases v with
  | pair a =>
    by_cases hrest : (st.parts a).2 = .nil
    · simp only [inner, hrest, if_true, List.mem_singleton] at h
      simp [children, h]
    · simpa [inner, hrest, children] using h
  | _ => exact h

theorem HasLeaves.reaches {leaves : List Value} (h : st.HasLeaves v leaves) :
    ∀ w ∈ leaves, st.Reaches v w := by
  have hown : ∀ u, st.Reaches v u → ∀ w ∈ ownLeaf u, st.Reaches v w := by
    intro u hu w hw
    cases u with
    | pair | vector => cases hw
    | _ => exact List.mem_singleton.1 hw ▸ hu
  have hself : ∀ u ∈ [v], st.Reaches v u := List.forall_mem_singleton.2 .refl
  exact Run.Yields.forall h hown (fun u hu w hw => hu.tail (mem_children_of_mem_inner hw)) hself

theorem Acyclic.exists_toldBy (h : st.Acyclic v) (hv : v ≠ .nil) : ∃ parts, st.ToldBy v parts := by
  obtain ⟨cs, hcs⟩ := (h.exists_spells .write).1
  obtain ⟨parts, hparts⟩ : ∃ parts, st.Consists [.value v] parts := hcs.exists_other _
  refine ⟨parts, hparts.leaves, hparts.marks (by simp [Piece.IsMarked]), fun m => ?_⟩
  rw [returns_print_iff, whole_eq_value hv]
  exact hparts.spells m

/-- Nothing in the value is told in two ways. -/
def NoLiterals (st : Store) (v : Value) : Prop :=
  ∀ w, st.Reaches v w → w.tag ≠ .string ∧ w.tag ≠ .character

theorem Part.text_leaf_congr (hstring : v.tag ≠ .string) (hcharacter : v.tag ≠ .character)
    (m m' : Mode) : (Part.leaf v).text st m = (Part.leaf v).text st m' := by
  cases v with
  | string a => exact absurd rfl hstring
  | character c => exact absurd rfl hcharacter
  | _ => rfl

theorem ToldBy.text_eq {parts : List Part} (h : st.ToldBy v parts) (hv : st.NoLiterals v) :
    parts.map (Part.text st .write) = parts.map (Part.text st .display) := by
  refine List.map_congr_left fun p hp => ?_
  cases p with
  | mark s => rfl
  | leaf w =>
    have hleaf : w ∈ parts.filterMap Part.leaf? := List.mem_filterMap.2 ⟨.leaf w, hp, rfl⟩
    obtain ⟨hstring, hcharacter⟩ := hv w (h.leaves.reaches w hleaf)
    exact Part.text_leaf_congr hstring hcharacter _ _

/-- The two texts of a value are made of the same parts, and only its strings and characters are
told in two ways. The empty list is told in one way inside of a value, and in another as a whole. -/
theorem modes_share_parts (h : st.Acyclic v) (hv : v ≠ .nil) :
    (∃ parts, st.ToldBy v parts) ∧
      (st.NoLiterals v → ∃ text, (st.write v).Returns text ∧ (st.display v).Returns text) ∧
      (∀ m, (Part.leaf .nil).text st m = "()") ∧
      (st.write .nil).Returns "()" ∧ (st.display .nil).Returns "'()" := by
  obtain ⟨parts, hparts⟩ := h.exists_toldBy hv
  refine ⟨⟨parts, hparts⟩, fun hnone => ?_, fun m => rfl, ⟨1, rfl⟩, ⟨1, rfl⟩⟩
  exact ⟨_, hparts.print .write, hparts.text_eq hnone ▸ hparts.print .display⟩

/-- A list with a dotted tail, of a vector that holds the empty list, a character and a list, and of
a string. -/
def dottedList : Store :=
  ⟨#[.string "a\"b", .pair (.string 0) .nil, .vector #[.nil, .character ' ', .pair 1],
    .pair (.vector 2) (.string 0)], .empty⟩

theorem modes_share_parts_dottedList :
    dottedList.Acyclic (.pair 3) ∧ Value.pair 3 ≠ .nil ∧
      (∃ parts, dottedList.ToldBy (.pair 3) parts) ∧
      (dottedList.write (.pair 3)).Returns "(#(() #\\space (\"a\\\"b\")) . \"a\\\"b\")" ∧
      (dottedList.display (.pair 3)).Returns "(#(()   (a\"b)) . a\"b)" := by
  have hacyclic : dottedList.Acyclic (.pair 3) := acyclic_of_returns_hashInput ⟨8, rfl⟩
  have hpair : Value.pair 3 ≠ .nil := by decide
  obtain ⟨hparts, -⟩ := modes_share_parts hacyclic hpair
  exact ⟨hacyclic, hpair, hparts, ⟨14, rfl⟩, ⟨14, rfl⟩⟩

end Store

end Sameness
