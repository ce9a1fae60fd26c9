import Sameness.Proofs.Skeleton
import Sameness.Proofs.Spine

/-!
The text of a list.

A list is printed along its spine, with no regard to where it began. So its text is that of its
first element and what the text of the rest is behind its parenthesis.
-/

namespace Sameness

theorem intercalate_cons (separator s : String) (texts : List String) :
    separator.intercalate (s :: texts) = s ++ String.join (texts.map (separator ++ ·)) := by
  induction texts generalizing s with
  | nil => simp
  | cons t texts ih =>
    rw [String.intercalate_cons_cons, ih, List.map_cons, String.join_cons]
    simp only [String.append_assoc]

namespace Store

variable {st : Store} {m : Mode} {v t : Value} {vs : List Value} {a : Address} {n : Nat}

/-- Prints a value as it stands inside of another. Only the empty list may look different as a
whole. -/
def printInside (st : Store) (m : Mode) (v : Value) : Run String :=
  Run.sweep (st.visitText m) "" [.value v]

theorem print_eq_printInside (h : v ≠ .nil) (m : Mode) : st.print m v = st.printInside m v := by
  rw [print, whole_eq_value h, printInside]

theorem returns_printInside_iff {s : String} :
    (st.printInside m v).Returns s ↔ st.Spells m [.value v] s.toList :=
  returns_sweep_visitText_iff

theorem returns_printInside_of_spells {cs : List Char} (h : st.Spells m [.value v] cs) :
    (st.printInside m v).Returns (String.ofList cs) :=
  returns_printInside_iff.2 (by rwa [String.toList_ofList])

theorem returns_printInside_nil : (st.printInside m .nil).Returns "()" := ⟨1, rfl⟩

/-! ### Pairs -/

/-- What follows the last element of a list, where `text` is that of what the list ends in. The
empty list is not told there. -/
def closing : Value → String → String
  | .nil, _ => ")"
  | _, text => " . " ++ text ++ ")"

/-- How the text of a pair is put together from that of its first field and that of the other. -/
inductive PairText (first : String) : Value → String → String → Prop
  | followed (a : Address) (behind : String) :
    PairText first (.pair a) ("(" ++ behind) ("(" ++ first ++ " " ++ behind)
  | ended {rest : Value} (h : rest.tag ≠ .pair) (text : String) :
    PairText first rest text ("(" ++ first ++ closing rest text)

theorem exists_closing (ht : t.tag ≠ .pair) {y : List Char} (h : st.Spells m [.tail t] y) :
    ∃ text, (st.printInside m t).Returns text ∧ String.ofList y = closing t text := by
  rcases spells_tail_cases h with ⟨rfl, rfl⟩ | ⟨a, -, -, rfl, -⟩ | ⟨hnil, x, rfl, hx⟩
  · exact ⟨"()", returns_printInside_nil, rfl⟩
  · exact absurd rfl ht
  · refine ⟨String.ofList x, returns_printInside_of_spells hx, ?_⟩
    have hclosing : closing t (String.ofList x) = " . " ++ String.ofList x ++ ")" := by
      cases t with
      | nil => exact absurd rfl hnil
      | _ => rfl
    rw [hclosing]
    simp [← String.toList_inj]

theorem exists_pairText {rest : Value} {x y : List Char} (h : st.Spells m [.tail rest] y) :
    ∃ text, (st.printInside m rest).Returns text ∧
      PairText (String.ofList x) rest text (String.ofList ('(' :: (x ++ y))) := by
  by_cases hpair : rest.tag = .pair
  · obtain ⟨a, rfl⟩ := exists_pair_of_tag hpair
    obtain ⟨y, z, rfl, hy, hz⟩ := spells_tail_pair_iff.1 h
    have hrest : st.Spells m [.value (.pair a)] ('(' :: (y ++ z)) :=
      spells_pair_iff.2 ⟨y, z, rfl, hy, hz⟩
    have htext : String.ofList ('(' :: (x ++ ' ' :: (y ++ z))) =
        "(" ++ String.ofList x ++ " " ++ String.ofList (y ++ z) := by
      simp [← String.toList_inj]
    refine ⟨"(" ++ String.ofList (y ++ z), returns_printInside_iff.2 (by simpa using hrest), ?_⟩
    exact htext ▸ .followed a _
  · obtain ⟨text, hrest, hclosing⟩ := exists_closing hpair h
    have htext : String.ofList ('(' :: (x ++ y)) = "(" ++ String.ofList x ++ closing rest text := by
      simp [← hclosing, ← String.toList_inj]
    exact ⟨text, hrest, htext ▸ .ended hpair text⟩

/-! ### Spines -/

/-- The texts of the elements come one after the other, each behind a space. -/
theorem exists_texts (hwalk : Cursor.take st n ⟨v⟩ = (vs, ⟨t⟩)) (ht : t.tag ≠ .pair)
    {y : List Char} (h : st.Spells m [.tail v] y) :
    ∃ texts text, List.Forall₂ (fun w s => (st.printInside m w).Returns s) vs texts ∧
      (st.printInside m t).Returns text ∧
      String.ofList y = String.join (texts.map (" " ++ ·)) ++ closing t text := by
  -- Behind each element is a tail again, whether or not the list goes on.
  induction vs generalizing n v y with
  | nil =>
    obtain rfl := eq_of_take_nil hwalk
    obtain ⟨text, htext, hy⟩ := exists_closing ht h
    exact ⟨[], text, .nil, htext, by simpa using hy⟩
  | cons w ws ih =>
    obtain ⟨k, rest, huncons, hrest⟩ := exists_of_take_cons hwalk
    obtain ⟨a, rfl⟩ := eq_pair_of_uncons huncons
    have hparts : st.parts a = (w, rest) := Option.some.inj huncons
    obtain ⟨x, z, rfl, hx, hz⟩ := spells_tail_pair_iff.1 h
    rw [hparts] at hx hz
    obtain ⟨texts, text, htexts, htext, hy⟩ := ih hrest hz
    refine ⟨String.ofList x :: texts, text, .cons (returns_printInside_of_spells hx) htexts, htext,
      ?_⟩
    rw [List.map_cons, String.join_cons, String.append_assoc, ← hy]
    simp [← String.toList_inj]

/-! ### The law -/

/-- The text of a pair in one mode, where it stands by itself and where it does not. -/
structure ListText (st : Store) (m : Mode) (a : Address) : Prop where
  whole : st.print m (.pair a) = st.printInside m (.pair a)
  pair : ∃ first rest text, (st.printInside m (st.parts a).1).Returns first ∧
    (st.printInside m (st.parts a).2).Returns rest ∧
    (st.printInside m (.pair a)).Returns text ∧ PairText first (st.parts a).2 rest text
  ends : ∃ n vs t, Cursor.take st n ⟨.pair a⟩ = (vs, ⟨t⟩) ∧ t.tag ≠ .pair
  /-- In a list of many elements the texts of all of them stand side by side. -/
  spine {n : Nat} {vs : List Value} {t : Value} :
    Cursor.take st n ⟨.pair a⟩ = (vs, ⟨t⟩) → t.tag ≠ .pair →
    ∃ texts last, List.Forall₂ (fun w s => (st.printInside m w).Returns s) vs texts ∧
      (st.printInside m t).Returns last ∧
      (st.printInside m (.pair a)).Returns ("(" ++ " ".intercalate texts ++ closing t last)

/-- Whatever its fields are, a pair without cycles is printed by what is printed for them. -/
theorem listText (h : st.Acyclic (.pair a)) (m : Mode) : st.ListText m a := by
  obtain ⟨cs, hcs⟩ := (h.exists_spells m).1
  obtain ⟨x, y, rfl, hx, hy⟩ := spells_pair_iff.1 hcs
  have hreturns := returns_printInside_of_spells hcs
  refine ⟨print_eq_printInside (by simp) m, ?_, h.exists_take, fun {n vs t} hwalk ht => ?_⟩
  · obtain ⟨rest, hrest, htext⟩ := exists_pairText hy
    exact ⟨_, rest, _, returns_printInside_of_spells hx, hrest, hreturns, htext⟩
  · -- The first element has no space before it, the others have one each.
    cases vs with
    | nil =>
      obtain rfl := eq_of_take_nil hwalk
      exact absurd rfl ht
    | cons w ws =>
      obtain ⟨k, rest, huncons, hrest⟩ := exists_of_take_cons hwalk
      have hparts : st.parts a = (w, rest) := Option.some.inj huncons
      rw [hparts] at hx hy
      obtain ⟨texts, last, htexts, hlast, hjoin⟩ := exists_texts hrest ht hy
      have htext : String.ofList ('(' :: (x ++ y)) =
          "(" ++ " ".intercalate (String.ofList x :: texts) ++ closing t last := by
        rw [intercalate_cons, String.append_assoc, String.append_assoc, ← hjoin]
        simp
      exact ⟨_, last, .cons (returns_printInside_of_spells hx) htexts, hlast, htext ▸ hreturns⟩

/-- A list of a pair and of the empty list, with a dotted tail. -/
def nestedList : Store :=
  ⟨#[.string "a b", .pair (.character ' ') (.string 0), .pair .nil (.boolean false),
    .pair (.pair 1) (.pair 2)], .empty⟩

theorem listText_nestedList :
    nestedList.Acyclic (.pair 3) ∧
      Cursor.take nestedList 2 ⟨.pair 3⟩ = ([.pair 1, .nil], ⟨.boolean false⟩) ∧
      ∃ texts, List.Forall₂ (fun w s => (nestedList.printInside .write w).Returns s)
          [.pair 1, .nil] texts ∧
        (nestedList.write (.pair 3)).Returns ("(" ++ " ".intercalate texts ++ " . #f)") ∧
        "(" ++ " ".intercalate texts ++ " . #f)" = "((#\\space . \"a b\") () . #f)" := by
  have hfounded : nestedList.Founded := by decide
  have hacyclic : nestedList.Acyclic (.pair 3) := hfounded.acyclic _
  have hwalk : Cursor.take nestedList 2 ⟨.pair 3⟩ = ([.pair 1, .nil], ⟨.boolean false⟩) := rfl
  have hlaw := listText hacyclic .write
  obtain ⟨texts, last, htexts, hlast, htext⟩ := hlaw.spine hwalk (by decide)
  obtain rfl : last = "#f" := hlast.unique ⟨1, rfl⟩
  rw [← hlaw.whole] at htext
  exact ⟨hacyclic, hwalk, texts, htexts, htext, htext.unique ⟨14, rfl⟩⟩

end Store

end Sameness
