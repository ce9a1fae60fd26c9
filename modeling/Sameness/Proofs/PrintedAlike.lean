import Sameness.Proofs.Reach
import Sameness.Proofs.Spelling

/-!
Values that differ below equal shells only are printed in the same way.

Values that are alike are of that sort. The two zeros are the one exception: they are the same
number with different texts.
-/

namespace Sameness

/-- The number whose text tells it from one that is the same. -/
def Value.isNegativeZero : Value → Bool
  | number x => x.isZero && x.isNegative
  | _ => false

theorem Value.eq_of_isEqv {v w : Value} (h : v.isEqv w = true) (hv : v.isNegativeZero = false)
    (hw : w.isNegativeZero = false) : v = w := by
  rcases isEqv_iff.1 h with ⟨hvw, -⟩ | hzero
  · exact hvw
  · by_contra hvw
    obtain ⟨x, y, rfl, rfl, hx, hy, hsign⟩ := oppositeZeros_iff.2 ⟨hvw, hzero⟩
    simp only [isNegativeZero, hx, hy, Bool.true_and] at hv hw
    exact hsign (hv.trans hw.symm)

/-- Two pieces of the same kind that print the same text or related values. -/
inductive Piece.Match (R : Value → Value → Prop) : Piece → Piece → Prop
  | text (s : String) : Match R (.text s) (.text s)
  | value {v w : Value} (h : R v w) : Match R (.value v) (.value w)
  | tail {v w : Value} (h : R v w) : Match R (.tail v) (.tail w)

/-- The text in front of all parts. -/
def Shell.opening (m : Mode) : Shell → String
  | pair => "("
  | vector _ => "#("
  | boolVector bits => "#bool(" ++ " ".intercalate (bits.toList.map boolText) ++ ")"
  | string text => m.string text

def Shell.pieces : Shell → List Value → List Piece
  | pair, first :: rest :: _ => [.value first, .tail rest]
  | vector _, vs => Store.rowPieces vs
  | _, _ => []

namespace Store

variable {st : Store} {m : Mode}

/-- Related values are the same, or there are related values below two equal shells. -/
structure ShellWise (st : Store) (R : Value → Value → Prop) : Prop where
  refl (v : Value) : R v v
  eq_or {v w : Value} : R v w → v = w ∨ ∃ s, st.shell? v = some s ∧ st.shell? w = some s ∧
    List.Forall₂ R (st.children v) (st.children w)

/-! ### Pieces -/

theorem match_refl {R : Value → Value → Prop} (hR : ∀ v, R v v) (p : Piece) : p.Match R p := by
  cases p with
  | text s => exact .text s
  | value v => exact .value (hR v)
  | tail v => exact .tail (hR v)

theorem forall₂_match_restPieces {R : Value → Value → Prop} {vs ws : List Value}
    (h : List.Forall₂ R vs ws) :
    List.Forall₂ (Piece.Match R) (restPieces vs) (restPieces ws) := by
  induction h with
  | nil => exact .cons (.text _) .nil
  | cons hvw _ ih => exact .cons (.text _) (.cons (.value hvw) ih)

theorem forall₂_match_rowPieces {R : Value → Value → Prop} {vs ws : List Value}
    (h : List.Forall₂ R vs ws) : List.Forall₂ (Piece.Match R) (rowPieces vs) (rowPieces ws) := by
  cases h with
  | nil => exact .cons (.text _) .nil
  | cons hvw h =>
    rw [rowPieces_cons, rowPieces_cons]
    exact .cons (.value hvw) (forall₂_match_restPieces h)

/-- What stands between the parts of a value, and the parts, follow from its shell. -/
theorem expand_of_shell? {v : Value} {s : Shell} (h : st.shell? v = some s) :
    st.expand m (.value v) = (s.opening m, s.pieces (st.children v)) := by
  cases v <;> cases h <;> rfl

theorem forall₂_match_pieces {R : Value → Value → Prop} (s : Shell) {vs ws : List Value}
    (h : List.Forall₂ R vs ws) : List.Forall₂ (Piece.Match R) (s.pieces vs) (s.pieces ws) := by
  cases s with
  | pair =>
    cases h with
    | nil => exact .nil
    | cons hfirst h =>
      cases h with
      | nil => exact .nil
      | cons hrest _ => exact .cons (.value hfirst) (.cons (.tail hrest) .nil)
  | vector n => exact forall₂_match_rowPieces h
  | boolVector bits => exact .nil
  | string text => exact .nil

/-- A pair goes on with the list, and all else is set behind a dot. -/
theorem expand_tail_of_shell? {v : Value} {s : Shell} (h : st.shell? v = some s) :
    st.expand m (.tail v) =
      if s = .pair then (" ", s.pieces (st.children v)) else (" . ", [.value v, .text ")"]) := by
  cases v <;> cases h <;> rfl

section

variable {R : Value → Value → Prop} (hR : st.ShellWise R)

include hR

/-- Pieces that match print the same and leave pieces that match. -/
theorem expand_congr {p q : Piece} (h : p.Match R q) :
    (st.expand m p).1 = (st.expand m q).1 ∧
      List.Forall₂ (Piece.Match R) (st.expand m p).2 (st.expand m q).2 := by
  have hsame : ∀ p, (st.expand m p).1 = (st.expand m p).1 ∧
      List.Forall₂ (Piece.Match R) (st.expand m p).2 (st.expand m p).2 :=
    fun p => ⟨rfl, List.forall₂_same.2 fun q _ => match_refl hR.refl q⟩
  cases h with
  | text s => exact hsame (.text s)
  | @value v w h =>
    rcases hR.eq_or h with rfl | ⟨s, hv, hw, hbelow⟩
    · exact hsame (.value v)
    · rw [expand_of_shell? hv, expand_of_shell? hw]
      exact ⟨rfl, forall₂_match_pieces s hbelow⟩
  | @tail v w h =>
    rcases hR.eq_or h with rfl | ⟨s, hv, hw, hbelow⟩
    · exact hsame (.tail v)
    · rw [expand_tail_of_shell? hv, expand_tail_of_shell? hw]
      by_cases hs : s = .pair
      · rw [if_pos hs, if_pos hs]
        exact ⟨rfl, forall₂_match_pieces s hbelow⟩
      · rw [if_neg hs, if_neg hs]
        exact ⟨rfl, .cons (.value h) (.cons (.text ")") .nil)⟩

theorem match_whole {v w : Value} (h : R v w) : (whole m v).Match R (whole m w) := by
  have hwhole : ∀ {u : Value} {s : Shell}, st.shell? u = some s → whole m u = .value u := by
    intro u s hu
    cases m with
    | write => rfl
    | display => cases u <;> first | rfl | cases hu
  rcases hR.eq_or h with rfl | ⟨s, hv, hw, -⟩
  · exact match_refl hR.refl _
  · rw [hwhole hv, hwhole hw]
    exact .value h

/-- One text is found when the other is, and it is the same. -/
theorem print_congr {v w : Value} (h : R v w) (m : Mode) : st.print m v = st.print m w := by
  have hvisit : ∀ printed p q, Piece.Match R p q →
      (st.visitText m printed p).1 = (st.visitText m printed q).1 ∧
        List.Forall₂ (Piece.Match R) (st.visitText m printed p).2 (st.visitText m printed q).2 := by
    intro printed p q hpq
    obtain ⟨htext, hbelow⟩ := expand_congr hR (m := m) hpq
    exact ⟨congrArg (printed ++ ·) htext, hbelow⟩
  exact Run.sweep_congr hvisit "" (.cons (match_whole hR h) .nil)

end

/-! ### Alike values -/

def NoNegativeZero (st : Store) (v : Value) : Prop :=
  ∀ w, st.Reaches v w → w.isNegativeZero = false

theorem NoNegativeZero.child {v w : Value} (h : st.NoNegativeZero v) (hw : w ∈ st.children v) :
    st.NoNegativeZero w :=
  fun u hu => h u (.head hw hu)

/-- Below one and the same cell anything may stand, a negative zero or NaN as well. -/
def PrintedAlike (st : Store) (v w : Value) : Prop :=
  v = w ∨ st.Alike v w ∧ st.NoNegativeZero v ∧ st.NoNegativeZero w

theorem printedAlike_shellWise (st : Store) : st.ShellWise st.PrintedAlike where
  refl v := .inl rfl
  eq_or h := by
    rcases h with rfl | ⟨halike, hv, hw⟩
    · exact .inl rfl
    · cases halike with
      | same h => exact .inl (Value.eq_of_isEqv h (hv _ .refl) (hw _ .refl))
      | @inside v w s hsv hsw h =>
        refine .inr ⟨s, hsv, hsw, forall₂_children (hsv.trans hsw.symm) fun p hp => ?_⟩
        have hmem := List.of_mem_zip hp
        exact .inr ⟨h p hp, hv.child hmem.1, hw.child hmem.2⟩

theorem Alike.print_eq {v w : Value} (h : st.Alike v w) (hv : st.NoNegativeZero v)
    (hw : st.NoNegativeZero w) (m : Mode) : st.print m v = st.print m w :=
  print_congr (printedAlike_shellWise st) (.inr ⟨h, hv, hw⟩) m

/-- Values that are the same under `isEqual` are written alike and displayed alike, unless a
negative zero stands in one of them. NaN in a cell of both, objects of the host and contexts of
procedures are no exception. -/
theorem isEqual_prints_alike {v w : Value} (hacyclic : st.Acyclic v)
    (hequal : (st.isEqual v w).Returns true) (hv : st.NoNegativeZero v) (hw : st.NoNegativeZero w) :
    (∃ text, (st.write v).Returns text ∧ (st.write w).Returns text) ∧
      ∃ text, (st.display v).Returns text ∧ (st.display w).Returns text := by
  have halike : ∀ m, ∃ text, (st.print m v).Returns text ∧ (st.print m w).Returns text := by
    intro m
    obtain ⟨text, htext⟩ := hacyclic.exists_returns_print m
    have hsame : st.print m v = st.print m w := (isEqual_returns_true_iff.1 hequal).print_eq hv hw m
    exact ⟨text, htext, hsame ▸ htext⟩
  exact ⟨halike .write, halike .display⟩

/-- Two vectors with strings of their own. They share a list with NaN in it and an object of the
host, and hold a procedure whose context is a negative zero. -/
def twoVectors : Store :=
  ⟨#[.pair (.number ⟨0x7ff8000000000000⟩) .nil, .host "port" .unit, .string "a", .string "a",
    .vector #[.pair 0, .host 1, .closure 7 (.number ⟨0x8000000000000000⟩), .symbol 0, .string 2],
    .vector #[.pair 0, .host 1, .closure 7 (.number ⟨0x8000000000000000⟩), .symbol 0, .string 3]],
    SymbolTable.empty.push "a b" (by simp [SymbolTable.empty])⟩

/-- All that stands in one of the vectors. -/
def twoVectors.below (k : Nat) : List Value :=
  [.vector (k + 2), .pair 0, .host 1, .closure 7 (.number ⟨0x8000000000000000⟩), .symbol 0,
    .string k,
    .number ⟨0x7ff8000000000000⟩, .nil]

theorem twoVectors.noNegativeZero {k : Nat} (hk : k ∈ [2, 3]) :
    twoVectors.NoNegativeZero (.vector (k + 2)) := by
  have hclosed : ∀ k ∈ [2, 3], ∀ u ∈ below k, ∀ w ∈ twoVectors.children u, w ∈ below k := by decide
  have hnone : ∀ k ∈ [2, 3], ∀ u ∈ below k, u.isNegativeZero = false := by decide
  intro w hw
  exact hnone k hk w (mem_of_reaches (hclosed k hk) List.mem_cons_self hw)

theorem isEqual_prints_alike_twoVectors :
    twoVectors.Acyclic (.vector 4) ∧ (twoVectors.isEqual (.vector 4) (.vector 5)).Returns true ∧
      twoVectors.NoNegativeZero (.vector 4) ∧ twoVectors.NoNegativeZero (.vector 5) ∧
      ∃ text, (twoVectors.write (.vector 4)).Returns text ∧
        (twoVectors.write (.vector 5)).Returns text := by
  have hacyclic : twoVectors.Acyclic (.vector 4) := acyclic_of_returns_hashInput ⟨8, rfl⟩
  have hequal : (twoVectors.isEqual (.vector 4) (.vector 5)).Returns true := ⟨6, by decide⟩
  have hfirst : twoVectors.NoNegativeZero (.vector 4) := twoVectors.noNegativeZero (by decide)
  have hsecond : twoVectors.NoNegativeZero (.vector 5) := twoVectors.noNegativeZero (by decide)
  obtain ⟨hwrite, -⟩ := isEqual_prints_alike hacyclic hequal hfirst hsecond
  exact ⟨hacyclic, hequal, hfirst, hsecond, hwrite⟩

end Store

end Sameness
