import Sameness.Lines
import Sameness.Proofs.Skeleton
import Sameness.Proofs.Tokens

/-!
Texts of one line.

Line breaks inside strings and characters are escaped when they are written, so where the names in a
store have none, no text of a value has.
-/

namespace Sameness

namespace Lines

def IsBreak (c : Char) : Prop := c = '\n' ∨ c = '\r'

def Unbroken (s : String) : Prop := ∀ c ∈ s.toList, ¬IsBreak c

instance : DecidablePred IsBreak := fun _ => inferInstanceAs (Decidable (_ ∨ _))

instance : DecidablePred Unbroken := fun s => List.decidableBAll (fun c => ¬IsBreak c) s.toList

theorem unbroken_append {s t : String} : Unbroken (s ++ t) ↔ Unbroken s ∧ Unbroken t := by
  simp only [Unbroken, String.toList_append, List.forall_mem_append]

theorem unbroken_ofList {cs : List Char} : Unbroken (String.ofList cs) ↔ ∀ c ∈ cs, ¬IsBreak c := by
  rw [Unbroken, String.toList_ofList]

theorem unbroken_intercalate {separator : String} {parts : List String} (h : Unbroken separator)
    (hparts : ∀ s ∈ parts, Unbroken s) : Unbroken (separator.intercalate parts) := by
  match parts with
  | [] => rw [String.intercalate_nil]; decide
  | [s] =>
    rw [String.intercalate_singleton]
    exact hparts s List.mem_cons_self
  | s :: t :: rest =>
    rw [String.intercalate_cons_cons, unbroken_append, unbroken_append]
    exact ⟨⟨hparts s List.mem_cons_self, h⟩,
      unbroken_intercalate h fun u hu => hparts u (List.mem_cons_of_mem s hu)⟩

theorem unbroken_join {parts : List String} (h : ∀ s ∈ parts, Unbroken s) :
    Unbroken (String.join parts) := by
  induction parts with
  | nil => decide
  | cons s parts ih =>
    rw [String.join_cons, unbroken_append]
    exact ⟨h s List.mem_cons_self, ih fun t ht => h t (List.mem_cons_of_mem s ht)⟩

/-- The lines with a line feed behind each of them. -/
def text (lines : List String) : String := String.join (lines.map (· ++ "\n"))

theorem ofChars_cons {c : Char} {cs line : List Char} {lines : List (List Char)}
    (hc : ¬IsBreak c) (h : ofChars cs = line :: lines) :
    ofChars (c :: cs) = (c :: line) :: lines := by
  rw [ofChars, h]
  case x_1 => exact fun hn => hc (.inl hn)
  case x_2 => exact fun _ hr => absurd (.inr hr) hc

theorem ofChars_append {cs : List Char} (h : ∀ c ∈ cs, ¬IsBreak c) (rest : List Char) :
    ofChars (cs ++ '\n' :: rest) = cs :: ofChars rest := by
  induction cs with
  | nil => simp [ofChars]
  | cons c cs ih =>
    have hline : ofChars (cs ++ '\n' :: rest) = cs :: ofChars rest :=
      ih fun d hd => h d (List.mem_cons_of_mem c hd)
    exact ofChars_cons (h c List.mem_cons_self) hline

theorem ofString_text {lines : List String} (h : ∀ s ∈ lines, Unbroken s) :
    ofString (text lines) = lines := by
  induction lines with
  | nil => rfl
  | cons s lines ih =>
    have hchars : (text (s :: lines)).toList = s.toList ++ '\n' :: (text lines).toList := by
      simp [text, String.join_cons]
    have hrest : (ofChars (text lines).toList).map String.ofList = lines :=
      ih fun t ht => h t (List.mem_cons_of_mem s ht)
    rw [ofString, hchars, ofChars_append (h s List.mem_cons_self), List.map_cons, hrest,
      String.ofList_toList]

/-- The text is these lines, each with a line feed behind it. -/
def Prints (s : String) (lines : List String) : Prop := s = text lines ∧ ofString s = lines

theorem prints_text {lines : List String} (h : ∀ s ∈ lines, Unbroken s) :
    Prints (text lines) lines :=
  ⟨rfl, ofString_text h⟩

end Lines

open Lines (Unbroken IsBreak)

/-! ### Atoms -/

theorem unbroken_toString (n : Nat) : Unbroken (toString n) := by
  rintro c hc hbreak
  rw [toList_toString_nat] at hc
  have hdigit : c.isDigit = true := Nat.isDigit_of_mem_toDigits (by decide) (by decide) hc
  rcases hbreak with rfl | rfl <;> exact absurd hdigit (by decide)

theorem Double.unbroken_text (x : Double) : Unbroken x.text := by
  cases hnan : x.isNaN with
  | true =>
    rw [text, if_pos hnan]
    decide
  | false =>
    rintro c hc (rfl | rfl)
    · exact absurd (mem_text hnan hc) (by decide)
    · exact absurd (mem_text hnan hc) (by decide)

theorem unbroken_boolText (b : Bool) : Unbroken (boolText b) := by
  cases b <;> decide

theorem Builtin.unbroken_name (b : Builtin) : Unbroken b.name := by
  have hall : ∀ b ∈ all, Unbroken b.name := by decide
  exact hall b (mem_all b)

namespace Literal

theorem unbroken_string (s : String) : Unbroken (string s) := by
  rintro c hc (rfl | rfl)
  · exact (ne_of_mem_string hc).1 rfl
  · exact (ne_of_mem_string hc).2.2 rfl

theorem unbroken_character (c : Char) : Unbroken (character c) := by
  unfold character
  split
  case h_6 => simp_all [Unbroken, IsBreak]
  all_goals decide

end Literal

namespace Store

/-- No name in the store goes over more than one line. -/
structure UnbrokenNames (st : Store) : Prop where
  symbols : ∀ name ∈ st.symbols.names, Unbroken name
  hosts : ∀ typeName payload, .host typeName payload ∈ st.cells → Unbroken typeName

variable {st : Store}

theorem UnbrokenNames.nameOf (h : st.UnbrokenNames) (id : Nat) :
    Unbroken (st.symbols.nameOf id) := by
  rw [SymbolTable.nameOf, Array.getD_eq_getD_getElem?]
  cases hname : st.symbols.names[id]? with
  | none => decide
  | some name => exact h.symbols name (Array.mem_of_getElem? hname)

theorem UnbrokenNames.hostType (h : st.UnbrokenNames) (a : Address) : Unbroken (st.hostType a) := by
  rw [Store.hostType]
  split
  · rename_i typeName payload hcell
    exact h.hosts typeName payload (Array.mem_of_getElem? hcell)
  · decide

theorem UnbrokenNames.leafText (h : st.UnbrokenNames) (v : Value) :
    Unbroken (st.leafText .write v) := by
  have hbetween : ∀ {before s after : String}, Unbroken before → Unbroken s → Unbroken after →
      Unbroken (before ++ s ++ after) := fun hbefore hs hafter =>
    Lines.unbroken_append.2 ⟨Lines.unbroken_append.2 ⟨hbefore, hs⟩, hafter⟩
  cases v with
  | pair a | vector a => exact (by decide : Unbroken "")
  | nil => exact (by decide : Unbroken "()")
  | unspecified => exact (by decide : Unbroken "#<unspecified>")
  | boolean b => exact unbroken_boolText b
  | number x => exact x.unbroken_text
  | character c => exact Literal.unbroken_character c
  | symbol id => exact h.nameOf id
  | builtin b => exact hbetween (by decide) b.unbroken_name (by decide)
  | code id => exact hbetween (by decide) (unbroken_toString id.toNat) (by decide)
  | closure id c => exact hbetween (by decide) (unbroken_toString id.toNat) (by decide)
  | boolVector a =>
    refine hbetween (by decide) (Lines.unbroken_intercalate (by decide) fun s hs => ?_) (by decide)
    obtain ⟨b, -, rfl⟩ := List.mem_map.1 hs
    exact unbroken_boolText b
  | string a => exact Literal.unbroken_string (st.text a)
  | host a => exact hbetween (by decide) (h.hostType a) (by decide)

theorem UnbrokenNames.part (h : st.UnbrokenNames) {p : Part}
    (hp : ∀ s, p = .mark s → s ∈ Part.marks) : Unbroken (p.text st .write) := by
  have hmarks : ∀ s ∈ Part.marks, Unbroken s := by decide
  cases p with
  | mark s => exact hmarks s (hp s rfl)
  | leaf v =>
    have hleaf : Unbroken (st.leafText .write v) := h.leafText v
    cases v <;> exact hleaf

/-- What a value is written as stands on one line. -/
theorem UnbrokenNames.write {v : Value} {s : String} (h : st.UnbrokenNames)
    (hs : (st.write v).Returns s) : Unbroken s := by
  obtain ⟨parts, hparts⟩ : ∃ parts, st.Consists [.value v] parts :=
    Run.Yields.exists_other (returns_print_iff.1 hs) _
  have hwritten : (st.write v).Returns (String.join (parts.map (Part.text st .write))) :=
    returns_print_iff.2 (hparts.spells .write)
  rw [hs.unique hwritten]
  refine Lines.unbroken_join fun t ht => ?_
  obtain ⟨p, hp, rfl⟩ := List.mem_map.1 ht
  refine h.part ?_
  rintro t rfl
  exact hparts.marks (by simp [Piece.IsMarked]) hp

end Store

end Sameness
