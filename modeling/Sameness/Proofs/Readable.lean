import Sameness.Proofs.PrintedAlike
import Sameness.Proofs.Tokens

/-!
The written form can be read back.

Its first characters tell what kind of value comes, and what that holds ends where it has to. So two
values are written alike only if they are alike, whatever is nested in them.
-/

namespace Sameness

theorem SymbolTable.nameOf_injOn {t : SymbolTable} {i j : Nat} (hi : t.nameOf i ≠ "")
    (h : t.nameOf i = t.nameOf j) : i = j := by
  have hnumber : ∀ k, t.nameOf k ≠ "" → t.numbers[t.nameOf k]? = some k := by
    intro k hk
    rw [t.numbers_iff]
    cases hname : t.names[k]? with
    | none => exact absurd (by simp [nameOf, hname]) hk
    | some name => simp [nameOf, hname]
  have hj : t.numbers[t.nameOf i]? = some j := h ▸ hnumber j (h ▸ hi)
  exact Option.some.inj ((hnumber i hi).symm.trans hj)

/-! ### The first characters -/

/-- The tag of the value that a text begins with. -/
def leadTag : List Char → Tag
  | '(' :: ')' :: _ => .nil
  | '(' :: _ => .pair
  | '#' :: '<' :: 'u' :: _ => .unspecified
  | '#' :: '<' :: _ => .procedure
  | '#' :: '\\' :: _ => .character
  | '#' :: '(' :: _ => .vector
  | '#' :: 'b' :: _ => .boolVector
  | '#' :: _ => .boolean
  | '"' :: _ => .string
  | c :: _ => if c.isAlpha then .symbol else .number
  | [] => .number

theorem leadTag_cons {c : Char} (hc : c ∉ ['(', '#', '"']) (cs : List Char) :
    leadTag (c :: cs) = if c.isAlpha then .symbol else .number := by
  unfold leadTag
  split <;> simp_all

/-- A text that may stand first in a list, and that tells the tag whatever follows. -/
structure Leads (x : List Char) (t : Tag) : Prop where
  opens : Opens x
  tag (s : List Char) : leadTag (x ++ s) = t

theorem Leads.of_mark {cs : List Char} {t : Tag} (h : ∀ s, leadTag ('#' :: cs ++ s) = t) :
    Leads ('#' :: cs) t :=
  ⟨⟨'#', cs, rfl, by decide, by decide⟩, h⟩

/-- The characters that say more than that a number or a name begins. -/
def marks : List Char := ['(', '#', '"', ')', '.']

theorem Leads.of_first {p : Char → Bool} {c : Char} (hmarks : marks.all (!p ·) = true)
    (hc : p c = true) (cs : List Char) :
    Leads (c :: cs) (if c.isAlpha then .symbol else .number) := by
  have hother : c ∉ marks := by
    intro hmem
    have hpc := List.all_eq_true.1 hmarks c hmem
    simp [hc] at hpc
  simp only [marks, List.mem_cons, List.not_mem_nil, or_false, not_or] at hother
  refine ⟨⟨c, cs, rfl, hother.2.2.2⟩, fun s => leadTag_cons ?_ _⟩
  simp [hother]

theorem leads_number {x : Double} (h : x.isNaN = false) : Leads x.text.toList .number := by
  obtain ⟨c, cs, hc, hfirst⟩ := Double.exists_text_eq_cons h
  have halpha : c.isAlpha = false := by
    rcases hfirst with hdigit | rfl | rfl
    · delta Char.isAlpha Char.isUpper Char.isLower
      simp only [Char.isDigit] at hdigit
      grind
    · decide
    · decide
  have hnumber : (c.isDigit || c ∈ ['-', '+']) = true := by simpa using hfirst
  have hleads := Leads.of_first (p := fun c => c.isDigit || c ∈ ['-', '+']) (by decide) hnumber cs
  rw [hc]
  simpa [halpha] using hleads

namespace Store

variable {st : Store}

/-- A value with a text of its own: a number is neither NaN nor a negative zero, and a symbol has
letters for a name. Contexts and objects of the host do not show in a text. -/
def PlainAt (st : Store) : Value → Prop
  | .number x => x.isNaN = false ∧ (Value.number x).isNegativeZero = false
  | .symbol id =>
    st.symbols.nameOf id ≠ "" ∧ (st.symbols.nameOf id).toList.all Char.isAlpha = true
  | .closure _ _ | .host _ => False
  | _ => True

instance (st : Store) : DecidablePred st.PlainAt
  | .number x => inferInstanceAs (Decidable (x.isNaN = false ∧ _))
  | .symbol id => inferInstanceAs (Decidable (st.symbols.nameOf id ≠ "" ∧ _))
  | .closure _ _ | .host _ => inferInstanceAs (Decidable False)
  | .nil | .unspecified | .boolean _ | .character _ | .builtin _ | .code _ | .pair _ | .vector _
  | .boolVector _ | .string _ => inferInstanceAs (Decidable True)

def PlainBelow (st : Store) (v : Value) : Prop := ∀ w, st.Reaches v w → st.PlainAt w

theorem PlainBelow.child {v w : Value} (h : st.PlainBelow v) (hw : w ∈ st.children v) :
    st.PlainBelow w :=
  fun u hu => h u (.head hw hu)

theorem PlainBelow.first {a : Address} (h : st.PlainBelow (.pair a)) :
    st.PlainBelow (st.parts a).1 :=
  h.child List.mem_cons_self

theorem PlainBelow.rest {a : Address} (h : st.PlainBelow (.pair a)) :
    st.PlainBelow (st.parts a).2 :=
  h.child (List.mem_cons_of_mem _ List.mem_cons_self)

/-- Without cycles, and plain all through. -/
structure Plain (st : Store) (v : Value) : Prop where
  acyclic : st.Acyclic v
  below : st.PlainBelow v

/-! ### Leading texts -/

theorem leads_symbol {id : Nat} (h : st.PlainAt (.symbol id)) :
    Leads (st.symbols.nameOf id).toList .symbol := by
  obtain ⟨hne, hletters⟩ := h
  cases hname : (st.symbols.nameOf id).toList with
  | nil => exact absurd (String.toList_eq_nil_iff.1 hname) hne
  | cons c cs =>
    have hletter : c.isAlpha = true :=
      List.all_eq_true.1 hletters c (hname ▸ List.mem_cons_self)
    have hleads := Leads.of_first (p := Char.isAlpha) (by decide) hletter cs
    simpa [hletter] using hleads

theorem leads_leaf {v : Value} (hpair : v.tag ≠ .pair) (hvector : v.tag ≠ .vector)
    (hv : st.PlainAt v) : Leads (st.leafText .write v).toList v.tag := by
  cases v with
  | pair a => exact absurd rfl hpair
  | vector a => exact absurd rfl hvector
  | closure id c => exact hv.elim
  | host a => exact hv.elim
  | nil =>
    show Leads "()".toList _
    exact ⟨⟨'(', _, rfl, by decide, by decide⟩, fun _ => rfl⟩
  | unspecified =>
    show Leads "#<unspecified>".toList _
    exact .of_mark fun _ => rfl
  | boolean b =>
    show Leads (boolText b).toList _
    cases b <;> exact .of_mark fun _ => rfl
  | number x => exact leads_number hv.1
  | character c =>
    show Leads (Literal.character c).toList _
    rw [Literal.toList_character]
    exact .of_mark fun _ => rfl
  | symbol id => exact leads_symbol hv
  | builtin b =>
    rw [toList_procedure rfl]
    exact .of_mark fun _ => rfl
  | code id =>
    rw [toList_procedure rfl]
    exact .of_mark fun _ => rfl
  | boolVector a =>
    rw [leafText, String.toList_append, String.toList_append]
    exact .of_mark fun _ => rfl
  | string a =>
    show Leads (Literal.string (st.text a)).toList _
    rw [Literal.string, String.toList_ofList]
    exact ⟨⟨'"', _, rfl, by decide, by decide⟩, fun _ => rfl⟩

theorem opens_of_spells {v : Value} {x : List Char} (hv : st.PlainAt v)
    (h : st.Spells .write [.value v] x) : Opens x := by
  by_cases hpair : v.tag = .pair
  · obtain ⟨a, rfl⟩ := exists_pair_of_tag hpair
    obtain ⟨y, z, rfl, -⟩ := spells_pair_iff.1 h
    exact ⟨'(', _, rfl, by decide, by decide⟩
  by_cases hvector : v.tag = .vector
  · obtain ⟨a, rfl⟩ := exists_vector_of_tag hvector
    obtain ⟨y, rfl, -⟩ := spells_vector_iff.1 h
    exact ⟨'#', _, rfl, by decide, by decide⟩
  rw [(spells_leaf_iff hpair hvector).1 h]
  exact (leads_leaf hpair hvector hv).opens

theorem leadTag_of_spells {v : Value} {x : List Char} (hv : st.PlainBelow v)
    (h : st.Spells .write [.value v] x) (s : List Char) : leadTag (x ++ s) = v.tag := by
  by_cases hpair : v.tag = .pair
  · obtain ⟨a, rfl⟩ := exists_pair_of_tag hpair
    obtain ⟨y, z, rfl, hy, -⟩ := spells_pair_iff.1 h
    obtain ⟨c, rest, rfl, hc, -⟩ := opens_of_spells (hv.first _ .refl) hy
    simp [leadTag, hc, Value.tag]
  by_cases hvector : v.tag = .vector
  · obtain ⟨a, rfl⟩ := exists_vector_of_tag hvector
    obtain ⟨y, rfl, -⟩ := spells_vector_iff.1 h
    rfl
  rw [(spells_leaf_iff hpair hvector).1 h]
  exact (leads_leaf hpair hvector (hv v .refl)).tag s

theorem tag_eq_of_spells {v w : Value} {x y s t : List Char} (hv : st.PlainBelow v)
    (hw : st.PlainBelow w) (hx : st.Spells .write [.value v] x)
    (hy : st.Spells .write [.value w] y) (h : x ++ s = y ++ t) : v.tag = w.tag := by
  rw [← leadTag_of_spells hv hx s, h, leadTag_of_spells hw hy t]

/-! ### Leaves -/

theorem alike_self {v : Value} (hv : v.isNaN = false) : st.Alike v v :=
  .same (by rw [Value.isEqv_self, hv]; rfl)

theorem context?_eq_none {v : Value} (h : st.PlainAt v) : v.context? = none := by
  cases v with
  | closure id c => exact h.elim
  | _ => rfl

theorem leaf_append_inj {v w : Value} {s t : List Char} (htag : v.tag = w.tag)
    (hpair : v.tag ≠ .pair) (hvector : v.tag ≠ .vector) (hv : st.PlainAt v) (hw : st.PlainAt w)
    (hs : Delimited s) (ht : Delimited t)
    (h : (st.leafText .write v).toList ++ s = (st.leafText .write w).toList ++ t) :
    st.Alike v w ∧ s = t := by
  cases v with
  | pair a => exact absurd rfl hpair
  | vector a => exact absurd rfl hvector
  | closure id c => exact hv.elim
  | host a => exact hv.elim
  | nil =>
    cases w <;> cases htag
    exact ⟨alike_self rfl, List.append_cancel_left h⟩
  | unspecified =>
    cases w <;> cases htag
    exact ⟨alike_self rfl, List.append_cancel_left h⟩
  | boolean b =>
    cases w <;> cases htag
    obtain ⟨rfl, hst⟩ := boolText_append_inj h
    exact ⟨alike_self rfl, hst⟩
  | number x =>
    cases w <;> cases htag
    obtain ⟨hxy, hst⟩ := (solid_number hv.1).append_inj (solid_number hw.1) hs ht h
    obtain rfl := Double.text_injOn hv.1 hw.1 (String.toList_inj.1 hxy)
    exact ⟨alike_self hv.1, hst⟩
  | character c =>
    cases w <;> cases htag
    obtain ⟨rfl, hst⟩ := Literal.character_append_inj hs ht h
    exact ⟨alike_self rfl, hst⟩
  | symbol id =>
    cases w <;> cases htag
    obtain ⟨hname, hst⟩ := (solid_of_isAlpha (List.all_eq_true.1 hv.2)).append_inj
      (solid_of_isAlpha (List.all_eq_true.1 hw.2)) hs ht h
    obtain rfl := SymbolTable.nameOf_injOn hv.1 (String.toList_inj.1 hname)
    exact ⟨alike_self rfl, hst⟩
  | builtin _ | code _ =>
    obtain ⟨rfl, hst⟩ := procedure_append_inj rfl htag.symm rfl (context?_eq_none hw) h
    exact ⟨alike_self rfl, hst⟩
  | boolVector a =>
    cases w <;> cases htag
    rename_i b
    simp only [leafText, String.toList_append, List.append_assoc, List.append_cancel_left_eq] at h
    simp only [← List.append_assoc] at h
    obtain ⟨hbits, hst⟩ := bits_append_inj h
    refine ⟨.inside rfl ?_ (by simp [children]), hst⟩
    rw [shell?, Array.toList_inj.1 hbits]
  | string a =>
    cases w <;> cases htag
    rename_i b
    simp only [leafText, Mode.string, Literal.string, String.toList_ofList] at h
    obtain ⟨htext, hst⟩ := Literal.quote_append_inj h
    refine ⟨.inside rfl ?_ (by simp [children]), hst⟩
    rw [shell?, String.toList_inj.1 htext]

/-! ### Pairs and vectors -/

def spells (st : Store) (v : Value) : List Char → Prop := st.Spells .write [.value v]

def spellsTail (st : Store) (v : Value) : List Char → Prop := st.Spells .write [.tail v]

theorem alike_pair {a b : Address} (hfirst : st.Alike (st.parts a).1 (st.parts b).1)
    (hrest : st.Alike (st.parts a).2 (st.parts b).2) : st.Alike (.pair a) (.pair b) := by
  refine .inside rfl rfl fun p hp => ?_
  simp only [children, List.zip_cons_cons, List.zip_nil_left, List.mem_cons, List.not_mem_nil,
    or_false] at hp
  rcases hp with rfl | rfl
  · exact hfirst
  · exact hrest

theorem alike_vector {a b : Address}
    (h : List.Forall₂ st.Alike (st.elements a).toList (st.elements b).toList) :
    st.Alike (.vector a) (.vector b) := by
  have hsize : (st.elements b).size = (st.elements a).size := by simpa using h.length_eq.symm
  refine .inside rfl ?_ fun p hp => List.forall₂_zip h hp
  rw [shell?, hsize]

/-- A list goes on with a space, unless it is over. -/
theorem delimited_tail {v : Value} {x : List Char} (h : st.spellsTail v x) (s : List Char) :
    Delimited (x ++ s) := by
  rcases spells_tail_cases h with ⟨-, rfl⟩ | ⟨a, y, z, -, rfl, -⟩ | ⟨-, y, rfl, -⟩
  · exact delimited_close s
  · exact delimited_space _
  · exact delimited_space _

theorem pair_append_inj {a b : Address} {x y x' y' s t : List Char}
    (hfirst : Told st.spells st.Alike (st.parts a).1 (st.parts b).1)
    (hrest : Told st.spellsTail st.Alike (st.parts a).2 (st.parts b).2)
    (hx : st.spells (st.parts a).1 x) (hy : st.spellsTail (st.parts a).2 y)
    (hx' : st.spells (st.parts b).1 x') (hy' : st.spellsTail (st.parts b).2 y')
    (hs : Delimited s) (ht : Delimited t) (h : x ++ y ++ s = x' ++ y' ++ t) :
    st.Alike (.pair a) (.pair b) ∧ s = t := by
  rw [List.append_assoc, List.append_assoc] at h
  obtain ⟨halike, h⟩ := hfirst _ _ _ _ hx hx' (delimited_tail hy s) (delimited_tail hy' t) h
  obtain ⟨halike', hst⟩ := hrest _ _ _ _ hy hy' hs ht h
  exact ⟨alike_pair halike halike', hst⟩

theorem tail_cases {v : Value} {x : List Char} (hv : st.PlainBelow v) (h : st.spellsTail v x) :
    v = .nil ∧ x = [')'] ∨
      (∃ a c y z, v = .pair a ∧ x = ' ' :: (c :: y ++ z) ∧ c ≠ '.' ∧
        st.spells (st.parts a).1 (c :: y) ∧ st.spellsTail (st.parts a).2 z) ∨
      ∃ y, x = ' ' :: '.' :: ' ' :: (y ++ [')']) ∧ st.spells v y := by
  rcases spells_tail_cases h with hover | ⟨a, y, z, rfl, rfl, hy, hz⟩ | ⟨-, hdotted⟩
  · exact .inl hover
  · obtain ⟨c, y, rfl, -, hc⟩ := opens_of_spells (hv.first _ .refl) hy
    exact .inr (.inl ⟨a, c, y, z, rfl, rfl, hc, hy, hz⟩)
  · exact .inr (.inr hdotted)

/-- What follows the first value of a list is told when the values in it are. -/
theorem told_tail {v w : Value} (hv : st.PlainBelow v) (hw : st.PlainBelow w)
    (hvalue : Told st.spells st.Alike v w)
    (hparts : ∀ a b, v = .pair a → w = .pair b →
      Told st.spells st.Alike (st.parts a).1 (st.parts b).1 ∧
        Told st.spellsTail st.Alike (st.parts a).2 (st.parts b).2) :
    Told st.spellsTail st.Alike v w := by
  intro x y s t hx hy hs ht h
  -- A list ends, goes on or has a dot on both sides, as the second character tells.
  rcases tail_cases hv hx with ⟨rfl, rfl⟩ | ⟨a, c, y₁, z₁, rfl, rfl, hc, hy₁, hz₁⟩ | ⟨y₁, rfl, hy₁⟩
  · rcases tail_cases hw hy with ⟨rfl, rfl⟩ | ⟨b, d, y₂, z₂, rfl, rfl, -⟩ | ⟨y₂, rfl, -⟩
    · injection h with _ h
      exact ⟨alike_self rfl, h⟩
    · simp at h
    · simp at h
  · rcases tail_cases hw hy with ⟨rfl, rfl⟩ | ⟨b, d, y₂, z₂, rfl, rfl, -, hy₂, hz₂⟩ | ⟨y₂, rfl, -⟩
    · simp at h
    · obtain ⟨hfirst, hrest⟩ := hparts a b rfl rfl
      injection h with _ h
      exact pair_append_inj hfirst hrest hy₁ hz₁ hy₂ hz₂ hs ht h
    · injection h with _ h
      injection h with h
      exact absurd h hc
  · rcases tail_cases hw hy with ⟨rfl, rfl⟩ | ⟨b, d, y₂, z₂, rfl, rfl, hd, -⟩ | ⟨y₂, rfl, hy₂⟩
    · simp at h
    · injection h with _ h
      injection h with h
      exact absurd h.symm hd
    · simp only [List.cons_append, List.append_assoc, List.cons.injEq, true_and] at h
      obtain ⟨halike, h⟩ := hvalue _ _ _ _ hy₁ hy₂ (delimited_close s) (delimited_close t) h
      injection h with _ h
      exact ⟨halike, h⟩

theorem told_pair {a b : Address} (hfirst : Told st.spells st.Alike (st.parts a).1 (st.parts b).1)
    (hrest : Told st.spellsTail st.Alike (st.parts a).2 (st.parts b).2) :
    Told st.spells st.Alike (.pair a) (.pair b) := by
  intro x y s t hx hy hs ht h
  obtain ⟨y₁, z₁, rfl, hy₁, hz₁⟩ := spells_pair_iff.1 hx
  obtain ⟨y₂, z₂, rfl, hy₂, hz₂⟩ := spells_pair_iff.1 hy
  injection h with _ h
  exact pair_append_inj hfirst hrest hy₁ hz₁ hy₂ hz₂ hs ht h

theorem told_vector {a b : Address} (hv : st.PlainBelow (.vector a))
    (hw : st.PlainBelow (.vector b))
    (h : ∀ v ∈ (st.elements a).toList, ∀ w ∈ (st.elements b).toList,
      Told st.spells st.Alike v w) : Told st.spells st.Alike (.vector a) (.vector b) := by
  intro x y s t hx hy _ _ heq
  obtain ⟨x, rfl, hrow⟩ := spells_vector_iff.1 hx
  obtain ⟨y, rfl, hrow'⟩ := spells_vector_iff.1 hy
  injection heq with _ heq
  injection heq with _ heq
  obtain ⟨hall, hst⟩ := hrow.append_inj hrow'
    (fun v hmem _ => opens_of_spells (hv.child hmem _ .refl))
    (fun w hmem _ => opens_of_spells (hw.child hmem _ .refl)) h heq
  exact ⟨alike_vector hall, hst⟩

/-- The text of a value, and what follows it, tell the value and where it ends. -/
theorem Acyclic.told {v : Value} (h : st.Acyclic v) {w : Value} (hv : st.PlainBelow v)
    (hw : st.PlainBelow w) :
    Told st.spells st.Alike v w ∧ Told st.spellsTail st.Alike v w := by
  induction h generalizing w with
  | intro v _ ih =>
    have hparts : ∀ a b, v = .pair a → w = .pair b →
        Told st.spells st.Alike (st.parts a).1 (st.parts b).1 ∧
          Told st.spellsTail st.Alike (st.parts a).2 (st.parts b).2 := by
      rintro a b rfl rfl
      exact ⟨(ih _ List.mem_cons_self hv.first hw.first).1,
        (ih _ (List.mem_cons_of_mem _ List.mem_cons_self) hv.rest hw.rest).2⟩
    have hvalue : Told st.spells st.Alike v w := by
      intro x y s t hx hy hs ht heq
      have htag : v.tag = w.tag := tag_eq_of_spells hv hw hx hy heq
      by_cases hpair : v.tag = .pair
      · obtain ⟨a, rfl⟩ := exists_pair_of_tag hpair
        obtain ⟨b, rfl⟩ := exists_pair_of_tag (htag ▸ hpair)
        obtain ⟨hfirst, hrest⟩ := hparts a b rfl rfl
        exact told_pair hfirst hrest x y s t hx hy hs ht heq
      by_cases hvector : v.tag = .vector
      · obtain ⟨a, rfl⟩ := exists_vector_of_tag hvector
        obtain ⟨b, rfl⟩ := exists_vector_of_tag (htag ▸ hvector)
        have helements : ∀ v ∈ (st.elements a).toList, ∀ w ∈ (st.elements b).toList,
            Told st.spells st.Alike v w :=
          fun v hv' w hw' => (ih v hv' (hv.child hv') (hw.child hw')).1
        exact told_vector hv hw helements x y s t hx hy hs ht heq
      rw [(spells_leaf_iff hpair hvector).1 hx,
        (spells_leaf_iff (htag ▸ hpair) (htag ▸ hvector)).1 hy] at heq
      exact leaf_append_inj htag hpair hvector (hv v .refl) (hw w .refl) hs ht heq
    exact ⟨hvalue, told_tail hv hw hvalue hparts⟩

/-! ### Whole texts -/

theorem PlainBelow.noNegativeZero {v : Value} (h : st.PlainBelow v) : st.NoNegativeZero v := by
  intro w hw
  have hat : st.PlainAt w := h w hw
  cases w with
  | number x => exact hat.2
  | _ => rfl

/-- Plain values have written forms, which are the same exactly when the values are. -/
theorem write_tells_isEqual {v w : Value} (hv : st.Plain v) (hw : st.Plain w) :
    ∃ s t, (st.write v).Returns s ∧ (st.write w).Returns t ∧
      (st.isEqual v w).Returns (s == t) := by
  obtain ⟨s, hs⟩ := hv.acyclic.exists_returns_print .write
  obtain ⟨t, ht⟩ := hw.acyclic.exists_returns_print .write
  obtain ⟨b, hb⟩ := hv.acyclic.exists_returns_isEqual w
  refine ⟨s, t, hs, ht, ?_⟩
  have hiff : b = true ↔ s = t := by
    constructor
    · rintro rfl
      have halike : st.Alike v w := isEqual_returns_true_iff.1 hb
      have hprint := halike.print_eq hv.below.noNegativeZero hw.below.noNegativeZero .write
      exact (hprint ▸ hs).unique ht
    · rintro rfl
      have htold := (hv.acyclic.told hv.below hw.below).1
      obtain ⟨halike, -⟩ := htold _ _ [] [] (returns_print_iff.1 hs) (returns_print_iff.1 ht)
        delimited_nil delimited_nil rfl
      exact hb.unique halike.returns
  have hbst : b = (s == t) := by
    rw [Bool.eq_iff_iff, hiff, beq_iff_eq]
  exact hbst ▸ hb

/-- Two lists with a dot, each with a vector and a string of its own. -/
def dottedLists : Store :=
  ⟨#[.string "a)", .boolVector #[true],
    .vector #[.symbol 0, .number ⟨0x4000000000000000⟩, .boolVector 1],
    .pair (.character ')') (.string 0), .pair (.vector 2) (.pair 3),
    .string "a)", .boolVector #[true],
    .vector #[.symbol 0, .number ⟨0x4000000000000000⟩, .boolVector 6],
    .pair (.character ')') (.string 5), .pair (.vector 7) (.pair 8)],
    SymbolTable.empty.push "lambda" (by simp [SymbolTable.empty])⟩

/-- The cells of one list with what they hold. -/
def dottedLists.below (k : Nat) : List Value :=
  [.pair (k + 4), .pair (k + 3), .vector (k + 2), .boolVector (k + 1), .string k, .symbol 0,
    .number ⟨0x4000000000000000⟩, .character ')']

theorem dottedLists.plain : dottedLists.Plain (.pair 4) ∧ dottedLists.Plain (.pair 9) := by
  have hplain : ∀ k ∈ [0, 5], dottedLists.Plain (.pair (k + 4)) := by
    intro k hk
    have hends : ∀ k ∈ [0, 5], ((dottedLists.hashInput (.pair (k + 4))).within 9).isSome := by
      decide
    have hclosed : ∀ k ∈ [0, 5], ∀ u ∈ below k, ∀ w ∈ dottedLists.children u, w ∈ below k := by
      decide
    have hat : ∀ k ∈ [0, 5], ∀ u ∈ below k, dottedLists.PlainAt u := by decide
    obtain ⟨items, hitems⟩ := Option.isSome_iff_exists.1 (hends k hk)
    refine ⟨acyclic_of_returns_hashInput ⟨9, hitems⟩, fun w hw => ?_⟩
    exact hat k hk w (mem_of_reaches (hclosed k hk) List.mem_cons_self hw)
  exact ⟨hplain 0 (by decide), hplain 5 (by decide)⟩

theorem write_tells_isEqual_dottedLists :
    dottedLists.Plain (.pair 4) ∧ dottedLists.Plain (.pair 9) ∧
      ∃ s, (dottedLists.write (.pair 4)).Returns s ∧ (dottedLists.write (.pair 9)).Returns s := by
  obtain ⟨hv, hw⟩ := dottedLists.plain
  have hequal : (dottedLists.isEqual (.pair 4) (.pair 9)).Returns true := ⟨9, by decide⟩
  obtain ⟨s, t, hs, ht, hst⟩ := write_tells_isEqual hv hw
  obtain rfl : s = t := beq_iff_eq.1 (hst.unique hequal)
  exact ⟨hv, hw, s, hs, ht⟩

end Store

end Sameness
