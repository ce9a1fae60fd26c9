import Mathlib.Data.List.Forall2
import Sameness.Proofs.NumberText
import Sameness.Proofs.Spelling

/-!
Where the parts of a text end.

A token goes on up to a space or a parenthesis, and the quoted ones are told by what is in them. So
a token can be taken off the front of a text, and all that is left is what stood behind it.
-/

namespace Sameness

/-- The text is over, or a space or a parenthesis comes next. -/
def Delimited (cs : List Char) : Prop := ∀ c ∈ cs.head?, c = ' ' ∨ c = ')'

theorem delimited_nil : Delimited [] := by simp [Delimited]

theorem delimited_space (cs : List Char) : Delimited (' ' :: cs) := by simp [Delimited]

theorem delimited_close (cs : List Char) : Delimited (')' :: cs) := by simp [Delimited]

/-- Where a character of one kind ends a text, that text is all up to it. -/
theorem append_inj_of_stop {p : Char → Prop} {a b s t : List Char} (ha : ∀ c ∈ a, ¬p c)
    (hb : ∀ c ∈ b, ¬p c) (hs : ∀ c ∈ s.head?, p c) (ht : ∀ c ∈ t.head?, p c)
    (h : a ++ s = b ++ t) : a = b ∧ s = t := by
  induction a generalizing b with
  | nil =>
    cases b with
    | nil => exact ⟨rfl, h⟩
    | cons c b =>
      obtain rfl : s = c :: (b ++ t) := h
      exact absurd (hs c rfl) (hb c List.mem_cons_self)
  | cons c a ih =>
    cases b with
    | nil =>
      obtain rfl : c :: (a ++ s) = t := h
      exact absurd (ht c rfl) (ha c List.mem_cons_self)
    | cons d b =>
      injection h with hcd h
      obtain ⟨hab, hst⟩ := ih (fun e he => ha e (List.mem_cons_of_mem c he))
        (fun e he => hb e (List.mem_cons_of_mem d he)) h
      exact ⟨by rw [hcd, hab], hst⟩

/-- No character of it ends a token. -/
def Solid (cs : List Char) : Prop := ∀ c ∈ cs, ¬(c = ' ' ∨ c = ')')

theorem Solid.append_inj {a b s t : List Char} (ha : Solid a) (hb : Solid b) (hs : Delimited s)
    (ht : Delimited t) (h : a ++ s = b ++ t) : a = b ∧ s = t :=
  append_inj_of_stop ha hb hs ht h

theorem solid_of_isAlpha {cs : List Char} (h : ∀ c ∈ cs, c.isAlpha = true) : Solid cs := by
  rintro c hc (rfl | rfl)
  · exact absurd (h _ hc) (by decide)
  · exact absurd (h _ hc) (by decide)

theorem solid_number {x : Double} (h : x.isNaN = false) : Solid x.text.toList := by
  rintro c hc (rfl | rfl)
  · exact absurd (Double.mem_text h hc) (by decide)
  · exact absurd (Double.mem_text h hc) (by decide)

/-! ### Literals -/

namespace Literal

theorem readBody_escape (c : Char) (cs : List Char) :
    readBody (escape c ++ cs) = readBody.keep c (readBody cs) := by
  unfold escape
  split <;> simp_all [readBody]

/-- The quote that closes a string is the first that no backslash stands in front of. -/
theorem read_quote (cs rest : List Char) : read (quote cs ++ rest) = some (cs, rest) := by
  have hbody : readBody (cs.flatMap escape ++ '"' :: rest) = some (cs, rest) := by
    induction cs with
    | nil => simp [readBody]
    | cons c cs ih => simp [readBody_escape, ih, readBody.keep]
  simpa [quote, read] using hbody

theorem quote_append_inj {cs ds s t : List Char} (h : quote cs ++ s = quote ds ++ t) :
    cs = ds ∧ s = t := by
  have hread : some (cs, s) = some (ds, t) := by rw [← read_quote, h, read_quote]
  simpa using hread

theorem ne_of_mem_escape {c d : Char} (h : d ∈ escape c) : d ≠ '\n' ∧ d ≠ '\t' ∧ d ≠ '\r' := by
  unfold escape at h
  split at h
  case h_6 => simp_all
  all_goals
    simp only [List.mem_cons, List.not_mem_nil, or_false] at h
    rcases h with rfl | rfl <;> decide

/-- All that would break a line or be lost in it is escaped. -/
theorem ne_of_mem_string {s : String} {c : Char} (h : c ∈ (string s).toList) :
    c ≠ '\n' ∧ c ≠ '\t' ∧ c ≠ '\r' := by
  simp only [string, String.toList_ofList, quote, List.mem_cons, List.mem_append, List.mem_flatMap,
    List.not_mem_nil, or_false] at h
  rcases h with rfl | ⟨d, -, hd⟩ | rfl
  · decide
  · exact ne_of_mem_escape hd
  · decide

/-- What stands for a character behind the backslash. -/
def named (c : Char) : List Char := (character c).toList.drop 2

theorem toList_character (c : Char) : (character c).toList = '#' :: '\\' :: named c := by
  unfold named character
  split
  case h_6 => simp
  all_goals rfl

/-- The character that a name stands for. -/
def ofNamed : List Char → Char
  | [c] => c
  | ['n', 'e', 'w', 'l', 'i', 'n', 'e'] => '\n'
  | ['t', 'a', 'b'] => '\t'
  | ['r', 'e', 't', 'u', 'r', 'n'] => '\r'
  | ['n', 'u', 'l', 'l'] => '\x00'
  | _ => ' '

theorem ofNamed_named (c : Char) : ofNamed (named c) = c := by
  unfold named character
  split
  case h_6 =>
    have hone : ("#\\" ++ c.toString).toList.drop 2 = [c] := by simp
    rw [hone]
    rfl
  all_goals rfl

/-- Any character may come first, a parenthesis as well, but only letters after it. -/
theorem exists_named_eq_cons (c : Char) : ∃ d cs, named c = d :: cs ∧ Solid cs := by
  unfold named character
  split
  case h_6 => exact ⟨c, [], by simp, by simp [Solid]⟩
  all_goals exact ⟨_, _, rfl, solid_of_isAlpha (List.all_eq_true.1 (by decide))⟩

theorem character_append_inj {c d : Char} {s t : List Char} (hs : Delimited s) (ht : Delimited t)
    (h : (character c).toList ++ s = (character d).toList ++ t) : c = d ∧ s = t := by
  obtain ⟨c₀, cs, hc, hcs⟩ := exists_named_eq_cons c
  obtain ⟨d₀, ds, hd, hds⟩ := exists_named_eq_cons d
  rw [toList_character, toList_character, hc, hd] at h
  injection h with _ h
  injection h with _ h
  injection h with hhead h
  obtain ⟨htail, hst⟩ := hcs.append_inj hds hs ht h
  refine ⟨?_, hst⟩
  rw [← ofNamed_named c, ← ofNamed_named d, hc, hd, hhead, htail]

end Literal

/-! ### Procedures -/

/-- What a procedure is told by: the name of a builtin, or the number of its code. -/
def Value.procedureName : Value → List Char
  | builtin b => b.name.toList
  | code id | closure id _ => '#' :: (toString id.toNat).toList
  | _ => []

theorem toList_toString_nat (n : Nat) : (toString n).toList = Nat.toDigits 10 n := by
  rw [Nat.toString_eq_ofList_toDigits, String.toList_ofList]

theorem Store.toList_procedure {st : Store} {m : Mode} {v : Value} (h : v.tag = .procedure) :
    (st.leafText m v).toList = "#<procedure ".toList ++ (v.procedureName ++ ">".toList) := by
  have happend : ∀ a b c : String, (a ++ b ++ c).toList = a.toList ++ (b.toList ++ c.toList) := by
    intro a b c
    rw [String.toList_append, String.toList_append, List.append_assoc]
  have hcode : ∀ id, (codeText id).toList =
      "#<procedure ".toList ++ ('#' :: (toString id.toNat).toList ++ ">".toList) := by
    intro id
    have hnumber : "#<procedure #".toList = "#<procedure ".toList ++ ['#'] := rfl
    calc (codeText id).toList
        = "#<procedure #".toList ++ ((toString id.toNat).toList ++ ">".toList) := happend _ _ _
      _ = "#<procedure ".toList ++ ['#'] ++ ((toString id.toNat).toList ++ ">".toList) :=
        congrArg (· ++ _) hnumber
      _ = _ := List.append_assoc _ _ _
  cases v with
  | builtin b => exact happend "#<procedure " b.name ">"
  | code id => exact hcode id
  | closure id c => exact hcode id
  | _ => cases h

namespace Builtin

/-- Neither does a name end early, nor could it be a number. -/
theorem name_plain (b : Builtin) : '>' ∉ b.name.toList ∧ b.name.toList.head? ≠ some '#' := by
  have hall : ∀ b ∈ all, '>' ∉ b.name.toList ∧ b.name.toList.head? ≠ some '#' := by decide
  exact hall b (mem_all b)

theorem name_injective : Function.Injective name := by
  have hall : ∀ b ∈ all, ∀ c ∈ all, b.name = c.name → b = c := by decide
  exact fun b c => hall b (mem_all b) c (mem_all c)

end Builtin

namespace Value

theorem closing_notMem_procedureName (v : Value) : '>' ∉ v.procedureName := by
  have hnumber : ∀ id : UInt64, '>' ∉ '#' :: (toString id.toNat).toList := by
    intro id h
    rcases List.mem_cons.1 h with h | h
    · exact absurd h (by decide)
    · rw [toList_toString_nat] at h
      exact absurd (Nat.isDigit_of_mem_toDigits (by decide) (by decide) h) (by decide)
  cases v with
  | builtin b => exact b.name_plain.1
  | code id => exact hnumber id
  | closure id c => exact hnumber id
  | _ => exact List.not_mem_nil

theorem eq_of_procedureName {v w : Value} (hv : v.tag = .procedure) (hw : w.tag = .procedure)
    (hvc : v.context? = none) (hwc : w.context? = none)
    (h : v.procedureName = w.procedureName) : v = w := by
  have hdiffer : ∀ (b : Builtin) (id : UInt64),
      (builtin b).procedureName ≠ (code id).procedureName :=
    fun b id hname => b.name_plain.2 (congrArg List.head? hname)
  cases v with
  | builtin b =>
    cases w with
    | builtin c => rw [Builtin.name_injective (String.toList_inj.1 h)]
    | code j => exact absurd h (hdiffer b j)
    | closure j d => cases hwc
    | _ => cases hw
  | code i =>
    cases w with
    | builtin c => exact absurd h.symm (hdiffer c i)
    | code j =>
      injection h with _ h
      rw [toList_toString_nat, toList_toString_nat] at h
      have hij : i.toNat = j.toNat := by
        rw [← Nat.ofDigitChars_ten_toDigits (n := i.toNat), h, Nat.ofDigitChars_ten_toDigits]
      rw [UInt64.toNat.inj hij]
    | closure j d => cases hwc
    | _ => cases hw
  | closure i c => cases hvc
  | _ => cases hv

end Value

theorem Store.procedure_append_inj {st : Store} {m : Mode} {v w : Value} {s t : List Char}
    (hv : v.tag = .procedure) (hw : w.tag = .procedure) (hvc : v.context? = none)
    (hwc : w.context? = none)
    (h : (st.leafText m v).toList ++ s = (st.leafText m w).toList ++ t) : v = w ∧ s = t := by
  rw [toList_procedure hv, toList_procedure hw, List.append_assoc, List.append_assoc,
    List.append_assoc, List.append_assoc] at h
  have hfree : ∀ u : Value, ∀ c ∈ u.procedureName, ¬c = '>' := by
    rintro u c hc rfl
    exact u.closing_notMem_procedureName hc
  have hclosing : ∀ r : List Char, ∀ c ∈ (">".toList ++ r).head?, c = '>' := by simp
  obtain ⟨hname, hst⟩ := append_inj_of_stop (hfree v) (hfree w) (hclosing s) (hclosing t)
    (List.append_cancel_left h)
  exact ⟨Value.eq_of_procedureName hv hw hvc hwc hname, List.append_cancel_left hst⟩

/-! ### Rows -/

/-- No parenthesis closes it and no dot stands for it. -/
def Opens (cs : List Char) : Prop := ∃ c rest, cs = c :: rest ∧ c ≠ ')' ∧ c ≠ '.'

section Rows

variable {α : Type} {item : α → List Char → Prop} {R : α → α → Prop} {vs ws : List α}
  {x y s t : List Char}

/-- Where texts of `v` and `w` are followed by what ends a token, the same characters in all say
that the two stand in the relation `R`, and where their texts end. -/
def Told (item : α → List Char → Prop) (R : α → α → Prop) (v w : α) : Prop :=
  ∀ x y s t, item v x → item w y → Delimited s → Delimited t → x ++ s = y ++ t → R v w ∧ s = t

theorem RowRest.delimited (h : RowRest item vs x) (s : List Char) : Delimited (x ++ s) := by
  cases h with
  | nil => exact delimited_close s
  | cons _ _ => exact delimited_space _

/-- One item more, in front of rests that tell what comes after it. -/
theorem Told.cons_append_inj {v w : α} {x' y' : List Char} (htold : Told item R v w)
    (hx : item v x) (hy : item w y) (hrow : RowRest item vs x') (hrow' : RowRest item ws y')
    (hrest : x' ++ s = y' ++ t → List.Forall₂ R vs ws ∧ s = t) (h : x ++ x' ++ s = y ++ y' ++ t) :
    List.Forall₂ R (v :: vs) (w :: ws) ∧ s = t := by
  rw [List.append_assoc, List.append_assoc] at h
  obtain ⟨hvw, h⟩ := htold _ _ _ _ hx hy (hrow.delimited s) (hrow'.delimited t) h
  obtain ⟨hall, hst⟩ := hrest h
  exact ⟨.cons hvw hall, hst⟩

theorem RowRest.append_inj (hv : RowRest item vs x) (hw : RowRest item ws y)
    (htold : ∀ v ∈ vs, ∀ w ∈ ws, Told item R v w) (h : x ++ s = y ++ t) :
    List.Forall₂ R vs ws ∧ s = t := by
  induction hv generalizing ws y with
  | nil =>
    cases hw with
    | nil =>
      injection h with _ h
      exact ⟨.nil, h⟩
    | cons _ _ => simp at h
  | @cons v vs _ _ hx hrow ih =>
    cases hw with
    | nil => simp at h
    | @cons w ws _ _ hy hrow' =>
      injection h with _ h
      refine (htold v List.mem_cons_self w List.mem_cons_self).cons_append_inj hx hy hrow hrow'
        (ih hrow' fun v hv w hw => ?_) h
      exact htold v (List.mem_cons_of_mem _ hv) w (List.mem_cons_of_mem _ hw)

/-- What is told item by item is told in a row. -/
theorem Row.append_inj (hv : Row item vs x) (hw : Row item ws y)
    (hvs : ∀ v ∈ vs, ∀ x, item v x → Opens x) (hws : ∀ w ∈ ws, ∀ y, item w y → Opens y)
    (htold : ∀ v ∈ vs, ∀ w ∈ ws, Told item R v w) (h : x ++ s = y ++ t) :
    List.Forall₂ R vs ws ∧ s = t := by
  cases hv with
  | nil =>
    cases hw with
    | nil =>
      injection h with _ h
      exact ⟨.nil, h⟩
    | @cons w ws _ _ hy _ =>
      obtain ⟨c, rest, rfl, hc, -⟩ := hws w List.mem_cons_self _ hy
      injection h with h
      exact absurd h.symm hc
  | @cons v vs _ _ hx hrow =>
    cases hw with
    | nil =>
      obtain ⟨c, rest, rfl, hc, -⟩ := hvs v List.mem_cons_self _ hx
      injection h with h
      exact absurd h hc
    | @cons w ws _ _ hy hrow' =>
      refine (htold v List.mem_cons_self w List.mem_cons_self).cons_append_inj hx hy hrow hrow'
        (hrow.append_inj hrow' fun v hv w hw => ?_) h
      exact htold v (List.mem_cons_of_mem _ hv) w (List.mem_cons_of_mem _ hw)

end Rows

/-! ### Bool vectors -/

theorem boolText_append_inj {b c : Bool} {s t : List Char}
    (h : (boolText b).toList ++ s = (boolText c).toList ++ t) : b = c ∧ s = t := by
  cases b <;> cases c <;> simp_all [boolText]

theorem row_bits (bits : List Bool) :
    Row (fun b x => x = (boolText b).toList) bits
      ((" ".intercalate (bits.map boolText)).toList ++ [')']) := by
  have hrest : ∀ (b : Bool) (bits : List Bool), ∃ y,
      (" ".intercalate ((b :: bits).map boolText)).toList ++ [')'] = (boolText b).toList ++ y ∧
        RowRest (fun b x => x = (boolText b).toList) bits y := by
    intro b bits
    induction bits generalizing b with
    | nil => exact ⟨[')'], by simp, .nil⟩
    | cons c bits ih =>
      obtain ⟨y, hy, hrow⟩ := ih c
      refine ⟨' ' :: ((boolText c).toList ++ y), ?_, .cons rfl hrow⟩
      rw [← hy]
      simp [String.intercalate_cons_cons]
  cases bits with
  | nil => exact .nil
  | cons b bits =>
    obtain ⟨y, hy, hrow⟩ := hrest b bits
    rw [hy]
    exact .cons rfl hrow

theorem bits_append_inj {bits bits' : List Bool} {s t : List Char}
    (h : (" ".intercalate (bits.map boolText)).toList ++ [')'] ++ s =
      (" ".intercalate (bits'.map boolText)).toList ++ [')'] ++ t) : bits = bits' ∧ s = t := by
  have hopens : ∀ (b : Bool) (x : List Char), x = (boolText b).toList → Opens x := by
    rintro b x rfl
    cases b <;> exact ⟨'#', _, rfl, by decide, by decide⟩
  have htold : ∀ b c, Told (fun (b : Bool) x => x = (boolText b).toList) Eq b c := by
    rintro b c x y s t rfl rfl - - h
    exact boolText_append_inj h
  obtain ⟨hall, hst⟩ := (row_bits bits).append_inj (row_bits bits') (fun b _ => hopens b)
    (fun b _ => hopens b) (fun b _ c _ => htold b c) h
  exact ⟨List.forall₂_eq_eq_eq ▸ hall, hst⟩

end Sameness
