import Sameness.Proofs.Tokens

/-!
Quoted strings.

A string is read back from its quoted form whatever follows it. A backslash stands in front of every
quote inside, and in front of every backslash, so that none of them can be taken for another's.
-/

namespace Sameness

namespace Literal

/-- Reads a quoted string off the front of a text. -/
def decode (text : String) : Option (String × String) :=
  (read text.toList).map fun (s, rest) => (String.ofList s, String.ofList rest)

theorem decode_string_append (s rest : String) : decode (string s ++ rest) = some (s, rest) := by
  simp [decode, string, read_quote]

/-! ### Bare quotes -/

/-- Whether a text ends in a backslash that no other escapes, so that it escapes what comes next. -/
def escapes (before : List Char) : Bool :=
  before.foldl (fun pending c => c == '\\' && !pending) false

theorem escapes_append_of_not {a b : List Char} (h : escapes a = false) :
    escapes (a ++ b) = escapes b := by
  rw [escapes, escapes, List.foldl_append]
  rw [escapes] at h
  rw [h]

theorem escape_cases (c : Char) :
    (c ≠ '"' ∧ c ≠ '\\' ∧ escape c = [c]) ∨ ∃ d, escape c = ['\\', d] := by
  unfold escape
  split
  case h_6 hquote hbackslash _ _ _ => exact .inl ⟨hquote, hbackslash, rfl⟩
  all_goals exact .inr ⟨_, rfl⟩

theorem escapes_escape (c : Char) : escapes (escape c) = false := by
  rcases escape_cases c with ⟨-, hc, heq⟩ | ⟨d, heq⟩
  · simp [heq, escapes, hc]
  · simp [heq, escapes]

theorem escapes_flatMap_escape (cs : List Char) : escapes (cs.flatMap escape) = false := by
  induction cs with
  | nil => rfl
  | cons c cs ih => rw [List.flatMap_cons, escapes_append_of_not (escapes_escape c), ih]

theorem eq_backslash_of_escape {c : Char} {before after : List Char}
    (h : escape c = before ++ '"' :: after) : before = ['\\'] := by
  rcases escape_cases c with ⟨hc, -, heq⟩ | ⟨d, heq⟩
  · obtain ⟨-, hquote, -⟩ : before = [] ∧ '"' = c ∧ after = [] := by
      simpa [heq, List.singleton_eq_append_iff] using h
    exact absurd hquote.symm hc
  · rw [heq] at h
    cases before with
    | nil => cases h
    | cons e before =>
      obtain ⟨rfl, rfl, -⟩ : '\\' = e ∧ before = [] ∧ '"' = d ∧ after = [] := by
        simpa [List.singleton_eq_append_iff] using h
      rfl

/-- Every quote inside is escaped. -/
theorem escapes_of_quote_inside {cs before after : List Char}
    (h : cs.flatMap escape = before ++ '"' :: after) : escapes before = true := by
  induction cs generalizing before with
  | nil => simp at h
  | cons c cs ih =>
    rw [List.flatMap_cons, List.append_eq_append_iff] at h
    rcases h with ⟨behind, rfl, hrest⟩ | ⟨begun, hescape, hrest⟩
    · rw [escapes_append_of_not (escapes_escape c)]
      exact ih hrest
    · cases begun with
      | nil =>
        -- Nothing would stand between the text of `c` and the quote, not even a backslash.
        have hnone : escapes [] = true := ih hrest.symm
        cases hnone
      | cons d begun =>
        injection hrest with hd _
        subst hd
        rw [eq_backslash_of_escape hescape]
        rfl

theorem escapes_eq_false_iff {cs before after : List Char} (h : quote cs = before ++ '"' :: after) :
    escapes before = false ↔ before = [] ∨ after = [] := by
  cases before with
  | nil => simp [escapes]
  | cons c before =>
    rw [quote, List.cons_append, List.cons.injEq] at h
    obtain ⟨rfl, h⟩ := h
    have hbefore : escapes ('"' :: before) = escapes before := rfl
    rw [hbefore]
    rcases List.eq_nil_or_concat after with rfl | ⟨after, c, rfl⟩
    · obtain rfl := List.append_cancel_right h
      simp [escapes_flatMap_escape]
    · rw [List.concat_eq_append, ← List.cons_append, ← List.append_assoc] at h
      obtain ⟨hinside, -⟩ := List.append_inj' h rfl
      simp [escapes_of_quote_inside hinside]

/-! ### The law -/

/-- What quoting does to a string. -/
structure QuotingLaw : Prop where
  decode_append (s rest : String) : decode (string s ++ rest) = some (s, rest)
  append_inj {s t rest rest' : String} : string s ++ rest = string t ++ rest' → s = t ∧ rest = rest'
  visible {s : String} {c : Char} : c ∈ (string s).toList → c ≠ '\n' ∧ c ≠ '\t' ∧ c ≠ '\r'
  enclosed (s : String) : ∃ body, (string s).toList = '"' :: (body ++ ['"'])
  /-- Only the first quote and the last are bare. -/
  bare_iff {s : String} {before after : List Char} :
    (string s).toList = before ++ '"' :: after → (escapes before = false ↔ before = [] ∨ after = [])
  written (st : Store) (a : Address) : (st.write (.string a)).Returns (string (st.text a))

/-- A quoted string can be told from whatever follows it, and is told in one way only. -/
theorem quotingLaw : QuotingLaw where
  decode_append := decode_string_append
  append_inj {s t rest rest'} h := by
    have hdecode : some (s, rest) = some (t, rest') := by
      rw [← decode_string_append, h, decode_string_append]
    simpa using hdecode
  visible := ne_of_mem_string
  enclosed s := ⟨s.toList.flatMap escape, by rw [string, String.toList_ofList, quote]⟩
  bare_iff {s before after} h := by
    rw [string, String.toList_ofList] at h
    exact escapes_eq_false_iff h
  written _ _ := Store.returns_write_leaf (by simp [Value.tag]) (by simp [Value.tag])

end Literal

end Sameness
