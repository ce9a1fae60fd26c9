import Sameness.Proofs.Cycles
import Sameness.Proofs.PrintedAlike
import Sameness.Proofs.Shortcut

/-!
Deep copies.

A copy is made of new cells all the way down. Hashing and printing cannot tell it from what it is a
copy of, and comparing can only where NaN stands; but the two are never one and the same.
-/

namespace Sameness

namespace Store

/-! ### Copying -/

/-- Copies one value after the other. -/
def copyEach (copy : Value → Store → Option (Value × Store)) :
    List Value → Store → Option (List Value × Store)
  | [], st => some ([], st)
  | v :: vs, st => do
    let (c, st) ← copy v st
    let (cs, st) ← copyEach copy vs st
    return (c :: cs, st)

/-- The copy, if nothing stands deeper than `depth`. -/
def copyWithin (depth : Nat) (v : Value) (st : Store) : Option (Value × Store) :=
  match depth, v with
  | 0, _ => none
  | depth + 1, .pair a => do
    let (first, rest) := st.parts a
    let (first, st) ← copyWithin depth first st
    let (rest, st) ← copyWithin depth rest st
    return (cons first rest).run st
  | depth + 1, .vector a => do
    let (elements, st) ← copyEach (copyWithin depth) (st.elements a).toList st
    return (vector elements.toArray).run st
  | _ + 1, .boolVector a => some ((boolVector (st.bits a)).run st)
  | _ + 1, .string a => some ((string (st.text a)).run st)
  | _ + 1, v => some (v, st)

end Store

/-- The cell with that shell and these values in it. -/
def Shell.cell : Shell → List Value → Cell
  | pair, first :: rest :: _ => .pair first rest
  | pair, _ => .pair .nil .nil
  | vector _, vs => .vector vs.toArray
  | boolVector bits, _ => .boolVector bits
  | string text, _ => .string text

/-- The value that is the address of such a cell. -/
def Shell.value : Shell → Address → Value
  | pair, a => .pair a
  | vector _, a => .vector a
  | boolVector _, a => .boolVector a
  | string _, a => .string a

namespace Store

variable {st st' st'' : Store} {v w c : Value} {vs : List Value} {s : Shell} {m n : Nat}

theorem copyEach_two {copy : Value → Store → Option (Value × Store)} :
    copyEach copy [v, w] st = (copy v st).bind fun r =>
      (copy w r.2).bind fun r' => some ([r.1, r'.1], r'.2) := by
  cases hv : copy v st with
  | none => simp [copyEach, hv]
  | some r => cases hw : copy w r.2 <;> simp [copyEach, hv, hw]

theorem copyWithin_of_atom (h : st.shell? v = none) (n : Nat) :
    copyWithin (n + 1) v st = some (v, st) := by
  cases v with
  | pair | vector | boolVector | string => cases h
  | _ => rfl

/-- First what stands below is copied, then the new cell is made. -/
theorem copyWithin_of_shell? (h : st.shell? v = some s) (n : Nat) :
    copyWithin (n + 1) v st = (copyEach (copyWithin n) (st.children v) st).bind fun r =>
      some (s.value r.2.cells.size, r.2.push (s.cell r.1)) := by
  cases v with
  | pair a =>
    cases h
    rw [children, copyEach_two]
    cases hfirst : copyWithin n (st.parts a).1 st with
    | none => simp [copyWithin, hfirst]
    | some r =>
      cases hrest : copyWithin n (st.parts a).2 r.2 with
      | none => simp [copyWithin, hfirst, hrest]
      | some r' =>
        simp only [copyWithin, hfirst, hrest, Option.bind_eq_bind, Option.bind_some]
        rfl
  | vector a => cases h; rfl
  | boolVector a => cases h; rfl
  | string a => cases h; rfl
  | _ => cases h

theorem copyEach_mono {copy copy' : Value → Store → Option (Value × Store)}
    {r : List Value × Store} (hcopy : ∀ v st r, copy v st = some r → copy' v st = some r)
    (h : copyEach copy vs st = some r) : copyEach copy' vs st = some r := by
  induction vs generalizing st r with
  | nil => exact h
  | cons v vs ih =>
    simp only [copyEach, Option.bind_eq_bind, Option.bind_eq_some_iff] at h ⊢
    obtain ⟨c, hc, cs, hcs, hr⟩ := h
    exact ⟨c, hcopy _ _ _ hc, cs, ih hcs, hr⟩

theorem copyWithin_mono {r : Value × Store} (hmn : m ≤ n) (h : copyWithin m v st = some r) :
    copyWithin n v st = some r := by
  induction m generalizing v st r n with
  | zero => cases h
  | succ m ih =>
    obtain ⟨n, rfl⟩ : ∃ k, n = k + 1 := ⟨n - 1, by omega⟩
    cases hs : st.shell? v with
    | none =>
      rw [copyWithin_of_atom hs] at h ⊢
      exact h
    | some s =>
      rw [copyWithin_of_shell? hs, Option.bind_eq_some_iff] at h ⊢
      obtain ⟨cs, hcs, hr⟩ := h
      exact ⟨cs, copyEach_mono (fun _ _ _ => ih (by omega)) hcs, hr⟩

/-- Makes a new cell in every place where a pair, a vector or a string stands. All else is kept. -/
def deepCopy (st : Store) (v : Value) : Run (Value × Store) where
  within n := copyWithin n v st
  within_mono := copyWithin_mono

/-! ### More cells -/

/-- What was there is still there. -/
structure Extends (st st' : Store) : Prop where
  cells : st.cells.toList <+: st'.cells.toList
  symbols : st'.symbols = st.symbols

theorem Extends.refl (st : Store) : st.Extends st := ⟨List.prefix_rfl, rfl⟩

theorem Extends.trans (h : st.Extends st') (h' : st'.Extends st'') : st.Extends st'' :=
  ⟨h.cells.trans h'.cells, h'.symbols.trans h.symbols⟩

theorem extends_push (st : Store) (c : Cell) : st.Extends (st.push c) :=
  ⟨by simp [push], rfl⟩

theorem Extends.size_le (h : st.Extends st') : st.cells.size ≤ st'.cells.size := by
  simpa using h.cells.length_le

theorem Extends.agreeAt (h : st.Extends st') (hv : ∀ a ∈ v.cell?, a < st.cells.size) :
    st.AgreeAt st' v := by
  intro a ha
  have hlt : a < st.cells.toList.length := by simpa using hv a ha
  obtain ⟨later, hlater⟩ := h.cells
  rw [← Array.getElem?_toList, ← Array.getElem?_toList, ← hlater, List.getElem?_append_left hlt]

/-- All cells below the value are in the store, as they are unless an address was made up. -/
def Stored (st : Store) (v : Value) : Prop :=
  ∀ w, st.Reaches v w → ∀ a ∈ w.cell?, a < st.cells.size

theorem Stored.child (h : st.Stored v) (hw : w ∈ st.children v) : st.Stored w :=
  fun u hu => h u (.head hw hu)

theorem Founded.stored (h : st.Founded) (hv : ∀ a ∈ v.cell?, a < st.cells.size) : st.Stored v := by
  intro w hw
  induction hw with
  | refl => exact hv
  | tail _ hchild ih =>
    intro b hb
    rcases mem_values_of_mem_children hchild with rfl | ⟨a, c, ha, hc, hmem⟩
    · cases hb
    · obtain ⟨hlt, rfl⟩ := Array.getElem?_eq_some_iff.1 hc
      exact (h a hlt _ hmem b hb).trans hlt

theorem Extends.agreeBelow (h : st.Extends st') (hv : st.Stored v) : st.AgreeBelow st' v :=
  fun w a hw ha => h.agreeAt (hv w hw) a ha

theorem AgreeBelow.noNaN_iff (h : st.AgreeBelow st' v) : st'.NoNaN v ↔ st.NoNaN v :=
  forall_congr' fun w => by rw [h.reaches_iff]

/-! ### The new cell -/

theorem shell?_push (hlength : vs.length = s.arity) :
    (st.push (s.cell vs)).shell? (s.value st.cells.size) = some s := by
  cases s with
  | vector size =>
    have hsize : vs.length = size := hlength
    simp [Shell.value, Shell.cell, push, shell?, elements, hsize]
  | _ => simp [Shell.value, Shell.cell, push, shell?, bits, text]

theorem children_push (hlength : vs.length = s.arity) :
    (st.push (s.cell vs)).children (s.value st.cells.size) = vs := by
  cases s with
  | pair =>
    obtain ⟨first, rest, rfl⟩ := List.length_eq_two.1 hlength
    simp [Shell.value, Shell.cell, push, children, parts]
  | vector size => simp [Shell.value, Shell.cell, push, children, elements]
  | boolVector bits => exact (List.length_eq_zero_iff.1 hlength).symm
  | string text => exact (List.length_eq_zero_iff.1 hlength).symm

theorem cell?_value (s : Shell) (a : Address) : (s.value a).cell? = some a := by
  cases s <;> rfl

/-! ### Copies -/

/-- The second value is made of cells from `n` on, down to the atoms, and the first of cells before
them. -/
inductive Copied (st : Store) (n : Nat) : Value → Value → Prop
  | atom {v : Value} (hv : st.shell? v = none) : Copied st n v v
  | inside {v c : Value} {s : Shell} (hv : st.shell? v = some s) (hc : st.shell? c = some s)
    (hold : ∀ a ∈ v.cell?, a < n) (hnew : ∀ a ∈ c.cell?, n ≤ a ∧ a < st.cells.size)
    (h : ∀ p ∈ (st.children v).zip (st.children c), Copied st n p.1 p.2) : Copied st n v c

theorem Copied.extends (h : st.Copied n v c) (hext : st.Extends st') (hn : n ≤ st.cells.size) :
    st'.Copied n v c := by
  induction h with
  | @atom v hv =>
    have hsome : (st'.shell? v).isSome = (st.shell? v).isSome := by cases v <;> rfl
    exact .atom (by simpa [hv] using hsome)
  | @inside v c s hv hc hold hnew _ ih =>
    have hatv : st.AgreeAt st' v := hext.agreeAt fun a ha => (hold a ha).trans_le hn
    have hatc : st.AgreeAt st' c := hext.agreeAt fun a ha => (hnew a ha).2
    refine .inside (hatv.shell?_eq.trans hv) (hatc.shell?_eq.trans hc) hold
      (fun a ha => ⟨(hnew a ha).1, (hnew a ha).2.trans_le hext.size_le⟩) ?_
    rw [hatv.children_eq, hatc.children_eq]
    exact ih

/-- Whatever copies were made before, the value can be copied. -/
def Copyable (st : Store) (v : Value) : Prop :=
  ∀ st₁, st.Extends st₁ → ∃ k c st₂, copyWithin k v st₁ = some (c, st₂) ∧ st₁.Extends st₂ ∧
    st₂.Copied st.cells.size v c

theorem exists_copyEach {st₁ : Store} (hvs : ∀ v ∈ vs, st.Copyable v) (hext : st.Extends st₁) :
    ∃ k cs st₂, copyEach (copyWithin k) vs st₁ = some (cs, st₂) ∧ st₁.Extends st₂ ∧
      List.Forall₂ (st₂.Copied st.cells.size) vs cs := by
  induction vs generalizing st₁ with
  | nil => exact ⟨0, [], st₁, rfl, .refl st₁, .nil⟩
  | cons v vs ih =>
    obtain ⟨j, c, st₂, hc, hext₂, hcopied⟩ := hvs v List.mem_cons_self st₁ hext
    obtain ⟨k, cs, st₃, hcs, hext₃, hall⟩ :=
      ih (fun w hw => hvs w (List.mem_cons_of_mem v hw)) (hext.trans hext₂)
    refine ⟨max j k, c :: cs, st₃, ?_, hext₂.trans hext₃,
      .cons (hcopied.extends hext₃ (hext.trans hext₂).size_le) hall⟩
    have hfirst : copyWithin (max j k) v st₁ = some (c, st₂) :=
      copyWithin_mono (Nat.le_max_left j k) hc
    have hothers : copyEach (copyWithin (max j k)) vs st₂ = some (cs, st₃) :=
      copyEach_mono (fun _ _ _ => copyWithin_mono (Nat.le_max_right j k)) hcs
    simp [copyEach, hfirst, hothers]

/-- Copying goes down as far as the value does. -/
theorem Acyclic.copyable (hv : st.Acyclic v) (hstored : st.Stored v) : st.Copyable v := by
  induction hv with
  | intro v _ ih =>
    intro st₁ hext
    have hat : st.AgreeAt st₁ v := hext.agreeAt (hstored v .refl)
    cases hs : st.shell? v with
    | none =>
      have hs₁ : st₁.shell? v = none := hat.shell?_eq.trans hs
      exact ⟨1, v, st₁, copyWithin_of_atom hs₁ 0, .refl st₁, .atom hs₁⟩
    | some s =>
      have hs₁ : st₁.shell? v = some s := hat.shell?_eq.trans hs
      obtain ⟨k, cs, st₂, hcs, hext₂, hall⟩ :=
        exists_copyEach (fun w hw => ih w hw (hstored.child hw)) hext
      have hlength : cs.length = s.arity := hall.length_eq.symm.trans (length_children hs)
      have hpush : st₂.Extends (st₂.push (s.cell cs)) := extends_push st₂ (s.cell cs)
      have hgrown : st.cells.size ≤ st₂.cells.size := (hext.trans hext₂).size_le
      have hat₃ : st.AgreeAt (st₂.push (s.cell cs)) v :=
        ((hext.trans hext₂).trans hpush).agreeAt (hstored v .refl)
      refine ⟨k + 1, s.value st₂.cells.size, st₂.push (s.cell cs), ?_, hext₂.trans hpush,
        .inside (hat₃.shell?_eq.trans hs) (shell?_push hlength) (hstored v .refl) ?_ ?_⟩
      · rw [copyWithin_of_shell? hs₁, hat.children_eq, hcs]
        rfl
      · intro a ha
        rw [cell?_value] at ha
        cases ha
        exact ⟨hgrown, by simp [push]⟩
      · rw [hat₃.children_eq, children_push hlength]
        exact fun p hp => (List.forall₂_zip hall hp).extends hpush hgrown

/-! ### What a copy has in common -/

theorem Copied.replica (h : st.Copied n v c) : st.Replica v c := by
  induction h with
  | atom => exact .same _
  | inside hv hc _ _ _ ih => exact .inside hv hc ih

theorem Copied.sameShape (h : st.Copied n v c) : st.SameShape v c := by
  induction h with
  | atom hv => exact .atom hv hv (.refl _)
  | inside hv hc _ _ _ ih => exact .inside hv hc ih

theorem replica_shellWise (st : Store) : st.ShellWise st.Replica where
  refl := .same
  eq_or h := by
    cases h with
    | same => exact .inl rfl
    | @inside v w s hv hw h =>
      exact .inr ⟨s, hv, hw, forall₂_children (hv.trans hw.symm) h⟩

/-! ### What a copy has of its own -/

theorem Copied.corresponds {p q : Value × Value} (h : st.Copied n p.1 p.2)
    (hq : st.Corresponds p q) : st.Copied n q.1 q.2 := by
  induction hq with
  | refl => exact h
  | @tail q r _ hchild ih =>
    obtain ⟨v, c⟩ := q
    cases ih with
    | atom hv =>
      rw [children_eq_nil hv] at hchild
      cases hchild
    | inside _ _ _ _ hbelow => exact hbelow r hchild

theorem exists_cell? (h : st.shell? v = some s) : ∃ a, v.cell? = some a := by
  cases v with
  | pair a | vector a | boolVector a | string a => exact ⟨a, rfl⟩
  | _ => cases h

theorem Copied.ne (h : st.Copied n v c) (hv : st.shell? v = some s) : v ≠ c := by
  cases h with
  | atom hv' => cases hv'.symm.trans hv
  | inside _ _ hold hnew _ =>
    rintro rfl
    obtain ⟨a, ha⟩ := exists_cell? hv
    exact absurd (hold a ha) (hnew a ha).1.not_gt

theorem exists_shell? (st : Store) (h : v.tag ∈ [.pair, .vector, .boolVector, .string]) :
    ∃ s, st.shell? v = some s := by
  cases v <;> simp [Value.tag, shell?] at h ⊢

/-- No cell is shared, so that comparing a value with its copy is comparing plainly. -/
theorem Copied.alike_iff (h : st.Copied n v c) (hv : st.Acyclic v) :
    st.Alike v c ↔ st.NoNaN v := by
  rw [← h.replica.plainAlike_iff hv]
  refine ⟨fun halike => ?_, alike_of_plain⟩
  by_contra hne
  obtain ⟨u, x, hplace, htag, -⟩ := halike.exists_shared hv hne
  have hshell : u.tag ∈ [.pair, .vector, .boolVector, .string] := by
    rcases htag with h | h <;> simp [h]
  obtain ⟨s, hs⟩ := exists_shell? st hshell
  exact (h.corresponds hplace).ne hs rfl

/-- A copy of a value without cycles comes to an end. It is the same as the value exactly when there
is no NaN in it; the two always hash and print in the same way; and where there is a new cell they
are not identical. -/
theorem deepCopy_tells_nan (hv : st.Acyclic v) (hstored : st.Stored v) :
    ∃ c st', (st.deepCopy v).Returns (c, st') ∧ st.Extends st' ∧
      st'.Copied st.cells.size v c ∧
      (∃ equal, (st'.isEqual v c).Returns equal ∧ (equal = true ↔ st.NoNaN v)) ∧
      (∃ items, (st'.hashInput v).Returns items ∧ (st'.hashInput c).Returns items) ∧
      (∀ m, ∃ text, (st'.print m v).Returns text ∧ (st'.print m c).Returns text) ∧
      (v.tag ∈ [.pair, .vector, .boolVector, .string] → v.isEq c = false ∧ v.isEqv c = false) := by
  obtain ⟨k, c, st', hrun, hext, hcopied⟩ := hv.copyable hstored st (.refl st)
  have hagree : st.AgreeBelow st' v := hext.agreeBelow hstored
  have hv' : st'.Acyclic v := hv.of_agreeBelow hagree
  obtain ⟨equal, hequal⟩ := hv'.exists_returns_isEqual c
  obtain ⟨items, hitems⟩ := hv'.exists_returns_hashInput
  refine ⟨c, st', ⟨k, hrun⟩, hext, hcopied, ⟨equal, hequal, ?_⟩,
    ⟨items, hitems, hcopied.sameShape.hashInput_eq ▸ hitems⟩, fun m => ?_, fun htag => ?_⟩
  · rw [← hagree.noNaN_iff, ← hcopied.alike_iff hv', ← isEqual_returns_true_iff]
    exact ⟨fun h => h ▸ hequal, hequal.unique⟩
  · obtain ⟨text, htext⟩ := hv'.exists_returns_print m
    exact ⟨text, htext, print_congr (replica_shellWise st') hcopied.replica m ▸ htext⟩
  · obtain ⟨s, hs⟩ := exists_shell? st' htag
    have hne : v ≠ c := hcopied.ne hs
    have heq : v.isEq c = false := by simp [Value.isEq_eq, hne]
    have heqv : v.isEqv c = false := by
      rw [Bool.eq_false_iff, Ne, Value.isEqv_iff]
      rintro (⟨hvc, -⟩ | ⟨hzero, -⟩)
      · exact hne hvc
      · cases (shell?_of_isZero hzero).symm.trans hs
    exact ⟨heq, heqv⟩

/-- A list that holds one string twice, in a vector with NaN that holds the list twice. -/
def sharedList : Store :=
  ⟨#[.string "a", .pair (.string 0) .nil, .pair (.string 0) (.pair 1),
    .vector #[.pair 2, .number ⟨0x7ff8000000000000⟩, .pair 2]], .empty⟩

theorem deepCopy_tells_nan_sharedList :
    sharedList.Acyclic (.vector 3) ∧ sharedList.Stored (.vector 3) ∧
      ∃ c st', (sharedList.deepCopy (.vector 3)).Returns (c, st') ∧
        (st'.isEqual (.vector 3) c).Returns false ∧
        ∃ items, (st'.hashInput (.vector 3)).Returns items ∧ (st'.hashInput c).Returns items := by
  have hfounded : sharedList.Founded := by decide
  have hacyclic : sharedList.Acyclic (.vector 3) := hfounded.acyclic _
  have hstored : sharedList.Stored (.vector 3) := hfounded.stored (by decide)
  have hnan : ¬sharedList.NoNaN (.vector 3) := by
    intro h
    have hnumber : Value.number ⟨0x7ff8000000000000⟩ ∈ sharedList.children (.vector 3) := by decide
    exact absurd (h _ (.single hnumber)) (by decide)
  obtain ⟨c, st', hcopy, -, -, ⟨equal, hequal, hiff⟩, hhash, -⟩ :=
    deepCopy_tells_nan hacyclic hstored
  obtain rfl : equal = false := by simpa [hnan] using hiff
  exact ⟨hacyclic, hstored, c, st', hcopy, hequal, hhash⟩

end Store

end Sameness
