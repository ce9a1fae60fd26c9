import Sameness.Proofs.HashShape

/-!
Comparing without asking which cell is which.

`isEqual` takes a cell for the same as itself and never looks into it. A plain comparison looks into
everything. Without cycles the two give the same verdict, unless NaN stands in a cell that both
sides have in the same place.
-/

namespace Sameness

namespace Run

variable {α : Type} {step : α → Option (List α)} {x : α}

theorem passes_iff_of_some {below : List α} (h : step x = some below) :
    Passes step x ↔ ∀ y ∈ below, Passes step y := by
  refine ⟨fun hx => ?_, .intro h⟩
  cases hx with
  | intro hstep hbelow =>
    cases h.symm.trans hstep
    exact hbelow

theorem not_passes_of_none (h : step x = none) : ¬Passes step x := by
  rintro ⟨hstep, -⟩
  cases h.symm.trans hstep

end Run

/-! ### Lists side by side -/

theorem forall_fst_zip {xs ys : List Value} {P : Value → Prop} (h : xs.length = ys.length) :
    (∀ p ∈ xs.zip ys, P p.1) ↔ ∀ x ∈ xs, P x := by
  calc (∀ p ∈ xs.zip ys, P p.1) ↔ ∀ x ∈ (xs.zip ys).map Prod.fst, P x := List.forall_mem_map.symm
    _ ↔ ∀ x ∈ xs, P x := by rw [List.map_fst_zip (Nat.le_of_eq h)]

theorem eq_of_mem_zip_self {xs : List Value} {p : Value × Value} (hp : p ∈ xs.zip xs) :
    p.1 = p.2 :=
  List.forall₂_zip (List.forall₂_same.2 fun x _ => Eq.refl x) hp

namespace Store

variable {st : Store} {v w : Value} {s : Shell}

/-! ### The plain comparison -/

/-- One step of a comparison that does not ask whether two cells are the same. -/
def plainStep (st : Store) : Value → Value → Option (List (Value × Value))
  | .pair a, .pair b =>
    some [((st.parts a).1, (st.parts b).1), ((st.parts a).2, (st.parts b).2)]
  | .vector a, .vector b =>
    if (st.elements a).size = (st.elements b).size then
      some ((st.elements a).toList.zip (st.elements b).toList)
    else none
  | .boolVector a, .boolVector b => if st.bits a = st.bits b then some [] else none
  | .string a, .string b => if st.text a = st.text b then some [] else none
  | v, w => if v.isEqv w then some [] else none

def plainEqual (st : Store) (v w : Value) : Run Bool := compareBy st.plainStep v w

/-- The plain comparison comes through. -/
def PlainAlike (st : Store) (v w : Value) : Prop :=
  Run.Passes (fun p => st.plainStep p.1 p.2) (v, w)

/-- A plain step goes on below two equal shells, whatever the cells. -/
theorem plainStep_eq (st : Store) (v w : Value) :
    st.plainStep v w =
      if (st.shell? v).isSome ∧ st.shell? v = st.shell? w then
        some ((st.children v).zip (st.children w))
      else if v.isEqv w then some []
      else none := by
  unfold plainStep
  split
  case h_1 a b => simp [shell?, children]
  case h_2 a b =>
    by_cases hab : a = b <;> by_cases hsize : (st.elements a).size = (st.elements b).size <;>
      simp_all [shell?, children, Value.isEqv, Value.isEq_eq]
  case h_3 a b =>
    by_cases hab : a = b <;> by_cases hbits : st.bits a = st.bits b <;>
      simp_all [shell?, children, Value.isEqv, Value.isEq_eq]
  case h_4 a b =>
    by_cases hab : a = b <;> by_cases htext : st.text a = st.text b <;>
      simp_all [shell?, children, Value.isEqv, Value.isEq_eq]
  case h_5 hpair hvector hbits hstring =>
    rw [if_neg (not_sameShell hpair hvector hbits hstring)]

theorem plainAlike_of_some {found : List (Value × Value)} (h : st.plainStep v w = some found) :
    st.PlainAlike v w ↔ ∀ p ∈ found, st.PlainAlike p.1 p.2 :=
  Run.passes_iff_of_some h

theorem not_plainAlike_of_none (h : st.plainStep v w = none) : ¬st.PlainAlike v w :=
  Run.not_passes_of_none h

theorem plainAlike_of_shell? (hv : st.shell? v = some s) (hw : st.shell? w = some s) :
    st.PlainAlike v w ↔ ∀ p ∈ (st.children v).zip (st.children w), st.PlainAlike p.1 p.2 := by
  apply plainAlike_of_some
  rw [plainStep_eq, if_pos ⟨by rw [hv]; rfl, hv.trans hw.symm⟩]

theorem plainAlike_of_atom (hv : st.shell? v = none) : st.PlainAlike v w ↔ v.isEqv w = true := by
  have hstep : st.plainStep v w = if v.isEqv w then some [] else none := by
    rw [plainStep_eq, hv, if_neg (by simp)]
  cases hvw : v.isEqv w with
  | true =>
    rw [hvw] at hstep
    simp [plainAlike_of_some hstep]
  | false =>
    rw [hvw] at hstep
    simp [not_plainAlike_of_none hstep]

/-- What is alike plainly is alike. -/
theorem alike_of_plain {p : Value × Value} (h : Run.Passes (fun p => st.plainStep p.1 p.2) p) :
    st.Alike p.1 p.2 := by
  induction h with
  | @intro p found hstep _ ih =>
    rw [plainStep_eq] at hstep
    split at hstep
    · rename_i hshell
      obtain ⟨s, hs⟩ := Option.isSome_iff_exists.1 hshell.1
      cases hstep
      exact .inside hs (hshell.2 ▸ hs) ih
    · split at hstep
      · rename_i heqv
        exact .same heqv
      · cases hstep

theorem Acyclic.exists_returns_plainEqual (h : st.Acyclic v) (w : Value) :
    ∃ b, (st.plainEqual v w).Returns b := by
  refine exists_returns_compareBy st.children ?_ h w
  intro v w found hstep p hp
  rw [plainStep_eq] at hstep
  split at hstep
  · cases hstep
    exact (List.of_mem_zip hp).1
  · split at hstep
    · cases hstep
      cases hp
    · cases hstep

/-! ### Replicas -/

/-- No number that is NaN stands in the value. -/
def NoNaN (st : Store) (v : Value) : Prop := ∀ w, st.Reaches v w → w.isNaN = false

theorem noNaN_iff : st.NoNaN v ↔ v.isNaN = false ∧ ∀ u ∈ st.children v, st.NoNaN u := by
  constructor
  · intro h
    exact ⟨h v .refl, fun u hu w hw => h w (.head hu hw)⟩
  · rintro ⟨hv, hbelow⟩ w hw
    rcases Relation.ReflTransGen.cases_head hw with rfl | ⟨u, hu, huw⟩
    · exact hv
    · exact hbelow u hu w huw

/-- The same, but for the cells that the parts are in. -/
inductive Replica (st : Store) : Value → Value → Prop
  | same (v : Value) : Replica st v v
  | inside {v w : Value} {s : Shell} (hv : st.shell? v = some s) (hw : st.shell? w = some s)
    (h : ∀ p ∈ (st.children v).zip (st.children w), Replica st p.1 p.2) : Replica st v w

theorem Replica.of_shell? (h : st.Replica v w) (hv : st.shell? v = some s) :
    st.shell? w = some s ∧ ∀ p ∈ (st.children v).zip (st.children w), st.Replica p.1 p.2 := by
  cases h with
  | same => exact ⟨hv, fun p hp => eq_of_mem_zip_self hp ▸ .same p.1⟩
  | inside hv' hw h =>
    cases hv.symm.trans hv'
    exact ⟨hw, h⟩

theorem Replica.eq_of_atom (h : st.Replica v w) (hv : st.shell? v = none) : v = w := by
  cases h with
  | same => rfl
  | inside hv' => cases hv.symm.trans hv'

/-- NaN is all that a plain comparison can find between a value and a replica of it. -/
theorem Replica.plainAlike_iff (h : st.Replica v w) (hv : st.Acyclic v) :
    st.PlainAlike v w ↔ st.NoNaN v := by
  induction hv generalizing w with
  | intro v _ ih =>
    rw [noNaN_iff]
    cases hs : st.shell? v with
    | none =>
      obtain rfl := h.eq_of_atom hs
      rw [plainAlike_of_atom hs, children_eq_nil hs, Value.isEqv_self]
      simp
    | some s =>
      obtain ⟨hw, hbelow⟩ := h.of_shell? hs
      have hlength : (st.children v).length = (st.children w).length :=
        length_children_congr (hs.trans hw.symm)
      have hnumber : v.isNaN = false := by
        cases v with
        | number x => cases hs
        | _ => rfl
      have hall : ∀ p ∈ (st.children v).zip (st.children w),
          (st.PlainAlike p.1 p.2 ↔ st.NoNaN p.1) :=
        fun p hp => ih p.1 (List.of_mem_zip hp).1 (hbelow p hp)
      rw [plainAlike_of_shell? hs hw, forall₂_congr hall, forall_fst_zip hlength]
      simp [hnumber]

/-! ### The difference -/

theorem tag_of_mem_children (h : w ∈ st.children v) : v.tag = .pair ∨ v.tag = .vector := by
  cases v with
  | pair a => exact .inl rfl
  | vector a => exact .inr rfl
  | _ => cases h

/-- Where two alike values are not plainly so, a cell stands in the same place on both sides, with
NaN in it. -/
theorem Alike.exists_shared (h : st.Alike v w) (hv : st.Acyclic v) (hne : ¬st.PlainAlike v w) :
    ∃ u x, st.Corresponds (v, w) (u, u) ∧ (u.tag = .pair ∨ u.tag = .vector) ∧
      st.Reaches u (.number x) ∧ x.isNaN = true := by
  induction h with
  | @same v w heqv =>
    cases hs : st.shell? v with
    | none => exact absurd ((plainAlike_of_atom hs).2 heqv) hne
    | some s =>
      rcases Value.isEqv_iff.1 heqv with ⟨rfl, hnumber⟩ | ⟨hz, -⟩
      · rw [(Replica.same v).plainAlike_iff hv] at hne
        simp only [NoNaN, not_forall, Bool.not_eq_false] at hne
        obtain ⟨u, hu, hnan⟩ := hne
        obtain ⟨x, rfl⟩ : ∃ x, u = .number x := by
          cases u with
          | number x => exact ⟨x, rfl⟩
          | _ => cases hnan
        refine ⟨v, x, .refl, ?_, hu, hnan⟩
        rcases Relation.ReflTransGen.cases_head hu with rfl | ⟨c, hc, -⟩
        · cases hs
        · exact tag_of_mem_children hc
      · cases (shell?_of_isZero hz).symm.trans hs
  | @inside v w s hsv hsw _ ih =>
    rw [plainAlike_of_shell? hsv hsw] at hne
    push Not at hne
    obtain ⟨p, hp, hpne⟩ := hne
    obtain ⟨u, x, hplace, hrest⟩ := ih p hp (hv.inv (List.of_mem_zip hp).1) hpne
    exact ⟨u, x, .head hp hplace, hrest⟩

theorem Corresponds.reaches_left {p q : Value × Value} (h : st.Corresponds p q) :
    st.Reaches p.1 q.1 := by
  induction h with
  | refl => exact .refl
  | tail _ hq ih => exact ih.tail (List.of_mem_zip hq).1

/-- Without cycles both comparisons come to an end. What is plainly the same is the same; and if
something is the same, but not plainly so, there is a pair or a vector in the same place on both
sides, the same cell, that NaN stands in. Without NaN the two verdicts are one. -/
theorem shortcut_only_hides_nan (hv : st.Acyclic v) :
    ∃ equal plain, (st.isEqual v w).Returns equal ∧ (st.plainEqual v w).Returns plain ∧
      (plain = true → equal = true) ∧
      (equal = true → plain = false → ∃ u x, st.Corresponds (v, w) (u, u) ∧
        (u.tag = .pair ∨ u.tag = .vector) ∧ st.Reaches u (.number x) ∧ x.isNaN = true) ∧
      (st.NoNaN v → equal = plain) := by
  obtain ⟨equal, hequal⟩ := hv.exists_returns_isEqual w
  obtain ⟨plain, hplain⟩ := hv.exists_returns_plainEqual w
  have hequal_iff : equal = true ↔ st.Alike v w := by
    rw [← isEqual_returns_true_iff]
    exact ⟨fun h => h ▸ hequal, hequal.unique⟩
  have hplain_iff : plain = true ↔ st.PlainAlike v w := by
    rw [PlainAlike, ← compareBy_returns_true_iff]
    exact ⟨fun h => h ▸ hplain, hplain.unique⟩
  have hsound : plain = true → equal = true :=
    fun h => hequal_iff.2 (alike_of_plain (hplain_iff.1 h))
  have hshared : equal = true → plain = false → _ := fun h hne =>
    (hequal_iff.1 h).exists_shared hv (by rw [← hplain_iff, hne]; simp)
  refine ⟨equal, plain, hequal, hplain, hsound, hshared, fun hnan => ?_⟩
  cases hp : plain with
  | true => exact hsound hp
  | false =>
    cases he : equal with
    | false => rfl
    | true =>
      obtain ⟨u, x, hplace, -, hx, hxnan⟩ := hshared he hp
      have hnone : x.isNaN = false := hnan (.number x) (hplace.reaches_left.trans hx)
      rw [hxnan] at hnone
      cases hnone

/-- Two vectors that share a pair with NaN in it. -/
def sharedNaN : Store :=
  ⟨#[.pair (.number ⟨0x7ff8000000000000⟩) .nil, .vector #[.boolean true, .pair 0],
    .vector #[.boolean true, .pair 0]], .empty⟩

theorem shortcut_only_hides_nan_sharedNaN :
    sharedNaN.Acyclic (.vector 1) ∧ (sharedNaN.isEqual (.vector 1) (.vector 2)).Returns true ∧
      (sharedNaN.plainEqual (.vector 1) (.vector 2)).Returns false ∧
      ∃ u x, sharedNaN.Corresponds (.vector 1, .vector 2) (u, u) ∧
        (u.tag = .pair ∨ u.tag = .vector) ∧ sharedNaN.Reaches u (.number x) ∧ x.isNaN = true := by
  have hacyclic : sharedNaN.Acyclic (.vector 1) :=
    acyclic_of_returns_hashInput ⟨5, rfl⟩
  have hequal : (sharedNaN.isEqual (.vector 1) (.vector 2)).Returns true := ⟨4, by decide⟩
  have hplain : (sharedNaN.plainEqual (.vector 1) (.vector 2)).Returns false := ⟨4, by decide⟩
  obtain ⟨equal, plain, he, hp, -, hshared, -⟩ := shortcut_only_hides_nan hacyclic
  exact ⟨hacyclic, hequal, hplain, hshared (he.unique hequal) (hp.unique hplain)⟩

end Store

end Sameness
