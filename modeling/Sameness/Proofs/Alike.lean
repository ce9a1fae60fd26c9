import Mathlib.Data.List.Zip
import Sameness.Proofs.Comparison
import Sameness.Proofs.Identity

/-!
What `isEqual` finds out, apart from how it goes about it.

A comparison sees a composite value in two parts: its shell, and the values in it. Two values are
`Alike` when finitely many comparisons of shells and atoms say so, and that is when `isEqual`
answers true.
-/

namespace Sameness

/-- What a pair, a vector or a string shows of itself, without the values in it. -/
inductive Shell where
  | pair
  | vector (size : Nat)
  | boolVector (bits : Array Bool)
  | string (text : String)
  deriving DecidableEq

/-- The number of values in it. -/
def Shell.arity : Shell → Nat
  | pair => 2
  | vector n => n
  | boolVector _ | string _ => 0

namespace Store

variable {st : Store}

def shell? (st : Store) : Value → Option Shell
  | .pair _ => some .pair
  | .vector a => some (.vector (st.elements a).size)
  | .boolVector a => some (.boolVector (st.bits a))
  | .string a => some (.string (st.text a))
  | _ => none

theorem length_children {v : Value} {s : Shell} (h : st.shell? v = some s) :
    (st.children v).length = s.arity := by
  cases v <;> cases h <;> simp [children, Shell.arity]

theorem children_eq_nil {v : Value} (h : st.shell? v = none) : st.children v = [] := by
  cases v with
  | pair | vector => cases h
  | _ => rfl

theorem length_children_congr {v w : Value} (h : st.shell? v = st.shell? w) :
    (st.children v).length = (st.children w).length := by
  cases hv : st.shell? v with
  | none => rw [children_eq_nil hv, children_eq_nil (h ▸ hv)]
  | some s => rw [length_children hv, length_children (h ▸ hv)]

/-- Below equal shells the values stand in pairs. -/
theorem forall₂_children {R : Value → Value → Prop} {v w : Value} (h : st.shell? v = st.shell? w)
    (hall : ∀ p ∈ (st.children v).zip (st.children w), R p.1 p.2) :
    List.Forall₂ R (st.children v) (st.children w) :=
  List.forall₂_iff_zip.2 ⟨length_children_congr h, fun hp => hall _ hp⟩

theorem shell?_of_isZero {v : Value} (h : v.isZero = true) : st.shell? v = none := by
  cases v with
  | number x => rfl
  | _ => cases h

/-- With equal shells two values would be of one kind, and of one that has a shell. -/
theorem not_sameShell {v w : Value} (hpair : ∀ a b, v = .pair a → w = .pair b → False)
    (hvector : ∀ a b, v = .vector a → w = .vector b → False)
    (hbits : ∀ a b, v = .boolVector a → w = .boolVector b → False)
    (hstring : ∀ a b, v = .string a → w = .string b → False) :
    ¬((st.shell? v).isSome ∧ st.shell? v = st.shell? w) := by
  intro h
  obtain ⟨hv, hvw⟩ := h
  cases v with
  | pair a =>
    cases w with
    | pair b => exact hpair a b rfl rfl
    | _ => cases hvw
  | vector a =>
    cases w with
    | vector b => exact hvector a b rfl rfl
    | _ => cases hvw
  | boolVector a =>
    cases w with
    | boolVector b => exact hbits a b rfl rfl
    | _ => cases hvw
  | string a =>
    cases w with
    | string b => exact hstring a b rfl rfl
    | _ => cases hvw
  | _ => cases hv

/-! ### One step of a comparison -/

/-- All that a step can do: it is content with the same value, goes on below two equal shells, and
fails otherwise. -/
theorem equalStep_eq (st : Store) (v w : Value) :
    st.equalStep v w =
      if v.isEqv w then some []
      else if (st.shell? v).isSome ∧ st.shell? v = st.shell? w then
        some ((st.children v).zip (st.children w))
      else none := by
  unfold equalStep
  split
  case h_1 a b =>
    by_cases hab : a = b <;> simp [hab, shell?, children, Value.isEqv, Value.isEq_eq, Value.isNaN]
  case h_2 a b =>
    by_cases hab : a = b <;> simp [hab, shell?, children, Value.isEqv, Value.isEq_eq, Value.isNaN]
  case h_3 a b =>
    by_cases hab : a = b <;> simp [hab, shell?, children, Value.isEqv, Value.isEq_eq, Value.isNaN]
  case h_4 a b =>
    by_cases hab : a = b <;> simp [hab, shell?, children, Value.isEqv, Value.isEq_eq, Value.isNaN]
  case h_5 hpair hvector hbits hstring =>
    rw [if_neg (not_sameShell hpair hvector hbits hstring)]

theorem equalStep_of_isEqv {v w : Value} (h : v.isEqv w = true) : st.equalStep v w = some [] :=
  (equalStep_eq st v w).trans (if_pos h)

theorem equalStep_of_shell? {v w : Value} {s : Shell} (hvw : ¬v.isEqv w = true)
    (hv : st.shell? v = some s) (hw : st.shell? w = some s) :
    st.equalStep v w = some ((st.children v).zip (st.children w)) := by
  rw [equalStep_eq, if_neg hvw, if_pos ⟨by rw [hv]; rfl, hv.trans hw.symm⟩]

theorem equalStep_comm (st : Store) (v w : Value) :
    st.equalStep w v = (st.equalStep v w).map (·.map Prod.swap) := by
  rw [equalStep_eq, equalStep_eq, Value.isEqv_comm w v]
  by_cases hvw : v.isEqv w = true
  · simp [hvw]
  · by_cases hshell : st.shell? v = st.shell? w
    · by_cases hw : (st.shell? w).isSome = true <;> simp [hvw, hshell, hw, List.zip_swap]
    · simp [hvw, hshell, Ne.symm hshell]

/-- What a step leaves to compare stands below the two values. -/
theorem mem_children_of_equalStep {v w : Value} {below : List (Value × Value)}
    (h : st.equalStep v w = some below) {p : Value × Value} (hp : p ∈ below) :
    p.1 ∈ st.children v ∧ p.2 ∈ st.children w := by
  rw [equalStep_eq] at h
  split at h
  · cases h
    cases hp
  · split at h
    · cases h
      exact List.of_mem_zip hp
    · cases h

/-! ### Alike values -/

/-- There is a finite reason to take two values for the same: they are, or they have the same shell
and there are such reasons for the values in it, place by place. -/
inductive Alike (st : Store) : Value → Value → Prop
  | same {v w : Value} (h : v.isEqv w = true) : Alike st v w
  | inside {v w : Value} {s : Shell} (hv : st.shell? v = some s) (hw : st.shell? w = some s)
    (h : ∀ p ∈ (st.children v).zip (st.children w), Alike st p.1 p.2) : Alike st v w

theorem Alike.of_step {v w : Value} {below : List (Value × Value)}
    (hstep : st.equalStep v w = some below) (hbelow : ∀ p ∈ below, st.Alike p.1 p.2) :
    st.Alike v w := by
  rw [equalStep_eq] at hstep
  split at hstep
  · rename_i hvw
    exact .same hvw
  · split at hstep
    · rename_i hshell
      obtain ⟨s, hs⟩ := Option.isSome_iff_exists.1 hshell.1
      cases hstep
      exact .inside hs (hshell.2 ▸ hs) hbelow
    · cases hstep

/-! ### The work-list -/

theorem visitEqual_eq_checking (st : Store) :
    st.visitEqual = Run.checking fun p => st.equalStep p.1 p.2 := by
  funext _ p
  cases h : st.equalStep p.1 p.2 <;> simp [visitEqual, Run.checking, h]

theorem isEqual_eq_compareBy (st : Store) (v w : Value) :
    st.isEqual v w = compareBy st.equalStep v w := by
  rw [isEqual, visitEqual_eq_checking]
  rfl

theorem returns_isEqual {v w : Value} {b : Bool} :
    (st.isEqual v w).Returns b ↔
      (Run.walk st.visitEqual () [(v, w)]).Returns (if b then .ok () else .error ()) := by
  rw [isEqual_eq_compareBy, returns_compareBy, visitEqual_eq_checking]

theorem visitEqual_of_some {p : Value × Value} {below : List (Value × Value)}
    (h : st.equalStep p.1 p.2 = some below) : st.visitEqual () p = .ok ((), below) := by
  simp [visitEqual, h]

theorem visitEqual_of_none {p : Value × Value} (h : st.equalStep p.1 p.2 = none) :
    st.visitEqual () p = .error () := by
  simp [visitEqual, h]

theorem equalStep_of_visitEqual {u t : Unit} {p : Value × Value} {below : List (Value × Value)}
    (h : st.visitEqual u p = .ok (t, below)) : st.equalStep p.1 p.2 = some below := by
  rw [visitEqual_eq_checking] at h
  exact Run.step_of_checking h

theorem equalStep_of_visitEqual_error {u e : Unit} {p : Value × Value}
    (h : st.visitEqual u p = .error e) : st.equalStep p.1 p.2 = none := by
  cases hstep : st.equalStep p.1 p.2 with
  | none => rfl
  | some found =>
    rw [visitEqual_of_some hstep] at h
    cases h

theorem alike_of_passes {p : Value × Value}
    (h : Run.Passes (fun p => st.equalStep p.1 p.2) p) : st.Alike p.1 p.2 := by
  induction h with
  | intro hstep _ ih => exact .of_step hstep ih

theorem Alike.passes {v w : Value} (h : st.Alike v w) :
    Run.Passes (fun p => st.equalStep p.1 p.2) (v, w) := by
  induction h with
  | same h => exact .intro (equalStep_of_isEqv h) (by simp)
  | @inside v w s hv hw _ ih =>
    by_cases hvw : v.isEqv w = true
    · exact .intro (equalStep_of_isEqv hvw) (by simp)
    · exact .intro (equalStep_of_shell? hvw hv hw) ih

theorem isEqual_returns_true_iff {v w : Value} : (st.isEqual v w).Returns true ↔ st.Alike v w := by
  rw [isEqual_eq_compareBy, compareBy_returns_true_iff]
  exact ⟨alike_of_passes, Alike.passes⟩

theorem Alike.returns {v w : Value} (h : st.Alike v w) : (st.isEqual v w).Returns true :=
  isEqual_returns_true_iff.2 h

end Store

end Sameness
