import Sameness.Proofs.Alike

/-!
The work-list of `isEqual` and the recursion that it stands for.

The recursion goes from left to right and stops at the first difference. On cyclic structures it may
go down for ever; the work-list then does not end either, and otherwise both give the same verdict.
-/

namespace Sameness

namespace Store

variable {st : Store}

/-- Structural equality with `again` for the recursive calls. -/
def structuralCall (st : Store) (again : Value → Value → Option Bool) :
    Value → Value → Option Bool
  | .pair a, .pair b =>
    if a = b then some true
    else do
      if ← again (st.parts a).1 (st.parts b).1 then again (st.parts a).2 (st.parts b).2
      else some false
  | .vector a, .vector b =>
    if a = b then some true
    else if (st.elements a).size = (st.elements b).size then
      ((st.elements a).toList.zip (st.elements b).toList).allM fun p => again p.1 p.2
    else some false
  | .boolVector a, .boolVector b => some (a == b || st.bits a == st.bits b)
  | .string a, .string b => some (a == b || st.text a == st.text b)
  | v, w => some (v.isEqv w)

/-- The verdict of the recursion, if its calls do not nest deeper than `depth`. -/
def structuralWithin (st : Store) (depth : Nat) (v w : Value) : Option Bool :=
  match depth with
  | 0 => none
  | depth + 1 => st.structuralCall (st.structuralWithin depth) v w

/-- The recursion on pairs of values from left to right, up to the first that differs. -/
def allWithin (st : Store) (depth : Nat) (ps : List (Value × Value)) : Option Bool :=
  ps.allM fun p => st.structuralWithin depth p.1 p.2

theorem allWithin_cons (n : Nat) (p : Value × Value) (ps : List (Value × Value)) :
    st.allWithin n (p :: ps) = (st.structuralWithin n p.1 p.2).bind fun b =>
      if b then st.allWithin n ps else some false := by
  rw [allWithin, List.allM]
  cases st.structuralWithin n p.1 p.2 with
  | none => rfl
  | some b => cases b <;> rfl

theorem allWithin_append (n : Nat) (ps qs : List (Value × Value)) :
    st.allWithin n (ps ++ qs) = (st.allWithin n ps).bind fun b =>
      if b then st.allWithin n qs else some false := by
  induction ps with
  | nil => rfl
  | cons p ps ih =>
    rw [List.cons_append, allWithin_cons, allWithin_cons, ih]
    cases st.structuralWithin n p.1 p.2 with
    | none => rfl
    | some b => cases b <;> rfl

theorem allM_pair (f : Value × Value → Option Bool) (p q : Value × Value) :
    [p, q].allM f = (f p).bind fun b => if b then f q else some false := by
  rw [List.allM]
  cases f p with
  | none => rfl
  | some b =>
    cases b with
    | false => rfl
    | true =>
      show [q].allM f = f q
      rw [List.allM]
      cases f q with
      | none => rfl
      | some c => cases c <;> rfl

/-- One call of the recursion is one step of the work-list and the calls below it. -/
theorem structuralCall_eq (again : Value → Value → Option Bool) (v w : Value) :
    st.structuralCall again v w =
      match st.equalStep v w with
      | none => some false
      | some below => below.allM fun p => again p.1 p.2 := by
  unfold structuralCall
  split
  case h_1 a b =>
    rw [equalStep]
    by_cases hab : a = b
    · simp [hab]
    · simp only [hab, if_false, allM_pair]
      rfl
  case h_2 a b =>
    rw [equalStep]
    by_cases hab : a = b
    · simp [hab]
    · by_cases hsize : (st.elements a).size = (st.elements b).size <;> simp [hab, hsize]
  case h_3 a b =>
    rw [equalStep]
    by_cases hab : a = b <;> by_cases hbits : st.bits a = st.bits b <;> simp [hab, hbits]
  case h_4 a b =>
    rw [equalStep]
    by_cases hab : a = b <;> by_cases htext : st.text a = st.text b <;> simp [hab, htext]
  case h_5 hpair hvector hbits hstring =>
    rw [equalStep.eq_5 st v w hpair hvector hbits hstring]
    cases v.isEqv w <;> rfl

theorem structuralWithin_of_none {v w : Value} (h : st.equalStep v w = none) (n : Nat) :
    st.structuralWithin (n + 1) v w = some false := by
  rw [structuralWithin, structuralCall_eq, h]

theorem structuralWithin_of_some {v w : Value} {below : List (Value × Value)}
    (h : st.equalStep v w = some below) (n : Nat) :
    st.structuralWithin (n + 1) v w = st.allWithin n below := by
  rw [structuralWithin, structuralCall_eq, h, allWithin]

/-! ### A larger depth -/

theorem allWithin_mono_of {m n : Nat}
    (h : ∀ v w b, st.structuralWithin m v w = some b → st.structuralWithin n v w = some b)
    {ps : List (Value × Value)} {b : Bool} (hps : st.allWithin m ps = some b) :
    st.allWithin n ps = some b := by
  induction ps with
  | nil => exact hps
  | cons p ps ih =>
    rw [allWithin_cons] at hps ⊢
    obtain ⟨c, hc, hb⟩ := Option.bind_eq_some_iff.1 hps
    rw [h _ _ _ hc]
    cases c with
    | false => exact hb
    | true => exact ih hb

theorem structuralWithin_mono {m n : Nat} (hmn : m ≤ n) {v w : Value} {b : Bool}
    (h : st.structuralWithin m v w = some b) : st.structuralWithin n v w = some b := by
  induction m generalizing n v w b with
  | zero => cases h
  | succ m ih =>
    obtain ⟨n, rfl⟩ : ∃ k, n = k + 1 := ⟨n - 1, by omega⟩
    cases hstep : st.equalStep v w with
    | none => rwa [structuralWithin_of_none hstep] at h ⊢
    | some below =>
      rw [structuralWithin_of_some hstep] at h ⊢
      exact allWithin_mono_of (fun _ _ _ => ih (by omega)) h

/-- Structural equality as a recursion. -/
def structuralEqual (st : Store) (v w : Value) : Run Bool where
  within depth := st.structuralWithin depth v w
  within_mono hmn h := structuralWithin_mono hmn h

/-! ### The two compared -/

/-- How a walk ends for a verdict. -/
def ending (b : Bool) : Except Unit Unit := if b then .ok () else .error ()

/-- A call that ends leaves the work-list at the same verdict, or at the rest of the pairs. -/
theorem returns_walk_of_allWithin {n : Nat} {ps : List (Value × Value)} {b : Bool}
    (h : st.allWithin n ps = some b) : (Run.walk st.visitEqual () ps).Returns (ending b) := by
  -- What stands below `p` is met at a smaller depth, what stands behind it at the same one.
  induction n generalizing ps b with
  | zero =>
    cases ps with
    | nil =>
      cases h
      simp [ending]
    | cons p ps => cases h
  | succ n ihn =>
    induction ps generalizing b with
    | nil =>
      cases h
      simp [ending]
    | cons p ps ihps =>
      rw [allWithin_cons] at h
      obtain ⟨c, hc, hb⟩ := Option.bind_eq_some_iff.1 h
      have hp : (Run.walk st.visitEqual () [p]).Returns (ending c) := by
        cases hstep : st.equalStep p.1 p.2 with
        | none =>
          rw [structuralWithin_of_none hstep] at hc
          cases hc
          exact (Run.returns_walk_cons_error (visitEqual_of_none hstep)).2 rfl
        | some below =>
          rw [structuralWithin_of_some hstep] at hc
          rw [Run.returns_walk_cons_ok (visitEqual_of_some hstep), List.append_nil]
          exact ihn hc
      cases c with
      | false =>
        cases hb
        exact Run.returns_walk_cons.2 (.inl ⟨(), hp, rfl⟩)
      | true => exact Run.returns_walk_cons.2 (.inr ⟨(), hp, ihps hb⟩)

/-- The invariant speaks of the whole list: when the work-list ends, so does the recursion on all
that is pending. -/
theorem exists_allWithin_of_returns_walk {ps : List (Value × Value)} {r : Except Unit Unit}
    (h : (Run.walk st.visitEqual () ps).Returns r) : ∃ n b, st.allWithin n ps = some b := by
  refine Run.walk_induction (motive := fun _ ps _ => ∃ n b, st.allWithin n ps = some b)
    ?nil ?error ?ok h
  case nil => exact fun _ => ⟨0, true, rfl⟩
  case error =>
    intro _ p ps e hv
    refine ⟨1, false, ?_⟩
    rw [allWithin_cons, structuralWithin_of_none (equalStep_of_visitEqual_error hv)]
    rfl
  case ok =>
    intro _ _ p ps below r hv ih
    obtain ⟨n, b, hb⟩ := ih
    rw [allWithin_append] at hb
    obtain ⟨c, hc, hb⟩ := Option.bind_eq_some_iff.1 hb
    -- `p` nests one deeper than what stands below it, so the rest has to bear the larger depth.
    refine ⟨n + 1, b, ?_⟩
    rw [allWithin_cons, structuralWithin_of_some (equalStep_of_visitEqual hv), hc]
    cases c with
    | false => exact hb
    | true => exact allWithin_mono_of (fun _ _ _ => structuralWithin_mono (Nat.le_succ n)) hb

theorem returns_isEqual_of_structuralEqual {v w : Value} {b : Bool}
    (h : (st.structuralEqual v w).Returns b) : (st.isEqual v w).Returns b := by
  obtain ⟨n, hn⟩ := h
  apply returns_isEqual.2
  apply returns_walk_of_allWithin (n := n)
  rw [allWithin_cons, show st.structuralWithin n v w = some b from hn]
  cases b <;> rfl

theorem structuralEqual_of_returns_isEqual {v w : Value} {b : Bool}
    (h : (st.isEqual v w).Returns b) : (st.structuralEqual v w).Returns b := by
  obtain ⟨m, c, hc⟩ := exists_allWithin_of_returns_walk (returns_isEqual.1 h)
  rw [allWithin_cons] at hc
  obtain ⟨d, hd, -⟩ := Option.bind_eq_some_iff.1 hc
  have hvw : (st.structuralEqual v w).Returns d := ⟨m, hd⟩
  have hbd : b = d := h.unique (returns_isEqual_of_structuralEqual hvw)
  rwa [hbd]

/-- On every store the work-list and the recursion answer the same, and neither answers without the
other. -/
theorem isEqual_refines_recursion (st : Store) (v w : Value) :
    (∀ b, (st.isEqual v w).Returns b ↔ (st.structuralEqual v w).Returns b) ∧
      ((st.isEqual v w).Diverges ↔ (st.structuralEqual v w).Diverges) := by
  have hreturns : ∀ b, (st.isEqual v w).Returns b ↔ (st.structuralEqual v w).Returns b :=
    fun b => ⟨structuralEqual_of_returns_isEqual, returns_isEqual_of_structuralEqual⟩
  refine ⟨hreturns, ?_⟩
  simp only [Run.diverges_iff, hreturns]

end Store

end Sameness
