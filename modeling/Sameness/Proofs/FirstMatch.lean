import Sameness.Engine
import Sameness.Proofs.Loops
import Sameness.Proofs.Spine

/-!
What a search along a list finds.

Searches for a member and for an entry ask about one place after the other, and find the first where
the answer is yes.
-/

namespace Sameness

/-- What is looked for along a list: a tail that begins with an item, or the entry of a key. -/
inductive Search where
  | member
  | assoc

def Search.builtin : Search → Predicate → Builtin
  | member => .member
  | assoc => .assoc

namespace Store

variable {st : Store} {search : Search} {p : Predicate} {item v w tail : Value} {n : Nat}

def turn (st : Store) : Search → Predicate → Value → Value → Run (Run.Turn Value (Option Value))
  | .member => st.memberTurn
  | .assoc => st.assocTurn

def look (st : Store) (search : Search) (p : Predicate) (item v : Value) : Run (Option Value) :=
  Run.loop (st.turn search p item) v

/-- What a search asks about at a tail of the list, and what it has found there if the answer is
yes: the tail itself, or the entry in front of it. About what is no entry nothing is asked. -/
def candidate? (st : Store) : Search → Value → Option (Value × Value)
  | .member, .pair a => some ((st.parts a).1, .pair a)
  | .assoc, .pair a =>
    match (st.parts a).1 with
    | .pair b => some ((st.parts b).1, .pair b)
    | _ => none
  | _, _ => none

theorem candidate?_member (tail : Value) :
    st.candidate? .member tail = (st.uncons tail).map fun parts => (parts.1, tail) := by
  cases tail <;> rfl

theorem candidate?_assoc (tail : Value) :
    st.candidate? .assoc tail = (st.uncons tail).bind fun parts =>
      (st.uncons parts.1).map fun entry => (entry.1, parts.1) := by
  cases tail with
  | pair a =>
    simp only [candidate?, uncons, Option.bind_some]
    cases (st.parts a).1 <;> rfl
  | _ => rfl

/-! ### One place -/

/-- The search finds something at this tail. -/
def Accepts (st : Store) (search : Search) (p : Predicate) (item tail found : Value) : Prop :=
  ∃ asked, st.candidate? search tail = some (asked, found) ∧ (st.same p item asked).Returns true

/-- The search passes this tail by. -/
def Refuses (st : Store) (search : Search) (p : Predicate) (item tail : Value) : Prop :=
  ∀ asked found, st.candidate? search tail = some (asked, found) →
    (st.same p item asked).Returns false

/-- The search comes to no answer at this tail. -/
def Stalls (st : Store) (search : Search) (p : Predicate) (item tail : Value) : Prop :=
  ∃ asked found, st.candidate? search tail = some (asked, found) ∧ (st.same p item asked).Diverges

/-- All that a turn of either search does. -/
theorem turn_eq (st : Store) (search : Search) (p : Predicate) (item tail : Value) :
    st.turn search p item tail =
      match st.uncons tail with
      | none => pure (.stop none)
      | some (_, rest) =>
        match st.candidate? search tail with
        | none => pure (.again rest)
        | some (asked, found) => do
          if ← st.same p item asked then return .stop (some found)
          return .again rest := by
  cases search with
  | member =>
    simp only [turn, memberTurn, candidate?_member]
    cases st.uncons tail <;> rfl
  | assoc =>
    simp only [turn, assocTurn, candidate?_assoc]
    cases huncons : st.uncons tail with
    | none => rfl
    | some parts =>
      obtain ⟨first, rest⟩ := parts
      simp only [Option.bind_some]
      cases st.uncons first <;> rfl

theorem candidate?_eq_none (h : st.uncons tail = none) : st.candidate? search tail = none := by
  cases search <;> simp [candidate?_member, candidate?_assoc, h]

/-- A turn at a pair whose candidate is asked about. -/
theorem turn_of_candidate {first rest asked found : Value} (h : st.uncons tail = some (first, rest))
    (hasked : st.candidate? search tail = some (asked, found)) :
    st.turn search p item tail = do
      if ← st.same p item asked then return .stop (some found)
      return .again rest := by
  rw [turn_eq, h]
  simp only [hasked]

theorem turn_of_no_candidate {first rest : Value} (h : st.uncons tail = some (first, rest))
    (hasked : st.candidate? search tail = none) :
    st.turn search p item tail = pure (.again rest) := by
  rw [turn_eq, h]
  simp only [hasked]

theorem turn_of_end (h : st.uncons tail = none) :
    st.turn search p item tail = pure (.stop none) := by
  rw [turn_eq, h]

/-- A turn ends the search with what is found here, or with nothing where the list ends; and it goes
on behind a pair that is passed by. -/
theorem returns_turn_iff {r : Run.Turn Value (Option Value)} :
    (st.turn search p item tail).Returns r ↔
      (∃ found, st.Accepts search p item tail found ∧ r = .stop (some found)) ∨
      (tail.tag ≠ .pair ∧ r = .stop none) ∨
      ∃ first rest, st.uncons tail = some (first, rest) ∧ st.Refuses search p item tail ∧
        r = .again rest := by
  cases huncons : st.uncons tail with
  | none =>
    have hend : tail.tag ≠ .pair := uncons_eq_none_iff.1 huncons
    rw [turn_of_end huncons, Run.returns_pure]
    simp [Accepts, candidate?_eq_none huncons, hend, eq_comm]
  | some parts =>
    obtain ⟨first, rest⟩ := parts
    have hpair : tail.tag = .pair := by
      obtain ⟨a, rfl⟩ := eq_pair_of_uncons huncons
      rfl
    cases hasked : st.candidate? search tail with
    | none =>
      rw [turn_of_no_candidate huncons hasked, Run.returns_pure]
      simp [Accepts, Refuses, hasked, hpair, eq_comm]
    | some candidate =>
      obtain ⟨asked, found⟩ := candidate
      rw [turn_of_candidate huncons hasked, Run.returns_ask]
      simp [Accepts, Refuses, hasked, hpair]

/-! ### The first place -/

/-- The search passes by the first `n` tails of the list. -/
def PassesBy (st : Store) (search : Search) (p : Predicate) (item v : Value) (n : Nat) : Prop :=
  ∀ k < n, ∀ tail, st.tailAt k v = some tail → st.Refuses search p item tail

/-- After `n` steps, and at no earlier place, there is what the search looks for. -/
def FoundAt (st : Store) (search : Search) (p : Predicate) (item v : Value) (n : Nat)
    (found : Value) : Prop :=
  st.PassesBy search p item v n ∧
    ∃ tail, st.tailAt n v = some tail ∧ st.Accepts search p item tail found

theorem passesBy_succ_iff {first rest : Value} (h : st.uncons v = some (first, rest)) :
    st.PassesBy search p item v (n + 1) ↔
      st.Refuses search p item v ∧ st.PassesBy search p item rest n := by
  constructor
  · intro hpasses
    refine ⟨hpasses 0 n.succ_pos v rfl, fun k hk tail htail => ?_⟩
    exact hpasses (k + 1) (Nat.succ_lt_succ hk) tail (by rw [tailAt_of_uncons h, htail])
  · rintro ⟨hfirst, hrest⟩ k hk tail htail
    cases k with
    | zero =>
      cases htail
      exact hfirst
    | succ k =>
      rw [tailAt_of_uncons h] at htail
      exact hrest k (Nat.lt_of_succ_lt_succ hk) tail htail

theorem goes_turn_iff :
    Run.Goes (st.turn search p item) n v tail ↔
      st.tailAt n v = some tail ∧ st.PassesBy search p item v n := by
  induction n generalizing v with
  | zero => simp [Run.goes_zero_iff, tailAt, PassesBy]
  | succ n ih =>
    simp only [Run.goes_succ_iff, ih, returns_turn_iff, reduceCtorEq, and_false, exists_false,
      false_or, Run.Turn.again.injEq]
    constructor
    · rintro ⟨_, ⟨first, rest, huncons, hrefuses, rfl⟩, htail, hpasses⟩
      exact ⟨by rw [tailAt_of_uncons huncons, htail],
        (passesBy_succ_iff huncons).2 ⟨hrefuses, hpasses⟩⟩
    · rintro ⟨htail, hpasses⟩
      rw [tailAt_eq_bind] at htail
      obtain ⟨⟨first, rest⟩, huncons, hbehind⟩ := Option.bind_eq_some_iff.1 htail
      obtain ⟨hrefuses, hrest⟩ := (passesBy_succ_iff huncons).1 hpasses
      exact ⟨rest, ⟨first, rest, huncons, hrefuses, rfl⟩, hbehind, hrest⟩

/-- A search answers with what it finds first, or with nothing at the end of a list without it. -/
theorem returns_look_iff {r : Option Value} :
    (st.look search p item v).Returns r ↔
      (∃ n found, st.FoundAt search p item v n found ∧ r = some found) ∨
        ∃ n, st.EndsAt v n ∧ st.PassesBy search p item v n ∧ r = none := by
  simp only [look, Run.returns_loop_iff, goes_turn_iff, returns_turn_iff, reduceCtorEq, and_false,
    exists_false, or_false, Run.Turn.stop.injEq]
  constructor
  · rintro ⟨n, tail, ⟨htail, hpasses⟩, ⟨found, haccepts, rfl⟩ | ⟨hend, rfl⟩⟩
    · exact .inl ⟨n, found, ⟨hpasses, tail, htail, haccepts⟩, rfl⟩
    · exact .inr ⟨n, ⟨tail, htail, hend⟩, hpasses, rfl⟩
  · rintro (⟨n, found, ⟨hpasses, tail, htail, haccepts⟩, rfl⟩ |
      ⟨n, ⟨tail, htail, hend⟩, hpasses, rfl⟩)
    · exact ⟨n, tail, ⟨htail, hpasses⟩, .inl ⟨found, haccepts, rfl⟩⟩
    · exact ⟨n, tail, ⟨htail, hpasses⟩, .inr ⟨hend, rfl⟩⟩

/-! ### Searches that never end -/

theorem not_refuses_of_accepts (h : st.Accepts search p item tail w) :
    ¬st.Refuses search p item tail := by
  obtain ⟨asked, hasked, htrue⟩ := h
  intro hrefuses
  cases htrue.unique (hrefuses asked w hasked)

theorem not_refuses_of_stalls (h : st.Stalls search p item tail) :
    ¬st.Refuses search p item tail := by
  obtain ⟨asked, found, hasked, hdiverges⟩ := h
  intro hrefuses
  exact Run.diverges_iff.1 hdiverges false (hrefuses asked found hasked)

theorem not_stalls_of_accepts (h : st.Accepts search p item tail w) :
    ¬st.Stalls search p item tail := by
  obtain ⟨asked, hasked, htrue⟩ := h
  rintro ⟨asked', found', hasked', hdiverges⟩
  cases hasked.symm.trans hasked'
  exact Run.diverges_iff.1 hdiverges true htrue

theorem accepts_or_stalls (h : ¬st.Refuses search p item tail) :
    (∃ w, st.Accepts search p item tail w) ∨ st.Stalls search p item tail := by
  simp only [Refuses, not_forall] at h
  obtain ⟨asked, found, hasked, hfalse⟩ := h
  by_cases htrue : (st.same p item asked).Returns true
  · exact .inl ⟨found, asked, hasked, htrue⟩
  · refine .inr ⟨asked, found, hasked, Run.diverges_iff.2 fun b => ?_⟩
    cases b with
    | true => exact htrue
    | false => exact hfalse

/-- The search goes no further than to this tail. -/
def HaltsAt (st : Store) (search : Search) (p : Predicate) (item v : Value) (n : Nat)
    (tail : Value) : Prop :=
  st.PassesBy search p item v n ∧ st.tailAt n v = some tail ∧
    (tail.tag ≠ .pair ∨ ¬st.Refuses search p item tail)

theorem FoundAt.haltsAt (h : st.FoundAt search p item v n w) :
    ∃ tail, st.HaltsAt search p item v n tail ∧ st.Accepts search p item tail w := by
  obtain ⟨hpasses, tail, htail, haccepts⟩ := h
  exact ⟨tail, ⟨hpasses, htail, .inr (not_refuses_of_accepts haccepts)⟩, haccepts⟩

theorem EndsAt.haltsAt (h : st.EndsAt v n) (hpasses : st.PassesBy search p item v n) :
    ∃ tail, st.HaltsAt search p item v n tail ∧ tail.tag ≠ .pair := by
  obtain ⟨tail, htail, hend⟩ := h
  exact ⟨tail, ⟨hpasses, htail, .inl hend⟩, hend⟩

/-- What is passed by has something behind it, so there is one place at most. -/
theorem HaltsAt.unique {m : Nat} {tail' : Value} (h : st.HaltsAt search p item v n tail)
    (h' : st.HaltsAt search p item v m tail') : tail = tail' := by
  have hnot : ∀ {i j t u}, st.HaltsAt search p item v i t → st.HaltsAt search p item v j u →
      ¬i < j := by
    rintro i j t u ⟨-, ht, hend | hrefuses⟩ ⟨hpasses, hu, -⟩ hlt
    · have hends : st.EndsAt v i := ⟨t, ht, hend⟩
      cases (hends.tailAt_eq_none hlt).symm.trans hu
    · exact hrefuses (hpasses i hlt t ht)
  obtain rfl : n = m :=
    Nat.le_antisymm (Nat.le_of_not_lt (hnot h' h)) (Nat.le_of_not_lt (hnot h h'))
  exact Option.some.inj (h.2.1.symm.trans h'.2.1)

theorem passesBy_of_not_haltsAt (h : ∀ n tail, ¬st.HaltsAt search p item v n tail) (n : Nat) :
    st.PassesBy search p item v n := by
  induction n with
  | zero => nofun
  | succ n ih =>
    intro k hk tail htail
    rcases Nat.lt_succ_iff_lt_or_eq.1 hk with hlt | rfl
    · exact ih k hlt tail htail
    · by_contra hrefuses
      exact h k tail ⟨ih, htail, .inr hrefuses⟩

/-- A search never ends in two cases: a comparison that it comes to never does, or it passes by all
of a spine that goes round. -/
theorem diverges_look_iff :
    (st.look search p item v).Diverges ↔
      (∃ n tail, st.PassesBy search p item v n ∧ st.tailAt n v = some tail ∧
        st.Stalls search p item tail) ∨
      st.IsRing v ∧ ∀ n, st.PassesBy search p item v n := by
  rw [Run.diverges_iff]
  constructor
  · intro hnone
    by_cases hhalts : ∃ n tail, st.HaltsAt search p item v n tail
    · obtain ⟨n, tail, hpasses, htail, hend | hrefuses⟩ := hhalts
      · exact absurd (returns_look_iff.2 (.inr ⟨n, ⟨tail, htail, hend⟩, hpasses, rfl⟩)) (hnone none)
      · rcases accepts_or_stalls hrefuses with ⟨w, haccepts⟩ | hstalls
        · have hfound : st.FoundAt search p item v n w := ⟨hpasses, tail, htail, haccepts⟩
          exact absurd (returns_look_iff.2 (.inl ⟨n, w, hfound, rfl⟩)) (hnone (some w))
        · exact .inl ⟨n, tail, hpasses, htail, hstalls⟩
    · have hpasses : ∀ n, st.PassesBy search p item v n :=
        passesBy_of_not_haltsAt fun n tail h => hhalts ⟨n, tail, h⟩
      rcases endsAt_or_isRing st v with ⟨n, hend⟩ | hring
      · obtain ⟨tail, hhalt, -⟩ := hend.haltsAt (hpasses n)
        exact absurd ⟨n, tail, hhalt⟩ hhalts
      · exact .inr ⟨hring, hpasses⟩
  · rintro hcase r hr
    have hhalt : ∃ n tail, st.HaltsAt search p item v n tail ∧
        ((∃ w, st.Accepts search p item tail w) ∨ tail.tag ≠ .pair) := by
      rcases returns_look_iff.1 hr with ⟨n, w, hfound, -⟩ | ⟨n, hend, hpasses, -⟩
      · obtain ⟨tail, hhalt, haccepts⟩ := hfound.haltsAt
        exact ⟨n, tail, hhalt, .inl ⟨w, haccepts⟩⟩
      · obtain ⟨tail, hhalt, hnil⟩ := hend.haltsAt hpasses
        exact ⟨n, tail, hhalt, .inr hnil⟩
    obtain ⟨n, tail, hhalt, hanswer⟩ := hhalt
    rcases hcase with ⟨m, tail', hpasses, htail', hstalls⟩ | ⟨hring, hpasses⟩
    · obtain rfl : tail = tail' :=
        hhalt.unique ⟨hpasses, htail', .inr (not_refuses_of_stalls hstalls)⟩
      rcases hanswer with ⟨w, haccepts⟩ | hnil
      · exact not_stalls_of_accepts haccepts hstalls
      · obtain ⟨asked, found, hasked, -⟩ := hstalls
        cases (candidate?_eq_none (uncons_eq_none_iff.2 hnil)).symm.trans hasked
    · obtain ⟨-, htail, hend | hrefuses⟩ := hhalt
      · exact hring.not_endsAt n ⟨tail, htail, hend⟩
      · exact hrefuses (hpasses (n + 1) n n.lt_succ_self tail htail)

/-! ### Lists without cycles -/

theorem Acyclic.exists_returns_same (h : st.Acyclic v) (p : Predicate) (w : Value) :
    ∃ b, (st.same p v w).Returns b := by
  cases p with
  | eq | eqv => exact ⟨_, Run.returns_pure.2 rfl⟩
  | equal => exact h.exists_returns_isEqual w

/-- What a search may find is a pair of the list, or an entry in it. -/
theorem exists_pair_of_candidate? {asked found : Value}
    (h : st.candidate? search tail = some (asked, found)) :
    st.Reaches tail found ∧ ∃ a, found = .pair a := by
  cases search with
  | member =>
    rw [candidate?_member] at h
    obtain ⟨parts, huncons, hfound⟩ := Option.map_eq_some_iff.1 h
    cases hfound
    exact ⟨.refl, eq_pair_of_uncons huncons⟩
  | assoc =>
    rw [candidate?_assoc] at h
    obtain ⟨parts, huncons, hentry⟩ := Option.bind_eq_some_iff.1 h
    obtain ⟨entry, hfirst, hfound⟩ := Option.map_eq_some_iff.1 hentry
    cases hfound
    exact ⟨reaches_first huncons, eq_pair_of_uncons hfirst⟩

/-- A search along a list that ends comes to an end, and what it finds stands in the list. -/
theorem Acyclic.exists_returns_look (hitem : st.Acyclic item) (search : Search) (p : Predicate)
    (h : st.Acyclic v) :
    ∃ r, (st.look search p item v).Returns r ∧ ∀ w, r = some w → st.Reaches v w := by
  induction h using Acyclic.list_induction with
  | stop v _ huncons =>
    have hstop : (st.turn search p item v).Returns (.stop none) :=
      returns_turn_iff.2 (.inr (.inl ⟨uncons_eq_none_iff.1 huncons, rfl⟩))
    exact ⟨none, Run.returns_loop.2 (.inl hstop), nofun⟩
  | pair v first rest _ _ huncons ih =>
    by_cases hrefuses : st.Refuses search p item v
    · obtain ⟨r, hr, hreach⟩ := ih
      have hagain := returns_turn_iff.2 (.inr (.inr ⟨first, rest, huncons, hrefuses, rfl⟩))
      exact ⟨r, Run.returns_loop.2 (.inr ⟨rest, hagain, hr⟩),
        fun w hw => (reaches_rest huncons).trans (hreach w hw)⟩
    · rcases accepts_or_stalls hrefuses with ⟨found, haccepts⟩ | ⟨asked, -, -, hdiverges⟩
      · have hstop := returns_turn_iff.2 (.inl ⟨found, haccepts, rfl⟩)
        obtain ⟨asked, hasked, -⟩ := haccepts
        refine ⟨some found, Run.returns_loop.2 (.inl hstop), ?_⟩
        rintro w ⟨⟩
        exact (exists_pair_of_candidate? hasked).1
      · obtain ⟨b, hb⟩ := hitem.exists_returns_same p asked
        exact absurd hb (Run.diverges_iff.1 hdiverges b)

/-! ### The builtins -/

theorem run_builtin (search : Search) (p : Predicate) (item v : Value) (sink : Sink) :
    (search.builtin p).run st [item, v] sink = do
      return (.ok ((← st.look search p item v).getD (.boolean false)), sink) := by
  cases search with
  | member => exact Builtin.run_member
  | assoc => exact Builtin.run_assoc

theorem returns_run_iff {sink : Sink} {r : Answer × Sink} :
    ((search.builtin p).run st [item, v] sink).Returns r ↔
      (∃ n found, st.FoundAt search p item v n found ∧ r = (.ok found, sink)) ∨
        ∃ n, st.EndsAt v n ∧ st.PassesBy search p item v n ∧ r = (.ok (.boolean false), sink) := by
  rw [run_builtin, Run.returns_bind]
  simp only [Run.returns_pure, returns_look_iff]
  constructor
  · rintro ⟨_, ⟨n, found, hfound, rfl⟩ | ⟨n, hend, hpasses, rfl⟩, rfl⟩
    · exact .inl ⟨n, found, hfound, rfl⟩
    · exact .inr ⟨n, hend, hpasses, rfl⟩
  · rintro (⟨n, found, hfound, rfl⟩ | ⟨n, hend, hpasses, rfl⟩)
    · exact ⟨some found, .inl ⟨n, found, hfound, rfl⟩, rfl⟩
    · exact ⟨none, .inr ⟨n, hend, hpasses, rfl⟩, rfl⟩

theorem FoundAt.eq_pair (h : st.FoundAt search p item v n w) : ∃ a, w = .pair a := by
  obtain ⟨-, tail, -, asked, hasked, -⟩ := h
  exact (exists_pair_of_candidate? hasked).2

/-- What is found is never false, so false is the answer just where nothing is found. -/
theorem returns_run_false_iff {sink : Sink} :
    ((search.builtin p).run st [item, v] sink).Returns (.ok (.boolean false), sink) ↔
      ∃ n, st.EndsAt v n ∧ st.PassesBy search p item v n := by
  rw [returns_run_iff]
  constructor
  · rintro (⟨n, found, hfound, heq⟩ | ⟨n, hend, hpasses, -⟩)
    · obtain ⟨a, rfl⟩ := hfound.eq_pair
      cases heq
    · exact ⟨n, hend, hpasses⟩
  · rintro ⟨n, hend, hpasses⟩
    exact .inr ⟨n, hend, hpasses, rfl⟩

end Store

/-- What comes of a search, whatever it is given. It never fails, it leaves the sink alone, and what
it finds is a cell of the list, not a copy. -/
structure SearchLaw (st : Store) (search : Search) (p : Predicate) (item v : Value) (sink : Sink) :
    Prop where
  /-- The answer is what stands first among all that is looked for, or false at the end of a list
  without it, whatever the list ends in. -/
  answers (r : Answer × Sink) : ((search.builtin p).run st [item, v] sink).Returns r ↔
    (∃ n found, st.FoundAt search p item v n found ∧ r = (.ok found, sink)) ∨
      ∃ n, st.EndsAt v n ∧ st.PassesBy search p item v n ∧ r = (.ok (.boolean false), sink)
  cell (n : Nat) (found : Value) : st.FoundAt search p item v n found → ∃ a, found = .pair a
  /-- There is no answer when a comparison that the search comes to has none, or when the spine goes
  round and the search passes by all of it. -/
  diverges : ((search.builtin p).run st [item, v] sink).Diverges ↔
    (∃ n tail, st.PassesBy search p item v n ∧ st.tailAt n v = some tail ∧
      st.Stalls search p item tail) ∨
    st.IsRing v ∧ ∀ n, st.PassesBy search p item v n

theorem searchLaw (st : Store) (search : Search) (p : Predicate) (item v : Value) (sink : Sink) :
    SearchLaw st search p item v sink where
  answers _ := Store.returns_run_iff
  cell _ _ hfound := hfound.eq_pair
  diverges := by rw [Store.run_builtin, Run.diverges_bind_pure, Store.diverges_look_iff]

end Sameness
