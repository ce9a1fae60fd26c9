import Sameness.Proofs.Bag
import Sameness.Proofs.PartialEquivalence
import Sameness.Proofs.Reach
import Sameness.Table

/-!
Hash tables answer as association lists do.

A table looks only at entries with the input of the probe, and at the first of them that is the
same. Neither shows: values that are the same have the same input, and no two stored keys are ever
the same, so that at most one of them matches.
-/

namespace Sameness

variable {α : Type}

/-! ### Keys -/

namespace Store

variable {st st' : Store} {p : Predicate}

/-- The input of the key for a hash function comes to an end. -/
def Hashable (st : Store) (p : Predicate) (key : Value) : Prop :=
  ∃ items, (st.hashInputFor p key).Returns items

theorem isEqv_of_same_eq {v w : Value} (h : (st.same .eq v w).Returns true) :
    v.isEqv w = true := by
  rw [same, Run.returns_pure] at h
  exact Value.isEqv_iff.2 (.inl (Value.isEq_iff.1 h))

theorem hashInputFor_of_same {v w : Value} (h : (st.same p v w).Returns true) :
    st.hashInputFor p v = st.hashInputFor p w := by
  cases p with
  | eq => exact congrArg pure (Value.hashItems_of_isEqv (isEqv_of_same_eq h))
  | eqv => exact congrArg pure (Value.hashItems_of_isEqv (Run.returns_pure.1 h))
  | equal => exact (isEqual_returns_true_iff.1 h).hashInput_eq

/-- A key that can be hashed can be compared with anything. -/
theorem Hashable.exists_returns_same {v : Value} (h : st.Hashable p v) (w : Value) :
    ∃ b, (st.same p v w).Returns b := by
  cases p with
  | eq => exact ⟨v.isEq w, by simp [same]⟩
  | eqv => exact ⟨v.isEqv w, by simp [same]⟩
  | equal =>
    obtain ⟨items, hitems⟩ := h
    exact (acyclic_of_returns_hashInput hitems).exists_returns_isEqual w

end Store

/-! ### Entries as a bag -/

/-- The entries without the memory of their input. -/
def bagOf (es : List (Entry α)) : Bag α := (es.map fun e => (e.key, e.value) : List (Value × α))

@[simp] theorem bagOf_cons (e : Entry α) (es : List (Entry α)) :
    bagOf (e :: es) = (e.key, e.value) ::ₘ bagOf es := rfl

@[simp] theorem bagOf_append (es fs : List (Entry α)) :
    bagOf (es ++ fs) = bagOf es + bagOf fs := by
  simp [bagOf]

theorem bagOf_middle (xs : List (Entry α)) (e : Entry α) (ys : List (Entry α)) :
    bagOf (xs ++ e :: ys) = (e.key, e.value) ::ₘ bagOf (xs ++ ys) := by
  simp [Multiset.add_cons]

theorem card_bagOf (es : List (Entry α)) : (bagOf es).card = es.length := by
  simp [bagOf]

theorem noMatch_bagOf {same : Value → Value → Run Bool} {key : Value} {es : List (Entry α)} :
    (bagOf es).NoMatch same key ↔ ∀ e ∈ es, (same key e.key).Returns false := by
  simp [Bag.NoMatch, bagOf]

/-! ### Finding -/

namespace Table

variable {st st' : Store} {p : Predicate} {t : Table α}

/-- The invariant of a table: the memory of all inputs is right, and no two keys are the same. A key
need not be the same as itself. -/
structure Sound (st : Store) (t : Table α) : Prop where
  items : ∀ e ∈ t.entries, (st.hashInputFor t.predicate e.key).Returns e.items
  apart : t.entries.Pairwise fun e f => ¬(st.same t.predicate e.key f.key).Returns true

theorem Sound.at_most_one (h : t.Sound st) (probe : Value) :
    t.entries.Pairwise fun e f => ¬((st.same t.predicate probe e.key).Returns true ∧
      (st.same t.predicate probe f.key).Returns true) := by
  apply h.apart.imp
  intro e f hef hprobe
  -- Two keys that match one probe match each other, though the probe need not match itself.
  rw [st.same_comm] at hprobe
  exact hef (Store.same_trans hprobe.1 hprobe.2)

/-- The search stops at the first entry with the same key; the entries it skips have another one. -/
theorem searchFrom_spec {probe : Value} {items : List HashItem}
    (hprobe : (st.hashInputFor p probe).Returns items) (i : Nat) {es : List (Entry α)}
    (hes : ∀ e ∈ es, (st.hashInputFor p e.key).Returns e.items) :
    (∃ xs e ys, es = xs ++ e :: ys ∧ (st.same p probe e.key).Returns true ∧
        (searchFrom st p items probe i es).Returns (some (i + xs.length))) ∨
      (∀ e ∈ es, (st.same p probe e.key).Returns false) ∧
        (searchFrom st p items probe i es).Returns none := by
  induction es generalizing i with
  | nil => exact .inr ⟨by simp, by simp [searchFrom]⟩
  | cons e es ih =>
    have he : (st.hashInputFor p e.key).Returns e.items := hes e List.mem_cons_self
    have hrest := ih (i + 1) fun f hf => hes f (List.mem_cons_of_mem e hf)
    obtain ⟨b, hb⟩ := Store.Hashable.exists_returns_same ⟨items, hprobe⟩ e.key
    cases b with
    | true =>
      -- The test of the inputs cannot pass over this entry.
      have hitems : e.items = items := by
        rw [Store.hashInputFor_of_same hb] at hprobe
        exact he.unique hprobe
      refine .inl ⟨[], e, es, rfl, hb, ?_⟩
      rw [searchFrom, if_pos hitems, Run.returns_bind]
      exact ⟨true, hb, by simp⟩
    | false =>
      have hskip : ∀ r, (searchFrom st p items probe (i + 1) es).Returns r →
          (searchFrom st p items probe i (e :: es)).Returns r := by
        intro r hr
        rw [searchFrom]
        split
        · exact Run.returns_bind.2 ⟨false, hb, hr⟩
        · exact hr
      rcases hrest with ⟨xs, f, ys, rfl, hf, hr⟩ | ⟨hall, hr⟩
      · refine .inl ⟨e :: xs, f, ys, rfl, hf, hskip _ ?_⟩
        rw [List.length_cons, Nat.add_comm xs.length, ← Nat.add_assoc]
        exact hr
      · exact .inr ⟨List.forall_mem_cons.2 ⟨hb, hall⟩, hskip _ hr⟩

/-- What a search finds in a table: the only entry that matches, or that there is none. -/
inductive Found (st : Store) (t : Table α) (probe : Value) : Option Nat → Prop
  | hit {xs : List (Entry α)} {e : Entry α} {ys : List (Entry α)}
    (hsplit : t.entries = xs ++ e :: ys)
    (he : (st.same t.predicate probe e.key).Returns true)
    (hrest : ∀ f ∈ xs ++ ys, (st.same t.predicate probe f.key).Returns false) :
    Found st t probe (some xs.length)
  | miss (h : ∀ e ∈ t.entries, (st.same t.predicate probe e.key).Returns false) :
    Found st t probe none

theorem Sound.find_spec (h : t.Sound st) {probe : Value} {items : List HashItem}
    (hprobe : (st.hashInputFor t.predicate probe).Returns items) :
    ∃ found, (t.find st probe).Returns (items, found) ∧ t.Found st probe found := by
  have hfind : ∀ found, (searchFrom st t.predicate items probe 0 t.entries).Returns found →
      (t.find st probe).Returns (items, found) := by
    intro found hfound
    rw [find, Run.returns_bind]
    exact ⟨items, hprobe, Run.returns_bind.2 ⟨found, hfound, Run.returns_pure.2 rfl⟩⟩
  rcases searchFrom_spec hprobe 0 h.items with ⟨xs, e, ys, hsplit, he, hr⟩ | ⟨hall, hr⟩
  · rw [Nat.zero_add] at hr
    refine ⟨some xs.length, hfind _ hr, .hit hsplit he fun f hf => ?_⟩
    have hone := h.at_most_one probe
    rw [hsplit, List.pairwise_middle (fun hef hfe => hef hfe.symm), List.pairwise_cons] at hone
    obtain ⟨b, hb⟩ := Store.Hashable.exists_returns_same ⟨items, hprobe⟩ f.key
    cases b with
    | true => exact absurd ⟨he, hb⟩ (hone.1 f hf)
    | false => exact hb
  · exact ⟨none, hfind _ hr, .miss hall⟩

/-! ### One request -/

def perform (t : Table α) (st : Store) : Request α → Run (Table α × Option α)
  | .insert key value => t.insert st key value
  | .lookup key => do return (t, ← t.lookup st key)
  | .erase key => t.erase st key

/-- The table after a request whose search ended at `found`. -/
def after (t : Table α) (items : List HashItem) : Request α → Option Nat → Table α
  | .insert _ value, some i =>
    { t with entries := t.entries.modify i fun e => { e with value } }
  | .insert key value, none => { t with entries := t.entries ++ [⟨items, key, value⟩] }
  | .erase _, some i => { t with entries := t.entries.eraseIdx i }
  | .lookup _, _ | .erase _, none => t

theorem predicate_after (t : Table α) (items : List HashItem) (r : Request α) (found : Option Nat) :
    (t.after items r found).predicate = t.predicate := by
  cases r <;> cases found <;> rfl

theorem returns_perform {r : Request α} {items : List HashItem} {found : Option Nat}
    (h : (t.find st r.key).Returns (items, found)) :
    (t.perform st r).Returns
      (t.after items r found, found.bind fun i => t.entries[i]?.map (·.value)) := by
  cases r with
  | insert key value =>
    rw [perform, insert, Run.returns_bind]
    refine ⟨_, h, ?_⟩
    cases found <;> exact Run.returns_pure.2 rfl
  | lookup key =>
    rw [perform, lookup]
    refine Run.returns_bind.2 ⟨_, Run.returns_bind.2 ⟨_, h, Run.returns_pure.2 rfl⟩, ?_⟩
    cases found <;> exact Run.returns_pure.2 rfl
  | erase key =>
    rw [perform, erase, Run.returns_bind]
    refine ⟨_, h, ?_⟩
    cases found <;> exact Run.returns_pure.2 rfl

theorem modify_middle (f : Entry α → Entry α) (xs : List (Entry α)) (e : Entry α)
    (ys : List (Entry α)) : (xs ++ e :: ys).modify xs.length f = xs ++ f e :: ys := by
  induction xs with
  | nil => rfl
  | cons x xs ih => exact congrArg (x :: ·) ih

/-- The entries that a request leaves of an entry that it finds. -/
def kept (e : Entry α) : Request α → List (Entry α)
  | .insert _ value => [{ e with value }]
  | .lookup _ => [e]
  | .erase _ => []

theorem entries_after_hit {r : Request α} {items : List HashItem} {xs : List (Entry α)}
    {e : Entry α} {ys : List (Entry α)} (hsplit : t.entries = xs ++ e :: ys) :
    (t.after items r (some xs.length)).entries = xs ++ kept e r ++ ys := by
  rw [List.append_assoc]
  cases r with
  | insert key value =>
    show t.entries.modify xs.length _ = _
    rw [hsplit, modify_middle]
    rfl
  | lookup key => exact hsplit
  | erase key =>
    show t.entries.eraseIdx xs.length = _
    rw [hsplit, List.eraseIdx_append_of_length_le (Nat.le_refl _), Nat.sub_self]
    rfl

/-- The answer and the entries after a request are those that comparing alone allows. -/
theorem Found.step_iff {r : Request α} {found : Option Nat} (h : t.Found st r.key found)
    (items : List HashItem) {answer : Option α} {b : Bag α} :
    Bag.Step (st.same t.predicate) (bagOf t.entries) r answer b ↔
      answer = (found.bind fun i => t.entries[i]?.map (·.value)) ∧
        b = bagOf (t.after items r found).entries := by
  cases h with
  | @hit xs e ys hsplit he hrest =>
    have hvalue : (some xs.length).bind (fun i => t.entries[i]?.map (·.value)) = some e.value := by
      simp [hsplit]
    have hafter : bagOf (t.after items r (some xs.length)).entries =
        r.onHit e.key e.value (bagOf (xs ++ ys)) := by
      rw [entries_after_hit hsplit, List.append_assoc]
      cases r with
      | insert key value => exact bagOf_middle xs { e with value } ys
      | lookup key => exact bagOf_middle xs e ys
      | erase key => rfl
    rw [hvalue, hafter, hsplit, bagOf_middle, Bag.step_iff_of_hit he (noMatch_bagOf.2 hrest)]
  | miss hall =>
    have hafter : bagOf (t.after items r none).entries = r.onMiss (bagOf t.entries) := by
      cases r with
      | insert key value =>
        show bagOf (t.entries ++ [⟨items, key, value⟩]) = _
        rw [bagOf_middle, List.append_nil]
        rfl
      | lookup key => rfl
      | erase key => rfl
    rw [hafter, Bag.step_iff_of_miss (noMatch_bagOf.2 hall)]
    rfl

/-- The invariant looks only at the keys and the memory of their inputs. -/
theorem Sound.of_sublist {t' : Table α} (h : t.Sound st) (hp : t'.predicate = t.predicate)
    (hsub : (t'.entries.map fun e => (e.items, e.key)).Sublist
      (t.entries.map fun e => (e.items, e.key))) : t'.Sound st := by
  refine ⟨fun e he => ?_, ?_⟩
  · have hmem : (e.items, e.key) ∈ t.entries.map fun e => (e.items, e.key) :=
      hsub.subset (List.mem_map_of_mem he)
    obtain ⟨f, hf, hef⟩ := List.mem_map.1 hmem
    cases e
    cases hef
    rw [hp]
    exact h.items f hf
  · have hapart : (t.entries.map fun e => (e.items, e.key)).Pairwise fun e f =>
        ¬(st.same t.predicate e.2 f.2).Returns true := List.pairwise_map.2 h.apart
    rw [hp]
    exact List.pairwise_map.1 (hapart.sublist hsub)

theorem Sound.after {r : Request α} {items : List HashItem} {found : Option Nat} (h : t.Sound st)
    (hitems : (st.hashInputFor t.predicate r.key).Returns items) (hfound : t.Found st r.key found) :
    (t.after items r found).Sound st := by
  cases hfound with
  | @hit xs e ys hsplit he hrest =>
    refine h.of_sublist (predicate_after t items r _) ?_
    rw [entries_after_hit hsplit, hsplit]
    cases r with
    | insert key value => simp [kept]
    | lookup key => simp [kept]
    | erase key => simp [kept]
  | miss hall =>
    cases r with
    | insert key value =>
      refine ⟨fun e he => ?_, ?_⟩
      · rcases List.mem_append.1 he with he | he
        · exact h.items e he
        · cases List.mem_singleton.1 he
          exact hitems
      · refine List.pairwise_append.2
          ⟨h.apart, List.pairwise_singleton _ _, fun e he f hf hef => ?_⟩
        cases List.mem_singleton.1 hf
        rw [st.same_comm] at hef
        cases hef.unique (hall e he)
    | lookup key => exact h
    | erase key => exact h

theorem Sound.perform_spec {r : Request α} (h : t.Sound st)
    (hkey : st.Hashable t.predicate r.key) :
    ∃ t' answer, (t.perform st r).Returns (t', answer) ∧ t'.predicate = t.predicate ∧
      t'.Sound st ∧ ∀ answer' b,
        Bag.Step (st.same t.predicate) (bagOf t.entries) r answer' b ↔
          answer' = answer ∧ b = bagOf t'.entries := by
  obtain ⟨items, hitems⟩ := hkey
  obtain ⟨found, hfind, hfound⟩ := h.find_spec hitems
  exact ⟨_, _, returns_perform hfind, predicate_after t items r found, h.after hitems hfound,
    fun _ _ => hfound.step_iff items⟩

/-! ### Another store -/

/-- What `equal` looks at below the stored keys is left alone. The other predicates and their inputs
look at no cell. -/
def Undisturbed (st st' : Store) (t : Table α) : Prop :=
  t.predicate = .equal → ∀ e ∈ t.entries, st.AgreeBelow st' e.key

theorem Undisturbed.hashInputFor_eq (h : t.Undisturbed st st') {e : Entry α} (he : e ∈ t.entries) :
    st'.hashInputFor t.predicate e.key = st.hashInputFor t.predicate e.key := by
  cases hp : t.predicate with
  | eq => rfl
  | eqv => rfl
  | equal => exact (h hp e he).hashInput_eq

theorem Undisturbed.same_eq (h : t.Undisturbed st st') {e f : Entry α} (he : e ∈ t.entries)
    (hf : f ∈ t.entries) :
    st'.same t.predicate e.key f.key = st.same t.predicate e.key f.key := by
  cases hp : t.predicate with
  | eq => rfl
  | eqv => rfl
  | equal => exact (h hp e he).isEqual_eq (h hp f hf)

theorem Sound.become (h : t.Sound st) (hcells : t.Undisturbed st st') : t.Sound st' := by
  refine ⟨fun e he => ?_, ?_⟩
  · rw [hcells.hashInputFor_eq he]
    exact h.items e he
  · apply h.apart.imp_of_mem
    intro e f he hf hef
    rwa [hcells.same_eq he hf]

/-! ### Runs -/

/-- All answers, each with the number of entries after it, and the store and the table at
the end. -/
def run : Store → Table α → List (Event α) → Run (List (Option α × Nat) × Store × Table α)
  | st, t, [] => pure ([], st, t)
  | _, t, .become st :: events => run st t events
  | st, t, .ask r :: events => do
    let (t, answer) ← t.perform st r
    let (answers, last) ← run st t events
    return ((answer, t.size) :: answers, last)

/-- What a table is promised: keys can be hashed whenever they are used, and nothing is changed
below the stored ones. -/
def Admissible : Store → Table α → List (Event α) → Prop
  | _, _, [] => True
  | st, t, .become st' :: events => t.Undisturbed st st' ∧ Admissible st' t events
  | st, t, .ask r :: events => st.Hashable t.predicate r.key ∧
      ∀ t' answer, (t.perform st r).Returns (t', answer) → Admissible st t' events

theorem admissible_ask {r : Request α} {t' : Table α} {answer : Option α} {events : List (Event α)}
    (hkey : st.Hashable t.predicate r.key) (h : (t.perform st r).Returns (t', answer))
    (hrest : t'.Admissible st events) : t.Admissible st (.ask r :: events) := by
  refine ⟨hkey, fun u answer' hu => ?_⟩
  cases h.unique hu
  exact hrest

/-- After a run, the table at its end is sound again, and comparing alone allows no other answers
and no other entries. -/
structure Refines (st : Store) (t : Table α) (events : List (Event α))
    (answers : List (Option α × Nat)) (last : Store × Table α) : Prop where
  returns : (t.run st events).Returns (answers, last)
  predicate : last.2.predicate = t.predicate
  sound : last.2.Sound last.1
  history : ∀ answers' b, Bag.History t.predicate st (bagOf t.entries) events answers' b ↔
    answers' = answers ∧ b = bagOf last.2.entries

theorem Sound.exists_refines {events : List (Event α)} (h : t.Sound st)
    (hadm : t.Admissible st events) : ∃ answers last, t.Refines st events answers last := by
  induction events generalizing st t with
  | nil =>
    refine ⟨[], (st, t), ?_⟩
    exact {
      returns := Run.returns_pure.2 rfl
      predicate := rfl
      sound := h
      history := fun _ _ => Bag.history_nil_iff }
  | cons event events ih =>
    cases event with
    | become st' =>
      obtain ⟨answers, last, hrest⟩ := ih (h.become hadm.1) hadm.2
      refine ⟨answers, last, ?_⟩
      exact {
        returns := hrest.returns
        predicate := hrest.predicate
        sound := hrest.sound
        history := fun _ _ => Bag.history_become_iff.trans (hrest.history _ _) }
    | ask r =>
      obtain ⟨t', answer, hperform, hp, hsound, hstep⟩ := h.perform_spec hadm.1
      obtain ⟨answers, last, hrest⟩ := ih hsound (hadm.2 t' answer hperform)
      refine ⟨(answer, t'.size) :: answers, last, ?_⟩
      have hreturns : (t.run st (.ask r :: events)).Returns
          ((answer, t'.size) :: answers, last) := by
        rw [run, Run.returns_bind]
        exact ⟨(t', answer), hperform,
          Run.returns_bind.2 ⟨(answers, last), hrest.returns, Run.returns_pure.2 rfl⟩⟩
      have hhistory : ∀ answers' b,
          Bag.History t.predicate st (bagOf t.entries) (.ask r :: events) answers' b ↔
            answers' = (answer, t'.size) :: answers ∧ b = bagOf last.2.entries := by
        intro answers' b
        have hnext := hrest.history
        rw [hp] at hnext
        rw [Bag.history_ask_iff]
        refine ⟨fun hask => ?_, fun hask => ?_⟩
        · obtain ⟨answer', b', rest, hfirst, hlater, rfl⟩ := hask
          obtain ⟨rfl, rfl⟩ := (hstep answer' b').1 hfirst
          obtain ⟨rfl, rfl⟩ := (hnext rest b).1 hlater
          exact ⟨by rw [card_bagOf]; rfl, rfl⟩
        · obtain ⟨rfl, rfl⟩ := hask
          exact ⟨answer, bagOf t'.entries, answers, (hstep _ _).2 ⟨rfl, rfl⟩,
            (hnext _ _).2 ⟨rfl, rfl⟩, by rw [card_bagOf]; rfl⟩
      exact {
        returns := hreturns
        predicate := hrest.predicate.trans hp
        sound := hrest.sound
        history := hhistory }

/-- NaN is not the same as any key, so it is a new key every time. -/
theorem Sound.insert_nan (h : t.Sound st) {x : Double} (hx : x.isNaN = true) (value : α) :
    ∃ t', (t.insert st (.number x) value).Returns (t', none) ∧
      bagOf t'.entries = (.number x, value) ::ₘ bagOf t.entries := by
  have hself : (st.same t.predicate (.number x) (.number x)).Returns false := by
    have hnan : (!(Value.number x).isNaN) = false := by simp [Value.isNaN, hx]
    exact hnan ▸ st.same_self t.predicate (.number x)
  have hkey : st.Hashable t.predicate (.number x) := by
    cases t.predicate with
    | eq => exact ⟨_, Run.returns_pure.2 rfl⟩
    | eqv => exact ⟨_, Run.returns_pure.2 rfl⟩
    | equal => exact ⟨_, 1, rfl⟩
  have hno : (bagOf t.entries).NoMatch (st.same t.predicate) (.number x) := by
    intro e he
    obtain ⟨b, hb⟩ := hkey.exists_returns_same e.1
    cases b with
    | false => exact hb
    | true =>
      -- NaN would be the same as itself by way of the key.
      have hback : (st.same t.predicate e.1 (.number x)).Returns true := by rwa [st.same_comm]
      cases hself.unique (Store.same_trans hb hback)
  obtain ⟨t', answer, hperform, -, -, hstep⟩ := h.perform_spec (r := .insert (.number x) value) hkey
  obtain ⟨rfl, hbag⟩ := (hstep none _).1 (.miss hno)
  exact ⟨t', hperform, hbag.symm⟩

/-- Whatever is asked of an empty table, and however the program changes other cells meanwhile, the
table answers as an association list that compares keys alone: such a list, in whatever order, could
give no other answers and hold no other entries. At the end at most one stored key matches any
probe, and NaN would be one more. -/
theorem run_refines_association_list (p : Predicate) (st : Store) (events : List (Event α))
    (h : (empty p : Table α).Admissible st events) :
    ∃ answers st' t, ((empty p : Table α).run st events).Returns (answers, st', t) ∧
      (∀ answers' b, Bag.History p st 0 events answers' b ↔
        answers' = answers ∧ b = bagOf t.entries) ∧
      (∀ probe, t.entries.Pairwise fun e f => ¬((st'.same p probe e.key).Returns true ∧
        (st'.same p probe f.key).Returns true)) ∧
      ∀ x value, x.isNaN = true → ∃ t', (t.insert st' (.number x) value).Returns (t', none) ∧
        bagOf t'.entries = (.number x, value) ::ₘ bagOf t.entries := by
  have hempty : (empty p : Table α).Sound st := ⟨by simp [empty], by simp [empty]⟩
  obtain ⟨answers, last, hrun⟩ := hempty.exists_refines h
  obtain ⟨st', t⟩ := last
  have hp : t.predicate = p := hrun.predicate
  have hone := hrun.sound.at_most_one
  rw [hp] at hone
  exact ⟨answers, st', t, hrun.returns, hrun.history, hone, fun _ value hx =>
    hrun.sound.insert_nan hx value⟩

/-- Two lists of the same text, and a text in no list. -/
def twoKeys : Store :=
  ⟨#[.string "k", .pair (.string 0) .nil, .string "k", .pair (.string 2) .nil, .string "v"], .empty⟩

/-- Between the requests the text in no list grows. -/
def twoKeysEvents : List (Event Nat) :=
  [.ask (.insert (.pair 1) 10), .become (twoKeys.appendText 4 "!"), .ask (.insert (.pair 3) 11),
    .ask (.insert (.number ⟨0x7ff8000000000000⟩) 12),
    .ask (.insert (.number ⟨0x7ff8000000000000⟩) 13), .ask (.erase (.pair 1))]

theorem twoKeys_agreeBelow : twoKeys.AgreeBelow (twoKeys.appendText 4 "!") (.pair 1) := by
  apply Store.agreeBelow_modifyCell
  intro w hw
  have hclosed : ∀ u ∈ [Value.pair 1, .string 0, .nil], ∀ w ∈ twoKeys.children u,
      w ∈ [Value.pair 1, .string 0, .nil] := by decide
  have hcells : ∀ w ∈ [Value.pair 1, .string 0, .nil], w.cell? ≠ some 4 := by decide
  exact hcells w (Store.mem_of_reaches hclosed List.mem_cons_self hw)

theorem twoKeysEvents_admissible :
    (empty .equal : Table Nat).Admissible twoKeys twoKeysEvents := by
  refine admissible_ask ⟨_, 3, rfl⟩ ⟨3, rfl⟩ ⟨?_, ?_⟩
  · intro _ e he
    cases List.mem_singleton.1 he
    exact twoKeys_agreeBelow
  refine admissible_ask ⟨_, 3, rfl⟩ ⟨4, rfl⟩ ?_
  refine admissible_ask ⟨_, 3, rfl⟩ ⟨4, rfl⟩ ?_
  refine admissible_ask ⟨_, 3, rfl⟩ ⟨4, rfl⟩ ?_
  refine admissible_ask ⟨_, 3, rfl⟩ ⟨4, rfl⟩ ?_
  trivial

/-- The second list finds the entry of the first, whose key stays; every NaN is another entry. -/
theorem run_refines_association_list_twoKeys :
    (empty .equal : Table Nat).Admissible twoKeys twoKeysEvents ∧
      ∀ answers, (∃ b, Bag.History .equal twoKeys 0 twoKeysEvents answers b) ↔
        answers = [(none, 1), (some 10, 1), (none, 2), (none, 3), (some 11, 2)] := by
  refine ⟨twoKeysEvents_admissible, fun answers => ?_⟩
  obtain ⟨found, st', t, hrun, hhistory, -, -⟩ :=
    run_refines_association_list .equal twoKeys twoKeysEvents twoKeysEvents_admissible
  have hreturns : ∃ last, ((empty .equal : Table Nat).run twoKeys twoKeysEvents).Returns
      ([(none, 1), (some 10, 1), (none, 2), (none, 3), (some 11, 2)], last) := ⟨_, 4, rfl⟩
  obtain ⟨last, hlast⟩ := hreturns
  cases hlast.unique hrun
  constructor
  · rintro ⟨b, hb⟩
    exact ((hhistory _ _).1 hb).1
  · rintro rfl
    exact ⟨_, (hhistory _ _).2 ⟨rfl, rfl⟩⟩

end Table

end Sameness
