import Mathlib.Data.Multiset.AddSub
import Sameness.Equivalence

/-!
Association lists as bags of entries, in no order.

They answer requests by comparing keys alone, so they say what hash tables are to answer: of the
entries whose keys match it may be any that is used, and the comparisons are those of the store at
the time.
-/

namespace Sameness

variable {α : Type}

/-- What can be asked of a table. -/
inductive Request (α : Type) where
  | insert (key : Value) (value : α)
  | lookup (key : Value)
  | erase (key : Value)

/-- What happens to a table and around it: between two requests the program may leave another
store. -/
inductive Event (α : Type) where
  | ask (request : Request α)
  | become (st : Store)

abbrev Bag (α : Type) := Multiset (Value × α)

namespace Request

def key : Request α → Value
  | insert key _ | lookup key | erase key => key

/-- What becomes of a bag with a matching entry and a rest. The stored key stays. -/
def onHit (k : Value) (old : α) (rest : Bag α) : Request α → Bag α
  | insert _ new => (k, new) ::ₘ rest
  | lookup _ => (k, old) ::ₘ rest
  | erase _ => rest

/-- What becomes of a bag without a matching entry. -/
def onMiss (b : Bag α) : Request α → Bag α
  | insert key value => (key, value) ::ₘ b
  | lookup _ | erase _ => b

end Request

namespace Bag

def NoMatch (same : Value → Value → Run Bool) (key : Value) (b : Bag α) : Prop :=
  ∀ e ∈ b, (same key e.1).Returns false

/-- One request, with its answer and the bag after it. The answer is the value that was stored. -/
inductive Step (same : Value → Value → Run Bool) (b : Bag α) (r : Request α) :
    Option α → Bag α → Prop
  | hit {k : Value} {old : α} {rest : Bag α} (hk : (same r.key k).Returns true)
    (hb : b = (k, old) ::ₘ rest) : Step same b r (some old) (r.onHit k old rest)
  | miss (h : NoMatch same r.key b) : Step same b r none (r.onMiss b)

/-- The answers to all requests, each with the number of entries after it, and the bag at
the end. -/
inductive History (p : Predicate) :
    Store → Bag α → List (Event α) → List (Option α × Nat) → Bag α → Prop
  | nil {st : Store} {b : Bag α} : History p st b [] [] b
  | become {st st' : Store} {b last : Bag α} {events : List (Event α)}
    {answers : List (Option α × Nat)} (h : History p st' b events answers last) :
    History p st b (.become st' :: events) answers last
  | ask {st : Store} {b b' last : Bag α} {r : Request α} {events : List (Event α)}
    {answer : Option α} {answers : List (Option α × Nat)}
    (hstep : Step (st.same p) b r answer b') (h : History p st b' events answers last) :
    History p st b (.ask r :: events) ((answer, b'.card) :: answers) last

theorem history_nil_iff {p : Predicate} {st : Store} {b last : Bag α}
    {answers : List (Option α × Nat)} :
    History p st b [] answers last ↔ answers = [] ∧ last = b := by
  refine ⟨fun h => ?_, fun h => h.1 ▸ h.2 ▸ .nil⟩
  cases h
  exact ⟨rfl, rfl⟩

theorem history_become_iff {p : Predicate} {st st' : Store} {b last : Bag α}
    {events : List (Event α)} {answers : List (Option α × Nat)} :
    History p st b (.become st' :: events) answers last ↔
      History p st' b events answers last := by
  refine ⟨fun h => ?_, .become⟩
  cases h with
  | become h => exact h

theorem history_ask_iff {p : Predicate} {st : Store} {b last : Bag α} {r : Request α}
    {events : List (Event α)} {answers : List (Option α × Nat)} :
    History p st b (.ask r :: events) answers last ↔
      ∃ answer b' rest, Step (st.same p) b r answer b' ∧ History p st b' events rest last ∧
        answers = (answer, b'.card) :: rest := by
  refine ⟨fun h => ?_, fun h => ?_⟩
  · cases h with
    | ask hstep h => exact ⟨_, _, _, hstep, h, rfl⟩
  · obtain ⟨answer, b', rest, hstep, h, rfl⟩ := h
    exact .ask hstep h

/-! ### Where at most one entry matches -/

variable {same : Value → Value → Run Bool} {r : Request α} {answer : Option α} {b b' : Bag α}

theorem step_iff_of_hit {k : Value} {old : α} {rest : Bag α} (hk : (same r.key k).Returns true)
    (hrest : NoMatch same r.key rest) :
    Step same ((k, old) ::ₘ rest) r answer b' ↔ answer = some old ∧ b' = r.onHit k old rest := by
  refine ⟨fun h => ?_, fun h => h.1 ▸ h.2 ▸ .hit hk rfl⟩
  cases h with
  | @hit k' old' rest' hk' hb =>
    have hmem : (k', old') ∈ (k, old) ::ₘ rest := hb ▸ Multiset.mem_cons_self _ _
    rcases Multiset.mem_cons.1 hmem with heq | hmem
    · cases heq
      rw [(Multiset.cons_inj_right _).1 hb]
      exact ⟨rfl, rfl⟩
    · cases hk'.unique (hrest _ hmem)
  | miss h => cases hk.unique (h _ (Multiset.mem_cons_self _ _))

theorem step_iff_of_miss (h : NoMatch same r.key b) :
    Step same b r answer b' ↔ answer = none ∧ b' = r.onMiss b := by
  refine ⟨fun hstep => ?_, fun hstep => hstep.1 ▸ hstep.2 ▸ .miss h⟩
  cases hstep with
  | @hit k old rest hk hb =>
    have hmem : (k, old) ∈ b := hb ▸ Multiset.mem_cons_self _ _
    cases hk.unique (h _ hmem)
  | miss => exact ⟨rfl, rfl⟩

end Bag

end Sameness
