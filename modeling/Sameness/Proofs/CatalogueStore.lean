import Sameness.Catalogue
import Sameness.Proofs.Cycles
import Sameness.Proofs.Interning
import Sameness.Proofs.OneLine

/-!
The store that the catalogue is made in.

To make a new value out of old ones, or of a name of one line, leaves a store in order that was so
before. The catalogue makes all its values in that way.
-/

namespace Sameness

open Lines (Unbroken)

namespace Store

variable {st : Store} {α β : Type} {P : α → Prop} {Q : β → Prop}

/-- Every cell holds only what was there before it, and no name goes over more than one line. -/
structure Orderly (st : Store) : Prop where
  founded : st.Founded
  names : st.UnbrokenNames

theorem orderly_empty : empty.Orderly where
  founded := by decide
  names := ⟨by simp [empty, SymbolTable.empty], by simp [empty]⟩

theorem Orderly.push {c : Cell} (h : st.Orderly)
    (hvalues : ∀ w ∈ c.values, ∀ b ∈ w.cell?, b < st.cells.size)
    (hhost : ∀ typeName payload, c = .host typeName payload → Unbroken typeName) :
    (st.push c).Orderly where
  founded := h.founded.push hvalues
  names := by
    refine ⟨h.names.symbols, fun typeName payload hcell => ?_⟩
    rcases Array.mem_push.1 hcell with hold | hnew
    · exact h.names.hosts typeName payload hold
    · exact hhost typeName payload hnew.symm

theorem Orderly.intern {name : String} (h : st.Orderly) (hname : Unbroken name) :
    Orderly { st with symbols := (st.symbols.intern name).2 } where
  founded := h.founded
  names := by
    refine ⟨fun other hother => ?_, h.names.hosts⟩
    have hnames := SymbolTable.names_perform st.symbols (.intern name)
    rw [← Array.mem_toList_iff] at hother
    rw [show (st.symbols.intern name).2 = (st.symbols.perform (.intern name)).2 from rfl,
      hnames, List.mem_append] at hother
    rcases hother with hold | hnew
    · exact h.names.symbols other (Array.mem_toList_iff.1 hold)
    · have heq : other = name := by
        simpa [SymbolTable.Operation.interned?] using (List.mem_filter.1 hnew).1
      exact heq ▸ hname

/-! ### Programs -/

/-- A store in order stays so, and the answer is as it should be. -/
def Keeps (m : StateM Store α) (P : α → Prop) : Prop :=
  ∀ st : Store, st.Orderly → (m.run st).2.Orderly ∧ P (m.run st).1

theorem keeps_pure {a : α} (h : P a) : Keeps (pure a) P := fun _ hst => ⟨hst, h⟩

theorem Keeps.bind {m : StateM Store α} {f : α → StateM Store β} (hm : Keeps m P)
    (hf : ∀ a, P a → Keeps (f a) Q) : Keeps (m >>= f) Q := by
  intro st hst
  obtain ⟨hst', ha⟩ := hm st hst
  exact hf _ ha _ hst'

theorem keeps_cons {first rest : Value} (hfirst : first.cell? = none) (hrest : rest.cell? = none) :
    Keeps (cons first rest) fun _ => True :=
  fun _ hst => ⟨hst.push (by simp [Cell.values, hfirst, hrest]) nofun, trivial⟩

theorem keeps_list {v : Value} (hv : v.cell? = none) : Keeps (list [v]) fun _ => True :=
  keeps_cons hv rfl

theorem keeps_vector {elements : Array Value} (h : ∀ v ∈ elements.toList, v.cell? = none) :
    Keeps (vector elements) fun _ => True := by
  intro st hst
  refine ⟨hst.push ?_ nofun, trivial⟩
  intro v hv b hb
  rw [h v hv] at hb
  cases hb

theorem keeps_boolVector (bits : Array Bool) : Keeps (boolVector bits) fun _ => True :=
  fun _ hst => ⟨hst.push nofun nofun, trivial⟩

theorem keeps_string (text : String) : Keeps (string text) fun _ => True :=
  fun _ hst => ⟨hst.push nofun nofun, trivial⟩

theorem keeps_host {typeName : String} (payload : Payload) (h : Unbroken typeName) :
    Keeps (host typeName payload) fun _ => True := by
  intro st hst
  refine ⟨hst.push nofun ?_, trivial⟩
  rintro _ _ ⟨⟩
  exact h

theorem keeps_symbol {name : String} (h : Unbroken name) :
    Keeps (symbol name) fun v => v.cell? = none :=
  fun _ hst => ⟨hst.intern h, rfl⟩

end Store

namespace Catalogue

open Store

theorem keeps_fresh {make : StateM Store Value} {P : Value → Prop} (name : String)
    (h : Keeps make P) : Keeps (fresh name make) fun c => c.name = name :=
  h.bind fun _ _ => h.bind fun _ _ => keeps_pure rfl

theorem cell?_number (n : Nat) : (number n).cell? = none := rfl

/-- Here a vector holds one that was made right before it. -/
theorem keeps_nested (leaf : Nat) : Keeps (nested leaf) fun _ => True := by
  intro st hst
  have hinner : (st.push (.vector #[number 2, number leaf])).Orderly :=
    hst.push (by simp [Cell.values, cell?_number]) nofun
  refine ⟨hinner.push ?_ nofun, trivial⟩
  simp only [Cell.values, List.forall_mem_cons]
  refine ⟨by simp [cell?_number], ?_, nofun⟩
  rintro _ ⟨⟩
  simp [Store.push]

theorem keeps_cases : Keeps cases fun cs => ∀ c ∈ cs, Unbroken c.name := by
  unfold cases
  refine (keeps_cons rfl rfl).bind fun pair _ => ?_
  refine (keeps_symbol (by decide)).bind fun x hx => ?_
  refine (keeps_vector (by simp [hx, cell?_number])).bind fun environment _ => ?_
  refine (keeps_host .unit (by decide)).bind fun channel _ => ?_
  refine (keeps_fresh _ (keeps_symbol (by decide))).bind fun interned hinterned => ?_
  refine (keeps_symbol (by decide)).bind fun car _ => ?_
  refine (keeps_symbol (by decide)).bind fun cdr _ => ?_
  refine (keeps_fresh _ (keeps_cons rfl rfl)).bind fun pairs hpairs => ?_
  refine (keeps_fresh _ (keeps_nested 3)).bind fun vectors hvectors => ?_
  refine (keeps_nested 3).bind fun three _ => ?_
  refine (keeps_nested 4).bind fun four _ => ?_
  refine (keeps_vector (by simp [cell?_number])).bind fun short _ => ?_
  refine (keeps_vector (by simp [cell?_number])).bind fun long _ => ?_
  refine (keeps_fresh _ (keeps_boolVector _)).bind fun bits hbits => ?_
  refine (keeps_list rfl).bind fun list _ => ?_
  refine (keeps_vector (by simp [cell?_number])).bind fun vector _ => ?_
  refine (keeps_fresh _ (keeps_string "abc")).bind fun strings hstrings => ?_
  refine (keeps_vector (by simp)).bind fun environment' _ => ?_
  refine (keeps_vector (by simp)).bind fun environment'' _ => ?_
  apply keeps_pure
  simp only [List.forall_mem_cons, List.not_mem_nil, IsEmpty.forall_iff, implies_true, twice,
    hinterned, hpairs, hvectors, hbits, hstrings]
  decide

/-- The cases, in order, and the store that they are in. -/
def all : List Case := (cases.run .empty).1

def store : Store := (cases.run .empty).2

theorem run_cases : cases.run .empty = (all, store) := Prod.mk.eta.symm

theorem store_orderly : store.Orderly := (keeps_cases .empty orderly_empty).1

theorem unbroken_name {c : Case} (h : c ∈ all) : Unbroken c.name :=
  (keeps_cases .empty orderly_empty).2 c h

theorem acyclic (v : Value) : store.Acyclic v := store_orderly.founded.acyclic v

end Catalogue

end Sameness
