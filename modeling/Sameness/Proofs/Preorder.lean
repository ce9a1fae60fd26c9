import Sameness.Proofs.Cycles
import Sameness.Proofs.HashShape

/-!
The input for a hash function by recursion.

Hashing works through one list of what is still to be hashed, in which the parts of one structure
stand before what is left of another. All the same the items of a structure are its own and then
those of its parts, each of them in one piece and as often as it is held.
-/

namespace Sameness

namespace Store

variable {st : Store} {v : Value}

/-- The items of a structure from the top down. The recursion is on what stands below, so there must
be an end to it. -/
def preorder (st : Store) (v : Value) (h : st.Acyclic v) : List HashItem :=
  match v with
  | .pair a =>
    .byte Tag.pair.code ::
      (st.preorder (st.parts a).1 (h.inv (by simp [children])) ++
        st.preorder (st.parts a).2 (h.inv (by simp [children])))
  | .vector a =>
    .byte Tag.vector.code :: .count (st.elements a).size ::
      (st.elements a).toList.attach.flatMap fun w => st.preorder w.1 (h.inv w.2)
  | .boolVector a =>
    .byte Tag.boolVector.code :: .count (st.bits a).size :: (st.bits a).toList.map .ofBool
  | .string a => [.byte Tag.string.code, .utf8 (st.text a), .endOfText]
  | v => v.hashItems
termination_by (⟨v, h⟩ : {v // Acc (fun w u => w ∈ st.children u) v})
decreasing_by
  · show (st.parts a).1 ∈ st.children (.pair a)
    simp [children]
  · show (st.parts a).2 ∈ st.children (.pair a)
    simp [children]
  · exact w.2

/-- The preorders of what stands right below a value. -/
def preordersBelow (st : Store) (v : Value) (h : st.Acyclic v) : List (List HashItem) :=
  (st.children v).attach.map fun w => st.preorder w.1 (h.inv w.2)

theorem preorder_eq (h : st.Acyclic v) :
    st.preorder v h = st.headItems v ++ (st.preordersBelow v h).flatten := by
  rw [preordersBelow, ← List.flatMap_def]
  unfold preorder
  cases v with
  | pair a =>
    show _ = _ ++ [_, _].attach.flatMap _
    simp [headItems, children, Value.tag]
  | vector a => rfl
  | _ => simp [headItems, children, Value.tag]

theorem forall₂_preordersBelow {R : Value → List HashItem → Prop} (h : st.Acyclic v)
    (hR : ∀ w (hw : w ∈ st.children v), R w (st.preorder w (h.inv hw))) :
    List.Forall₂ R (st.children v) (st.preordersBelow v h) := by
  have hattach : List.Forall₂ R ((st.children v).attach.map Subtype.val)
      (st.preordersBelow v h) := by
    rw [preordersBelow, List.forall₂_map_left_iff, List.forall₂_map_right_iff, List.forall₂_same]
    exact fun w _ => hR w.1 w.2
  rwa [List.attach_map_subtype_val] at hattach

theorem yields_preorder (h : st.Acyclic v) :
    Run.Yields st.headItems st.children [v] (st.preorder v h) := by
  -- What a visit finds are the children, which the induction is on, so each of them comes out whole
  induction h with
  | intro v hbelow ih =>
    have h : st.Acyclic v := .intro v hbelow
    show Run.Yields st.headItems st.children [v] (st.preorder v h)
    rw [preorder_eq, Run.yields_singleton_iff]
    exact ⟨_, rfl, Run.yields_flatten (forall₂_preordersBelow h ih)⟩

theorem returns_hashInput_preorder (h : st.Acyclic v) :
    (st.hashInput v).Returns (st.preorder v h) :=
  returns_hashInput_iff.2 (yields_preorder h)

/-- Without cycles hashing comes to its end, with the items that the recursion gives. Those of a
structure are its own, followed by all that is fed for each of its parts. -/
theorem hashInput_is_preorder (h : st.Acyclic v) :
    (st.hashInput v).Returns (st.preorder v h) ∧
      ∃ below, List.Forall₂ (fun w items => (st.hashInput w).Returns items) (st.children v) below ∧
        st.preorder v h = st.headItems v ++ below.flatten :=
  ⟨returns_hashInput_preorder h, st.preordersBelow v h,
    forall₂_preordersBelow h fun _ hw => returns_hashInput_preorder (h.inv hw), preorder_eq h⟩

/-- A vector that holds a pair twice, and in between a procedure that is bound to it. -/
def heldTwice : Store :=
  ⟨#[.string "ab", .boolVector #[true, false], .pair (.string 0) (.boolVector 1),
    .vector #[.pair 2, .closure 7 (.pair 2), .pair 2]], .empty⟩

theorem hashInput_is_preorder_heldTwice :
    let part : List HashItem :=
      [.byte 7, .byte 10, .utf8 "ab", .byte 255, .byte 9, .count 2, .byte 1, .byte 0]
    let procedure : List HashItem := [.byte 6, .byte 1, .word64 7, .byte 1, .byte 7, .cell 2]
    ∃ h : heldTwice.Acyclic (.vector 3),
      (heldTwice.hashInput (.vector 3)).Returns (heldTwice.preorder (.vector 3) h) ∧
      heldTwice.preorder (.vector 3) h =
        [.byte 8, .count 3] ++ [part, procedure, part].flatten := by
  intro part procedure
  have hfounded : heldTwice.Founded := by decide
  have h : heldTwice.Acyclic (.vector 3) := hfounded.acyclic _
  obtain ⟨hreturns, -⟩ := hashInput_is_preorder h
  exact ⟨h, hreturns, hreturns.unique ⟨8, by decide⟩⟩

end Store

end Sameness
