import Sameness.HashInput
import Sameness.Proofs.Alike

/-!
Values that are the same have the same input for a hash function.
-/

namespace Sameness

/-- The items for a hash function that a shell stands for. -/
def Shell.items : Shell → List HashItem
  | pair => [.byte Tag.pair.code]
  | vector n => [.byte Tag.vector.code, .count n]
  | boolVector bits => .byte Tag.boolVector.code :: .count bits.size :: bits.toList.map .ofBool
  | string text => [.byte Tag.string.code, .utf8 text, .endOfText]

namespace Store

variable {st : Store}

theorem headItems_of_shell? {v : Value} {s : Shell} (h : st.shell? v = some s) :
    st.headItems v = s.items := by
  cases v <;> cases h <;> rfl

theorem headItems_eq_hashItems {v : Value} (h : st.shell? v = none) :
    st.headItems v = v.hashItems := by
  cases v with
  | pair | vector | boolVector | string => cases h
  | _ => rfl

/-! ### The same steps -/

theorem headItems_of_isEqv (st : Store) {v w : Value} (h : v.isEqv w = true) :
    st.headItems v = st.headItems w ∧ (v = w ∨ st.children v = [] ∧ st.children w = []) := by
  rcases Value.isEqv_iff.1 h with ⟨rfl, -⟩ | ⟨hv, hw⟩
  · exact ⟨rfl, .inl rfl⟩
  · have hsv : st.shell? v = none := shell?_of_isZero hv
    have hsw : st.shell? w = none := shell?_of_isZero hw
    refine ⟨?_, .inr ⟨children_eq_nil hsv, children_eq_nil hsw⟩⟩
    rw [headItems_eq_hashItems hsv, headItems_eq_hashItems hsw, Value.hashItems_of_isEqv h]

/-- Below one and the same cell there may be NaN, which is not alike to itself. -/
def AlikeOrSame (st : Store) (v w : Value) : Prop := v = w ∨ st.Alike v w

theorem forall₂_alikeOrSame (st : Store) (vs : List Value) :
    List.Forall₂ st.AlikeOrSame vs vs :=
  List.forall₂_same.2 fun _ _ => .inl rfl

theorem visitHash_congr {v w : Value} (h : st.AlikeOrSame v w) (items : Array HashItem) :
    (st.visitHash items v).1 = (st.visitHash items w).1 ∧
      List.Forall₂ st.AlikeOrSame (st.visitHash items v).2 (st.visitHash items w).2 := by
  rcases h with rfl | h
  · exact ⟨rfl, forall₂_alikeOrSame st _⟩
  · cases h with
    | same h =>
      obtain ⟨hhead, hbelow⟩ := headItems_of_isEqv st h
      refine ⟨by rw [visitHash, visitHash, hhead], ?_⟩
      -- Only the two zeros are `isEqv` without being one value, and nothing stands below them.
      rcases hbelow with rfl | ⟨hv, hw⟩
      · exact forall₂_alikeOrSame st _
      · rw [visitHash, visitHash, hv, hw]
        exact .nil
    | @inside _ _ s hv hw h =>
      refine ⟨by rw [visitHash, visitHash, headItems_of_shell? hv, headItems_of_shell? hw], ?_⟩
      exact forall₂_children (hv.trans hw.symm) fun p hp => .inr (h p hp)

theorem Alike.hashInput_eq {v w : Value} (h : st.Alike v w) : st.hashInput v = st.hashInput w := by
  have hsweep : Run.sweep st.visitHash #[] [v] = Run.sweep st.visitHash #[] [w] :=
    Run.sweep_congr (R := st.AlikeOrSame) (fun items _ _ hvw => visitHash_congr hvw items) #[]
      (.cons (.inr h) .nil)
  rw [hashInput, hashInput, hsweep]

/-- Values that are `isEqv` feed the same to a hash function, and so do values that are `isEqual`:
if the input of one of them comes to its end, so does that of the other, with the same items. -/
theorem hash_consistent (st : Store) (v w : Value) :
    (v.isEqv w = true → v.hashItems = w.hashItems) ∧
      ((st.isEqual v w).Returns true → ∀ items,
        (st.hashInput v).Returns items ↔ (st.hashInput w).Returns items) := by
  refine ⟨Value.hashItems_of_isEqv, fun h items => ?_⟩
  rw [(isEqual_returns_true_iff.1 h).hashInput_eq]

/-- Two vectors that share a pair with NaN in it, hold zeros of opposite sign and the same procedure
with a bound procedure for its context. -/
def twinVectors : Store :=
  let procedure := .closure 7 (.closure 8 (.number ⟨0x7ff8000000000000⟩))
  ⟨#[.pair (.number ⟨0x7ff8000000000000⟩) .nil,
    .vector #[.pair 0, .number ⟨0⟩, procedure],
    .vector #[.pair 0, .number ⟨0x8000000000000000⟩, procedure]], .empty⟩

theorem hash_consistent_twinVectors :
    (Value.number ⟨0⟩).hashItems = (Value.number ⟨0x8000000000000000⟩).hashItems ∧
      ∃ items, (twinVectors.hashInput (.vector 1)).Returns items ∧
        (twinVectors.hashInput (.vector 2)).Returns items := by
  have hzeros : (Value.number ⟨0⟩).isEqv (.number ⟨0x8000000000000000⟩) = true := by decide
  have hequal : (twinVectors.isEqual (.vector 1) (.vector 2)).Returns true := ⟨4, by decide⟩
  have hends : ((twinVectors.hashInput (.vector 1)).within 6).isSome := by decide
  obtain ⟨items, hitems⟩ := Option.isSome_iff_exists.1 hends
  have hv : (twinVectors.hashInput (.vector 1)).Returns items := ⟨6, hitems⟩
  exact ⟨(hash_consistent twinVectors _ _).1 hzeros, items, hv,
    ((hash_consistent twinVectors _ _).2 hequal items).1 hv⟩

end Store

end Sameness
