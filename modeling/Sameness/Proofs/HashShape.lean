import Sameness.Proofs.Reach
import Sameness.Proofs.Yield

/-!
What can be read back from the input for a hash function: all but the sign of a zero, and that NaN
is not the same as itself.

No tag, size or end may be missing for that. The items of a value tell how they go on, so the items
of one value are never the beginning of those of another.
-/

namespace Sameness

theorem Tag.code_injective : Function.Injective Tag.code := by
  intro s t h
  cases s <;> cases t <;> first | rfl | cases h

theorem Builtin.index_injective : Function.Injective Builtin.index := by
  intro b c h
  have hfind : ∀ d : Builtin, all[d.index]? = some d := fun d => List.getElem?_idxOf (mem_all d)
  have hbc : some b = some c := by rw [← hfind b, h, hfind c]
  exact Option.some.inj hbc

theorem HashItem.ofBool_injective : Function.Injective HashItem.ofBool := by
  intro b c h
  cases b <;> cases c <;> first | rfl | cases h

theorem Double.normalBits_eq_iff {x y : Double} :
    x.normalBits = y.normalBits ↔ x = y ∨ x.isZero = true ∧ y.isZero = true := by
  have hbits : x.bits = y.bits ↔ x = y := by
    cases x
    cases y
    simp
  have hzero : ∀ z : Double, z.isZero = false → z.bits ≠ 0 := by
    intro z hz h
    simp [isZero, magnitude, h] at hz
  unfold normalBits
  cases hx : x.isZero <;> cases hy : y.isZero
  · simp [hbits]
  · have hxy : x ≠ y := by
      rintro rfl
      exact Bool.noConfusion (hx.symm.trans hy)
    simp [hzero x hx, hxy]
  · have hxy : x ≠ y := by
      rintro rfl
      exact Bool.noConfusion (hx.symm.trans hy)
    simp [(hzero y hy).symm, hxy]
  · simp

/-! ### Atoms and contexts -/

namespace Value

/-- The same but for the sign of a zero. NaN agrees with itself, a procedure with one of the same
code whose context agrees with its own. -/
inductive Agree : Value → Value → Prop
  | refl (v : Value) : Agree v v
  | zeros {x y : Double} (hx : x.isZero = true) (hy : y.isZero = true) :
    Agree (.number x) (.number y)
  | closure (id : UInt64) {c d : Value} (h : Agree c d) : Agree (.closure id c) (.closure id d)

/-- Bound procedures that differ in the sign of a zero, which is the context of both or of the
procedures that are. -/
inductive OppositeContexts : Value → Value → Prop
  | zeros (id : UInt64) {c d : Value} (h : c.OppositeZeros d) :
    OppositeContexts (.closure id c) (.closure id d)
  | nested (id : UInt64) {c d : Value} (h : OppositeContexts c d) :
    OppositeContexts (.closure id c) (.closure id d)

theorem hashItems_eq_cons (v : Value) : v.hashItems = .byte v.tag.code :: v.hashItems.tail := by
  cases v <;> rfl

theorem Agree.hashItems_eq {v w : Value} (h : v.Agree w) : v.hashItems = w.hashItems := by
  induction h with
  | refl v => rfl
  | @zeros x y hx hy =>
    have hbits : x.normalBits = y.normalBits := Double.normalBits_eq_iff.2 (.inr ⟨hx, hy⟩)
    simp [hashItems, tag, hbits]
  | closure id _ ih => simp [hashItems, tag, ih]

theorem agree_number {x y : Double} (h : x.normalBits = y.normalBits) :
    Agree (.number x) (.number y) := by
  rcases Double.normalBits_eq_iff.1 h with rfl | ⟨hx, hy⟩
  · exact .refl _
  · exact .zeros hx hy

/-- The tag comes first. -/
theorem tag_of_hashItems_append {v w : Value} {s t : List HashItem}
    (h : v.hashItems ++ s = w.hashItems ++ t) :
    v.tag = w.tag ∧ v.hashItems.tail ++ s = w.hashItems.tail ++ t := by
  rw [hashItems_eq_cons v, hashItems_eq_cons w] at h
  injection h with htag hrest
  exact ⟨Tag.code_injective (HashItem.byte.inj htag), hrest⟩

/-- The items tell where they end. -/
theorem agree_of_hashItems_append {v w : Value} {s t : List HashItem}
    (h : v.hashItems ++ s = w.hashItems ++ t) : v.Agree w ∧ s = t := by
  -- Contexts are the only values inside, so the induction is on how deep they nest.
  induction v generalizing w with
  | nil | unspecified =>
    obtain ⟨htag, h⟩ := tag_of_hashItems_append h
    cases w <;> cases htag
    exact ⟨.refl _, h⟩
  | boolean b =>
    obtain ⟨htag, h⟩ := tag_of_hashItems_append h
    cases w <;> cases htag
    injection h with hitem hrest
    exact ⟨HashItem.ofBool_injective hitem ▸ .refl _, hrest⟩
  | number x =>
    obtain ⟨htag, h⟩ := tag_of_hashItems_append h
    cases w <;> cases htag
    injection h with hitem hrest
    exact ⟨agree_number (HashItem.word64.inj hitem), hrest⟩
  | character c =>
    obtain ⟨htag, h⟩ := tag_of_hashItems_append h
    cases w <;> cases htag
    injection h with hitem hrest
    exact ⟨Char.ext (HashItem.word32.inj hitem) ▸ .refl _, hrest⟩
  | symbol i =>
    obtain ⟨htag, h⟩ := tag_of_hashItems_append h
    cases w <;> cases htag
    injection h with hitem hrest
    exact ⟨HashItem.symbol.inj hitem ▸ .refl _, hrest⟩
  | builtin b =>
    obtain ⟨htag, h⟩ := tag_of_hashItems_append h
    cases w <;> cases htag <;> simp [hashItems, HashItem.ofBool] at h
    exact ⟨Builtin.index_injective h.1 ▸ .refl _, h.2⟩
  | code i =>
    obtain ⟨htag, h⟩ := tag_of_hashItems_append h
    cases w <;> cases htag <;> simp [hashItems, HashItem.ofBool] at h
    exact ⟨h.1 ▸ .refl _, h.2⟩
  | closure i c ih =>
    obtain ⟨htag, htail⟩ := tag_of_hashItems_append h
    cases w <;> cases htag <;> simp [hashItems, HashItem.ofBool] at htail
    obtain ⟨rfl, hitems⟩ := htail
    obtain ⟨hcontext, hrest⟩ := ih hitems
    exact ⟨.closure i hcontext, hrest⟩
  | pair a | vector a | boolVector a | string a | host a =>
    obtain ⟨htag, h⟩ := tag_of_hashItems_append h
    cases w <;> cases htag
    injection h with hitem hrest
    exact ⟨HashItem.cell.inj hitem ▸ .refl _, hrest⟩

/-- Values that agree are the same, unless they are NaN or hold zeros of opposite sign where
contexts are. -/
theorem Agree.isEqv_or {v w : Value} (h : v.Agree w) :
    v.isEqv w = true ∨ (∃ x, x.isNaN = true ∧ v = number x ∧ w = number x) ∨
      v.OppositeContexts w := by
  have hcontexts : ∀ {c d : Value}, c.Agree d →
      c = d ∨ c.OppositeZeros d ∨ c.OppositeContexts d := by
    intro c d hcd
    induction hcd with
    | refl c => exact .inl rfl
    | @zeros x y hx hy =>
      by_cases hxy : number x = number y
      · exact .inl hxy
      · exact .inr (.inl (oppositeZeros_iff.2 ⟨hxy, hx, hy⟩))
    | closure i _ ih =>
      rcases ih with rfl | hzeros | hopposite
      · exact .inl rfl
      · exact .inr (.inr (.zeros i hzeros))
      · exact .inr (.inr (.nested i hopposite))
  rcases hcontexts h with rfl | hzeros | hopposite
  · cases hv : v.isNaN with
    | false => exact .inl (isEqv_iff.2 (.inl ⟨rfl, hv⟩))
    | true =>
      cases v with
      | number x => exact .inr (.inl ⟨x, hv, rfl, rfl⟩)
      | _ => cases hv
  · exact .inl (isEqv_iff.2 (.inr (oppositeZeros_iff.1 hzeros).2))
  · exact .inr (.inr hopposite)

end Value

/-! ### Shapes -/

theorem Shell.items_append {r r' : Shell} {s t : List HashItem}
    (h : r.items ++ s = r'.items ++ t) : r = r' ∧ s = t := by
  cases r with
  | pair =>
    cases r' with
    | pair => exact ⟨rfl, List.append_cancel_left h⟩
    | _ => cases h
  | vector m =>
    cases r' with
    | vector n =>
      injection h with _ h
      injection h with hsize hrest
      exact ⟨congrArg vector (HashItem.count.inj hsize), hrest⟩
    | _ => cases h
  | boolVector bs =>
    cases r' with
    | boolVector cs =>
      injection h with _ h
      injection h with hsize hrest
      have hlength : (bs.toList.map HashItem.ofBool).length =
          (cs.toList.map HashItem.ofBool).length := by
        simpa using HashItem.count.inj hsize
      obtain ⟨hbits, hrest⟩ := List.append_inj hrest hlength
      have hbits : bs.toList = cs.toList := HashItem.ofBool_injective.list_map hbits
      exact ⟨congrArg boolVector (Array.toList_inj.1 hbits), hrest⟩
    | _ => cases h
  | string u =>
    cases r' with
    | string u' =>
      injection h with _ h
      injection h with htext h
      injection h with _ hrest
      exact ⟨congrArg string (HashItem.utf8.inj htext), hrest⟩
    | _ => cases h

namespace Store

variable {st : Store}

/-- The same shape, down to atoms that agree: equal tags, sizes and texts place by place, and each
object of the host in its own places. -/
inductive SameShape (st : Store) : Value → Value → Prop
  | atom {v w : Value} (hv : st.shell? v = none) (hw : st.shell? w = none) (h : v.Agree w) :
    SameShape st v w
  | inside {v w : Value} {s : Shell} (hv : st.shell? v = some s) (hw : st.shell? w = some s)
    (h : ∀ p ∈ (st.children v).zip (st.children w), SameShape st p.1 p.2) : SameShape st v w

/-- `q` is at some place below `p`, the same place on both sides. -/
def Corresponds (st : Store) : Value × Value → Value × Value → Prop :=
  Relation.ReflTransGen fun p q => q ∈ (st.children p.1).zip (st.children p.2)

/-! ### The items of a structure -/

theorem returns_hashInput_iff {v : Value} {items : List HashItem} :
    (st.hashInput v).Returns items ↔ Run.Yields st.headItems st.children [v] items := by
  have hvisit : ∀ (out : List HashItem) (x : Value),
      st.visitHash out.toArray x = ((out ++ st.headItems x).toArray, st.children x) := by
    intro out x
    simp [visitHash]
  have hsweep : ∀ a, (Run.sweep st.visitHash #[] [v]).Returns a ↔
      ∃ out, Run.Yields st.headItems st.children [v] out ∧ a = ([] ++ out).toArray :=
    fun _ => Run.returns_sweep_iff_yields hvisit
  simp [hashInput, hsweep]

theorem Acyclic.exists_returns_hashInput {v : Value} (h : st.Acyclic v) :
    ∃ items, (st.hashInput v).Returns items := by
  obtain ⟨items, hitems⟩ := Run.exists_yields_of_acc h
  exact ⟨items, returns_hashInput_iff.2 hitems⟩

theorem headItems_eq_cons (st : Store) (v : Value) :
    st.headItems v = .byte v.tag.code :: (st.headItems v).tail := by
  cases v <;> rfl

theorem isSome_shell?_congr {v w : Value} (h : v.tag = w.tag) :
    (st.shell? v).isSome = (st.shell? w).isSome := by
  cases v <;> cases w <;> cases h <;> rfl

/-- The items of a value itself tell its shell, or what atom it is, and where they end. -/
theorem headItems_append {v w : Value} {s t : List HashItem}
    (h : st.headItems v ++ s = st.headItems w ++ t) :
    st.shell? v = st.shell? w ∧ (st.shell? v = none → v.Agree w) ∧ s = t := by
  have htag : v.tag = w.tag := by
    rw [headItems_eq_cons st v, headItems_eq_cons st w] at h
    injection h with h
    exact Tag.code_injective (HashItem.byte.inj h)
  have hsome : (st.shell? v).isSome = (st.shell? w).isSome := isSome_shell?_congr htag
  cases hv : st.shell? v with
  | none =>
    have hw : st.shell? w = none := by simpa [hv] using hsome
    rw [headItems_eq_hashItems hv, headItems_eq_hashItems hw] at h
    obtain ⟨hagree, hrest⟩ := Value.agree_of_hashItems_append h
    exact ⟨hw.symm, fun _ => hagree, hrest⟩
  | some r =>
    obtain ⟨r', hw⟩ : ∃ r', st.shell? w = some r' := by
      rw [← Option.isSome_iff_exists, ← hsome, hv]
      rfl
    rw [headItems_of_shell? hv, headItems_of_shell? hw] at h
    obtain ⟨rfl, hrest⟩ := Shell.items_append h
    refine ⟨hw.symm, fun hnone => ?_, hrest⟩
    cases hnone

theorem sameShape_of_shell?_eq {v w : Value} (hshell : st.shell? v = st.shell? w)
    (hatom : st.shell? v = none → v.Agree w)
    (h : List.Forall₂ st.SameShape (st.children v) (st.children w)) : st.SameShape v w := by
  cases hv : st.shell? v with
  | none => exact .atom hv (hshell ▸ hv) (hatom hv)
  | some r => exact .inside hv (hshell ▸ hv) fun _ hp => List.forall₂_zip h hp

/-- Equally many structures can be told apart by their items, whatever follows these. -/
theorem Yields.sameShape {vs ws : List Value} {a b s t : List HashItem}
    (hv : Run.Yields st.headItems st.children vs a)
    (hw : Run.Yields st.headItems st.children ws b) (hlength : vs.length = ws.length)
    (h : a ++ s = b ++ t) : List.Forall₂ st.SameShape vs ws ∧ s = t := by
  -- Both lists are met in step. The items of the first two things say that as many things are found
  -- below one as below the other, so that the lists stay equally long.
  induction hv generalizing ws b with
  | nil =>
    obtain rfl : ws = [] := List.length_eq_zero_iff.1 hlength.symm
    obtain rfl : b = [] := Run.yields_nil_iff.1 hw
    exact ⟨.nil, h⟩
  | @cons v vs a _ ih =>
    cases ws with
    | nil => cases hlength
    | cons w ws =>
      obtain ⟨b, rfl, hrest⟩ := Run.yields_cons_iff.1 hw
      rw [List.append_assoc, List.append_assoc] at h
      obtain ⟨hshell, hatom, h⟩ := headItems_append h
      have hchildren := length_children_congr hshell
      have hfound : (st.children v ++ vs).length = (st.children w ++ ws).length := by
        simpa [hchildren] using hlength
      obtain ⟨hall, hst⟩ := ih hrest hfound h
      have hbelow := List.forall₂_take_append _ _ _ hall
      have hbehind := List.forall₂_drop_append _ _ _ hall
      rw [← hchildren, List.take_left] at hbelow
      rw [← hchildren, List.drop_left] at hbehind
      exact ⟨.cons (sameShape_of_shell?_eq hshell hatom hbelow) hbehind, hst⟩

theorem SameShape.hashInput_eq {v w : Value} (h : st.SameShape v w) :
    st.hashInput v = st.hashInput w := by
  have hvisit : ∀ items x y, st.SameShape x y →
      (st.visitHash items x).1 = (st.visitHash items y).1 ∧
        List.Forall₂ st.SameShape (st.visitHash items x).2 (st.visitHash items y).2 := by
    intro items x y hxy
    cases hxy with
    | atom hx hy hagree =>
      rw [visitHash, visitHash, headItems_eq_hashItems hx, headItems_eq_hashItems hy,
        hagree.hashItems_eq, children_eq_nil hx, children_eq_nil hy]
      exact ⟨rfl, .nil⟩
    | inside hx hy hbelow =>
      rw [visitHash, visitHash, headItems_of_shell? hx, headItems_of_shell? hy]
      exact ⟨rfl, forall₂_children (hx.trans hy.symm) hbelow⟩
  rw [hashInput, hashInput, Run.sweep_congr hvisit #[] (.cons h .nil)]

/-- Two structures of one shape that are not alike differ at some place in NaN or in the sign of a
context. -/
theorem SameShape.exists_difference {v w : Value} (h : st.SameShape v w) (hne : ¬st.Alike v w) :
    ∃ v' w', st.Corresponds (v, w) (v', w') ∧
      ((∃ x, x.isNaN = true ∧ v' = .number x ∧ w' = .number x) ∨ v'.OppositeContexts w') := by
  induction h with
  | @atom v w _ _ hagree =>
    rcases hagree.isEqv_or with heqv | hdifference
    · exact absurd (.same heqv) hne
    · exact ⟨v, w, .refl, hdifference⟩
  | @inside v w s hv hw _ ih =>
    obtain ⟨p, hp, hpne⟩ : ∃ p ∈ (st.children v).zip (st.children w), ¬st.Alike p.1 p.2 := by
      by_contra hall
      push Not at hall
      exact hne (.inside hv hw hall)
    obtain ⟨v', w', hplace, hdifference⟩ := ih p hp hpne
    exact ⟨v', w', .head hp hplace, hdifference⟩

/-- Without cycles the input comes to an end, and two inputs are the same exactly for structures of
the same shape; neither is then the beginning of the other. -/
theorem hashInput_tells_shape (st : Store) {v w : Value} (hv : st.Acyclic v) (hw : st.Acyclic w) :
    ∃ items items', (st.hashInput v).Returns items ∧ (st.hashInput w).Returns items' ∧
      (items = items' ↔ st.SameShape v w) ∧ (items <+: items' → items = items') ∧
      (items = items' → (st.isEqual v w).Returns false →
        ∃ v' w', st.Corresponds (v, w) (v', w') ∧
          ((∃ x, x.isNaN = true ∧ v' = .number x ∧ w' = .number x) ∨ v'.OppositeContexts w')) := by
  obtain ⟨items, hitems⟩ := hv.exists_returns_hashInput
  obtain ⟨items', hitems'⟩ := hw.exists_returns_hashInput
  have hshape : ∀ {s t}, items ++ s = items' ++ t → st.SameShape v w ∧ s = t := by
    intro s t h
    obtain ⟨hall, hst⟩ := Yields.sameShape (returns_hashInput_iff.1 hitems)
      (returns_hashInput_iff.1 hitems') rfl h
    exact ⟨(List.forall₂_cons.1 hall).1, hst⟩
  have hsame : items = items' → st.SameShape v w := by
    intro h
    exact (hshape (congrArg (· ++ []) h)).1
  refine ⟨items, items', hitems, hitems', ⟨hsame, fun h => ?_⟩, ?_, fun h hfalse => ?_⟩
  · rw [h.hashInput_eq] at hitems
    exact hitems.unique hitems'
  · rintro ⟨t, ht⟩
    obtain ⟨-, hnil⟩ := hshape (ht.trans (List.append_nil items').symm)
    rwa [hnil, List.append_nil] at ht
  · apply (hsame h).exists_difference
    intro halike
    cases hfalse.unique halike.returns

/-- Two vectors that hold the same code, whose contexts are bound to zeros of opposite sign. -/
def boundZeros : Store :=
  ⟨#[.vector #[.nil, .closure 7 (.closure 8 (.number ⟨0⟩))],
    .vector #[.nil, .closure 7 (.closure 8 (.number ⟨0x8000000000000000⟩))]], .empty⟩

theorem hashInput_tells_shape_boundZeros :
    boundZeros.Acyclic (.vector 0) ∧ boundZeros.Acyclic (.vector 1) ∧
      boundZeros.SameShape (.vector 0) (.vector 1) ∧
      ∃ v w, boundZeros.Corresponds (.vector 0, .vector 1) (v, w) ∧
        ((∃ x, x.isNaN = true ∧ v = .number x ∧ w = .number x) ∨ v.OppositeContexts w) := by
  have hends : ((boundZeros.hashInput (.vector 0)).within 3).isSome := by decide
  obtain ⟨items, hitems⟩ := Option.isSome_iff_exists.1 hends
  have hsame : (boundZeros.hashInput (.vector 1)).within 3 =
      (boundZeros.hashInput (.vector 0)).within 3 := by decide
  have hv : (boundZeros.hashInput (.vector 0)).Returns items := ⟨3, hitems⟩
  have hw : (boundZeros.hashInput (.vector 1)).Returns items := ⟨3, hsame.trans hitems⟩
  have hfalse : (boundZeros.isEqual (.vector 0) (.vector 1)).Returns false := ⟨3, by decide⟩
  obtain ⟨a, b, ha, hb, hshape, -, hdifference⟩ := hashInput_tells_shape boundZeros
    (acyclic_of_returns_hashInput hv) (acyclic_of_returns_hashInput hw)
  have hab : a = b := (ha.unique hv).trans (hw.unique hb)
  exact ⟨acyclic_of_returns_hashInput hv, acyclic_of_returns_hashInput hw, hshape.1 hab,
    hdifference hab hfalse⟩

end Store

end Sameness
