import Sameness.Proofs.Cycles

/-!
Changing cells in place.

A cell keeps its kind and its length; what stands in its slots may change. So identity is settled
once and for all, while `isEqual` may come to another verdict at any time.
-/

namespace Sameness

/-! ### Cells and their slots -/

/-- What is settled when a cell is made. -/
inductive Form where
  | pair
  | vector (size : Nat)
  | boolVector (size : Nat)
  | string
  | host (typeName : String)
  deriving DecidableEq

/-- A place in a cell that can be written to. -/
inductive Slot where
  | first
  | rest
  | element (i : Nat)
  | bit (i : Nat)
  | text
  | payload
  deriving DecidableEq

inductive Content where
  | value (v : Value)
  | bit (b : Bool)
  | text (s : String)
  | payload (p : Payload)
  deriving DecidableEq

namespace Cell

def form : Cell → Form
  | pair _ _ => .pair
  | vector elements => .vector elements.size
  | boolVector bits => .boolVector bits.size
  | string _ => .string
  | host typeName _ => .host typeName

/-- What stands in a slot, if the cell has it. -/
def slot? : Cell → Slot → Option Content
  | pair first _, .first => some (.value first)
  | pair _ rest, .rest => some (.value rest)
  | vector elements, .element i => elements[i]?.map .value
  | boolVector bits, .bit i => bits[i]?.map .bit
  | string text, .text => some (.text text)
  | host _ payload, .payload => some (.payload payload)
  | _, _ => none

theorem value_injective : Function.Injective Content.value := fun _ _ h => Content.value.inj h

theorem bit_injective : Function.Injective Content.bit := fun _ _ h => Content.bit.inj h

/-- A cell is its form and what stands in its slots. -/
theorem eq_of_slots {c d : Cell} (hform : c.form = d.form) (hslots : ∀ s, c.slot? s = d.slot? s) :
    c = d := by
  cases c with
  | pair first rest =>
    cases d with
    | pair first' rest' =>
      have hfirst : first = first' := by simpa [slot?] using hslots .first
      have hrest : rest = rest' := by simpa [slot?] using hslots .rest
      rw [hfirst, hrest]
    | _ => cases hform
  | vector elements =>
    cases d with
    | vector elements' =>
      have helements : elements = elements' := Array.ext_getElem? fun i =>
        Option.map_injective value_injective (hslots (.element i))
      rw [helements]
    | _ => cases hform
  | boolVector bits =>
    cases d with
    | boolVector bits' =>
      have hbits : bits = bits' := Array.ext_getElem? fun i =>
        Option.map_injective bit_injective (hslots (.bit i))
      rw [hbits]
    | _ => cases hform
  | string text =>
    cases d with
    | string text' =>
      have htext : text = text' := by simpa [slot?] using hslots .text
      rw [htext]
    | _ => cases hform
  | host typeName payload =>
    cases d with
    | host typeName' payload' =>
      have hname : typeName = typeName' := Form.host.inj hform
      have hpayload : payload = payload' := by simpa [slot?] using hslots .payload
      rw [hname, hpayload]
    | _ => cases hform

end Cell

/-! ### Changes -/

/-- A way to change a cell in place. -/
inductive Mutation where
  | setFirst (v : Value)
  | setRest (v : Value)
  | setElement (i : Nat) (v : Value)
  | setBit (i : Nat) (b : Bool)
  | appendText (s : String)
  | addToPayload (i : Int64)
  deriving DecidableEq

namespace Mutation

/-- The slot that is addressed. -/
def slot : Mutation → Slot
  | setFirst _ => .first
  | setRest _ => .rest
  | setElement i _ => .element i
  | setBit i _ => .bit i
  | appendText _ => .text
  | addToPayload _ => .payload

/-- What comes to stand in the addressed slot. -/
def content : Mutation → Content → Content
  | setFirst v, _ | setRest v, _ | setElement _ v, _ => .value v
  | setBit _ b, _ => .bit b
  | appendText s, .text t => .text (t ++ s)
  | addToPayload i, .payload (.int j) => .payload (.int (j + i))
  | _, c => c

def apply : Mutation → Cell → Cell
  | setFirst v, .pair _ rest => .pair v rest
  | setRest v, .pair first _ => .pair first v
  | setElement i v, .vector elements => .vector (elements.setIfInBounds i v)
  | setBit i b, .boolVector bits => .boolVector (bits.setIfInBounds i b)
  | appendText s, .string text => .string (text ++ s)
  | addToPayload i, .host typeName (.int j) => .host typeName (.int (j + i))
  | _, c => c

theorem form_apply (m : Mutation) (c : Cell) : (m.apply c).form = c.form := by
  unfold apply
  split <;> simp [Cell.form]

theorem map_getElem?_setIfInBounds {α : Type} (f : α → Content) (xs : Array α) (i j : Nat) (x : α) :
    (xs.setIfInBounds i x)[j]?.map f =
      if j = i then (xs[j]?.map f).map fun _ => f x else xs[j]?.map f := by
  by_cases hij : j = i
  · subst hij
    by_cases hj : j < xs.size <;> simp [hj]
  · simp [hij, Ne.symm hij]

/-- The addressed slot is written to, if it is there, and no other. -/
theorem slot?_apply (m : Mutation) (c : Cell) (s : Slot) :
    (m.apply c).slot? s = if s = m.slot then (c.slot? s).map m.content else c.slot? s := by
  cases m with
  | setFirst v | setRest v | appendText t =>
    cases c <;> cases s <;> simp [apply, slot, content, Cell.slot?]
  | setElement i v =>
    cases c with
    | vector elements =>
      cases s with
      | element j =>
        simp only [slot, Slot.element.injEq]
        exact map_getElem?_setIfInBounds .value elements i j v
      | _ => rfl
    | _ => cases s <;> simp [apply, slot, Cell.slot?]
  | setBit i b =>
    cases c with
    | boolVector bits =>
      cases s with
      | bit j =>
        simp only [slot, Slot.bit.injEq]
        exact map_getElem?_setIfInBounds .bit bits i j b
      | _ => rfl
    | _ => cases s <;> simp [apply, slot, Cell.slot?]
  | addToPayload i =>
    cases c with
    | host typeName payload =>
      cases payload <;> cases s <;> simp [apply, slot, content, Cell.slot?]
    | _ => cases s <;> simp [apply, slot, Cell.slot?]

/-- Where the addressed slot is missing nothing happens. -/
theorem apply_of_slot?_eq_none {m : Mutation} {c : Cell} (h : c.slot? m.slot = none) :
    m.apply c = c := by
  refine Cell.eq_of_slots (form_apply m c) fun s => ?_
  rw [slot?_apply]
  split
  · rename_i hs
    rw [hs, h, Option.map_none]
  · rfl

end Mutation

namespace Store

variable {st : Store} {a b : Address} {m : Mutation}

def answered (st : Store) : Option Store → Bool × Store
  | some st' => (true, st')
  | none => (false, st)

/-- Whether the change was accepted, and the store after it. Only an index can be refused. -/
def mutate (st : Store) (a : Address) : Mutation → Bool × Store
  | .setFirst v => (true, st.setFirst a v)
  | .setRest v => (true, st.setRest a v)
  | .setElement i v => st.answered (st.setElement? a i v)
  | .setBit i b => st.answered (st.setBit? a i b)
  | .appendText s => (true, st.appendText a s)
  | .addToPayload i => (true, st.addToPayload a i)

def form? (st : Store) (a : Address) : Option Form := st.cells[a]?.map Cell.form

def slot? (st : Store) (a : Address) (s : Slot) : Option Content :=
  st.cells[a]?.bind fun c => c.slot? s

/-! ### One change -/

theorem cells_modifyCell (st : Store) (a b : Address) (f : Cell → Cell) :
    (st.modifyCell a f).cells[b]? = if a = b then st.cells[b]?.map f else st.cells[b]? := by
  rw [modifyCell, Array.getElem?_modify]

theorem modifyCell_eq_self {f : Cell → Cell} (h : ∀ c, st.cells[a]? = some c → f c = c) :
    st.modifyCell a f = st := by
  have hcells : (st.modifyCell a f).cells = st.cells := by
    apply Array.ext_getElem?
    intro b
    rw [cells_modifyCell]
    split
    · rename_i hab
      subst hab
      cases hc : st.cells[a]? with
      | none => rfl
      | some c => rw [Option.map_some, h c hc]
    · rfl
  exact congrArg (fun cells => { st with cells }) hcells

theorem slot?_element (st : Store) (a : Address) (i : Nat) :
    st.slot? a (.element i) = (st.elements a)[i]?.map .value := by
  rw [slot?, elements]
  cases h : st.cells[a]? with
  | none => rfl
  | some c => cases c <;> simp [Cell.slot?]

theorem slot?_bit (st : Store) (a : Address) (i : Nat) :
    st.slot? a (.bit i) = (st.bits a)[i]?.map .bit := by
  rw [slot?, bits]
  cases h : st.cells[a]? with
  | none => rfl
  | some c => cases c <;> simp [Cell.slot?]

theorem modifyCell_of_slot?_eq_none (h : st.slot? a m.slot = none) :
    st.modifyCell a m.apply = st := by
  refine modifyCell_eq_self fun c hc => Mutation.apply_of_slot?_eq_none ?_
  simpa [slot?, hc] using h

/-- Accepted or not, this is all that a change does. -/
theorem mutate_snd (st : Store) (a : Address) (m : Mutation) :
    (st.mutate a m).2 = st.modifyCell a m.apply := by
  cases m with
  | setFirst v | setRest v | appendText s =>
    refine congrArg (st.modifyCell a) (funext fun c => ?_)
    cases c <;> rfl
  | addToPayload i =>
    refine congrArg (st.modifyCell a) (funext fun c => ?_)
    cases c with
    | host typeName payload => cases payload <;> rfl
    | _ => rfl
  | setElement i v =>
    by_cases hi : i < (st.elements a).size
    · rw [mutate, setElement?, if_pos hi]
      refine congrArg (st.modifyCell a) (funext fun c => ?_)
      cases c <;> rfl
    · rw [mutate, setElement?, if_neg hi, modifyCell_of_slot?_eq_none]
      · rfl
      · simpa [Mutation.slot, slot?_element] using hi
  | setBit i b =>
    by_cases hi : i < (st.bits a).size
    · rw [mutate, setBit?, if_pos hi]
      refine congrArg (st.modifyCell a) (funext fun c => ?_)
      cases c <;> rfl
    · rw [mutate, setBit?, if_neg hi, modifyCell_of_slot?_eq_none]
      · rfl
      · simpa [Mutation.slot, slot?_bit] using hi

theorem form?_mutate (st : Store) (a b : Address) (m : Mutation) :
    (st.mutate a m).2.form? b = st.form? b := by
  rw [mutate_snd, form?, form?, cells_modifyCell]
  split
  · rw [Option.map_map]
    exact congrArg (fun f => st.cells[b]?.map f) (funext fun c => m.form_apply c)
  · rfl

theorem slot?_mutate (st : Store) (a b : Address) (m : Mutation) (s : Slot) :
    (st.mutate a m).2.slot? b s =
      if b = a ∧ s = m.slot then (st.slot? b s).map m.content else st.slot? b s := by
  rw [mutate_snd, slot?, slot?, cells_modifyCell]
  by_cases hab : b = a
  · cases hc : st.cells[b]? with
    | none => simp
    | some c => simp [hab, Mutation.slot?_apply]
  · simp [hab, Ne.symm hab]

theorem symbols_mutate (st : Store) (a : Address) (m : Mutation) :
    (st.mutate a m).2.symbols = st.symbols := by
  rw [mutate_snd, modifyCell]

theorem mutate_eq_self (h : (st.mutate a m).1 = false) : (st.mutate a m).2 = st := by
  cases m with
  | setElement i v =>
    rw [mutate] at h ⊢
    cases hset : st.setElement? a i v with
    | none => rfl
    | some st' => rw [hset] at h; cases h
  | setBit i b =>
    rw [mutate] at h ⊢
    cases hset : st.setBit? a i b with
    | none => rfl
    | some st' => rw [hset] at h; cases h
  | _ => cases h

theorem size_elements {n : Nat} (h : st.form? a = some (.vector n)) : (st.elements a).size = n := by
  obtain ⟨c, hc, hform⟩ := Option.map_eq_some_iff.1 h
  cases c with
  | vector elements => simpa [Store.elements, hc] using Form.vector.inj hform
  | _ => cases hform

theorem size_bits {n : Nat} (h : st.form? a = some (.boolVector n)) : (st.bits a).size = n := by
  obtain ⟨c, hc, hform⟩ := Option.map_eq_some_iff.1 h
  cases c with
  | boolVector bits => simpa [Store.bits, hc] using Form.boolVector.inj hform
  | _ => cases hform

theorem setElement_refused_iff {n : Nat} (h : st.form? a = some (.vector n)) (i : Nat) (v : Value) :
    (st.mutate a (.setElement i v)).1 = false ↔ n ≤ i := by
  rw [mutate, setElement?, size_elements h]
  by_cases hi : i < n
  · simp [hi, answered]
  · simp [hi, answered, Nat.le_of_not_lt hi]

theorem setBit_refused_iff {n : Nat} (h : st.form? a = some (.boolVector n)) (i : Nat) (b : Bool) :
    (st.mutate a (.setBit i b)).1 = false ↔ n ≤ i := by
  rw [mutate, setBit?, size_bits h]
  by_cases hi : i < n
  · simp [hi, answered]
  · simp [hi, answered, Nat.le_of_not_lt hi]

end Store

/-! ### Whole runs -/

/-- What can be done to the cells of a store. -/
inductive CellOperation where
  | make (c : Cell)
  | change (a : Address) (m : Mutation)
  deriving DecidableEq

namespace Store

variable {st : Store} {a b : Address}

def operate (st : Store) : CellOperation → Bool × Store
  | .make c => (true, st.push c)
  | .change a m => st.mutate a m

def afterwards (st : Store) (ops : List CellOperation) : Store :=
  ops.foldl (fun st op => (st.operate op).2) st

theorem form?_operate {f : Form} (h : st.form? a = some f) (op : CellOperation) :
    (st.operate op).2.form? a = some f := by
  cases op with
  | make c =>
    obtain ⟨d, hd, hform⟩ := Option.map_eq_some_iff.1 h
    obtain ⟨ha, -⟩ := Array.getElem?_eq_some_iff.1 hd
    have hold : (st.push c).cells[a]? = some d := by
      rw [push, Array.getElem?_push, if_neg (Nat.ne_of_lt ha), hd]
    exact Option.map_eq_some_iff.2 ⟨d, hold, hform⟩
  | change b m => rw [operate, form?_mutate, h]

theorem form?_afterwards {f : Form} (h : st.form? a = some f) (ops : List CellOperation) :
    (st.afterwards ops).form? a = some f := by
  induction ops generalizing st with
  | nil => exact h
  | cons op ops ih => exact ih (form?_operate h op)

/-! ### Other verdicts -/

theorem exists_slots_of_form_pair (h : st.form? a = some .pair) :
    ∃ first rest,
      st.slot? a .first = some (.value first) ∧ st.slot? a .rest = some (.value rest) := by
  obtain ⟨c, hc, hform⟩ := Option.map_eq_some_iff.1 h
  cases c with
  | pair first rest => exact ⟨first, rest, by simp [slot?, hc, Cell.slot?]⟩
  | _ => cases hform

theorem parts_of_slots {first rest : Value} (hfirst : st.slot? a .first = some (.value first))
    (hrest : st.slot? a .rest = some (.value rest)) : st.parts a = (first, rest) := by
  obtain ⟨c, hc, hslot⟩ := Option.bind_eq_some_iff.1 hfirst
  rw [slot?, hc] at hrest
  cases c with
  | pair first' rest' =>
    cases hslot
    cases hrest
    rw [parts, hc]
  | _ => cases hslot

/-- Two pairs can be given any parts. -/
theorem exists_parts (ha : st.form? a = some .pair) (hb : st.form? b = some .pair) (hab : a ≠ b)
    (p q : Value × Value) :
    ∃ ops, (st.afterwards ops).parts a = p ∧ (st.afterwards ops).parts b = q := by
  obtain ⟨_, _, hfirsta, hresta⟩ := exists_slots_of_form_pair ha
  obtain ⟨_, _, hfirstb, hrestb⟩ := exists_slots_of_form_pair hb
  refine ⟨[.change a (.setFirst p.1), .change a (.setRest p.2), .change b (.setFirst q.1),
    .change b (.setRest q.2)], parts_of_slots ?_ ?_, parts_of_slots ?_ ?_⟩
  all_goals simp [afterwards, operate, slot?_mutate, Mutation.slot, Mutation.content, hab,
    Ne.symm hab, hfirsta, hresta, hfirstb, hrestb]

theorem equalStep_pair (st : Store) (hab : a ≠ b) :
    st.equalStep (.pair a) (.pair b) =
      some [((st.parts a).1, (st.parts b).1), ((st.parts a).2, (st.parts b).2)] :=
  if_neg hab

/-- Two pairs that are their own first parts are compared for ever. -/
theorem isEqual_diverges_of_parts (hab : a ≠ b) (ha : (st.parts a).1 = .pair a)
    (hb : (st.parts b).1 = .pair b) : (st.isEqual (.pair a) (.pair b)).Diverges := by
  have hstep : st.visitEqual () (.pair a, .pair b) =
      .ok ((), [(.pair a, .pair b), ((st.parts a).2, (st.parts b).2)]) := by
    rw [visitEqual_of_some (equalStep_pair st hab), ha, hb]
  have hwalk : ∀ n todo,
      Run.walkWithin st.visitEqual n () ((.pair a, .pair b) :: todo) = none := by
    intro n
    induction n with
    | zero => exact fun _ => rfl
    | succ n ih =>
      intro todo
      simp only [Run.walkWithin, hstep]
      exact ih _
  intro n
  have hbind : (st.isEqual (.pair a) (.pair b)).within n =
      (Run.walkWithin st.visitEqual n () [(.pair a, .pair b)]).bind _ := rfl
  rw [hbind, hwalk]
  rfl

theorem isEqual_returns_of_parts {x y : Bool} (hab : a ≠ b)
    (ha : st.parts a = (.boolean x, .nil)) (hb : st.parts b = (.boolean y, .nil)) :
    (st.isEqual (.pair a) (.pair b)).Returns (x == y) := by
  rw [returns_isEqual, Run.returns_walk_cons_ok (visitEqual_of_some (equalStep_pair st hab)), ha,
    hb]
  cases x <;> cases y <;> exact ⟨2, rfl⟩

/-! ### The law -/

/-- What holds of a store `now` after operations on the cells of `st`, and of one more change. -/
structure CellLaw (st now : Store) : Prop where
  /-- A cell is of its kind for good, and as long as it was made. -/
  form {a : Address} {f : Form} : st.form? a = some f → now.form? a = some f
  element_refused_iff {a : Address} {n : Nat} (i : Nat) (v : Value) :
    st.form? a = some (.vector n) → ((now.mutate a (.setElement i v)).1 = false ↔ n ≤ i)
  bit_refused_iff {a : Address} {n : Nat} (i : Nat) (b : Bool) :
    st.form? a = some (.boolVector n) → ((now.mutate a (.setBit i b)).1 = false ↔ n ≤ i)
  refused {a : Address} {m : Mutation} :
    (now.mutate a m).1 = false → (now.mutate a m).2 = now
  /-- Only the addressed slot of the addressed cell is written to. -/
  slots (a b : Address) (m : Mutation) (s : Slot) :
    (now.mutate a m).2.slot? b s =
      if b = a ∧ s = m.slot then (now.slot? b s).map m.content else now.slot? b s
  forms (a b : Address) (m : Mutation) : (now.mutate a m).2.form? b = now.form? b
  symbols (a : Address) (m : Mutation) : (now.mutate a m).2.symbols = now.symbols
  /-- Identity is not touched. -/
  same {p : Predicate} (v w : Value) : p ≠ .equal → now.same p v w = st.same p v w
  hashInputFor {p : Predicate} (v : Value) : p ≠ .equal → now.hashInputFor p v = st.hashInputFor p v
  /-- Two pairs may become the same under `isEqual`, or different, or a comparison without end. -/
  verdicts {a b : Address} :
    st.form? a = some .pair → st.form? b = some .pair → a ≠ b →
      (∀ r, ∃ ops, ((now.afterwards ops).isEqual (.pair a) (.pair b)).Returns r) ∧
        ∃ ops, ((now.afterwards ops).isEqual (.pair a) (.pair b)).Diverges

/-- Whatever is done to the cells, and in whatever order, kinds, lengths and identity stay. -/
theorem cellLaw (st : Store) (ops : List CellOperation) : CellLaw st (st.afterwards ops) where
  form h := form?_afterwards h ops
  element_refused_iff i v h := setElement_refused_iff (form?_afterwards h ops) i v
  bit_refused_iff i b h := setBit_refused_iff (form?_afterwards h ops) i b
  refused := mutate_eq_self
  slots := slot?_mutate _
  forms := form?_mutate _
  symbols := symbols_mutate _
  same {p} v w hp := by
    cases p with
    | eq | eqv => rfl
    | equal => exact absurd rfl hp
  hashInputFor {p} v hp := by
    cases p with
    | eq | eqv => rfl
    | equal => exact absurd rfl hp
  verdicts {a b} ha hb hab := by
    have hparts := exists_parts (form?_afterwards ha ops) (form?_afterwards hb ops) hab
    refine ⟨fun r => ?_, ?_⟩
    · obtain ⟨more, hpartsa, hpartsb⟩ := hparts (.boolean true, .nil) (.boolean r, .nil)
      refine ⟨more, ?_⟩
      have hreturns := isEqual_returns_of_parts hab hpartsa hpartsb
      rwa [Bool.true_beq] at hreturns
    · obtain ⟨more, hpartsa, hpartsb⟩ := hparts (.pair a, .nil) (.pair b, .nil)
      exact ⟨more, isEqual_diverges_of_parts hab (by rw [hpartsa]) (by rw [hpartsb])⟩

end Store

end Sameness
