import Mathlib.Data.Finset.Card
import Sameness.Equivalence

/-!
Symbol tables over whole runs.

What a table holds is told by the names that were interned so far: each of them once, numbered in
the order of their first occurrence. So a symbol stays good for the rest of a run, and two symbols
of one run are the same just when their names are.
-/

namespace Sameness

namespace SymbolTable

/-- What may be asked of a table. -/
inductive Operation where
  | intern (name : String)
  | lookup (name : String)
  | size
  deriving DecidableEq

inductive Reply where
  | symbol (s : Symbol)
  | found (s? : Option Symbol)
  | size (n : Nat)

/-- The symbol that a reply hands out. -/
def Reply.symbol? : Reply → Option Symbol
  | symbol s => some s
  | found s? => s?
  | size _ => none

def perform (t : SymbolTable) : Operation → Reply × SymbolTable
  | .intern name => (.symbol (t.intern name).1, (t.intern name).2)
  | .lookup name => (.found (t.lookup name), t)
  | .size => (.size t.size, t)

/-- What a table has become after some operations. -/
def afterwards (t : SymbolTable) (ops : List Operation) : SymbolTable :=
  ops.foldl (fun t op => (t.perform op).2) t

/-- The table after some operations on an empty one. -/
def after (ops : List Operation) : SymbolTable := empty.afterwards ops

def Operation.interned? : Operation → Option String
  | intern name => some name
  | _ => none

/-- The names that some operations intern, with repetitions. -/
def interned (ops : List Operation) : List String := ops.filterMap Operation.interned?

/-- Some operation hands out the symbol. -/
def Obtained (ops : List Operation) (s : Symbol) : Prop :=
  ∃ before op rest, ops = before ++ op :: rest ∧ ((after before).perform op).1.symbol? = some s

variable {t : SymbolTable} {s : Symbol} {name : String} {i : Nat}

/-! ### Tables -/

theorem nodup_names (t : SymbolTable) : t.names.toList.Nodup := by
  rw [List.nodup_iff_getElem?_ne_getElem?]
  intro i j hij hj heq
  -- A name at two places would have two numbers.
  obtain ⟨name, hname⟩ : ∃ name, t.names.toList[j]? = some name :=
    ⟨_, List.getElem?_eq_getElem hj⟩
  have hi : t.numbers[name]? = some i := by
    rw [numbers_iff, ← Array.getElem?_toList, heq, hname]
  have hj : t.numbers[name]? = some j := by
    rw [numbers_iff, ← Array.getElem?_toList, hname]
  rw [hi, Option.some.injEq] at hj
  omega

theorem exists_number_iff : (∃ i, t.numbers[name]? = some i) ↔ name ∈ t.names.toList := by
  simp only [numbers_iff, List.mem_iff_getElem?, Array.getElem?_toList]

theorem numbers_eq_none_iff : t.numbers[name]? = none ↔ name ∉ t.names.toList := by
  rw [← exists_number_iff, Option.eq_none_iff_forall_ne_some, not_exists]

/-- The table has given out the symbol. -/
def Knows (t : SymbolTable) (s : Symbol) : Prop := t.numbers[s.name]? = some s.id

theorem nameOf_of_number (h : t.numbers[name]? = some i) : t.nameOf i = name := by
  rw [nameOf, Array.getD_eq_getD_getElem?, t.numbers_iff.1 h, Option.getD_some]

theorem lookup_eq_some_iff : t.lookup name = some s ↔ s.name = name ∧ t.Knows s := by
  rw [lookup, Option.map_eq_some_iff, Knows]
  constructor
  · rintro ⟨i, hi, rfl⟩
    exact ⟨nameOf_of_number hi, (nameOf_of_number hi).symm ▸ hi⟩
  · rintro ⟨rfl, hs⟩
    exact ⟨s.id, hs, by rw [nameOf_of_number hs]⟩

theorem lookup_eq_none_iff : t.lookup name = none ↔ name ∉ t.names.toList := by
  rw [lookup, Option.map_eq_none_iff, numbers_eq_none_iff]

/-- Asking first changes nothing but the cost. -/
theorem intern_eq_add (t : SymbolTable) (name : String) : t.intern name = t.add name := by
  unfold intern lookup
  cases h : t.numbers[name]? with
  | none => rfl
  | some i => exact (add_of_some h).symm

/-- A name that is known gets the symbol that it has. -/
theorem intern_of_knows (h : t.Knows s) : t.intern s.name = (s, t) := by
  simp only [intern, lookup_eq_some_iff.2 ⟨rfl, h⟩]

/-- A new name gets the next number. -/
theorem intern_of_new (h : name ∉ t.names.toList) :
    (t.intern name).1 = ⟨t.size, name⟩ ∧
      (t.intern name).2.names.toList = t.names.toList ++ [name] := by
  rw [intern_eq_add, add_of_none (numbers_eq_none_iff.2 h)]
  exact ⟨rfl, Array.toList_push⟩

theorem exists_knows (h : name ∈ t.names.toList) : ∃ i, t.Knows ⟨i, name⟩ := exists_number_iff.2 h

theorem knows_intern (t : SymbolTable) (name : String) :
    (t.intern name).2.Knows (t.intern name).1 := by
  by_cases h : name ∈ t.names.toList
  · obtain ⟨i, hi⟩ := exists_knows h
    rw [show t.intern name = (⟨i, name⟩, t) from intern_of_knows hi]
    exact hi
  · obtain ⟨hsymbol, hnames⟩ := intern_of_new h
    rw [hsymbol, Knows, numbers_iff, ← Array.getElem?_toList, hnames]
    simp [size]

theorem name_intern (t : SymbolTable) (name : String) : (t.intern name).1.name = name := by
  by_cases h : name ∈ t.names.toList
  · obtain ⟨i, hi⟩ := exists_knows h
    rw [show t.intern name = (⟨i, name⟩, t) from intern_of_knows hi]
  · rw [(intern_of_new h).1]

/-! ### One operation -/

theorem names_perform (t : SymbolTable) (op : Operation) :
    (t.perform op).2.names.toList =
      t.names.toList ++ op.interned?.toList.filter (· ∉ t.names.toList) := by
  cases op with
  | intern name =>
    by_cases h : name ∈ t.names.toList
    · obtain ⟨i, hi⟩ := exists_knows h
      rw [perform, show t.intern name = (⟨i, name⟩, t) from intern_of_knows hi]
      simp [Operation.interned?, Array.mem_toList_iff.1 h]
    · rw [perform, (intern_of_new h).2]
      simp [Operation.interned?, mt Array.mem_toList_iff.2 h]
  | lookup name => simp [perform, Operation.interned?]
  | size => simp [perform, Operation.interned?]

/-- Nothing is forgotten and nothing gets another number. -/
theorem Knows.perform (h : t.Knows s) (op : Operation) : (t.perform op).2.Knows s := by
  rw [Knows, numbers_iff, ← Array.getElem?_toList] at h ⊢
  rw [names_perform, List.getElem?_append_left (List.getElem?_eq_some_iff.1 h).1, h]

theorem knows_of_symbol? {op : Operation} (h : (t.perform op).1.symbol? = some s) :
    (t.perform op).2.Knows s := by
  cases op with
  | intern name =>
    cases h
    exact knows_intern t name
  | lookup name => exact (lookup_eq_some_iff.1 h).2
  | size => cases h

/-! ### Whole runs -/

theorem Knows.afterwards (h : t.Knows s) (ops : List Operation) : (t.afterwards ops).Knows s := by
  induction ops generalizing t with
  | nil => exact h
  | cons op ops ih => exact ih (h.perform op)

theorem after_append (ops rest : List Operation) :
    after (ops ++ rest) = (after ops).afterwards rest :=
  List.foldl_append

theorem eraseDups_append_of_toList (names : List String) (name? : Option String) :
    (names ++ name?.toList).eraseDups =
      names.eraseDups ++ name?.toList.filter (· ∉ names.eraseDups) := by
  rw [List.eraseDups_append]
  cases name? with
  | none => rfl
  | some name =>
    by_cases h : name ∈ names <;> simp [List.removeAll, List.eraseDups_cons, h]

/-- A table holds the names that were interned, each at the place of its first occurrence. -/
theorem names_after (ops : List Operation) :
    (after ops).names.toList = (interned ops).eraseDups := by
  -- From the end of the run: the last operation adds at most one name, and at the end.
  induction ops using List.reverseRecOn with
  | nil => rfl
  | append_singleton ops op ih =>
    have hinterned : interned (ops ++ [op]) = interned ops ++ op.interned?.toList := by
      rw [interned, interned, List.filterMap_append]
      cases op <;> rfl
    calc (after (ops ++ [op])).names.toList
        = ((after ops).perform op).2.names.toList := by rw [after_append]; rfl
      _ = _ := by rw [names_perform, ih, ← eraseDups_append_of_toList, hinterned]

theorem mem_names_after {ops : List Operation} :
    name ∈ (after ops).names.toList ↔ name ∈ interned ops := by
  rw [names_after, List.mem_eraseDups]

theorem size_after (ops : List Operation) : (after ops).size = (interned ops).toFinset.card := by
  have hsame : (after ops).names.toList.toFinset = (interned ops).toFinset := by
    ext name
    simp only [List.mem_toFinset, mem_names_after]
  rw [← hsame, List.toFinset_card_of_nodup (nodup_names _), Array.length_toList, size]

/-- What was known at some moment still is. -/
theorem Knows.after_append {ops : List Operation} (h : (after ops).Knows s)
    (rest : List Operation) : (after (ops ++ rest)).Knows s := by
  rw [SymbolTable.after_append]
  exact h.afterwards rest

theorem knows_after_intern (ops : List Operation) (name : String) (rest : List Operation) :
    (after (ops ++ .intern name :: rest)).Knows ((after ops).intern name).1 := by
  rw [after_append]
  exact (knows_intern (after ops) name).afterwards rest

theorem Obtained.knows {ops : List Operation} (h : Obtained ops s) : (after ops).Knows s := by
  obtain ⟨before, op, rest, rfl, hs⟩ := h
  rw [after_append]
  exact (knows_of_symbol? hs).afterwards rest

/-- Symbols of one table are the same just when their names are. -/
theorem Knows.same_iff {s' : Symbol} (h : t.Knows s) (h' : t.Knows s') :
    s.same s' = true ↔ s.name = s'.name := by
  rw [Symbol.same, beq_iff_eq]
  constructor
  · intro hid
    have hname : t.names[s.id]? = some s.name := t.numbers_iff.1 h
    have hname' : t.names[s'.id]? = some s'.name := t.numbers_iff.1 h'
    rw [hid, hname', Option.some.injEq] at hname
    exact hname.symm
  · intro hname
    rw [Knows, hname, show t.numbers[s'.name]? = some s'.id from h', Option.some.injEq] at h
    exact h.symm

/-- The number of a symbol belongs to its name and to no other. -/
theorem Knows.number_iff (h : t.Knows s) (name : String) :
    t.numbers[name]? = some s.id ↔ name = s.name := by
  constructor
  · intro hname
    exact (same_iff (s := ⟨s.id, name⟩) hname h).1 (beq_self_eq_true s.id)
  · rintro rfl
    exact h

/-- As values, symbols are the same as they are among themselves. -/
theorem isEq_symbol (s s' : Symbol) :
    (Value.symbol s.id).isEq (.symbol s'.id) = s.same s' := by
  simp [Value.isEq, Symbol.same]

/-- What holds at any moment of a run, after the operations so far. -/
structure Numbering (ops : List Operation) : Prop where
  names_eq : (after ops).names.toList = (interned ops).eraseDups
  nodup : (after ops).names.toList.Nodup
  numbers_iff (name : String) (i : Nat) :
    (after ops).numbers[name]? = some i ↔ (interned ops).eraseDups[i]? = some name
  in_range (name : String) (i : Nat) :
    (after ops).numbers[name]? = some i → i < (after ops).names.size
  size_eq : (after ops).size = (interned ops).toFinset.card
  /-- A name that is new gets as its number how many there were before it. -/
  first (name : String) : name ∉ interned ops →
    ((after ops).intern name).1 = ⟨(interned ops).toFinset.card, name⟩ ∧
      (after ops).lookup name = none
  /-- From then on it has that symbol, whatever else is done. -/
  again (name : String) (rest : List Operation) :
    let later := after (ops ++ .intern name :: rest)
    later.intern name = (((after ops).intern name).1, later) ∧
      later.lookup name = some ((after ops).intern name).1
  lookup_size (op : Operation) : op.interned? = none → after (ops ++ [op]) = after ops
  kept (name : String) (i : Nat) (rest : List Operation) : (after ops).numbers[name]? = some i →
    ∀ name', (after (ops ++ rest)).numbers[name']? = some i ↔ name' = name
  same_iff (s s' : Symbol) : Obtained ops s → Obtained ops s' →
    (s.same s' = true ↔ s.name = s'.name)
  isEq_iff (s s' : Symbol) : Obtained ops s → Obtained ops s' →
    ((Value.symbol s.id).isEq (.symbol s'.id) = true ↔ s.name = s'.name)
  intern_eq_add (name : String) : (after ops).intern name = (after ops).add name

theorem numbering (ops : List Operation) : Numbering ops where
  names_eq := names_after ops
  nodup := nodup_names _
  numbers_iff name i := by
    rw [← names_after, SymbolTable.numbers_iff, Array.getElem?_toList]
  in_range name i := lt_size _
  size_eq := size_after ops
  first name h := by
    have hnew : name ∉ (after ops).names.toList := fun hname => h (mem_names_after.1 hname)
    rw [(intern_of_new hnew).1, size_after]
    exact ⟨rfl, lookup_eq_none_iff.2 hnew⟩
  again name rest := by
    intro later
    have hknows : later.Knows ((after ops).intern name).1 := knows_after_intern ops name rest
    have hname := name_intern (after ops) name
    exact ⟨by rw [← intern_of_knows hknows, hname], lookup_eq_some_iff.2 ⟨hname, hknows⟩⟩
  lookup_size op h := by
    rw [after_append]
    cases op with
    | intern name => cases h
    | _ => rfl
  kept name i rest h :=
    (Knows.after_append (s := ⟨i, name⟩) h rest).number_iff
  same_iff s s' h h' := h.knows.same_iff h'.knows
  isEq_iff s s' h h' := by
    rw [isEq_symbol]
    exact h.knows.same_iff h'.knows
  intern_eq_add := SymbolTable.intern_eq_add _

end SymbolTable

end Sameness
