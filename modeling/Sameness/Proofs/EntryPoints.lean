import Sameness.Proofs.BufferedOutput

/-!
The ways into a builtin: by its name, as a value that is applied, and directly.

The number of arguments is checked by the engine and again by the builtin, which brings a name and a
number of its own. The two checks never disagree, so it is all one which way a call comes in.
-/

namespace Sameness

namespace Builtin

variable {st : Store} {b : Builtin} {args : List Value} {sink : Sink}

/-! ### The table -/

theorem ofName?_eq_none_iff {name : String} :
    ofName? name = none ↔ name ∉ all.map Builtin.name := by
  rw [ofName?, List.find?_eq_none, List.mem_map, not_exists]
  simp only [beq_iff_eq, not_and]

theorem getElem?_index (b : Builtin) : all[b.index]? = some b := List.getElem?_idxOf (mem_all b)

theorem findIdx?_name (b : Builtin) : all.findIdx? (·.name == b.name) = some b.index := by
  cases b with
  | compare p | member p | assoc p => cases p <;> decide
  | display | newline => decide

/-! ### The two checks -/

/-- A builtin asks for its inputs by the name and in the number that the table has. -/
theorem exists_run_eq (st : Store) (b : Builtin) :
    ∃ n body, b.arity = .exactly n ∧ b.run st = withInputs b.name n body := by
  cases b with
  | compare p | member p | assoc p => cases p <;> exact ⟨2, _, rfl, rfl⟩
  | display => exact ⟨1, _, rfl, rfl⟩
  | newline => exact ⟨0, _, rfl, rfl⟩

/-- So what the engine refuses, a builtin refuses by itself and in the same words. -/
theorem run_of_not_accepts (h : ¬b.arity.accepts args.length = true) :
    b.run st args sink = pure (.error (.arity b.name b.arity args.length), sink) := by
  obtain ⟨n, body, harity, hrun⟩ := exists_run_eq st b
  have hlength : args.length ≠ n := by
    intro heq
    rw [harity] at h
    exact h (beq_iff_eq.2 heq)
  rw [hrun, harity, withInputs, inputs_of_ne hlength]

/-- What the engine lets pass, a builtin does not refuse. -/
theorem returns_arity_iff {bytes : ByteArray} :
    (∃ name expected got sink,
        (b.run st args (.unlimited bytes)).Returns (.error (.arity name expected got), sink)) ↔
      ¬b.arity.accepts args.length = true := by
  constructor
  · rintro ⟨name, expected, got, sink, hrun⟩ haccepts
    obtain ⟨⟨v, hv⟩, -⟩ := run_spec haccepts hrun
    cases hv
  · intro h
    exact ⟨_, _, _, _, by rw [run_of_not_accepts h, Run.returns_pure]⟩

/-! ### Any sink without a limit -/

/-- What a builtin answers and what it puts out have nothing to do with what is in the sink. -/
theorem exists_run_unlimited {a : Answer} {bytes : ByteArray}
    (h : (b.run st args (.unlimited bytes)).Returns (a, sink)) :
    ∃ text : String, sink = .unlimited (bytes ++ text.toUTF8) ∧
      ∀ other, (b.run st args (.unlimited other)).Returns
        (a, .unlimited (other ++ text.toUTF8)) := by
  by_cases haccepts : b.arity.accepts args.length = true
  · obtain ⟨-, text, -, hsink, hall⟩ := run_spec haccepts h
    exact ⟨text, hsink, hall⟩
  · rw [run_of_not_accepts haccepts, Run.returns_pure] at h
    cases h
    refine ⟨"", by simp, fun other => ?_⟩
    rw [run_of_not_accepts haccepts, Run.returns_pure]
    simp

end Builtin

namespace Engine

variable {e e' : Engine} {st : Store} {b : Builtin} {args : List Value} {a : Answer}

/-! ### One call -/

theorem call_name (e : Engine) (st : Store) (b : Builtin) (args : List Value) :
    e.call st b.name args = e.callBuiltin st b args := by
  rw [call, Builtin.ofName?_name]

/-- A call does to the buffer what the builtin does to any sink without a limit. -/
theorem returns_run_of_callBuiltin (h : (e.callBuiltin st b args).Returns (a, e')) :
    ∃ text : String, e'.pending = e.pending ++ text.toUTF8 ∧
      ∀ bytes, (b.run st args (.unlimited bytes)).Returns
        (a, .unlimited (bytes ++ text.toUTF8)) := by
  -- The builtin may have been refused before it ran; run all the same, it refuses by itself.
  have hbuffer : ∃ sink, (b.run st args (.unlimited e.pending)).Returns (a, sink) ∧
      e'.pending = sink.written := by
    by_cases haccepts : b.arity.accepts args.length = true
    · obtain ⟨sink, lines, hrun, -, rfl⟩ := (returns_callBuiltin_iff haccepts).1 h
      exact ⟨sink, hrun, rfl⟩
    · rw [callBuiltin_of_not_accepts haccepts] at h
      cases Run.returns_pure.1 h
      exact ⟨_, by rw [Builtin.run_of_not_accepts haccepts, Run.returns_pure], rfl⟩
  obtain ⟨sink, hrun, hpending⟩ := hbuffer
  obtain ⟨text, rfl, hall⟩ := Builtin.exists_run_unlimited hrun
  exact ⟨text, hpending, hall⟩

/-- Without tracing a call needs nothing more. -/
theorem returns_callBuiltin_iff_run (htracing : e.tracing = false) :
    (e.callBuiltin st b args).Returns (a, e') ↔
      ∃ sink, (b.run st args (.unlimited e.pending)).Returns (a, sink) ∧
        e' = { e with pending := sink.written } := by
  by_cases haccepts : b.arity.accepts args.length = true
  · simp [returns_callBuiltin_iff haccepts, TraceLines, htracing]
  · rw [callBuiltin_of_not_accepts haccepts, Builtin.run_of_not_accepts haccepts]
    simp only [Run.returns_pure, Prod.mk.injEq]
    constructor
    · rintro ⟨rfl, rfl⟩
      exact ⟨_, ⟨rfl, rfl⟩, rfl⟩
    · rintro ⟨_, ⟨rfl, rfl⟩, rfl⟩
      exact ⟨rfl, rfl⟩

theorem exists_ok_of_callBuiltin (haccepts : b.arity.accepts args.length = true)
    (h : (e.callBuiltin st b args).Returns (a, e')) : ∃ v, a = .ok v := by
  obtain ⟨sink, -, hrun, -, -⟩ := (returns_callBuiltin_iff haccepts).1 h
  exact (Builtin.run_spec haccepts hrun).1

theorem ne_unknownBuiltin_of_callBuiltin (h : (e.callBuiltin st b args).Returns (a, e'))
    (name : String) : a ≠ .error (.unknownBuiltin name) := by
  by_cases haccepts : b.arity.accepts args.length = true
  · obtain ⟨v, rfl⟩ := exists_ok_of_callBuiltin haccepts h
    nofun
  · rw [callBuiltin_of_not_accepts haccepts] at h
    cases Run.returns_pure.1 h
    nofun

/-! ### All ways -/

/-- A call by name looks up the procedure of that name and applies it. -/
theorem call_eq_apply (e : Engine) (st : Store) (name : String) (args : List Value) :
    (∃ v p, procedure name = .ok v ∧ v.procedure? = some p ∧
        e.call st name args = e.apply st p args) ∨
      ∃ f, procedure name = .error f ∧ e.call st name args = pure (.error f, e) := by
  unfold call procedure
  cases Builtin.ofName? name with
  | some b => exact .inl ⟨.builtin b, .builtin b, rfl, rfl, rfl⟩
  | none => exact .inr ⟨_, rfl, rfl⟩

theorem returns_unknownBuiltin_iff {name other : String} :
    (∃ e', (e.call st name args).Returns (.error (.unknownBuiltin other), e')) ↔
      other = name ∧ name ∉ Builtin.all.map Builtin.name := by
  rw [← Builtin.ofName?_eq_none_iff, call]
  cases Builtin.ofName? name with
  | some b =>
    constructor
    · rintro ⟨e', h⟩
      exact absurd rfl (ne_unknownBuiltin_of_callBuiltin h other)
    · rintro ⟨-, h⟩
      cases h
  | none => simp [eq_comm]

theorem procedure_eq_unknownBuiltin_iff {name other : String} :
    procedure name = .error (.unknownBuiltin other) ↔
      other = name ∧ name ∉ Builtin.all.map Builtin.name := by
  rw [← Builtin.ofName?_eq_none_iff, procedure]
  cases Builtin.ofName? name <;> simp [eq_comm]

theorem returns_same_of_call {p : Predicate} {v w : Value}
    (h : (e.call st p.name [v, w]).Returns (a, e')) :
    ∃ r, (st.same p v w).Returns r ∧ a = .ok (.boolean r) := by
  rw [show p.name = (Builtin.compare p).name from rfl, call_name] at h
  obtain ⟨text, -, hrun⟩ := returns_run_of_callBuiltin h
  have hcompare := hrun .empty
  rw [Builtin.run_compare, Run.returns_bind] at hcompare
  obtain ⟨r, hr, hanswer⟩ := hcompare
  exact ⟨r, hr, (congrArg Prod.fst (Run.returns_pure.1 hanswer)).symm⟩

/-- How the ways into a builtin agree. -/
structure EntryPoints (e : Engine) (st : Store) (args : List Value) : Prop where
  /-- A call by name is one of the procedure of that name, and fails where there is none. -/
  detour (name : String) :
    (∃ v p, procedure name = .ok v ∧ v.procedure? = some p ∧
        e.call st name args = e.apply st p args) ∨
      ∃ f, procedure name = .error f ∧ e.call st name args = pure (.error f, e)
  unknown_call (name other : String) :
    (∃ e', (e.call st name args).Returns (.error (.unknownBuiltin other), e')) ↔
      other = name ∧ name ∉ Builtin.all.map Builtin.name
  unknown_procedure (name other : String) :
    procedure name = .error (.unknownBuiltin other) ↔
      other = name ∧ name ∉ Builtin.all.map Builtin.name
  /-- The place that a name has in the table is that of its builtin. -/
  place (b : Builtin) :
    Builtin.all.findIdx? (·.name == b.name) = some b.index ∧ Builtin.all[b.index]? = some b
  /-- A builtin that is called directly, on any sink without a limit, answers the same and writes
  the same. -/
  direct (b : Builtin) (a : Answer) (e' : Engine) : (e.call st b.name args).Returns (a, e') →
    ∃ text : String, e'.pending = e.pending ++ text.toUTF8 ∧
      ∀ bytes, (b.run st args (.unlimited bytes)).Returns (a, .unlimited (bytes ++ text.toUTF8))
  direct_untraced (b : Builtin) (a : Answer) (e' : Engine) : e.tracing = false →
    ((e.call st b.name args).Returns (a, e') ↔
      ∃ sink, (b.run st args (.unlimited e.pending)).Returns (a, sink) ∧
        e' = { e with pending := sink.written })
  /-- Both checks refuse the same numbers of arguments, in the same words, and nothing is
  written. -/
  refused (b : Builtin) : ¬b.arity.accepts args.length = true →
    e.call st b.name args = pure (.error (.arity b.name b.arity args.length), e) ∧
      ∀ sink, b.run st args sink = pure (.error (.arity b.name b.arity args.length), sink)
  refused_iff (b : Builtin) (bytes : ByteArray) :
    (∃ name expected got sink, (b.run st args (.unlimited bytes)).Returns
      (.error (.arity name expected got), sink)) ↔ ¬b.arity.accepts args.length = true
  accepted (b : Builtin) (a : Answer) (e' : Engine) : b.arity.accepts args.length = true →
    (e.call st b.name args).Returns (a, e') → ∃ v, a = .ok v
  predicate (p : Predicate) (v w : Value) (a : Answer) (e' : Engine) : args = [v, w] →
    (e.call st p.name args).Returns (a, e') →
      ∃ r, (st.same p v w).Returns r ∧ a = .ok (.boolean r)

theorem entryPoints (e : Engine) (st : Store) (args : List Value) : EntryPoints e st args where
  detour name := call_eq_apply e st name args
  unknown_call _ _ := returns_unknownBuiltin_iff
  unknown_procedure _ _ := procedure_eq_unknownBuiltin_iff
  place b := ⟨b.findIdx?_name, b.getElem?_index⟩
  direct b a e' h := by
    rw [call_name] at h
    exact returns_run_of_callBuiltin h
  direct_untraced b a e' htracing := by
    rw [call_name]
    exact returns_callBuiltin_iff_run htracing
  refused b h := by
    rw [call_name]
    exact ⟨callBuiltin_of_not_accepts h, fun sink => Builtin.run_of_not_accepts h⟩
  refused_iff _ _ := Builtin.returns_arity_iff
  accepted b a e' haccepts h := by
    rw [call_name] at h
    exact exists_ok_of_callBuiltin haccepts h
  predicate p v w a e' hargs h := by
    subst hargs
    exact returns_same_of_call h

end Engine

end Sameness
