import Sameness.Proofs.BufferedOutput
import Sameness.Proofs.FirstMatch

/-!
Engines that trace their calls, beside engines that do not.

Two engines of which only one traces its calls are kept in step: they give the same replies and hold
the same bytes, and all that tracing ever does is to add a line to the log for every builtin that
ran.
-/

namespace Sameness

namespace Run

variable {α β : Type}

instance : LawfulMonad Run :=
  LawfulMonad.mk' Run
    (fun c => Run.ext fun n => Option.bind_fun_some (c.within n))
    (fun _ _ => rfl)
    (fun c _ _ => Run.ext fun n => Option.bind_assoc (c.within n) _ _)

theorem returns_mapM_iff {f : α → Run β} {xs : List α} {ys : List β} :
    (xs.mapM f).Returns ys ↔ List.Forall₂ (fun x y => (f x).Returns y) xs ys := by
  induction xs generalizing ys with
  | nil => simp [eq_comm]
  | cons x xs ih =>
    simp only [List.mapM_cons, returns_bind, returns_pure, ih, List.forall₂_cons_left_iff]
    constructor
    · rintro ⟨y, hy, ys, hys, rfl⟩
      exact ⟨y, ys, hy, hys, rfl⟩
    · rintro ⟨y, ys, hy, hys, rfl⟩
      exact ⟨y, hy, ys, hys, rfl⟩

end Run

/-! ### Calls that come to an end -/

/-- Without cycles in its arguments a builtin comes to an end, and there are none in what it
gives. -/
theorem Builtin.exists_returns_run {st : Store} {b : Builtin} {args : List Value}
    (haccepts : b.arity.accepts args.length = true) (hargs : ∀ v ∈ args, st.Acyclic v)
    (bytes : ByteArray) :
    ∃ v sink, (b.run st args (.unlimited bytes)).Returns (.ok v, sink) ∧ st.Acyclic v := by
  have hfound : ∀ {r : Option Value} {list : Value}, st.Acyclic list →
      (∀ w, r = some w → st.Reaches list w) → st.Acyclic (r.getD (.boolean false)) := by
    intro r list hlist hr
    cases r with
    | none => exact Store.acyclic_of_children rfl
    | some w => exact hlist.of_reaches (hr w rfl)
  -- The answer is logged as well, so its print has to end too: what is found is part of the list.
  cases b with
  | compare p =>
    obtain ⟨v, w, rfl⟩ := List.length_eq_two.1 (beq_iff_eq.1 haccepts)
    obtain ⟨r, hr⟩ := (hargs v (by simp)).exists_returns_same p w
    refine ⟨.boolean r, .unlimited bytes, ?_, Store.acyclic_of_children rfl⟩
    rw [run_compare, Run.returns_bind]
    exact ⟨r, hr, Run.returns_pure.2 rfl⟩
  | member p =>
    obtain ⟨v, w, rfl⟩ := List.length_eq_two.1 (beq_iff_eq.1 haccepts)
    have hw : st.Acyclic w := hargs w (by simp)
    obtain ⟨r, hr, hreach⟩ := (hargs v (by simp)).exists_returns_look .member p hw
    refine ⟨_, .unlimited bytes, ?_, hfound hw hreach⟩
    rw [run_member, Run.returns_bind]
    exact ⟨r, hr, Run.returns_pure.2 rfl⟩
  | assoc p =>
    obtain ⟨v, w, rfl⟩ := List.length_eq_two.1 (beq_iff_eq.1 haccepts)
    have hw : st.Acyclic w := hargs w (by simp)
    obtain ⟨r, hr, hreach⟩ := (hargs v (by simp)).exists_returns_look .assoc p hw
    refine ⟨_, .unlimited bytes, ?_, hfound hw hreach⟩
    rw [run_assoc, Run.returns_bind]
    exact ⟨r, hr, Run.returns_pure.2 rfl⟩
  | display =>
    obtain ⟨v, rfl⟩ := List.length_eq_one_iff.1 (beq_iff_eq.1 haccepts)
    obtain ⟨text, htext⟩ := (hargs v (by simp)).exists_returns_print .display
    refine ⟨.unspecified, .unlimited (bytes ++ text.toUTF8), ?_, Store.acyclic_of_children rfl⟩
    rw [run_display, Run.returns_bind]
    exact ⟨_, Store.returns_displayTo_iff.2 ⟨text, htext, rfl⟩, Run.returns_pure.2 rfl⟩
  | newline =>
    obtain rfl := List.length_eq_zero_iff.1 (beq_iff_eq.1 haccepts)
    refine ⟨.unspecified, .unlimited (bytes ++ "\n".toUTF8), ?_, Store.acyclic_of_children rfl⟩
    rw [run_newline, Run.returns_bind]
    exact ⟨_, Sink.returns_write_unlimited_iff.2 rfl, Run.returns_pure.2 rfl⟩

namespace Engine

variable {e e' plain traced : Engine} {st : Store} {b : Builtin} {args : List Value} {v : Value}

/-- A call as one line: the arguments in write form with spaces between them, and the write form of
what came of it. -/
def callText (b : Builtin) (args : List String) (result : String) : String :=
  "(" ++ b.name ++ " " ++ " ".intercalate args ++ ") => " ++ result

theorem returns_traceText_iff {text : String} :
    (traceText st b args (.ok v)).Returns text ↔
      ∃ texts result, List.Forall₂ (fun w s => (st.write w).Returns s) args texts ∧
        (st.write v).Returns result ∧ text = callText b texts result := by
  simp only [traceText, Run.returns_bind, Run.returns_pure, Run.returns_mapM_iff]
  constructor
  · rintro ⟨texts, htexts, result, hresult, rfl⟩
    exact ⟨texts, result, htexts, hresult, rfl⟩
  · rintro ⟨texts, result, htexts, hresult, rfl⟩
    exact ⟨texts, htexts, result, hresult, rfl⟩

theorem exists_write (hargs : ∀ v ∈ args, st.Acyclic v) :
    ∃ texts, List.Forall₂ (fun w s => (st.write w).Returns s) args texts := by
  induction args with
  | nil => exact ⟨[], .nil⟩
  | cons v args ih =>
    obtain ⟨texts, htexts⟩ := ih fun w hw => hargs w (List.mem_cons_of_mem v hw)
    obtain ⟨text, htext⟩ := (hargs v List.mem_cons_self).exists_returns_print .write
    exact ⟨text :: texts, .cons htext htexts⟩

end Engine

/-! ### One operation -/

def Operation.arguments : Operation → List Value
  | call _ args | apply _ args => args
  | _ => []

theorem Operation.arguments_of_builtin? {op : Operation} {b : Builtin} {args : List Value}
    (h : op.builtin? = some (b, args)) : op.arguments = args := by
  cases op with
  | call name args' =>
    obtain ⟨c, -, heq⟩ := Option.map_eq_some_iff.1 h
    cases heq
    rfl
  | apply procedure args' =>
    cases procedure with
    | builtin c =>
      cases h
      rfl
    | _ => cases h
  | _ => cases h

namespace Engine

variable {plain traced plain' traced' : Engine} {st : Store} {op : Operation}

/-- Two engines that are alike but for their logs, and of which the second traces its calls. -/
structure Twins (plain traced : Engine) : Prop where
  target : traced.target = plain.target
  pending : traced.pending = plain.pending
  off : plain.tracing = false
  on : traced.tracing = true

/-- The lines that an operation leaves when calls are traced: one if a builtin was found and let
run, and no other. -/
inductive Leaves (st : Store) (op : Operation) : Reply → List LogLine → Prop
  | call {b : Builtin} {args : List Value} {v : Value} {texts : List String} {result : String}
    (hop : op.builtin? = some (b, args)) (haccepts : b.arity.accepts args.length = true)
    (htexts : List.Forall₂ (fun w s => (st.write w).Returns s) args texts)
    (hresult : (st.write v).Returns result) :
    Leaves st op (.answer (.ok v)) [⟨.trace, source, callText b texts result⟩]
  | nothing {r : Reply}
    (h : ∀ b args, op.builtin? = some (b, args) → ¬b.arity.accepts args.length = true) :
    Leaves st op r []

/-- Two engines that took the same steps. -/
structure InStep (plain traced : Engine) (steps : List (Store × Operation × Reply))
    (plain' traced' : Engine) : Prop where
  runs : Session plain steps plain'
  runs_traced : Session traced steps traced'
  twins : Twins plain' traced'
  no_lines : plain'.log = plain.log
  lines : ∃ lines, List.Forall₂ (fun s ls => Leaves s.1 s.2.1 s.2.2 ls) steps lines ∧
    traced'.log = traced.log ++ lines.flatten.toArray

theorem InStep.nil (h : Twins plain traced) : InStep plain traced [] plain traced :=
  ⟨.nil plain, .nil traced, h, rfl, [], .nil, by simp⟩

/-- What holds of one step and of those behind it, holds of all of them. -/
theorem InStep.cons {plain'' traced'' : Engine} {r : Reply}
    {steps : List (Store × Operation × Reply)}
    (h : InStep plain traced [(st, op, r)] plain' traced')
    (hrest : InStep plain' traced' steps plain'' traced'') :
    InStep plain traced ((st, op, r) :: steps) plain'' traced'' := by
  obtain ⟨hplain, htraced, -, hno_lines, lines, hlines, hlog⟩ := h
  obtain ⟨hplain', htraced', htwins, hno_lines', lines', hlines', hlog'⟩ := hrest
  cases hplain with
  | cons hplain hnil =>
    cases hnil
    cases htraced with
    | cons htraced hnil =>
      cases hnil
      refine ⟨.cons hplain hplain', .cons htraced htraced', htwins, hno_lines'.trans hno_lines,
        lines ++ lines', List.rel_append hlines hlines', ?_⟩
      rw [hlog', hlog]
      simp

theorem Twins.callBuiltin {b : Builtin} {args : List Value} (h : Twins plain traced)
    (haccepts : b.arity.accepts args.length = true) (hargs : ∀ v ∈ args, st.Acyclic v) :
    ∃ v plain' traced' texts result,
      (plain.callBuiltin st b args).Returns (.ok v, plain') ∧
      (traced.callBuiltin st b args).Returns (.ok v, traced') ∧
      Twins plain' traced' ∧ plain'.log = plain.log ∧
      List.Forall₂ (fun w s => (st.write w).Returns s) args texts ∧
      (st.write v).Returns result ∧
      traced'.log = traced.log ++ #[⟨.trace, source, callText b texts result⟩] := by
  obtain ⟨v, sink, hrun, hv⟩ := Builtin.exists_returns_run haccepts hargs plain.pending
  obtain ⟨texts, htexts⟩ := exists_write hargs
  obtain ⟨result, hresult⟩ := hv.exists_returns_print .write
  have htext : (traceText st b args (.ok v)).Returns (callText b texts result) :=
    returns_traceText_iff.2 ⟨texts, result, htexts, hresult, rfl⟩
  have hplain : plain.TraceLines st b args (.ok v) #[] := by
    simp [TraceLines, h.off]
  have htraced : traced.TraceLines st b args (.ok v)
      #[⟨.trace, source, callText b texts result⟩] := by
    rw [TraceLines, if_pos h.on]
    exact ⟨_, htext, rfl⟩
  refine ⟨v, _, _, texts, result, (returns_callBuiltin_iff haccepts).2 ⟨sink, _, hrun, hplain, rfl⟩,
    (returns_callBuiltin_iff haccepts).2 ⟨sink, _, h.pending ▸ hrun, htraced, rfl⟩,
    ⟨h.target, rfl, h.off, h.on⟩, by simp, htexts, hresult, rfl⟩

theorem Twins.takeOutput (h : Twins plain traced) :
    traced.takeOutput.1 = plain.takeOutput.1 ∧
      Twins plain.takeOutput.2 traced.takeOutput.2 := by
  refine ⟨?_, h.target, rfl, h.off, h.on⟩
  simp only [Engine.takeOutput, h.target, h.pending]

/-- A step that calls no builtin leaves both logs as they are. -/
theorem InStep.quiet {r : Reply} (hplain : (plain.perform st op).Returns (r, plain'))
    (htraced : (traced.perform st op).Returns (r, traced')) (htwins : Twins plain' traced')
    (hlog : plain'.log = plain.log) (hlog' : traced'.log = traced.log)
    (hnothing : ∀ b args, op.builtin? = some (b, args) → ¬b.arity.accepts args.length = true) :
    InStep plain traced [(st, op, r)] plain' traced' :=
  ⟨.cons hplain (.nil _), .cons htraced (.nil _), htwins, hlog, [[]],
    .cons (.nothing hnothing) .nil, by simp [hlog']⟩

/-- Two engines in step take the next step alike. -/
theorem Twins.perform (h : Twins plain traced) (hargs : ∀ v ∈ op.arguments, st.Acyclic v) :
    ∃ r plain' traced', InStep plain traced [(st, op, r)] plain' traced' := by
  cases hb : op.builtin? with
  | none =>
    -- Nothing is called, so neither engine gets as far as its tracing.
    have hnothing : ∀ b args, op.builtin? = some (b, args) →
        ¬b.arity.accepts args.length = true := by simp [hb]
    by_cases htake : op = .take
    · subst htake
      obtain ⟨htaken, htwins⟩ := h.takeOutput
      exact ⟨_, _, _, .quiet (Run.returns_pure.2 rfl) (Run.returns_pure.2 (by rw [htaken])) htwins
        rfl rfl hnothing⟩
    · obtain ⟨a, hperform, -⟩ := exists_perform_eq st hb htake
      have hsame : ∀ e : Engine, (e.perform st op).Returns (.answer a, e) := by
        intro e
        rw [hperform, Run.returns_pure]
      exact ⟨_, _, _, .quiet (hsame plain) (hsame traced) h rfl rfl hnothing⟩
  | some p =>
    obtain ⟨b, args⟩ := p
    by_cases haccepts : b.arity.accepts args.length = true
    · rw [Operation.arguments_of_builtin? hb] at hargs
      obtain ⟨v, plain', traced', texts, result, hplain, htraced, htwins, hlog, htexts, hresult,
        hlog'⟩ := h.callBuiltin haccepts hargs
      exact ⟨_, _, _, .cons ((returns_perform_iff hb).2 ⟨_, hplain, rfl⟩) (.nil _),
        .cons ((returns_perform_iff hb).2 ⟨_, htraced, rfl⟩) (.nil _), htwins, hlog, [_],
        .cons (.call hb haccepts htexts hresult) .nil, hlog'⟩
    · -- The engine refuses the call before the builtin runs, and logs nothing.
      have hrefused : ∀ e : Engine, (e.perform st op).Returns
          (.answer (.error (.arity b.name b.arity args.length)), e) := by
        intro e
        refine (returns_perform_iff hb).2 ⟨_, ?_, rfl⟩
        rw [callBuiltin_of_not_accepts haccepts, Run.returns_pure]
      have hnothing : ∀ c args', op.builtin? = some (c, args') →
          ¬c.arity.accepts args'.length = true := by
        rintro c args' heq
        cases hb.symm.trans heq
        exact haccepts
      exact ⟨_, _, _, .quiet (hrefused plain) (hrefused traced) h rfl rfl hnothing⟩

/-! ### Whole runs -/

/-- No argument of these operations has a cycle in the store of its operation. -/
def AcyclicArguments (ops : List (Store × Operation)) : Prop :=
  ∀ p ∈ ops, ∀ v ∈ p.2.arguments, p.1.Acyclic v

theorem Twins.exists_inStep (h : Twins plain traced) {ops : List (Store × Operation)}
    (hargs : AcyclicArguments ops) :
    ∃ steps plain' traced', operations steps = ops ∧ InStep plain traced steps plain' traced' := by
  induction ops generalizing plain traced with
  | nil => exact ⟨[], plain, traced, rfl, .nil h⟩
  | cons p ops ih =>
    obtain ⟨st, op⟩ := p
    obtain ⟨hfirst, hbehind⟩ := List.forall_mem_cons.1 hargs
    obtain ⟨r, plain₁, traced₁, hstep⟩ := h.perform hfirst
    obtain ⟨steps, plain', traced', rfl, hsteps⟩ := ih hstep.twins hbehind
    exact ⟨(st, op, r) :: steps, plain', traced', rfl, hstep.cons hsteps⟩

/-- Tracing does not interfere: on operations without cycles in their arguments, two engines that
are alike but for tracing come to their ends, with the same replies all along. What was called and
what came of it is in the log of the one, and the log of the other is what it was. -/
theorem tracing_faithful (h : Twins plain traced) {ops : List (Store × Operation)}
    (hargs : AcyclicArguments ops) :
    ∃ steps plain' traced', operations steps = ops ∧ InStep plain traced steps plain' traced' ∧
      (∀ steps' e, Session plain steps' e → operations steps' = ops → steps' = steps ∧ e = plain') ∧
      ∀ steps' e, Session traced steps' e → operations steps' = ops →
        steps' = steps ∧ e = traced' := by
  obtain ⟨steps, plain', traced', rfl, hstep⟩ := h.exists_inStep hargs
  exact ⟨steps, plain', traced', rfl, hstep, fun _ _ h' hops => h'.unique hstep.runs hops,
    fun _ _ h' hops => h'.unique hstep.runs_traced hops⟩

/-- A string in a list of one. -/
def lettered : Store := ⟨#[.string "two", .pair (.string 0) .nil], .empty⟩

theorem lettered.acyclic : lettered.Acyclic (.pair 1) :=
  Store.acyclic_of_returns_hashInput ⟨3, rfl⟩

def letteredOperations : List (Store × Operation) :=
  [.call "display" [.pair 1], .call "display" [], .call "print" [.pair 1], .apply (.code 7) [],
    .apply (.builtin .newline) [], .take, .procedure "eq?",
    .call "equal?" [.pair 1, .nil]].map (lettered, ·)

def letteredLines : Array LogLine :=
  #[⟨.trace, source, "(display (\"two\")) => #<unspecified>"⟩,
    ⟨.trace, source, "(newline ) => #<unspecified>"⟩,
    ⟨.trace, source, "(equal? (\"two\") ()) => #f"⟩]

/-- Three of the eight operations are calls that are let run. -/
theorem tracing_faithful_lettered :
    Twins (create .buffer false) (create .buffer true) ∧ AcyclicArguments letteredOperations ∧
      ∃ steps plain traced, operations steps = letteredOperations ∧
        InStep (create .buffer false) (create .buffer true) steps plain traced ∧
        traced.log = (create .buffer true).log ++ letteredLines := by
  have htwins : Twins (create .buffer false) (create .buffer true) := ⟨rfl, rfl, rfl, rfl⟩
  have hargs : AcyclicArguments letteredOperations := by
    have hnil : lettered.Acyclic .nil := Store.acyclic_of_children rfl
    simp [AcyclicArguments, letteredOperations, Operation.arguments, lettered.acyclic, hnil]
  obtain ⟨steps, plain, traced, hops, hstep, -, hunique⟩ := tracing_faithful htwins hargs
  obtain ⟨steps', e, h, hops', hlog⟩ : ∃ steps e, Session (create .buffer true) steps e ∧
      operations steps = letteredOperations ∧
      e.log = (create .buffer true).log ++ letteredLines :=
    ⟨letteredOperations.zipWith (fun p r => (p.1, p.2, r)) [_, _, _, _, _, _, _, _], _,
      .cons ⟨8, rfl⟩ (.cons ⟨0, rfl⟩ (.cons ⟨0, rfl⟩ (.cons ⟨0, rfl⟩ (.cons ⟨8, rfl⟩
        (.cons ⟨0, rfl⟩ (.cons ⟨0, rfl⟩ (.cons ⟨8, rfl⟩ (.nil _)))))))), rfl, rfl⟩
  obtain ⟨-, rfl⟩ := hunique steps' e h hops'
  exact ⟨htwins, hargs, steps, plain, _, hops, hstep, hlog⟩

end Engine

end Sameness
