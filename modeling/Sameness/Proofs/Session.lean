import Sameness.Engine
import Sameness.Proofs.Walk

/-!
Engines over whole runs of operations.
-/

namespace Sameness

/-- What may be asked of an engine. -/
inductive Operation where
  | call (name : String) (args : List Value)
  | apply (procedure : Procedure) (args : List Value)
  | procedure (name : String)
  | take
  deriving DecidableEq

inductive Reply where
  | answer (a : Answer)
  | taken (t : Engine.Taken)

/-- The builtin that an operation is a call of, with its arguments. -/
def Operation.builtin? : Operation → Option (Builtin × List Value)
  | call name args => (Builtin.ofName? name).map (·, args)
  | apply (.builtin b) args => some (b, args)
  | _ => none

namespace Engine

def perform (e : Engine) (st : Store) : Operation → Run (Reply × Engine)
  | .call name args => do
    let (a, e) ← e.call st name args
    return (.answer a, e)
  | .apply procedure args => do
    let (a, e) ← e.apply st procedure args
    return (.answer a, e)
  | .procedure name => pure (.answer (Engine.procedure name), e)
  | .take => pure (.taken e.takeOutput.1, e.takeOutput.2)

/-- One operation after the other, all of which return. The store may change between
them. -/
inductive Session : Engine → List (Store × Operation × Reply) → Engine → Prop
  | nil (e : Engine) : Session e [] e
  | cons {e e' e'' : Engine} {st : Store} {op : Operation} {r : Reply}
    {steps : List (Store × Operation × Reply)} (h : (e.perform st op).Returns (r, e'))
    (hrest : Session e' steps e'') : Session e ((st, op, r) :: steps) e''

variable {e e' : Engine} {st : Store} {b : Builtin} {args : List Value} {a : Answer}

/-! ### Calls -/

/-- The lines that a call leaves in the log: one if calls are traced. -/
def TraceLines (e : Engine) (st : Store) (b : Builtin) (args : List Value) (a : Answer)
    (lines : Array LogLine) : Prop :=
  if e.tracing then
    ∃ text, (traceText st b args a).Returns text ∧ lines = #[⟨.trace, source, text⟩]
  else lines = #[]

theorem callBuiltin_of_not_accepts (h : ¬b.arity.accepts args.length = true) :
    e.callBuiltin st b args = pure (.error (.arity b.name b.arity args.length), e) := by
  rw [callBuiltin, if_neg h]

/-- All that a call does to an engine. -/
theorem returns_callBuiltin_iff (h : b.arity.accepts args.length = true) :
    (e.callBuiltin st b args).Returns (a, e') ↔
      ∃ sink lines, (b.run st args (.unlimited e.pending)).Returns (a, sink) ∧
        e.TraceLines st b args a lines ∧
        e' = { e with pending := sink.written, log := e.log ++ lines } := by
  rw [callBuiltin, if_pos h, Run.returns_bind]
  constructor
  · rintro ⟨⟨answer, sink⟩, hrun, hrest⟩
    cases htracing : e.tracing with
    | false =>
      simp only [htracing, Bool.false_eq_true, if_false, Run.returns_pure, Prod.mk.injEq] at hrest
      obtain ⟨rfl, rfl⟩ := hrest
      exact ⟨sink, #[], hrun, by simp [TraceLines, htracing], by simp⟩
    | true =>
      simp only [htracing, if_true, Run.returns_bind, Run.returns_pure, Prod.mk.injEq] at hrest
      obtain ⟨text, htext, rfl, rfl⟩ := hrest
      refine ⟨sink, #[⟨.trace, source, text⟩], hrun, ?_, by simp⟩
      rw [TraceLines, if_pos htracing]
      exact ⟨text, htext, rfl⟩
  · rintro ⟨sink, lines, hrun, hlines, rfl⟩
    refine ⟨(a, sink), hrun, ?_⟩
    cases htracing : e.tracing with
    | false =>
      simp only [TraceLines, htracing, Bool.false_eq_true, if_false] at hlines
      simp [hlines]
    | true =>
      simp only [TraceLines, htracing, if_true] at hlines
      obtain ⟨text, htext, rfl⟩ := hlines
      simp only [if_true, Run.returns_bind, Run.returns_pure]
      exact ⟨text, htext, by simp⟩

/-! ### Operations -/

theorem returns_perform_iff {op : Operation} {r : Reply} (h : op.builtin? = some (b, args)) :
    (e.perform st op).Returns (r, e') ↔
      ∃ a, (e.callBuiltin st b args).Returns (a, e') ∧ r = .answer a := by
  have hcall : e.perform st op = (do
      let (a, e) ← e.callBuiltin st b args
      return (.answer a, e)) := by
    cases op with
    | call name args' =>
      obtain ⟨c, hc, heq⟩ := Option.map_eq_some_iff.1 h
      cases heq
      simp only [perform, call, hc]
    | apply procedure args' =>
      cases procedure with
      | builtin c =>
        cases h
        rfl
      | _ => cases h
    | procedure name => cases h
    | take => cases h
  rw [hcall, Run.returns_bind]
  constructor
  · rintro ⟨⟨a, f⟩, ha, hr⟩
    cases Run.returns_pure.1 hr
    exact ⟨a, ha, rfl⟩
  · rintro ⟨a, ha, rfl⟩
    exact ⟨(a, e'), ha, Run.returns_pure.2 rfl⟩

/-- What is no call of a builtin is answered at once, by all engines alike, and they stay as they
are. -/
theorem exists_perform_eq (st : Store) {op : Operation} (h : op.builtin? = none)
    (hop : op ≠ .take) :
    ∃ a, (∀ e : Engine, e.perform st op = pure (.answer a, e)) ∧
      ∀ text, a ≠ .error (.io text) := by
  cases op with
  | call name args =>
    have hname : Builtin.ofName? name = none := Option.map_eq_none_iff.1 h
    refine ⟨.error (.unknownBuiltin name), fun e => ?_, nofun⟩
    simp only [perform, call, hname]
    rfl
  | apply procedure args =>
    cases procedure with
    | builtin c => cases h
    | code id | closure id c => exact ⟨_, fun e => rfl, nofun⟩
  | procedure name =>
    refine ⟨_, fun e => rfl, fun text => ?_⟩
    unfold Engine.procedure
    split <;> nofun
  | take => exact absurd rfl hop

/-! ### Runs -/

/-- What was asked for, step by step. -/
def operations (steps : List (Store × Operation × Reply)) : List (Store × Operation) :=
  steps.map fun s => (s.1, s.2.1)

/-- The replies and the engine at the end are settled by what is asked for. -/
theorem Session.unique {e₁ e₂ : Engine} {steps₁ steps₂ : List (Store × Operation × Reply)}
    (h₁ : Session e steps₁ e₁) (h₂ : Session e steps₂ e₂)
    (hops : operations steps₁ = operations steps₂) : steps₁ = steps₂ ∧ e₁ = e₂ := by
  induction h₁ generalizing steps₂ with
  | nil e =>
    cases h₂ with
    | nil => exact ⟨rfl, rfl⟩
    | cons => cases hops
  | @cons e e' e₁ st op r steps hperform hrest ih =>
    cases h₂ with
    | nil => cases hops
    | cons hperform₂ hrest₂ =>
      simp only [operations, List.map_cons, List.cons.injEq, Prod.mk.injEq] at hops
      obtain ⟨⟨rfl, rfl⟩, hops⟩ := hops
      cases hperform.unique hperform₂
      obtain ⟨rfl, rfl⟩ := ih hrest₂ hops
      exact ⟨rfl, rfl⟩

end Engine

end Sameness
