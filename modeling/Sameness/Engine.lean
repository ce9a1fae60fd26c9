import Sameness.Failure
import Sameness.Log
import Sameness.Printing
import Sameness.Search

/-!
Calling procedures. An engine checks arities, collects or prints what is displayed, and keeps a log.
-/

namespace Sameness

abbrev Answer := Except Failure Value

/-! ### Builtins -/

namespace Builtin

/-- The arguments of a builtin that takes `n` of them, or its own complaint, in the name that it
goes by. -/
def inputs (name : String) (n : Nat) (args : List Value) : Except Failure (Vector Value n) :=
  if h : args.length = n then .ok ⟨args.toArray, h⟩
  else .error (.arity name (.exactly n) args.length)

variable {name : String} {n : Nat} {args : List Value}

theorem inputs_of_ne (h : args.length ≠ n) :
    inputs name n args = .error (.arity name (.exactly n) args.length) := by
  rw [inputs, dif_neg h]

def withInputs (name : String) (n : Nat) (body : Vector Value n → Sink → Run (Answer × Sink))
    (args : List Value) (sink : Sink) : Run (Answer × Sink) :=
  match inputs name n args with
  | .ok vs => body vs sink
  | .error f => pure (.error f, sink)

def runCompare (st : Store) (name : String) (p : Predicate) :=
  withInputs name 2 fun vs sink => do return (.ok (.boolean (← st.same p vs[0] vs[1])), sink)

def runMember (st : Store) (name : String) (p : Predicate) :=
  withInputs name 2 fun vs sink => do
    return (.ok ((← st.member p vs[0] vs[1]).getD (.boolean false)), sink)

def runAssoc (st : Store) (name : String) (p : Predicate) :=
  withInputs name 2 fun vs sink => do
    return (.ok ((← st.assoc p vs[0] vs[1]).getD (.boolean false)), sink)

/-- The answer to what was written. -/
def written : Sink.Written → Answer × Sink
  | (.ok (), sink) => (.ok .unspecified, sink)
  | (.error text, sink) => (.error (.io text), sink)

def runDisplay (st : Store) :=
  withInputs "display" 1 fun vs sink => do return written (← st.displayTo sink vs[0])

def runNewline := withInputs "newline" 0 fun _ sink => do return written (← sink.write "\n")

/-- Runs a builtin, whatever it is given. All but `display` and `newline` leave the sink alone. -/
def run (st : Store) (b : Builtin) : List Value → Sink → Run (Answer × Sink) :=
  match b with
  | compare .eq => runCompare st "eq?" .eq
  | compare .eqv => runCompare st "eqv?" .eqv
  | compare .equal => runCompare st "equal?" .equal
  | member .eq => runMember st "memq" .eq
  | member .eqv => runMember st "memv" .eqv
  | member .equal => runMember st "member" .equal
  | assoc .eq => runAssoc st "assq" .eq
  | assoc .eqv => runAssoc st "assv" .eqv
  | assoc .equal => runAssoc st "assoc" .equal
  | display => runDisplay st
  | newline => runNewline

section

variable {st : Store} {p : Predicate} {v w : Value} {sink : Sink}

theorem run_compare : (compare p).run st [v, w] sink = do
    return (.ok (.boolean (← st.same p v w)), sink) := by
  cases p <;> rfl

theorem run_member : (member p).run st [v, w] sink = do
    return (.ok ((← st.member p v w).getD (.boolean false)), sink) := by
  cases p <;> rfl

theorem run_assoc : (assoc p).run st [v, w] sink = do
    return (.ok ((← st.assoc p v w).getD (.boolean false)), sink) := by
  cases p <;> rfl

theorem run_display : display.run st [v] sink = do return written (← st.displayTo sink v) := rfl

theorem run_newline : newline.run st [] sink = do return written (← sink.write "\n") := rfl

end

end Builtin

/-! ### Engines -/

/-- Where `display` and `newline` write to. -/
inductive Target where
  | stdout
  | buffer
  deriving DecidableEq, Repr

def Target.name : Target → String
  | stdout => "Stdout"
  | buffer => "Buffer"

/-- `pending` holds the bytes written since they were last taken. -/
structure Engine where
  target : Target
  tracing : Bool
  pending : ByteArray
  log : Array LogLine

namespace Engine

def source : String := "schemeq::runtime"

/-- A new engine, with its creation in the log. -/
def create (target : Target) (tracing : Bool) : Engine where
  target := target
  tracing := tracing
  pending := .empty
  log := #[⟨.debug, source, "runtime created (output: " ++ target.name ++ ", trace_calls: " ++
    toString tracing ++ ")"⟩]

/-- A call as it is logged: the arguments in write form, and what came of it. -/
def traceText (st : Store) (b : Builtin) (args : List Value) (answer : Answer) : Run String := do
  let args ← args.mapM st.write
  let result ← match answer with
    | .ok v => st.write v
    | .error f => pure f.message
  return "(" ++ b.name ++ " " ++ " ".intercalate args ++ ") => " ++ result

/-- Calls a builtin once the number of arguments is right. -/
def callBuiltin (e : Engine) (st : Store) (b : Builtin) (args : List Value) :
    Run (Answer × Engine) := do
  if b.arity.accepts args.length then
    let (answer, sink) ← b.run st args (.unlimited e.pending)
    let e := { e with pending := sink.written }
    if e.tracing then
      let line := ⟨.trace, source, ← traceText st b args answer⟩
      return (answer, { e with log := e.log.push line })
    else return (answer, e)
  else return (.error (.arity b.name b.arity args.length), e)

def call (e : Engine) (st : Store) (name : String) (args : List Value) : Run (Answer × Engine) :=
  match Builtin.ofName? name with
  | some b => e.callBuiltin st b args
  | none => pure (.error (.unknownBuiltin name), e)

def notRunnable (id : UInt64) : Failure :=
  .notApplicable ("compiled procedure #" ++ toString id.toNat ++ " without an evaluator")

/-- Compiled code is for an evaluator to run. -/
def apply (e : Engine) (st : Store) (procedure : Procedure) (args : List Value) :
    Run (Answer × Engine) :=
  match procedure with
  | .builtin b => e.callBuiltin st b args
  | .code id | .closure id _ => pure (.error (notRunnable id), e)

/-- A builtin as a value. -/
def procedure (name : String) : Answer :=
  match Builtin.ofName? name with
  | some b => .ok (.builtin b)
  | none => .error (.unknownBuiltin name)

/-- What was written since the last time: the text that is handed out, which is empty if it went to
standard output, and the text that was printed there. -/
structure Taken where
  output : String
  printed : String
  deriving DecidableEq, Repr

def takeOutput (e : Engine) : Taken × Engine :=
  let text := Utf8.decode e.pending
  let taken := match e.target with
    | .buffer => ⟨text, ""⟩
    | .stdout => ⟨"", text⟩
  (taken, { e with pending := .empty })

/-- The log so far, which starts anew. -/
def takeLog (e : Engine) : Array LogLine × Engine := (e.log, { e with log := #[] })

end Engine

end Sameness
