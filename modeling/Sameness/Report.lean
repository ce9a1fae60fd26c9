import Sameness.Catalogue
import Sameness.Engine
import Sameness.Lines

/-! The table of the predicates over the catalogue, and what else the program prints. -/

namespace Sameness

structure Options where
  predicates : List String
  case? : Option String
  list : Bool
  verbosity : Nat
  deriving DecidableEq, Repr

/-- What a run of the program leaves behind: its exit code, what it printed, and the messages that
it wrote to standard error, each with a line feed behind it. -/
structure Report where
  exit : Nat
  stdout : String
  stderr : List String
  deriving DecidableEq, Repr

namespace Report

/-- A message may hold line breaks, so it may be more than one line. -/
def errorLines (r : Report) : List String :=
  Lines.ofString (String.join (r.stderr.map (· ++ "\n")))

def programName : String := "schemeq"

def padRight (width : Nat) (s : String) : String :=
  s ++ String.ofList (List.replicate (width - s.length) ' ')

/-- Names as a list of string literals. -/
def namesText (names : List String) : String :=
  "[" ++ ", ".intercalate (names.map fun n => "\"" ++ n ++ "\"") ++ "]"

/-- How much is logged for so many `-v`. -/
def threshold : Nat → Level
  | 0 => .warn
  | 1 => .debug
  | _ => .trace

/-- The filter that is set from outside, if there is one, goes before the number of `-v`. -/
def filter (setting? : Option String) (o : Options) : String :=
  setting?.getD (threshold o.verbosity).filter

def internedLine (id : Nat) (name : String) : LogLine :=
  ⟨.debug, "schemeq::interning", "interned symbol `" ++ name ++ "` as #" ++ toString id⟩

/-- Symbols are numbered as they are interned, so the table tells the log. -/
def internedLines (t : SymbolTable) : List LogLine :=
  t.names.toList.zipIdx.map fun (name, id) => internedLine id name

def occursIn (part : List Char) : List Char → Bool
  | [] => part.isEmpty
  | c :: cs => part.isPrefixOf (c :: cs) || occursIn part cs

def selected (o : Options) (c : Case) : Bool :=
  match o.case? with
  | none => true
  | some part => occursIn part.toList c.name.toList

def columns (first second third : String) : String :=
  padRight 22 first ++ " " ++ padRight 28 second ++ " " ++ padRight 28 third

def cell (s : String) : String := " " ++ padRight 7 s

def header (predicates : List String) : String :=
  columns "case" "left" "right" ++ String.join (predicates.map cell) ++ "\n"

/-- What is printed so far. After a failure nothing follows. -/
structure Progress where
  stdout : String
  engine : Engine
  failure : Option String

/-- One line of the table, from its first predicate cell on. -/
def printCells (st : Store) (c : Case) : List String → Progress → Run Progress
  | [], t => pure { t with stdout := t.stdout ++ "\n" }
  | p :: ps, t => do
    let (answer, engine) ← t.engine.call st p [c.left, c.right]
    match answer with
    | .ok v =>
      let text ← st.write v
      printCells st c ps { t with engine, stdout := t.stdout ++ cell text }
    | .error f =>
      let message := "Error running " ++ p ++ " on " ++ c.name ++ ": " ++ f.message
      return { t with engine, failure := some message }

def printCases (st : Store) (predicates : List String) : List Case → Progress → Run Progress
  | [], t => pure t
  | c :: cs, t => do
    let left ← st.write c.left
    let right ← st.write c.right
    let t ← printCells st c predicates { t with stdout := t.stdout ++ columns c.name left right }
    match t.failure with
    | none => printCases st predicates cs t
    | some _ => pure t

def unknownPredicate (name : String) : Report where
  exit := 2
  stdout := ""
  stderr := ["Unknown predicate '" ++ name ++ "', expected one of " ++
    namesText (Predicate.all.map (·.name))]

/-- Without a choice all predicates are asked. -/
def chosen (o : Options) : List String :=
  if o.predicates.isEmpty then Predicate.all.map (·.name) else o.predicates

/-- The log lines that come before anything else. -/
def openingLines (o : Options) (st : Store) : List LogLine :=
  (Engine.create .stdout (2 ≤ o.verbosity)).log.toList ++ internedLines st.symbols

def announcement (cases : List Case) (predicates : List String) : LogLine :=
  ⟨.info, programName, "running " ++ toString cases.length ++ " cases through " ++
    namesText predicates⟩

def ofSelection (logger : Logger) (filter : String) (o : Options) (st : Store)
    (cases : List Case) : Run Report := do
  let opening := openingLines o st
  if o.list then
    return ⟨0, String.join (cases.map fun c => c.name ++ "\n"), logger.print filter opening⟩
  let predicates := chosen o
  let engine := ((Engine.create .stdout (2 ≤ o.verbosity)).takeLog).2
  let t ← printCases st predicates cases ⟨header predicates, engine, none⟩
  let stderr := logger.print filter
    (opening ++ announcement cases predicates :: t.engine.log.toList)
  match t.failure with
  | none => return ⟨0, t.stdout, stderr⟩
  | some message => return ⟨1, t.stdout, stderr ++ [message]⟩

/-- What the program leaves behind, with a logger that the surroundings may have set a
filter for. -/
def ofOptions (logger : Logger) (setting? : Option String) (o : Options) : Run Report :=
  match o.predicates.find? fun p => (Predicate.ofName? p).isNone with
  | some p => pure (unknownPredicate p)
  | none =>
    let (cases, st) := Catalogue.cases.run .empty
    ofSelection logger (filter setting? o) o st (cases.filter (selected o))

end Report

end Sameness
