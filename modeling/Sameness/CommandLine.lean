import Sameness.Report

/-! What a command line asks for. -/

namespace Sameness

namespace CommandLine

inductive Request where
  | run (o : Options)
  | version
  | help
  | refused
  deriving DecidableEq, Repr

/-- The options that take a value. -/
inductive Setting where
  | predicate
  | case
  deriving DecidableEq, Repr

/-- The shapes of an argument. A lone hyphen is plain. -/
inductive Word where
  | terminator
  | long (name : List Char) (value : Option (List Char))
  | short (letters : List Char)
  | plain
  deriving DecidableEq, Repr

/-- Splits at the first equals sign. -/
def splitValue : List Char → List Char × Option (List Char)
  | [] => ([], none)
  | '=' :: cs => ([], some cs)
  | c :: cs => ((splitValue cs).1.cons c, (splitValue cs).2)

def Word.ofArgument (argument : String) : Word :=
  match argument.toList with
  | ['-', '-'] => .terminator
  | '-' :: '-' :: cs => .long (splitValue cs).1 (splitValue cs).2
  | '-' :: c :: cs => .short (c :: cs)
  | _ => .plain

/-- What an argument leaves to be done. -/
inductive Progress where
  | read (o : Options)
  | awaits (s : Setting) (o : Options)
  | finished (r : Request)

/-- The case filter may be given once. -/
def give (s : Setting) (value : String) (o : Options) : Progress :=
  match s, o.case? with
  | .predicate, _ => .read { o with predicates := o.predicates ++ [value] }
  | .case, none => .read { o with case? := some value }
  | .case, some _ => .finished .refused

def giveAttached (s : Setting) (value : Option (List Char)) (o : Options) : Progress :=
  match value with
  | none => .awaits s o
  | some cs => give s (String.ofList cs) o

def readLong (o : Options) (name : List Char) (value : Option (List Char)) : Progress :=
  match String.ofList name, value with
  | "predicate", value => giveAttached .predicate value o
  | "case", value => giveAttached .case value o
  | "list", none => if o.list then .finished .refused else .read { o with list := true }
  | "verbose", none => .read { o with verbosity := o.verbosity + 1 }
  | "version", none => .finished .version
  | "help", none => .finished .help
  | _, _ => .finished .refused

/-- A value may stand right behind the letter of its option, with or without an equals sign. -/
def attached : List Char → Option (List Char)
  | [] => none
  | '=' :: cs => some cs
  | cs => some cs

def readShort (o : Options) : List Char → Progress
  | [] => .read o
  | 'v' :: cs => readShort { o with verbosity := o.verbosity + 1 } cs
  | 'p' :: cs => giveAttached .predicate (attached cs) o
  | 'c' :: cs => giveAttached .case (attached cs) o
  | 'V' :: _ => .finished .version
  | 'h' :: _ => .finished .help
  | _ :: _ => .finished .refused

def readWord (o : Options) : Word → Progress
  | .long name value => readLong o name value
  | .short letters => readShort o letters
  | .terminator | .plain => .finished .refused

/-- Reads the arguments in order. A value is never taken for an option nor an option for a value,
and nothing may follow the terminator. -/
def parseFrom (o : Options) : List String → Request
  | [] => .run o
  | argument :: rest =>
    match Word.ofArgument argument with
    | .terminator => if rest.isEmpty then .run o else .refused
    | word =>
      match readWord o word with
      | .finished r => r
      | .read o => parseFrom o rest
      | .awaits s o =>
        match rest with
        | [] => .refused
        | value :: rest =>
          match Word.ofArgument value with
          | .plain =>
            match give s value o with
            | .read o => parseFrom o rest
            | _ => .refused
          | _ => .refused

def parse (arguments : List String) : Request := parseFrom ⟨[], none, false, 0⟩ arguments

/-! ### Answers -/

def version : Report := ⟨0, Report.programName ++ " 0.1.0\n", []⟩

def usage : String :=
  "Run the equivalence predicates over a catalogue of values\n\n" ++
  "Usage: " ++ Report.programName ++ " [OPTIONS]\n\n" ++
  "Options:\n" ++
  "  -p, --predicate <PREDICATES>  eq?, eqv? or equal? (repeatable)\n" ++
  "  -c, --case <CASE>             Only run catalogue cases whose name contains this text\n" ++
  "      --list                    Print catalogue case names and exit\n" ++
  "  -v, --verbose...              Increase log verbosity " ++
    "(-v debug, -vv trace with call tracing)\n" ++
  "  -h, --help                    Print help\n" ++
  "  -V, --version                 Print version\n"

def help : Report := ⟨0, usage, []⟩

/-- `none` if the arguments are refused. -/
def answer (logger : Logger) (setting? : Option String) : Request → Run (Option Report)
  | .run o => some <$> Report.ofOptions logger setting? o
  | .version => pure (some version)
  | .help => pure (some help)
  | .refused => pure none

/-- What a refused command line leaves behind. -/
def refusal : Report := ⟨2, "", ["error: these arguments are not understood", "",
  "Usage: " ++ Report.programName ++ " [OPTIONS]", "", "For more information, try '--help'."]⟩

end CommandLine

end Sameness
