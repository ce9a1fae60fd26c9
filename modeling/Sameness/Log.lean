/-!
The log: lines of a level and a source, and the logger that lets some of them pass.
-/

namespace Sameness

inductive Level where
  | warn | info | debug | trace
  deriving DecidableEq, Repr

namespace Level

def all : List Level := [warn, info, debug, trace]

/-- The more, the chattier. -/
def verbosity : Level → Nat
  | warn => 0
  | info => 1
  | debug => 2
  | trace => 3

def name : Level → String
  | warn => "WARN"
  | info => "INFO"
  | debug => "DEBUG"
  | trace => "TRACE"

/-- The filter that asks for this level. -/
def filter : Level → String
  | warn => "warn"
  | info => "info"
  | debug => "debug"
  | trace => "trace"

/-- Names have four letters or five. -/
def column (l : Level) : String := if l.name.length = 4 then l.name ++ " " else l.name

end Level

structure LogLine where
  level : Level
  source : String
  text : String
  deriving DecidableEq, Repr

/-- Prints the lines that pass a filter. How the `n`-th of them is printed may depend on
the time. -/
structure Logger where
  passes : String → LogLine → Bool
  format : Nat → LogLine → String

namespace Logger

def print (logger : Logger) (filter : String) (lines : List LogLine) : List String :=
  (lines.filter (logger.passes filter)).mapIdx logger.format

/-- Puts the time and where a line comes from in front of it. The only filters are the levels, each
of which lets pass what is not chattier. -/
def stamped (time : Nat → String) : Logger where
  passes filter line :=
    match Level.all.find? (·.filter == filter) with
    | some level => line.level.verbosity ≤ level.verbosity
    | none => false
  format n line :=
    "[" ++ time n ++ " " ++ line.level.column ++ " " ++ line.source ++ "] " ++ line.text

end Logger

end Sameness
