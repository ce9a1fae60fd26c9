import Sameness.Printing.Literal
import Sameness.Double.Decimal
import Sameness.Run
import Sameness.Sink
import Sameness.Store

/-!
The text of a value: `write` form, in which strings and characters are literals, and `display` form,
in which they are themselves.

Both are printed piece by piece from a list of what is still to be printed, so a text can be cut off
by a full sink long before a cyclic structure would have come to its end.
-/

namespace Sameness

inductive Mode where
  | write
  | display
  deriving DecidableEq, Repr

/-- Something still to be printed: a text, a value, or the rest of a list whose beginning is
printed. -/
inductive Piece where
  | text (s : String)
  | value (v : Value)
  | tail (v : Value)

namespace Mode

def character : Mode → Char → String
  | write, c => Literal.character c
  | display, c => c.toString

def string : Mode → String → String
  | write, s => Literal.string s
  | display, s => s

end Mode

def Builtin.text (b : Builtin) : String := "#<procedure " ++ b.name ++ ">"

/-- Context or not, a procedure is printed by its code. -/
def codeText (id : UInt64) : String := "#<procedure #" ++ toString id.toNat ++ ">"

def boolText (b : Bool) : String := if b then "#t" else "#f"

namespace Store

/-- The text of a value that is printed at one go; pairs and vectors are not. -/
def leafText (st : Store) (m : Mode) : Value → String
  | .pair _ | .vector _ => ""
  | .nil => "()"
  | .unspecified => "#<unspecified>"
  | .boolean b => boolText b
  | .number x => x.text
  | .character c => m.character c
  | .symbol id => st.symbols.nameOf id
  | .builtin b => b.text
  | .code id | .closure id _ => codeText id
  | .boolVector a => "#bool(" ++ " ".intercalate ((st.bits a).toList.map boolText) ++ ")"
  | .string a => m.string (st.text a)
  | .host a => "#<opaque " ++ st.hostType a ++ ">"

/-- The first part of a piece, and the pieces that follow it. -/
def expand (st : Store) (m : Mode) : Piece → String × List Piece
  | .text s => (s, [])
  | .value (.pair a) => ("(", [.value (st.parts a).1, .tail (st.parts a).2])
  | .value (.vector a) =>
    ("#(", ((st.elements a).toList.map .value).intersperse (.text " ") ++ [.text ")"])
  | .value v => (st.leafText m v, [])
  | .tail .nil => (")", [])
  | .tail (.pair a) => (" ", [.value (st.parts a).1, .tail (st.parts a).2])
  | .tail v => (" . ", [.value v, .text ")"])

def visitText (st : Store) (m : Mode) (printed : String) (p : Piece) : String × List Piece :=
  let (s, below) := st.expand m p
  (printed ++ s, below)

/-- Writes the first part of the first piece, and goes on unless the sink refused it. -/
def sinkTurn (st : Store) (m : Mode) :
    Sink × List Piece → Run (Run.Turn (Sink × List Piece) Sink.Written)
  | (sink, []) => pure (.stop (.ok (), sink))
  | (sink, p :: todo) => do
    let (s, below) := st.expand m p
    match ← sink.write s with
    | (.ok (), sink) => return .again (sink, below ++ todo)
    | (.error text, sink) => return .stop (.error text, sink)

/-- The empty list is quoted when it is displayed, but only as the whole value. -/
def whole : Mode → Value → Piece
  | .display, .nil => .text "'()"
  | _, v => .value v

def print (st : Store) (m : Mode) (v : Value) : Run String :=
  Run.sweep (st.visitText m) "" [whole m v]

def write (st : Store) (v : Value) : Run String := st.print .write v

def display (st : Store) (v : Value) : Run String := st.print .display v

/-- Displays into a sink, up to the first piece that is refused. -/
def displayTo (st : Store) (sink : Sink) (v : Value) : Run Sink.Written :=
  Run.loop (st.sinkTurn .display) (sink, [whole .display v])

end Store

end Sameness
