import Sameness.Builtin
import Sameness.Double

/-!
Values. Atoms stand for themselves; pairs, vectors, strings and objects of the host are addresses of
cells in a `Store`, so copying a value never copies a cell.
-/

namespace Sameness

abbrev Address := Nat

/-- A `closure` is compiled code with the context it was bound to; builtins have none. -/
inductive Value where
  | nil
  | unspecified
  | boolean (b : Bool)
  | number (x : Double)
  | character (c : Char)
  | symbol (id : Nat)
  | builtin (b : Builtin)
  | code (id : UInt64)
  | closure (id : UInt64) (context : Value)
  | pair (cell : Address)
  | vector (cell : Address)
  | boolVector (cell : Address)
  | string (cell : Address)
  | host (cell : Address)
  deriving DecidableEq, Inhabited

/-- What can be called. -/
inductive Procedure where
  | builtin (b : Builtin)
  | code (id : UInt64)
  | closure (id : UInt64) (context : Value)
  deriving DecidableEq

/-- The kinds of value that a program can tell apart. -/
inductive Tag where
  | nil | unspecified | boolean | number | character | symbol | procedure
  | pair | vector | boolVector | string | host
  deriving DecidableEq, Repr

namespace Tag

def code : Tag → UInt8
  | nil => 0
  | unspecified => 1
  | boolean => 2
  | number => 3
  | character => 4
  | symbol => 5
  | procedure => 6
  | pair => 7
  | vector => 8
  | boolVector => 9
  | string => 10
  | host => 11

def name : Tag → String
  | nil => "empty-list"
  | unspecified => "unspecified"
  | boolean => "boolean"
  | number => "number"
  | character => "character"
  | symbol => "symbol"
  | procedure => "procedure"
  | pair => "pair"
  | vector => "vector"
  | boolVector => "bool-vector"
  | string => "string"
  | host => "opaque"

end Tag

namespace Value

def tag : Value → Tag
  | nil => .nil
  | unspecified => .unspecified
  | boolean _ => .boolean
  | number _ => .number
  | character _ => .character
  | symbol _ => .symbol
  | builtin _ | code _ | closure _ _ => .procedure
  | pair _ => .pair
  | vector _ => .vector
  | boolVector _ => .boolVector
  | string _ => .string
  | host _ => .host

def isNil : Value → Bool
  | nil => true
  | _ => false

/-- Everything but false counts as true. -/
def isTrue : Value → Bool
  | boolean false => false
  | _ => true

def toBool? : Value → Option Bool
  | boolean b => some b
  | _ => none

def toDouble? : Value → Option Double
  | number x => some x
  | _ => none

/-- The cell that the value is the address of. -/
def cell? : Value → Option Address
  | pair a | vector a | boolVector a | string a | host a => some a
  | _ => none

/-- The procedure that the value is. -/
def procedure? : Value → Option Procedure
  | builtin b => some (.builtin b)
  | code id => some (.code id)
  | closure id c => some (.closure id c)
  | _ => none

/-- The context of a procedure that has one. -/
def context? : Value → Option Value
  | closure _ c => some c
  | _ => none

/-- For two cells of one kind, whether they are the same. -/
def sameCell? (v w : Value) : Option Bool :=
  if v.tag = w.tag then
    match v.cell?, w.cell? with
    | some a, some b => some (a == b)
    | _, _ => none
  else none

end Value

end Sameness
