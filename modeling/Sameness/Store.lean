import Sameness.Symbol
import Sameness.Value

/-!
The store: mutable cells, and the names of symbols.

Reading is total. An address that is not that of a cell of the asked kind reads as the plainest cell
of that kind, and writing there does nothing; the values that the operations below hand out never
hold such an address.
-/

namespace Sameness

/-- What an object of the host carries. -/
inductive Payload where
  | unit
  | int (i : Int64)
  | text (s : String)
  deriving DecidableEq

inductive Cell where
  | pair (first rest : Value)
  | vector (elements : Array Value)
  | boolVector (bits : Array Bool)
  | string (text : String)
  | host (typeName : String) (payload : Payload)
  deriving DecidableEq, Inhabited

structure Store where
  cells : Array Cell
  symbols : SymbolTable

namespace Store

def empty : Store := ⟨#[], .empty⟩

instance : Inhabited Store := ⟨empty⟩

/-! ### Reading -/

def parts (st : Store) (a : Address) : Value × Value :=
  match st.cells[a]? with
  | some (.pair first rest) => (first, rest)
  | _ => (.nil, .nil)

def elements (st : Store) (a : Address) : Array Value :=
  match st.cells[a]? with
  | some (.vector elements) => elements
  | _ => #[]

def bits (st : Store) (a : Address) : Array Bool :=
  match st.cells[a]? with
  | some (.boolVector bits) => bits
  | _ => #[]

def text (st : Store) (a : Address) : String :=
  match st.cells[a]? with
  | some (.string text) => text
  | _ => ""

def hostType (st : Store) (a : Address) : String :=
  match st.cells[a]? with
  | some (.host typeName _) => typeName
  | _ => ""

def payload (st : Store) (a : Address) : Payload :=
  match st.cells[a]? with
  | some (.host _ payload) => payload
  | _ => .unit

/-- What comparing, hashing and printing look at below a value. Contexts of procedures are not
opened. -/
def children (st : Store) : Value → List Value
  | .pair a => [(st.parts a).1, (st.parts a).2]
  | .vector a => (st.elements a).toList
  | _ => []

/-- Objects of the host bring their own name; all else is named by its tag. -/
def typeName (st : Store) : Value → String
  | .host a => st.hostType a
  | v => v.tag.name

/-! ### Making cells -/

def alloc (c : Cell) : StateM Store Address := fun st =>
  (st.cells.size, { st with cells := st.cells.push c })

def symbol (name : String) : StateM Store Value := fun st =>
  let (s, symbols) := st.symbols.intern name
  (.symbol s.id, { st with symbols })

def cons (first rest : Value) : StateM Store Value := .pair <$> alloc (.pair first rest)

def vector (elements : Array Value) : StateM Store Value := .vector <$> alloc (.vector elements)

def boolVector (bits : Array Bool) : StateM Store Value := .boolVector <$> alloc (.boolVector bits)

def string (text : String) : StateM Store Value := .string <$> alloc (.string text)

def host (typeName : String) (payload : Payload) : StateM Store Value :=
  .host <$> alloc (.host typeName payload)

/-- Conses the values onto `tail`, the last one first. -/
def listOnto (tail : Value) : List Value → StateM Store Value
  | [] => pure tail
  | v :: vs => do cons v (← listOnto tail vs)

def list (vs : List Value) : StateM Store Value := listOnto .nil vs

/-! ### Writing -/

def modifyCell (st : Store) (a : Address) (f : Cell → Cell) : Store :=
  { st with cells := st.cells.modify a f }

def setFirst (st : Store) (a : Address) (v : Value) : Store :=
  st.modifyCell a fun
    | .pair _ rest => .pair v rest
    | c => c

def setRest (st : Store) (a : Address) (v : Value) : Store :=
  st.modifyCell a fun
    | .pair first _ => .pair first v
    | c => c

/-- Refuses an index that is out of range: vectors never grow. -/
def setElement? (st : Store) (a : Address) (i : Nat) (v : Value) : Option Store :=
  if i < (st.elements a).size then
    some <| st.modifyCell a fun
      | .vector elements => .vector (elements.setIfInBounds i v)
      | c => c
  else none

def setBit? (st : Store) (a : Address) (i : Nat) (b : Bool) : Option Store :=
  if i < (st.bits a).size then
    some <| st.modifyCell a fun
      | .boolVector bits => .boolVector (bits.setIfInBounds i b)
      | c => c
  else none

def appendText (st : Store) (a : Address) (s : String) : Store :=
  st.modifyCell a fun
    | .string text => .string (text ++ s)
    | c => c

/-- Adds to a number that an object of the host carries, wrapping around at 64 bits. -/
def addToPayload (st : Store) (a : Address) (i : Int64) : Store :=
  st.modifyCell a fun
    | .host typeName (.int j) => .host typeName (.int (j + i))
    | c => c

end Store

end Sameness
