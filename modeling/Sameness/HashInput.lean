import Sameness.Run
import Sameness.Store

/-!
What a hash function is fed for a value: one sequence for `isEqv`, one for `isEqual`. Values that
are the same are fed alike, so a table may look only at entries with the same input.
-/

namespace Sameness

inductive HashItem where
  | byte (b : UInt8)
  | word32 (w : UInt32)
  | word64 (w : UInt64)
  | count (n : Nat)
  | utf8 (s : String)
  | symbol (id : Nat)
  | cell (a : Address)
  deriving DecidableEq, Repr

namespace HashItem

def ofBool (b : Bool) : HashItem := byte (if b then 1 else 0)

/-- Closes a text, as no byte of one is 255. -/
def endOfText : HashItem := byte 255

end HashItem

namespace Value

/-- The tag comes first and tells what follows it. -/
def hashItems (v : Value) : List HashItem :=
  .byte v.tag.code :: match v with
  | nil | unspecified => []
  | boolean b => [.ofBool b]
  | number x => [.word64 x.normalBits]
  | character c => [.word32 c.val]
  | symbol id => [.symbol id]
  | builtin b => [.byte 0, .count b.index, .ofBool false]
  | code id => [.byte 1, .word64 id, .ofBool false]
  | closure id context => .byte 1 :: .word64 id :: .ofBool true :: context.hashItems
  | pair a | vector a | boolVector a | string a | host a => [.cell a]

end Value

namespace Store

/-- The items of a value itself where contents count: what is below it follows. -/
def headItems (st : Store) : Value → List HashItem
  | v@(.pair _) => [.byte v.tag.code]
  | v@(.vector a) => [.byte v.tag.code, .count (st.elements a).size]
  | v@(.boolVector a) =>
    .byte v.tag.code :: .count (st.bits a).size :: (st.bits a).toList.map .ofBool
  | v@(.string a) => [.byte v.tag.code, .utf8 (st.text a), .endOfText]
  | v => v.hashItems

def visitHash (st : Store) (items : Array HashItem) (v : Value) : Array HashItem × List Value :=
  (items ++ st.headItems v, st.children v)

/-- The input for `isEqual`. It has no end for a cyclic structure. -/
def hashInput (st : Store) (v : Value) : Run (List HashItem) := do
  return (← Run.sweep st.visitHash #[] [v]).toList

/-- The input for a predicate, the same whenever the predicate holds. -/
def hashInputFor (st : Store) : Predicate → Value → Run (List HashItem)
  | .eq, v | .eqv, v => pure v.hashItems
  | .equal, v => st.hashInput v

end Store

end Sameness
