import Sameness.Double.Rounding
import Sameness.Store

/-! Pairs of values that tell the predicates apart. -/

namespace Sameness

structure Case where
  name : String
  left : Value
  right : Value
  deriving DecidableEq

namespace Catalogue

open Store

def number (n : Nat) : Value := .number (.ofNat n)

def negativeZero : Double := .ofMagnitude true 0

/-- The quiet NaN without a payload. -/
def nan : Double := .ofMagnitude false (Double.infinite + 2 ^ 51)

def fresh (name : String) (make : StateM Store Value) : StateM Store Case := do
  let left ← make
  return ⟨name, left, ← make⟩

def twice (name : String) (v : Value) : Case := ⟨name, v, v⟩

def nested (leaf : Nat) : StateM Store Value := do
  vector #[number 1, ← vector #[number 2, number leaf]]

def cases : StateM Store (List Case) := do
  let pair ← cons (number 1) (number 2)
  let environment ← vector #[← symbol "x", number 1]
  let channel ← host "port" .unit
  return [
    ← fresh "interned-symbols" (symbol "lambda"),
    ⟨"distinct-symbols", ← symbol "car", ← symbol "cdr"⟩,
    twice "equal-numbers" (number 42),
    ⟨"signed-zeros", number 0, .number negativeZero⟩,
    twice "nan" (.number nan),
    twice "characters" (.character 'a'),
    twice "booleans" (.boolean true),
    twice "empty-lists" .nil,
    twice "same-pair" pair,
    ← fresh "fresh-pairs" (cons (number 1) (number 2)),
    ← fresh "nested-vectors" (nested 3),
    ⟨"nested-vectors-leaf", ← nested 3, ← nested 4⟩,
    ⟨"vector-lengths", ← vector #[number 1, number 2],
      ← vector #[number 1, number 2, number 3]⟩,
    ← fresh "bool-vectors" (boolVector #[true, false]),
    ⟨"pair-vs-vector", ← list [number 1], ← vector #[number 1]⟩,
    ← fresh "strings" (string "abc"),
    twice "primitives" (.builtin (.compare .equal)),
    twice "closures-same-env" (.closure 1 environment),
    ⟨"closures-fresh-env", .closure 1 (← vector #[]), .closure 1 (← vector #[])⟩,
    twice "opaque" channel]

end Catalogue

end Sameness
