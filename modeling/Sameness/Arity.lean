namespace Sameness

/-- How many arguments a procedure takes. -/
inductive Arity where
  | exactly (n : Nat)
  | atLeast (n : Nat)
  deriving DecidableEq, Repr

namespace Arity

def accepts : Arity → Nat → Bool
  | exactly n, count => count == n
  | atLeast n, count => n ≤ count

def text : Arity → String
  | exactly n => toString n
  | atLeast n => "at least " ++ toString n

end Arity

end Sameness
