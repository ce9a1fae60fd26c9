namespace Sameness

/-- The three ways for values to be the same, from the finest to the coarsest. -/
inductive Predicate where
  | eq | eqv | equal
  deriving DecidableEq, Repr

namespace Predicate

def all : List Predicate := [eq, eqv, equal]

def name : Predicate → String
  | eq => "eq?"
  | eqv => "eqv?"
  | equal => "equal?"

def ofName? (name : String) : Option Predicate := all.find? (·.name == name)

end Predicate

end Sameness
