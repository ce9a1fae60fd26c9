import Sameness.Arity

/-! What can go wrong in a call, and how it is told. -/

namespace Sameness

inductive Failure where
  | arity (name : String) (expected : Arity) (got : Nat)
  | unknownBuiltin (name : String)
  | notApplicable (what : String)
  | io (text : String)
  deriving DecidableEq, Repr

namespace Failure

def message : Failure → String
  | arity name expected got =>
    name ++ ": wrong number of arguments, expected " ++ expected.text ++ ", got " ++ toString got
  | unknownBuiltin name => "unknown primitive `" ++ name ++ "`"
  | notApplicable what => "cannot apply " ++ what
  | io text => "i/o error: " ++ text

end Failure

end Sameness
