/-! # Failures of loading and of evaluation -/
namespace LambdaCalculus

inductive RuntimeError where
  /-- A value that is not a function was called; `callee` is its text. -/
  | notCallable (callee : String)
  | missingSlot (slot : Nat)
  | depthExceeded (limit : Nat)
  deriving DecidableEq, Repr

inductive LoadError where
  | unboundName (name : String)
  | globalCount (expected found : Nat)
  | runtime (error : RuntimeError)
  deriving DecidableEq, Repr

def RuntimeError.message : RuntimeError → String
  | .notCallable callee => s!"attempt to call {callee}, which is not a function"
  | .missingSlot slot => s!"no value in slot {slot}"
  | .depthExceeded limit => s!"evaluation depth limit exceeded (max: {limit})"

def LoadError.message : LoadError → String
  | .unboundName name => s!"generated code refers to unbound name `{name}`"
  | .globalCount expected found => s!"expected {expected} global values, found {found}"
  | .runtime error => error.message

end LambdaCalculus
