import LambdaCalculus.Term

/-! # Values

Values are made by evaluation or by the host.  The elements of the type `φ` are the functions of the
host.  A deferred value is a reference to a cell of the machine, which holds an application.
-/
namespace LambdaCalculus

inductive Value (φ : Type) where
  /-- The value of undefined code. -/
  | undefined
  /-- A name given by the host; code can only pass it on. -/
  | atom (name : String)
  /-- The body of an abstraction, and the values of its free slots, innermost first. -/
  | closure (body : Term) (env : List (Value φ))
  /-- A function of the host, and the values it holds. -/
  | native (function : φ) (held : List (Value φ))
  | deferred (cell : Nat)

/-- The values of slots, innermost first. -/
abbrev Env (φ : Type) := List (Value φ)

namespace Value

variable {φ : Type}

def display : Value φ → String
  | .undefined => "undefined"
  | .atom name => name
  | .closure .. => "<closure>"
  | .native .. => "<native function>"
  | .deferred _ => "<deferred>"

def isFunction : Value φ → Bool
  | .closure .. | .native .. => true
  | _ => false

end Value

end LambdaCalculus
