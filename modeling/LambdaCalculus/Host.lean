import LambdaCalculus.Machine

/-! # Hosts

A host provides functions that evaluated code may call.  A function performs an action: it calls and
forces values, depending on the answers, and ends with a value or an error.
-/
namespace LambdaCalculus

abbrev Result (φ : Type) := Except RuntimeError (Value φ)

/-- What a host function does: it ends with a result, or it calls or forces a value and continues
with the answer.  Loading and compiling are not actions, so host functions create no cells. -/
inductive Action (φ : Type) where
  | done (result : Result φ)
  | call (callee argument : Value φ) (resume : Result φ → Action φ)
  | force (value : Value φ) (resume : Result φ → Action φ)

/-- The functions of a host, and a bound on the entries nested by their actions. -/
structure Host (φ : Type) where
  /-- The action of a function on the values it holds and its argument.  The calls made so far, this
  one first, are the state of the host. -/
  respond : List (Call φ) → φ → List (Value φ) → Value φ → Action φ
  nesting : Nat

namespace Action

variable {φ : Type}

def succeed (v : Value φ) : Action φ := .done (.ok v)

def fail (e : RuntimeError) : Action φ := .done (.error e)

def withAtom (v : Value φ) (resume : Option String → Action φ) : Action φ :=
  .force v fun
    | .ok (.atom name) => resume (some name)
    | _ => resume none

def withCallable (v : Value φ) (resume : Bool → Action φ) : Action φ :=
  .force v fun
    | .ok w => resume w.isFunction
    | .error _ => resume false

end Action

end LambdaCalculus
