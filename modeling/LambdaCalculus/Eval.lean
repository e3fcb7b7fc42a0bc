import LambdaCalculus.Host
import LambdaCalculus.Run

/-! # Evaluation

Evaluation is call by value, callee before argument.  Each application decreases the remaining depth
by one, and evaluation fails where it is zero.  A chain of applications is evaluated by one loop, so
it uses one level only.

Forcing a cell, and every request of a host function, enters evaluation again.  One entry is defined
over the answers to nested ones; `enter` closes the recursion, with a bound on the number of nested
entries.
-/
namespace LambdaCalculus

def maxDepth : Nat := 512

/-- The entry points of evaluation, with the remaining depth. -/
inductive Request (φ : Type) where
  | force (value : Value φ) (depth : Nat)
  | call (callee argument : Value φ) (depth : Nat)

section Entry

variable {φ : Type} (host : Host φ) (enter : Request φ → Run φ (Value φ))

/-- The value itself, or the value of its cell if it is deferred. -/
def forced (depth : Nat) : Value φ → Run φ (Value φ)
  | .deferred cell => enter (.force (.deferred cell) depth)
  | v => pure v

/-- Executes an action of the host.  Its requests start with the full depth. -/
def perform : Action φ → Run φ (Value φ)
  | .done result => Run.ofResult result
  | .call f x resume => do perform (resume (← (enter (.call f x maxDepth)).attempt))
  | .force v resume => do perform (resume (← (enter (.force v maxDepth)).attempt))

/-- Applies a value to an argument; `body` evaluates the body of a closure. -/
def applyValue (body : Term → Env φ → Run φ (Value φ)) (f x : Value φ) : Run φ (Value φ) :=
  match f with
  | .closure t env => body t (x :: env)
  | .native function held => do
    modify (·.record ⟨function, x⟩)
    perform enter (host.respond (← get).calls function held x)
  | v => throw (.notCallable v.display)

def eval : Nat → Term → Env φ → Run φ (Value φ)
  | 0, _, _ => throw (.depthExceeded maxDepth)
  | _ + 1, .undefined, _ => pure .undefined
  | _ + 1, .slot i, env =>
    match env[i]? with
    | some v => pure v
    | none => throw (.missingSlot i)
  | _ + 1, .lambda body, env => pure (.closure body env)
  | depth + 1, .app f a, env => do
    let chain := f.unwind [a]
    chain.2.foldlM
      (fun f a => do
        let x ← eval depth a env
        applyValue host enter (eval depth) (← forced enter depth f) x)
      (← eval depth chain.1 env)

/-- The value of a cell.  Its term is evaluated unless the cell is filled. -/
def forceCell (depth cell : Nat) : Run φ (Value φ) := do
  match (← get).cells[cell]? with
  | none => Run.giveUp
  | some c =>
    match c.value with
    | some v => return v
    | none =>
      let v ← eval host enter depth c.term c.env
      Run.fill cell (← forced enter depth v)

def answer : Request φ → Run φ (Value φ)
  | .force (.deferred cell) depth => forceCell host enter depth cell
  | .force v _ => pure v
  | .call f x depth => do
    applyValue host enter (eval host enter depth) (← forced enter depth f) x

end Entry

namespace Host

variable {φ : Type} (host : Host φ)

/-- Answers a request with at most `bound` nested entries. -/
def enter : (bound : Nat) → Request φ → Run φ (Value φ)
  | 0, _ => Run.giveUp
  | bound + 1, request => answer host (enter bound) request

/-- Cells refer to older cells only, so apart from the requests of the host there are no more nested
entries than cells. -/
def request (r : Request φ) : Run φ (Value φ) := do
  host.enter ((← get).cells.size + host.nesting + 1) r

def force (v : Value φ) : Run φ (Value φ) := host.request (.force v maxDepth)

def call (f x : Value φ) : Run φ (Value φ) := host.request (.call f x maxDepth)

def applyAll (f : Value φ) (args : List (Value φ)) : Run φ (Value φ) := args.foldlM host.call f

def asAtom (v : Value φ) : Run φ (Option String) := do
  match ← (host.force v).attempt with
  | .ok (.atom name) => return some name
  | _ => return none

def isCallable (v : Value φ) : Run φ Bool := do
  match ← (host.force v).attempt with
  | .ok w => return w.isFunction
  | .error _ => return false

end Host

end LambdaCalculus
