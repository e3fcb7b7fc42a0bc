import LambdaCalculus.Value

/-! # The machine

The state of evaluation: the cells of deferred values, and the calls of host functions.  A cell is
filled by the first successful evaluation, and keeps that value.
-/
namespace LambdaCalculus

/-- A deferred application, and its value once it has been evaluated. -/
structure Cell (φ : Type) where
  term : Term
  env : Env φ
  value : Option (Value φ)

structure Call (φ : Type) where
  function : φ
  argument : Value φ

structure Machine (φ : Type) where
  cells : Array (Cell φ)
  /-- The calls of host functions, the last first. -/
  calls : List (Call φ)

namespace Machine

variable {φ : Type}

def empty : Machine φ := ⟨#[], []⟩

def defer (m : Machine φ) (term : Term) (env : Env φ) : Value φ × Machine φ :=
  (.deferred m.cells.size, { m with cells := m.cells.push ⟨term, env, none⟩ })

def cached? (m : Machine φ) (cell : Nat) : Option (Value φ) :=
  m.cells[cell]?.bind (·.value)

/-- Fills a cell, unless it is filled already. -/
def fill (m : Machine φ) (cell : Nat) (v : Value φ) : Machine φ :=
  { m with cells := m.cells.modify cell fun c => { c with value := c.value.or (some v) } }

def record (m : Machine φ) (call : Call φ) : Machine φ :=
  { m with calls := call :: m.calls }

def callsSince (m : Machine φ) (count : Nat) : List (Call φ) :=
  (m.calls.take (m.calls.length - count)).reverse

end Machine

namespace Value

variable {φ : Type}

def escape (c : Char) : List Char :=
  if c = '\x22' ∨ c = '\\' then ['\\', c]
  else if c = '\t' then ['\\', 't']
  else if c = '\n' then ['\\', 'n']
  else if c = '\r' then ['\\', 'r']
  else [c]

def describeUnfilled : Value φ → String
  | .undefined => "undefined"
  | .atom name => "Atom(\"" ++ String.ofList (name.toList.flatMap escape) ++ "\")"
  | .closure .. => "<closure>"
  | .native .. => "<native function>"
  | .deferred _ => "Deferred \x7b value: None, .. \x7d"

/-- The full text of a value, with the content of its cell if it is deferred.  A cell never holds
another deferred value. -/
def describe (m : Machine φ) : Value φ → String
  | .deferred cell =>
    match m.cached? cell with
    | none => (Value.deferred cell : Value φ).describeUnfilled
    | some v => "Deferred \x7b value: Some(" ++ v.describeUnfilled ++ "), .. \x7d"
  | v => v.describeUnfilled

end Value

end LambdaCalculus
