import LambdaCalculus.Eval

/-! # Builtin host functions

A small host for running programs.  Its functions return, display and count values, and enter
evaluation again by calls and forcing.
-/
namespace LambdaCalculus

namespace Builtin

inductive Kind where
  | identity
  /-- The text of the argument in angle brackets. -/
  | wrap
  /-- One more than the number an atom spells. -/
  | successor
  /-- The value held. -/
  | constant
  /-- Calls the argument with the value held. -/
  | feed
  /-- Calls the value held with the argument. -/
  | via
  | force
  /-- Says whether the argument is an atom, a function, or neither. -/
  | inspect
  /-- Waits for a second argument. -/
  | pair
  /-- The value held and the argument, as one text. -/
  | second
  | fail (error : RuntimeError)
  deriving DecidableEq, Repr

end Builtin

structure Builtin where
  kind : Builtin.Kind
  label : String
  deriving DecidableEq, Repr

namespace Builtin

/-- One more than the largest number that can be spelled. -/
def wordSize : Nat := 4294967296

def readDigits (digits : List Char) : Option Nat :=
  if digits ≠ [] ∧ digits.all Char.isDigit then
    let n := digits.foldl (fun n c => 10 * n + (c.toNat - '0'.toNat)) 0
    if n < wordSize then some n else none
  else none

/-- The number that a name spells, a plus sign in front of it allowed. -/
def readNumber (name : String) : Option Nat :=
  match name.toList with
  | '+' :: digits => readDigits digits
  | digits => readDigits digits

/-- Counting starts again after the last word. -/
def following (name : Option String) : String :=
  toString (((name.bind readNumber).getD 0 + 1) % wordSize)

def act (b : Builtin) (held : List (Value Builtin)) (v : Value Builtin) : Action Builtin :=
  let own := held.headD .undefined
  match b.kind with
  | .identity => .succeed v
  | .wrap => .succeed (.atom ("<" ++ v.display ++ ">"))
  | .successor => .withAtom v fun name => .succeed (.atom (following name))
  | .constant => .succeed own
  | .feed => .call v own .done
  | .via => .call own v .done
  | .force => .force v .done
  | .inspect =>
    .withAtom v fun
      | some name => .succeed (.atom ("atom:" ++ name))
      | none => .withCallable v fun callable =>
        .succeed (.atom (if callable then "callable" else "other"))
  | .pair => .succeed (.native ⟨.second, b.label ++ "2"⟩ [v])
  | .second => .succeed (.atom ("[" ++ own.display ++ "," ++ v.display ++ "]"))
  | .fail error => .fail error

def host : Host Builtin where
  respond _ b held v := b.act held v
  nesting := 100000

end Builtin

def Call.text (c : Call Builtin) : String :=
  c.function.label ++ "(" ++ c.argument.display ++ ")"

end LambdaCalculus
