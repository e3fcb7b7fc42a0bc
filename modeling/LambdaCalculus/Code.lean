/-! # Generated code -/
namespace LambdaCalculus

inductive Code where
  /-- A missing or unbound part of the source. -/
  | undefined
  | var (name : String)
  | app (callee argument : Code)
  | closure (parameter : String) (body : Code)
  deriving DecidableEq, Repr

/-- Code, and the names of the globals it may refer to, outermost first. -/
structure Program where
  code : Code
  globals : List String
  deriving DecidableEq, Repr

namespace Code

def applied (f : Code) (args : List Code) : Code := args.foldl .app f

/-- The text of the code, in front of `rest`. -/
def renderOnto : Code → List Char → List Char
  | .undefined, rest => 'u' :: 'n' :: 'd' :: 'e' :: 'f' :: 'i' :: 'n' :: 'e' :: 'd' :: rest
  | .var name, rest => name.toList ++ rest
  | .app f a, rest => f.renderOnto ('(' :: a.renderOnto (')' :: rest))
  | .closure p body, rest =>
    '(' :: '|' :: (p.toList ++ '|' :: ' ' :: body.renderOnto (')' :: rest))

def render (c : Code) : String := String.ofList (c.renderOnto [])

theorem renderOnto_eq (c : Code) (rest : List Char) :
    c.renderOnto rest = c.renderOnto [] ++ rest := by
  induction c generalizing rest with
  | undefined | var => simp [renderOnto]
  | app f a hf ha => rw [renderOnto, hf, ha, renderOnto, hf ('(' :: _), ha [')']]; simp
  | closure p body ih => rw [renderOnto, ih, renderOnto, ih [')']]; simp

end Code

end LambdaCalculus
