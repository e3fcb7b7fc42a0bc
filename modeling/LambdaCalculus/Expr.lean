import LambdaCalculus.Token

/-! # Expressions

The syntax tree of a source text.  It keeps the tokens it was read from, and represents the missing
parts of a malformed text: an absent term and an absent parameter.
-/
namespace LambdaCalculus

inductive Expr where
  /-- An absent term. -/
  | empty
  | var (token : Token)
  | app (callee argument : Expr)
  | lambda (binder : Token) (parameter : Option Token) (body : Expr)
  deriving DecidableEq, Repr

namespace Expr

/-- Appends a term to a chain of applications.  The first term is the chain itself. -/
def apply : Expr → Expr → Expr
  | .empty, e => e
  | f, e => .app f e

/-- The position of the leftmost token, disregarding parentheses. -/
def position? : Expr → Option Position
  | .empty => none
  | .var t => some t.position
  | .app f _ => f.position?
  | .lambda binder _ _ => some binder.position

/-- The name a parameter binds; a missing parameter binds the empty name. -/
def parameterName : Option Token → String
  | none => ""
  | some t => t.raw

@[simp] theorem apply_empty (e : Expr) : Expr.empty.apply e = e := rfl

theorem apply_eq_app {f : Expr} (h : f ≠ .empty) (e : Expr) : f.apply e = .app f e := by
  cases f with
  | empty => exact absurd rfl h
  | _ => rfl

end Expr

end LambdaCalculus
