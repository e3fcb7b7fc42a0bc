import LambdaCalculus.Code
import LambdaCalculus.Diagnostic
import LambdaCalculus.Expr
import LambdaCalculus.Scope

/-! # Code for expressions

Every parameter gets a generated name that differs from those of all enclosing bindings, and every
variable takes the name of its innermost binding.  An unbound variable has undefined code and a
diagnostic.
-/
namespace LambdaCalculus

namespace Expr

/-- Generates the code of an expression in a scope and passes it to `next`, with the diagnostics so
far in reverse order.  The callee is generated before the argument. -/
def generateThen (s : Scope) : Expr → List Diagnostic →
    (Code → List Diagnostic → Code × List Diagnostic) → Code × List Diagnostic
  | .empty, found, next => next .undefined found
  | .var t, found, next =>
    match s.resolve t.raw with
    | some name => next (.var name) found
    | none => next .undefined (.unresolved t :: found)
  | .app f a, found, next =>
    f.generateThen s found fun callee found =>
      let argument := a.generateThen s found .mk
      next (.app callee argument.1) argument.2
  | .lambda _ p body, found, next =>
    let inner := body.generateThen (s.bind (parameterName p)) found .mk
    next (.closure (s.fresh (parameterName p)) inner.1) inner.2

end Expr

structure Generated where
  program : Program
  diagnostics : List Diagnostic
  deriving DecidableEq, Repr

/-- The program of an expression.  Globals are bound in order, so of two globals with one name the
later is the inner one. -/
def Expr.generate (globals : List String) (e : Expr) : Generated :=
  let scope := Scope.ofNames globals
  let generated := e.generateThen scope [] .mk
  ⟨⟨generated.1, scope.reverse.map (·.generated)⟩, generated.2.reverse⟩

/-! ## Code and free variables as separate functions -/

namespace Expr

/-- The code of an expression in a scope, undefined at unbound variables. -/
def code (s : Scope) : Expr → Code
  | .empty => .undefined
  | .var t => ((s.resolve t.raw).map Code.var).getD .undefined
  | .app f a => .app (f.code s) (a.code s)
  | .lambda _ p body => .closure (s.fresh (parameterName p)) (body.code (s.bind (parameterName p)))

/-- The variables bound neither by an enclosing abstraction nor by one of `bound`, in source order.
-/
def free (bound : List String) : Expr → List Token
  | .empty => []
  | .var t => if t.raw ∈ bound then [] else [t]
  | .app f a => f.free bound ++ a.free bound
  | .lambda _ p body => body.free (parameterName p :: bound)

@[simp] theorem code_empty (s : Scope) : Expr.empty.code s = .undefined := rfl

theorem code_var (s : Scope) (t : Token) :
    (Expr.var t).code s = ((s.resolve t.raw).map Code.var).getD .undefined := rfl

@[simp] theorem code_app (s : Scope) (f a : Expr) :
    (Expr.app f a).code s = .app (f.code s) (a.code s) := rfl

@[simp] theorem code_lambda (s : Scope) (b : Token) (p : Option Token) (body : Expr) :
    (Expr.lambda b p body).code s =
      .closure (s.fresh (parameterName p)) (body.code (s.bind (parameterName p))) := rfl

@[simp] theorem free_empty (bound : List String) : Expr.empty.free bound = [] := rfl

theorem free_var (bound : List String) (t : Token) :
    (Expr.var t).free bound = if t.raw ∈ bound then [] else [t] := rfl

@[simp] theorem free_app (bound : List String) (f a : Expr) :
    (Expr.app f a).free bound = f.free bound ++ a.free bound := rfl

@[simp] theorem free_lambda (bound : List String) (b : Token) (p : Option Token) (body : Expr) :
    (Expr.lambda b p body).free bound = body.free (parameterName p :: bound) := rfl

theorem free_congr {bound bound' : List String} (h : ∀ name, name ∈ bound ↔ name ∈ bound')
    (e : Expr) : e.free bound = e.free bound' := by
  induction e generalizing bound bound' with
  | empty => rfl
  | var t => simp only [free, h]
  | app f a hf ha => rw [free, free, hf h, ha h]
  | lambda b p body ih =>
    apply ih
    intro name
    rw [List.mem_cons, List.mem_cons, h]

theorem generateThen_eq (s : Scope) (e : Expr) (found : List Diagnostic)
    (next : Code → List Diagnostic → Code × List Diagnostic) :
    e.generateThen s found next =
      next (e.code s) (((e.free (s.map (·.source))).map .unresolved).reverse ++ found) := by
  induction e generalizing s found next with
  | empty => rfl
  | var t =>
    have hresolve : s.resolve t.raw = none ↔ t.raw ∉ s.map (·.source) := by
      simp [Scope.resolve]
    simp only [generateThen, code, free]
    by_cases hmem : t.raw ∈ s.map (·.source)
    · cases hname : s.resolve t.raw with
      | none => exact absurd hmem (hresolve.mp hname)
      | some name => simp only [if_pos hmem]; rfl
    · simp [hmem, hresolve.mpr hmem]
  | app f a hf ha => simp only [generateThen, code, free, hf, ha, List.map_append,
      List.reverse_append, List.append_assoc]
  | lambda b p body ih => simp only [generateThen, code, free, ih, Scope.bind, List.map_cons]

end Expr

theorem Scope.sources_foldl_bind (s : Scope) (names : List String) :
    (names.foldl bind s).map (·.source) = names.reverse ++ s.map (·.source) := by
  induction names generalizing s with
  | nil => rfl
  | cons name names ih =>
    rw [List.foldl_cons, ih, List.reverse_cons, List.append_assoc]
    rfl

/-- Generation returns the code, and one diagnostic for each free variable in source order. -/
theorem Expr.generate_eq (globals : List String) (e : Expr) :
    e.generate globals =
      ⟨⟨e.code (.ofNames globals), (Scope.ofNames globals).reverse.map (·.generated)⟩,
        (e.free globals).map .unresolved⟩ := by
  have hfree : e.free ((Scope.ofNames globals).map (·.source)) = e.free globals :=
    free_congr (by simp [Scope.ofNames, Scope.sources_foldl_bind]) e
  rw [generate, generateThen_eq, hfree]
  simp

end LambdaCalculus
