import LambdaCalculus.Code
import LambdaCalculus.Error

/-! # Terms

Code whose names are resolved to slots.  The slot of a variable is the number of binders between the
variable and its own.
-/
namespace LambdaCalculus

inductive Term where
  | undefined
  | slot (index : Nat)
  | app (callee argument : Term)
  | lambda (body : Term)
  deriving DecidableEq, Repr

namespace Term

def applied (f : Term) (args : List Term) : Term := args.foldl .app f

/-- Splits a chain of applications into its innermost callee and the arguments in order, in front of
`args`. -/
def unwind : Term → List Term → Term × List Term
  | .app f a, args => f.unwind (a :: args)
  | t, args => (t, args)

def isApplication : Term → Bool
  | .app .. => true
  | _ => false

end Term

namespace Code

/-- Resolves the names of some code in source order and passes its term to `next`.  `names` are the
names in scope, innermost first.  The first unbound name is an error. -/
def resolveThen (names : List String) :
    Code → (Term → Except LoadError Term) → Except LoadError Term
  | .undefined, next => next .undefined
  | .var name, next =>
    match names.idxOf? name with
    | some i => next (.slot i)
    | none => .error (.unboundName name)
  | .app f a, next => f.resolveThen names fun t => do next (.app t (← a.resolveThen names .ok))
  | .closure p body, next => do next (.lambda (← body.resolveThen (p :: names) .ok))

def resolve (names : List String) (c : Code) : Except LoadError Term := c.resolveThen names .ok

/-! ## Free names and terms as separate functions -/

/-- The names bound neither by an enclosing closure nor by one of `bound`, in source order. -/
def free (bound : List String) : Code → List String
  | .undefined => []
  | .var name => if name ∈ bound then [] else [name]
  | .app f a => f.free bound ++ a.free bound
  | .closure p body => body.free (p :: bound)

/-- The term of some code, undefined at unbound names. -/
def term (names : List String) : Code → Term
  | .undefined => .undefined
  | .var name => ((names.idxOf? name).map Term.slot).getD .undefined
  | .app f a => .app (f.term names) (a.term names)
  | .closure p body => .lambda (body.term (p :: names))

@[simp] theorem free_undefined (bound : List String) : Code.undefined.free bound = [] := rfl

theorem free_var (bound : List String) (name : String) :
    (Code.var name).free bound = if name ∈ bound then [] else [name] := rfl

@[simp] theorem free_app (bound : List String) (f a : Code) :
    (Code.app f a).free bound = f.free bound ++ a.free bound := rfl

@[simp] theorem free_closure (bound : List String) (p : String) (body : Code) :
    (Code.closure p body).free bound = body.free (p :: bound) := rfl

@[simp] theorem term_undefined (names : List String) : Code.undefined.term names = .undefined := rfl

theorem term_var (names : List String) (name : String) :
    (Code.var name).term names = ((names.idxOf? name).map Term.slot).getD .undefined := rfl

@[simp] theorem term_app (names : List String) (f a : Code) :
    (Code.app f a).term names = .app (f.term names) (a.term names) := rfl

@[simp] theorem term_closure (names : List String) (p : String) (body : Code) :
    (Code.closure p body).term names = .lambda (body.term (p :: names)) := rfl

theorem resolveThen_eq (names : List String) (c : Code) (next : Term → Except LoadError Term) :
    c.resolveThen names next =
      match c.free names with
      | [] => next (c.term names)
      | name :: _ => .error (.unboundName name) := by
  induction c generalizing names next with
  | undefined => rfl
  | var name =>
    simp only [resolveThen, free, term]
    by_cases hmem : name ∈ names
    · cases hi : names.idxOf? name with
      | none => exact absurd hmem (List.idxOf?_eq_none_iff.mp hi)
      | some i => simp [hmem]
    · simp [hmem, List.idxOf?_eq_none_iff.mpr hmem]
  | app f a hf ha =>
    simp only [resolveThen, free, term, hf, ha]
    cases f.free names with
    | cons name rest => rfl
    | nil => cases a.free names <;> rfl
  | closure p body ih =>
    simp only [resolveThen, free, term, ih]
    cases body.free (p :: names) <;> rfl

/-- Resolution returns the term, or an error for the leftmost free name. -/
theorem resolve_eq (names : List String) (c : Code) :
    c.resolve names =
      match c.free names with
      | [] => .ok (c.term names)
      | name :: _ => .error (.unboundName name) :=
  resolveThen_eq names c .ok

end Code

end LambdaCalculus
