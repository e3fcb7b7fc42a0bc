import LambdaCalculus.Name

/-! # Scopes

A scope holds the enclosing bindings, innermost first.  Source names may repeat, and different names
may have the same spelling, so quotes are appended to a generated name until it differs from those
of all enclosing bindings.
-/
namespace LambdaCalculus

structure Binding where
  source : String
  generated : String
  deriving DecidableEq, Repr

abbrev Scope := List Binding

namespace Scope

/-- The generated name of a binding in this scope: the spelling, extended by a quote each time it is
met from the outermost binding inwards. -/
def fresh (s : Scope) (name : String) : String :=
  s.foldr (fun b candidate => if b.generated = candidate then candidate.push '\x27' else candidate)
    (Name.spell name)

def bind (s : Scope) (name : String) : Scope := ⟨name, s.fresh name⟩ :: s

def ofNames (names : List String) : Scope := names.foldl bind []

/-- The generated name of the innermost binding of a source name. -/
def resolve (s : Scope) (name : String) : Option String :=
  (s.find? (·.source = name)).map (·.generated)

end Scope

end LambdaCalculus
