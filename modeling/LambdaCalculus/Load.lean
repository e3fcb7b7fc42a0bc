import LambdaCalculus.Machine

/-! # Loading

A loaded program is a value.  An abstraction is loaded as a closure and an application as a deferred
value, so loading evaluates nothing.
-/
namespace LambdaCalculus

variable {φ : Type}

def Term.load (t : Term) (env : Env φ) (m : Machine φ) : Except LoadError (Value φ × Machine φ) :=
  match t with
  | .undefined => .ok (.undefined, m)
  | .slot i =>
    match env[i]? with
    | some v => .ok (v, m)
    | none => .error (.runtime (.missingSlot i))
  | .app f a => .ok (m.defer (.app f a) env)
  | .lambda body => .ok (.closure body env, m)

/-- Loads a program with the values of its globals, both outermost first. -/
def Program.load (p : Program) (values : List (Value φ)) (m : Machine φ) :
    Except LoadError (Value φ × Machine φ) :=
  if p.globals.length = values.length then do
    let t ← p.code.resolve p.globals.reverse
    t.load values.reverse m
  else .error (.globalCount p.globals.length values.length)

end LambdaCalculus
