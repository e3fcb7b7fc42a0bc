import LambdaCalculus.Machine

/-! # Computations on the machine

A computation changes the machine and ends with a value or an error.  It has no outcome if it
exceeds a bound on its running time; no computation can observe this.
-/
namespace LambdaCalculus

abbrev Run (φ : Type) := ExceptT RuntimeError (StateT (Machine φ) Option)

namespace Run

variable {φ α β : Type}

def giveUp : Run φ α := fun _ => none

def ofResult (r : Except RuntimeError α) : Run φ α := ExceptT.mk (pure r)

def attempt (run : Run φ α) : Run φ (Except RuntimeError α) := ExceptT.lift (ExceptT.run run)

def fill (cell : Nat) (v : Value φ) : Run φ (Value φ) := do
  modify (·.fill cell v)
  return ((← get).cached? cell).getD v

/-- The result of a computation and the machine after it, if it has an outcome. -/
def outcome? (run : Run φ α) (m : Machine φ) : Option (Except RuntimeError α × Machine φ) := run m

@[simp] theorem outcome?_pure (a : α) (m : Machine φ) :
    (pure a : Run φ α).outcome? m = some (.ok a, m) := rfl

@[simp] theorem outcome?_throw (e : RuntimeError) (m : Machine φ) :
    (throw e : Run φ α).outcome? m = some (.error e, m) := rfl

@[simp] theorem outcome?_giveUp (m : Machine φ) : (giveUp : Run φ α).outcome? m = none := rfl

@[simp] theorem outcome?_ofResult (r : Except RuntimeError α) (m : Machine φ) :
    (ofResult r).outcome? m = some (r, m) := rfl

@[simp] theorem outcome?_get (m : Machine φ) :
    (get : Run φ (Machine φ)).outcome? m = some (.ok m, m) := rfl

@[simp] theorem outcome?_modify (f : Machine φ → Machine φ) (m : Machine φ) :
    (modify f : Run φ PUnit).outcome? m = some (.ok ⟨⟩, f m) := rfl

theorem outcome?_bind (run : Run φ α) (next : α → Run φ β) (m : Machine φ) :
    (run >>= next).outcome? m =
      match run.outcome? m with
      | none => none
      | some (.error e, m) => some (.error e, m)
      | some (.ok a, m) => (next a).outcome? m := by
  cases h : run m with
  | none => simp [outcome?, bind, ExceptT.bind, ExceptT.mk, StateT.bind, h]
  | some final =>
    obtain ⟨r, m'⟩ := final
    cases r with
    | error e =>
      simp only [outcome?, bind, ExceptT.bind, ExceptT.mk, StateT.bind, h, Option.bind_some]
      rfl
    | ok a =>
      simp only [outcome?, bind, ExceptT.bind, ExceptT.mk, StateT.bind, h, Option.bind_some]
      rfl

@[simp] theorem outcome?_attempt (run : Run φ α) (m : Machine φ) :
    run.attempt.outcome? m = (run.outcome? m).map fun final => (.ok final.1, final.2) := by
  cases h : run m with
  | none =>
    simp [outcome?, attempt, ExceptT.lift, ExceptT.mk, ExceptT.run, h, Functor.map, StateT.map]
  | some final =>
    simp [outcome?, attempt, ExceptT.lift, ExceptT.mk, ExceptT.run, h, Functor.map, StateT.map]

theorem outcome?_fill (cell : Nat) (v : Value φ) (m : Machine φ) :
    (fill cell v).outcome? m =
      some (.ok (((m.fill cell v).cached? cell).getD v), m.fill cell v) := rfl

end Run

end LambdaCalculus
