import LambdaCalculus.Eval

/-! # Chains of applications

A chain of applications is evaluated by a loop over its arguments.  This is the same as evaluating
the callee, then the argument, and then applying the one to the other, with the whole chain on one
level of depth.
-/
namespace LambdaCalculus

section Entry

variable {φ : Type} (host : Host φ) (enter : Request φ → Run φ (Value φ))

def applyTo (depth : Nat) (env : Env φ) (f : Value φ) (a : Term) : Run φ (Value φ) := do
  let x ← eval host enter depth a env
  applyValue host enter (eval host enter depth) (← forced enter depth f) x

/-- Evaluates a term as the callee of a chain, on the level of the chain. -/
def evalSpine (depth : Nat) (env : Env φ) : Term → Run φ (Value φ)
  | .app f a => do applyTo host enter depth env (← evalSpine depth env f) a
  | t => eval host enter depth t env

/-- The loop over the arguments of a chain starts from the value of its callee. -/
theorem foldlM_unwind (depth : Nat) (env : Env φ) (t : Term) (args : List Term) :
    eval host enter depth (t.unwind args).1 env >>=
        (fun f => (t.unwind args).2.foldlM (applyTo host enter depth env) f) =
      evalSpine host enter depth env t >>=
        (fun f => args.foldlM (applyTo host enter depth env) f) := by
  induction t generalizing args with
  | app f a hf _ =>
    rw [Term.unwind, hf, evalSpine, bind_assoc]
    simp only [List.foldlM_cons]
  | undefined => rfl
  | slot i => rfl
  | lambda body _ => rfl

theorem eval_app (depth : Nat) (env : Env φ) (f a : Term) :
    eval host enter (depth + 1) (.app f a) env = evalSpine host enter depth env (.app f a) := by
  have hloop := foldlM_unwind host enter depth env f [a]
  simp only [List.foldlM_cons, List.foldlM_nil, bind_pure] at hloop
  rw [eval, evalSpine, ← hloop]
  rfl

end Entry

end LambdaCalculus
