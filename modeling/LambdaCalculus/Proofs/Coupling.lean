import LambdaCalculus.Proofs.Spine

/-! # Relations between two evaluations

Statements about evaluation compare two runs of it: on different machines, at different depths, or
with different answers to nested entries.  A statement about one run is the case of equal runs.  A
`Comparison` relates the outcomes of two computations and is compatible with sequencing.  A
`Coupling` requires in addition that nested entries and host calls are related; then evaluation is.
-/
namespace LambdaCalculus

/-! ## Outcomes -/

section

variable {φ : Type}

/-- What is required where the first of two computations has no outcome. -/
inductive Absence where
  /-- It always has one. -/
  | never
  /-- The second has none either. -/
  | shared
  /-- Nothing. -/
  | any

def Absence.Allows {α : Type} : Absence → Option α → Prop
  | .never, _ => False
  | .shared, o => o = none
  | .any, _ => True

theorem Absence.Allows.map {α β : Type} {absence : Absence} {o : Option α} {f : α → β}
    (h : absence.Allows o) : absence.Allows (o.map f) := by
  cases absence with
  | never => exact h
  | shared => exact Option.map_eq_none_iff.mpr h
  | any => trivial

theorem Absence.Allows.bind {α β : Type} {absence : Absence} {run : Run φ α} {next : α → Run φ β}
    {m : Machine φ} (h : absence.Allows (run.outcome? m)) :
    absence.Allows ((run >>= next).outcome? m) := by
  cases absence with
  | never => exact h
  | shared =>
    rw [Run.outcome?_bind, h]
    rfl
  | any => trivial

/-- A value that satisfies `P`, or an error that satisfies `failure`. -/
def Allowed (failure : RuntimeError → Prop) (P : Value φ → Prop) : Result φ → Prop
  | .ok v => P v
  | .error e => failure e

theorem Allowed.mono {failure : RuntimeError → Prop} {P Q : Value φ → Prop} {r : Result φ}
    (h : Allowed failure P r) (himp : ∀ v, P v → Q v) : Allowed failure Q r := by
  cases r with
  | ok v => exact himp v h
  | error e => exact h

/-- A relation of computations by their outcomes on related machines. -/
structure Comparison (φ : Type) where
  machines : Machine φ → Machine φ → Prop
  /-- How the first computation may change its machine. -/
  change : Machine φ → Machine φ → Prop := fun _ _ => True
  /-- The errors that both may end with. -/
  failure : RuntimeError → Prop := fun _ => True
  /-- The errors of the first after which nothing is required of the second. -/
  excused : RuntimeError → Prop := fun _ => False
  absence : Absence
  change_refl : ∀ m, change m m := by exact fun _ => trivial
  change_trans : ∀ {m m' m'' : Machine φ}, change m m' → change m' m'' → change m m'' := by
    exact fun _ _ => trivial

namespace Comparison

variable {C : Comparison φ} {P Q : Value φ → Prop} {m m' n : Machine φ} {r : Result φ}
  {run run' : Run φ (Value φ)}

/-- The outcomes of two computations, the first of them on `m`. -/
inductive Outcomes (C : Comparison φ) (P : Value φ → Prop) (m : Machine φ) :
    Option (Result φ × Machine φ) → Option (Result φ × Machine φ) → Prop where
  | absent {o : Option (Result φ × Machine φ)} : C.absence.Allows o → Outcomes C P m none o
  | excused {e : RuntimeError} {m' : Machine φ} {o : Option (Result φ × Machine φ)} :
      C.excused e → Outcomes C P m (some (.error e, m')) o
  | both {r : Result φ} {m' n' : Machine φ} : Allowed C.failure P r → C.machines m' n' →
      C.change m m' → Outcomes C P m (some (r, m')) (some (r, n'))

def Relates (C : Comparison φ) (P : Value φ → Prop) (run run' : Run φ (Value φ)) : Prop :=
  ∀ m n, C.machines m n → C.Outcomes P m (run.outcome? m) (run'.outcome? n)

theorem Outcomes.after {o o' : Option (Result φ × Machine φ)} (h : C.Outcomes P m' o o')
    (hchange : C.change m m') : C.Outcomes P m o o' := by
  cases h with
  | absent habsent => exact .absent habsent
  | excused he => exact .excused he
  | both hr hmachines hchange' => exact .both hr hmachines (C.change_trans hchange hchange')

theorem Outcomes.mono {o o' : Option (Result φ × Machine φ)} (h : C.Outcomes P m o o')
    (himp : ∀ v, P v → Q v) : C.Outcomes Q m o o' := by
  cases h with
  | absent habsent => exact .absent habsent
  | excused he => exact .excused he
  | both hr hmachines hchange => exact .both (hr.mono himp) hmachines hchange

namespace Relates

theorem pure {v : Value φ} (hv : P v) : C.Relates P (pure v) (pure v) :=
  fun m _ hmachines => .both hv hmachines (C.change_refl m)

theorem throw {e : RuntimeError} (he : C.failure e) : C.Relates P (throw e) (throw e) :=
  fun m _ hmachines => .both he hmachines (C.change_refl m)

theorem throw_excused {e : RuntimeError} (he : C.excused e) :
    C.Relates P (MonadExcept.throw e) run' :=
  fun _ _ _ => .excused he

theorem giveUp (h : ∀ m, C.absence.Allows (run'.outcome? m)) : C.Relates P Run.giveUp run' :=
  fun _ n _ => .absent (h n)

theorem mono (h : C.Relates P run run') (himp : ∀ v, P v → Q v) : C.Relates Q run run' :=
  fun m n hmachines => (h m n hmachines).mono himp

theorem bind {next next' : Value φ → Run φ (Value φ)} (h : C.Relates P run run')
    (hnext : ∀ v, P v → C.Relates Q (next v) (next' v)) :
    C.Relates Q (run >>= next) (run' >>= next') := by
  intro m n hmachines
  have hfirst := h m n hmachines
  generalize ho : run.outcome? m = o at hfirst
  generalize ho' : run'.outcome? n = o' at hfirst
  rw [Run.outcome?_bind run, ho]
  cases hfirst with
  | absent habsent => exact .absent (Absence.Allows.bind (ho' ▸ habsent))
  | excused he => exact .excused he
  | @both r m' n' hr hmachines' hchange =>
    rw [Run.outcome?_bind run', ho']
    cases r with
    | error e => exact .both hr hmachines' hchange
    | ok v => exact (hnext v hr m' n' hmachines').after hchange

/-- The next computation depends on the result of the first, so no error can be excused. -/
theorem attempt_bind {next next' : Result φ → Run φ (Value φ)} (h : C.Relates P run run')
    (hexcused : ∀ e, ¬ C.excused e)
    (hok : ∀ v, P v → C.Relates Q (next (.ok v)) (next' (.ok v)))
    (herror : ∀ e, C.failure e → C.Relates Q (next (.error e)) (next' (.error e))) :
    C.Relates Q (run.attempt >>= next) (run'.attempt >>= next') := by
  intro m n hmachines
  have hfirst := h m n hmachines
  generalize ho : run.outcome? m = o at hfirst
  generalize ho' : run'.outcome? n = o' at hfirst
  rw [Run.outcome?_bind run.attempt, Run.outcome?_attempt, ho]
  cases hfirst with
  | absent habsent =>
    refine .absent (Absence.Allows.bind ?_)
    rw [Run.outcome?_attempt, ho']
    exact habsent.map
  | excused he => exact absurd he (hexcused _)
  | @both r m' n' hr hmachines' hchange =>
    rw [Run.outcome?_bind run'.attempt, Run.outcome?_attempt, ho']
    cases r with
    | error e => exact (herror e hr m' n' hmachines').after hchange
    | ok v => exact (hok v hr m' n' hmachines').after hchange

theorem of_outcome (h : C.Relates P run run') (hmachines : C.machines m n)
    (hrun : run.outcome? m = some (r, m')) :
    (∃ e, r = .error e ∧ C.excused e) ∨
      ∃ n', run'.outcome? n = some (r, n') ∧ Allowed C.failure P r ∧ C.machines m' n' ∧
        C.change m m' := by
  have hboth := h m n hmachines
  rw [hrun] at hboth
  generalize run'.outcome? n = o' at hboth ⊢
  cases hboth with
  | excused he => exact .inl ⟨_, rfl, he⟩
  | both hr hmachines' hchange => exact .inr ⟨_, rfl, hr, hmachines', hchange⟩

end Relates

end Comparison

end

/-! ## Coupled evaluations -/

/-- Not a reference to a cell. -/
def Value.Settled {φ : Type} : Value φ → Prop
  | .deferred _ => False
  | _ => True

/-- The terms, values and errors that may occur in an evaluation. -/
structure Realm (φ : Type) where
  /-- The terms allowed in an environment of the given length. -/
  term : Nat → Term → Prop
  value : Value φ → Prop
  /-- The values that forcing may return. -/
  callee : Value φ → Prop
  failure : RuntimeError → Prop
  term_app {n : Nat} {f a : Term} : term n (.app f a) → term n f ∧ term n a
  value_undefined {n : Nat} : term n .undefined → value .undefined
  value_lambda {body : Term} {env : Env φ} :
    term env.length (.lambda body) → (∀ v ∈ env, value v) → value (.closure body env)
  value_of_callee {v : Value φ} : callee v → value v
  callee_of_settled {v : Value φ} : value v → v.Settled → callee v
  callee_closure {body : Term} {env : Env φ} :
    callee (.closure body env) → term (env.length + 1) body ∧ ∀ v ∈ env, value v
  failure_depth : failure (.depthExceeded maxDepth)
  failure_slot {n i : Nat} : term n (.slot i) → n ≤ i → failure (.missingSlot i)
  failure_callee {v : Value φ} :
    callee v → v.isFunction = false → failure (.notCallable v.display)

def Realm.all (φ : Type) : Realm φ where
  term _ _ := True
  value _ := True
  callee _ := True
  failure _ := True
  term_app _ := ⟨trivial, trivial⟩
  value_undefined _ := trivial
  value_lambda _ _ := trivial
  value_of_callee _ := trivial
  callee_of_settled _ _ := trivial
  callee_closure _ := ⟨trivial, fun _ _ => trivial⟩
  failure_depth := trivial
  failure_slot _ _ := trivial
  failure_callee _ _ := trivial

section

variable {φ : Type}

def callHost (host : Host φ) (enter : Request φ → Run φ (Value φ)) (function : φ)
    (held : List (Value φ)) (x : Value φ) : Run φ (Value φ) := do
  modify (·.record ⟨function, x⟩)
  perform enter (host.respond (← get).calls function held x)

/-- A relation between computations, for two ways of answering entries; `rel P` requires in addition
that the values satisfy `P`. -/
structure Coupling (R : Realm φ) (host : Host φ) (enter enter' : Request φ → Run φ (Value φ)) where
  rel : (Value φ → Prop) → Run φ (Value φ) → Run φ (Value φ) → Prop
  /-- The related remaining depths. -/
  depths : Nat → Nat → Prop
  depths_pred {d d' : Nat} : depths (d + 1) (d' + 1) → depths d d'
  rel_pure {P : Value φ → Prop} {v : Value φ} : P v → rel P (pure v) (pure v)
  rel_throw {P : Value φ → Prop} {e : RuntimeError} : R.failure e → rel P (throw e) (throw e)
  rel_bind {P Q : Value φ → Prop} {run run' : Run φ (Value φ)}
    {next next' : Value φ → Run φ (Value φ)} :
    rel P run run' → (∀ v, P v → rel Q (next v) (next' v)) → rel Q (run >>= next) (run' >>= next')
  /-- One of the depths is zero. -/
  rel_spent {d d' : Nat} (t : Term) (env : Env φ) : depths d d' → d = 0 ∨ d' = 0 →
    rel R.value (eval host enter d t env) (eval host enter' d' t env)
  rel_force {cell d d' : Nat} : R.value (.deferred cell) → depths d d' →
    rel R.callee (enter (.force (.deferred cell) d)) (enter' (.force (.deferred cell) d'))
  rel_native {function : φ} {held : List (Value φ)} {x : Value φ} :
    R.callee (.native function held) → R.value x →
    rel R.value (callHost host enter function held x) (callHost host enter' function held x)

namespace Coupling

variable {R : Realm φ} {host : Host φ} {enter enter' : Request φ → Run φ (Value φ)}
  (K : Coupling R host enter enter') {d d' : Nat} {f x v : Value φ} {env : Env φ}

theorem rel_forced (hdepths : K.depths d d') (hv : R.value v) :
    K.rel R.callee (forced enter d v) (forced enter' d' v) := by
  cases v with
  | deferred cell => exact K.rel_force hv hdepths
  | undefined => exact K.rel_pure (R.callee_of_settled hv trivial)
  | atom name => exact K.rel_pure (R.callee_of_settled hv trivial)
  | closure body env => exact K.rel_pure (R.callee_of_settled hv trivial)
  | native function held => exact K.rel_pure (R.callee_of_settled hv trivial)

theorem rel_applyValue {body body' : Term → Env φ → Run φ (Value φ)}
    (hbody : ∀ t env, R.term env.length t → (∀ v ∈ env, R.value v) →
      K.rel R.value (body t env) (body' t env)) (hf : R.callee f) (hx : R.value x) :
    K.rel R.value (applyValue host enter body f x) (applyValue host enter' body' f x) := by
  cases f with
  | closure t env =>
    obtain ⟨ht, henv⟩ := R.callee_closure hf
    exact hbody t (x :: env) ht (List.forall_mem_cons.mpr ⟨hx, henv⟩)
  | native function held => exact K.rel_native hf hx
  | undefined => exact K.rel_throw (R.failure_callee hf rfl)
  | atom name => exact K.rel_throw (R.failure_callee hf rfl)
  | deferred cell => exact K.rel_throw (R.failure_callee hf rfl)

theorem rel_applyTo
    (heval : ∀ t env, R.term env.length t → (∀ v ∈ env, R.value v) →
      K.rel R.value (eval host enter d t env) (eval host enter' d' t env))
    (hdepths : K.depths d d') {a : Term} (ha : R.term env.length a) (henv : ∀ v ∈ env, R.value v)
    (hf : R.value f) :
    K.rel R.value (applyTo host enter d env f a) (applyTo host enter' d' env f a) := by
  apply K.rel_bind (heval a env ha henv)
  intro x hx
  apply K.rel_bind (K.rel_forced hdepths hf)
  intro g hg
  exact K.rel_applyValue heval hg hx

/-- Evaluation is related to itself. -/
theorem rel_eval (hdepths : K.depths d d') (t : Term) (env : Env φ) (ht : R.term env.length t)
    (henv : ∀ v ∈ env, R.value v) :
    K.rel R.value (eval host enter d t env) (eval host enter' d' t env) := by
  induction d generalizing d' t env with
  | zero => exact K.rel_spent t env hdepths (.inl rfl)
  | succ d ih =>
    cases d' with
    | zero => exact K.rel_spent t env hdepths (.inr rfl)
    | succ d' =>
      have hless := K.depths_pred hdepths
      cases t with
      | undefined => exact K.rel_pure (R.value_undefined ht)
      | slot i =>
        simp only [eval]
        cases hi : env[i]? with
        | some v => exact K.rel_pure (henv v (List.mem_of_getElem? hi))
        | none => exact K.rel_throw (R.failure_slot ht (List.getElem?_eq_none_iff.mp hi))
      | lambda body => exact K.rel_pure (R.value_lambda ht henv)
      | app f a =>
        rw [eval_app, eval_app]
        -- All of the chain is on one level of depth, so it is taken by an induction of its own.
        have hspine : ∀ t : Term, R.term env.length t →
            K.rel R.value (evalSpine host enter d env t) (evalSpine host enter' d' env t) := by
          intro t
          induction t with
          | undefined => exact fun ht => ih hless _ env ht henv
          | slot i => exact fun ht => ih hless _ env ht henv
          | lambda body => exact fun ht => ih hless _ env ht henv
          | app f a hf _ =>
            intro ht
            obtain ⟨htf, hta⟩ := R.term_app ht
            apply K.rel_bind (hf htf)
            intro g hg
            exact K.rel_applyTo (ih hless) hless hta henv hg
        exact hspine _ ht

theorem rel_call (hdepths : K.depths d d') (hf : R.value f) (hx : R.value x) :
    K.rel R.value (answer host enter (.call f x d)) (answer host enter' (.call f x d')) := by
  apply K.rel_bind (K.rel_forced hdepths hf)
  intro g hg
  exact K.rel_applyValue (K.rel_eval hdepths) hg hx

theorem rel_answer_force (hv : R.value v)
    (hcell : ∀ cell, v = .deferred cell →
      K.rel R.callee (forceCell host enter d cell) (forceCell host enter' d' cell)) :
    K.rel R.callee (answer host enter (.force v d)) (answer host enter' (.force v d')) := by
  cases v with
  | deferred cell => exact hcell cell rfl
  | undefined => exact K.rel_pure (R.callee_of_settled hv trivial)
  | atom name => exact K.rel_pure (R.callee_of_settled hv trivial)
  | closure body env => exact K.rel_pure (R.callee_of_settled hv trivial)
  | native function held => exact K.rel_pure (R.callee_of_settled hv trivial)

end Coupling

end

end LambdaCalculus
