import LambdaCalculus.Builtin
import LambdaCalculus.Proofs.Cells

/-! # The remaining depth

The remaining depth determines only whether an evaluation exceeds it: values, other errors, host
calls and filled cells do not depend on it.  Host functions start again with the full depth.

A chain of applications uses one level of depth, whatever its length.  Plain evaluation, application
by application, uses one level for each, so it exceeds the depth sooner; otherwise it has the same
outcome.
-/
namespace LambdaCalculus

variable {φ : Type}

namespace Run

/-- The first computation exceeds the depth, or both have the same outcome: the same result, host
calls and filled cells, or none. -/
def UpToDepth (run run' : Run φ (Value φ)) : Prop :=
  ∀ m, (∃ m', run.outcome? m = some (.error (.depthExceeded maxDepth), m')) ∨
    run.outcome? m = run'.outcome? m

end Run

def excusingDepth : Comparison φ where
  machines m n := m = n
  excused e := e = .depthExceeded maxDepth
  absence := .shared

theorem excusingDepth_relates_iff {run run' : Run φ (Value φ)} :
    excusingDepth.Relates (fun _ => True) run run' ↔ run.UpToDepth run' := by
  constructor
  · intro h m
    have hboth := h m m rfl
    generalize run.outcome? m = o at hboth ⊢
    generalize run'.outcome? m = o' at hboth ⊢
    cases hboth with
    | absent habsent => exact .inr habsent.symm
    | excused he => exact .inl ⟨_, by rw [he]⟩
    | both _ hmachines => exact .inr (by rw [hmachines])
  · rintro h m _ rfl
    rcases h m with ⟨m', hspent⟩ | hsame
    · rw [hspent]
      exact .excused rfl
    · rw [← hsame]
      rcases run.outcome? m with _ | ⟨r, m'⟩
      · exact .absent rfl
      · exact .both (by cases r <;> trivial) rfl trivial

namespace Run.UpToDepth

variable {run run' : Run φ (Value φ)}

theorem refl (run : Run φ (Value φ)) : run.UpToDepth run :=
  fun _ => .inr rfl

theorem spent (run : Run φ (Value φ)) :
    (throw (.depthExceeded maxDepth) : Run φ (Value φ)).UpToDepth run :=
  fun m => .inl ⟨m, rfl⟩

theorem bind {next next' : Value φ → Run φ (Value φ)} (h : run.UpToDepth run')
    (hnext : ∀ v, (next v).UpToDepth (next' v)) :
    (run >>= next).UpToDepth (run' >>= next') :=
  excusingDepth_relates_iff.mp
    ((excusingDepth_relates_iff.mpr h).bind fun v _ => excusingDepth_relates_iff.mpr (hnext v))

end Run.UpToDepth

/-! ## Evaluation by a given evaluator -/

section Entry

variable {host : Host φ} {enter enter' : Request φ → Run φ (Value φ)}

/-- The value of a cell whose term is evaluated by `evaluate`. -/
def forceCellBy (enter : Request φ → Run φ (Value φ)) (evaluate : Term → Env φ → Run φ (Value φ))
    (depth cell : Nat) : Run φ (Value φ) := do
  match (← get).cells[cell]? with
  | none => Run.giveUp
  | some c =>
    match c.value with
    | some v => return v
    | none =>
      let v ← evaluate c.term c.env
      Run.fill cell (← forced enter depth v)

def answerBy (host : Host φ) (enter : Request φ → Run φ (Value φ))
    (evaluate : Nat → Term → Env φ → Run φ (Value φ)) : Request φ → Run φ (Value φ)
  | .force (.deferred cell) depth => forceCellBy enter (evaluate depth) depth cell
  | .force v _ => pure v
  | .call f x depth => do
    applyValue host enter (evaluate depth) (← forced enter depth f) x

theorem answer_eq_answerBy (host : Host φ) (enter : Request φ → Run φ (Value φ)) :
    answer host enter = answerBy host enter (eval host enter) := by
  funext request
  cases request with
  | call f x depth => rfl
  | force v depth => cases v <;> rfl

/-- Forcing cells has the same outcome with more depth, unless it exceeds the depth. -/
def Deepens (enter enter' : Request φ → Run φ (Value φ)) : Prop :=
  ∀ cell d d', d ≤ d' →
    (enter (.force (.deferred cell) d)).UpToDepth (enter' (.force (.deferred cell) d'))

def Deepens.coupling (hforce : Deepens enter enter')
    (hnative : ∀ function held x,
      (callHost host enter function held x).UpToDepth (callHost host enter' function held x)) :
    Coupling (Realm.all φ) host enter enter' where
  rel := excusingDepth.Relates
  depths d d' := d ≤ d'
  depths_pred := Nat.le_of_succ_le_succ
  rel_pure := .pure
  rel_throw _ := .throw trivial
  rel_bind := .bind
  rel_spent t env hdepths hzero := by
    obtain rfl : _ = 0 := hzero.elim id fun hzero => Nat.le_zero.mp (hzero ▸ hdepths)
    exact .throw_excused rfl
  rel_force _ hdepths := excusingDepth_relates_iff.mpr (hforce _ _ _ hdepths)
  rel_native _ _ := excusingDepth_relates_iff.mpr (hnative _ _ _)

section Answer

variable (hforce : Deepens enter enter')
  (hnative : ∀ function held x,
    (callHost host enter function held x).UpToDepth (callHost host enter' function held x))
  {d d' : Nat}
include hforce hnative

theorem upToDepth_forced (h : d ≤ d') (v : Value φ) :
    (forced enter d v).UpToDepth (forced enter' d' v) :=
  excusingDepth_relates_iff.mp ((hforce.coupling hnative).rel_forced h trivial)

theorem upToDepth_applyValue {body body' : Term → Env φ → Run φ (Value φ)}
    (hbody : ∀ t env, (body t env).UpToDepth (body' t env)) (f x : Value φ) :
    (applyValue host enter body f x).UpToDepth (applyValue host enter' body' f x) := by
  refine excusingDepth_relates_iff.mp ((hforce.coupling hnative).rel_applyValue ?_ trivial trivial)
  exact fun t env _ _ => excusingDepth_relates_iff.mpr (hbody t env)

variable {evaluate evaluate' : Nat → Term → Env φ → Run φ (Value φ)}
  (heval : ∀ d d' t env, d ≤ d' → (evaluate d t env).UpToDepth (evaluate' d' t env))
include heval

theorem upToDepth_call (h : d ≤ d') (f x : Value φ) :
    (answerBy host enter evaluate (.call f x d)).UpToDepth
      (answerBy host enter' evaluate' (.call f x d')) := by
  apply (upToDepth_forced hforce hnative h f).bind
  intro g
  exact upToDepth_applyValue hforce hnative (fun t env => heval d d' t env h) g x

theorem upToDepth_forceCell (h : d ≤ d') (cell : Nat) :
    (forceCellBy enter (evaluate d) d cell).UpToDepth
      (forceCellBy enter' (evaluate' d') d' cell) := by
  intro m
  simp only [forceCellBy, Run.outcome?_bind, Run.outcome?_get]
  cases m.cells[cell]? with
  | none => exact .inr rfl
  | some c =>
    cases hvalue : c.value with
    | some v => exact .inr (by simp only [hvalue])
    | none =>
      have hrun :
          (evaluate d c.term c.env >>= fun v => forced enter d v >>= Run.fill cell).UpToDepth
            (evaluate' d' c.term c.env >>= fun v => forced enter' d' v >>= Run.fill cell) := by
        apply (heval d d' c.term c.env h).bind
        intro v
        apply (upToDepth_forced hforce hnative h v).bind
        intro w
        exact .refl _
      simp only [hvalue]
      exact hrun m

theorem upToDepth_force (h : d ≤ d') (v : Value φ) :
    (answerBy host enter evaluate (.force v d)).UpToDepth
      (answerBy host enter' evaluate' (.force v d')) := by
  cases v with
  | deferred cell => exact upToDepth_forceCell hforce hnative heval h cell
  | undefined => exact .refl _
  | atom name => exact .refl _
  | closure body env => exact .refl _
  | native function held => exact .refl _

end Answer

end Entry

/-! ## More depth -/

theorem upToDepth_eval (host : Host φ) {enter : Request φ → Run φ (Value φ)}
    (hforce : Deepens enter enter) (d d' : Nat) (t : Term) (env : Env φ) (h : d ≤ d') :
    (eval host enter d t env).UpToDepth (eval host enter d' t env) :=
  excusingDepth_relates_iff.mp
    ((hforce.coupling fun _ _ _ => .refl _).rel_eval h t env trivial fun _ _ => trivial)

theorem deepens_enter (host : Host φ) (bound : Nat) :
    Deepens (host.enter bound) (host.enter bound) := by
  induction bound with
  | zero => exact fun _ _ _ _ => .refl _
  | succ bound ih =>
    intro cell d d' h
    rw [Host.enter, answer_eq_answerBy]
    exact upToDepth_force ih (fun _ _ _ => .refl _) (upToDepth_eval host ih) h (.deferred cell)

/-- The remaining depth makes no difference unless it is exceeded.  For every term, environment,
machine and host, an evaluation, a call or a forcing with less depth either exceeds it or has the
same outcome as with more: the same result, host calls and filled cells. -/
theorem less_depth_same_or_exceeded (host : Host φ) (bound : Nat) {depth depth' : Nat}
    (h : depth ≤ depth') :
    (∀ t env, (eval host (host.enter bound) depth t env).UpToDepth
      (eval host (host.enter bound) depth' t env)) ∧
    (∀ f x, (host.enter bound (.call f x depth)).UpToDepth
      (host.enter bound (.call f x depth'))) ∧
    ∀ v, (host.enter bound (.force v depth)).UpToDepth (host.enter bound (.force v depth')) := by
  refine ⟨fun t env => upToDepth_eval host (deepens_enter host bound) depth depth' t env h, ?_⟩
  cases bound with
  | zero => exact ⟨fun _ _ => .refl _, fun _ => .refl _⟩
  | succ bound =>
    have hforce := deepens_enter host bound
    have heval := upToDepth_eval host hforce
    simp only [Host.enter, answer_eq_answerBy]
    exact ⟨upToDepth_call hforce (fun _ _ _ => .refl _) heval h,
      upToDepth_force hforce (fun _ _ _ => .refl _) heval h⟩

def selfCall (value : Option (Value Builtin)) : Cell Builtin :=
  ⟨.app (.slot 0) (.slot 0), [.native ⟨.identity, "f"⟩ []], value⟩

theorem less_depth_same_or_exceeded_calling :
    3 ≤ 512 ∧
    (eval Builtin.host (Builtin.host.enter 1) 512 (.app (.slot 0) (.slot 1))
        [.deferred 0, .atom "a"]).outcome? ⟨#[selfCall none], []⟩ =
      some (.ok (.atom "a"), ⟨#[selfCall (some (.native ⟨.identity, "f"⟩ []))],
        [⟨⟨.identity, "f"⟩, .atom "a"⟩, ⟨⟨.identity, "f"⟩, .native ⟨.identity, "f"⟩ []⟩]⟩) := by
  have hle : 3 ≤ 512 := by decide
  have hshallow : (eval Builtin.host (Builtin.host.enter 1) 3 (.app (.slot 0) (.slot 1))
        [.deferred 0, .atom "a"]).outcome? ⟨#[selfCall none], []⟩ =
      some (.ok (.atom "a"), ⟨#[selfCall (some (.native ⟨.identity, "f"⟩ []))],
        [⟨⟨.identity, "f"⟩, .atom "a"⟩, ⟨⟨.identity, "f"⟩, .native ⟨.identity, "f"⟩ []⟩]⟩) := rfl
  refine ⟨hle, ?_⟩
  rcases (less_depth_same_or_exceeded Builtin.host 1 hle).1 _ _ _ with ⟨m, hspent⟩ | hsame
  · rw [hshallow] at hspent
    cases hspent
  · exact hsame.symm.trans hshallow

/-! ## Application by application -/

section Plain

variable (host : Host φ) (enter : Request φ → Run φ (Value φ))

/-- Evaluates each application separately: its callee, its argument and the call, each one level
deeper. -/
def evalPlain : Nat → Term → Env φ → Run φ (Value φ)
  | 0, _, _ => throw (.depthExceeded maxDepth)
  | _ + 1, .undefined, _ => pure .undefined
  | _ + 1, .slot i, env =>
    match env[i]? with
    | some v => pure v
    | none => throw (.missingSlot i)
  | _ + 1, .lambda body, env => pure (.closure body env)
  | depth + 1, .app f a, env => do
    let g ← evalPlain depth f env
    let x ← evalPlain depth a env
    applyValue host enter (evalPlain depth) (← forced enter depth g) x

def Host.enterPlain (host : Host φ) : (bound : Nat) → Request φ → Run φ (Value φ)
  | 0, _ => Run.giveUp
  | bound + 1, request =>
    answerBy host (host.enterPlain bound) (evalPlain host (host.enterPlain bound)) request

end Plain

/-- Host functions return at once, without calling or forcing any value. -/
def Host.Immediate (host : Host φ) : Prop :=
  ∀ (calls : List (Call φ)) (function : φ) (held : List (Value φ)) (x : Value φ),
    ∃ result, host.respond calls function held x = .done result

section Plain

variable {host : Host φ} {enter enter' : Request φ → Run φ (Value φ)}

/-- A function without requests does not depend on how requests are answered. -/
theorem Host.Immediate.callHost_eq (hhost : host.Immediate) (function : φ) (held : List (Value φ))
    (x : Value φ) : callHost host enter function held x = callHost host enter' function held x := by
  funext m
  obtain ⟨result, hresult⟩ := hhost (m.record ⟨function, x⟩).calls function held x
  have hrun (enter : Request φ → Run φ (Value φ)) :
      (callHost host enter function held x).outcome? m = some (result, m.record ⟨function, x⟩) := by
    simp only [callHost, Run.outcome?_bind, Run.outcome?_modify, Run.outcome?_get, hresult, perform,
      Run.outcome?_ofResult]
  exact (hrun enter).trans (hrun enter').symm

theorem Host.Immediate.upToDepth_callHost (hhost : host.Immediate) (function : φ)
    (held : List (Value φ)) (x : Value φ) :
    (callHost host enter function held x).UpToDepth (callHost host enter' function held x) := by
  rw [hhost.callHost_eq function held x]
  exact .refl _

variable (hhost : host.Immediate) (hforce : Deepens enter enter')
include hhost hforce

/-- An application by itself, next to one at the end of a chain.  The level used by the chain is the
one used by the application; nested applications use further levels. -/
theorem upToDepth_app {d d' : Nat} (h : d ≤ d') {f a : Term} {env : Env φ}
    (hf : (evalPlain host enter d f env).UpToDepth (evalSpine host enter' d' env f))
    (heval : ∀ t env, (evalPlain host enter d t env).UpToDepth (eval host enter' d' t env)) :
    (evalPlain host enter (d + 1) (.app f a) env).UpToDepth
      (evalSpine host enter' d' env (.app f a)) := by
  rw [evalPlain, evalSpine]
  apply hf.bind
  intro g
  apply (heval a env).bind
  intro x
  apply (upToDepth_forced hforce hhost.upToDepth_callHost h g).bind
  intro g
  exact upToDepth_applyValue hforce hhost.upToDepth_callHost heval g x

/-- Application by application, a term has the same outcome as with chains evaluated by one loop, by
itself or as the callee of a chain. -/
theorem upToDepth_evalPlain (d d' : Nat) (t : Term) (env : Env φ) (h : d ≤ d') :
    (evalPlain host enter d t env).UpToDepth (eval host enter' d' t env) ∧
      (evalPlain host enter d t env).UpToDepth (evalSpine host enter' d' env t) := by
  induction d generalizing d' t env with
  | zero =>
    rw [evalPlain]
    exact ⟨.spent _, .spent _⟩
  | succ d ih =>
    have happ (d' : Nat) (hle : d ≤ d') (f a : Term) :
        (evalPlain host enter (d + 1) (.app f a) env).UpToDepth
          (evalSpine host enter' d' env (.app f a)) :=
      upToDepth_app hhost hforce hle (ih d' f env hle).2 fun t env => (ih d' t env hle).1
    obtain ⟨d', rfl⟩ := Nat.exists_eq_add_one_of_ne_zero (Nat.ne_zero_of_lt h)
    cases t with
    | undefined => exact ⟨.refl _, .refl _⟩
    | slot i => exact ⟨.refl _, .refl _⟩
    | lambda body => exact ⟨.refl _, .refl _⟩
    | app f a =>
      rw [eval_app]
      exact ⟨happ d' (Nat.le_of_succ_le_succ h) f a, happ (d' + 1) (Nat.le_of_succ_le h) f a⟩

end Plain

theorem Host.Immediate.deepens_enterPlain {host : Host φ} (hhost : host.Immediate) (bound : Nat) :
    Deepens (host.enterPlain bound) (host.enter bound) := by
  induction bound with
  | zero => exact fun _ _ _ _ => .refl _
  | succ bound ih =>
    intro cell d d' h
    rw [Host.enterPlain, Host.enter, answer_eq_answerBy]
    exact upToDepth_force ih hhost.upToDepth_callHost
      (fun d d' t env h => (upToDepth_evalPlain hhost ih d d' t env h).1) h (.deferred cell)

/-- Evaluating chains by one loop agrees with plain call by value.  If host functions return at
once, evaluation has the outcome of the plain one, unless that exceeds the depth: the same result,
the same host calls in the same order, and the same cells filled. -/
theorem eval_agrees_with_plain (host : Host φ) (hhost : host.Immediate) (bound depth : Nat)
    (t : Term) (env : Env φ) {m m' : Machine φ} {r : Result φ}
    (hrun : (evalPlain host (host.enterPlain bound) depth t env).outcome? m = some (r, m'))
    (hr : r ≠ .error (.depthExceeded 512)) :
    (eval host (host.enter bound) depth t env).outcome? m = some (r, m') := by
  have hforce := hhost.deepens_enterPlain bound
  rcases (upToDepth_evalPlain hhost hforce depth depth t env (Nat.le_refl depth)).1 m with
    ⟨m'', hspent⟩ | hsame
  · rw [hspent] at hrun
    cases hrun
    exact absurd rfl hr
  · exact hsame.symm.trans hrun

/-- Each function returns the atom of its name. -/
def namingHost : Host String where
  respond _ name _ _ := .done (.ok (.atom name))
  nesting := 0

/-- A deferred `\x.\y.y`. -/
def secondCell (value : Option (Value String)) : Cell String :=
  ⟨.app (.lambda (.slot 0)) (.lambda (.lambda (.slot 0))), [], value⟩

theorem eval_agrees_with_plain_chain :
    namingHost.Immediate ∧
    (eval namingHost (namingHost.enter 1) 4
        (.app (.app (.slot 0) (.slot 1)) (.app (.slot 2) (.slot 1)))
        [.deferred 0, .atom "a", .native "g" []]).outcome? ⟨#[secondCell none], []⟩ =
      some (.ok (.atom "g"),
        ⟨#[secondCell (some (.closure (.lambda (.slot 0)) []))], [⟨"g", .atom "a"⟩]⟩) := by
  have hhost : namingHost.Immediate := fun _ _ _ _ => ⟨_, rfl⟩
  exact ⟨hhost, eval_agrees_with_plain namingHost hhost 1 4 _ _ rfl nofun⟩

end LambdaCalculus
