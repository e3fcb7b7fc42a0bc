import LambdaCalculus.Proofs.Cells

/-! # Honest hosts

Host functions are opaque to evaluation, and they may enter it again.  But a host makes its values
out of those it is given: it can make atoms and further functions, but no closures and no references
to cells.  What evaluation preserves, such a host preserves as well.
-/
namespace LambdaCalculus

variable {φ : Type}

/-- The values that a host can make out of given ones. -/
inductive Value.MadeOf (given : Value φ → Prop) : Value φ → Prop where
  | given {v : Value φ} : given v → MadeOf given v
  | undefined : MadeOf given .undefined
  | atom (name : String) : MadeOf given (.atom name)
  | native (function : φ) {held : List (Value φ)} :
      (∀ v ∈ held, MadeOf given v) → MadeOf given (.native function held)

/-- The action makes its values out of the given ones and the answers to its requests.  If all
errors among the answers are `allowed`, so are its own. -/
def Action.Honest (allowed : RuntimeError → Prop) : (Value φ → Prop) → Action φ → Prop
  | given, .done (.ok v) => v.MadeOf given
  | _, .done (.error e) => allowed e
  | given, .call f x resume =>
    f.MadeOf given ∧ x.MadeOf given ∧
      (∀ v, (resume (.ok v)).Honest allowed fun w => given w ∨ w = v) ∧
      ∀ e, allowed e → (resume (.error e)).Honest allowed given
  | given, .force v resume =>
    v.MadeOf given ∧
      (∀ v, (resume (.ok v)).Honest allowed fun w => given w ∨ w = v) ∧
      ∀ e, allowed e → (resume (.error e)).Honest allowed given

namespace Host

/-- Host functions make their values out of their argument and those they hold.  They may have a
state, but store no values in it. -/
def Honest (host : Host φ) (allowed : RuntimeError → Prop) : Prop :=
  ∀ (calls : List (Call φ)) (function : φ) (held : List (Value φ)) (x : Value φ),
    (host.respond calls function held x).Honest allowed fun v => v = x ∨ v ∈ held

/-- Host functions make their values out of those they hold and the arguments of all host calls so
far. -/
def Collecting (host : Host φ) (allowed : RuntimeError → Prop) : Prop :=
  ∀ (calls : List (Call φ)) (function : φ) (held : List (Value φ)) (x : Value φ),
    (host.respond calls function held x).Honest allowed fun v =>
      v = x ∨ v ∈ held ∨ ∃ call ∈ calls, v = call.argument

end Host

theorem Action.honest_of_all (action : Action φ) :
    action.Honest (fun _ => True) fun _ => True := by
  induction action with
  | done result =>
    cases result with
    | ok v => exact .given trivial
    | error e => trivial
  | call f x resume ih =>
    refine ⟨.given trivial, .given trivial, fun v => ?_, fun e _ => ih (.error e)⟩
    simpa using ih (.ok v)
  | force v resume ih =>
    refine ⟨.given trivial, fun v => ?_, fun e _ => ih (.error e)⟩
    simpa using ih (.ok v)

def Request.operands : Request φ → List (Value φ)
  | .force v _ => [v]
  | .call f x _ => [f, x]

/-- An invariant of the machine and its possible changes, for an evaluation next to one on a twin of
the machine. -/
structure Upkeep (φ : Type) where
  good : Machine φ → Prop
  change : Machine φ → Machine φ → Prop
  twin : Machine φ → Machine φ
  change_refl (m : Machine φ) : change m m
  change_trans {m m' m'' : Machine φ} : change m m' → change m' m'' → change m m''
  twin_size (m : Machine φ) : (twin m).cells.size = m.cells.size
  twin_calls (m : Machine φ) : (twin m).calls = m.calls
  twin_record (m : Machine φ) (call : Call φ) : twin (m.record call) = (twin m).record call

def Upkeep.shared (good : Machine φ → Prop) (change : Machine φ → Machine φ → Prop)
    (change_refl : ∀ m, change m m)
    (change_trans : ∀ {m m' m'' : Machine φ}, change m m' → change m' m'' → change m m'') :
    Upkeep φ where
  good := good
  change := change
  twin m := m
  change_refl := change_refl
  change_trans := change_trans
  twin_size _ := rfl
  twin_calls _ := rfl
  twin_record _ _ := rfl

namespace Realm

/-- On a good machine and its twin, two computations have the same outcome, if any: an allowed
result, and a good machine with its twin. -/
def comparison (R : Realm φ) (U : Upkeep φ) : Comparison φ where
  machines m n := U.twin m = n ∧ U.good m
  change := U.change
  failure := R.failure
  absence := .shared
  change_refl := U.change_refl
  change_trans := U.change_trans

def Upholds (R : Realm φ) (U : Upkeep φ) (P : Value φ → Prop) (run run' : Run φ (Value φ)) : Prop :=
  (R.comparison U).Relates P run run'

theorem upholds_iff {R : Realm φ} {U : Upkeep φ} {P : Value φ → Prop}
    {run run' : Run φ (Value φ)} :
    R.Upholds U P run run' ↔ ∀ m, U.good m →
      run'.outcome? (U.twin m) = (run.outcome? m).map (fun final => (final.1, U.twin final.2)) ∧
      ∀ r m', run.outcome? m = some (r, m') →
        Allowed R.failure P r ∧ U.good m' ∧ U.change m m' := by
  constructor
  · intro h m hm
    have hboth := h m (U.twin m) ⟨rfl, hm⟩
    generalize run.outcome? m = o at hboth ⊢
    generalize run'.outcome? (U.twin m) = o' at hboth ⊢
    cases hboth with
    | absent habsent => exact ⟨habsent, by simp⟩
    | excused he => exact he.elim
    | both hr hmachines hchange =>
      obtain ⟨rfl, hm'⟩ := hmachines
      refine ⟨rfl, ?_⟩
      rintro r m' ⟨⟩
      exact ⟨hr, hm', hchange⟩
  · rintro h m _ ⟨rfl, hm⟩
    obtain ⟨heq, hrun⟩ := h m hm
    rw [heq]
    rcases hcase : run.outcome? m with _ | ⟨r, m'⟩
    · exact .absent rfl
    · obtain ⟨hr, hm', hchange⟩ := hrun r m' hcase
      exact .both hr ⟨rfl, hm'⟩ hchange

theorem Upholds.diagonal {R : Realm φ} {U : Upkeep φ} {P : Value φ → Prop}
    {run run' : Run φ (Value φ)} (htwin : ∀ m, U.twin m = m) (h : R.Upholds U P run run') :
    R.Upholds U P run run := by
  refine upholds_iff.mpr fun m hm => ⟨?_, (upholds_iff.mp h m hm).2⟩
  simp [htwin]

/-- The realm is closed under what a host makes. -/
structure Open (R : Realm φ) : Prop where
  undefined : R.value .undefined
  atom (name : String) : R.value (.atom name)
  native (function : φ) {held : List (Value φ)} :
    (∀ v ∈ held, R.value v) → R.value (.native function held)

theorem all_open : (Realm.all φ).Open :=
  ⟨trivial, fun _ => trivial, fun _ _ _ => trivial⟩

theorem Open.madeOf {R : Realm φ} (h : R.Open) {given : Value φ → Prop}
    (hgiven : ∀ v, given v → R.value v) {v : Value φ} (hv : v.MadeOf given) : R.value v := by
  induction hv with
  | given hv => exact hgiven _ hv
  | undefined => exact h.undefined
  | atom name => exact h.atom name
  | native function _ ih => exact h.native function ih

section Entry

variable {R : Realm φ} {U : Upkeep φ} {host : Host φ} {enter enter' : Request φ → Run φ (Value φ)}

/-- Calling and forcing values of the realm is upheld. -/
structure UpheldFor (R : Realm φ) (U : Upkeep φ) (enter enter' : Request φ → Run φ (Value φ)) :
    Prop where
  call : ∀ f x depth, R.value f → R.value x →
    R.Upholds U R.value (enter (.call f x depth)) (enter' (.call f x depth))
  force : ∀ v depth, R.value v →
    R.Upholds U R.callee (enter (.force v depth)) (enter' (.force v depth))

theorem UpheldFor.request (h : R.UpheldFor U enter enter') {request : Request φ}
    (hrequest : ∀ v ∈ request.operands, R.value v) :
    R.Upholds U R.value (enter request) (enter' request) := by
  cases request with
  | force v depth =>
    exact (h.force v depth (hrequest v (by simp [Request.operands]))).mono fun _ =>
      R.value_of_callee
  | call f x depth =>
    exact h.call f x depth (hrequest f (by simp [Request.operands]))
      (hrequest x (by simp [Request.operands]))

theorem UpheldFor.diagonal (htwin : ∀ m, U.twin m = m) (h : R.UpheldFor U enter enter') :
    R.UpheldFor U enter enter :=
  ⟨fun f x depth hf hx => (h.call f x depth hf hx).diagonal htwin,
    fun v depth hv => (h.force v depth hv).diagonal htwin⟩

/-- An honest action on values of the realm respects a comparison that excuses no error, if the
entries it makes do. -/
theorem Open.relates_perform (hopen : R.Open) {C : Comparison φ} (hexcused : ∀ e, ¬ C.excused e)
    (hcall : ∀ f x, R.value f → R.value x →
      C.Relates R.value (enter (.call f x maxDepth)) (enter' (.call f x maxDepth)))
    (hforce : ∀ v, R.value v →
      C.Relates R.callee (enter (.force v maxDepth)) (enter' (.force v maxDepth)))
    {action : Action φ} {given : Value φ → Prop} (hgiven : ∀ v, given v → R.value v)
    (haction : action.Honest C.failure given) :
    C.Relates R.value (perform enter action) (perform enter' action) := by
  induction action generalizing given with
  | done result =>
    cases result with
    | ok v => exact .pure (hopen.madeOf hgiven haction)
    | error e => exact .throw haction
  | call f x resume ih =>
    obtain ⟨hf, hx, hok, herror⟩ := haction
    apply (hcall f x (hopen.madeOf hgiven hf) (hopen.madeOf hgiven hx)).attempt_bind hexcused
    · intro v hv
      exact ih (.ok v) (fun w hw => hw.elim (hgiven w) fun hw => hw ▸ hv) (hok v)
    · exact fun e he => ih (.error e) hgiven (herror e he)
  | force v resume ih =>
    obtain ⟨hv, hok, herror⟩ := haction
    apply (hforce v (hopen.madeOf hgiven hv)).attempt_bind hexcused
    · intro v hv
      exact ih (.ok v) (fun w hw => hw.elim (hgiven w) fun hw => hw ▸ R.value_of_callee hv) (hok v)
    · exact fun e he => ih (.error e) hgiven (herror e he)

/-- Host calls are recorded on good machines, and the host then acts honestly on values of the
realm. -/
def Hosts (R : Realm φ) (U : Upkeep φ) (host : Host φ) : Prop :=
  ∀ (m : Machine φ) (function : φ) (held : List (Value φ)) (x : Value φ),
    U.good m → R.value (.native function held) → R.value x →
    U.good (m.record ⟨function, x⟩) ∧ U.change m (m.record ⟨function, x⟩) ∧
      ∃ given : Value φ → Prop, (∀ v, given v → R.value v) ∧
        (host.respond (m.record ⟨function, x⟩).calls function held x).Honest R.failure given

def UpheldFor.coupling (h : R.UpheldFor U enter enter') (hopen : R.Open) (hhost : R.Hosts U host) :
    Coupling R host enter enter' where
  rel := R.Upholds U
  depths depth depth' := depth = depth'
  depths_pred := Nat.succ.inj
  rel_pure := .pure
  rel_throw he := .throw he
  rel_bind := .bind
  rel_spent t env hdepths hzero := by
    obtain rfl : _ = 0 := hzero.elim id fun hzero => hdepths.trans hzero
    subst hdepths
    exact .throw R.failure_depth
  rel_force hcell hdepths := hdepths ▸ h.force _ _ hcell
  rel_native hf hx := by
    rintro m _ ⟨rfl, hm⟩
    obtain ⟨hgood, hchange, given, hgiven, haction⟩ :=
      hhost m _ _ _ hm (R.value_of_callee hf) hx
    simp only [callHost, Run.outcome?_bind, Run.outcome?_modify, Run.outcome?_get]
    rw [← U.twin_record, U.twin_calls]
    have hperform : R.Upholds U R.value _ _ :=
      hopen.relates_perform (fun _ => id) (fun f x => h.call f x maxDepth)
        (fun v => h.force v maxDepth) hgiven haction
    exact (hperform _ _ ⟨rfl, hgood⟩).after hchange

/-- Answers are upheld if nested entries and forcing cells are. -/
theorem UpheldFor.answer (h : R.UpheldFor U enter enter') (hopen : R.Open) (hhost : R.Hosts U host)
    (hcell : ∀ cell depth, R.value (.deferred cell) →
      R.Upholds U R.callee (forceCell host enter depth cell) (forceCell host enter' depth cell)) :
    R.UpheldFor U (answer host enter) (answer host enter') where
  call _ _ _ hf hx := (h.coupling hopen hhost).rel_call rfl hf hx
  force _ depth hv := (h.coupling hopen hhost).rel_answer_force hv fun cell hcell' =>
    hcell cell depth (hcell' ▸ hv)

end Entry

end Realm

/-! ## Predicates on all entries -/

/-- Has no outcome where that of `run` does not satisfy `good`. -/
noncomputable def Run.guarded (good : Machine φ → Result φ → Machine φ → Prop)
    (run : Run φ (Value φ)) : Run φ (Value φ) :=
  open Classical in
  fun m => (run.outcome? m).filter fun final => good m final.1 final.2

theorem Run.outcome?_guarded {good : Machine φ → Result φ → Machine φ → Prop}
    {run : Run φ (Value φ)} {m : Machine φ}
    (h : ∀ r m', run.outcome? m = some (r, m') → good m r m') :
    (run.guarded good).outcome? m = run.outcome? m := by
  cases hrun : run.outcome? m with
  | none => exact congrArg (Option.filter _) hrun
  | some final =>
    refine (congrArg (Option.filter _) hrun).trans (Option.filter_some_pos ?_)
    simpa using h final.1 final.2 hrun

theorem Run.good_of_guarded {good : Machine φ → Result φ → Machine φ → Prop}
    {run : Run φ (Value φ)} {m m' : Machine φ} {r : Result φ}
    (h : (run.guarded good).outcome? m = some (r, m')) : good m r m' := by
  simpa using (Option.filter_eq_some_iff.mp h).2

namespace Host

variable {host : Host φ} {good : Request φ → Machine φ → Result φ → Machine φ → Prop}

/-- Answers as `enter` does, but has no outcome if that of a nested entry does not satisfy `good`.
-/
noncomputable def watched (host : Host φ)
    (good : Request φ → Machine φ → Result φ → Machine φ → Prop) : Nat → Request φ → Run φ (Value φ)
  | 0, _ => Run.giveUp
  | bound + 1, request => (answer host (host.watched good bound) request).guarded (good request)

/-- The outcomes of all entries of a request satisfy `good`: its own, those of evaluation, and those
of host functions. -/
def AllEntries (host : Host φ) (good : Request φ → Machine φ → Result φ → Machine φ → Prop)
    (request : Request φ) (m : Machine φ) : Prop :=
  ∀ bound, (host.watched good bound request).outcome? m = (host.enter bound request).outcome? m

theorem AllEntries.outermost {request : Request φ} {m m' : Machine φ} {r : Result φ} {bound : Nat}
    (h : host.AllEntries good request m)
    (hrun : (host.enter (bound + 1) request).outcome? m = some (r, m')) : good request m r m' :=
  Run.good_of_guarded ((h (bound + 1)).trans hrun)

end Host

namespace Realm

variable {R : Realm φ} {U : Upkeep φ} {host : Host φ} {enter enter' : Request φ → Run φ (Value φ)}
  {good : Request φ → Machine φ → Result φ → Machine φ → Prop}

theorem Upholds.guarded {P : Value φ → Prop} {run run' : Run φ (Value φ)}
    {good : Machine φ → Result φ → Machine φ → Prop} (htwin : ∀ m, U.twin m = m)
    (h : R.Upholds U P run run')
    (hgood : ∀ m r m', U.good m → run.outcome? m = some (r, m') → good m r m') :
    R.Upholds U P run (run'.guarded good) := by
  refine upholds_iff.mpr fun m hm => ?_
  obtain ⟨heq, hrun⟩ := upholds_iff.mp h m hm
  refine ⟨?_, hrun⟩
  simp only [htwin, Prod.eta, Option.map_id'] at heq ⊢
  rw [Run.outcome?_guarded, heq]
  rw [heq]
  exact fun r m' => hgood m r m' hm

theorem UpheldFor.guarded (htwin : ∀ m, U.twin m = m) (h : R.UpheldFor U enter enter')
    (hgood : ∀ request m r m', (∀ v ∈ request.operands, R.value v) → U.good m →
      (enter request).outcome? m = some (r, m') → good request m r m') :
    R.UpheldFor U enter fun request => (enter' request).guarded (good request) where
  call f x depth hf hx :=
    (h.call f x depth hf hx).guarded htwin fun m r m' =>
      hgood _ m r m' (by simpa [Request.operands] using ⟨hf, hx⟩)
  force v depth hv :=
    (h.force v depth hv).guarded htwin fun m r m' =>
      hgood _ m r m' (by simpa [Request.operands] using hv)

theorem UpheldFor.allEntries (htwin : ∀ m, U.twin m = m)
    (h : ∀ bound, R.UpheldFor U (host.enter bound) (host.watched good bound))
    {request : Request φ} {m : Machine φ} (hrequest : ∀ v ∈ request.operands, R.value v)
    (hm : U.good m) : host.AllEntries good request m := by
  intro bound
  obtain ⟨heq, -⟩ := upholds_iff.mp ((h bound).request hrequest) m hm
  simpa only [htwin, Prod.eta, Option.map_id'] using heq

end Realm

end LambdaCalculus
