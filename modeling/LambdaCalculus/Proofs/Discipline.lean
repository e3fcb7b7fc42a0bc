import LambdaCalculus.Load
import LambdaCalculus.Proofs.Cells

/-! # Disciplines

A discipline specifies the terms, values and errors that may occur in an evaluation, and the cells
that a cell may refer to.  Evaluation preserves it, for its result and for the machine.  Host
functions are assumed to preserve it.
-/
namespace LambdaCalculus

namespace Run

variable {φ α β : Type} {lost : Prop} {m : Machine φ}

/-- The outcome of a computation satisfies `Q`; if there is none, `lost` holds. -/
def Ends (run : Run φ α) (lost : Prop) (m : Machine φ)
    (Q : Except RuntimeError α → Machine φ → Prop) : Prop :=
  match run.outcome? m with
  | none => lost
  | some (r, m') => Q r m'

theorem Ends.bind {run : Run φ α} {next : α → Run φ β}
    {Q : Except RuntimeError α → Machine φ → Prop} {R : Except RuntimeError β → Machine φ → Prop}
    (h : run.Ends lost m Q) (hok : ∀ a m', Q (.ok a) m' → (next a).Ends lost m' R)
    (herror : ∀ e m', Q (.error e) m' → R (.error e) m') : (run >>= next).Ends lost m R := by
  unfold Ends at h ⊢
  rw [outcome?_bind]
  rcases hrun : run.outcome? m with _ | ⟨r, m'⟩
  · simpa only [hrun] using h
  · rw [hrun] at h
    cases r with
    | error e => exact herror e m' h
    | ok a => exact hok a m' h

theorem Ends.mono {run : Run φ α} {Q R : Except RuntimeError α → Machine φ → Prop}
    (h : run.Ends lost m Q) (himp : ∀ r m', Q r m' → R r m') : run.Ends lost m R := by
  unfold Ends at h ⊢
  split
  · simpa only [‹run.outcome? m = none›] using h
  · rename_i r m' hrun
    rw [hrun] at h
    exact himp r m' h

theorem ends_get {next : Machine φ → Run φ α} {Q : Except RuntimeError α → Machine φ → Prop}
    (h : (next m).Ends lost m Q) : (get >>= next).Ends lost m Q := h

theorem Ends.exists_outcome {run : Run φ α} {Q : Except RuntimeError α → Machine φ → Prop}
    (h : run.Ends False m Q) : ∃ r m', run.outcome? m = some (r, m') ∧ Q r m' := by
  unfold Ends at h
  split at h
  · exact h.elim
  · exact ⟨_, _, ‹_›, h⟩

end Run

/-- The terms, functions, errors and references that may occur in an evaluation. -/
structure Discipline (φ : Type) where
  /-- The terms allowed in an environment of the given length. -/
  term : Nat → Term → Prop
  undefined : Prop
  atom : String → Prop
  native : φ → Prop
  /-- The cells that a cell may refer to. -/
  refers : Nat → Nat → Prop
  failure : RuntimeError → Prop
  term_app {n : Nat} {f a : Term} : term n (.app f a) → term n f ∧ term n a
  term_lambda {n : Nat} {body : Term} : term n (.lambda body) → term (n + 1) body
  term_slot {n i : Nat} : term n (.slot i) → i < n
  term_undefined {n : Nat} : term n .undefined → undefined
  refers_trans {i j k : Nat} : refers i j → refers j k → refers i k
  refers_of_lt {i j : Nat} : j < i → refers i j
  failure_depth : failure (.depthExceeded maxDepth)
  failure_undefined : undefined → failure (.notCallable "undefined")
  failure_atom {name : String} : atom name → failure (.notCallable name)

variable {φ : Type}

inductive Value.Obeys (d : Discipline φ) (cell : Nat) : Value φ → Prop where
  | undefined : d.undefined → Obeys d cell .undefined
  | atom {name : String} : d.atom name → Obeys d cell (.atom name)
  | closure {body : Term} {env : Env φ} :
      d.term (env.length + 1) body → (∀ v ∈ env, Obeys d cell v) → Obeys d cell (.closure body env)
  | native {function : φ} {held : List (Value φ)} :
      d.native function → (∀ v ∈ held, Obeys d cell v) → Obeys d cell (.native function held)
  | deferred {other : Nat} : d.refers cell other → Obeys d cell (.deferred other)

namespace Value.Obeys

variable {d : Discipline φ} {i j : Nat} {v : Value φ}

theorem of_refers (h : v.Obeys d i) (href : d.refers j i) : v.Obeys d j := by
  induction h with
  | undefined h => exact .undefined h
  | atom h => exact .atom h
  | closure h _ ih => exact .closure h ih
  | native h _ ih => exact .native h ih
  | deferred h => exact .deferred (d.refers_trans href h)

theorem of_le (h : v.Obeys d i) (hle : i ≤ j) : v.Obeys d j := by
  rcases Nat.eq_or_lt_of_le hle with rfl | hlt
  · exact h
  · exact h.of_refers (d.refers_of_lt hlt)

end Value.Obeys

structure Cell.Obeys (d : Discipline φ) (cell : Nat) (c : Cell φ) : Prop where
  term : d.term c.env.length c.term
  env : ∀ v ∈ c.env, v.Obeys d cell
  value : ∀ v, c.value = some v → v.Obeys d cell ∧ v.Settled

/-- A machine with `size` cells, all of which obey the discipline. -/
structure Machine.Obeys (d : Discipline φ) (size : Nat) (m : Machine φ) : Prop where
  size_eq : m.cells.size = size
  cell : ∀ (i : Nat) (c : Cell φ), m.cells[i]? = some c → c.Obeys d i

namespace Machine.Obeys

variable {d : Discipline φ} {size cell : Nat} {m : Machine φ} {v : Value φ}

theorem record (h : m.Obeys d size) (call : Call φ) : (m.record call).Obeys d size :=
  ⟨h.size_eq, h.cell⟩

theorem fill (h : m.Obeys d size) (hv : v.Obeys d cell) (hsettled : v.Settled) :
    (m.fill cell v).Obeys d size := by
  refine ⟨(m.size_fill cell v).trans h.size_eq, ?_⟩
  intro i c hc
  obtain ⟨value, hold, hvalue⟩ := exists_cell_of_fill hc
  obtain ⟨hterm, henv, hkept⟩ := h.cell i _ hold
  refine ⟨hterm, henv, ?_⟩
  intro w hw
  rcases hvalue w hw with hw | ⟨rfl, -, rfl⟩
  · exact hkept w hw
  · exact ⟨hv, hsettled⟩

theorem defer {t : Term} {env : Env φ} (hm : m.Obeys d m.cells.size) (ht : d.term env.length t)
    (henv : ∀ v ∈ env, v.Obeys d m.cells.size) :
    (m.defer t env).2.Obeys d (m.defer t env).2.cells.size := by
  refine ⟨rfl, ?_⟩
  intro i c hc
  rcases cell_of_defer hc with hc | ⟨rfl, rfl⟩
  · exact hm.cell i c hc
  · exact ⟨ht, henv, by simp⟩

theorem cached (h : m.Obeys d size) (hv : m.cached? cell = some v) :
    v.Obeys d cell ∧ v.Settled := by
  obtain ⟨c, hc, hvalue⟩ := cached?_eq_some_iff.mp hv
  exact (h.cell cell c hc).value v hvalue

end Machine.Obeys

namespace Term

variable {d : Discipline φ} {t : Term} {env : Env φ} {m m' : Machine φ} {v : Value φ}

/-- Loading adds at most one cell. -/
theorem machine_of_load (t : Term) (hload : t.load env m = .ok (v, m')) :
    m' = m ∨ m' = (m.defer t env).2 := by
  cases t with
  | undefined =>
    cases hload
    exact .inl rfl
  | slot i =>
    rw [load] at hload
    split at hload
    · cases hload
      exact .inl rfl
    · cases hload
  | lambda body =>
    cases hload
    exact .inl rfl
  | app f a =>
    cases hload
    exact .inr rfl

theorem value_of_load (hload : t.load env m = .ok (v, m')) (ht : d.term env.length t)
    (henv : ∀ w ∈ env, w.Obeys d m.cells.size) : v.Obeys d m'.cells.size := by
  cases t with
  | undefined =>
    cases hload
    exact .undefined (d.term_undefined ht)
  | slot i =>
    have hi := d.term_slot ht
    simp only [load, List.getElem?_eq_getElem hi] at hload
    cases hload
    exact henv _ (List.getElem_mem hi)
  | lambda body =>
    cases hload
    exact .closure (d.term_lambda ht) henv
  | app f a =>
    cases hload
    exact .deferred (d.refers_of_lt (by simp))

/-- Loading preserves a discipline. -/
theorem load_obeys (hload : t.load env m = .ok (v, m')) (ht : d.term env.length t)
    (henv : ∀ w ∈ env, w.Obeys d m.cells.size) (hm : m.Obeys d m.cells.size) :
    v.Obeys d m'.cells.size ∧ m'.Obeys d m'.cells.size ∧ m.cells.size ≤ m'.cells.size := by
  have hv := value_of_load hload ht henv
  rcases t.machine_of_load hload with rfl | rfl
  · exact ⟨hv, hm, Nat.le_refl _⟩
  · exact ⟨hv, hm.defer ht henv, by simp [Machine.defer]⟩

end Term

namespace Discipline

/-- The computation preserves the discipline of the machine, and its value, if any, satisfies `P`.
-/
def Keeps (d : Discipline φ) (lost : Prop) (size : Nat) (P : Value φ → Prop)
    (run : Run φ (Value φ)) (m : Machine φ) : Prop :=
  run.Ends lost m fun r m' => Allowed d.failure P r ∧ m'.Obeys d size

variable {d : Discipline φ} {lost : Prop} {size cell : Nat} {m : Machine φ}
  {P Q : Value φ → Prop} {run : Run φ (Value φ)}

theorem Keeps.bind {next : Value φ → Run φ (Value φ)} (h : d.Keeps lost size P run m)
    (hnext : ∀ v m', P v → m'.Obeys d size → d.Keeps lost size Q (next v) m') :
    d.Keeps lost size Q (run >>= next) m :=
  Run.Ends.bind h (fun v m' hv => hnext v m' hv.1 hv.2) (fun _ _ he => he)

theorem Keeps.mono (h : d.Keeps lost size P run m) (himp : ∀ v, P v → Q v) :
    d.Keeps lost size Q run m := by
  apply Run.Ends.mono h
  rintro r m' ⟨hr, hm'⟩
  exact ⟨hr.mono himp, hm'⟩

theorem keeps_pure {v : Value φ} (hv : P v) (hm : m.Obeys d size) :
    d.Keeps lost size P (pure v) m := ⟨hv, hm⟩

theorem keeps_throw {e : RuntimeError} (he : d.failure e) (hm : m.Obeys d size) :
    d.Keeps lost size P (throw e) m := ⟨he, hm⟩

theorem keeps_fill {v : Value φ} (hv : v.Obeys d cell) (hsettled : v.Settled)
    (hm : m.Obeys d size) :
    d.Keeps lost size (fun v => v.Obeys d cell ∧ v.Settled) (Run.fill cell v) m := by
  have hfilled := hm.fill hv hsettled
  refine ⟨?_, hfilled⟩
  cases hcached : (m.fill cell v).cached? cell with
  | none => exact ⟨hv, hsettled⟩
  | some w => exact hfilled.cached hcached

def realm (d : Discipline φ) (cell : Nat) : Realm φ where
  term := d.term
  value v := v.Obeys d cell
  callee v := v.Obeys d cell ∧ v.Settled
  failure := d.failure
  term_app := d.term_app
  value_undefined h := .undefined (d.term_undefined h)
  value_lambda h henv := .closure (d.term_lambda h) henv
  value_of_callee h := h.1
  callee_of_settled h hsettled := ⟨h, hsettled⟩
  callee_closure h := by
    cases h.1 with
    | closure hbody henv => exact ⟨hbody, henv⟩
  failure_depth := d.failure_depth
  failure_slot h hle := absurd (d.term_slot h) (Nat.not_lt.mpr hle)
  failure_callee h hfunction := by
    obtain ⟨hobeys, hsettled⟩ := h
    cases hobeys with
    | undefined h => exact d.failure_undefined h
    | atom h => exact d.failure_atom h
    | closure => cases hfunction
    | native => cases hfunction
    | deferred => exact hsettled.elim

/-- The assumptions of an evaluation for a cell: forcing the cells it may refer to, and calling host
functions, preserve the discipline. -/
structure Entry (d : Discipline φ) (lost : Prop) (size cell : Nat) (host : Host φ)
    (enter : Request φ → Run φ (Value φ)) : Prop where
  force : ∀ (other depth : Nat) (m : Machine φ), d.refers cell other → m.Obeys d size →
    d.Keeps lost size (fun v => v.Obeys d cell ∧ v.Settled)
      (enter (.force (.deferred other) depth)) m
  native : ∀ (function : φ) (held : List (Value φ)) (x : Value φ) (m : Machine φ),
    d.native function → (∀ v ∈ held, v.Obeys d cell) → x.Obeys d cell → m.Obeys d size →
    d.Keeps lost size (·.Obeys d cell) (perform enter (host.respond m.calls function held x)) m

section Entry

variable {host : Host φ} {enter : Request φ → Run φ (Value φ)} {f x v : Value φ} {depth : Nat}

def Entry.coupling (h : d.Entry lost size cell host enter) :
    Coupling (d.realm cell) host enter enter where
  rel P run _ := ∀ m : Machine φ, m.Obeys d size → d.Keeps lost size P run m
  depths depth depth' := depth = depth'
  depths_pred := Nat.succ.inj
  rel_pure hv _ hm := keeps_pure hv hm
  rel_throw he _ hm := keeps_throw he hm
  rel_bind hrun hnext m hm := (hrun m hm).bind fun v m' hv hm' => hnext v hv m' hm'
  rel_spent t env hdepths hzero m hm := by
    obtain rfl : _ = 0 := hzero.elim id fun h => hdepths.trans h
    exact keeps_throw d.failure_depth hm
  rel_force hcell _ m hm := by
    cases hcell with
    | deferred href => exact h.force _ _ m href hm
  rel_native hf hx m hm := by
    cases hf.1 with
    | native hfunction hheld => exact h.native _ _ _ _ hfunction hheld hx (hm.record _)

theorem Entry.forced (h : d.Entry lost size cell host enter) (hv : v.Obeys d cell)
    (hm : m.Obeys d size) :
    d.Keeps lost size (fun v => v.Obeys d cell ∧ v.Settled) (forced enter depth v) m :=
  h.coupling.rel_forced (d := depth) rfl hv m hm

/-- Evaluation preserves a discipline. -/
theorem Entry.eval (h : d.Entry lost size cell host enter) (depth : Nat) (t : Term) (env : Env φ)
    (m : Machine φ) (ht : d.term env.length t) (henv : ∀ v ∈ env, v.Obeys d cell)
    (hm : m.Obeys d size) : d.Keeps lost size (·.Obeys d cell) (eval host enter depth t env) m :=
  h.coupling.rel_eval (d := depth) rfl t env ht henv m hm

/-- Forcing a cell preserves the discipline, by an evaluation for that cell. -/
theorem Entry.forceCell (h : d.Entry lost size cell host enter) (hcell : cell < size ∨ lost)
    (hm : m.Obeys d size) :
    d.Keeps lost size (fun v => v.Obeys d cell ∧ v.Settled)
      (forceCell host enter depth cell) m := by
  unfold LambdaCalculus.forceCell
  apply Run.ends_get
  cases hc : m.cells[cell]? with
  | none =>
    have hsize := Array.getElem?_eq_none_iff.mp hc
    rw [hm.size_eq] at hsize
    exact hcell.resolve_left (Nat.not_lt.mpr hsize)
  | some c =>
    have hobeys := hm.cell cell c hc
    cases hvalue : c.value with
    | some v =>
      simp only [hvalue]
      exact keeps_pure (hobeys.value v hvalue) hm
    | none =>
      simp only [hvalue]
      apply (h.eval depth c.term c.env m hobeys.term hobeys.env hm).bind
      intro v m' hv hm'
      apply (h.forced hv hm').bind
      intro w m'' hw hm''
      exact keeps_fill hw.1 hw.2 hm''

theorem Entry.call (h : d.Entry lost size cell host enter) (hf : f.Obeys d cell)
    (hx : x.Obeys d cell) (hm : m.Obeys d size) :
    d.Keeps lost size (·.Obeys d cell) (answer host enter (.call f x depth)) m :=
  h.coupling.rel_call (d := depth) rfl hf hx m hm

end Entry

/-! ## Cells that refer to older cells only -/

section Ordered

variable {host : Host φ} {f x v : Value φ}

/-- Host functions preserve the discipline, whatever the answers to their requests. -/
def HostKeeps (d : Discipline φ) (lost : Prop) (size : Nat) (host : Host φ) : Prop :=
  ∀ (cell : Nat) (enter : Request φ → Run φ (Value φ)) (function : φ) (held : List (Value φ))
    (x : Value φ) (m : Machine φ),
    d.native function → (∀ v ∈ held, v.Obeys d cell) → x.Obeys d cell → m.Obeys d size →
    d.Keeps lost size (·.Obeys d cell) (perform enter (host.respond m.calls function held x)) m

/-- If cells refer to older cells only, as many nested entries as there are older cells suffice, and
no outcome is lost. -/
theorem entry_enter (hrefers : ∀ {i j : Nat}, d.refers i j → j < i)
    (hhost : d.HostKeeps False size host) {bound cell : Nat} (hbound : cell ≤ bound)
    (hsize : cell ≤ size) : d.Entry False size cell host (host.enter bound) := by
  induction bound generalizing cell with
  | zero =>
    refine ⟨fun other depth m href hm => ?_, hhost cell _⟩
    have hlt := hrefers href
    omega
  | succ bound ih =>
    refine ⟨fun other depth m href hm => ?_, hhost cell _⟩
    have hlt := hrefers href
    have hentry : d.Entry False size other host (host.enter bound) := ih (by omega) (by omega)
    apply (hentry.forceCell (.inl (by omega)) hm).mono
    exact fun v hv => ⟨hv.1.of_refers href, hv.2⟩

variable (hrefers : ∀ {i j : Nat}, d.refers i j → j < i) (hhost : d.HostKeeps False size host)
include hrefers hhost

theorem force_keeps (hv : v.Obeys d size) (hm : m.Obeys d size) :
    d.Keeps False size (·.Obeys d size) (host.force v) m := by
  apply Run.ends_get
  rw [hm.size_eq]
  cases v with
  | deferred other =>
    cases hv with
    | deferred href =>
      have hentry : d.Entry False size size host (host.enter (size + host.nesting + 1)) :=
        entry_enter hrefers hhost (by omega) (Nat.le_refl size)
      exact (hentry.force other maxDepth m href hm).mono fun v hv => hv.1
  | undefined => exact keeps_pure hv hm
  | atom name => exact keeps_pure hv hm
  | closure body env => exact keeps_pure hv hm
  | native function held => exact keeps_pure hv hm

theorem call_keeps (hf : f.Obeys d size) (hx : x.Obeys d size) (hm : m.Obeys d size) :
    d.Keeps False size (·.Obeys d size) (host.call f x) m := by
  apply Run.ends_get
  rw [hm.size_eq]
  have hentry : d.Entry False size size host (host.enter (size + host.nesting)) :=
    entry_enter hrefers hhost (by omega) (Nat.le_refl size)
  exact hentry.call hf hx hm

theorem applyAll_keeps {args : List (Value φ)} (hf : f.Obeys d size)
    (hargs : ∀ x ∈ args, x.Obeys d size) (hm : m.Obeys d size) :
    d.Keeps False size (·.Obeys d size) (host.applyAll f args) m := by
  induction args generalizing f m with
  | nil => exact keeps_pure hf hm
  | cons x args ih =>
    rw [Host.applyAll, List.foldlM_cons]
    apply (call_keeps hrefers hhost hf (hargs x List.mem_cons_self) hm).bind
    intro g m' hg hm'
    exact ih hg (fun y hy => hargs y (List.mem_cons_of_mem x hy)) hm'

end Ordered

end Discipline

end LambdaCalculus
