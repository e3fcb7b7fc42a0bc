import LambdaCalculus.Proofs.Conduct
import LambdaCalculus.Proofs.Safety
import Mathlib.Logic.Relation

/-! # Sessions

In a session a host loads programs, compiles texts, and calls, forces and inspects the values
obtained, in any order.  Terms are loaded with all slots in range, and each new cell refers to older
ones only.
-/
namespace LambdaCalculus

variable {φ : Type}

/-! ## Loading keeps slots in range -/

theorem Code.term_within (c : Code) (names : List String) : (c.term names).Within names.length := by
  induction c generalizing names with
  | undefined => trivial
  | var name =>
    rw [term_var]
    cases hi : names.idxOf? name with
    | none => trivial
    | some i =>
      obtain ⟨hlt, -⟩ := List.idxOf?_eq_some_iff.mp hi
      exact hlt
  | app f a hf ha =>
    rw [term_app]
    exact ⟨hf names, ha names⟩
  | closure p body ih => exact ih (p :: names)

namespace Program

variable (p : Program) (values : List (Value φ)) (m : Machine φ)

/-- A program is loaded as a term with all slots in range, or loading fails because of an unbound
name or the number of globals. -/
theorem load_cases :
    (∃ t : Term, t.Within values.reverse.length ∧ p.load values m = t.load values.reverse m) ∨
    ∃ e, p.load values m = .error e ∧ ∀ e', e ≠ .runtime e' := by
  rw [load, Code.resolve_eq]
  by_cases hlength : p.globals.length = values.length
  · rw [if_pos hlength]
    cases p.code.free p.globals.reverse with
    | nil =>
      have hwithin := p.code.term_within p.globals.reverse
      rw [List.length_reverse, hlength, ← List.length_reverse] at hwithin
      exact .inl ⟨_, hwithin, rfl⟩
    | cons name names => exact .inr ⟨_, rfl, by simp⟩
  · rw [if_neg hlength]
    exact .inr ⟨_, rfl, by simp⟩

theorem load_ne_runtime (e : RuntimeError) : p.load values m ≠ .error (.runtime e) := by
  intro h
  rcases p.load_cases values m with ⟨t, ht, hload⟩ | ⟨e', he', hne⟩
  · obtain ⟨loaded, hloaded⟩ := ht.load m
    cases hloaded.symm.trans (hload.symm.trans h)
  · cases he'.symm.trans h
    exact hne e rfl

end Program

/-! ## Operations -/

/-- An operation as a sequence of requests, answered by `request`. -/
def Operation.runBy (request : Request φ → Run φ (Value φ)) : Operation φ → Run φ (Value φ)
  | .force v => request (.force v maxDepth)
  | .call f x => request (.call f x maxDepth)
  | .applyAll f args => args.foldlM (fun f x => request (.call f x maxDepth)) f

theorem Operation.run_eq_runBy (op : Operation φ) (host : Host φ) :
    op.run host = op.runBy host.request := by
  cases op <;> rfl

section Compared

variable {rel : (Value φ → Prop) → Run φ (Value φ) → Run φ (Value φ) → Prop} {P : Value φ → Prop}
  (hpure : ∀ {v : Value φ}, P v → rel P (pure v) (pure v))
  (hbind : ∀ {run run' : Run φ (Value φ)} {next next' : Value φ → Run φ (Value φ)},
    rel P run run' → (∀ v, P v → rel P (next v) (next' v)) → rel P (run >>= next) (run' >>= next'))

include hpure hbind

/-- A relation compatible with sequencing that holds of the answers to requests about values
satisfying `P` holds of operations on such values. -/
theorem Operation.rel_runBy {request request' : Request φ → Run φ (Value φ)}
    (hrequest : ∀ r : Request φ, (∀ v ∈ r.operands, P v) → rel P (request r) (request' r))
    (op : Operation φ) (hop : ∀ v ∈ op.operands, P v) :
    rel P (op.runBy request) (op.runBy request') := by
  cases op with
  | force v => exact hrequest _ hop
  | call f x => exact hrequest _ hop
  | applyAll f args =>
    obtain ⟨hf, hargs⟩ := List.forall_mem_cons.mp hop
    simp only [runBy]
    clear hop
    induction args generalizing f with
    | nil => exact hpure hf
    | cons x args ih =>
      obtain ⟨hx, hargs⟩ := List.forall_mem_cons.mp hargs
      rw [List.foldlM_cons]
      apply hbind (hrequest (.call f x maxDepth) (by simpa [Request.operands] using ⟨hf, hx⟩))
      intro g hg
      exact ih g hg hargs

theorem Operation.rel_run {host : Host φ}
    (hrequest : ∀ r : Request φ, (∀ v ∈ r.operands, P v) → rel P (host.request r) (host.request r))
    (op : Operation φ) (hop : ∀ v ∈ op.operands, P v) : rel P (op.run host) (op.run host) := by
  rw [run_eq_runBy]
  exact op.rel_runBy hpure hbind hrequest hop

end Compared

theorem Operation.upholds {R : Realm φ} {U : Upkeep φ} {host : Host φ}
    (h : ∀ bound, R.UpheldFor U (host.enter bound) (host.enter bound)) (op : Operation φ)
    (hop : ∀ v ∈ op.operands, R.value v) :
    R.Upholds U R.value (op.run host) (op.run host) := by
  refine op.rel_run Comparison.Relates.pure Comparison.Relates.bind ?_ hop
  -- How many entries may be nested is read off the machine.
  rintro r hr m _ ⟨rfl, hm⟩
  rw [host.outcome?_request, host.outcome?_request, U.twin_size]
  exact (h _).request hr m _ ⟨rfl, hm⟩

/-! ## Stages -/

/-- The state of a session: the machine, and the values obtained, last first. -/
structure Stage (φ : Type) where
  machine : Machine φ
  values : List (Value φ)

namespace Stage

def start : Stage φ := ⟨.empty, []⟩

/-- The values obtained, and the arguments of host calls. -/
def Known (s : Stage φ) (v : Value φ) : Prop :=
  v ∈ s.values ∨ ∃ call ∈ s.machine.calls, v = call.argument

/-- A step of a session.  A failing operation returns no value, but it may change the machine. -/
inductive Step (host : Host φ) : Stage φ → Stage φ → Prop where
  | make {s : Stage φ} {v : Value φ} : v.MadeOf s.Known →
      Step host s ⟨s.machine, v :: s.values⟩
  | load {s : Stage φ} {args : List (Value φ)} {v : Value φ} {m : Machine φ} (p : Program) :
      (∀ a ∈ args, a ∈ s.values) → p.load args s.machine = .ok (v, m) →
      Step host s ⟨m, v :: s.values⟩
  | compile {s : Stage φ} (globals : Globals φ) (source : String) :
      (∀ g ∈ globals, g.2 ∈ s.values) →
      Step host s ⟨(compile globals source s.machine).2,
        (compile globals source s.machine).1.value :: s.values⟩
  | operate {s : Stage φ} {r : Result φ} {m : Machine φ} (op : Operation φ) :
      (∀ v ∈ op.operands, v ∈ s.values) → (op.run host).outcome? s.machine = some (r, m) →
      Step host s ⟨m, r.toOption.toList ++ s.values⟩
  | asAtom {s : Stage φ} {v : Value φ} {r : Except RuntimeError (Option String)} {m : Machine φ} :
      v ∈ s.values → (host.asAtom v).outcome? s.machine = some (r, m) →
      Step host s ⟨m, s.values⟩
  | isCallable {s : Stage φ} {v : Value φ} {r : Except RuntimeError Bool} {m : Machine φ} :
      v ∈ s.values → (host.isCallable v).outcome? s.machine = some (r, m) →
      Step host s ⟨m, s.values⟩

abbrev Leads (host : Host φ) : Stage φ → Stage φ → Prop := Relation.ReflTransGen (Step host)

abbrev Reached (host : Host φ) (s : Stage φ) : Prop := Leads host start s

end Stage

theorem Run.exists_of_attempt {α : Type} {run : Run φ (Value φ)} {look : Result φ → Run φ α}
    (hlook : ∀ r m, ∃ a, (look r).outcome? m = some (.ok a, m)) {m m' : Machine φ}
    {r : Except RuntimeError α} (h : (run.attempt >>= look).outcome? m = some (r, m')) :
    ∃ r', run.outcome? m = some (r', m') := by
  rw [Run.outcome?_bind, Run.outcome?_attempt] at h
  rcases hrun : run.outcome? m with _ | ⟨r', m₁⟩
  · simp [hrun] at h
  · obtain ⟨a, ha⟩ := hlook r' m₁
    simp only [hrun, Option.map_some, ha] at h
    cases h
    exact ⟨r', rfl⟩

theorem Host.exists_force_of_asAtom {host : Host φ} {v : Value φ} {m m' : Machine φ}
    {r : Except RuntimeError (Option String)} (h : (host.asAtom v).outcome? m = some (r, m')) :
    ∃ r', (host.force v).outcome? m = some (r', m') := by
  refine Run.exists_of_attempt ?_ h
  intro r m
  split <;> exact ⟨_, rfl⟩

theorem Host.exists_force_of_isCallable {host : Host φ} {v : Value φ} {m m' : Machine φ}
    {r : Except RuntimeError Bool} (h : (host.isCallable v).outcome? m = some (r, m')) :
    ∃ r', (host.force v).outcome? m = some (r', m') := by
  refine Run.exists_of_attempt ?_ h
  intro r m
  split <;> exact ⟨_, rfl⟩

/-- The cases of a step: it makes a value, it loads a term with its slots in range, or it runs an
operation. -/
theorem Stage.Step.cases {host : Host φ} {s s' : Stage φ} (h : s.Step host s') :
    (∃ v : Value φ, v.MadeOf s.Known ∧ s' = ⟨s.machine, v :: s.values⟩) ∨
    (∃ (t : Term) (env : Env φ) (v : Value φ) (m : Machine φ), t.Within env.length ∧
      (∀ w ∈ env, w ∈ s.values) ∧ t.load env s.machine = .ok (v, m) ∧
      s' = ⟨m, v :: s.values⟩) ∨
    ∃ (op : Operation φ) (r : Result φ), (∀ v ∈ op.operands, v ∈ s.values) ∧
      (op.run host).outcome? s.machine = some (r, s'.machine) ∧
      ∀ v ∈ s'.values, v ∈ s.values ∨ r = .ok v := by
  cases h with
  | make hv => exact .inl ⟨_, hv, rfl⟩
  | load p hargs hload =>
    rcases p.load_cases _ s.machine with ⟨t, ht, hloaded⟩ | ⟨e, he, -⟩
    · refine .inr (.inl ⟨t, _, _, _, ht, ?_, hloaded.symm.trans hload, rfl⟩)
      exact fun w hw => hargs w (List.mem_reverse.mp hw)
    · cases he.symm.trans hload
  | compile globals source hglobals =>
    obtain ⟨v, m, hload, hcompile⟩ := compile_eq globals source s.machine
    refine .inr (.inl ⟨_, globals.env, v, m, ?_, ?_, hload, by rw [hcompile]⟩)
    · simpa [Globals.names, Globals.env] using Expr.slots_within _ globals.names
    · intro w hw
      obtain ⟨g, hg, rfl⟩ := List.mem_map.mp (List.mem_reverse.mp hw)
      exact hglobals g hg
  | @operate r _ op hop hrun =>
    refine .inr (.inr ⟨op, r, hop, hrun, ?_⟩)
    intro v hv
    rcases List.mem_append.mp hv with hv | hv
    · cases r with
      | error e => simp [Except.toOption] at hv
      | ok w => exact .inr (by simpa [Except.toOption, eq_comm] using hv)
    · exact .inl hv
  | @asAtom v _ _ hv hrun =>
    obtain ⟨r, hforce⟩ := Host.exists_force_of_asAtom hrun
    exact .inr (.inr ⟨.force v, r, by simpa [Operation.operands] using hv, hforce,
      fun _ => .inl⟩)
  | @isCallable v _ _ hv hrun =>
    obtain ⟨r, hforce⟩ := Host.exists_force_of_isCallable hrun
    exact .inr (.inr ⟨.force v, r, by simpa [Operation.operands] using hv, hforce,
      fun _ => .inl⟩)

/-! ## Values in scope -/

/-- Terms with all slots in range, values of any kind, and cells that refer to older ones only. -/
def inScope (failure : RuntimeError → Prop)
    (h : ∀ e : RuntimeError, (∀ i, e ≠ .missingSlot i) → failure e) : Discipline φ where
  term n t := t.Within n
  undefined := True
  atom _ := True
  native _ := True
  refers i j := j < i
  failure := failure
  term_app h := h
  term_lambda h := h
  term_slot h := h
  term_undefined _ := trivial
  refers_trans hij hjk := Nat.lt_trans hjk hij
  refers_of_lt h := h
  failure_depth := h _ nofun
  failure_undefined _ := h _ nofun
  failure_atom _ := h _ nofun

def ordered : Discipline φ := inScope (fun _ => True) fun _ _ => trivial

section InScope

variable {failure : RuntimeError → Prop}
  {h : ∀ e : RuntimeError, (∀ i, e ≠ .missingSlot i) → failure e}

theorem inScope_open (cell : Nat) : ((inScope (φ := φ) failure h).realm cell).Open where
  undefined := .undefined trivial
  atom _ := .atom trivial
  native _ _ hheld := .native trivial hheld

/-- An invariant of the machine that is preserved by loading, and by operations on values in scope,
holds throughout a session, and all values obtained are in scope. -/
theorem Stage.Reached.invariant {host : Host φ} {I : Machine φ → Prop} (hempty : I .empty)
    (hcalls : ∀ m : Machine φ, I m →
      ∀ call ∈ m.calls, call.argument.Obeys (inScope failure h) m.cells.size)
    (hdefer : ∀ (m : Machine φ) (t : Term) (env : Env φ), I m → t.Within env.length →
      (∀ v ∈ env, v.Obeys (inScope failure h) m.cells.size) → I (m.defer t env).2)
    (hrun : ∀ (m m' : Machine φ) (op : Operation φ) (r : Result φ), I m →
      (∀ v ∈ op.operands, v.Obeys (inScope failure h) m.cells.size) →
      (op.run host).outcome? m = some (r, m') →
      I m' ∧ m'.cells.size = m.cells.size ∧
        ∀ v, r = .ok v → v.Obeys (inScope failure h) m.cells.size)
    {s : Stage φ} (hs : s.Reached host) :
    I s.machine ∧ ∀ v ∈ s.values, v.Obeys (inScope failure h) s.machine.cells.size := by
  induction hs with
  | refl => exact ⟨hempty, nofun⟩
  | @tail s s' _ hstep ih =>
    obtain ⟨hI, hvalues⟩ := ih
    rcases hstep.cases with ⟨v, hv, rfl⟩ | ⟨t, env, v, m, ht, henv, hload, rfl⟩ |
      ⟨op, r, hop, hout, hgained⟩
    · refine ⟨hI, List.forall_mem_cons.mpr ⟨?_, hvalues⟩⟩
      refine (inScope_open s.machine.cells.size).madeOf ?_ hv
      rintro w (hw | ⟨call, hcall, rfl⟩)
      · exact hvalues w hw
      · exact hcalls _ hI call hcall
    · have henv : ∀ w ∈ env, w.Obeys (inScope failure h) s.machine.cells.size :=
        fun w hw => hvalues w (henv w hw)
      have hv := Term.value_of_load (d := inScope failure h) hload ht henv
      rcases t.machine_of_load hload with rfl | rfl
      · exact ⟨hI, List.forall_mem_cons.mpr ⟨hv, hvalues⟩⟩
      · refine ⟨hdefer _ _ _ hI ht henv, List.forall_mem_cons.mpr ⟨hv, ?_⟩⟩
        exact fun w hw => (hvalues w hw).of_le (by simp [Machine.defer])
    · obtain ⟨hI', hsize, hr⟩ := hrun _ _ op r hI (fun v hv => hvalues v (hop v hv)) hout
      rw [hsize]
      refine ⟨hI', ?_⟩
      intro v hv
      exact (hgained v hv).elim (hvalues v) (hr v)

end InScope

end LambdaCalculus
