import LambdaCalculus.Builtin
import LambdaCalculus.Proofs.Discipline
import LambdaCalculus.Proofs.Resolution

/-! # Programs without diagnostics do not go wrong

Values obtained from texts without diagnostics, and from each other, are closures and deferred
values, and so are their components.  Evaluating them can fail only by exceeding the depth.
-/
namespace LambdaCalculus

variable {φ : Type}

/-- A defined term with all free slots below `n`. -/
structure Term.Sound (n : Nat) (t : Term) : Prop where
  within : t.Within n
  defined : t.Defined

theorem Term.Sound.app {n : Nat} {f a : Term} (h : (Term.app f a).Sound n) :
    f.Sound n ∧ a.Sound n :=
  ⟨⟨h.within.1, h.defined.1⟩, ⟨h.within.2, h.defined.2⟩⟩

theorem Term.Sound.lambda {n : Nat} {body : Term} (h : (Term.lambda body).Sound n) :
    body.Sound (n + 1) :=
  ⟨h.within, h.defined⟩

/-- Closures of defined terms, and cells with such closures; cells refer to older cells only. -/
def soundness : Discipline φ where
  term n t := t.Sound n
  undefined := False
  atom _ := False
  native _ := False
  refers i j := j < i
  failure e := e = .depthExceeded maxDepth
  term_app h := h.app
  term_lambda h := h.lambda
  term_slot h := h.within
  term_undefined h := h.defined
  refers_trans hij hjk := Nat.lt_trans hjk hij
  refers_of_lt h := h
  failure_depth := rfl
  failure_undefined h := h.elim
  failure_atom h := h.elim

theorem soundness_host (size : Nat) (host : Host φ) :
    soundness.HostKeeps False size host :=
  fun _ _ _ _ _ _ hnative => hnative.elim

inductive Operation (φ : Type) where
  | force (v : Value φ)
  | call (f x : Value φ)
  | applyAll (f : Value φ) (args : List (Value φ))

namespace Operation

def operands : Operation φ → List (Value φ)
  | .force v => [v]
  | .call f x => [f, x]
  | .applyAll f args => f :: args

def run (host : Host φ) : Operation φ → Run φ (Value φ)
  | .force v => host.force v
  | .call f x => host.call f x
  | .applyAll f args => host.applyAll f args

/-- Operations preserve a discipline under which cells refer to older cells only. -/
theorem run_keeps {d : Discipline φ} (hrefers : ∀ {i j : Nat}, d.refers i j → j < i)
    {size : Nat} {host : Host φ} (hhost : d.HostKeeps False size host) {m : Machine φ}
    (op : Operation φ) (hop : ∀ v ∈ op.operands, v.Obeys d size) (hm : m.Obeys d size) :
    d.Keeps False size (·.Obeys d size) (op.run host) m := by
  cases op with
  | force v => exact Discipline.force_keeps hrefers hhost (hop v (by simp [operands])) hm
  | call f x =>
    exact Discipline.call_keeps hrefers hhost (hop f (by simp [operands]))
      (hop x (by simp [operands])) hm
  | applyAll f args =>
    refine Discipline.applyAll_keeps hrefers hhost (hop f (by simp [operands])) ?_ hm
    exact fun x hx => hop x (List.mem_cons_of_mem f hx)

end Operation

/-- The values obtained, last first, by compiling texts without diagnostics, with values obtained
before as globals, and by operations on values obtained before; and the machine after this. -/
inductive Library (host : Host φ) : Machine φ → List (Value φ) → Prop where
  | empty : Library host .empty []
  | compile {m : Machine φ} {values : List (Value φ)} (globals : Globals φ) (source : String) :
      Library host m values → (∀ g ∈ globals, g.2 ∈ values) →
      (compile globals source m).1.isOk = true →
      Library host (compile globals source m).2 ((compile globals source m).1.value :: values)
  /-- A failing operation returns no value, but it may change the machine. -/
  | operate {m m' : Machine φ} {values : List (Value φ)} {r : Result φ} (op : Operation φ) :
      Library host m values → (∀ v ∈ op.operands, v ∈ values) →
      (op.run host).outcome? m = some (r, m') →
      Library host m' (r.toOption.toList ++ values)

namespace Library

variable {host : Host φ} {m : Machine φ} {values : List (Value φ)}

/-- All values of a library are sound. -/
theorem obeys (h : Library host m values) :
    m.Obeys soundness m.cells.size ∧ ∀ v ∈ values, v.Obeys soundness m.cells.size := by
  induction h with
  | empty => exact ⟨⟨rfl, fun i c hc => by simp [Machine.empty] at hc⟩, by simp⟩
  | @compile m values globals source _ hglobals hok ih =>
    obtain ⟨hm, hvalues⟩ := ih
    obtain ⟨hderives, hfree⟩ := derives_of_isOk hok
    obtain ⟨v, m', hload, hcompile⟩ := compile_eq globals source m
    have hdefined : ((Expr.parse source).expr.slots globals.names).Defined :=
      Expr.slots_defined hderives.complete hfree (by simp [Globals.names])
    have hwithin : ((Expr.parse source).expr.slots globals.names).Within globals.env.length := by
      simpa [Globals.names, Globals.env] using Expr.slots_within _ globals.names
    have henv : ∀ w ∈ globals.env, w.Obeys soundness m.cells.size := by
      intro w hw
      obtain ⟨g, hg, rfl⟩ := List.mem_map.mp (List.mem_reverse.mp hw)
      exact hvalues _ (hglobals g hg)
    obtain ⟨hv, hm', hle⟩ := Term.load_obeys (d := soundness) hload ⟨hwithin, hdefined⟩ henv hm
    rw [hcompile]
    refine ⟨hm', ?_⟩
    intro w hw
    rcases List.mem_cons.mp hw with rfl | hw
    · exact hv
    · exact (hvalues w hw).of_le hle
  | @operate m m' values r op _ hop hrun ih =>
    obtain ⟨hm, hvalues⟩ := ih
    have hkeeps := op.run_keeps id (soundness_host _ host) (fun v hv => hvalues v (hop v hv)) hm
    obtain ⟨r', m'', hrun', hallows, hm'⟩ := hkeeps.exists_outcome
    rw [hrun] at hrun'
    cases hrun'
    rw [hm'.size_eq]
    refine ⟨hm', ?_⟩
    intro w hw
    rcases List.mem_append.mp hw with hw | hw
    · cases r with
      | error e => simp [Except.toOption] at hw
      | ok v =>
        have hw : w = v := by simpa [Except.toOption] using hw
        exact hw ▸ hallows
    · exact hvalues w hw

end Library

def Value.Proper : Value φ → Prop
  | .closure .. => True
  | .deferred _ => True
  | _ => False

theorem Value.Obeys.proper {cell : Nat} {v : Value φ} (h : v.Obeys soundness cell) : v.Proper := by
  cases h with
  | undefined h => exact h
  | atom h => exact h
  | closure => trivial
  | native h => exact h
  | deferred => trivial

/-- All values of a library are closures and deferred values, and every operation on them
terminates, with such a value or by exceeding the depth. -/
theorem library_never_goes_wrong (host : Host φ) {m : Machine φ} {values : List (Value φ)}
    (h : Library host m values) :
    (∀ v ∈ values, v.Proper) ∧
    ∀ op : Operation φ, (∀ v ∈ op.operands, v ∈ values) →
      ∃ r m', (op.run host).outcome? m = some (r, m') ∧
        ((∃ v, r = .ok v ∧ v.Proper) ∨ r = .error (.depthExceeded 512)) := by
  obtain ⟨hm, hvalues⟩ := h.obeys
  refine ⟨fun v hv => (hvalues v hv).proper, ?_⟩
  intro op hop
  have hkeeps := op.run_keeps id (soundness_host _ host) (fun v hv => hvalues v (hop v hv)) hm
  obtain ⟨r, m', hrun, hallows, -⟩ := hkeeps.exists_outcome
  refine ⟨r, m', hrun, ?_⟩
  cases r with
  | ok v => exact .inl ⟨v, rfl, hallows.proper⟩
  | error e => exact .inr (congrArg Except.error hallows)

/-- The closure of `\x.x x`. -/
def selfApplication : Value Builtin := .closure (.app (.slot 0) (.slot 0)) []

/-- Self-application exceeds every depth. -/
theorem eval_selfApplication (host : Host Builtin)
    (enter : Request Builtin → Run Builtin (Value Builtin)) (depth : Nat) (m : Machine Builtin) :
    (eval host enter depth (.app (.slot 0) (.slot 0)) [selfApplication]).outcome? m =
      some (.error (.depthExceeded maxDepth), m) := by
  induction depth with
  | zero => rfl
  | succ depth ih =>
    cases depth with
    | zero => rfl
    | succ depth =>
      rw [eval_app]
      exact ih

/-- `s (\y.y)` and `s s`, where the global `s` is `\x.x x`. -/
def selfMachine : Machine Builtin :=
  ⟨#[⟨.app (.slot 0) (.lambda (.slot 0)), [selfApplication], none⟩,
    ⟨.app (.slot 0) (.slot 0), [selfApplication], none⟩], []⟩

theorem library_never_goes_wrong_globals :
    Library Builtin.host selfMachine [.deferred 1, .deferred 0, selfApplication] ∧
    (∃ r m, (Builtin.host.force (.deferred 0)).outcome? selfMachine = some (r, m) ∧
      r = .ok (.closure (.slot 0) [selfApplication])) ∧
    ∃ r m, (Builtin.host.force (.deferred 1)).outcome? selfMachine = some (r, m) ∧
      r = .error (.depthExceeded 512) := by
  have hself : Library Builtin.host .empty [selfApplication] :=
    .compile [] "\\x.x x" .empty (by simp) (by decide)
  have hidentity : Library Builtin.host
      ⟨#[⟨.app (.slot 0) (.lambda (.slot 0)), [selfApplication], none⟩], []⟩
      [.deferred 0, selfApplication] :=
    .compile [("s", selfApplication)] "s (\\y.y)" hself (by simp) (by decide)
  have hlibrary : Library Builtin.host selfMachine [.deferred 1, .deferred 0, selfApplication] :=
    .compile [("s", selfApplication)] "s s" hidentity (by simp) (by decide)
  have hcell : selfMachine.cells[1]? =
      some ⟨.app (.slot 0) (.slot 0), [selfApplication], none⟩ := rfl
  have hspent : (Builtin.host.force (.deferred 1)).outcome? selfMachine =
      some (.error (.depthExceeded 512), selfMachine) := by
    rw [Host.force, Host.outcome?_request]
    change (forceCell _ _ _ _).outcome? _ = _
    rw [outcome?_forceCell_unfilled hcell rfl, evalCell, Run.outcome?_bind, Run.outcome?_bind,
      eval_selfApplication]
    rfl
  have hdone : (Builtin.host.force (.deferred 0)).outcome? selfMachine =
      some (.ok (.closure (.slot 0) [selfApplication]),
        selfMachine.fill 0 (.closure (.slot 0) [selfApplication])) := rfl
  obtain ⟨-, hends⟩ := library_never_goes_wrong Builtin.host hlibrary
  obtain ⟨r, m, hrun, -⟩ := hends (.force (.deferred 0)) (by simp [Operation.operands])
  obtain ⟨r', m', hrun', -⟩ := hends (.force (.deferred 1)) (by simp [Operation.operands])
  refine ⟨hlibrary, ⟨r, m, hrun, ?_⟩, r', m', hrun', ?_⟩
  · exact congrArg Prod.fst (Option.some.inj (hrun.symm.trans hdone))
  · exact congrArg Prod.fst (Option.some.inj (hrun'.symm.trans hspent))

end LambdaCalculus
