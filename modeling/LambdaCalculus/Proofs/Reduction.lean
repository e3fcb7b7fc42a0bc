import LambdaCalculus.Builtin
import LambdaCalculus.Proofs.Named
import LambdaCalculus.Proofs.Safety

/-! # Evaluation implements reduction

Evaluation keeps the values of slots in environments where reduction substitutes.  Reading a value
back performs the substitution: the value of a text without diagnostics, read back, is what the term
of the text reduces to.
-/
namespace LambdaCalculus

/-! ## Reading values back -/

namespace Value

variable {φ : Type}

mutual

/-- The term of a closure, with the values of its environment read back. -/
def readback : Value φ → Term
  | .closure body env => .lambda (body.instantiate 1 (readbackAll env))
  | _ => .undefined

def readbackAll : List (Value φ) → List Term
  | [] => []
  | v :: env => v.readback :: readbackAll env

end

theorem readbackAll_eq_map (env : Env φ) : readbackAll env = env.map readback := by
  induction env with
  | nil => rfl
  | cons v env ih => rw [readbackAll, ih, List.map_cons]

/-- A sound value without references to cells is a closure of such values. -/
theorem Obeys.exists_closure {v : Value φ} (h : v.Obeys soundness 0) :
    ∃ body env, v = .closure body env ∧ body.Sound (env.length + 1) ∧
      ∀ w ∈ env, w.Obeys soundness 0 := by
  cases h with
  | undefined h => exact h.elim
  | atom h => exact h.elim
  | closure hbody henv => exact ⟨_, _, rfl, hbody, henv⟩
  | native h => exact h.elim
  | deferred h => exact absurd h (Nat.not_lt_zero _)

theorem Obeys.readback_within {v : Value φ} (h : v.Obeys soundness 0) : v.readback.Within 0 := by
  induction h with
  | undefined h => exact h.elim
  | atom h => exact h.elim
  | @closure body env hbody _ ih =>
    rw [readback, readbackAll_eq_map]
    apply Term.within_instantiate
    · simpa [Nat.add_comm] using hbody.within
    · intro u hu
      obtain ⟨w, hw, rfl⟩ := List.mem_map.mp hu
      exact ih w hw
  | native h => exact h.elim
  | deferred h => exact absurd h (Nat.not_lt_zero _)

end Value

/-! ## Evaluation and reduction -/

section

variable {φ : Type}

/-- Call by value with environments, callee before argument. -/
inductive Evaluates : Term → Env φ → Value φ → Prop where
  | slot {i : Nat} {env : Env φ} {v : Value φ} : env[i]? = some v → Evaluates (.slot i) env v
  | lambda {body : Term} {env : Env φ} : Evaluates (.lambda body) env (.closure body env)
  | app {f a body : Term} {env held : Env φ} {x v : Value φ} :
      Evaluates f env (.closure body held) → Evaluates a env x → Evaluates body (x :: held) v →
      Evaluates (.app f a) env v

theorem Evaluates.obeys {t : Term} {env : Env φ} {v : Value φ} (h : Evaluates t env v)
    (ht : t.Sound env.length) (henv : ∀ w ∈ env, w.Obeys soundness 0) :
    v.Obeys soundness 0 := by
  induction h with
  | slot hv => exact henv _ (List.mem_of_getElem? hv)
  | lambda => exact .closure ht.lambda henv
  | app _ _ _ hf ha hbody =>
    obtain ⟨htf, hta⟩ := ht.app
    cases hf htf henv with
    | closure htbody hheld =>
      exact hbody htbody (List.forall_mem_cons.mpr ⟨ha hta henv, hheld⟩)

/-- If a term evaluates to a value, then the term with the environment read back in place of its
slots reduces to the value read back. -/
theorem Evaluates.steps {t : Term} {env : Env φ} {v : Value φ} (h : Evaluates t env v)
    (ht : t.Sound env.length) (henv : ∀ w ∈ env, w.Obeys soundness 0)
    {s : Named} (hs : s.free = [])
    (hslots : s.slots [] = t.instantiate 0 (env.map Value.readback)) :
    ∃ x b, s.Steps (.lambda x b) ∧ (Named.lambda x b).slots [] = v.readback := by
  induction h generalizing s with
  | @slot i env v hv =>
    obtain ⟨body, held, rfl, -⟩ := (henv _ (List.mem_of_getElem? hv)).exists_closure
    have hread : s.slots [] = (Value.closure body held).readback := by
      simpa [Term.instantiate, hv] using hslots
    obtain ⟨x, b, rfl, -⟩ := Named.exists_lambda_of_slots hread
    exact ⟨x, b, .refl, hread⟩
  | @lambda body env =>
    rw [← Value.readbackAll_eq_map] at hslots
    obtain ⟨x, b, rfl, -⟩ := Named.exists_lambda_of_slots hslots
    exact ⟨x, b, .refl, hslots⟩
  | @app f a body env held x v hevalf hevala _ ihf iha ihbody =>
    obtain ⟨htf, hta⟩ := ht.app
    obtain ⟨g, c, rfl, hg, hc⟩ := Named.exists_app_of_slots hslots
    obtain ⟨hgfree, hcfree⟩ := List.append_eq_nil_iff.mp hs
    -- Callee and argument reduce to abstractions in turn, and then the one is applied to the other.
    obtain ⟨p, b, hgsteps, hgread⟩ := ihf htf henv hgfree hg
    obtain ⟨q, d, hcsteps, hcread⟩ := iha hta henv hcfree hc
    have hsteps : Named.Steps (.app g c) (b.subst [(p, .lambda q d)]) :=
      ((hgsteps.callee c).trans (hcsteps.argument p b)).tail .beta
    have hx := hevala.obeys hta henv
    obtain ⟨_, _, hclosure, htbody, hheld⟩ := (hevalf.obeys htf henv).exists_closure
    cases hclosure
    have hbody : b.slots [p] = body.instantiate 1 (held.map Value.readback) := by
      rw [Value.readback, Value.readbackAll_eq_map] at hgread
      exact Term.lambda.inj hgread
    have hheldread : ∀ u ∈ held.map Value.readback, u.Within 0 := by
      intro u hu
      obtain ⟨w, hw, rfl⟩ := List.mem_map.mp hu
      exact (hheld w hw).readback_within
    have hsubst : (b.subst [(p, .lambda q d)]).slots [] =
        body.instantiate 0 ((x :: held).map Value.readback) := by
      rw [Named.slots_subst (hcsteps.closed hcfree), hcread, hbody, List.map_cons]
      exact Term.instantiate_instantiate body 0 x.readback hheldread
    obtain ⟨y, r, hrest, hread⟩ := ihbody htbody (List.forall_mem_cons.mpr ⟨hx, hheld⟩)
      (hsteps.closed hs) hsubst
    exact ⟨y, r, hsteps.trans hrest, hread⟩

/-- Evaluation returns the value of a term, or exceeds the depth. -/
def Found (t : Term) (env : Env φ) : Result φ → Prop
  | .ok v => Evaluates t env v
  | .error e => e = .depthExceeded maxDepth

/-- The evaluator returns the values of terms.  The machine and the host are not used if no slot
holds a deferred value or a host function. -/
theorem eval_found (host : Host φ) (enter : Request φ → Run φ (Value φ)) (depth : Nat) (t : Term)
    (env : Env φ) (m : Machine φ) (ht : t.Sound env.length)
    (henv : ∀ w ∈ env, w.Obeys soundness 0) :
    (eval host enter depth t env).Ends False m fun r m' => Found t env r ∧ m' = m := by
  induction depth generalizing t env with
  | zero => exact ⟨rfl, rfl⟩
  | succ depth ih =>
    cases t with
    | undefined => exact ht.defined.elim
    | slot i =>
      have hi := List.getElem?_eq_getElem ht.within
      rw [eval, hi]
      exact ⟨.slot hi, rfl⟩
    | lambda body => exact ⟨.lambda, rfl⟩
    | app f a =>
      rw [eval_app]
      have hspine : ∀ t : Term, t.Sound env.length →
          (evalSpine host enter depth env t).Ends False m fun r m' => Found t env r ∧ m' = m := by
        intro t
        induction t with
        | undefined => exact fun ht => ih _ env ht henv
        | slot i => exact fun ht => ih _ env ht henv
        | lambda body => exact fun ht => ih _ env ht henv
        | app f a hf _ =>
          intro ht
          obtain ⟨htf, hta⟩ := ht.app
          refine (hf htf).bind ?_ fun _ _ he => he
          rintro g _ ⟨hg, rfl⟩
          refine (ih a env hta henv).bind ?_ fun _ _ he => he
          rintro x _ ⟨hx, rfl⟩
          obtain ⟨body, held, rfl, htbody, hheld⟩ := (Evaluates.obeys hg htf henv).exists_closure
          have hargs := List.forall_mem_cons.mpr ⟨Evaluates.obeys hx hta henv, hheld⟩
          apply (ih body (x :: held) htbody hargs).mono
          rintro (e | v) m' ⟨hr, rfl⟩
          · exact ⟨hr, rfl⟩
          · exact ⟨.app hg hx hr, rfl⟩
      exact hspine _ ht

/-- Forcing an unfilled cell returns the value of its term, or exceeds the depth. -/
theorem force_unfilled_found (host : Host φ) {m : Machine φ} {cell : Nat} {t : Term} {env : Env φ}
    (hcell : m.cells[cell]? = some ⟨t, env, none⟩) (ht : t.Sound env.length)
    (henv : ∀ w ∈ env, w.Obeys soundness 0) :
    (host.force (.deferred cell)).Ends False m fun r _ => Found t env r := by
  apply Run.ends_get
  change (forceCell host _ maxDepth cell).Ends False m _
  unfold forceCell
  apply Run.ends_get
  simp only [hcell]
  refine (eval_found host _ maxDepth t env m ht henv).bind ?_ fun _ _ he => he.1
  rintro v m ⟨hv, rfl⟩
  obtain ⟨body, held, rfl, -⟩ := (Evaluates.obeys hv ht henv).exists_closure
  -- The cell is still not filled, so what forcing gives is the value just found.
  have hcached : (m.fill cell (.closure body held)).cached? cell = some (.closure body held) := by
    simp [Machine.fill, Machine.cached?, Array.getElem?_modify, hcell]
  change Found t env (.ok (((m.fill cell (.closure body held)).cached? cell).getD _))
  rw [hcached]
  exact hv

theorem force_load_found (host : Host φ) {t : Term} {m m' : Machine φ} {v : Value φ}
    (hload : t.load [] m = .ok (v, m')) (ht : t.Sound 0) :
    (host.force v).Ends False m' fun r _ => Found t [] r := by
  cases t with
  | undefined => exact ht.defined.elim
  | slot i => exact absurd ht.within (Nat.not_lt_zero i)
  | lambda body =>
    cases hload
    exact Evaluates.lambda
  | app f a =>
    cases hload
    exact force_unfilled_found host (by simp) ht (by simp)

end

/-! ## The term of a text -/

namespace Expr

/-- The named term of a tree without missing parts. -/
def named? : Expr → Option Named
  | .empty => none
  | .var t => some (.var t.raw)
  | .app f a => do return .app (← f.named?) (← a.named?)
  | .lambda _ p body => do return .lambda (← p).raw (← body.named?)

theorem Complete.exists_named {e : Expr} (h : e.Complete) : ∃ t, e.named? = some t := by
  induction e with
  | empty => exact h.elim
  | var t => exact ⟨_, rfl⟩
  | app f a hf ha =>
    obtain ⟨g, hg⟩ := hf h.1
    obtain ⟨b, hb⟩ := ha h.2
    exact ⟨.app g b, by simp [named?, hg, hb]⟩
  | lambda binder p body ih =>
    obtain ⟨x, rfl⟩ := Option.isSome_iff_exists.mp h.1
    obtain ⟨b, hb⟩ := ih h.2
    exact ⟨.lambda x.raw b, by simp [named?, hb]⟩

theorem slots_named {e : Expr} {t : Named} (h : e.named? = some t) (names : List String) :
    t.slots names = e.slots names := by
  induction e generalizing t names with
  | empty => cases h
  | var token =>
    cases h
    rfl
  | app f a hf ha =>
    obtain ⟨g, hg, b, hb, rfl⟩ : ∃ g, f.named? = some g ∧ ∃ b, a.named? = some b ∧
        Named.app g b = t := by
      simpa [named?, Option.bind_eq_some_iff] using h
    rw [Named.slots, slots, hf hg, ha hb]
  | lambda binder p body ih =>
    obtain ⟨x, rfl, b, hb, rfl⟩ : ∃ x, p = some x ∧ ∃ b, body.named? = some b ∧
        Named.lambda x.raw b = t := by
      simpa [named?, Option.bind_eq_some_iff] using h
    rw [Named.slots, slots, ih hb]
    rfl

end Expr

/-- A text without diagnostics denotes a closed term, and evaluation reduces that term: if it does
not exceed the depth, its value is a closure, and the term reduces to an abstraction that equals the
closure read back, up to the names of parameters. -/
theorem running_reduces {φ : Type} (host : Host φ) (source : String) (m : Machine φ)
    (h : (compile [] source m).1.isOk = true) :
    ∃ e t, Grammar.Derives .expression (Token.scan source).tokens e ∧ e.named? = some t ∧
      t.free = [] ∧
      ∃ r m', (host.force (compile [] source m).1.value).outcome? (compile [] source m).2 =
          some (r, m') ∧
        (r = .error (.depthExceeded 512) ∨
          ∃ body env x b, r = .ok (.closure body env) ∧ t.Steps (.lambda x b) ∧
            (Named.lambda x b).slots [] = (Value.closure body env).readback) := by
  obtain ⟨hderives, hfree⟩ := derives_of_isOk h
  obtain ⟨t, ht⟩ := hderives.complete.exists_named
  obtain ⟨v, m', hload, hcompile⟩ := compile_eq [] source m
  have hslots := Expr.slots_named ht []
  have hsound : ((Expr.parse source).expr.slots []).Sound 0 :=
    ⟨Expr.slots_within _ [], Expr.slots_defined hderives.complete hfree (by simp)⟩
  have hclosed : t.free = [] := by
    rw [List.eq_nil_iff_forall_not_mem]
    intro x hx
    have hmem := Named.mem_of_slots_defined (hslots ▸ hsound.defined) hx
    simp at hmem
  obtain ⟨r, m'', hforce, hfound⟩ := (force_load_found host hload hsound).exists_outcome
  rw [hcompile]
  refine ⟨_, t, hderives, ht, hclosed, r, m'', hforce, ?_⟩
  cases r with
  | error e => exact .inl (congrArg Except.error hfound)
  | ok w =>
    obtain ⟨body, env, rfl, -⟩ := (Evaluates.obeys hfound hsound (by simp)).exists_closure
    have hinstantiate := Term.instantiate_of_within hsound.within []
    obtain ⟨x, b, hsteps, hread⟩ := Evaluates.steps hfound hsound (by simp) hclosed
      (hslots.trans hinstantiate.symm)
    exact .inr ⟨body, env, x, b, rfl, hsteps, hread⟩

/-- The `y` of the argument is not captured by the parameter `y` at its new place. -/
theorem running_reduces_shadowing :
    (compile (φ := Builtin) [] "(\\x.\\y.x y) (\\y.y)" .empty).1.isOk = true ∧
    ∃ e t x b, Grammar.Derives .expression (Token.scan "(\\x.\\y.x y) (\\y.y)").tokens e ∧
      e.named? = some t ∧ t.Steps (.lambda x b) ∧
      (Named.lambda x b).slots [] = .lambda (.app (.lambda (.slot 0)) (.slot 0)) := by
  have hok : (compile (φ := Builtin) [] "(\\x.\\y.x y) (\\y.y)" .empty).1.isOk = true := by decide
  obtain ⟨e, t, he, ht, -, r, m', hrun, hr⟩ :=
    running_reduces Builtin.host "(\\x.\\y.x y) (\\y.y)" .empty hok
  have hforce : ∃ m,
      (Builtin.host.force (compile [] "(\\x.\\y.x y) (\\y.y)" .empty).1.value).outcome?
      (compile [] "(\\x.\\y.x y) (\\y.y)" .empty).2 =
        some (.ok (.closure (.app (.slot 1) (.slot 0)) [.closure (.slot 0) []]), m) := ⟨_, rfl⟩
  obtain ⟨m, hforce⟩ := hforce
  rw [hforce] at hrun
  refine ⟨hok, ?_⟩
  rcases hr with rfl | ⟨body, env, x, b, rfl, hsteps, hread⟩
  · cases hrun
  · cases hrun
    exact ⟨e, t, x, b, he, ht, hsteps, hread⟩

end LambdaCalculus
