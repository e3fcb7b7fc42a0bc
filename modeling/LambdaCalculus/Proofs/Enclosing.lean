import LambdaCalculus.Proofs.Cells
import LambdaCalculus.Proofs.Layout
import LambdaCalculus.Proofs.Reduction

/-! # Globals as parameters

A text with closures as globals means the same as the body of abstractions applied to the texts of
these closures.  The tokens of the larger text are composed from those of its parts; its term is a
chain whose evaluation reduces to that of the body, one level of depth below; and since no deferred
values occur in it, a successful evaluation succeeds on every machine and with more depth.
-/
namespace LambdaCalculus

/-- The text `(\g₁. … \gₙ. body) (d₁) … (dₙ)`. -/
def enclosingText (names sources : List String) (body : String) : String :=
  "(" ++ String.join (names.map fun name => "\\" ++ name ++ ". ") ++ body ++ ")" ++
    String.join (sources.map fun source => " (" ++ source ++ ")")

/-! ## Its tokens -/

namespace Token

def opening : Token := ⟨.groupOpen, .start, "("⟩

def closing : Token := ⟨.groupClose, .start, ")"⟩

def header (name : String) : List Token :=
  [⟨.binder, .start, "\\"⟩, ⟨.identifier, .start, name⟩, ⟨.bodyDelimiter, .start, "."⟩]

def group (tokens : List Token) : List Token := opening :: tokens ++ [closing]

theorem lexemes_headers {names : List String} (hnames : ∀ name ∈ names, isIdentifier name = true)
    (text : List Char) :
    lexemes (names.flatMap (fun name => '\\' :: (name.toList ++ ['.', ' '])) ++ text) =
      names.flatMap header ++ lexemes text := by
  induction names with
  | nil => rfl
  | cons name names ih =>
    obtain ⟨hname, hnames⟩ := List.forall_mem_cons.mp hnames
    simp only [List.flatMap_cons, List.cons_append, List.append_assoc, List.nil_append]
    rw [lexemes_cons (c := '\\') (by decide), lexemes_append_cons (c := '.') (by decide),
      lexemes_cons (c := ' ') (by decide), lexemes_identifier hname, ih hnames]
    rfl

theorem lexemes_groups (sources : List String) :
    lexemes (sources.flatMap fun source => ' ' :: '(' :: (source.toList ++ [')'])) =
      sources.flatMap fun source => group (lexemes source.toList) := by
  induction sources with
  | nil => rfl
  | cons source sources ih =>
    simp only [List.flatMap_cons, List.cons_append, List.append_assoc, List.nil_append]
    rw [lexemes_cons (c := ' ') (by decide), lexemes_cons (c := '(') (by decide),
      lexemes_append_cons (c := ')') (by decide), ih]
    simp only [group, List.cons_append, List.append_assoc]
    rfl

def enclosing (names sources : List String) (body : String) : List Token :=
  group (names.flatMap header ++ (scan body).tokens) ++
    sources.flatMap fun source => group (scan source).tokens

theorem lexemes_enclosingText {names : List String}
    (hnames : ∀ name ∈ names, isIdentifier name = true) (sources : List String) (body : String) :
    lexemes (enclosingText names sources body).toList =
      (enclosing names sources body).map unplaced := by
  have htext : (enclosingText names sources body).toList =
      '(' :: (names.flatMap (fun name => '\\' :: (name.toList ++ ['.', ' '])) ++
        (body.toList ++ ')' ::
          sources.flatMap fun source => ' ' :: '(' :: (source.toList ++ [')']))) := by
    simp [enclosingText, String.toList_append, String.toList_join, List.flatMap_map]
  have hheaders : (names.flatMap header).map unplaced = names.flatMap header := by
    rw [List.map_flatMap]
    rfl
  rw [htext, lexemes_cons (c := '(') (by decide), lexemes_headers hnames,
    lexemes_append_cons (c := ')') (by decide), lexemes_groups]
  simp only [enclosing, group, List.map_append, List.map_cons, List.map_flatMap, hheaders,
    List.cons_append, List.append_assoc]
  rfl

end Token

/-! ## Its tree -/

namespace Expr

def abstracted (names : List String) (e : Expr) : Expr :=
  names.foldr (fun name e => .lambda ⟨.binder, .start, "\\"⟩ (some ⟨.identifier, .start, name⟩) e) e

open Grammar

theorem derives_abstracted {ts : List Token} {e : Expr} (h : Derives .expression ts e)
    (names : List String) :
    Derives .expression (names.flatMap Token.header ++ ts) (e.abstracted names) := by
  induction names with
  | nil => exact h
  | cons name names ih =>
    have habstraction : Derives .abstraction
        (Token.header name ++ (names.flatMap Token.header ++ ts)) (e.abstracted (name :: names)) :=
      .abstraction rfl rfl rfl ih
    have hnone : ∀ a ∈ ([] : List Phrase), Derives .atom a.1 a.2 := by simp
    rw [List.flatMap_cons, List.append_assoc]
    exact .atomsThen hnone habstraction

theorem derives_enclosing {body : String} {e : Expr} (names sources : List String)
    (hbody : Derives .expression (Token.scan body).tokens e)
    (hsources : ∀ source ∈ sources,
      Derives .expression (Token.scan source).tokens (parse source).expr) :
    Derives .expression (Token.enclosing names sources body)
      (chain (e.abstracted names :: sources.map fun source => (parse source).expr)) := by
  let atoms : List Phrase :=
    (Token.group (names.flatMap Token.header ++ (Token.scan body).tokens), e.abstracted names) ::
      sources.map fun source => (Token.group (Token.scan source).tokens, (parse source).expr)
  have hatoms : ∀ a ∈ atoms, Derives .atom a.1 a.2 := by
    intro a ha
    rcases List.mem_cons.mp ha with rfl | ha
    · exact .group rfl (derives_abstracted hbody names) rfl
    · obtain ⟨source, hsource, rfl⟩ := List.mem_map.mp ha
      exact .group rfl (hsources source hsource) rfl
  have hexpression : Derives .expression (tokensOf atoms) (chain (treesOf atoms)) :=
    .atoms (by simp [atoms]) hatoms
  simpa [atoms, Token.enclosing, tokensOf, treesOf, List.flatMap_map, Function.comp_def]
    using hexpression

end Expr

/-! ## Its term -/

def Term.abstracted : Nat → Term → Term
  | 0, t => t
  | n + 1, t => .lambda (t.abstracted n)

namespace Expr

theorem slots_abstracted (e : Expr) (names around : List String) :
    (e.abstracted names).slots around =
      (e.slots (names.reverse ++ around)).abstracted names.length := by
  induction names generalizing around with
  | nil => rfl
  | cons name names ih =>
    have hlambda : (e.abstracted (name :: names)).slots around =
        .lambda ((e.abstracted names).slots (name :: around)) := rfl
    rw [hlambda, ih, List.reverse_cons, List.append_assoc]
    rfl

theorem free_abstracted (e : Expr) (names bound : List String) :
    (e.abstracted names).free bound = e.free (names.reverse ++ bound) := by
  induction names generalizing bound with
  | nil => rfl
  | cons name names ih =>
    have hlambda : (e.abstracted (name :: names)).free bound =
        (e.abstracted names).free (name :: bound) := rfl
    rw [hlambda, ih, List.reverse_cons, List.append_assoc]
    rfl

theorem slots_chain (e : Expr) (es : List Expr) (names : List String) :
    (Grammar.chain (e :: es)).slots names = (e.slots names).applied (es.map (slots names)) := by
  simp only [Grammar.chain]
  induction es generalizing e with
  | nil => rfl
  | cons e' es ih => exact ih (.app e e')

theorem free_chain {e : Expr} {es : List Expr} {bound : List String} (he : e.free bound = [])
    (hes : ∀ e' ∈ es, e'.free bound = []) : (Grammar.chain (e :: es)).free bound = [] := by
  simp only [Grammar.chain]
  induction es generalizing e with
  | nil => exact he
  | cons e' es ih =>
    obtain ⟨he', hes⟩ := List.forall_mem_cons.mp hes
    exact ih (by rw [free_app, he, he', List.append_nil]) hes

/-- With more names in scope, no more variables are free. -/
theorem free_eq_nil_of_subset {e : Expr} {bound bound' : List String} (h : e.free bound = [])
    (hsub : ∀ name ∈ bound, name ∈ bound') : e.free bound' = [] := by
  induction e generalizing bound bound' with
  | empty => rfl
  | var t =>
    rw [free_var] at h ⊢
    split at h
    · rename_i hmem
      rw [if_pos (hsub _ hmem)]
    · cases h
  | app f a hf ha =>
    rw [free_app, List.append_eq_nil_iff] at h
    rw [free_app, hf h.1 hsub, ha h.2 hsub, List.append_nil]
  | lambda b p body ih =>
    have hsub' : ∀ name ∈ parameterName p :: bound, name ∈ parameterName p :: bound' := by
      intro name hname
      rcases List.mem_cons.mp hname with rfl | hname
      · exact List.mem_cons_self
      · exact List.mem_cons_of_mem _ (hsub name hname)
    exact ih h hsub'

end Expr

/-! ## Its evaluation -/

section Evaluation

variable {φ : Type} (host : Host φ) (enter : Request φ → Run φ (Value φ))

/-- A chain is evaluated from its callee, argument by argument. -/
theorem evalSpine_applied (depth : Nat) (env : Env φ) (f : Term) (args : List Term) :
    evalSpine host enter depth env (f.applied args) =
      evalSpine host enter depth env f >>= fun g =>
        args.foldlM (applyTo host enter depth env) g := by
  induction args generalizing f with
  | nil => exact (bind_pure _).symm
  | cons a args ih =>
    have happly : evalSpine host enter depth env (f.applied (a :: args)) = _ := ih (.app f a)
    rw [happly, evalSpine, bind_assoc]
    simp only [List.foldlM_cons]

theorem eval_applied (depth : Nat) (env : Env φ) (f : Term) {args : List Term} (h : args ≠ []) :
    eval host enter (depth + 1) (f.applied args) env =
      evalSpine host enter depth env f >>= fun g =>
        args.foldlM (applyTo host enter depth env) g := by
  rw [← evalSpine_applied]
  rcases List.eq_nil_or_concat args with rfl | ⟨before, last, rfl⟩
  · exact absurd rfl h
  · rw [Term.applied, List.concat_eq_append, List.foldl_append]
    exact eval_app host enter depth env _ last

/-- Abstractions applied to abstractions add these to the environment. -/
theorem foldlM_applyTo_abstracted (depth : Nat) (t b : Term) (bodies : List Term) (env : Env φ) :
    ((b :: bodies).map Term.lambda).foldlM (applyTo host enter (depth + 1) [])
        (.closure (t.abstracted bodies.length) env) =
      eval host enter (depth + 1) t
        ((bodies.map fun body => .closure body []).reverse ++ .closure b [] :: env) := by
  induction bodies generalizing b env with
  | nil =>
    rw [List.map_cons, List.foldlM_cons]
    exact bind_pure _
  | cons b' bodies ih =>
    rw [List.map_cons, List.foldlM_cons]
    have happly : applyTo host enter (depth + 1) []
          (.closure (t.abstracted (b' :: bodies).length) env) (.lambda b) =
        pure (.closure (t.abstracted bodies.length) (.closure b [] :: env)) := rfl
    rw [happly, pure_bind, ih]
    simp

theorem eval_enclosed (depth : Nat) (t : Term) {bodies : List Term} (h : bodies ≠ []) :
    eval host enter (depth + 2) ((t.abstracted bodies.length).applied (bodies.map .lambda)) [] =
      eval host enter (depth + 1) t (bodies.map fun body => .closure body []).reverse := by
  cases bodies with
  | nil => exact absurd rfl h
  | cons b bodies =>
    rw [eval_applied host enter (depth + 1) [] _ (by simp)]
    have hcallee :
        evalSpine host enter (depth + 1) ([] : Env φ) (t.abstracted (b :: bodies).length) =
          pure (.closure (t.abstracted bodies.length) []) := rfl
    rw [hcallee, pure_bind, foldlM_applyTo_abstracted]
    simp

end Evaluation

section Forcing

variable {φ : Type}

/-- If the first computation succeeds, on any machine, the second succeeds on `n` with the same
value and leaves it unchanged. -/
def onMachine (n : Machine φ) : Comparison φ where
  machines _ n' := n' = n
  excused _ := True
  absence := .any

/-- Evaluation without deferred values and host functions on any machine, and one on `n` with at
least the same depth. -/
def evalWithEvalOn (n : Machine φ) (host : Host φ) (enter enter' : Request φ → Run φ (Value φ)) :
    Coupling (soundness.realm 0) host enter enter' where
  rel := (onMachine n).Relates
  depths depth depth' := depth ≤ depth'
  depths_pred := Nat.le_of_succ_le_succ
  rel_pure := .pure
  rel_throw _ := .throw trivial
  rel_bind := .bind
  rel_spent t env hdepths hzero := by
    obtain rfl : _ = 0 := hzero.elim id fun hzero => Nat.le_zero.mp (hzero ▸ hdepths)
    exact .throw_excused trivial
  rel_force hcell _ := by
    cases hcell with
    | deferred hlt => exact absurd hlt (Nat.not_lt_zero _)
  rel_native hf _ := by
    cases hf.1 with
    | native hfunction => exact hfunction.elim

/-- Forcing an unfilled cell has the result of evaluating its term. -/
theorem Host.exists_force_unfilled (host : Host φ) {m : Machine φ} {cell : Nat} {t : Term}
    {env : Env φ} {r : Result φ} (hcell : m.cells[cell]? = some ⟨t, env, none⟩)
    (ht : t.Sound env.length) (henv : ∀ w ∈ env, w.Obeys soundness 0)
    (hrun : (eval host (host.enter (m.cells.size + host.nesting)) maxDepth t env).outcome? m =
      some (r, m)) :
    ∃ final, (host.force (.deferred cell)).outcome? m = some (r, final) := by
  have hfound := eval_found host (host.enter (m.cells.size + host.nesting)) maxDepth t env m ht henv
  rw [Run.Ends, hrun] at hfound
  rw [force, outcome?_request]
  change ∃ final, (forceCell host _ maxDepth cell).outcome? m = _
  rw [outcome?_forceCell_unfilled hcell rfl, evalCell, Run.outcome?_bind, Run.outcome?_bind, hrun]
  cases r with
  | error e => exact ⟨m, rfl⟩
  | ok w =>
    obtain ⟨body, held, rfl, -⟩ := (Evaluates.obeys hfound.1 ht henv).exists_closure
    refine ⟨m.fill cell (.closure body held), ?_⟩
    simp only [forced, Run.outcome?_pure, Run.outcome?_fill, Machine.cached?_fill hcell,
      Option.none_or, Option.getD_some]

/-- Forcing a loaded term has the result of evaluating the term. -/
theorem Term.exists_force_loaded (host : Host φ) {t : Term} {env : Env φ} {m m' : Machine φ}
    {v : Value φ} {r : Result φ} (hload : t.load env m = .ok (v, m')) (ht : t.Sound env.length)
    (henv : ∀ w ∈ env, w.Obeys soundness 0)
    (hrun : (eval host (host.enter (m'.cells.size + host.nesting)) maxDepth t env).outcome? m' =
      some (r, m')) :
    ∃ final, (host.force v).outcome? m' = some (r, final) := by
  cases t with
  | undefined => exact ht.defined.elim
  | slot i =>
    obtain ⟨w, hw⟩ : ∃ w, env[i]? = some w := ⟨_, List.getElem?_eq_getElem ht.within⟩
    obtain ⟨body, held, rfl, -⟩ := (henv w (List.mem_of_getElem? hw)).exists_closure
    simp only [Term.load, hw] at hload
    cases hload
    simp only [eval, hw, maxDepth] at hrun
    cases hrun
    exact ⟨_, rfl⟩
  | lambda body =>
    cases hload
    cases hrun
    exact ⟨_, rfl⟩
  | app f a =>
    cases hload
    exact host.exists_force_unfilled (by simp) ht henv hrun

/-- If forcing abstractions applied to abstractions does not exceed the depth, its result is that of
the body with the closures in the environment. -/
theorem exists_force_enclosed (host : Host φ) {t : Term} {bodies : List Term} {env : Env φ}
    (hne : bodies ≠ []) (hbodies : ∀ body ∈ bodies, body.Sound 1)
    (henv : env = (bodies.map fun body => .closure body []).reverse) (ht : t.Sound env.length)
    (hchain : ((t.abstracted bodies.length).applied (bodies.map .lambda)).Sound 0)
    {m m' m₁ m₂ : Machine φ} {v₁ v₂ : Value φ}
    (hload₁ : ((t.abstracted bodies.length).applied (bodies.map .lambda)).load [] m = .ok (v₁, m₁))
    (hload₂ : t.load env m' = .ok (v₂, m₂)) :
    ∃ r final, (host.force v₁).outcome? m₁ = some (r, final) ∧
      (r ≠ .error (.depthExceeded 512) →
        ∃ final', (host.force v₂).outcome? m₂ = some (r, final')) := by
  have hclosures : ∀ w ∈ env, w.Obeys soundness 0 := by
    intro w hw
    rw [henv, List.mem_reverse] at hw
    obtain ⟨body, hbody, rfl⟩ := List.mem_map.mp hw
    exact .closure (hbodies body hbody) (by simp)
  obtain ⟨r, _, hrun, hfound, hsame⟩ := (eval_found host
    (host.enter (m₁.cells.size + host.nesting)) 511 t env m₁ ht hclosures).exists_outcome
  rw [hsame] at hrun
  -- The chain takes one level of depth, and the body is left with the rest.
  have heval : eval host (host.enter (m₁.cells.size + host.nesting)) maxDepth
      ((t.abstracted bodies.length).applied (bodies.map .lambda)) [] =
      eval host (host.enter (m₁.cells.size + host.nesting)) 511 t env := by
    rw [henv]
    exact eval_enclosed host _ 510 t hne
  obtain ⟨final, hforce⟩ := Term.exists_force_loaded host hload₁ hchain (by simp)
    ((congrArg (Run.outcome? · m₁) heval).trans hrun)
  refine ⟨r, final, hforce, ?_⟩
  intro hr
  cases r with
  | error e => exact absurd (congrArg Except.error hfound) hr
  | ok v =>
    have hrelates : (onMachine m₂).Relates (soundness.realm 0).value
        (eval host (host.enter (m₁.cells.size + host.nesting)) 511 t env)
        (eval host (host.enter (m₂.cells.size + host.nesting)) maxDepth t env) :=
      (evalWithEvalOn m₂ host _ _).rel_eval (Nat.le_succ 511) t env ht hclosures
    rcases hrelates.of_outcome rfl hrun with ⟨_, ⟨⟩, -⟩ | ⟨_, hrun₂, -, rfl, -⟩
    exact Term.exists_force_loaded host hload₂ ht hclosures hrun₂

end Forcing

/-! ## Texts of closures -/

section Compile

variable {φ : Type}

theorem sound_of_isOk {globals : Globals φ} {source : String} {m : Machine φ}
    (h : (compile globals source m).1.isOk = true) :
    ((Expr.parse source).expr.slots globals.names).Sound globals.env.length := by
  obtain ⟨hderives, hfree⟩ := derives_of_isOk h
  refine ⟨?_, Expr.slots_defined hderives.complete hfree (by simp [Globals.names])⟩
  simpa [Globals.names, Globals.env] using Expr.slots_within _ globals.names

/-- `source` has no diagnostics by itself, and it is compiled to the closure `v`. -/
def Denotes (source : String) (v : Value φ) : Prop :=
  ∃ m, (compile [] source m).1.isOk = true ∧ (compile [] source m).1.value = v ∧
    ∃ body env, v = .closure body env

theorem Denotes.exists_body {source : String} {v : Value φ} (h : Denotes source v) :
    ∃ body, (Expr.parse source).expr.slots [] = .lambda body ∧ v = .closure body [] ∧
      body.Sound 1 := by
  obtain ⟨m, hok, rfl, body, env, hclosure⟩ := h
  have hsound : ((Expr.parse source).expr.slots []).Sound 0 := sound_of_isOk hok
  obtain ⟨v, m', hload, hcompile⟩ := compile_eq [] source m
  rw [hcompile] at hclosure
  cases hclosure
  rw [hcompile]
  change ((Expr.parse source).expr.slots []).load [] m = _ at hload
  cases ht : (Expr.parse source).expr.slots [] with
  | undefined => exact (ht ▸ hsound).defined.elim
  | slot i => exact absurd (ht ▸ hsound).within (Nat.not_lt_zero i)
  | app f a =>
    rw [ht] at hload
    cases hload
  | lambda body' =>
    rw [ht] at hload
    cases hload
    exact ⟨body, rfl, rfl, (ht ▸ hsound).lambda⟩

theorem Denotes.derives {source : String} {v : Value φ} (h : Denotes source v) :
    Grammar.Derives .expression (Token.scan source).tokens (Expr.parse source).expr ∧
      (Expr.parse source).expr.free [] = [] := by
  obtain ⟨m, hok, -⟩ := h
  exact derives_of_isOk hok

/-- Texts of closures are closed expressions, and their terms are abstractions. -/
theorem exists_bodies {sources : List String} {globals : Globals φ}
    (h : List.Forall₂ (fun source global => Denotes source global.2) sources globals) :
    (∀ source ∈ sources,
      Grammar.Derives .expression (Token.scan source).tokens (Expr.parse source).expr ∧
        (Expr.parse source).expr.free [] = []) ∧
    ∃ bodies : List Term,
      (sources.map fun source => (Expr.parse source).expr.slots []) = bodies.map .lambda ∧
      globals.map (·.2) = (bodies.map fun body => .closure body []) ∧
      ∀ body ∈ bodies, body.Sound 1 := by
  induction h with
  | nil => exact ⟨by simp, [], rfl, rfl, by simp⟩
  | cons hdenotes _ ih =>
    obtain ⟨body, hslots, hvalue, hsound⟩ := hdenotes.exists_body
    obtain ⟨hparts, bodies, hsources, hvalues, hbodies⟩ := ih
    refine ⟨List.forall_mem_cons.mpr ⟨hdenotes.derives, hparts⟩, body :: bodies, ?_, ?_,
      List.forall_mem_cons.mpr ⟨hsound, hbodies⟩⟩
    · rw [List.map_cons, List.map_cons, hslots, hsources]
    · rw [List.map_cons, List.map_cons, hvalue, hvalues]

/-- The enclosing text is parsed without diagnostics, to abstractions applied to the terms of the
texts. -/
theorem parse_enclosingText {names sources : List String} {body : String}
    (hnames : ∀ name ∈ names, isIdentifier name = true)
    (hbody : Grammar.Derives .expression (Token.scan body).tokens (Expr.parse body).expr)
    (hfree : (Expr.parse body).expr.free names = [])
    (hsources : ∀ source ∈ sources,
      Grammar.Derives .expression (Token.scan source).tokens (Expr.parse source).expr ∧
        (Expr.parse source).expr.free [] = []) :
    (Expr.parse (enclosingText names sources body)).diagnostics = [] ∧
    (Expr.parse (enclosingText names sources body)).expr.slots [] =
      (((Expr.parse body).expr.slots names.reverse).abstracted names.length).applied
        (sources.map fun source => (Expr.parse source).expr.slots []) ∧
    (Expr.parse (enclosingText names sources body)).expr.free [] = [] := by
  have hderives := Expr.derives_enclosing names sources hbody fun source h => (hsources source h).1
  obtain ⟨hquiet, hslots, hbound⟩ :=
    Expr.parse_of_lexemes hderives (Token.lexemes_enclosingText hnames sources body)
  refine ⟨hquiet, ?_, hbound [] (Expr.free_chain ?_ ?_)⟩
  · rw [hslots, Expr.slots_chain, Expr.slots_abstracted, List.append_nil, List.map_map]
    rfl
  · rw [Expr.free_abstracted, List.append_nil]
    exact Expr.free_eq_nil_of_subset hfree fun name => List.mem_reverse.mpr
  · intro e he
    obtain ⟨source, hsource, rfl⟩ := List.mem_map.mp he
    exact (hsources source hsource).2

end Compile

/-- Globals mean the same as enclosing abstractions.  Let identifiers be bound to the closures that
some texts denote, and let a text have no diagnostics with these as globals.  Then the text that
binds the identifiers by abstractions, applied to the texts of the closures, has none either, and if
forcing it does not exceed the depth, forcing the text with globals has the same result. -/
theorem globals_as_enclosing_abstractions {φ : Type} (host : Host φ) (globals : Globals φ)
    (sources : List String) (body : String) (hne : globals ≠ [])
    (hnames : ∀ global ∈ globals, isIdentifier global.1 = true)
    (hsources : List.Forall₂ (fun source global => Denotes source global.2) sources globals)
    (m m' : Machine φ) (hbody : (compile globals body m).1.isOk = true) :
    let inline := compile [] (enclosingText (globals.map (·.1)) sources body) m'
    let outer := compile globals body m
    inline.1.isOk = true ∧
    ∃ r final, (host.force inline.1.value).outcome? inline.2 = some (r, final) ∧
      (r ≠ .error (.depthExceeded 512) →
        ∃ final', (host.force outer.1.value).outcome? outer.2 = some (r, final')) := by
  intro inline outer
  obtain ⟨hderives, hfree⟩ := derives_of_isOk hbody
  obtain ⟨hparts, bodies, hterms, hvalues, hbodies⟩ := exists_bodies hsources
  have hnames' : ∀ name ∈ globals.map (·.1), isIdentifier name = true := by
    intro name hname
    obtain ⟨global, hglobal, rfl⟩ := List.mem_map.mp hname
    exact hnames global hglobal
  have hlength : (globals.map (·.1)).length = bodies.length := by
    simpa using congrArg List.length hvalues
  have hne' : bodies ≠ [] := by
    rintro rfl
    exact hne (List.map_eq_nil_iff.mp hvalues)
  obtain ⟨hquiet, hslots, hclosed⟩ := parse_enclosingText hnames' hderives hfree hparts
  obtain ⟨v₁, m₁, hload₁, hcompile₁⟩ :=
    compile_eq [] (enclosingText (globals.map (·.1)) sources body) m'
  obtain ⟨v₂, m₂, hload₂, hcompile₂⟩ := compile_eq globals body m
  have hok : inline.1.isOk = true := by
    simp [inline, hcompile₁, Compilation.isOk, hquiet, hclosed]
  have hchain : ((Expr.parse (enclosingText _ sources body)).expr.slots []).Sound 0 :=
    sound_of_isOk hok
  change ((Expr.parse (enclosingText _ sources body)).expr.slots []).load [] m' = _ at hload₁
  rw [hslots, hlength, hterms] at hchain hload₁
  refine ⟨hok, ?_⟩
  simp only [inline, outer, hcompile₁, hcompile₂]
  exact exists_force_enclosed host hne' hbodies (by rw [Globals.env, hvalues])
    (sound_of_isOk hbody) hchain hload₁ hload₂

/-- One identifier is bound twice, and the inner binding is referred to. -/
def shadowedGlobals : Globals Builtin :=
  [("i", .closure (.slot 0) []), ("k", .closure (.slot 0) []),
    ("k", .closure (.lambda (.slot 1)) [])]

def shadowedText : String :=
  "(\\i. \\k. \\k. k i k) (\\x.x) (\\x.x) (\\x.\\y.x)"

theorem globals_as_enclosing_abstractions_shadowed :
    (compile shadowedGlobals "k i k" .empty).1.isOk = true ∧
    (compile (φ := Builtin) [] shadowedText .empty).1.isOk = true ∧
    ∃ final, (Builtin.host.force (compile shadowedGlobals "k i k" .empty).1.value).outcome?
        (compile shadowedGlobals "k i k" .empty).2 =
      some (.ok (.closure (.slot 0) []), final) := by
  have hidentity : Denotes (φ := Builtin) "\\x.x" (.closure (.slot 0) []) :=
    ⟨.empty, by decide, rfl, _, _, rfl⟩
  have hconstant : Denotes (φ := Builtin) "\\x.\\y.x" (.closure (.lambda (.slot 1)) []) :=
    ⟨.empty, by decide, rfl, _, _, rfl⟩
  have hnames : ∀ global ∈ shadowedGlobals, isIdentifier global.1 = true :=
    List.all_eq_true.mp (by decide)
  have hbody : (compile shadowedGlobals "k i k" .empty).1.isOk = true := by decide
  have htext : enclosingText (shadowedGlobals.map (·.1)) ["\\x.x", "\\x.x", "\\x.\\y.x"] "k i k" =
      shadowedText := by decide
  have hvalue : ((Builtin.host.force (compile [] shadowedText .empty).1.value).outcome?
      (compile [] shadowedText .empty).2).map (·.1) = some (.ok (.closure (.slot 0) [])) := rfl
  obtain ⟨hinline, r, final, hforce, hsame⟩ :=
    globals_as_enclosing_abstractions Builtin.host shadowedGlobals
      ["\\x.x", "\\x.x", "\\x.\\y.x"] "k i k" nofun hnames
      (.cons hidentity (.cons hidentity (.cons hconstant .nil))) .empty .empty hbody
  rw [htext] at hinline hforce
  have hr : r = .ok (.closure (.slot 0) []) := by
    rw [hforce] at hvalue
    exact Option.some_inj.mp hvalue
  subst hr
  exact ⟨hbody, hinline, hsame nofun⟩

end LambdaCalculus
