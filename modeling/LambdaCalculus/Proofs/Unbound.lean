import LambdaCalculus.Proofs.Lossless
import LambdaCalculus.Proofs.Recovery

/-! # Unbound variables

The diagnostics of a text are those of the parser and its unbound variables.  The latter are
determined by the tokens and the abstractions of the tree: an identifier is unbound unless it is a
parameter, or its name is that of a global or of the parameter of an enclosing abstraction.  Each is
reported once, in source order, even if the text is malformed.
-/
namespace LambdaCalculus

namespace Expr

/-! ## Trees of texts -/

/-- The trees of texts: every token has the kind required by its place, and a chain of applications
starts with a term. -/
inductive Formed : Expr → Prop where
  | empty : Formed .empty
  | var {t : Token} : t.kind = .identifier → Formed (.var t)
  | app {f a : Expr} : f ≠ .empty → Formed f → Formed a → Formed (.app f a)
  | lambda {b : Token} {p : Option Token} {body : Expr} :
      b.kind = .binder → (∀ t ∈ p, t.kind = .identifier) → Formed body → Formed (.lambda b p body)

theorem Formed.apply {f e : Expr} (hf : f.Formed) (he : e.Formed) : (f.apply e).Formed := by
  by_cases hempty : f = .empty
  · rw [hempty]
    exact he
  · rw [apply_eq_app hempty]
    exact .app hempty hf he

def Header.Formed : Header → Prop
  | .none => True
  | .binder b => b.kind = .binder
  | .parameter b p => b.kind = .binder ∧ ∀ t ∈ p, t.kind = .identifier

structure Opened.Formed (o : Opened) : Prop where
  before : o.before.Formed
  header : (Header.parameter o.binder o.parameter).Formed

structure Level.Formed (l : Level) : Prop where
  opened : ∀ o ∈ l.opened, o.Formed
  terms : l.terms.Formed

structure Reader.Formed (r : Reader) : Prop where
  level : r.level.Formed
  groups : ∀ g ∈ r.groups, g.2.Formed
  header : r.header.Formed

namespace Level

variable {l : Level}

theorem start_formed : start.Formed := ⟨by simp [start], .empty⟩

theorem Formed.add (h : l.Formed) {e : Expr} (he : e.Formed) : (l.add e).Formed :=
  ⟨h.opened, h.terms.apply he⟩

theorem Formed.enter (h : l.Formed) {b : Token} {p : Option Token}
    (hheader : (Header.parameter b p).Formed) : (l.enter b p).Formed :=
  ⟨List.forall_mem_cons.mpr ⟨⟨h.terms, hheader⟩, h.opened⟩, .empty⟩

theorem Formed.close (h : l.Formed) : l.close.Formed := by
  obtain ⟨opened, terms, hasTerm⟩ := l
  obtain ⟨hopened, hterms⟩ := h
  induction opened generalizing terms with
  | nil => exact hterms
  | cons o opened ih =>
    obtain ⟨ho, hopened⟩ := List.forall_mem_cons.mp hopened
    exact ih _ hopened (ho.before.apply (.lambda ho.header.1 ho.header.2 hterms))

end Level

namespace Reader

variable {r : Reader}

theorem start_formed : start.Formed := ⟨Level.start_formed, by simp [start], trivial⟩

theorem Formed.settle (h : r.Formed) : r.settle.Formed := by
  obtain ⟨hlevel, hgroups, hheader⟩ := h
  cases hh : r.header with
  | none =>
    simp only [Reader.settle, hh]
    exact ⟨hlevel, hgroups, hh ▸ trivial⟩
  | binder b =>
    rw [hh] at hheader
    simp only [Reader.settle, hh]
    exact ⟨hlevel.enter ⟨hheader, by simp⟩, hgroups, trivial⟩
  | parameter b p =>
    rw [hh] at hheader
    simp only [Reader.settle, hh]
    exact ⟨hlevel.enter hheader, hgroups, trivial⟩

theorem Formed.accept (h : r.Formed) (t : Token) : (r.accept t).Formed := by
  obtain ⟨hlevel, hgroups, hheader⟩ := h
  cases hk : t.kind with
  | identifier => simpa [Reader.accept, hk] using ⟨hlevel.add (.var hk), hgroups, hheader⟩
  | binder => simpa [Reader.accept, hk] using ⟨hlevel, hgroups, hk⟩
  | groupOpen =>
    simp only [Reader.accept, hk]
    exact ⟨Level.start_formed, List.forall_mem_cons.mpr ⟨hlevel, hgroups⟩, hheader⟩
  | groupClose =>
    cases hg : r.groups with
    | nil => simpa [Reader.accept, hk, hg] using ⟨hlevel, hgroups, hheader⟩
    | cons group groups =>
      rw [hg] at hgroups
      obtain ⟨hgroup, hgroups⟩ := List.forall_mem_cons.mp hgroups
      simp only [Reader.accept, hk, hg]
      exact ⟨hgroup.add hlevel.close, hgroups, hheader⟩
  | bodyDelimiter => simpa [Reader.accept, hk] using ⟨hlevel, hgroups, hheader⟩
  | endOfFile => simpa [Reader.accept, hk] using ⟨hlevel, hgroups, hheader⟩

theorem Formed.next (h : r.Formed) (t : Token) : (r.next t).Formed := by
  rcases r.step_cases t with ⟨b, hb, hk, hnext, -⟩ | ⟨-, -, hnext, -⟩ | ⟨-, -, hnext, -⟩
  · have hbinder := h.header
    rw [hb] at hbinder
    rw [hnext]
    exact ⟨h.level, h.groups, hbinder, by simp [hk]⟩
  · rw [hnext]
    exact h.settle
  · rw [hnext]
    exact h.settle.accept t

theorem Formed.reach (h : r.Formed) (ts : List Token) : (transducer.reach r ts).Formed := by
  induction ts generalizing r with
  | nil => exact h
  | cons t ts ih => exact ih (h.next t)

theorem Formed.finish (h : r.Formed) : r.finish.Formed := by
  have hfold (groups : List (Token × Level)) (hgroups : ∀ g ∈ groups, g.2.Formed) (e : Expr)
      (he : e.Formed) : (groups.foldl (fun e group => (group.2.add e).close) e).Formed := by
    induction groups generalizing e with
    | nil => exact he
    | cons group groups ih =>
      obtain ⟨hgroup, hgroups⟩ := List.forall_mem_cons.mp hgroups
      exact ih hgroups _ (hgroup.add he).close
  exact hfold _ h.settle.groups _ h.settle.level.close

end Reader

theorem parse_formed (source : String) : (parse source).expr.Formed :=
  (Reader.start_formed.reach _).finish

/-! ## Occurrences -/

/-- All subexpressions of a tree, the tree itself first. -/
def parts : Expr → List Expr
  | .empty => [.empty]
  | .var t => [.var t]
  | .app f a => .app f a :: (f.parts ++ a.parts)
  | .lambda b p body => .lambda b p body :: body.parts

def takes (t : Token) : Expr → Bool
  | .lambda _ p _ => p = some t
  | _ => false

/-- An abstraction that binds the name of the token and has the token in its body. -/
def captures (t : Token) : Expr → Bool
  | .lambda _ p body => parameterName p = t.raw && body.tokens.contains t
  | _ => false

/-- An identifier that is not a parameter in a tree, and whose name is neither in `names` nor that
of the parameter of an enclosing abstraction. -/
def isUnbound (names : List String) (e : Expr) (t : Token) : Bool :=
  t.kind = .identifier && !e.parts.any (takes t) && !e.parts.any (captures t) && t.raw ∉ names

theorem tokens_subset_of_mem_parts {e part : Expr} (h : part ∈ e.parts) :
    part.tokens ⊆ e.tokens := by
  induction e with
  | empty => simp_all [parts]
  | var t => simp_all [parts]
  | app f a hf ha =>
    rcases List.mem_cons.mp h with rfl | h
    · exact List.Subset.refl _
    · rcases List.mem_append.mp h with h | h
      · exact List.Subset.trans (hf h) (List.subset_append_left _ _)
      · exact List.Subset.trans (ha h) (List.subset_append_right _ _)
  | lambda b p body ih =>
    rcases List.mem_cons.mp h with rfl | h
    · exact List.Subset.refl _
    · exact List.Subset.trans (ih h) (List.subset_append_right _ _)

theorem any_parts_of_notMem {e : Expr} {t : Token} (h : t ∉ e.tokens) :
    e.parts.any (takes t) = false ∧ e.parts.any (captures t) = false := by
  have hnone (q : Expr → Bool) (hq : ∀ part, q part = true → t ∈ part.tokens) :
      e.parts.any q = false :=
    List.any_eq_false.mpr fun part hpart hholds =>
      h (tokens_subset_of_mem_parts hpart (hq part hholds))
  constructor
  · exact hnone _ fun part htakes => by cases part <;> simp_all [takes, tokens]
  · exact hnone _ fun part hcaptures => by cases part <;> simp_all [captures, tokens]

variable {t : Token} {names : List String}

theorem isUnbound_callee {f a : Expr} (h : t ∉ a.tokens) :
    (Expr.app f a).isUnbound names t = f.isUnbound names t := by
  simp [isUnbound, parts, takes, captures, any_parts_of_notMem h]

theorem isUnbound_argument {f a : Expr} (h : t ∉ f.tokens) :
    (Expr.app f a).isUnbound names t = a.isUnbound names t := by
  simp [isUnbound, parts, takes, captures, any_parts_of_notMem h]

theorem isUnbound_body {b : Token} {p : Option Token} {body : Expr} (ht : t ∈ body.tokens)
    (hp : p ≠ some t) :
    (Expr.lambda b p body).isUnbound names t = body.isUnbound (parameterName p :: names) t := by
  have htakes : takes t (.lambda b p body) = false := by simp [takes, hp]
  have hcaptures : captures t (.lambda b p body) = decide (t.raw = parameterName p) := by
    simp [captures, ht, eq_comm]
  rw [isUnbound, isUnbound, parts, List.any_cons, List.any_cons, htakes, hcaptures]
  by_cases hname : t.raw = parameterName p <;> simp [hname]

/-- In a tree without repeated tokens, the free variables are its unbound tokens. -/
theorem Formed.free_eq {e : Expr} (h : e.Formed) (hnodup : e.tokens.Nodup) (names : List String) :
    e.free names = e.tokens.filter (e.isUnbound names) := by
  induction h generalizing names with
  | empty => rfl
  | @var t ht =>
    rw [free_var, tokens]
    by_cases hname : t.raw ∈ names <;> simp [isUnbound, parts, takes, captures, ht, hname]
  | @app f a hne hf ha ihf iha =>
    obtain ⟨hnodupf, hnodupa, hdisjoint⟩ := List.nodup_append.mp hnodup
    rw [free_app, ihf hnodupf, iha hnodupa, tokens, List.filter_append]
    congr 1
    · refine List.filter_congr fun t ht => (isUnbound_callee fun ht' => ?_).symm
      exact hdisjoint t ht t ht' rfl
    · refine List.filter_congr fun t ht => (isUnbound_argument fun ht' => ?_).symm
      exact hdisjoint t ht' t ht rfl
  | @lambda b p body hb hp hbody ih =>
    obtain ⟨-, hnodup⟩ := List.nodup_cons.mp hnodup
    obtain ⟨-, hnodupbody, hdisjoint⟩ := List.nodup_append.mp hnodup
    have hbinder : (Expr.lambda b p body).isUnbound names b = false := by simp [isUnbound, hb]
    have hparameter : p.toList.filter ((Expr.lambda b p body).isUnbound names) = [] := by
      cases p with
      | none => rfl
      | some t => simp [isUnbound, parts, takes]
    rw [free_lambda, ih hnodupbody, tokens, List.cons_append,
      List.filter_cons_of_neg (by simp [hbinder]), List.filter_append, hparameter, List.nil_append]
    refine List.filter_congr fun t ht => (isUnbound_body ht ?_).symm
    rintro rfl
    exact hdisjoint t (by simp) t ht rfl

theorem tokens_parse (source : String) :
    (parse source).expr.tokens = (Token.scan source).tokens.filter Token.isKept := by
  rw [parse, ofTokens, Reader.tokens_finish, Reader.tokens_reach]
  rfl

theorem nodup_tokens_parse (source : String) : (parse source).expr.tokens.Nodup := by
  rw [tokens_parse]
  exact (List.filter_sublist.trans (List.sublist_append_left _ _)).nodup
    (Token.scan_orderly source).nodup

/-- The free variables of a text are its unbound tokens. -/
theorem free_parse (source : String) (names : List String) :
    (parse source).expr.free names =
      (Token.scan source).tokens.filter ((parse source).expr.isUnbound names) := by
  rw [(parse_formed source).free_eq (nodup_tokens_parse source), tokens_parse, List.filter_filter]
  refine List.filter_congr fun t _ => ?_
  by_cases hk : t.kind = .identifier <;> simp [isUnbound, Token.isKept, hk]

end Expr

/-- For every text, the diagnostics of compiling it are those of parsing it, followed by one for
each of its unbound variables, in source order. -/
theorem unbound_variables_reported {φ : Type} (globals : Globals φ) (source : String)
    (m : Machine φ) :
    let unbound := (Token.scan source).tokens.filter
      ((Expr.parse source).expr.isUnbound (globals.map Prod.fst))
    (compile globals source m).1.diagnostics =
      (Expr.parse source).diagnostics ++ unbound.map .unresolved ∧
    unbound.Pairwise (fun t u => t.position.Before u.position) ∧
    ∀ t : Token, (Diagnostic.unresolved t).position = t.position ∧
      (Diagnostic.unresolved t).message = "unresolved variable `" ++ t.raw ++ "`" := by
  refine ⟨?_, ?_, fun t => ⟨rfl, rfl⟩⟩
  · obtain ⟨v, m', -, hcompile⟩ := compile_eq globals source m
    rw [hcompile, Expr.free_parse]
  · have hsublist := List.sublist_append_left (Token.scan source).tokens
      [(Token.scan source).endOfFile]
    exact (Token.scan_in_reading_order source).sublist (List.filter_sublist.trans hsublist)

-- The first abstraction ends with its group, and the second has no parameter to bind `z`.
example :
    let globals : Globals Empty := [("y", .undefined)]
    (compile globals "(\\x.x y) x (\\.z" .empty).1.diagnostics.map (·.text) =
      ["1:14: expecting identifier, found .",
        "1:16: unexpected token end of file " ++
          "(the cause is likely to be the parenthesis at line 1 column 12)",
        "1:10: unresolved variable `x`",
        "1:15: unresolved variable `z`"] := by
  decide

end LambdaCalculus
