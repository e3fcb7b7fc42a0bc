import LambdaCalculus.Proofs.Unbound
import Mathlib.Data.List.Forall2

/-! # Texts with different layout

Two texts may have the same tokens at different positions, with different whitespace and with
binders of either form.  The reader processes both in lockstep: its states have the same shape with
related tokens, and it emits diagnostics of the same kinds at related tokens.  This includes
malformed texts.
-/
namespace LambdaCalculus

/-- The kind of a token, and the name of an identifier. -/
def Token.gist (t : Token) : Token.Kind × Option String := (t.kind, t.name?)

/-- Tokens at the same index of two lists. -/
def Token.Aligned (ts ts' : List Token) (t t' : Token) : Prop :=
  ∃ i : Nat, ts[i]? = some t ∧ ts'[i]? = some t'

/-- Diagnostics of the same kind with related tokens. -/
inductive Diagnostic.Alike (R : Token → Token → Prop) : Diagnostic → Diagnostic → Prop where
  | unexpected {t t' : Token} : R t t' → Alike R (.unexpected t) (.unexpected t')
  | emptyExpression {t t' : Token} : R t t' → Alike R (.emptyExpression t) (.emptyExpression t')
  | missingParameter {t t' : Token} : R t t' → Alike R (.missingParameter t) (.missingParameter t')
  | missingDelimiter {t t' : Token} : R t t' → Alike R (.missingDelimiter t) (.missingDelimiter t')
  | unclosedGroup {o o' : Token} {within within' : Diagnostic} :
      R o o' → Alike R within within' →
      Alike R (.unclosedGroup o within) (.unclosedGroup o' within')
  | unresolved {t t' : Token} : R t t' → Alike R (.unresolved t) (.unresolved t')
  | load (error : LoadError) : Alike R (.load error) (.load error)

namespace Expr

/-- Trees of the same shape with related tokens. -/
inductive Alike (R : Token → Token → Prop) : Expr → Expr → Prop where
  | empty : Alike R .empty .empty
  | var {t t' : Token} : R t t' → Alike R (.var t) (.var t')
  | app {f f' a a' : Expr} : Alike R f f' → Alike R a a' → Alike R (.app f a) (.app f' a')
  | lambda {b b' : Token} {p p' : Option Token} {body body' : Expr} :
      R b b' → Option.Rel R p p' → Alike R body body' →
      Alike R (.lambda b p body) (.lambda b' p' body')

structure Opened.Alike (R : Token → Token → Prop) (o o' : Opened) : Prop where
  before : o.before.Alike R o'.before
  binder : R o.binder o'.binder
  parameter : Option.Rel R o.parameter o'.parameter

structure Level.Alike (R : Token → Token → Prop) (l l' : Level) : Prop where
  opened : List.Forall₂ (Opened.Alike R) l.opened l'.opened
  terms : l.terms.Alike R l'.terms
  hasTerm : l.hasTerm = l'.hasTerm

inductive Header.Alike (R : Token → Token → Prop) : Header → Header → Prop where
  | none : Alike R .none .none
  | binder {b b' : Token} : R b b' → Alike R (.binder b) (.binder b')
  | parameter {b b' : Token} {p p' : Option Token} :
      R b b' → Option.Rel R p p' → Alike R (.parameter b p) (.parameter b' p')

structure Reader.Alike (R : Token → Token → Prop) (r r' : Reader) : Prop where
  level : r.level.Alike R r'.level
  groups : List.Forall₂ (fun g g' => R g.1 g'.1 ∧ g.2.Alike R g'.2) r.groups r'.groups
  header : r.header.Alike R r'.header

variable {R : Token → Token → Prop}

/-! ## Trees and levels -/

theorem Alike.apply {f f' e e' : Expr} (hf : f.Alike R f') (he : e.Alike R e') :
    (f.apply e).Alike R (f'.apply e') := by
  cases hf with
  | empty => exact he
  | var ht => exact .app (.var ht) he
  | app hf ha => exact .app (.app hf ha) he
  | lambda hb hp hbody => exact .app (.lambda hb hp hbody) he

namespace Level

variable {l l' : Level}

theorem start_alike : start.Alike R start := ⟨.nil, .empty, rfl⟩

theorem Alike.add (h : l.Alike R l') {e e' : Expr} (he : e.Alike R e') :
    (l.add e).Alike R (l'.add e') :=
  ⟨h.opened, h.terms.apply he, rfl⟩

theorem Alike.enter (h : l.Alike R l') {b b' : Token} {p p' : Option Token} (hb : R b b')
    (hp : Option.Rel R p p') : (l.enter b p).Alike R (l'.enter b' p') :=
  ⟨.cons ⟨h.terms, hb, hp⟩ h.opened, .empty, rfl⟩

theorem Alike.close (h : l.Alike R l') : l.close.Alike R l'.close :=
  List.rel_foldl
    (fun _ _ hbody _ _ ho => ho.before.apply (.lambda ho.binder ho.parameter hbody))
    h.terms h.opened

theorem Alike.empty (h : l.Alike R l') {t t' : Token} (ht : R t t') :
    List.Forall₂ (Diagnostic.Alike R) (if l.hasTerm then [] else [.emptyExpression t])
      (if l'.hasTerm then [] else [.emptyExpression t']) := by
  rw [h.hasTerm]
  split
  · exact .nil
  · exact .cons (.emptyExpression ht) .nil

end Level

/-! ## Parsing in lockstep -/

namespace Reader

variable {r r' : Reader} {t t' : Token}

theorem start_alike : start.Alike R start := ⟨Level.start_alike, .nil, .none⟩

theorem Alike.enter (h : r.Alike R r') {b b' : Token} {p p' : Option Token} (hb : R b b')
    (hp : Option.Rel R p p') : (r.enter b p).Alike R (r'.enter b' p') :=
  ⟨h.level.enter hb hp, h.groups, .none⟩

theorem Alike.settle (h : r.Alike R r') : r.settle.Alike R r'.settle := by
  obtain ⟨level, groups, header⟩ := r
  obtain ⟨level', groups', header'⟩ := r'
  cases h.header with
  | none => exact h
  | binder hb => exact h.enter hb .none
  | parameter hb hp => exact h.enter hb hp

theorem Alike.finish (h : r.Alike R r') : r.finish.Alike R r'.finish :=
  List.rel_foldl (fun _ _ he _ _ hgroup => (hgroup.2.add he).close) h.settle.level.close
    h.settle.groups

theorem Alike.headerAtEnd (h : r.Alike R r') (ht : R t t') :
    List.Forall₂ (Diagnostic.Alike R) (r.headerAtEnd t) (r'.headerAtEnd t') := by
  obtain ⟨level, groups, header⟩ := r
  obtain ⟨level', groups', header'⟩ := r'
  cases h.header with
  | none => exact .nil
  | binder => exact .cons (.missingParameter ht) (.cons (.missingDelimiter ht) .nil)
  | parameter => exact .cons (.missingDelimiter ht) .nil

theorem Alike.groupsAtEnd (h : r.Alike R r') (ht : R t t') :
    List.Forall₂ (Diagnostic.Alike R) (r.groupsAtEnd t) (r'.groupsAtEnd t') := by
  obtain ⟨level, groups, header⟩ := r
  obtain ⟨level', groups', header'⟩ := r'
  obtain ⟨hlevel, hgroups, -⟩ := h
  cases hgroups with
  | nil => exact hlevel.empty ht
  | cons hgroup hgroups =>
    exact List.rel_map (fun _ _ hgroup => .unclosedGroup hgroup.1 (.unexpected ht))
      (.cons hgroup hgroups)

theorem Alike.atEnd (h : r.Alike R r') (ht : R t t') :
    List.Forall₂ (Diagnostic.Alike R) (r.atEnd t) (r'.atEnd t') :=
  List.rel_append (h.headerAtEnd ht) (h.settle.groupsAtEnd ht)

section Step

-- What a reader does with a token depends on its kind alone.
variable (hR : ∀ t t', R t t' → t.kind = t'.kind)
include hR

theorem Alike.accept (h : r.Alike R r') (ht : R t t') : (r.accept t).Alike R (r'.accept t') := by
  obtain ⟨level, groups, header⟩ := r
  obtain ⟨level', groups', header'⟩ := r'
  obtain ⟨hlevel, hgroups, hheader⟩ := h
  unfold Reader.accept
  rw [← hR t t' ht]
  cases t.kind with
  | identifier => exact ⟨hlevel.add (.var ht), hgroups, hheader⟩
  | binder => exact ⟨hlevel, hgroups, .binder ht⟩
  | groupOpen => exact ⟨Level.start_alike, .cons ⟨ht, hlevel⟩ hgroups, hheader⟩
  | groupClose =>
    cases hgroups with
    | nil => exact ⟨hlevel, .nil, hheader⟩
    | cons hgroup hgroups => exact ⟨hgroup.2.add hlevel.close, hgroups, hheader⟩
  | bodyDelimiter => exact ⟨hlevel, hgroups, hheader⟩
  | endOfFile => exact ⟨hlevel, hgroups, hheader⟩

theorem Alike.complain (h : r.Alike R r') (ht : R t t') :
    List.Forall₂ (Diagnostic.Alike R) (r.complain t) (r'.complain t') := by
  obtain ⟨level, groups, header⟩ := r
  obtain ⟨level', groups', header'⟩ := r'
  obtain ⟨hlevel, hgroups, -⟩ := h
  unfold Reader.complain
  rw [← hR t t' ht]
  cases t.kind with
  | groupClose =>
    cases hgroups with
    | nil => exact .cons (.unexpected ht) .nil
    | cons => exact hlevel.empty ht
  | bodyDelimiter => exact .cons (.unexpected ht) .nil
  | endOfFile => exact .cons (.unexpected ht) .nil
  | _ => exact .nil

theorem Alike.next (h : r.Alike R r') (ht : R t t') : (r.next t).Alike R (r'.next t') := by
  obtain ⟨level, groups, header⟩ := r
  obtain ⟨level', groups', header'⟩ := r'
  unfold Reader.next
  rw [← hR t t' ht]
  cases h.header with
  | none => exact h.accept hR ht
  | binder hb =>
    cases t.kind with
    | identifier => exact ⟨h.level, h.groups, .parameter hb (.some ht)⟩
    | bodyDelimiter => exact h.enter hb .none
    | _ => exact (h.enter hb .none).accept hR ht
  | parameter hb hp =>
    cases t.kind with
    | bodyDelimiter => exact h.enter hb hp
    | _ => exact (h.enter hb hp).accept hR ht

theorem Alike.emit (h : r.Alike R r') (ht : R t t') :
    List.Forall₂ (Diagnostic.Alike R) (r.emit t) (r'.emit t') := by
  obtain ⟨level, groups, header⟩ := r
  obtain ⟨level', groups', header'⟩ := r'
  unfold Reader.emit
  rw [← hR t t' ht]
  cases h.header with
  | none => exact h.complain hR ht
  | binder hb =>
    have hbody := (h.enter hb .none).complain hR ht
    cases t.kind with
    | identifier => exact .nil
    | bodyDelimiter => exact .cons (.missingParameter ht) .nil
    | _ => exact .cons (.missingParameter ht) (.cons (.missingDelimiter ht) hbody)
  | parameter hb hp =>
    have hbody := (h.enter hb hp).complain hR ht
    cases t.kind with
    | bodyDelimiter => exact .nil
    | _ => exact .cons (.missingDelimiter ht) hbody

variable {ts ts' : List Token}

theorem Alike.reach (h : r.Alike R r') (hts : List.Forall₂ R ts ts') :
    (transducer.reach r ts).Alike R (transducer.reach r' ts') :=
  List.rel_foldl (fun _ _ h _ _ ht => h.next hR ht) h hts

theorem Alike.output (h : r.Alike R r') (hts : List.Forall₂ R ts ts') :
    List.Forall₂ (Diagnostic.Alike R) (transducer.output r ts) (transducer.output r' ts') := by
  induction hts generalizing r r' with
  | nil => exact .nil
  | cons ht _ ih =>
    rw [Transducer.output_cons, Transducer.output_cons]
    exact List.rel_append (h.emit hR ht) (ih (h.next hR ht))

end Step

end Reader

/-- Scans with related tokens are parsed to related trees, with related diagnostics. -/
theorem ofTokens_alike (hR : ∀ t t', R t t' → t.kind = t'.kind) {s s' : Token.Scanned}
    (htokens : List.Forall₂ R s.tokens s'.tokens) (hend : R s.endOfFile s'.endOfFile) :
    (ofTokens s).expr.Alike R (ofTokens s').expr ∧
      List.Forall₂ (Diagnostic.Alike R) (ofTokens s).diagnostics (ofTokens s').diagnostics := by
  have hfinal := Reader.start_alike.reach hR htokens
  exact ⟨hfinal.finish,
    List.rel_append (Reader.start_alike.output hR htokens) (hfinal.atEnd hend)⟩

/-! ## Code of related trees -/

section Code

variable (hR : ∀ t t', R t t' → t.gist = t'.gist)
include hR

theorem raw_eq_of_identifier {t t' : Token} (ht : R t t') (hk : t.kind = .identifier) :
    t.raw = t'.raw := by
  obtain ⟨hkind, hname⟩ := Prod.ext_iff.mp (hR t t' ht)
  have hk' : t'.kind = .identifier := hkind.symm.trans hk
  simpa [Token.gist, Token.name?, hk, hk'] using hname

theorem parameterName_eq {p p' : Option Token} (hp : Option.Rel R p p')
    (hk : ∀ t ∈ p, t.kind = .identifier) : parameterName p = parameterName p' := by
  cases hp with
  | none => rfl
  | some ht => exact raw_eq_of_identifier hR ht (hk _ rfl)

theorem Alike.code_eq {e e' : Expr} (h : e.Alike R e') (hformed : e.Formed) (s : Scope) :
    e.code s = e'.code s := by
  induction h generalizing s with
  | empty => rfl
  | var ht =>
    cases hformed with
    | var hk => rw [code_var, code_var, raw_eq_of_identifier hR ht hk]
  | app _ _ ihf iha =>
    cases hformed with
    | app _ hf ha => rw [code_app, code_app, ihf hf, iha ha]
  | lambda _ hp _ ih =>
    cases hformed with
    | lambda _ hk hbody => rw [code_lambda, code_lambda, parameterName_eq hR hp hk, ih hbody]

theorem Alike.free {e e' : Expr} (h : e.Alike R e') (hformed : e.Formed) (bound : List String) :
    List.Forall₂ R (e.free bound) (e'.free bound) := by
  induction h generalizing bound with
  | empty => exact .nil
  | var ht =>
    cases hformed with
    | var hk =>
      rw [free_var, free_var, raw_eq_of_identifier hR ht hk]
      split
      · exact .nil
      · exact .cons ht .nil
  | app _ _ ihf iha =>
    cases hformed with
    | app _ hf ha =>
      rw [free_app, free_app]
      exact List.rel_append (ihf hf bound) (iha ha bound)
  | lambda _ hp _ ih =>
    cases hformed with
    | lambda _ hk hbody =>
      rw [free_lambda, free_lambda, parameterName_eq hR hp hk]
      exact ih hbody _

end Code

end Expr

/-! ## Aligned scans -/

namespace Token

/-- Scans whose tokens have the same gists are aligned, including the end of file. -/
theorem Scanned.aligned {s s' : Scanned} (h : s.tokens.map gist = s'.tokens.map gist) :
    List.Forall₂ (Aligned s.all s'.all) s.tokens s'.tokens ∧
      Aligned s.all s'.all s.endOfFile s'.endOfFile := by
  have hlength : s.tokens.length = s'.tokens.length := by simpa using congrArg List.length h
  constructor
  · refine List.forall₂_iff_get.mpr ⟨hlength, fun i hi hi' => ⟨i, ?_, ?_⟩⟩
    · simp [Scanned.all, List.getElem?_append_left hi]
    · simp [Scanned.all, List.getElem?_append_left hi']
  · exact ⟨s.tokens.length, by simp [Scanned.all], by simp [Scanned.all, hlength]⟩

theorem Aligned.gist_eq {ts ts' : List Token} {t t' : Token} (h : Aligned ts ts' t t')
    (hgist : ts.map gist = ts'.map gist) : t.gist = t'.gist := by
  obtain ⟨i, ht, ht'⟩ := h
  have hi := congrArg (·[i]?) hgist
  simpa [ht, ht'] using hi

theorem gist_all {source source' : String}
    (h : (scan source).tokens.map gist = (scan source').tokens.map gist) :
    (scan source).all.map gist = (scan source').all.map gist := by
  rw [Scanned.all, Scanned.all, List.map_append, List.map_append, h]
  rfl

end Token

/-- Two texts whose tokens agree in kinds and identifier names, regardless of positions and binder
forms, compile to the same program, the same value and the same machine.  Their diagnostics are of
the same kinds in the same order, each about tokens at the same index of the two token lists. -/
theorem layout_does_not_matter {φ : Type} (globals : Globals φ) (source source' : String)
    (m : Machine φ)
    (h : (Token.scan source).tokens.map Token.gist = (Token.scan source').tokens.map Token.gist) :
    (compile globals source m).1.program = (compile globals source' m).1.program ∧
    (compile globals source m).1.value = (compile globals source' m).1.value ∧
    (compile globals source m).2 = (compile globals source' m).2 ∧
    List.Forall₂
      (Diagnostic.Alike (Token.Aligned (Token.scan source).all (Token.scan source').all))
      (compile globals source m).1.diagnostics (compile globals source' m).1.diagnostics := by
  have hgist (t t' : Token)
      (ht : Token.Aligned (Token.scan source).all (Token.scan source').all t t') :
      t.gist = t'.gist := ht.gist_eq (Token.gist_all h)
  obtain ⟨htokens, hend⟩ := Token.Scanned.aligned h
  obtain ⟨hexpr, hdiagnostics⟩ :=
    Expr.ofTokens_alike (fun t t' ht => congrArg Prod.fst (hgist t t' ht)) htokens hend
  have hformed := Expr.parse_formed source
  have hprogram : ((Expr.parse source).expr.generate (globals.map (·.1))).program =
      ((Expr.parse source').expr.generate (globals.map (·.1))).program := by
    rw [Expr.generate_eq, Expr.generate_eq]
    exact congrArg (Program.mk · _) (hexpr.code_eq hgist hformed _)
  have hfree := hexpr.free hgist hformed (globals.map (·.1))
  -- Equal programs are loaded alike, as both resolve to one term.
  have hslots : (Expr.parse source).expr.slots globals.names =
      (Expr.parse source').expr.slots globals.names := by
    refine Except.ok.inj ((Expr.resolve_generate _ _).symm.trans ?_)
    rw [hprogram]
    exact Expr.resolve_generate _ _
  obtain ⟨v, m', hload, hcompile⟩ := compile_eq globals source m
  obtain ⟨v', m'', hload', hcompile'⟩ := compile_eq globals source' m
  rw [hslots, hload'] at hload
  cases hload
  rw [hcompile, hcompile']
  exact ⟨hprogram, rfl, rfl,
    List.rel_append hdiagnostics (List.rel_map (fun _ _ ht => .unresolved ht) hfree)⟩

/-- Both texts have a stray delimiter, a header without a parameter, two unclosed groups and an
unbound variable. -/
theorem layout_does_not_matter_malformed :
    (Token.scan "x . (\\y.y (λ.z").tokens.map Token.gist =
      (Token.scan "x\n.\t(λ y\n. y(\\ .\n\nz\n").tokens.map Token.gist ∧
    (compile ([("x", .undefined)] : Globals Empty) "x . (\\y.y (λ.z" .empty).1.program =
      (compile ([("x", .undefined)] : Globals Empty) "x\n.\t(λ y\n. y(\\ .\n\nz\n"
        .empty).1.program ∧
    List.Forall₂
      (Diagnostic.Alike (Token.Aligned (Token.scan "x . (\\y.y (λ.z").all
        (Token.scan "x\n.\t(λ y\n. y(\\ .\n\nz\n").all))
      (compile ([("x", .undefined)] : Globals Empty) "x . (\\y.y (λ.z" .empty).1.diagnostics
      (compile ([("x", .undefined)] : Globals Empty) "x\n.\t(λ y\n. y(\\ .\n\nz\n"
        .empty).1.diagnostics := by
  have h : (Token.scan "x . (\\y.y (λ.z").tokens.map Token.gist =
      (Token.scan "x\n.\t(λ y\n. y(\\ .\n\nz\n").tokens.map Token.gist := by decide
  have hsame := layout_does_not_matter ([("x", .undefined)] : Globals Empty) _ _ .empty h
  exact ⟨h, hsame.1, hsame.2.2.2⟩

end LambdaCalculus
