import LambdaCalculus.Compile
import LambdaCalculus.Proofs.Naming
import LambdaCalculus.Proofs.Reading

/-! # From source names to slots

Variables are resolved twice: by source name when code is generated, and by generated name when the
code is loaded.  Both find the same binding, so the term of a text is determined by its tree,
independently of generated names.
-/
namespace LambdaCalculus

namespace Expr

/-- The term of an expression by source names.  `names` are the names in scope, innermost first;
unbound variables are undefined. -/
def slots (names : List String) : Expr → Term
  | .empty => .undefined
  | .var t =>
    match names.idxOf? t.raw with
    | some i => .slot i
    | none => .undefined
  | .app f a => .app (f.slots names) (a.slots names)
  | .lambda _ p body => .lambda (body.slots (parameterName p :: names))

end Expr

namespace Term

/-- All free slots are below `n`. -/
def Within (n : Nat) : Term → Prop
  | .undefined => True
  | .slot i => i < n
  | .app f a => f.Within n ∧ a.Within n
  | .lambda body => body.Within (n + 1)

def Defined : Term → Prop
  | .undefined => False
  | .slot _ => True
  | .app f a => f.Defined ∧ a.Defined
  | .lambda body => body.Defined

end Term

namespace Expr

open Scope

theorem slots_within (e : Expr) (names : List String) : (e.slots names).Within names.length := by
  induction e generalizing names with
  | empty => trivial
  | var t =>
    rw [slots]
    split
    · rename_i i hi
      obtain ⟨hlt, -⟩ := List.idxOf?_eq_some_iff.mp hi
      exact hlt
    · trivial
  | app f a hf ha => exact ⟨hf names, ha names⟩
  | lambda b p body ih => exact ih (parameterName p :: names)

theorem slots_defined {e : Expr} (h : e.Complete) {bound names : List String}
    (hfree : e.free bound = []) (hnames : ∀ name ∈ bound, name ∈ names) :
    (e.slots names).Defined := by
  induction e generalizing bound names with
  | empty => exact h
  | var t =>
    rw [free_var] at hfree
    have hbound : t.raw ∈ bound := by
      by_contra hnot
      simp [hnot] at hfree
    rw [slots]
    split
    · trivial
    · rename_i hnone
      exact List.idxOf?_eq_none_iff.mp hnone (hnames _ hbound)
  | app f a hf ha =>
    rw [free_app, List.append_eq_nil_iff] at hfree
    exact ⟨hf h.1 hfree.1 hnames, ha h.2 hfree.2 hnames⟩
  | lambda b p body ih =>
    apply ih h.2 hfree
    intro name hname
    rcases List.mem_cons.mp hname with rfl | hname
    · exact List.mem_cons_self
    · exact List.mem_cons_of_mem _ (hnames name hname)

/-- The code of an expression denotes the term given by source names. -/
theorem term_code (e : Expr) (names : List String) :
    (e.code (around names)).term (generatedNames names) = e.slots names := by
  induction e generalizing names with
  | empty => rfl
  | var t =>
    have hidx := idxOf?_resolve names t.raw
    rw [code_var, slots]
    cases hg : (around names).resolve t.raw with
    | none =>
      rw [hg] at hidx
      rw [← hidx]
      rfl
    | some g =>
      rw [hg, Option.bind_some] at hidx
      simp only [Option.map_some, Option.getD_some, Code.term_var, hidx]
      cases names.idxOf? t.raw <;> rfl
  | app f a hf ha => rw [code_app, Code.term_app, hf, ha, slots]
  | lambda b p body ih =>
    rw [code_lambda, Code.term_closure, slots]
    exact congrArg Term.lambda (ih (parameterName p :: names))

/-- The code of an expression has no free names outside of its scope. -/
theorem free_code (e : Expr) (names : List String) :
    (e.code (around names)).free (generatedNames names) = [] := by
  induction e generalizing names with
  | empty => rfl
  | var t =>
    rw [code_var]
    cases hg : (around names).resolve t.raw with
    | none => rfl
    | some g => exact if_pos (mem_of_resolve hg)
  | app f a hf ha => rw [code_app, Code.free_app, hf, ha, List.append_nil]
  | lambda b p body ih =>
    rw [code_lambda, Code.free_closure]
    exact ih (parameterName p :: names)

theorem resolve_code (e : Expr) (names : List String) :
    (e.code (around names)).resolve (generatedNames names) = .ok (e.slots names) := by
  rw [Code.resolve_eq, free_code, term_code]

/-- Generated code resolves to the term given by source names. -/
theorem resolve_generate (e : Expr) (names : List String) :
    (e.generate names).program.code.resolve (e.generate names).program.globals.reverse =
      .ok (e.slots names.reverse) := by
  have hglobals :
      (e.generate names).program.globals.reverse = generatedNames names.reverse := by
    simp [generate, generatedNames, ofNames_eq_around]
  rw [hglobals, generate_eq, ofNames_eq_around]
  exact resolve_code e names.reverse

theorem length_generate (e : Expr) (names : List String) :
    (e.generate names).program.globals.length = names.length := by
  simp [generate, ofNames_eq_around]

end Expr

section Compile

variable {φ : Type}

theorem Term.Within.load {t : Term} {env : Env φ} (h : t.Within env.length) (m : Machine φ) :
    ∃ loaded, t.load env m = .ok loaded := by
  cases t with
  | undefined => exact ⟨_, rfl⟩
  | slot i =>
    have hi : env[i]? = some env[i] := List.getElem?_eq_getElem h
    exact ⟨(env[i], m), by simp [Term.load, hi]⟩
  | app f a => exact ⟨_, rfl⟩
  | lambda body => exact ⟨_, rfl⟩

/-- The names of globals, innermost first. -/
def Globals.names (globals : Globals φ) : List String := (globals.map (·.1)).reverse

def Globals.env (globals : Globals φ) : Env φ := (globals.map (·.2)).reverse

theorem Globals.names_eq_reverse_map (globals : Globals φ) :
    globals.names = globals.reverse.map Prod.fst := List.map_reverse.symm

theorem Globals.env_eq_reverse_map (globals : Globals φ) :
    globals.env = globals.reverse.map Prod.snd := List.map_reverse.symm

/-- Compiling loads the term given by source names; its diagnostics are those of the parser and one
for each unbound variable. -/
theorem compile_eq (globals : Globals φ) (source : String) (m : Machine φ) :
    ∃ v m', ((Expr.parse source).expr.slots globals.names).load globals.env m = .ok (v, m') ∧
      compile globals source m =
        (⟨v, ((Expr.parse source).expr.generate (globals.map (·.1))).program,
          (Expr.parse source).diagnostics ++
            ((Expr.parse source).expr.free (globals.map (·.1))).map .unresolved⟩, m') := by
  have hwithin := (Expr.parse source).expr.slots_within globals.names
  have hlength : globals.names.length = globals.env.length := by
    simp [Globals.names, Globals.env]
  rw [hlength] at hwithin
  obtain ⟨⟨v, m'⟩, hload⟩ := hwithin.load m
  refine ⟨v, m', hload, ?_⟩
  have hprogram : ((Expr.parse source).expr.generate (globals.map (·.1))).program.load
      (globals.map (·.2)) m = .ok (v, m') := by
    rw [Program.load, Expr.length_generate, if_pos (by simp), Expr.resolve_generate]
    exact hload
  have hproblems := congrArg Generated.diagnostics
    ((Expr.parse source).expr.generate_eq (globals.map (·.1)))
  simp only [compile, hprogram, hproblems]

/-- A text that compiles without diagnostics is an expression of the grammar with all variables
bound. -/
theorem derives_of_isOk {globals : Globals φ} {source : String} {m : Machine φ}
    (h : (compile globals source m).1.isOk = true) :
    Grammar.Derives .expression (Token.scan source).tokens (Expr.parse source).expr ∧
      (Expr.parse source).expr.free (globals.map (·.1)) = [] := by
  obtain ⟨v, m', -, hcompile⟩ := compile_eq globals source m
  rw [hcompile, Compilation.isOk, List.isEmpty_iff, List.append_eq_nil_iff] at h
  exact ⟨Expr.derives_ofTokens h.1, List.map_eq_nil_iff.mp h.2⟩

end Compile

theorem Transducer.exists_mem_emit {σ α β : Type} (T : Transducer σ α β) {s : σ} {xs : List α}
    {y : β} (h : y ∈ T.output s xs) : ∃ s' x, y ∈ T.emit s' x := by
  induction xs generalizing s with
  | nil => simp at h
  | cons x xs ih =>
    rw [output_cons] at h
    rcases List.mem_append.mp h with h | h
    · exact ⟨s, x, h⟩
    · exact ih h

namespace Expr

theorem Reader.load_notMem_complain (r : Reader) (t : Token) (error : LoadError) :
    .load error ∉ r.complain t := by
  cases hk : t.kind <;> cases hg : r.groups <;> simp only [complain, hk, hg]
  all_goals try split
  all_goals simp

theorem Reader.load_notMem_emit (r : Reader) (t : Token) (error : LoadError) :
    .load error ∉ r.emit t := by
  cases hh : r.header <;> cases hk : t.kind <;> simp [emit, hh, hk, load_notMem_complain]

theorem load_notMem_parse (source : String) (error : LoadError) :
    .load error ∉ (parse source).diagnostics := by
  intro h
  rcases List.mem_append.mp h with h | h
  · obtain ⟨r, t, h⟩ := Transducer.exists_mem_emit _ h
    exact Reader.load_notMem_emit r t error h
  · rcases List.mem_append.mp h with h | h
    · unfold Reader.headerAtEnd at h
      split at h <;> simp at h
    · unfold Reader.groupsAtEnd at h
      split at h
      · split at h <;> simp at h
      · simp at h

end Expr

/-- For every text and all names of globals, the generated code resolves to the term given by source
names: a name refers to its innermost binding.  So loading never fails. -/
theorem resolution_by_source_names (source : String) (names : List String) :
    (((Expr.parse source).expr.generate names).program.code.resolve
        ((Expr.parse source).expr.generate names).program.globals.reverse =
      .ok ((Expr.parse source).expr.slots names.reverse)) ∧
    ∀ (φ : Type) (globals : Globals φ) (m : Machine φ) (error : LoadError),
      .load error ∉ (compile globals source m).1.diagnostics := by
  refine ⟨Expr.resolve_generate _ names, ?_⟩
  intro φ globals m error hmem
  obtain ⟨v, m', -, hcompile⟩ := compile_eq globals source m
  rw [hcompile] at hmem
  rcases List.mem_append.mp hmem with hmem | hmem
  · exact Expr.load_notMem_parse source error hmem
  · simp at hmem

end LambdaCalculus
