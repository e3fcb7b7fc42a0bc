import LambdaCalculus.Proofs.Resolution

/-! # Generated names along a path

The bindings on a path from the root of generated code are nested in one another, and all of them in
the globals.  The name of each is its spelling with one quote for each enclosing binding with the
same spelling.  So no name occurs twice on a path.
-/
namespace LambdaCalculus

/-- A step of a path from the root of a tree. -/
inductive Turn where
  | callee
  | argument
  | body
  deriving DecidableEq, Repr

/-- The source names bound along a path, outermost first, if the tree has this path. -/
def Expr.boundAlong : Expr → List Turn → Option (List String)
  | _, [] => some []
  | .app f _, .callee :: way => f.boundAlong way
  | .app _ a, .argument :: way => a.boundAlong way
  | .lambda _ p body, .body :: way => (body.boundAlong way).map (parameterName p :: ·)
  | _, _ :: _ => none

def Code.boundAlong : Code → List Turn → Option (List String)
  | _, [] => some []
  | .app f _, .callee :: way => f.boundAlong way
  | .app _ a, .argument :: way => a.boundAlong way
  | .closure p body, .body :: way => (body.boundAlong way).map (p :: ·)
  | _, _ :: _ => none

namespace Name

/-- The generated names of nested bindings, outermost first. -/
def nested (names : List String) : List String :=
  names.mapIdx fun i name => quoted name (alike (names.take i) name)

theorem nested_concat (names : List String) (name : String) :
    nested (names ++ [name]) = nested names ++ [quoted name (alike names name)] := by
  rw [nested, List.mapIdx_concat, List.take_left]
  congr 1
  refine List.mapIdx_eq_mapIdx_iff.mpr fun i hi => ?_
  rw [List.take_append_of_le_length (Nat.le_of_lt hi)]

@[simp] theorem alike_reverse (names : List String) (name : String) :
    alike names.reverse name = alike names name :=
  List.countP_reverse

end Name

namespace Scope

open Name

theorem generatedNames_eq (names : List String) :
    generatedNames names = (nested names.reverse).reverse := by
  induction names with
  | nil => rfl
  | cons name names ih =>
    rw [generatedNames_cons, fresh_around, ih, List.reverse_cons, nested_concat, alike_reverse,
      List.reverse_append, List.reverse_singleton, List.singleton_append]

theorem nodup_generatedNames (names : List String) : (generatedNames names).Nodup := by
  induction names with
  | nil => exact List.nodup_nil
  | cons name names ih => exact List.nodup_cons.mpr ⟨fresh_notMem names name, ih⟩

/-- A scope contains the quoted forms of a spelling with fewer quotes than the next one has. -/
theorem quoted_mem_generatedNames {names : List String} {name : String} {n : Nat} :
    quoted name n ∈ generatedNames names ↔ n < alike names name := by
  constructor
  · intro h
    obtain ⟨other, i, hquoted, hi⟩ := exists_quoted_of_mem h
    obtain ⟨hspell, rfl⟩ := quoted_inj.mp hquoted
    rwa [alike_congr hspell]
  · intro h
    induction names with
    | nil => cases h
    | cons other names ih =>
      rw [generatedNames_cons, fresh_around]
      by_cases hspell : spell other = spell name
      · rw [alike, List.countP_cons_of_pos (by simpa using hspell), ← alike] at h
        rcases Nat.lt_succ_iff_lt_or_eq.mp h with h | rfl
        · exact List.mem_cons_of_mem _ (ih h)
        · rw [← alike_congr hspell, quoted_inj.mpr ⟨hspell.symm, rfl⟩]
          exact List.mem_cons_self
      · rw [alike, List.countP_cons_of_neg (by simpa using hspell)] at h
        exact List.mem_cons_of_mem _ (ih h)

theorem quoted_mem_nested {names : List String} {name : String} {n : Nat} :
    quoted name n ∈ nested names ↔ n < alike names name := by
  rw [← alike_reverse, ← quoted_mem_generatedNames, generatedNames_eq, List.reverse_reverse,
    List.mem_reverse]

theorem nodup_nested (names : List String) : (nested names).Nodup := by
  have hnodup := nodup_generatedNames names.reverse
  rw [generatedNames_eq, List.reverse_reverse] at hnodup
  exact (List.reverse_perm _).nodup_iff.mp hnodup

/-- Appends quotes to a name as long as it is taken, at most the given number. -/
def avoid (taken : List String) : Nat → String → String
  | 0, candidate => candidate
  | more + 1, candidate =>
    if candidate ∈ taken then avoid taken more (candidate.push '\x27') else candidate

-- The quotes already tried are among those in use, so the search cannot stop early.
theorem avoid_quoted {names : List String} {name : String} {n more : Nat}
    (hn : n ≤ alike names name) (hmore : alike names name ≤ n + more) :
    avoid (nested names) more (quoted name n) = quoted name (alike names name) := by
  induction more generalizing n with
  | zero => rw [avoid, Nat.le_antisymm hn hmore]
  | succ more ih =>
    rw [avoid]
    rcases Nat.lt_or_eq_of_le hn with hlt | rfl
    · rw [if_pos (quoted_mem_nested.mpr hlt), push_quoted, ih hlt (by omega)]
    · rw [if_neg fun hmem => Nat.lt_irrefl _ (quoted_mem_nested.mp hmem)]

theorem ofNames_concat (names : List String) (name : String) :
    ofNames (names ++ [name]) = (ofNames names).bind name := by
  rw [ofNames, List.foldl_append, List.foldl_cons, List.foldl_nil, ofNames]

theorem fresh_ofNames (names : List String) (name : String) :
    (ofNames names).fresh name = quoted name (alike names name) := by
  rw [ofNames_eq_around, fresh_around, alike_reverse]

/-- Appending quotes to a spelling until it is not taken gives the generated name. -/
theorem avoid_spell (names : List String) (name : String) (more : Nat) :
    avoid (nested names) (names.length + more) (spell name) = (ofNames names).fresh name := by
  have hcount : alike names name ≤ names.length := List.countP_le_length
  rw [fresh_ofNames, ← quoted_zero, avoid_quoted (Nat.zero_le _) (by omega)]

end Scope

namespace Expr

open Name Scope

/-- Along every path, the code binds the nested names of those bound by the tree. -/
theorem boundAlong_code (e : Expr) (names : List String) (way : List Turn) :
    ((e.code (ofNames names)).boundAlong way).map (nested names ++ ·) =
      (e.boundAlong way).map fun inner => nested (names ++ inner) := by
  induction e generalizing names way with
  | empty => cases way <;> simp [Expr.boundAlong, Code.boundAlong]
  | var t =>
    rw [code_var]
    cases (ofNames names).resolve t.raw <;> cases way <;> simp [Expr.boundAlong, Code.boundAlong]
  | app f a hf ha =>
    rw [code_app]
    cases way with
    | nil => simp [Expr.boundAlong, Code.boundAlong]
    | cons turn way =>
      cases turn with
      | callee => exact hf names way
      | argument => exact ha names way
      | body => rfl
  | lambda b p body ih =>
    rw [code_lambda]
    cases way with
    | nil => simp [Expr.boundAlong, Code.boundAlong]
    | cons turn way =>
      cases turn with
      | callee => rfl
      | argument => rfl
      | body =>
        have hbody := ih (names ++ [parameterName p]) way
        rw [ofNames_concat, nested_concat] at hbody
        simpa [Expr.boundAlong, Code.boundAlong, fresh_ofNames, Function.comp_def] using hbody

theorem globals_generate (e : Expr) (globals : List String) :
    (e.generate globals).program.globals = nested globals := by
  have hnames := generatedNames_eq globals.reverse
  rw [List.reverse_reverse] at hnames
  rw [← List.reverse_inj, ← hnames, generate, ofNames_eq_around]
  simp [generatedNames]

end Expr

def Program.ofText (source : String) (globals : List String) : Program :=
  ((Expr.parse source).expr.generate globals).program

theorem Program.code_ofText (source : String) (globals : List String) :
    (Program.ofText source globals).code = (Expr.parse source).expr.code (.ofNames globals) :=
  congrArg (·.program.code) ((Expr.parse source).expr.generate_eq globals)

/-- For every text and all globals, generated names are nested: those of the globals in one another,
and those of the parameters along any path in these.  So they are distinct.  A generated name is
also the first quoted form of its spelling that is not taken, and the spelling contains no quotes.
-/
theorem generated_names_nested (source : String) (globals : List String) :
    (Program.ofText source globals).globals = Name.nested globals ∧
    (∀ way, ((Program.ofText source globals).code.boundAlong way).map (Name.nested globals ++ ·) =
      ((Expr.parse source).expr.boundAlong way).map fun names => Name.nested (globals ++ names)) ∧
    (∀ way, ∀ names ∈ (Program.ofText source globals).code.boundAlong way,
      ((Program.ofText source globals).globals ++ names).Nodup) ∧
    (∀ names name more, Scope.avoid (Name.nested names) (names.length + more) (Name.spell name) =
      (Scope.ofNames names).fresh name) ∧
    ∀ name, '\x27' ∉ (Name.spell name).toList := by
  have hglobals : (Program.ofText source globals).globals = Name.nested globals :=
    Expr.globals_generate _ globals
  have hway := (Expr.parse source).expr.boundAlong_code globals
  rw [← Program.code_ofText] at hway
  refine ⟨hglobals, hway, ?_, Scope.avoid_spell, ?_⟩
  · intro way names hnames
    have hmem := congrArg (Option.map (Name.nested globals ++ ·)) (Option.mem_def.mp hnames)
    obtain ⟨inner, -, hinner⟩ := Option.map_eq_some_iff.mp ((hway way).symm.trans hmem)
    have hnested : Name.nested (globals ++ inner) = Name.nested globals ++ names := hinner
    rw [hglobals, ← hnested]
    exact Scope.nodup_nested _
  · intro name
    rw [Name.spell, String.toList_ofList]
    exact Name.quote_notMem_spellChars name.toList

-- Two globals `x`, and nested in them two abstractions over `x` and two without a parameter.
example :
    let program := Program.ofText "\\x.\\.\\x.\\.x" ["x", "y", "x"]
    program.globals = ["$x", "$y", "$x'"] ∧
      program.code.boundAlong [.body, .body, .body, .body] = some ["$x''", "$", "$x'''", "$'"] := by
  decide

end LambdaCalculus
