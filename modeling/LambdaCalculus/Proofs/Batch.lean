import LambdaCalculus.CommandLine
import LambdaCalculus.Proofs.ByteOrder
import LambdaCalculus.Proofs.Resolution
import Mathlib.Data.List.Basic

/-! # Compiling by name

Sources that are compiled together are compiled independently.  Of several sources with one name
only the last is kept.  So only the order of sources with one name matters, and the output for files
is in the order of their names.
-/
namespace LambdaCalculus

variable {φ : Type}

/-! ## Compiling on different machines -/

namespace Machine

/-- Every cell of the first machine is unchanged in the second. -/
def Retains (m m' : Machine φ) : Prop :=
  ∀ (i : Nat) (c : Cell φ), m.cells[i]? = some c → m'.cells[i]? = some c

theorem Retains.refl (m : Machine φ) : m.Retains m := fun _ _ hc => hc

theorem Retains.trans {m m' m'' : Machine φ} (h : m.Retains m') (h' : m'.Retains m'') :
    m.Retains m'' :=
  fun i c hc => h' i c (h i c hc)

theorem Retains.size_le {m m' : Machine φ} (h : m.Retains m') : m.cells.size ≤ m'.cells.size := by
  by_contra hlt
  have hlast := h m'.cells.size _ (Array.getElem?_eq_getElem (by omega))
  obtain ⟨hsize, -⟩ := Array.getElem?_eq_some_iff.mp hlast
  omega

theorem retains_defer (m : Machine φ) (t : Term) (env : Env φ) : m.Retains (m.defer t env).2 := by
  intro i c hc
  have hi : i < m.cells.size := (Array.getElem?_eq_some_iff.mp hc).1
  rw [defer, Array.getElem?_push, if_neg (by omega), hc]

end Machine

namespace Value

def MadeIn (m : Machine φ) : Value φ → Prop
  | .deferred cell => cell < m.cells.size
  | _ => True

/-- A value independent of the index of its cell: a reference to a cell from `old` on is replaced by
the content of the cell, and other values are unchanged. -/
def content (m : Machine φ) (old : Nat) : Value φ → Value φ ⊕ Option (Cell φ)
  | .deferred cell => if cell < old then .inl (.deferred cell) else .inr m.cells[cell]?
  | v => .inl v

theorem MadeIn.content_eq {m : Machine φ} {v : Value φ} (h : v.MadeIn m) (m' : Machine φ) :
    v.content m' m.cells.size = .inl v := by
  cases v with
  | deferred cell => exact if_pos h
  | _ => rfl

theorem content_defer {m m₁ m₂ : Machine φ} {t : Term} {env : Env φ} (h₁ : m.Retains m₁)
    (h₂ : (m₁.defer t env).2.Retains m₂) :
    (m₁.defer t env).1.content m₂ m.cells.size = .inr (some ⟨t, env, none⟩) := by
  have hcell : m₂.cells[m₁.cells.size]? = some ⟨t, env, none⟩ := by
    apply h₂
    rw [Machine.defer, Array.getElem?_push, if_pos rfl]
  have hnew : ¬ m₁.cells.size < m.cells.size := Nat.not_lt.mpr h₁.size_le
  rw [Machine.defer, content, if_neg hnew, hcell]

end Value

structure Compilation.Content (φ : Type) where
  value : Value φ ⊕ Option (Cell φ)
  program : Program
  diagnostics : List Diagnostic

def Compilation.content (c : Compilation φ) (m : Machine φ) (old : Nat) : Content φ :=
  ⟨c.value.content m old, c.program, c.diagnostics⟩

section Alone

variable (globals : Globals φ) (source : String)

def compileAlone (m : Machine φ) : Compilation.Content φ :=
  (compile globals source m).1.content (compile globals source m).2 m.cells.size

theorem compile_of_load : ∃ program diagnostics, ∀ m v m',
    ((Expr.parse source).expr.slots globals.names).load globals.env m = .ok (v, m') →
      compile globals source m = (⟨v, program, diagnostics⟩, m') := by
  obtain ⟨program, problems, h⟩ : ∃ program diagnostics, ∀ m, ∃ v m',
      ((Expr.parse source).expr.slots globals.names).load globals.env m = .ok (v, m') ∧
        compile globals source m = (⟨v, program, diagnostics⟩, m') :=
    ⟨_, _, compile_eq globals source⟩
  refine ⟨program, problems, ?_⟩
  intro m v m' hload
  obtain ⟨w, n, hload', hcompile⟩ := h m
  cases hload.symm.trans hload'
  exact hcompile

/-- Compiling a source returns the same value on every machine and leaves the machine unchanged, or
it adds a cell with the same application. -/
theorem compile_cases :
    (∃ c : Compilation φ, (∀ m, compile globals source m = (c, m)) ∧
      ∀ m, (∀ g ∈ globals, g.2.MadeIn m) → c.value.MadeIn m) ∨
    ∃ t env program diagnostics, ∀ m, compile globals source m =
      (⟨(m.defer t env).1, program, diagnostics⟩, (m.defer t env).2) := by
  obtain ⟨program, problems, hcompile⟩ := compile_of_load globals source
  have hwithin := (Expr.parse source).expr.slots_within globals.names
  cases hslots : (Expr.parse source).expr.slots globals.names with
  | undefined =>
    rw [hslots] at hcompile
    exact .inl ⟨⟨.undefined, program, problems⟩, fun m => hcompile m _ _ rfl, fun _ _ => trivial⟩
  | slot i =>
    rw [hslots, Term.Within, Globals.names, List.length_reverse, List.length_map] at hwithin
    have hi : i < globals.env.length := by simpa [Globals.env] using hwithin
    rw [hslots] at hcompile
    refine .inl ⟨⟨globals.env[i], program, problems⟩, ?_, ?_⟩
    · intro m
      apply hcompile
      rw [Term.load, List.getElem?_eq_getElem hi]
    · intro m hglobals
      have hmem : globals.env[i] ∈ globals.env := List.getElem_mem hi
      obtain ⟨g, hg, hvalue⟩ := List.mem_map.mp (List.mem_reverse.mp hmem)
      exact hvalue ▸ hglobals g hg
  | app f a =>
    rw [hslots] at hcompile
    exact .inr ⟨.app f a, globals.env, program, problems, fun m => hcompile m _ _ rfl⟩
  | lambda body =>
    rw [hslots] at hcompile
    exact .inl ⟨⟨.closure body globals.env, program, problems⟩, fun m => hcompile m _ _ rfl,
      fun _ _ => trivial⟩

theorem retains_compile (m : Machine φ) : m.Retains (compile globals source m).2 := by
  rcases compile_cases globals source with ⟨c, hcompile, -⟩ | ⟨t, env, program, problems, hcompile⟩
  · rw [hcompile]
    exact .refl m
  · rw [hcompile]
    exact m.retains_defer t env

/-- Compiling a source on a later machine, and reading the result on one later still, is the same as
compiling it by itself. -/
theorem content_compile {m m₁ m₂ : Machine φ} (hglobals : ∀ g ∈ globals, g.2.MadeIn m)
    (h₁ : m.Retains m₁) (h₂ : (compile globals source m₁).2.Retains m₂) :
    (compile globals source m₁).1.content m₂ m.cells.size = compileAlone globals source m := by
  rcases compile_cases globals source with
    ⟨c, hcompile, hmade⟩ | ⟨t, env, program, problems, hcompile⟩
  · have hvalue := (hmade m hglobals).content_eq
    rw [compileAlone, hcompile, hcompile, Compilation.content, Compilation.content, hvalue, hvalue]
  · -- Both times there is a new cell, with another number but the same application.
    rw [hcompile] at h₂
    rw [compileAlone, hcompile, hcompile, Compilation.content, Compilation.content,
      Value.content_defer h₁ h₂, Value.content_defer (.refl m) (.refl _)]

end Alone

/-! ## Sources in sequence -/

def lastSource? (sources : List (String × String)) (name : String) : Option String :=
  (sources.filter (·.1 = name)).getLast?.map (·.2)

section Sources

variable {sources : List (String × String)} {name : String}

theorem lastSource?_concat (named : String × String) :
    lastSource? (sources ++ [named]) name =
      if named.1 = name then some named.2 else lastSource? sources name := by
  by_cases hname : named.1 = name <;> simp [lastSource?, hname]

theorem isSome_lastSource? : (lastSource? sources name).isSome ↔ name ∈ sources.map Prod.fst := by
  rw [lastSource?, Option.isSome_map, List.getLast?_isSome, ne_eq, List.filter_eq_nil_iff]
  simp

theorem mem_of_lastSource? {source : String} (h : lastSource? sources name = some source) :
    (name, source) ∈ sources := by
  obtain ⟨⟨other, text⟩, hlast, rfl⟩ := Option.map_eq_some_iff.mp h
  obtain ⟨hmem, hname⟩ := List.mem_filter.mp (List.mem_of_getLast? hlast)
  cases of_decide_eq_true hname
  exact hmem

end Sources

theorem getElem?_insert_name {β : Type} (map : Std.TreeMap String β) (name other : String) (v : β) :
    (map.insert name v)[other]? = if name = other then some v else map[other]? := by
  rw [Std.TreeMap.getElem?_insert]
  simp only [Std.LawfulEqCmp.compare_eq_iff_eq]

def compileLast? (globals : Globals φ) (sources : List (String × String)) (m : Machine φ)
    (name : String) : Option (Compilation.Content φ) :=
  (lastSource? sources name).map (compileAlone globals · m)

namespace Batch

variable {globals : Globals φ} {sources : List (String × String)} {m : Machine φ}

/-- After some sources, the entry of a name is the compilation of its last source by itself, on this
machine and all later ones. -/
structure Holds (globals : Globals φ) (m : Machine φ) (sources : List (String × String))
    (state : Batch φ × Machine φ) : Prop where
  retains : m.Retains state.2
  -- For all later machines, since further sources add cells to this one.
  content_eq : ∀ m', state.2.Retains m' → ∀ name,
    state.1[name]?.map (·.content m' m.cells.size) = compileLast? globals sources m name

theorem Holds.add {state : Batch φ × Machine φ} (h : Holds globals m sources state)
    (hglobals : ∀ g ∈ globals, g.2.MadeIn m) (named : String × String) :
    Holds globals m (sources ++ [named]) (add globals state named) where
  retains := h.retains.trans (retains_compile globals named.2 state.2)
  content_eq := by
    intro m' hm' name
    have hstep := retains_compile globals named.2 state.2
    rw [compileLast?, lastSource?_concat, Batch.add, getElem?_insert_name]
    by_cases hname : named.1 = name
    · rw [if_pos hname, if_pos hname, Option.map_some, Option.map_some,
        content_compile globals named.2 hglobals h.retains hm']
    · rw [if_neg hname, if_neg hname]
      exact h.content_eq m' (hstep.trans hm') name

theorem Holds.foldl_add (hglobals : ∀ g ∈ globals, g.2.MadeIn m) {front : List (String × String)}
    {state : Batch φ × Machine φ} (h : Holds globals m front state) :
    Holds globals m (front ++ sources) (sources.foldl (Batch.add globals) state) := by
  induction sources generalizing front state with
  | nil => simpa using h
  | cons named sources ih => simpa using ih (h.add hglobals named)

theorem holds_compileAll (hglobals : ∀ g ∈ globals, g.2.MadeIn m) :
    Holds globals m sources (compileAll globals sources m) := by
  have hnone : Holds globals m [] (∅, m) := by
    refine ⟨.refl m, ?_⟩
    intro m' hm' name
    rw [Std.TreeMap.getElem?_emptyc]
    rfl
  exact hnone.foldl_add hglobals

theorem Holds.mem_iff {state : Batch φ × Machine φ} (h : Holds globals m sources state)
    (name : String) : name ∈ state.1 ↔ name ∈ sources.map Prod.fst := by
  have hcontent := h.content_eq state.2 (.refl state.2) name
  rw [Std.TreeMap.mem_iff_isSome_getElem?, ← isSome_lastSource?,
    ← Option.isSome_map (f := (·.content state.2 m.cells.size)), hcontent, compileLast?,
    Option.isSome_map]

/-! ## Three maps -/

/-- The parts of compilations by name, with one map for each part. -/
structure Maps (φ : Type) where
  values : Std.TreeMap String (Value φ)
  programs : Std.TreeMap String Program
  diagnostics : Std.TreeMap String (List Diagnostic)

def Maps.add (globals : Globals φ) (state : Maps φ × Machine φ) (named : String × String) :
    Maps φ × Machine φ :=
  let (compilation, m) := compile globals named.2 state.2
  let values := state.1.values.insert named.1 compilation.value
  let programs := state.1.programs.insert named.1 compilation.program
  let diagnostics := state.1.diagnostics.insert named.1 compilation.diagnostics
  (⟨values, programs, diagnostics⟩, m)

def Maps.contents (state : Maps φ × Machine φ) (old : Nat) :
    Std.TreeMap String (Value φ ⊕ Option (Cell φ)) :=
  state.1.values.map fun _ v => v.content state.2 old

def compileApart (globals : Globals φ) (sources : List (String × String)) (m : Machine φ) :
    Maps φ × Machine φ :=
  sources.foldl (Maps.add globals) (⟨∅, ∅, ∅⟩, m)

section Part

variable {β : Type} {part : Compilation φ → β} {batch : Batch φ} {map : Std.TreeMap String β}

def HasPart (batch : Batch φ) (part : Compilation φ → β) (map : Std.TreeMap String β) : Prop :=
  ∀ name : String, map[name]? = batch[name]?.map part

theorem HasPart.insert (h : batch.HasPart part map) (name : String) (c : Compilation φ) :
    HasPart (batch.insert name c) part (map.insert name (part c)) := by
  intro other
  rw [getElem?_insert_name, getElem?_insert_name]
  by_cases hname : name = other
  · rw [if_pos hname, if_pos hname, Option.map_some]
  · rw [if_neg hname, if_neg hname, h other]

theorem HasPart.mem_iff (h : batch.HasPart part map) (name : String) :
    name ∈ map ↔ name ∈ batch := by
  rw [Std.TreeMap.mem_iff_isSome_getElem?, h name, Option.isSome_map,
    Std.TreeMap.mem_iff_isSome_getElem?]

end Part

structure SplitInto (batch : Batch φ) (maps : Maps φ) : Prop where
  values : batch.HasPart (·.value) maps.values
  programs : batch.HasPart (·.program) maps.programs
  diagnostics : batch.HasPart (·.diagnostics) maps.diagnostics

theorem SplitInto.foldl_add {batch : Batch φ} {maps : Maps φ} (h : batch.SplitInto maps) :
    SplitInto (sources.foldl (Batch.add globals) (batch, m)).1
        (sources.foldl (Maps.add globals) (maps, m)).1 ∧
      (sources.foldl (Maps.add globals) (maps, m)).2 =
        (sources.foldl (Batch.add globals) (batch, m)).2 := by
  induction sources generalizing batch maps m with
  | nil => exact ⟨h, rfl⟩
  | cons named sources ih =>
    apply ih
    exact ⟨h.values.insert named.1 _, h.programs.insert named.1 _, h.diagnostics.insert named.1 _⟩

theorem splitInto_compileApart (globals : Globals φ) (sources : List (String × String))
    (m : Machine φ) :
    SplitInto (compileAll globals sources m).1 (compileApart globals sources m).1 ∧
      (compileApart globals sources m).2 = (compileAll globals sources m).2 := by
  have hnone : SplitInto (∅ : Batch φ) ⟨∅, ∅, ∅⟩ := by
    constructor <;> intro name <;> simp
  exact hnone.foldl_add

section

variable (hglobals : ∀ g ∈ globals, g.2.MadeIn m)
include hglobals

/-- Each map holds the parts of the last sources compiled by themselves. -/
theorem getElem?_compileApart (sources : List (String × String)) (name : String) :
    (Maps.contents (compileApart globals sources m) m.cells.size)[name]? =
      (compileLast? globals sources m name).map (·.value) ∧
    (compileApart globals sources m).1.programs[name]? =
      (compileLast? globals sources m name).map (·.program) ∧
    (compileApart globals sources m).1.diagnostics[name]? =
      (compileLast? globals sources m name).map (·.diagnostics) := by
  have hholds : Holds globals m sources (compileAll globals sources m) := holds_compileAll hglobals
  have hlast := hholds.content_eq _ (.refl _) name
  obtain ⟨hsplit, hmachine⟩ := splitInto_compileApart globals sources m
  rw [← hlast, Option.map_map, Option.map_map, Option.map_map]
  refine ⟨?_, hsplit.programs name, hsplit.diagnostics name⟩
  rw [Maps.contents, Std.TreeMap.getElem?_map, hsplit.values name, hmachine, Option.map_map]
  rfl

theorem lists_keys_compileApart (sources : List (String × String)) :
    Text.Lists (compileApart globals sources m).1.values.keys (sources.map Prod.fst) ∧
    Text.Lists (compileApart globals sources m).1.programs.keys (sources.map Prod.fst) ∧
    Text.Lists (compileApart globals sources m).1.diagnostics.keys (sources.map Prod.fst) := by
  have hholds : Holds globals m sources (compileAll globals sources m) := holds_compileAll hglobals
  obtain ⟨hsplit, -⟩ := splitInto_compileApart globals sources m
  exact ⟨Text.lists_keys fun name => (hsplit.values.mem_iff name).trans (hholds.mem_iff name),
    Text.lists_keys fun name => (hsplit.programs.mem_iff name).trans (hholds.mem_iff name),
    Text.lists_keys fun name => (hsplit.diagnostics.mem_iff name).trans (hholds.mem_iff name)⟩

/-- The order of sources with different names does not matter. -/
theorem toList_compileApart {sources sources' : List (String × String)}
    (h : ∀ name, sources'.filter (·.1 = name) = sources.filter (·.1 = name)) :
    (Maps.contents (compileApart globals sources' m) m.cells.size).toList =
      (Maps.contents (compileApart globals sources m) m.cells.size).toList ∧
    (compileApart globals sources' m).1.programs.toList =
      (compileApart globals sources m).1.programs.toList ∧
    (compileApart globals sources' m).1.diagnostics.toList =
      (compileApart globals sources m).1.diagnostics.toList := by
  have hlast (name : String) :
      compileLast? globals sources' m name = compileLast? globals sources m name := by
    rw [compileLast?, compileLast?, lastSource?, lastSource?, h name]
  refine ⟨?_, ?_, ?_⟩ <;>
    refine Std.TreeMap.Equiv.toList_eq (Std.TreeMap.Equiv.of_forall_constGet?_eq fun name => ?_)
  · rw [(getElem?_compileApart hglobals sources' name).1,
      (getElem?_compileApart hglobals sources name).1, hlast]
  · rw [(getElem?_compileApart hglobals sources' name).2.1,
      (getElem?_compileApart hglobals sources name).2.1, hlast]
  · rw [(getElem?_compileApart hglobals sources' name).2.2,
      (getElem?_compileApart hglobals sources name).2.2, hlast]

end

end Batch

/-! ## Files -/

namespace CommandLine

theorem readAll_eq {read : String → Except ReadError String} {names : List String}
    {text : String → String} (h : ∀ name ∈ names, read name = .ok (text name)) :
    readAll read names = .ok (names.map fun name => (name, text name)) := by
  induction names with
  | nil => rfl
  | cons name names ih =>
    have hrest := ih fun other hother => h other (List.mem_cons_of_mem name hother)
    rw [readAll, h name List.mem_cons_self, hrest]
    rfl

section Files

variable {names : List String} {text : String → String}

def compiled (text : String → String) (name : String) : Compilation Empty :=
  (compile [] (text name) .empty).1

section

variable {state : Batch Empty × Machine Empty}
    (h : Batch.Holds [] .empty (names.map fun name => (name, text name)) state)
include h

theorem program_and_diagnostics_of_mem {name : String} {c : Compilation Empty}
    (hc : (name, c) ∈ state.1.toList) :
    c.program = (compiled text name).program ∧
      c.diagnostics = (compiled text name).diagnostics := by
  have hcontent := h.content_eq state.2 (.refl state.2) name
  rw [Std.TreeMap.mem_toList_iff_getElem?_eq_some.mp hc, Option.map_some] at hcontent
  obtain ⟨source, hlast, halone⟩ := Option.map_eq_some_iff.mp hcontent.symm
  obtain ⟨file, -, hsource⟩ := List.mem_map.mp (mem_of_lastSource? hlast)
  cases hsource
  exact ⟨congrArg (·.program) halone.symm, congrArg (·.diagnostics) halone.symm⟩

theorem lists_keys_of_holds : Text.Lists state.1.keys names := by
  apply Text.lists_keys
  intro name
  rw [h.mem_iff name, List.map_map]
  simp

theorem batchProblems_eq : batchProblems state.1 = state.1.keys.flatMap fun name =>
    (compiled text name).diagnostics.map fun d => .err (name ++ ":" ++ d.text ++ "\n") := by
  rw [batchProblems, ← Std.TreeMap.map_fst_toList_eq_keys, List.flatMap_map]
  apply List.flatMap_congr
  rintro ⟨name, c⟩ hc
  dsimp only
  rw [(program_and_diagnostics_of_mem h hc).2]

theorem batchCode_eq : batchCode state.1 = state.1.keys.map fun name =>
    .out (name ++ ": " ++ (compiled text name).program.code.render ++ "\n") := by
  rw [batchCode, ← Std.TreeMap.map_fst_toList_eq_keys, List.map_map]
  apply List.map_congr_left
  rintro ⟨name, c⟩ hc
  dsimp only [Function.comp_apply]
  rw [(program_and_diagnostics_of_mem h hc).1]

theorem isOk_iff : state.1.isOk = true ↔ ∀ name ∈ names, (compiled text name).diagnostics = [] := by
  have hnames : ∀ name, name ∈ state.1.toList.map Prod.fst ↔ name ∈ names := by
    rw [Std.TreeMap.map_fst_toList_eq_keys]
    exact (lists_keys_of_holds h).mem_iff
  rw [Batch.isOk, List.all_eq_true]
  constructor
  · intro hok name hname
    obtain ⟨⟨name, c⟩, hc, rfl⟩ := List.mem_map.mp ((hnames name).mpr hname)
    rw [← (program_and_diagnostics_of_mem h hc).2]
    exact List.isEmpty_iff.mp (hok (name, c) hc)
  · rintro hok ⟨name, c⟩ hc
    have hname : name ∈ names := (hnames name).mp (List.mem_map_of_mem hc)
    rw [Compilation.isOk, (program_and_diagnostics_of_mem h hc).2, hok name hname, List.isEmpty_nil]

end

/-- If all files can be read, their compilations are printed in the order of the names: all code, or
all diagnostics if there are any. -/
theorem runFiles_eq {read : String → Except ReadError String}
    (h : ∀ name ∈ names, read name = .ok (text name)) :
    ∃ order, Text.Lists order names ∧
      ((∀ name ∈ names, (compiled text name).diagnostics = []) →
        runFiles read names = ⟨0, order.map fun name =>
          .out (name ++ ": " ++ (compiled text name).program.code.render ++ "\n")⟩) ∧
      ((∃ name ∈ names, (compiled text name).diagnostics ≠ []) →
        runFiles read names = ⟨1, order.flatMap fun name =>
          (compiled text name).diagnostics.map fun d => .err (name ++ ":" ++ d.text ++ "\n")⟩) := by
  have hholds : Batch.Holds [] .empty (names.map fun name => (name, text name))
      (compileAll [] (names.map fun name => (name, text name)) (.empty : Machine Empty)) :=
    Batch.holds_compileAll (by simp)
  refine ⟨_, lists_keys_of_holds hholds, ?_, ?_⟩
  · intro hok
    rw [runFiles, readAll_eq h]
    dsimp only [compileSources]
    rw [if_pos ((isOk_iff hholds).mpr hok), batchCode_eq hholds]
  · rintro ⟨name, hname, hproblem⟩
    rw [runFiles, readAll_eq h]
    dsimp only [compileSources]
    rw [if_neg, batchProblems_eq hholds]
    intro hok
    exact hproblem ((isOk_iff hholds).mp hok name hname)

theorem stdout_eq_empty {outcome : Outcome} (h : ∀ o ∈ outcome.output, o.outText = "") :
    outcome.stdout = "" := by
  obtain ⟨exit, output⟩ := outcome
  have hnone : output.map (·.outText) = List.replicate output.length "" :=
    List.eq_replicate_iff.mpr ⟨List.length_map _, by simpa using h⟩
  rw [Outcome.stdout, hnone]
  induction output.length with
  | zero => rfl
  | succ n ih => exact ih

end Files

end CommandLine

/-- Sources that are compiled together are compiled independently.  The maps of values, programs and
diagnostics have the source names as keys, in byte order, and hold the compilation of the last
source of each name; so they are invariant under exchanging sources with different names.  The
output for readable files is that of compiling each by itself: all diagnostics if there are any, and
otherwise the code of every file, in the order of the names. -/
theorem batch_compiles_each_name (globals : Globals φ) (m : Machine φ)
    (hglobals : ∀ g ∈ globals, g.2.MadeIn m) :
    (∀ sources : List (String × String),
      let state := Batch.compileApart globals sources m
      (compileAll globals sources m).1.SplitInto state.1 ∧
      (∃ order, Text.Lists order (sources.map Prod.fst) ∧ state.1.values.keys = order ∧
        state.1.programs.keys = order ∧ state.1.diagnostics.keys = order) ∧
      (∀ name, (Batch.Maps.contents state m.cells.size)[name]? =
          (compileLast? globals sources m name).map (·.value) ∧
        state.1.programs[name]? = (compileLast? globals sources m name).map (·.program) ∧
        state.1.diagnostics[name]? = (compileLast? globals sources m name).map (·.diagnostics)) ∧
      ∀ sources', (∀ name, sources'.filter (·.1 = name) = sources.filter (·.1 = name)) →
        let state' := Batch.compileApart globals sources' m
        (Batch.Maps.contents state' m.cells.size).toList =
          (Batch.Maps.contents state m.cells.size).toList ∧
        state'.1.programs.toList = state.1.programs.toList ∧
        state'.1.diagnostics.toList = state.1.diagnostics.toList) ∧
    ∀ (read : String → Except ReadError String) (names : List String) (text : String → String),
      (∀ name ∈ names, read name = .ok (text name)) →
      ∃ order, Text.Lists order names ∧
        ((CommandLine.runFiles read names).exit = 1 ↔
          ∃ name ∈ names, (CommandLine.compiled text name).diagnostics ≠ []) ∧
        ((CommandLine.runFiles read names).exit = 1 →
          (CommandLine.runFiles read names).stdout = "" ∧
          CommandLine.runFiles read names = ⟨1, order.flatMap fun name =>
            (CommandLine.compiled text name).diagnostics.map fun d =>
              .err (name ++ ":" ++ d.text ++ "\n")⟩) ∧
        ((CommandLine.runFiles read names).exit ≠ 1 →
          CommandLine.runFiles read names = ⟨0, order.map fun name => .out
            (name ++ ": " ++ (CommandLine.compiled text name).program.code.render ++ "\n")⟩) := by
  refine ⟨fun sources => ⟨(Batch.splitInto_compileApart globals sources m).1, ?_,
    Batch.getElem?_compileApart hglobals sources,
    fun sources' => Batch.toList_compileApart hglobals⟩, ?_⟩
  · obtain ⟨hvalues, hprograms, hproblems⟩ := Batch.lists_keys_compileApart hglobals sources
    exact ⟨_, hvalues, rfl, hprograms.unique hvalues, hproblems.unique hvalues⟩
  · intro read names text hread
    obtain ⟨order, horder, hcode, hproblems⟩ := CommandLine.runFiles_eq hread
    refine ⟨order, horder, ?_⟩
    by_cases hok : ∀ name ∈ names, (CommandLine.compiled text name).diagnostics = []
    · rw [hcode hok]
      simpa using hok
    · have hproblem : ∃ name ∈ names, (CommandLine.compiled text name).diagnostics ≠ [] := by
        simpa using hok
      rw [hproblems hproblem]
      refine ⟨by simpa using hproblem, fun _ => ⟨CommandLine.stdout_eq_empty ?_, rfl⟩, by simp⟩
      intro o ho
      obtain ⟨name, -, ho⟩ := List.mem_flatMap.mp ho
      obtain ⟨d, -, rfl⟩ := List.mem_map.mp ho
      rfl

/-- A source with a diagnostic has no effect if another with its name follows, and a deferred global
is referred to, not copied.  Each file name is reported once. -/
theorem batch_compiles_each_name_repeated :
    let m : Machine Empty := ⟨#[⟨.app .undefined .undefined, [], none⟩], []⟩
    let globals : Globals Empty := [("f", .deferred 0)]
    let state := Batch.compileApart globals [("b", "f y"), ("a", "f f"), ("b", "f")] m
    let state' := Batch.compileApart globals [("a", "f f"), ("b", "f y"), ("b", "f")] m
    let text (name : String) := if name = "é" then "\\x. y" else "\\x. x"
    (Batch.Maps.contents state 1)["a"]? =
      some (.inr (some ⟨.app (.slot 0) (.slot 0), [.deferred 0], none⟩)) ∧
    (Batch.Maps.contents state 1)["b"]? = some (.inl (.deferred 0)) ∧
    state.1.diagnostics["b"]? = some [] ∧
    state'.1.programs.toList = state.1.programs.toList ∧
    CommandLine.runFiles (fun name => .ok (text name)) ["é", "z", "é"] =
      ⟨1, [.err "é:1:5: unresolved variable `y`\n"]⟩ ∧
    CommandLine.runFiles (fun name => .ok (text name)) ["z", "a", "z"] =
      ⟨0, [.out "a: (|$x| $x)\n", .out "z: (|$x| $x)\n"]⟩ := by
  intro m globals state state' text
  have hglobals : ∀ g ∈ globals, g.2.MadeIn m := by
    intro g hg
    cases List.mem_singleton.mp hg
    exact Nat.zero_lt_one
  obtain ⟨hsources, hfiles⟩ := batch_compiles_each_name globals m hglobals
  obtain ⟨-, -, hlast, horder⟩ := hsources [("b", "f y"), ("a", "f f"), ("b", "f")]
  have hnames : Text.Lists ["z", "é"] ["é", "z", "é"] := ⟨by decide, by simp⟩
  have hnames' : Text.Lists ["a", "z"] ["z", "a", "z"] := ⟨by decide, by simp⟩
  have horder' := horder [("a", "f f"), ("b", "f y"), ("b", "f")] fun name => by
    by_cases ha : "a" = name
    · cases ha
      decide
    · simp [List.filter_cons, ha]
  refine ⟨(hlast "a").1.trans rfl, (hlast "b").1.trans rfl, (hlast "b").2.2.trans rfl, horder'.2.1,
    ?_, ?_⟩
  · obtain ⟨order, hlists, hexit, hproblems, -⟩ := hfiles _ ["é", "z", "é"] text fun _ _ => rfl
    cases hlists.unique hnames
    exact (hproblems (hexit.mpr ⟨"é", by simp, by decide⟩)).2.trans (by decide)
  · obtain ⟨order, hlists, hexit, -, hcode⟩ := hfiles _ ["z", "a", "z"] text fun _ _ => rfl
    cases hlists.unique hnames'
    refine (hcode ?_).trans (by decide)
    rw [ne_eq, hexit]
    decide

end LambdaCalculus
