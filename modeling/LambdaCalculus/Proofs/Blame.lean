import LambdaCalculus.Proofs.Resolution

/-! # Errors of loading

Code need not be generated from a text: it can be built by hand, with arbitrary names.  Loading it
fails in two cases only: the numbers of values and globals differ, or a variable is unbound, and the
error then names the leftmost such variable of the printed code.  All other code is loaded, with
every variable bound to the innermost binding of its name.
-/
namespace LambdaCalculus

namespace Code

/-! ## Occurrences in printed code -/

theorem toList_render (c : Code) : c.render.toList = c.renderOnto [] := String.toList_ofList

theorem toList_render_app (f a : Code) :
    (Code.app f a).render.toList = f.render.toList ++ '(' :: (a.render.toList ++ [')']) := by
  rw [toList_render, toList_render, toList_render, renderOnto, renderOnto_eq f, renderOnto_eq a]

theorem toList_render_closure (p : String) (body : Code) :
    (Code.closure p body).render.toList =
      '(' :: '|' :: (p.toList ++ '|' :: ' ' :: (body.render.toList ++ [')'])) := by
  rw [toList_render, toList_render, renderOnto, renderOnto_eq body]

/-- Some code has a part after the given text, inside closures with the given parameters, innermost
first. -/
inductive Holds : Code → List Char → List String → Code → Prop where
  | whole {c : Code} : Holds c [] [] c
  | callee {f a part : Code} {before : List Char} {inner : List String} :
      Holds f before inner part → Holds (.app f a) before inner part
  | argument {f a part : Code} {before : List Char} {inner : List String} :
      Holds a before inner part → Holds (.app f a) (f.render.toList ++ '(' :: before) inner part
  | body {p : String} {body part : Code} {before : List Char} {inner : List String} :
      Holds body before inner part →
      Holds (.closure p body) ('(' :: '|' :: (p.toList ++ '|' :: ' ' :: before)) (inner ++ [p]) part

/-- The text of a part occurs in the text of the whole, right after the text before it. -/
theorem Holds.exists_render {c part : Code} {before : List Char} {inner : List String}
    (h : c.Holds before inner part) :
    ∃ after, c.render.toList = before ++ part.render.toList ++ after := by
  induction h with
  | whole => exact ⟨[], by simp⟩
  | callee _ ih =>
    obtain ⟨after, hf⟩ := ih
    exact ⟨after ++ '(' :: _, by rw [toList_render_app, hf, List.append_assoc]⟩
  | argument _ ih =>
    obtain ⟨after, ha⟩ := ih
    exact ⟨after ++ [')'], by rw [toList_render_app, ha]; simp⟩
  | body _ ih =>
    obtain ⟨after, hbody⟩ := ih
    exact ⟨after ++ [')'], by rw [toList_render_closure, hbody]; simp⟩

/-- A variable after the text `before` that is bound neither by an enclosing closure nor by a
global. -/
def Unbound (globals : List String) (c : Code) (before : List Char) (name : String) : Prop :=
  ∃ inner, c.Holds before inner (.var name) ∧ name ∉ inner ∧ name ∉ globals

/-- `name` is the leftmost unbound variable. -/
def Blames (globals : List String) (c : Code) (name : String) : Prop :=
  ∃ before, c.Unbound globals before name ∧
    ∀ before' name', c.Unbound globals before' name' → before.length ≤ before'.length

section

variable {bound : List String} {c f a body : Code} {before : List Char} {name p : String}

theorem unbound_undefined : ¬ Code.undefined.Unbound bound before name := by
  rintro ⟨inner, h, -⟩
  cases h

theorem unbound_var {x : String} :
    (Code.var x).Unbound bound before name ↔ before = [] ∧ name = x ∧ x ∉ bound := by
  constructor
  · rintro ⟨inner, h, -, hbound⟩
    cases h
    exact ⟨rfl, rfl, hbound⟩
  · rintro ⟨rfl, rfl, hbound⟩
    exact ⟨[], .whole, by simp, hbound⟩

theorem unbound_app :
    (Code.app f a).Unbound bound before name ↔
      f.Unbound bound before name ∨
        ∃ rest, before = f.render.toList ++ '(' :: rest ∧ a.Unbound bound rest name := by
  constructor
  · rintro ⟨inner, h, hname⟩
    cases h with
    | callee h => exact .inl ⟨inner, h, hname⟩
    | argument h => exact .inr ⟨_, rfl, inner, h, hname⟩
  · rintro (⟨inner, h, hname⟩ | ⟨rest, rfl, inner, h, hname⟩)
    · exact ⟨inner, .callee h, hname⟩
    · exact ⟨inner, .argument h, hname⟩

theorem unbound_closure :
    (Code.closure p body).Unbound bound before name ↔
      ∃ rest, before = '(' :: '|' :: (p.toList ++ '|' :: ' ' :: rest) ∧
        body.Unbound (p :: bound) rest name := by
  constructor
  · rintro ⟨inner, h, hinner, hbound⟩
    cases h with
    | body h =>
      simp only [List.mem_append, List.mem_singleton, not_or] at hinner
      exact ⟨_, rfl, _, h, hinner.1, by simp [hinner.2, hbound]⟩
  · rintro ⟨rest, rfl, inner, h, hinner, hbound⟩
    simp only [List.mem_cons, not_or] at hbound
    exact ⟨inner ++ [p], .body h, by simp [hinner, hbound.1], hbound.2⟩

theorem Unbound.length_le (h : c.Unbound bound before name) :
    before.length ≤ c.render.toList.length := by
  obtain ⟨inner, hholds, -⟩ := h
  obtain ⟨after, hrender⟩ := hholds.exists_render
  simp only [hrender, List.length_append]
  omega

/-! ## The leftmost unbound name -/

theorem free_eq_nil_iff : c.free bound = [] ↔ ∀ before name, ¬ c.Unbound bound before name := by
  induction c generalizing bound with
  | undefined => simp [unbound_undefined]
  | var x => simp [free_var, unbound_var]
  | app f a hf ha =>
    rw [free_app, List.append_eq_nil_iff, hf, ha]
    simp only [unbound_app, not_or, not_exists, not_and]
    constructor
    · exact fun h before name => ⟨h.1 before name, fun rest _ => h.2 rest name⟩
    · exact fun h => ⟨fun before name => (h before name).1,
        fun rest name => (h _ name).2 rest rfl⟩
  | closure p body ih =>
    rw [free_closure, ih]
    simp only [unbound_closure, not_exists, not_and]
    constructor
    · exact fun h before name rest _ => h rest name
    · exact fun h rest name => h _ name rest rfl

/-- The first free name is the leftmost unbound variable. -/
theorem blames_of_free {rest : List String} (h : c.free bound = name :: rest) :
    c.Blames bound name := by
  induction c generalizing bound rest with
  | undefined => cases h
  | var x =>
    rw [free_var] at h
    split at h
    · cases h
    · rename_i hbound
      cases h
      exact ⟨[], unbound_var.mpr ⟨rfl, rfl, hbound⟩, by simp⟩
  | app f a hf ha =>
    rw [free_app] at h
    cases hfree : f.free bound with
    | nil =>
      rw [hfree] at h
      obtain ⟨before, hbefore, hfirst⟩ := ha h
      refine ⟨_, unbound_app.mpr (.inr ⟨before, rfl, hbefore⟩), ?_⟩
      intro before' name' h'
      rcases unbound_app.mp h' with hcallee | ⟨rest', rfl, hargument⟩
      · exact absurd hcallee (free_eq_nil_iff.mp hfree before' name')
      · simpa using hfirst rest' name' hargument
    | cons x names =>
      rw [hfree] at h
      obtain ⟨rfl, -⟩ := List.cons.inj h
      obtain ⟨before, hbefore, hfirst⟩ := hf hfree
      refine ⟨before, unbound_app.mpr (.inl hbefore), ?_⟩
      intro before' name' h'
      rcases unbound_app.mp h' with hcallee | ⟨rest', rfl, -⟩
      · exact hfirst before' name' hcallee
      · -- The callee is printed in full before the argument.
        have hle := hbefore.length_le
        rw [List.length_append]
        omega
  | closure p body ih =>
    obtain ⟨before, hbefore, hfirst⟩ := ih h
    refine ⟨_, unbound_closure.mpr ⟨before, rfl, hbefore⟩, ?_⟩
    intro before' name' h'
    obtain ⟨rest', rfl, hbody⟩ := unbound_closure.mp h'
    simpa using hfirst rest' name' hbody

/-- No two variables are at the same place of the printed code, even if their names are empty. -/
theorem Unbound.name_eq {before' : List Char} {name' : String} (h : c.Unbound bound before name)
    (h' : c.Unbound bound before' name') (hlength : before.length = before'.length) :
    name = name' := by
  induction c generalizing bound before before' with
  | undefined => exact absurd h unbound_undefined
  | var x => rw [(unbound_var.mp h).2.1, (unbound_var.mp h').2.1]
  | app f a hf ha =>
    rcases unbound_app.mp h with hcallee | ⟨rest, rfl, hargument⟩ <;>
      rcases unbound_app.mp h' with hcallee' | ⟨rest', rfl, hargument'⟩
    · exact hf hcallee hcallee' hlength
    · have hle := hcallee.length_le
      simp only [List.length_append, List.length_cons] at hlength
      omega
    · have hle := hcallee'.length_le
      simp only [List.length_append, List.length_cons] at hlength
      omega
    · exact ha hargument hargument' (by simpa using hlength)
  | closure p body ih =>
    obtain ⟨rest, rfl, hbody⟩ := unbound_closure.mp h
    obtain ⟨rest', rfl, hbody'⟩ := unbound_closure.mp h'
    exact ih hbody hbody' (by simpa using hlength)

theorem Blames.exists_unbound (h : c.Blames bound name) :
    ∃ before, c.Unbound bound before name := by
  obtain ⟨before, hbefore, -⟩ := h
  exact ⟨before, hbefore⟩

theorem Blames.unique {name' : String} (h : c.Blames bound name) (h' : c.Blames bound name') :
    name = name' := by
  obtain ⟨before, hbefore, hfirst⟩ := h
  obtain ⟨before', hbefore', hfirst'⟩ := h'
  exact hbefore.name_eq hbefore' (Nat.le_antisymm (hfirst _ _ hbefore') (hfirst' _ _ hbefore))

end

/-! ## Terms of bound code -/

/-- Some code denotes a term in the scope of the given names, innermost first: a variable denotes
the slot of the innermost binding of its name. -/
inductive StandsFor : List String → Code → Term → Prop where
  | undefined {names : List String} : StandsFor names .undefined .undefined
  | var {inside outside : List String} {name : String} :
      name ∉ inside → StandsFor (inside ++ name :: outside) (.var name) (.slot inside.length)
  | app {names : List String} {f a : Code} {callee argument : Term} :
      StandsFor names f callee → StandsFor names a argument →
      StandsFor names (.app f a) (.app callee argument)
  | closure {names : List String} {p : String} {c : Code} {body : Term} :
      StandsFor (p :: names) c body → StandsFor names (.closure p c) (.lambda body)

theorem idxOf?_of_notMem {inside : List String} {name : String} (h : name ∉ inside)
    (outside : List String) : (inside ++ name :: outside).idxOf? name = some inside.length := by
  induction inside with
  | nil => simp [List.idxOf?_cons]
  | cons x inside ih =>
    obtain ⟨hx, hinside⟩ := List.ne_and_not_mem_of_not_mem_cons h
    rw [List.cons_append, List.idxOf?_cons, ih hinside]
    simp [Ne.symm hx]

/-- Code without free names denotes its term. -/
theorem standsFor_term {names : List String} {c : Code} (h : c.free names = []) :
    StandsFor names c (c.term names) := by
  induction c generalizing names with
  | undefined => exact .undefined
  | var name =>
    have hmem : name ∈ names := by
      by_contra hnot
      simp [free_var, hnot] at h
    obtain ⟨inside, outside, rfl, hinside⟩ := List.eq_append_cons_of_mem hmem
    rw [term_var, idxOf?_of_notMem hinside]
    exact .var hinside
  | app f a hf ha =>
    rw [free_app, List.append_eq_nil_iff] at h
    rw [term_app]
    exact .app (hf h.1) (ha h.2)
  | closure p body ih => exact .closure (ih h)

end Code

/-! ## Loading -/

variable {φ : Type}

/-- The value that code without unbound variables is loaded as.  Nothing is evaluated, and the
machine changes only by a new cell for an application. -/
inductive Code.LoadedAs (globals : Globals φ) (m : Machine φ) :
    Code → Value φ → Machine φ → Prop where
  | undefined : LoadedAs globals m .undefined .undefined m
  /-- Of several globals with one name the last is referred to. -/
  | global {name : String} {v : Value φ} {front back : Globals φ} :
      globals = front ++ (name, v) :: back → name ∉ back.map Prod.fst →
      LoadedAs globals m (.var name) v m
  | deferred {f a : Code} {t : Term} :
      (Code.app f a).StandsFor globals.names t →
      LoadedAs globals m (.app f a) (.deferred m.cells.size)
        { m with cells := m.cells.push ⟨t, globals.env, none⟩ }
  | closure {p : String} {c : Code} {body : Term} :
      c.StandsFor (p :: globals.names) body →
      LoadedAs globals m (.closure p c) (.closure body globals.env) m

/-- The slot of a name in scope holds the value of the last global of that name. -/
theorem Globals.exists_last {globals : Globals φ} {inside outside : List String} {name : String}
    (h : globals.names = inside ++ name :: outside) :
    ∃ v front back, globals = front ++ (name, v) :: back ∧ back.map Prod.fst = inside.reverse ∧
      globals.env[inside.length]? = some v := by
  rw [names_eq_reverse_map] at h
  obtain ⟨last, rest, hsplit, rfl, hrest⟩ := List.map_eq_append_iff.mp h
  obtain ⟨⟨x, v⟩, first, rfl, rfl, -⟩ := List.map_eq_cons_iff.mp hrest
  refine ⟨v, first.reverse, last.reverse, ?_, by simp, ?_⟩
  · rw [← List.reverse_inj, hsplit]
    simp
  · rw [env_eq_reverse_map, hsplit]
    simp

theorem Code.StandsFor.exists_load {globals : Globals φ} {c : Code} {t : Term}
    (h : c.StandsFor globals.names t) (m : Machine φ) :
    ∃ v m', t.load globals.env m = .ok (v, m') ∧ c.LoadedAs globals m v m' := by
  generalize hnames : globals.names = names at h
  cases h with
  | undefined => exact ⟨_, _, rfl, .undefined⟩
  | var hinside =>
    obtain ⟨v, front, back, hglobals, hback, hv⟩ := Globals.exists_last hnames
    refine ⟨v, m, by simp [Term.load, hv], .global hglobals ?_⟩
    simpa [hback] using hinside
  | app hf ha => exact ⟨_, _, rfl, .deferred (hnames ▸ .app hf ha)⟩
  | closure hbody => exact ⟨_, _, rfl, .closure (hnames ▸ hbody)⟩

section Load

variable (p : Program) (values : List (Value φ)) (m : Machine φ)

/-- If the numbers of values and globals agree, loading fails at the leftmost unbound name, or
nothing is unbound. -/
theorem Program.load_cases_of_length (h : p.globals.length = values.length) :
    (∃ name, p.load values m = .error (.unboundName name) ∧ p.code.Blames p.globals name) ∨
    (∀ before name, ¬ p.code.Unbound p.globals before name) ∧
      ∃ v m', p.load values m = .ok (v, m') ∧ p.code.LoadedAs (p.globals.zip values) m v m' := by
  have hunbound (before : List Char) (name : String) :
      p.code.Unbound p.globals.reverse before name ↔ p.code.Unbound p.globals before name := by
    simp only [Code.Unbound, List.mem_reverse]
  have hnames : Globals.names (p.globals.zip values) = p.globals.reverse := by
    rw [Globals.names, List.map_fst_zip (Nat.le_of_eq h)]
  have henv : Globals.env (p.globals.zip values) = values.reverse := by
    rw [Globals.env, List.map_snd_zip (Nat.le_of_eq h.symm)]
  rw [load, if_pos h, Code.resolve_eq]
  cases hfree : p.code.free p.globals.reverse with
  | nil =>
    have hstands := Code.standsFor_term hfree
    rw [← hnames] at hstands
    obtain ⟨v, m', hload, hloaded⟩ := hstands.exists_load m
    rw [hnames, henv] at hload
    refine .inr ⟨fun before name => ?_, v, m', hload, hloaded⟩
    rw [← hunbound]
    exact Code.free_eq_nil_iff.mp hfree before name
  | cons name rest =>
    refine .inl ⟨name, rfl, ?_⟩
    simpa only [Code.Blames, hunbound] using Code.blames_of_free hfree

/-- Loading fails iff the numbers of globals and values differ, or else some variable is unbound,
and the error then names the leftmost one of the printed code.  Otherwise it returns a value without
evaluating anything. -/
theorem loading_blames_leftmost :
    (∀ expected found, p.load values m = .error (.globalCount expected found) ↔
      p.globals.length ≠ values.length ∧
        expected = p.globals.length ∧ found = values.length) ∧
    (p.globals.length = values.length →
      ((∃ name, p.load values m = .error (.unboundName name)) ↔
        ∃ before name, p.code.Unbound p.globals before name) ∧
      (∀ name, p.load values m = .error (.unboundName name) ↔ p.code.Blames p.globals name) ∧
      ((∀ before name, ¬ p.code.Unbound p.globals before name) →
        ∃ v m', p.load values m = .ok (v, m') ∧
          p.code.LoadedAs (p.globals.zip values) m v m')) ∧
    ∀ before inner part, p.code.Holds before inner part →
      ∃ after, p.code.render.toList = before ++ part.render.toList ++ after := by
  refine ⟨fun expected found => ?_, fun hlength => ?_, fun _ _ _ h => h.exists_render⟩
  · by_cases hlength : p.globals.length = values.length
    · rcases p.load_cases_of_length values m hlength with
        ⟨name, hload, -⟩ | ⟨-, v, m', hload, -⟩ <;> simp [hload, hlength]
    · simp [Program.load, hlength, eq_comm]
  · rcases p.load_cases_of_length values m hlength with
      ⟨name, hload, hblames⟩ | ⟨hbound, v, m', hload, hloaded⟩
    · obtain ⟨before, hunbound⟩ := hblames.exists_unbound
      refine ⟨⟨fun _ => ⟨before, name, hunbound⟩, fun _ => ⟨name, hload⟩⟩, fun name' => ?_, ?_⟩
      · rw [hload]
        constructor
        · intro h
          cases h
          exact hblames
        · intro h
          rw [hblames.unique h]
      · exact fun hnone => absurd hunbound (hnone before name)
    · refine ⟨?_, fun name => ?_, fun _ => ⟨v, m', hload, hloaded⟩⟩
      · simp [hload, hbound]
      · rw [hload]
        constructor
        · intro h
          cases h
        · intro h
          obtain ⟨before, hunbound⟩ := h.exists_unbound
          exact absurd hunbound (hbound before name)

end Load

/-- The parameter of the callee is out of scope in the argument, where it occurs before `z`. -/
theorem loading_blames_leftmost_argument :
    (Code.app (.closure "x" (.var "x")) (.app (.var "x") (.var "z"))).Blames ["y"] "x" ∧
    (Code.app (.closure "x" (.var "x")) (.app (.var "x") (.var "z"))).render = "(|x| x)(x(z))" := by
  obtain ⟨-, hloading, -⟩ := loading_blames_leftmost (φ := Empty)
    ⟨.app (.closure "x" (.var "x")) (.app (.var "x") (.var "z")), ["y"]⟩ [.atom "a"] .empty
  obtain ⟨-, hblames, -⟩ := hloading rfl
  exact ⟨(hblames "x").mp rfl, rfl⟩

-- Of two globals with one name the last is referred to, and a deferred value is not forced.
example (m : Machine Empty) :
    (Program.mk (.var "x") ["x", "y", "x"]).load [.atom "a", .atom "b", .deferred 0] m =
      .ok (.deferred 0, m) :=
  rfl

end LambdaCalculus
