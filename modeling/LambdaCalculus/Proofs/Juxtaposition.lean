import LambdaCalculus.Proofs.Enclosing
import LambdaCalculus.Proofs.Slots

/-! # Application in a text and by the host

A text of adjacent identifiers denotes the application of the first value to the others.  A host can
also apply the values itself, without a text.  Forcing the text does the same, but one level of
depth below, since the chain uses one, and with a cell for the text to which no value refers.
-/
namespace LambdaCalculus

variable {φ : Type}

/-! ## Further cells -/

namespace Machine

variable {m : Machine φ} {i : Nat}

def extended (m : Machine φ) (extra : Array (Cell φ)) : Machine φ :=
  { m with cells := m.cells ++ extra }

theorem extended_empty (m : Machine φ) : m.extended #[] = m := by
  simp [extended]

theorem size_extended (m : Machine φ) (extra : Array (Cell φ)) :
    (m.extended extra).cells.size = m.cells.size + extra.size :=
  Array.size_append

theorem defer_eq_extended (m : Machine φ) (t : Term) (env : Env φ) :
    m.defer t env = (.deferred m.cells.size, m.extended #[⟨t, env, none⟩]) := by
  rw [defer, extended, Array.push_eq_append]

theorem cells_extended (h : i < m.cells.size) (extra : Array (Cell φ)) :
    (m.extended extra).cells[i]? = m.cells[i]? :=
  Array.getElem?_append_left h

theorem cell_extended_new (m : Machine φ) (c : Cell φ) :
    (m.extended #[c]).cells[m.cells.size]? = some c := by
  simp [extended]

theorem cached?_extended (h : i < m.cells.size) (extra : Array (Cell φ)) :
    (m.extended extra).cached? i = m.cached? i := by
  rw [cached?, cached?, cells_extended h]

theorem fill_extended (h : i < m.cells.size) (extra : Array (Cell φ)) (v : Value φ) :
    (m.extended extra).fill i v = (m.fill i v).extended extra := by
  have hcells :
      ((m.extended extra).fill i v).cells = ((m.fill i v).extended extra).cells := by
    apply Array.ext_getElem?
    intro j
    rw [cells_fill]
    by_cases hj : j < m.cells.size
    · rw [cells_extended hj, cells_extended (by simpa using hj), cells_fill]
    · have hij : i ≠ j := by omega
      rw [if_neg hij]
      simp only [extended, Array.getElem?_append, size_fill, if_neg hj]
  exact congrArg (Machine.mk · m.calls) hcells

end Machine

/-- On a machine in range, and on the same machine with further cells, the second computation has
the outcome of the first and leaves the further cells unchanged.  If `lax`, the first may also
exceed the depth. -/
def besideCells (size : Nat) (extra : Array (Cell φ)) (lax : Prop) : Comparison φ where
  machines m n := m = n ∧ ∃ m₀ : Machine φ, m = m₀.extended extra ∧ m₀.Ranged size
  excused e := lax ∧ e = .depthExceeded maxDepth
  absence := .any

def Matches (size : Nat) (extra : Array (Cell φ)) (lax : Prop) (P : Value φ → Prop)
    (run run' : Run φ (Value φ)) : Prop :=
  (besideCells size extra lax).Relates P run run'

theorem Matches.of_exact {size : Nat} {extra : Array (Cell φ)} {lax : Prop} {P : Value φ → Prop}
    {run run' : Run φ (Value φ)} (h : Matches size extra False P run run') :
    Matches size extra lax P run run' := by
  intro m n hmachines
  have hboth := h m n hmachines
  generalize run.outcome? m = o at hboth ⊢
  generalize run'.outcome? n = o' at hboth ⊢
  cases hboth with
  | absent habsent => exact .absent habsent
  | excused he => exact he.1.elim
  | both hr hmachines hchange => exact .both hr hmachines hchange

/-! ## Evaluation with further cells -/

def inReach (size : Nat) : Realm φ :=
  { ranged.realm size with
    failure := fun _ => True
    failure_depth := trivial
    failure_slot := fun _ _ => trivial
    failure_callee := fun _ _ => trivial }

theorem inReach_open (size : Nat) : (inReach (φ := φ) size).Open where
  undefined := .undefined trivial
  atom _ := .atom trivial
  native _ _ hheld := .native trivial hheld

def LaxDepths (lax : Prop) (d d' : Nat) : Prop := d = d' ∨ lax ∧ d ≤ d'

/-- Calling and forcing, answered in two ways, have matching outcomes. -/
structure MatchesFor (size : Nat) (extra : Array (Cell φ)) (lax : Prop)
    (enter enter' : Request φ → Run φ (Value φ)) : Prop where
  call : ∀ f x d d', f.Obeys ranged size → x.Obeys ranged size → LaxDepths lax d d' →
    Matches size extra lax (inReach size).value (enter (.call f x d)) (enter' (.call f x d'))
  force : ∀ v d d', v.Obeys ranged size → LaxDepths lax d d' →
    Matches size extra lax (inReach size).callee (enter (.force v d)) (enter' (.force v d'))

section Entry

variable {host : Host φ} {enter enter' : Request φ → Run φ (Value φ)} {size : Nat}
  {extra : Array (Cell φ)} {lax : Prop}

theorem MatchesFor.request (h : MatchesFor size extra lax enter enter') {r : Request φ}
    (hr : ∀ v ∈ r.operands, v.Obeys ranged size) :
    Matches size extra lax (inReach size).value (enter r) (enter' r) := by
  cases r with
  | call f x depth =>
    exact h.call f x depth depth (hr f (by simp [Request.operands]))
      (hr x (by simp [Request.operands])) (.inl rfl)
  | force v depth =>
    exact (h.force v depth depth (hr v (by simp [Request.operands])) (.inl rfl)).mono
      fun _ => And.left

/-- Host functions start again with the full depth, so for them the depth must not matter. -/
theorem matches_callHost (h : MatchesFor size extra False enter enter')
    (hhost : host.Collecting fun _ => True) {function : φ} {held : List (Value φ)} {x : Value φ}
    (hf : (Value.native function held).Obeys ranged size) (hx : x.Obeys ranged size) :
    Matches size extra lax (inReach size).value (callHost host enter function held x)
      (callHost host enter' function held x) := by
  rintro _ _ ⟨rfl, m, rfl, hm⟩
  have hm' : (m.record ⟨function, x⟩).Ranged size := hm.record function hx
  have hperform : Matches size extra False (inReach size).value _ _ :=
    (inReach_open size).relates_perform (fun _ => And.left)
      (fun f x hf hx => h.call f x maxDepth maxDepth hf hx (.inl rfl))
      (fun v hv => h.force v maxDepth maxDepth hv (.inl rfl)) (hm'.met hf hx)
      (hhost _ function held x)
  simp only [callHost, Run.outcome?_bind, Run.outcome?_modify, Run.outcome?_get]
  exact (hperform.of_exact _ _ ⟨rfl, m.record ⟨function, x⟩, rfl, hm'⟩).after trivial

def MatchesFor.coupling (h : MatchesFor size extra lax enter enter')
    (hexact : MatchesFor size extra False enter enter') (hhost : host.Collecting fun _ => True) :
    Coupling (inReach size) host enter enter' where
  rel := Matches size extra lax
  depths := LaxDepths lax
  depths_pred hdepths := hdepths.imp Nat.succ.inj (And.imp_right Nat.le_of_succ_le_succ)
  rel_pure := .pure
  rel_throw _ := .throw trivial
  rel_bind := .bind
  rel_spent t env hdepths hzero := by
    rcases hdepths with rfl | ⟨hlax, hle⟩
    · obtain rfl : _ = 0 := hzero.elim id id
      exact .throw trivial
    · obtain rfl : _ = 0 := hzero.elim id fun hzero => Nat.le_zero.mp (hzero ▸ hle)
      exact .throw_excused ⟨hlax, rfl⟩
  rel_force hcell hdepths := h.force _ _ _ hcell hdepths
  rel_native hf hx := matches_callHost hexact hhost hf.1 hx

theorem matches_fill {cell : Nat} {v : Value φ} (hcell : cell < size)
    (hv : (inReach size).callee v) :
    Matches size extra lax (inReach size).callee (Run.fill cell v) (Run.fill cell v) := by
  rintro _ _ ⟨rfl, m, rfl, hm⟩
  have hlt : cell < m.cells.size := hm.size_eq ▸ hcell
  have hfilled := hm.fill cell hv.1 hv.2
  rw [Run.outcome?_fill, Machine.fill_extended hlt, Machine.cached?_extended (by simpa using hlt)]
  exact .both (hfilled.cached?_getD cell hv.1 hv.2) ⟨rfl, m.fill cell v, rfl, hfilled⟩ trivial

theorem matches_forceCell (h : MatchesFor size extra lax enter enter')
    (hexact : MatchesFor size extra False enter enter') (hhost : host.Collecting fun _ => True)
    {cell d d' : Nat} (hdepths : LaxDepths lax d d') (hcell : cell < size) :
    Matches size extra lax (inReach size).callee (forceCell host enter d cell)
      (forceCell host enter' d' cell) := by
  rintro _ _ ⟨rfl, m, rfl, hm⟩
  have hlt : cell < m.cells.size := hm.size_eq ▸ hcell
  have hc := Array.getElem?_eq_getElem hlt
  have hc' := (Machine.cells_extended hlt extra).trans hc
  have hobeys := hm.cell cell _ hc
  cases hvalue : m.cells[cell].value with
  | some v =>
    have hcached := (Machine.cached?_of_cell hc').trans hvalue
    rw [outcome?_forceCell_filled hcached, outcome?_forceCell_filled hcached]
    exact .both (hobeys.value v hvalue) ⟨rfl, m, rfl, hm⟩ trivial
  | none =>
    rw [outcome?_forceCell_unfilled hc' hvalue, outcome?_forceCell_unfilled hc' hvalue]
    have heval := (h.coupling hexact hhost).rel_evalCell hdepths hobeys.term hobeys.env
    exact Comparison.Relates.bind heval (fun v => matches_fill hcell) _ _ ⟨rfl, m, rfl, hm⟩

/-- Entries have matching outcomes if more of them may be nested. -/
theorem matchesFor_enter (hhost : host.Collecting fun _ => True) {bound bound' : Nat}
    (hle : bound ≤ bound') (lax : Prop) :
    MatchesFor size extra lax (host.enter bound) (host.enter bound') := by
  induction bound generalizing bound' lax with
  | zero =>
    exact ⟨fun _ _ _ _ _ _ _ => .giveUp fun _ => trivial,
      fun _ _ _ _ _ => .giveUp fun _ => trivial⟩
  | succ bound ih =>
    obtain ⟨bound', rfl⟩ := Nat.exists_eq_add_one_of_ne_zero (Nat.ne_zero_of_lt hle)
    have hnext := ih (Nat.le_of_succ_le_succ hle)
    let K := (hnext lax).coupling (hnext False) hhost
    refine ⟨fun f x d d' hf hx hdepths => K.rel_call hdepths hf hx, ?_⟩
    intro v d d' hv hdepths
    refine K.rel_answer_force hv ?_
    rintro cell rfl
    cases hv with
    | deferred hlt => exact matches_forceCell (hnext lax) (hnext False) hhost hdepths hlt

end Entry

/-- Throughout a session, the content of the machine and all values obtained are in range, whatever
the errors of the host. -/
theorem Stage.Reached.stays_in_reach {host : Host φ} (hhost : host.Collecting fun _ => True)
    {s : Stage φ} (hs : s.Reached host) :
    s.machine.Ranged s.machine.cells.size ∧
      ∀ v ∈ s.values, v.Obeys ranged s.machine.cells.size := by
  refine hs.invariant (I := fun m => m.Ranged m.cells.size) .empty ?_ ?_ ?_
  · exact fun m hm => hm.argument
  · exact fun m t env hm => hm.defer
  · intro m m' op r hm hop hout
    have hrun : Matches m.cells.size #[] False (inReach m.cells.size).value (op.run host)
        (op.run host) := by
      refine op.rel_run .pure .bind ?_ hop
      rintro request hrequest m _ ⟨rfl, hm⟩
      rw [host.outcome?_request]
      exact (matchesFor_enter hhost (Nat.le_refl _) False).request hrequest m m ⟨rfl, hm⟩
    rcases hrun.of_outcome ⟨rfl, m, m.extended_empty.symm, hm⟩ hout with
      ⟨_, -, hfalse, -⟩ | ⟨_, -, hr, ⟨-, n, rfl, hn⟩, -⟩
    · exact hfalse.elim
    · rw [n.extended_empty]
      refine ⟨hn.size_eq ▸ hn, hn.size_eq, ?_⟩
      rintro v rfl
      exact hr

/-! ## The text -/

/-- The text `f x₁ … xₙ`. -/
def juxtaposed (f : String) (args : List String) : String :=
  f ++ String.join (args.map fun x => " " ++ x)

def Token.ofName (name : String) : Token := ⟨.identifier, .start, name⟩

theorem Token.lexemes_juxtaposed {f : String} {args : List String} (hf : isIdentifier f = true)
    (hargs : ∀ x ∈ args, isIdentifier x = true) :
    lexemes (juxtaposed f args).toList = (f :: args).map ofName := by
  have htext : (juxtaposed f args).toList =
      f.toList ++ args.flatMap fun x => ' ' :: x.toList := by
    simp [juxtaposed, String.toList_append, String.toList_join, List.flatMap_map]
  rw [htext]
  clear htext
  induction args generalizing f with
  | nil =>
    rw [List.flatMap_nil, List.append_nil, lexemes_identifier hf]
    rfl
  | cons x args ih =>
    obtain ⟨hx, hargs⟩ := List.forall_mem_cons.mp hargs
    rw [List.flatMap_cons, List.cons_append, lexemes_append_cons (c := ' ') (by decide),
      lexemes_identifier hf, ih hx hargs]
    rfl

open Grammar in
theorem Expr.derives_juxtaposed (f : String) (args : List String) :
    Derives .expression ((f :: args).map Token.ofName)
      (chain ((f :: args).map fun name => .var (.ofName name))) := by
  let atoms : List Phrase :=
    (f :: args).map fun name => ([Token.ofName name], .var (.ofName name))
  have hatoms : ∀ a ∈ atoms, Derives .atom a.1 a.2 := by
    intro a ha
    obtain ⟨name, -, rfl⟩ := List.mem_map.mp ha
    exact .identifier rfl
  have hexpression : Derives .expression (tokensOf atoms) (chain (treesOf atoms)) :=
    .atoms (by simp [atoms]) hatoms
  simpa [atoms, tokensOf, treesOf, List.flatMap_map, Function.comp_def, ← List.map_eq_flatMap]
    using hexpression

theorem parse_juxtaposed {f : String} {args : List String} (hf : isIdentifier f = true)
    (hargs : ∀ x ∈ args, isIdentifier x = true) :
    (Expr.parse (juxtaposed f args)).diagnostics = [] ∧
    (∀ names, (Expr.parse (juxtaposed f args)).expr.slots names =
      ((Expr.var (.ofName f)).slots names).applied
        (args.map fun x => (Expr.var (.ofName x)).slots names)) ∧
    ∀ bound, f ∈ bound → (∀ x ∈ args, x ∈ bound) →
      (Expr.parse (juxtaposed f args)).expr.free bound = [] := by
  have hlexemes : Token.lexemes (juxtaposed f args).toList =
      ((f :: args).map Token.ofName).map Token.unplaced := by
    rw [Token.lexemes_juxtaposed hf hargs, List.map_map]
    rfl
  obtain ⟨hquiet, hslots, hbound⟩ :=
    Expr.parse_of_lexemes (Expr.derives_juxtaposed f args) hlexemes
  refine ⟨hquiet, ?_, ?_⟩
  · intro names
    rw [hslots, List.map_cons, Expr.slots_chain, List.map_map]
    rfl
  · intro bound hf hargs
    refine hbound bound (Expr.free_chain ?_ ?_)
    · rw [Expr.free_var]
      exact if_pos hf
    · intro e he
      obtain ⟨x, hx, rfl⟩ := List.mem_map.mp he
      rw [Expr.free_var]
      exact if_pos (hargs x hx)

theorem Globals.exists_slot {globals : Globals φ} (hdistinct : (globals.map (·.1)).Nodup)
    {global : String × Value φ} (hglobal : global ∈ globals) :
    ∃ i, (Expr.var (.ofName global.1)).slots globals.names = .slot i ∧
      globals.env[i]? = some global.2 := by
  have hnodup : (globals.reverse.map (·.1)).Nodup := by
    rw [List.map_reverse]
    exact (List.reverse_perm _).nodup_iff.mpr hdistinct
  obtain ⟨i, hlt, hi⟩ := List.mem_iff_getElem.mp (List.mem_reverse.mpr hglobal)
  have hfirst : globals.names.idxOf? global.1 = some i := by
    rw [names_eq_reverse_map, List.idxOf?_eq_some_iff]
    have hlt' : i < (globals.reverse.map (·.1)).length := by simpa using hlt
    have hname : (globals.reverse.map (·.1))[i] = global.1 := by rw [List.getElem_map, hi]
    refine ⟨hlt', hname, ?_⟩
    intro j hj heq
    have hij := (List.getElem_inj hnodup).mp (heq.trans hname.symm)
    omega
  refine ⟨i, ?_, ?_⟩
  · simp only [Expr.slots, Token.ofName, hfirst]
  · rw [env_eq_reverse_map, List.getElem?_map, List.getElem?_eq_getElem hlt, hi, Option.map_some]

/-! ## Forcing the text -/

/-- Applies a value to arguments and forces the result, with requests answered by `request`. -/
def applyThenForce (request : Request φ → Run φ (Value φ)) (f : Value φ) (args : List (Value φ)) :
    Run φ (Value φ) := do
  request (.force (← (Operation.applyAll f args).runBy request) maxDepth)

theorem matches_applyThenForce {size : Nat} {extra : Array (Cell φ)} {lax : Prop}
    {request request' : Request φ → Run φ (Value φ)}
    (hrequest : ∀ r : Request φ, (∀ v ∈ r.operands, v.Obeys ranged size) →
      Matches size extra lax (inReach size).value (request r) (request' r))
    {f : Value φ} {args : List (Value φ)} (hf : f.Obeys ranged size)
    (hargs : ∀ x ∈ args, x.Obeys ranged size) :
    Matches size extra lax (inReach size).value (applyThenForce request f args)
      (applyThenForce request' f args) := by
  have happly : Matches size extra lax (inReach size).value
      ((Operation.applyAll f args).runBy request) ((Operation.applyAll f args).runBy request') :=
    Operation.rel_runBy .pure .bind hrequest _ (List.forall_mem_cons.mpr ⟨hf, hargs⟩)
  apply happly.bind
  intro v (hv : v.Obeys ranged size)
  exact hrequest (.force v maxDepth) (by simpa [Request.operands] using hv)

/-- Answers the requests of a chain in a cell: calls have one level of depth less than the cell, and
the result is forced at the depth of the cell, by an entry nested in that of the cell. -/
def Host.chained (host : Host φ) (bound : Nat) : Request φ → Run φ (Value φ)
  | .call f x depth => host.enter (bound + 2) (.call f x (depth - 1))
  | .force v depth => host.enter (bound + 1) (.force v depth)

theorem matches_chained {host : Host φ} (hhost : host.Collecting fun _ => True) {size : Nat}
    {extra : Array (Cell φ)} {r : Request φ} (hr : ∀ v ∈ r.operands, v.Obeys ranged size) {b : Nat}
    (hbound : b + 1 = size + extra.size + host.nesting) :
    Matches size extra True (inReach size).value (host.chained b r) (host.request r) := by
  rintro _ _ ⟨rfl, m, rfl, hm⟩
  have hsize : (m.extended extra).cells.size + host.nesting + 1 = b + 2 := by
    rw [m.size_extended, hm.size_eq, ← hbound]
  rw [Host.outcome?_request, hsize]
  -- Calls are nested as deep on both sides, and forcing one deeper in the cell.
  cases r with
  | call f x depth =>
    exact (matchesFor_enter hhost (Nat.le_refl _) True).call f x (depth - 1) depth
      (hr f (by simp [Request.operands])) (hr x (by simp [Request.operands]))
      (.inr ⟨trivial, Nat.sub_le depth 1⟩) _ _ ⟨rfl, m, rfl, hm⟩
  | force v depth =>
    exact (matchesFor_enter hhost (Nat.le_succ _) True).request hr _ _ ⟨rfl, m, rfl, hm⟩

section Chain

variable (host : Host φ) (bound : Nat) {env : Env φ} {α : Type} {term : α → Term}
  {value : α → Value φ}

theorem foldlM_applyTo_slots {args : List α}
    (hargs : ∀ a ∈ args, ∃ i, term a = .slot i ∧ env[i]? = some (value a)) (f : Value φ) :
    (args.map term).foldlM (applyTo host (host.enter (bound + 1)) 511 env) f =
      (Operation.applyAll f (args.map value)).runBy (host.chained bound) := by
  induction args generalizing f with
  | nil => rfl
  | cons a args ih =>
    obtain ⟨⟨i, hslot, hi⟩, hargs⟩ := List.forall_mem_cons.mp hargs
    have hcall : applyTo host (host.enter (bound + 1)) 511 env f (term a) =
        host.chained bound (.call f (value a) maxDepth) := by
      rw [hslot, applyTo, eval]
      simp only [hi, pure_bind]
      rfl
    rw [List.map_cons, List.foldlM_cons, hcall]
    simp only [ih hargs]
    rfl

theorem evalCell_applied {f : α} {args : List α} (hne : args ≠ [])
    (hparts : ∀ a ∈ f :: args, ∃ i, term a = .slot i ∧ env[i]? = some (value a)) :
    evalCell host (host.enter (bound + 1)) maxDepth ⟨(term f).applied (args.map term), env, none⟩ =
      applyThenForce (host.chained bound) (value f) (args.map value) := by
  obtain ⟨⟨i, hslot, hi⟩, hargs⟩ := List.forall_mem_cons.mp hparts
  have hcallee : evalSpine host (host.enter (bound + 1)) 511 env (term f) = pure (value f) := by
    rw [hslot]
    change eval host _ 511 (.slot i) env = _
    simp only [eval, hi]
  have hterms : args.map term ≠ [] := by simpa using hne
  have heval := eval_applied host (host.enter (bound + 1)) 511 env (term f) hterms
  rw [hcallee, pure_bind, foldlM_applyTo_slots host bound hargs] at heval
  have hforced : forced (host.enter (bound + 1)) maxDepth =
      fun v => host.chained bound (.force v maxDepth) := by
    funext v
    cases v <;> rfl
  rw [evalCell, hforced]
  exact congrArg (· >>= _) heval

end Chain

theorem Term.load_applied (f : Term) {args : List Term} (h : args ≠ []) (env : Env φ)
    (m : Machine φ) : (f.applied args).load env m = .ok (m.defer (f.applied args) env) := by
  rcases List.eq_nil_or_concat args with rfl | ⟨before, last, rfl⟩
  · exact absurd rfl h
  · rw [applied, List.concat_eq_append, List.foldl_append]
    rfl

/-- The text compiles without diagnostics, to a deferred chain of slots. -/
theorem compile_juxtaposed {globals : Globals φ} {f : String × Value φ} {args : Globals φ}
    (hne : args ≠ []) (hparts : ∀ g ∈ f :: args, g ∈ globals ∧ isIdentifier g.1 = true)
    (m : Machine φ) :
    let compiled := compile globals (juxtaposed f.1 (args.map (·.1))) m
    let term (g : String × Value φ) := (Expr.var (.ofName g.1)).slots globals.names
    compiled.1.isOk = true ∧ compiled.1.value = .deferred m.cells.size ∧
      compiled.2 = m.extended #[⟨(term f).applied (args.map term), globals.env, none⟩] := by
  intro compiled term
  obtain ⟨⟨hf, hname⟩, hargs⟩ := List.forall_mem_cons.mp hparts
  have hnames : ∀ x ∈ args.map (·.1), x ∈ globals.map (·.1) ∧ isIdentifier x = true := by
    intro x hx
    obtain ⟨g, hg, rfl⟩ := List.mem_map.mp hx
    exact ⟨List.mem_map_of_mem (hargs g hg).1, (hargs g hg).2⟩
  obtain ⟨hquiet, hslots, hfree⟩ := parse_juxtaposed hname fun x hx => (hnames x hx).2
  have hbound := hfree _ (List.mem_map_of_mem hf) fun x hx => (hnames x hx).1
  obtain ⟨v, m', hload, hcompile⟩ :=
    compile_eq globals (juxtaposed f.1 (args.map (·.1))) m
  rw [hslots, List.map_map, Term.load_applied _ (by simpa using hne), m.defer_eq_extended] at hload
  cases hload
  have hcompiled : compiled = _ := hcompile
  rw [hcompiled]
  exact ⟨by simp [Compilation.isOk, hquiet, hbound], rfl, rfl⟩

/-- Forcing a new cell evaluates its term and fills the cell. -/
theorem Host.outcome?_force_new (host : Host φ) (m : Machine φ) {c : Cell φ} (hc : c.value = none) :
    (host.force (.deferred m.cells.size)).outcome? (m.extended #[c]) =
      (evalCell host (host.enter (m.cells.size + host.nesting + 1)) maxDepth c >>=
        Run.fill m.cells.size).outcome? (m.extended #[c]) := by
  rw [force, outcome?_request, m.size_extended]
  change (forceCell host (host.enter (m.cells.size + 1 + host.nesting)) maxDepth _).outcome? _ = _
  rw [outcome?_forceCell_unfilled (m.cell_extended_new c) hc, Nat.add_right_comm]

/-- If the first computation is for a new cell and fills it with its value, the second has the same
outcome except for that cell. -/
theorem Matches.exists_of_fill_new {size : Nat} {c : Cell φ} {lax : Prop} {P : Value φ → Prop}
    {run run' : Run φ (Value φ)} (h : Matches size #[c] lax P run run') (hc : c.value = none)
    {m final : Machine φ} (hm : m.Ranged size) {r : Result φ}
    (hfill : (run >>= Run.fill size).outcome? (m.extended #[c]) = some (r, final)) :
    (lax ∧ r = .error (.depthExceeded maxDepth)) ∨
      ∃ final' : Machine φ, run'.outcome? (m.extended #[c]) = some (r, final') ∧
        final'.calls = final.calls ∧
        ∀ cell, cell ≠ size → final'.cells[cell]? = final.cells[cell]? := by
  rw [Run.outcome?_bind] at hfill
  rcases hrun : run.outcome? (m.extended #[c]) with _ | ⟨e | v, n⟩ <;> rw [hrun] at hfill
  · cases hfill
  · cases hfill
    rcases h.of_outcome ⟨rfl, m, rfl, hm⟩ hrun with ⟨_, ⟨⟩, hlax, rfl⟩ | ⟨_, hrun', -, ⟨rfl, -⟩, -⟩
    · exact .inl ⟨hlax, rfl⟩
    · exact .inr ⟨final, hrun', rfl, fun _ _ => rfl⟩
  · rcases h.of_outcome ⟨rfl, m, rfl, hm⟩ hrun with
      ⟨_, ⟨⟩, -⟩ | ⟨_, hrun', -, ⟨rfl, m', rfl, hm'⟩, -⟩
    · have hcell : (m'.extended #[c]).cells[size]? = some c :=
        hm'.size_eq ▸ m'.cell_extended_new c
      change (Run.fill size v).outcome? _ = _ at hfill
      rw [Run.outcome?_fill, Machine.cached?_fill hcell, hc] at hfill
      cases hfill
      refine .inr ⟨m'.extended #[c], hrun', rfl, ?_⟩
      intro cell hne
      rw [Machine.cells_fill, if_neg hne.symm]

/-- Adjacent identifiers denote application.  In any stage of a session, let distinct identifiers be
bound to values obtained in it.  Then the text of some of these identifiers has no diagnostics, and
if forcing it does not exceed the depth, the host has the same outcome when it applies the first
value to the others in the same state and forces the result: the same result, the same host calls in
the same order, and the same cells filled except for that of the text. -/
theorem juxtaposition_as_application (host : Host φ) (hhost : host.Collecting fun _ => True)
    {s : Stage φ} (hs : s.Reached host) (globals : Globals φ)
    (hglobals : ∀ g ∈ globals, g.2 ∈ s.values) (hdistinct : (globals.map (·.1)).Nodup)
    (f : String × Value φ) (args : Globals φ) (hne : args ≠ [])
    (hparts : ∀ g ∈ f :: args, g ∈ globals ∧ isIdentifier g.1 = true) :
    let compiled := compile globals (juxtaposed f.1 (args.map (·.1))) s.machine
    compiled.1.isOk = true ∧
    ∃ text, compiled.1.value = .deferred text ∧
      ∀ r final, (host.force (.deferred text)).outcome? compiled.2 = some (r, final) →
        r ≠ .error (.depthExceeded 512) →
        ∃ final' : Machine φ,
          (host.applyAll f.2 (args.map (·.2)) >>= host.force).outcome? compiled.2 =
            some (r, final') ∧
          final'.calls = final.calls ∧
          ∀ cell, cell ≠ text → final'.cells[cell]? = final.cells[cell]? := by
  intro compiled
  obtain ⟨hm, hvalues⟩ := hs.stays_in_reach hhost
  obtain ⟨hok, hvalue, hmachine⟩ := compile_juxtaposed hne hparts s.machine
  refine ⟨hok, s.machine.cells.size, hvalue, ?_⟩
  intro r final hforce hr
  have hobeys : ∀ g ∈ f :: args, g.2.Obeys ranged s.machine.cells.size :=
    fun g hg => hvalues g.2 (hglobals g (hparts g hg).1)
  obtain ⟨hf, hargs⟩ := List.forall_mem_cons.mp hobeys
  have hchain := evalCell_applied host (s.machine.cells.size + host.nesting) hne
    fun g hg => Globals.exists_slot hdistinct (hparts g hg).1
  have hmatch (c : Cell φ) : Matches s.machine.cells.size #[c] True (inReach _).value
      (applyThenForce (host.chained (s.machine.cells.size + host.nesting)) f.2 (args.map (·.2)))
      (applyThenForce host.request f.2 (args.map (·.2))) :=
    matches_applyThenForce (fun r hr => matches_chained hhost hr (Nat.add_right_comm _ _ _)) hf
      (List.forall_mem_map.mpr hargs)
  simp only [compiled, hmachine] at hforce ⊢
  rw [host.outcome?_force_new s.machine rfl, hchain] at hforce
  rcases (hmatch _).exists_of_fill_new rfl hm hforce with ⟨-, hspent⟩ | hsame
  · exact absurd hspent hr
  · exact hsame

def identityCell (value : Option (Value Unit)) : Cell Unit :=
  ⟨.app (.lambda (.slot 0)) (.lambda (.slot 0)), [], value⟩

/-- A function of the host, `\x.\y.y`, and a deferred `(\x.x) (\y.y)`. -/
def assortedGlobals : Globals Unit :=
  [("d", .deferred 0), ("k", .closure (.lambda (.slot 0)) []), ("f", .native () [])]

def assortedStage : Stage Unit := ⟨⟨#[identityCell none], []⟩, assortedGlobals.map (·.2)⟩

theorem juxtaposition_as_application_assorted :
    recallingHost.Collecting (fun _ => True) ∧ assortedStage.Reached recallingHost ∧
    (compile assortedGlobals "f k d" assortedStage.machine).1.isOk = true ∧
    ∃ final, (recallingHost.applyAll (.native () [])
          [.closure (.lambda (.slot 0)) [], .deferred 0] >>= recallingHost.force).outcome?
        (compile assortedGlobals "f k d" assortedStage.machine).2 =
          some (.ok (.closure (.slot 0) []), final) ∧
      final.calls = [⟨(), .closure (.lambda (.slot 0)) []⟩] ∧
      final.cells[0]? = some (identityCell (some (.closure (.slot 0) []))) := by
  have hhost : recallingHost.Collecting fun _ => True := by
    intro calls function held x
    refine ⟨.given (.inl rfl), ?_, fun v => .given (.inr rfl), fun e _ => trivial⟩
    rcases List.eq_nil_or_concat calls with rfl | ⟨later, first, rfl⟩
    · exact .undefined
    · refine .given (.inr (.inr ⟨first, by simp, ?_⟩))
      simp
  have hmake : Stage.Leads recallingHost .start ⟨.empty, [.native () []]⟩ :=
    .single (.make (.native () nofun))
  have hclosure : Stage.Leads recallingHost .start
      ⟨.empty, [.closure (.lambda (.slot 0)) [], .native () []]⟩ :=
    .tail hmake (.compile [] "\\x.\\y.y" nofun)
  have hstage : assortedStage.Reached recallingHost :=
    .tail hclosure (.compile [] "(\\x.x) (\\y.y)" nofun)
  have hnames : ∀ g ∈ assortedGlobals, isIdentifier g.1 = true := List.all_eq_true.mp (by decide)
  have hparts : ∀ g ∈ assortedGlobals.reverse, g ∈ assortedGlobals ∧ isIdentifier g.1 = true :=
    fun g hg => ⟨List.mem_reverse.mp hg, hnames g (List.mem_reverse.mp hg)⟩
  have htext : juxtaposed "f" ["k", "d"] = "f k d" := by decide
  have hmachine : (compile assortedGlobals "f k d" assortedStage.machine).2 =
      ⟨#[identityCell none, ⟨.app (.app (.slot 0) (.slot 1)) (.slot 2), assortedGlobals.env, none⟩],
        []⟩ := rfl
  have happlied := juxtaposition_as_application recallingHost hhost hstage assortedGlobals
    (fun g => List.mem_map_of_mem) (by decide) ("f", .native () [])
    [("k", .closure (.lambda (.slot 0)) []), ("d", .deferred 0)] nofun hparts
  simp only [List.map, htext, hmachine] at happlied ⊢
  obtain ⟨hok, text, hvalue, hsame⟩ := happlied
  obtain rfl : 1 = text := Value.deferred.inj hvalue
  obtain ⟨final, hrun, hcalls, hcells⟩ := hsame (.ok (.closure (.slot 0) [])) _ rfl nofun
  exact ⟨hhost, hstage, hok, final, hrun, hcalls, hcells 0 (by decide)⟩

end LambdaCalculus
