import LambdaCalculus.Proofs.Sessions
import Mathlib.Logic.IsEmpty.Basic

/-! # Caching is transparent

Without host functions, a cell holds the value of its term at any time, given enough depth.  So an
operation does not depend on which cells were filled before it.

The proof uses an evaluation that looks up the values of cells and never evaluates their terms.
After a successful evaluation, lookup has the same result on the machine reached.  And evaluation
has the result of lookup on any machine where fewer cells are filled, unless it exceeds the depth.
-/
namespace LambdaCalculus

variable {φ : Type}

/-- Answers from the contents of the cells, without an outcome if these do not suffice. -/
def lookup : Request φ → Run φ (Value φ)
  | .force (.deferred cell) _ => do
    match (← get).cached? cell with
    | some v => pure v
    | none => Run.giveUp
  | _ => Run.giveUp

theorem outcome?_lookup_eq_some_iff {m m' : Machine φ} {cell depth : Nat} {r : Result φ} :
    (lookup (.force (.deferred cell) depth)).outcome? m = some (r, m') ↔
      ∃ v, m.cached? cell = some v ∧ r = .ok v ∧ m' = m := by
  rw [lookup, Run.outcome?_bind]
  cases hv : m.cached? cell with
  | none => simp [hv]
  | some v => simp [hv, eq_comm]

namespace Machine

/-- Lookup, with some depth, confirms the content of each cell, on this machine and all later ones.
-/
def Coherent (host : Host φ) (m : Machine φ) : Prop :=
  ∀ (i : Nat) (c : Cell φ) (v : Value φ), m.cells[i]? = some c → c.value = some v →
    ∃ depth, ∀ m', m.Extends m' → (evalCell host lookup depth c).outcome? m' = some (.ok v, m')

namespace Coherent

variable {host : Host φ} {m : Machine φ}

theorem empty : (Machine.empty : Machine φ).Coherent host := by
  intro i c v hc
  simp [Machine.empty] at hc

theorem defer (h : m.Coherent host) (t : Term) (env : Env φ) :
    (m.defer t env).2.Coherent host := by
  intro i c v hc hv
  rcases cell_of_defer hc with hc | ⟨-, rfl⟩
  · obtain ⟨depth, hlookup⟩ := h i c v hc hv
    exact ⟨depth, fun m' hm' => hlookup m' ((Extends.defer m t env).trans hm')⟩
  · cases hv

theorem fill (h : m.Coherent host) {i depth : Nat} {c : Cell φ} {v : Value φ}
    (hc : m.cells[i]? = some c)
    (hlookup : ∀ m', m.Extends m' →
      (evalCell host lookup depth c).outcome? m' = some (.ok v, m')) :
    (m.fill i v).Coherent host := by
  have hext := (Fills.fill_self m i v).toExtends
  intro j c' w hc' hw
  obtain ⟨value, hold, hvalue⟩ := exists_cell_of_fill hc'
  rcases hvalue w hw with hw | ⟨rfl, -, rfl⟩
  · obtain ⟨depth, hlookup⟩ := h j _ w hold hw
    exact ⟨depth, fun m' hm' => hlookup m' (hext.trans hm')⟩
  · cases hc.symm.trans hold
    exact ⟨depth, fun m' hm' => hlookup m' (hext.trans hm')⟩

end Coherent

end Machine

variable {host : Host φ} {enter : Request φ → Run φ (Value φ)}

/-! ## Lookup after evaluation -/

/-- The first computation fills cells, and if it succeeds, the second has the same result on all
later machines, which it leaves unchanged. -/
def LookedUpAfter (host : Host φ) (P : Value φ → Prop) (run run' : Run φ (Value φ)) : Prop :=
  ∀ m, m.Coherent host → ∀ r m', run.outcome? m = some (r, m') →
    m.Fills m' ∧ m'.Coherent host ∧
      ∀ v, r = .ok v → P v ∧ ∀ later, m'.Extends later → run'.outcome? later = some (.ok v, later)

theorem LookedUpAfter.bind {P Q : Value φ → Prop} {run run' : Run φ (Value φ)}
    {next next' : Value φ → Run φ (Value φ)} (h : LookedUpAfter host P run run')
    (hnext : ∀ v, P v → LookedUpAfter host Q (next v) (next' v)) :
    LookedUpAfter host Q (run >>= next) (run' >>= next') := by
  intro m hm r m' hrun
  rw [Run.outcome?_bind] at hrun
  rcases hfirst : run.outcome? m with _ | ⟨e | v, m₁⟩ <;> rw [hfirst] at hrun
  · cases hrun
  · cases hrun
    obtain ⟨hfills, hcoherent, -⟩ := h m hm _ _ hfirst
    exact ⟨hfills, hcoherent, nofun⟩
  · obtain ⟨hfills, hcoherent, hok⟩ := h m hm _ _ hfirst
    obtain ⟨hv, hlookup⟩ := hok v rfl
    obtain ⟨hfills', hcoherent', hok'⟩ := hnext v hv m₁ hcoherent r m' hrun
    refine ⟨hfills.trans hfills', hcoherent', ?_⟩
    intro w hw
    obtain ⟨hQ, hlookup'⟩ := hok' w hw
    refine ⟨hQ, ?_⟩
    intro later hlater
    rw [Run.outcome?_bind, hlookup later (hfills'.toExtends.trans hlater)]
    exact hlookup' later hlater

/-- Cells are filled, and the machine stays coherent. -/
def coherence (host : Host φ) : Upkeep φ :=
  .shared (Machine.Coherent host) Machine.Fills .refl .trans

theorem LookedUpAfter.upholds {P : Value φ → Prop} {run run' : Run φ (Value φ)}
    (h : LookedUpAfter host P run run') :
    (Realm.all φ).Upholds (coherence host) (fun _ => True) run run := by
  refine Realm.upholds_iff.mpr fun m hm => ⟨by simp [coherence, Upkeep.shared], ?_⟩
  intro r m' hrun
  obtain ⟨hfills, hcoherent, -⟩ := h m hm r m' hrun
  refine ⟨?_, hcoherent, hfills⟩
  cases r <;> trivial

section Evaluation

variable [IsEmpty φ]

def evalWithLookupAfter
    (henter : ∀ cell depth, LookedUpAfter host (fun _ => True)
      (enter (.force (.deferred cell) depth)) (lookup (.force (.deferred cell) depth))) :
    Coupling (Realm.all φ) host enter lookup where
  rel := LookedUpAfter host
  depths depth depth' := depth = depth'
  depths_pred := Nat.succ.inj
  rel_pure {P v} hv m hm r m' hrun := by
    cases hrun
    refine ⟨.refl m, hm, ?_⟩
    rintro w ⟨⟩
    exact ⟨hv, fun later _ => rfl⟩
  rel_throw _ m hm r m' hrun := by
    cases hrun
    exact ⟨.refl m, hm, nofun⟩
  rel_bind := LookedUpAfter.bind
  rel_spent t env hdepths hzero m hm r m' hrun := by
    obtain rfl : _ = 0 := hzero.elim id fun hzero => hdepths.trans hzero
    cases hrun
    exact ⟨.refl m, hm, nofun⟩
  rel_force _ hdepths := hdepths ▸ henter _ _
  rel_native {function _ _} _ _ := isEmptyElim function

theorem lookedUpAfter_forceCell
    (henter : ∀ cell depth, LookedUpAfter host (fun _ => True)
      (enter (.force (.deferred cell) depth)) (lookup (.force (.deferred cell) depth))) (cell depth : Nat) :
    LookedUpAfter host (fun _ => True) (forceCell host enter depth cell)
      (lookup (.force (.deferred cell) depth)) := by
  intro m hm r m' hrun
  cases hc : m.cells[cell]? with
  | none =>
    rw [outcome?_forceCell_missing hc] at hrun
    cases hrun
  | some c =>
    cases hvalue : c.value with
    | some v =>
      have hcached := (Machine.cached?_of_cell hc).trans hvalue
      rw [outcome?_forceCell_filled hcached] at hrun
      cases hrun
      refine ⟨.refl m, hm, ?_⟩
      rintro w ⟨⟩
      exact ⟨trivial, fun later hlater =>
        outcome?_lookup_eq_some_iff.mpr ⟨v, hlater.cached hcached, rfl, rfl⟩⟩
    | none =>
      have heval := (evalWithLookupAfter henter).rel_evalCell (d := depth) (c := c) rfl trivial
        (fun _ _ => trivial) m hm
      rw [outcome?_forceCell_unfilled hc hvalue, Run.outcome?_bind] at hrun
      rcases hfirst : (evalCell host enter depth c).outcome? m with _ | ⟨e | v, m₁⟩ <;>
        rw [hfirst] at hrun
      · cases hrun
      · cases hrun
        obtain ⟨hfills, hcoherent, -⟩ := heval _ _ hfirst
        exact ⟨hfills, hcoherent, nofun⟩
      · obtain ⟨hfills, hcoherent, hok⟩ := heval _ _ hfirst
        obtain ⟨value, hc₁, -⟩ := hfills.cell cell c hc
        obtain ⟨w, hw⟩ : ∃ w, (m₁.fill cell v).cached? cell = some w := by
          rw [Machine.cached?_fill hc₁]
          cases value <;> exact ⟨_, rfl⟩
        simp only [Run.outcome?_fill, hw, Option.getD_some] at hrun
        cases hrun
        refine ⟨hfills.trans (.fill_self m₁ cell v), hcoherent.fill hc₁ (hok v rfl).2, ?_⟩
        rintro w ⟨⟩
        exact ⟨trivial, fun later hlater =>
          outcome?_lookup_eq_some_iff.mpr ⟨_, hlater.cached hw, rfl, rfl⟩⟩

theorem lookedUpAfter_enter (bound cell depth : Nat) :
    LookedUpAfter host (fun _ => True) (host.enter bound (.force (.deferred cell) depth))
      (lookup (.force (.deferred cell) depth)) := by
  induction bound generalizing cell depth with
  | zero => exact fun _ _ _ _ => nofun
  | succ bound ih => exact lookedUpAfter_forceCell ih cell depth

theorem coherent_enter (bound : Nat) :
    (Realm.all φ).UpheldFor (coherence host) (host.enter bound) (host.enter bound) := by
  induction bound with
  | zero => exact ⟨fun _ _ _ _ _ => .giveUp fun _ => rfl, fun _ _ _ => .giveUp fun _ => rfl⟩
  | succ bound ih =>
    exact ih.answer Realm.all_open (fun _ function => isEmptyElim function) fun cell depth _ =>
      (lookedUpAfter_enter (bound + 1) cell depth).upholds

end Evaluation

/-! ## Evaluation with fewer cells filled -/

/-- On a machine with fewer cells filled, the first computation has the result of the second, unless
it exceeds the depth. -/
def LookedUpAhead (host : Host φ) (P : Value φ → Prop) (run run' : Run φ (Value φ)) : Prop :=
  ∀ m later, m.Extends later → later.Coherent host → ∀ r m', run.outcome? m = some (r, m') →
    ∀ v final, run'.outcome? later = some (.ok v, final) →
      r = .error (.depthExceeded maxDepth) ∨
        r = .ok v ∧ final = later ∧ m'.Extends later ∧ P v

theorem LookedUpAhead.bind {P Q : Value φ → Prop} {run run' : Run φ (Value φ)}
    {next next' : Value φ → Run φ (Value φ)} (h : LookedUpAhead host P run run')
    (hnext : ∀ v, P v → LookedUpAhead host Q (next v) (next' v)) :
    LookedUpAhead host Q (run >>= next) (run' >>= next') := by
  intro m later hext hlater r m' hrun v final hrun'
  rw [Run.outcome?_bind] at hrun hrun'
  rcases hfirst' : run'.outcome? later with _ | ⟨e | w, later₁⟩ <;> rw [hfirst'] at hrun'
  · cases hrun'
  · cases hrun'
  · rcases hfirst : run.outcome? m with _ | ⟨e | w', m₁⟩ <;> rw [hfirst] at hrun
    · cases hrun
    · cases hrun
      rcases h m later hext hlater _ _ hfirst w later₁ hfirst' with he | ⟨he, -⟩
      · exact .inl he
      · cases he
    · rcases h m later hext hlater _ _ hfirst w later₁ hfirst' with he | ⟨he, rfl, hext₁, hw⟩
      · cases he
      · cases he
        exact hnext w hw m₁ later₁ hext₁ hlater r m' hrun v final hrun'

section Evaluation

variable [IsEmpty φ]

def evalWithLookupAhead
    (henter : ∀ cell depth depth', LookedUpAhead host (fun _ => True)
      (enter (.force (.deferred cell) depth)) (lookup (.force (.deferred cell) depth'))) :
    Coupling (Realm.all φ) host enter lookup where
  rel := LookedUpAhead host
  depths _ _ := True
  depths_pred _ := trivial
  rel_pure hv m later hext _ r m' hrun v final hrun' := by
    cases hrun
    cases hrun'
    exact .inr ⟨rfl, rfl, hext, hv⟩
  rel_throw _ m later _ _ r m' _ v final hrun' := by
    cases hrun'
  rel_bind := LookedUpAhead.bind
  rel_spent t env _ hzero m later _ _ r m' hrun v final hrun' := by
    rcases hzero with rfl | rfl
    · cases hrun
      exact .inl rfl
    · cases hrun'
  rel_force _ _ := henter _ _ _
  rel_native {function _ _} _ _ := isEmptyElim function

theorem lookedUpAhead_forceCell
    (henter : ∀ cell depth depth', LookedUpAhead host (fun _ => True)
      (enter (.force (.deferred cell) depth)) (lookup (.force (.deferred cell) depth')))
    (cell depth depth' : Nat) :
    LookedUpAhead host (fun _ => True) (forceCell host enter depth cell)
      (lookup (.force (.deferred cell) depth')) := by
  intro m later hext hlater r m' hrun v final hrun'
  obtain ⟨w, hcached, hw, rfl⟩ := outcome?_lookup_eq_some_iff.mp hrun'
  cases hw
  cases hc : m.cells[cell]? with
  | none =>
    rw [outcome?_forceCell_missing hc] at hrun
    cases hrun
  | some c =>
    cases hvalue : c.value with
    | some w =>
      have hw := (Machine.cached?_of_cell hc).trans hvalue
      rw [outcome?_forceCell_filled hw] at hrun
      cases hrun
      cases (hext.cached hw).symm.trans hcached
      exact .inr ⟨rfl, rfl, hext, trivial⟩
    | none =>
      -- The cell is filled on the later machine, with the result of looking up its term.
      obtain ⟨value, hc', -⟩ := hext.cell cell c hc
      obtain ⟨enough, hlookup⟩ :=
        hlater cell _ v hc' ((Machine.cached?_of_cell hc').symm.trans hcached)
      have heval : LookedUpAhead host (fun _ => True) (evalCell host enter depth c)
          (evalCell host lookup enough c) :=
        (evalWithLookupAhead henter).rel_evalCell trivial trivial fun _ _ => trivial
      replace heval := heval m final hext hlater
      rw [outcome?_forceCell_unfilled hc hvalue, Run.outcome?_bind] at hrun
      rcases hfirst : (evalCell host enter depth c).outcome? m with _ | ⟨e | w, m₁⟩ <;>
        rw [hfirst] at hrun
      · cases hrun
      · cases hrun
        rcases heval _ _ hfirst v final (hlookup final (.refl final)) with he | ⟨he, -⟩
        · exact .inl he
        · cases he
      · rcases heval _ _ hfirst v final (hlookup final (.refl final)) with he | ⟨he, -, hext₁, -⟩
        · cases he
        · cases he
          have hext₂ := hext₁.fill_of_cached hcached
          simp only [Run.outcome?_fill] at hrun
          cases hrun
          refine .inr ⟨?_, rfl, hext₂, trivial⟩
          cases hw : (m₁.fill cell v).cached? cell with
          | none => rfl
          | some w =>
            cases (hext₂.cached hw).symm.trans hcached
            rfl

theorem lookedUpAhead_enter (bound cell depth depth' : Nat) :
    LookedUpAhead host (fun _ => True) (host.enter bound (.force (.deferred cell) depth))
      (lookup (.force (.deferred cell) depth')) := by
  induction bound generalizing cell depth depth' with
  | zero => exact fun _ _ _ _ _ _ => nofun
  | succ bound ih => exact lookedUpAhead_forceCell ih cell depth depth'

end Evaluation

/-! ## More cells filled -/

/-- On a machine with more cells filled the second computation has the outcome of the first, unless
that runs out of depth. -/
def ahead (host : Host φ) : Comparison φ where
  machines m n := m.Fills n ∧ m.Coherent host ∧ n.Coherent host
  excused e := e = .depthExceeded maxDepth
  absence := .any

section Evaluation

variable [IsEmpty φ]

def evalWithEvalAhead
    (henter : ∀ cell depth, (ahead host).Relates (fun _ => True)
      (enter (.force (.deferred cell) depth)) (enter (.force (.deferred cell) depth))) :
    Coupling (Realm.all φ) host enter enter where
  rel := (ahead host).Relates
  depths depth depth' := depth = depth'
  depths_pred := Nat.succ.inj
  rel_pure := .pure
  rel_throw _ := .throw trivial
  rel_bind := .bind
  rel_spent t env hdepths hzero := by
    obtain rfl : _ = 0 := hzero.elim id fun hzero => hdepths.trans hzero
    subst hdepths
    exact .throw trivial
  rel_force _ hdepths := hdepths ▸ henter _ _
  rel_native {function _ _} _ _ := isEmptyElim function

/-- If forcing a cell succeeds with more cells filled, it has the same result with fewer, unless it
exceeds the depth. -/
theorem forceCell_of_ahead {bound cell depth : Nat} {m ahead m' ahead' : Machine φ} {r : Result φ}
    {w : Value φ} (hfills : m.Fills ahead) (hm : m.Coherent host) (hahead : ahead.Coherent host)
    (hrun : (forceCell host (host.enter bound) depth cell).outcome? m = some (r, m'))
    (hrun' : (forceCell host (host.enter bound) depth cell).outcome? ahead =
      some (.ok w, ahead')) :
    r = .error (.depthExceeded maxDepth) ∨
      r = .ok w ∧ m'.Fills ahead' ∧ m'.Coherent host ∧ ahead'.Coherent host := by
  have hafter : LookedUpAfter host (fun _ => True) (forceCell host (host.enter bound) depth cell)
      (lookup (.force (.deferred cell) depth)) :=
    lookedUpAfter_forceCell (lookedUpAfter_enter bound) cell depth
  obtain ⟨hfills₀, hm', -⟩ := hafter m hm r m' hrun
  obtain ⟨hfills', hahead', hok⟩ := hafter ahead hahead _ _ hrun'
  have hlookup := (hok w rfl).2 ahead' (.refl ahead')
  rcases lookedUpAhead_forceCell (lookedUpAhead_enter bound) cell depth depth m ahead'
    (hfills.trans hfills').toExtends hahead' r m' hrun w ahead' hlookup with hr | ⟨hr, -, hext, -⟩
  · exact .inl hr
  · refine .inr ⟨hr, ⟨hext, ?_⟩, hm', hahead'⟩
    rw [hfills'.size_eq, hfills.size_eq, hfills₀.size_eq]

theorem ahead_forceCell {bound : Nat}
    (henter : ∀ cell depth, (ahead host).Relates (fun _ => True)
      (host.enter bound (.force (.deferred cell) depth))
      (host.enter bound (.force (.deferred cell) depth))) (cell depth : Nat) :
    (ahead host).Relates (fun _ => True) (forceCell host (host.enter bound) depth cell)
      (forceCell host (host.enter bound) depth cell) := by
  intro m n hmachines
  obtain ⟨hfills, hm, hn⟩ := hmachines
  rcases hrun : (forceCell host (host.enter bound) depth cell).outcome? m with _ | ⟨r, m'⟩
  · exact .absent trivial
  have hsuccess : ∀ w n', (forceCell host (host.enter bound) depth cell).outcome? n =
      some (.ok w, n') → (ahead host).Outcomes (fun _ => True) m (some (r, m'))
        ((forceCell host (host.enter bound) depth cell).outcome? n) := by
    intro w n' hrun'
    rcases forceCell_of_ahead hfills hm hn hrun hrun' with rfl | ⟨rfl, hfills', hm', hn'⟩
    · exact .excused rfl
    · rw [hrun']
      exact .both trivial ⟨hfills', hm', hn'⟩ trivial
  cases hc : m.cells[cell]? with
  | none =>
    rw [outcome?_forceCell_missing hc] at hrun
    cases hrun
  | some c =>
    obtain ⟨value, hc', hkeep⟩ := hfills.cell cell c hc
    cases value with
    | some w =>
      have hcached : n.cached? cell = some w := Machine.cached?_of_cell hc'
      exact hsuccess w n (outcome?_forceCell_filled hcached depth)
    | none =>
      have hvalue : c.value = none := Option.eq_none_iff_forall_ne_some.mpr fun v hv =>
        nomatch hkeep v hv
      have heval : (ahead host).Relates (fun _ => True) (evalCell host (host.enter bound) depth c)
          (evalCell host (host.enter bound) depth c) :=
        (evalWithEvalAhead henter).rel_evalCell rfl trivial fun _ _ => trivial
      have hsame : n.cells[cell]? = some c := hc'.trans (by rw [← hvalue])
      have hforce : (forceCell host (host.enter bound) depth cell).outcome? n =
          (evalCell host (host.enter bound) depth c >>= Run.fill cell).outcome? n :=
        outcome?_forceCell_unfilled hsame hvalue depth
      rw [Run.outcome?_bind] at hforce
      rw [outcome?_forceCell_unfilled hc hvalue, Run.outcome?_bind] at hrun
      rcases hfirst : (evalCell host (host.enter bound) depth c).outcome? m with
        _ | ⟨e | v, m₁⟩ <;> rw [hfirst] at hrun
      · cases hrun
      · cases hrun
        rcases heval.of_outcome ⟨hfills, hm, hn⟩ hfirst with ⟨_, ⟨⟩, he⟩ | ⟨n', hrun', hr, hrest⟩
        · exact .excused he
        · rw [hforce, hrun']
          exact .both hr hrest.1 hrest.2
      · rcases heval.of_outcome ⟨hfills, hm, hn⟩ hfirst with ⟨_, ⟨⟩, -⟩ | ⟨n', hrun', -⟩
        exact hsuccess _ _ (hforce.trans (by rw [hrun']; rfl))

theorem ahead_enter (bound : Nat) (request : Request φ) :
    (ahead host).Relates (fun _ => True) (host.enter bound request) (host.enter bound request) := by
  induction bound generalizing request with
  | zero => exact .giveUp fun _ => trivial
  | succ bound ih =>
    have henter : ∀ cell depth, (ahead host).Relates (fun _ => True)
        (host.enter bound (.force (.deferred cell) depth))
        (host.enter bound (.force (.deferred cell) depth)) := fun _ _ => ih _
    cases request with
    | call f x depth => exact (evalWithEvalAhead henter).rel_call (d := depth) rfl trivial trivial
    | force v depth =>
      exact (evalWithEvalAhead henter).rel_answer_force trivial fun cell _ =>
        ahead_forceCell henter cell depth

theorem Operation.ahead (op : Operation φ) :
    (ahead host).Relates (fun _ => True) (op.run host) (op.run host) := by
  refine op.rel_run Comparison.Relates.pure Comparison.Relates.bind ?_ fun _ _ => trivial
  intro request _ m n hmachines
  rw [host.outcome?_request, host.outcome?_request, hmachines.1.size_eq]
  exact ahead_enter _ request m n hmachines

end Evaluation

/-! ## Sessions without host functions -/

/-- Forces deferred values in order, ignoring their results. -/
def Host.forceAll (host : Host φ) : List Nat → Run φ PUnit
  | [] => pure ⟨⟩
  | cell :: cells => do
    let _ ← (host.force (.deferred cell)).attempt
    host.forceAll cells

section Session

variable [IsEmpty φ]

theorem ordered_hostKeeps (host : Host φ) (size : Nat) : ordered.HostKeeps False size host :=
  fun _ _ function => isEmptyElim function

/-- Operations preserve coherence. -/
theorem Operation.coherent (op : Operation φ) {m m' : Machine φ} {r : Result φ}
    (hm : m.Coherent host) (hrun : (op.run host).outcome? m = some (r, m')) :
    m.Fills m' ∧ m'.Coherent host := by
  have hupholds : (Realm.all φ).Upholds (coherence host) _ (op.run host) (op.run host) :=
    op.upholds coherent_enter fun _ _ => trivial
  obtain ⟨-, hm', hfills⟩ := (Realm.upholds_iff.mp hupholds m hm).2 r m' hrun
  exact ⟨hfills, hm'⟩

theorem Stage.Reached.coherent {s : Stage φ} (hs : s.Reached host) :
    (s.machine.Obeys ordered s.machine.cells.size ∧ s.machine.Coherent host) ∧
      ∀ v ∈ s.values, v.Obeys ordered s.machine.cells.size := by
  refine hs.invariant (I := fun m => m.Obeys ordered m.cells.size ∧ m.Coherent host) ?_ ?_ ?_ ?_
  · exact ⟨⟨rfl, by simp [Machine.empty]⟩, .empty⟩
  · exact fun m _ call _ => isEmptyElim call.function
  · exact fun m t env hm ht henv => ⟨hm.1.defer ht henv, hm.2.defer t env⟩
  · intro m m' op r hm hop hrun
    obtain ⟨hfills, hcoherent⟩ := op.coherent hm.2 hrun
    have hkeeps := op.run_keeps id (ordered_hostKeeps host _) hop hm.1
    obtain ⟨r', m'', hrun', hallows, hm'⟩ := hkeeps.exists_outcome
    rw [hrun] at hrun'
    cases hrun'
    refine ⟨⟨hm'.size_eq ▸ hm', hcoherent⟩, hm'.size_eq, ?_⟩
    rintro v rfl
    exact hallows

theorem Host.exists_forceAll {size : Nat} {m : Machine φ} (hm : m.Obeys ordered size)
    (hcoherent : m.Coherent host) {cells : List Nat} (hcells : ∀ cell ∈ cells, cell < size) :
    ∃ m', (host.forceAll cells).outcome? m = some (.ok ⟨⟩, m') ∧ m.Fills m' ∧
      m'.Coherent host := by
  induction cells generalizing m with
  | nil => exact ⟨m, rfl, .refl m, hcoherent⟩
  | cons cell cells ih =>
    obtain ⟨hcell, hcells⟩ := List.forall_mem_cons.mp hcells
    have hkeeps := Discipline.force_keeps id (ordered_hostKeeps host size) (.deferred hcell) hm
    obtain ⟨r, m₁, hforce, -, hm₁⟩ := hkeeps.exists_outcome
    obtain ⟨hfills, hcoherent₁⟩ := (Operation.force (.deferred cell)).coherent hcoherent hforce
    obtain ⟨m', hrest, hfills', hcoherent'⟩ := ih hm₁ hcoherent₁ hcells
    refine ⟨m', ?_, hfills.trans hfills', hcoherent'⟩
    rw [forceAll, Run.outcome?_bind, Run.outcome?_attempt, hforce]
    exact hrest

end Session

/-- In a session without host functions, an operation that does not exceed the depth has the same
result after any deferred values have been forced. -/
theorem caching_transparent [IsEmpty φ] (host : Host φ) {s : Stage φ} (hs : s.Reached host)
    (op : Operation φ) {r : Result φ} {m : Machine φ}
    (hrun : (op.run host).outcome? s.machine = some (r, m))
    (hdepth : r ≠ .error (.depthExceeded 512)) (cells : List Nat)
    (hcells : ∀ cell ∈ cells, cell < s.machine.cells.size) :
    ∃ m₁ m₂, (host.forceAll cells).outcome? s.machine = some (.ok ⟨⟩, m₁) ∧
      (op.run host).outcome? m₁ = some (r, m₂) := by
  obtain ⟨⟨hobeys, hcoherent⟩, -⟩ := hs.coherent
  obtain ⟨m₁, hforce, hfills, hcoherent₁⟩ := host.exists_forceAll hobeys hcoherent hcells
  rcases op.ahead.of_outcome ⟨hfills, hcoherent, hcoherent₁⟩ hrun with
    ⟨e, hr, he⟩ | ⟨m₂, hrun₂, -⟩
  · exact absurd (hr.trans (congrArg Except.error he)) hdepth
  · exact ⟨m₁, m₂, hforce, hrun₂⟩

def plainHost : Host Empty where
  respond _ function := function.elim
  nesting := 0

def waitingStage : Stage Empty :=
  let first := compile [] "(\\x.x) (\\y.y)" .empty
  let second := compile [("a", first.1.value)] "a a" first.2
  ⟨second.2, [second.1.value, first.1.value]⟩

theorem caching_transparent_waiting :
    waitingStage.Reached plainHost ∧
    ∃ m₁ m₂, (plainHost.forceAll [0, 1, 0]).outcome? waitingStage.machine = some (.ok ⟨⟩, m₁) ∧
      (plainHost.force (.deferred 1)).outcome? m₁ = some (.ok (.closure (.slot 0) []), m₂) := by
  have hfirst : Stage.Reached plainHost ⟨(compile [] "(\\x.x) (\\y.y)" .empty).2,
      [(compile [] "(\\x.x) (\\y.y)" .empty).1.value]⟩ :=
    .single (.compile [] "(\\x.x) (\\y.y)" (by simp))
  have hstage : waitingStage.Reached plainHost :=
    hfirst.tail (.compile [("a", (compile [] "(\\x.x) (\\y.y)" .empty).1.value)] "a a" (by simp))
  have hmachine : waitingStage.machine =
      ⟨#[⟨.app (.lambda (.slot 0)) (.lambda (.slot 0)), [], none⟩,
        ⟨.app (.slot 0) (.slot 0), [.deferred 0], none⟩], []⟩ := rfl
  have hrun : ((Operation.force (.deferred 1)).run plainHost).outcome? waitingStage.machine =
      some (.ok (.closure (.slot 0) []),
        ⟨#[⟨.app (.lambda (.slot 0)) (.lambda (.slot 0)), [], some (.closure (.slot 0) [])⟩,
          ⟨.app (.slot 0) (.slot 0), [.deferred 0], some (.closure (.slot 0) [])⟩], []⟩) := by
    -- Evaluated at the written-out machine: the texts are not compiled again at each read of it.
    rw [hmachine]
    rfl
  have hcells : ∀ cell ∈ [0, 1, 0], cell < waitingStage.machine.cells.size := by decide
  exact ⟨hstage, caching_transparent plainHost hstage _ hrun nofun [0, 1, 0] hcells⟩

end LambdaCalculus
