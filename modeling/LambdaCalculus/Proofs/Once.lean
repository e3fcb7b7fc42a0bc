import LambdaCalculus.Proofs.Sessions

/-! # Deferred values are evaluated once

A cell is filled by the first successful evaluation of its term, and only its value is read
afterwards.  This depends on the order of cells: evaluation for a cell forces older cells only, so
it cannot return to the cell itself.  Host functions respect the order if they make their values out
of their argument and those they hold.
-/
namespace LambdaCalculus

variable {φ : Type}

namespace Machine

/-- `size` cells that refer to older ones only, and calls with values in scope. -/
structure Ordered (size : Nat) (m : Machine φ) : Prop where
  obeys : m.Obeys ordered size
  argument : ∀ call ∈ m.calls, call.argument.Obeys ordered size

/-- The machine changes only by filling cells older than `cell`. -/
structure FillsBelow (cell : Nat) (m m' : Machine φ) : Prop where
  fills : m.Fills m'
  above : ∀ i, cell ≤ i → m'.cells[i]? = m.cells[i]?

variable {size i j : Nat} {m m' m'' : Machine φ} {v : Value φ}

namespace Ordered

theorem empty : (Machine.empty : Machine φ).Ordered 0 :=
  ⟨⟨rfl, by simp [Machine.empty]⟩, by simp [Machine.empty]⟩

theorem exists_cell (h : m.Ordered size) (hi : i < size) : ∃ c, m.cells[i]? = some c :=
  ⟨_, Array.getElem?_eq_getElem (h.obeys.size_eq ▸ hi)⟩

theorem record (h : m.Ordered size) (function : φ) (hv : v.Obeys ordered size) :
    (m.record ⟨function, v⟩).Ordered size :=
  ⟨h.obeys.record _, List.forall_mem_cons.mpr ⟨hv, h.argument⟩⟩

theorem fill (h : m.Ordered size) (hv : v.Obeys ordered i) (hsettled : v.Settled) :
    (m.fill i v).Ordered size :=
  ⟨h.obeys.fill hv hsettled, h.argument⟩

theorem defer {t : Term} {env : Env φ} (h : m.Ordered m.cells.size) (ht : t.Within env.length)
    (henv : ∀ v ∈ env, v.Obeys ordered m.cells.size) :
    (m.defer t env).2.Ordered (m.defer t env).2.cells.size :=
  ⟨h.obeys.defer ht henv, fun call hcall => (h.argument call hcall).of_le (by simp [Machine.defer])⟩

end Ordered

namespace FillsBelow

theorem refl (m : Machine φ) : m.FillsBelow i m :=
  ⟨.refl m, fun _ _ => rfl⟩

theorem trans (h : m.FillsBelow i m') (h' : m'.FillsBelow i m'') : m.FillsBelow i m'' :=
  ⟨h.fills.trans h'.fills, fun j hj => (h'.above j hj).trans (h.above j hj)⟩

theorem mono (h : m.FillsBelow i m') (hij : i ≤ j) : m.FillsBelow j m' :=
  ⟨h.fills, fun k hk => h.above k (Nat.le_trans hij hk)⟩

theorem fill (m : Machine φ) (v : Value φ) (hij : i < j) : m.FillsBelow j (m.fill i v) := by
  refine ⟨.fill_self m i v, ?_⟩
  intro k hk
  rw [cells_fill, if_neg (by omega)]

theorem cached? (h : m.FillsBelow i m') : m'.cached? i = m.cached? i := by
  rw [Machine.cached?, Machine.cached?, h.above i (Nat.le_refl i)]

end FillsBelow

end Machine

/-- The invariant and the changes of an evaluation for a cell. -/
def upkeepBelow (size cell : Nat) : Upkeep φ :=
  .shared (Machine.Ordered size) (Machine.FillsBelow cell) .refl .trans

theorem ordered_hosts {host : Host φ} (hhost : host.Honest fun _ => True) {size cell : Nat}
    (hsize : cell ≤ size) : (ordered.realm cell).Hosts (upkeepBelow size cell) host := by
  intro m function held x hm hf hx
  refine ⟨hm.record function (hx.of_le hsize), ⟨.record m _, fun _ _ => rfl⟩, _, ?_,
    hhost _ function held x⟩
  rintro v (rfl | hv)
  · exact hx
  · cases hf with
    | native _ hheld => exact hheld v hv

/-! ## Forcing a cell -/

/-- The possible outcomes of forcing a cell. -/
inductive CellForced (size cell : Nat) (m : Machine φ) : Result φ → Machine φ → Prop where
  | filled {v : Value φ} : m.cached? cell = some v → CellForced size cell m (.ok v) m
  | failed {e : RuntimeError} {m' : Machine φ} : m.cached? cell = none → m'.Ordered size →
      m.FillsBelow cell m' → CellForced size cell m (.error e) m'
  | succeeded {v : Value φ} {m' : Machine φ} : m.cached? cell = none → m'.Ordered size →
      m.FillsBelow cell m' → v.Obeys ordered cell → v.Settled →
      CellForced size cell m (.ok v) (m'.fill cell v)

/-- The postcondition of an entry: cells are filled with values that are not deferred.  If the entry
forces a cell, the cell then holds the result; it is unfilled if the entry fails; and nothing
changes if the cell was filled before. -/
structure Request.Orderly (request : Request φ) (m : Machine φ) (r : Result φ) (m' : Machine φ) :
    Prop where
  fills : m.Fills m'
  settled : ∀ cell v, m'.cached? cell = some v → v.Settled
  ok : ∀ cell depth v, request = .force (.deferred cell) depth → r = .ok v →
    m'.cached? cell = some v
  error : ∀ cell depth e, request = .force (.deferred cell) depth → r = .error e →
    m'.cached? cell = none
  again : ∀ cell depth v, request = .force (.deferred cell) depth → m.cached? cell = some v →
    r = .ok v ∧ m' = m

namespace CellForced

variable {size cell : Nat} {m m' : Machine φ} {r : Result φ}

theorem cached?_ok {v : Value φ} (h : CellForced size cell m (.ok v) m') (hcell : cell < size) :
    m'.cached? cell = some v := by
  cases h with
  | filled hv => exact hv
  | succeeded hnone hm₁ hbelow =>
    obtain ⟨c, hc⟩ := hm₁.exists_cell hcell
    have hvalue : c.value = none :=
      (Machine.cached?_of_cell hc).symm.trans (hbelow.cached?.trans hnone)
    rw [Machine.cached?_fill hc, hvalue, Option.none_or]

theorem cached?_error {e : RuntimeError} (h : CellForced size cell m (.error e) m') :
    m'.cached? cell = none := by
  cases h with
  | failed hnone _ hbelow => exact hbelow.cached?.trans hnone

theorem eq_of_cached {v : Value φ} (h : CellForced size cell m r m')
    (hv : m.cached? cell = some v) : r = .ok v ∧ m' = m := by
  cases h with
  | filled hw =>
    rw [hv] at hw
    cases hw
    exact ⟨rfl, rfl⟩
  | failed hnone => exact nomatch hnone.symm.trans hv
  | succeeded hnone => exact nomatch hnone.symm.trans hv

theorem upheld {newer : Nat} (h : CellForced size cell m r m') (hnewer : cell < newer)
    (hm : m.Ordered size) :
    Allowed (fun _ => True) (ordered.realm newer).callee r ∧ m'.Ordered size ∧
      m.FillsBelow newer m' := by
  cases h with
  | filled hv =>
    obtain ⟨hobeys, hsettled⟩ := hm.obeys.cached hv
    exact ⟨⟨hobeys.of_le (Nat.le_of_lt hnewer), hsettled⟩, hm, .refl m⟩
  | failed _ hm' hbelow => exact ⟨trivial, hm', hbelow.mono (Nat.le_of_lt hnewer)⟩
  | succeeded _ hm₁ hbelow hv hsettled =>
    exact ⟨⟨hv.of_le (Nat.le_of_lt hnewer), hsettled⟩, hm₁.fill hv hsettled,
      (hbelow.mono (Nat.le_of_lt hnewer)).trans (.fill _ _ hnewer)⟩

end CellForced

section Entry

variable {host : Host φ} {size : Nat} {enter enter' : Request φ → Run φ (Value φ)}

/-- Forcing a cell is an evaluation for that cell, which fills it. -/
theorem forceCell_cases (hhost : host.Honest fun _ => True) {cell : Nat} (hcell : cell < size)
    (h : (ordered.realm cell).UpheldFor (upkeepBelow size cell) enter enter') (depth : Nat)
    {m : Machine φ} (hm : m.Ordered size) :
    (forceCell host enter' depth cell).outcome? m = (forceCell host enter depth cell).outcome? m ∧
      ∀ r m', (forceCell host enter depth cell).outcome? m = some (r, m') →
        CellForced size cell m r m' := by
  obtain ⟨c, hc⟩ := hm.exists_cell hcell
  cases hvalue : c.value with
  | some v =>
    have hcached := (Machine.cached?_of_cell hc).trans hvalue
    rw [outcome?_forceCell_filled hcached, outcome?_forceCell_filled hcached]
    refine ⟨rfl, ?_⟩
    rintro r m' ⟨⟩
    exact .filled hcached
  | none =>
    have hnone := (Machine.cached?_of_cell hc).trans hvalue
    have hobeys := hm.obeys.cell cell c hc
    have hupholds : (ordered.realm cell).Upholds (upkeepBelow size cell) _ _ _ :=
      (h.coupling (inScope_open cell) (ordered_hosts hhost (Nat.le_of_lt hcell))).rel_evalCell
        (d := depth) rfl hobeys.term hobeys.env
    obtain ⟨heq, heval⟩ := Realm.upholds_iff.mp hupholds m hm
    replace heq : (evalCell host enter' depth c).outcome? m =
        (evalCell host enter depth c).outcome? m := by
      simpa [upkeepBelow, Upkeep.shared] using heq
    rw [outcome?_forceCell_unfilled hc hvalue, outcome?_forceCell_unfilled hc hvalue,
      Run.outcome?_bind, Run.outcome?_bind, heq]
    refine ⟨rfl, ?_⟩
    rcases hrun : (evalCell host enter depth c).outcome? m with _ | ⟨e | v, m₁⟩
    · exact nofun
    · obtain ⟨-, hm₁, hbelow⟩ := heval _ _ hrun
      rintro r m' ⟨⟩
      exact .failed hnone hm₁ hbelow
    · obtain ⟨⟨hv, hsettled⟩, hm₁, hbelow⟩ := heval _ _ hrun
      have hdone := CellForced.succeeded hnone hm₁ hbelow hv hsettled
      have hcached := hdone.cached?_ok hcell
      intro r m' hfill
      simp only [Run.outcome?_fill, hcached, Option.getD_some] at hfill
      cases hfill
      exact hdone

/-- All entries, for any cell, satisfy their postcondition. -/
theorem ordered_watched (hhost : host.Honest fun _ => True) (bound : Nat) {cell : Nat}
    (hsize : cell ≤ size) :
    (ordered.realm cell).UpheldFor (upkeepBelow size cell) (host.enter bound)
      (host.watched Request.Orderly bound) := by
  induction bound generalizing cell with
  | zero => exact ⟨fun _ _ _ _ _ => .giveUp fun _ => rfl, fun _ _ _ => .giveUp fun _ => rfl⟩
  | succ bound ih =>
    have hforce {older : Nat} (depth : Nat) {m : Machine φ} (holder : older < cell)
        (hm : m.Ordered size) :=
      forceCell_cases hhost (Nat.lt_of_lt_of_le holder hsize)
        (ih (Nat.le_trans (Nat.le_of_lt holder) hsize)) depth hm
    have hanswer : (ordered.realm cell).UpheldFor (upkeepBelow size cell)
        (answer host (host.enter bound)) (answer host (host.watched Request.Orderly bound)) := by
      refine (ih hsize).answer (inScope_open cell) (ordered_hosts hhost hsize) ?_
      refine fun older depth hvalue => Realm.upholds_iff.mpr fun m hm => ?_
      cases hvalue with
      | deferred holder =>
        obtain ⟨heq, hcases⟩ := hforce depth holder hm
        refine ⟨by simpa [upkeepBelow, Upkeep.shared] using heq, ?_⟩
        exact fun r m' hrun => (hcases r m' hrun).upheld holder hm
    refine hanswer.guarded (fun _ => rfl) ?_
    intro request m r m' hrequest hm hrun
    obtain ⟨-, hm', hbelow⟩ := (Realm.upholds_iff.mp (hanswer.request hrequest) m hm).2 r m' hrun
    -- The postcondition for a forced cell.
    have hcell : ∀ older depth, request = .force (.deferred older) depth →
        CellForced size older m r m' ∧ older < size := by
      rintro older depth rfl
      cases hrequest (.deferred older) (by simp [Request.operands]) with
      | deferred holder =>
        exact ⟨(hforce depth holder hm).2 r m' hrun, Nat.lt_of_lt_of_le holder hsize⟩
    refine ⟨hbelow.fills, fun i v hv => (hm'.obeys.cached hv).2, ?_, ?_, ?_⟩
    · rintro older depth v heq rfl
      obtain ⟨hforced, hlt⟩ := hcell older depth heq
      exact hforced.cached?_ok hlt
    · rintro older depth e heq rfl
      exact (hcell older depth heq).1.cached?_error
    · intro older depth v heq hv
      exact (hcell older depth heq).1.eq_of_cached hv

end Entry

/-! ## Filled cells are not evaluated -/

namespace Machine

variable (m : Machine φ) (cell : Nat) (t : Term) (env : Env φ)

def recode : Machine φ :=
  { m with cells := m.cells.modify cell fun c => { c with term := t, env := env } }

theorem cells_recode (i : Nat) :
    (m.recode cell t env).cells[i]? =
      if cell = i then m.cells[i]?.map fun c => { c with term := t, env := env }
      else m.cells[i]? :=
  Array.getElem?_modify

theorem cached?_recode (i : Nat) : (m.recode cell t env).cached? i = m.cached? i := by
  rw [cached?, cached?, cells_recode]
  split
  · cases m.cells[i]? <;> rfl
  · rfl

theorem size_recode : (m.recode cell t env).cells.size = m.cells.size :=
  Array.size_modify

theorem fill_recode (i : Nat) (v : Value φ) :
    (m.recode cell t env).fill i v = (m.fill i v).recode cell t env := by
  have hcells :
      ((m.recode cell t env).fill i v).cells = ((m.fill i v).recode cell t env).cells := by
    apply Array.ext_getElem?
    intro j
    rw [cells_fill, cells_recode, cells_recode, cells_fill]
    by_cases hi : i = j
    · by_cases hc : cell = j
      · rw [if_pos hi, if_pos hc, if_pos hc, if_pos hi, Option.map_map, Option.map_map]
        rfl
      · rw [if_pos hi, if_neg hc, if_neg hc, if_pos hi]
    · rw [if_neg hi, if_neg hi]
  exact congrArg (Machine.mk · m.calls) hcells

/-- A filled cell, and the same machine with another term in that cell. -/
def unread (v : Value φ) : Upkeep φ where
  good m := m.cached? cell = some v
  change _ _ := True
  twin m := m.recode cell t env
  change_refl _ := trivial
  change_trans _ _ := trivial
  twin_size m := m.size_recode cell t env
  twin_calls _ := rfl
  twin_record _ _ := rfl

end Machine

section Unread

variable {host : Host φ} {enter : Request φ → Run φ (Value φ)} {cell : Nat} {t : Term}
  {env : Env φ} {v : Value φ}

theorem unread_hosts (host : Host φ) :
    (Realm.all φ).Hosts (Machine.unread cell t env v) host :=
  fun _ _ _ _ hm _ _ => ⟨hm, trivial, fun _ => True, fun _ _ => trivial, Action.honest_of_all _⟩

theorem unread_fill (i : Nat) (w : Value φ) :
    (Realm.all φ).Upholds (Machine.unread cell t env v) (Realm.all φ).callee (Run.fill i w)
      (Run.fill i w) := by
  rintro m _ ⟨rfl, hm⟩
  change Comparison.Outcomes _ _ m _ ((Run.fill i w).outcome? (m.recode cell t env))
  rw [Run.outcome?_fill, Run.outcome?_fill, m.fill_recode, Machine.cached?_recode]
  exact .both trivial ⟨rfl, (Machine.Fills.fill_self m i w).cached hm⟩ trivial

theorem unread_forceCell
    (h : (Realm.all φ).UpheldFor (Machine.unread cell t env v) enter enter) (i depth : Nat) :
    (Realm.all φ).Upholds (Machine.unread cell t env v) (Realm.all φ).callee
      (forceCell host enter depth i) (forceCell host enter depth i) := by
  rintro m _ ⟨rfl, hm⟩
  change Comparison.Outcomes _ _ m _
    ((forceCell host enter depth i).outcome? (m.recode cell t env))
  cases hc : m.cells[i]? with
  | none =>
    have hc' : (m.recode cell t env).cells[i]? = none := by
      rw [m.cells_recode, hc]
      split <;> rfl
    rw [outcome?_forceCell_missing hc, outcome?_forceCell_missing hc']
    exact .absent rfl
  | some c =>
    cases hvalue : c.value with
    | some w =>
      have hcached := (Machine.cached?_of_cell hc).trans hvalue
      rw [outcome?_forceCell_filled hcached,
        outcome?_forceCell_filled ((m.cached?_recode cell t env i).trans hcached)]
      exact .both trivial ⟨rfl, hm⟩ trivial
    | none =>
      -- The term of this cell is read, so it is another cell.
      have hne : cell ≠ i := by
        rintro rfl
        exact nomatch hvalue.symm.trans ((Machine.cached?_of_cell hc).symm.trans hm)
      have hc' : (m.recode cell t env).cells[i]? = some c := by
        rw [m.cells_recode, if_neg hne, hc]
      rw [outcome?_forceCell_unfilled hc hvalue, outcome?_forceCell_unfilled hc' hvalue]
      have heval := (h.coupling Realm.all_open (unread_hosts host)).rel_evalCell
        (d := depth) (c := c) rfl trivial fun _ _ => trivial
      exact Comparison.Relates.bind heval (fun w _ => unread_fill i w) m _ ⟨rfl, hm⟩

theorem unread_enter (cell : Nat) (t : Term) (env : Env φ) (v : Value φ) (bound : Nat) :
    (Realm.all φ).UpheldFor (Machine.unread cell t env v) (host.enter bound)
      (host.enter bound) := by
  induction bound with
  | zero => exact ⟨fun _ _ _ _ _ => .giveUp fun _ => rfl, fun _ _ _ => .giveUp fun _ => rfl⟩
  | succ bound ih =>
    exact ih.answer Realm.all_open (unread_hosts host) fun i depth _ => unread_forceCell ih i depth

end Unread

/-- An operation does not depend on the term of a filled cell. -/
theorem Operation.outcome?_recode (op : Operation φ) (host : Host φ) {m : Machine φ} {cell : Nat}
    {v : Value φ} (hv : m.cached? cell = some v) (t : Term) (env : Env φ) :
    (op.run host).outcome? (m.recode cell t env) =
      ((op.run host).outcome? m).map fun final => (final.1, final.2.recode cell t env) :=
  (Realm.upholds_iff.mp (op.upholds (unread_enter cell t env v) fun _ _ => trivial) m hv).1

/-! ## Sessions -/

section Session

variable {host : Host φ} {s s' : Stage φ}

theorem ordered_enter (hhost : host.Honest fun _ => True) (size bound : Nat) :
    (ordered.realm size).UpheldFor (upkeepBelow size size) (host.enter bound) (host.enter bound) :=
  (ordered_watched hhost bound (Nat.le_refl size)).diagonal fun _ => rfl

theorem Stage.Reached.keeps_order (hhost : host.Honest fun _ => True) (hs : s.Reached host) :
    s.machine.Ordered s.machine.cells.size ∧
      ∀ v ∈ s.values, v.Obeys ordered s.machine.cells.size := by
  refine hs.invariant (I := fun m => m.Ordered m.cells.size) .empty ?_ ?_ ?_
  · exact fun m hm => hm.argument
  · exact fun m t env hm => hm.defer
  · intro m m' op r hm hop hout
    obtain ⟨hallows, hm', -⟩ :=
      (Realm.upholds_iff.mp (op.upholds (ordered_enter hhost m.cells.size) hop) m hm).2 r m' hout
    refine ⟨hm'.obeys.size_eq ▸ hm', hm'.obeys.size_eq, ?_⟩
    rintro v rfl
    exact hallows

/-- A filled cell keeps its value. -/
theorem Stage.Step.cached (hhost : host.Honest fun _ => True) (hs : s.Reached host)
    (hstep : s.Step host s') {cell : Nat} {v : Value φ} (hv : s.machine.cached? cell = some v) :
    s'.machine.cached? cell = some v := by
  obtain ⟨hm, hvalues⟩ := hs.keeps_order hhost
  rcases hstep.cases with ⟨_, -, rfl⟩ | ⟨t, env, _, m, -, -, hload, rfl⟩ | ⟨op, r, hop, hout, -⟩
  · exact hv
  · rcases t.machine_of_load hload with rfl | rfl
    · exact hv
    · exact (Machine.Extends.defer s.machine t env).cached hv
  · have hrun := op.upholds (ordered_enter hhost _) fun v hv => hvalues v (hop v hv)
    exact ((Realm.upholds_iff.mp hrun s.machine hm).2 r s'.machine hout).2.2.fills.cached hv

theorem Stage.Leads.cached (hhost : host.Honest fun _ => True) (hs : s.Reached host)
    (hleads : s.Leads host s') {cell : Nat} {v : Value φ} (hv : s.machine.cached? cell = some v) :
    s'.machine.cached? cell = some v := by
  induction hleads with
  | refl => exact hv
  | tail hleads hstep ih => exact hstep.cached hhost (hs.trans hleads) ih

theorem Host.outcome?_force_cached (host : Host φ) {m : Machine φ} {cell : Nat} {v : Value φ}
    (hv : m.cached? cell = some v) :
    (host.force (.deferred cell)).outcome? m = some (.ok v, m) := by
  rw [force, outcome?_request]
  exact outcome?_forceCell_filled hv _

end Session

/-- A deferred value is evaluated at most once.  All entries, including those of host functions,
satisfy `Request.Orderly`, and so does forcing a value of the session.  A filled cell keeps its
value throughout the session, forcing it returns that value and changes nothing, and no operation
depends on its term. -/
theorem deferred_evaluated_once (host : Host φ) (hhost : host.Honest fun _ => True) {s : Stage φ}
    (hs : s.Reached host) :
    (∀ request : Request φ, (∀ v ∈ request.operands, v ∈ s.values) →
      host.AllEntries Request.Orderly request s.machine) ∧
    (∀ cell r m, .deferred cell ∈ s.values →
      (host.force (.deferred cell)).outcome? s.machine = some (r, m) →
      (∀ v, r = .ok v → m.cached? cell = some v) ∧ ∀ e, r = .error e → m.cached? cell = none) ∧
    ∀ cell v, s.machine.cached? cell = some v →
      v.Settled ∧
      ∀ s', s.Leads host s' →
        s'.machine.cached? cell = some v ∧
        (host.force (.deferred cell)).outcome? s'.machine = some (.ok v, s'.machine) ∧
        ∀ (op : Operation φ) (t : Term) (env : Env φ),
          (op.run host).outcome? (s'.machine.recode cell t env) =
            ((op.run host).outcome? s'.machine).map fun final =>
              (final.1, final.2.recode cell t env) := by
  obtain ⟨hm, hvalues⟩ := hs.keeps_order hhost
  have hentries : ∀ request : Request φ, (∀ v ∈ request.operands, v ∈ s.values) →
      host.AllEntries Request.Orderly request s.machine := fun request hrequest =>
    Realm.UpheldFor.allEntries (fun _ => rfl)
      (fun bound => ordered_watched hhost bound (Nat.le_refl s.machine.cells.size))
      (fun v hv => hvalues v (hrequest v hv)) hm
  refine ⟨hentries, ?_, ?_⟩
  · intro cell r m hcell hforce
    rw [Host.force, host.outcome?_request] at hforce
    have horderly := (hentries (.force (.deferred cell) maxDepth)
      (by simpa [Request.operands] using hcell)).outermost hforce
    exact ⟨fun v => horderly.ok cell maxDepth v rfl, fun e => horderly.error cell maxDepth e rfl⟩
  · intro cell v hv
    refine ⟨(hm.obeys.cached hv).2, ?_⟩
    intro s' hleads
    have hv' := Stage.Leads.cached hhost hs hleads hv
    exact ⟨hv', host.outcome?_force_cached hv', fun op t env => op.outcome?_recode host hv' t env⟩

theorem Builtin.honest : Builtin.host.Honest fun _ => True := by
  intro calls b held x
  have hown : (held.headD .undefined).MadeOf fun v => v = x ∨ v ∈ held := by
    cases held with
    | nil => exact .undefined
    | cons own rest => exact .given (.inr List.mem_cons_self)
  have hx : x.MadeOf fun v => v = x ∨ v ∈ held := .given (.inl rfl)
  -- Answers are made of what is given together with the answer itself.
  have hdone : ∀ v : Value Builtin, v.MadeOf fun w => (w = x ∨ w ∈ held) ∨ w = v :=
    fun v => .given (.inr rfl)
  obtain ⟨kind, label⟩ := b
  cases kind with
  | identity => exact hx
  | wrap => exact .atom _
  | successor =>
    refine ⟨hx, fun v => ?_, fun e _ => .atom _⟩
    cases v <;> exact .atom _
  | constant => exact hown
  | feed => exact ⟨hx, hown, hdone, fun e _ => trivial⟩
  | via => exact ⟨hown, hx, hdone, fun e _ => trivial⟩
  | force => exact ⟨hx, hdone, fun e _ => trivial⟩
  | inspect =>
    refine ⟨hx, fun v => ?_, fun e _ => ⟨hx, fun w => .atom _, fun e _ => .atom _⟩⟩
    cases v with
    | atom name => exact .atom _
    | undefined => exact ⟨.given (.inl (.inl rfl)), fun w => .atom _, fun e _ => .atom _⟩
    | closure body env => exact ⟨.given (.inl (.inl rfl)), fun w => .atom _, fun e _ => .atom _⟩
    | native function held =>
      exact ⟨.given (.inl (.inl rfl)), fun w => .atom _, fun e _ => .atom _⟩
    | deferred cell => exact ⟨.given (.inl (.inl rfl)), fun w => .atom _, fun e _ => .atom _⟩
  | pair => exact .native _ (by simpa using hx)
  | second => exact .atom _
  | fail error => trivial

/-- Returns the atom it holds. -/
def keeping : Value Builtin := .native ⟨.constant, "k"⟩ [.atom "a"]

/-- That function, and a deferred call of it with itself. -/
def keepingStage : Stage Builtin :=
  ⟨(compile [("k", keeping)] "k k" .empty).2,
    [(compile [("k", keeping)] "k k" .empty).1.value, keeping]⟩

theorem deferred_evaluated_once_keeping :
    Builtin.host.Honest (fun _ => True) ∧
    ∃ s : Stage Builtin, s.Reached Builtin.host ∧ s.machine.cached? 0 = some (.atom "a") ∧
      ∀ s', s.Leads Builtin.host s' →
        (Builtin.host.force (.deferred 0)).outcome? s'.machine =
          some (.ok (.atom "a"), s'.machine) := by
  have hmake : keeping.MadeOf (Stage.start : Stage Builtin).Known :=
    .native _ (by simpa using .atom "a")
  have hcompiled : keepingStage.Reached Builtin.host :=
    .tail (.single (.make hmake)) (.compile [("k", keeping)] "k k" (by simp))
  have hforce : ∃ m, ((Operation.force (.deferred 0)).run Builtin.host).outcome?
      keepingStage.machine = some (.ok (.atom "a"), m) ∧ m.cached? 0 = some (.atom "a") :=
    ⟨_, rfl, rfl⟩
  obtain ⟨m, hforce, hcached⟩ := hforce
  have hforced : keepingStage.Step Builtin.host ⟨m, .atom "a" :: keepingStage.values⟩ := by
    refine .operate (.force (.deferred 0)) ?_ hforce
    intro v hv
    rw [List.mem_singleton.mp hv]
    exact List.mem_cons_self
  have hreached := hcompiled.tail hforced
  refine ⟨Builtin.honest, _, hreached, hcached, ?_⟩
  intro s' hleads
  exact (((deferred_evaluated_once Builtin.host Builtin.honest hreached).2.2 0 _ hcached).2 s'
    hleads).2.1

end LambdaCalculus
