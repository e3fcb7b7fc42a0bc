import LambdaCalculus.Proofs.Depth
import LambdaCalculus.Proofs.Once

/-! # Termination of evaluation

The remaining depth bounds evaluation between two entries only: forcing a deferred value, forcing
its result, and calling it use no depth.  Nested entries are bounded by the order of cells, each of
which refers to older ones only.  So evaluation terminates for all terms, unless functions of the
host enter it again or return values that they have stored.

The number of nested entries is bounded in the definition of evaluation.  Termination means that the
bound is irrelevant: with every bound above the number of cells evaluation has an outcome, and
always the same.
-/
namespace LambdaCalculus

variable {φ : Type}

/-! ## Quiet functions -/

/-- The values that a host can make out of given ones with certain functions. -/
inductive Value.MadeWith (functions : φ → Prop) (given : Value φ → Prop) : Value φ → Prop where
  | given {v : Value φ} : given v → MadeWith functions given v
  | undefined : MadeWith functions given .undefined
  | atom (name : String) : MadeWith functions given (.atom name)
  | native {function : φ} {held : List (Value φ)} : functions function →
      (∀ v ∈ held, MadeWith functions given v) → MadeWith functions given (.native function held)

/-- The `quiet` functions return at once, without calling or forcing any value, and all functions in
their results are quiet or given. -/
def Host.Quiet (host : Host φ) (quiet : φ → Prop) : Prop :=
  ∀ (calls : List (Call φ)) (function : φ) (held : List (Value φ)) (x : Value φ), quiet function →
    ∃ result, host.respond calls function held x = .done result ∧
      ∀ v, result = .ok v → v.MadeWith quiet fun w => w = x ∨ w ∈ held

/-- The components of a value, including those of its cells. -/
inductive Machine.Holds (m : Machine φ) (v : Value φ) : Value φ → Prop where
  | self : Holds m v v
  | around {body : Term} {env : Env φ} {w : Value φ} :
      Holds m v (.closure body env) → w ∈ env → Holds m v w
  | held {function : φ} {held : List (Value φ)} {w : Value φ} :
      Holds m v (.native function held) → w ∈ held → Holds m v w
  | waiting {cell : Nat} {c : Cell φ} {w : Value φ} :
      Holds m v (.deferred cell) → m.cells[cell]? = some c → w ∈ c.env → Holds m v w
  | cached {cell : Nat} {w : Value φ} :
      Holds m v (.deferred cell) → m.cached? cell = some w → Holds m v w

theorem Machine.Holds.trans {m : Machine φ} {u v w : Value φ} (h : m.Holds u v)
    (h' : m.Holds v w) : m.Holds u w := by
  induction h' with
  | self => exact h
  | around _ hw ih => exact .around ih hw
  | held _ hw ih => exact .held ih hw
  | waiting _ hc hw ih => exact .waiting ih hc hw
  | cached _ hw ih => exact .cached ih hw

/-- All functions in the value satisfy `functions`. -/
def Machine.OnlyHolds (m : Machine φ) (functions : φ → Prop) (v : Value φ) : Prop :=
  ∀ function held, m.Holds v (.native function held) → functions function

theorem Machine.OnlyHolds.of_holds {m : Machine φ} {functions : φ → Prop} {v w : Value φ}
    (h : m.OnlyHolds functions v) (hw : m.Holds v w) : m.OnlyHolds functions w :=
  fun function held hholds => h function held (hw.trans hholds)

/-! ## Regions of a machine -/

/-- The functions and cells that may occur in an evaluation. -/
structure Region (φ : Type) where
  function : φ → Prop
  cell : Nat → Prop

/-- A value made of functions and older cells of the region. -/
inductive Value.Inside (g : Region φ) (cell : Nat) : Value φ → Prop where
  | undefined : Inside g cell .undefined
  | atom (name : String) : Inside g cell (.atom name)
  | closure (body : Term) {env : Env φ} :
      (∀ v ∈ env, Inside g cell v) → Inside g cell (.closure body env)
  | native {function : φ} {held : List (Value φ)} : g.function function →
      (∀ v ∈ held, Inside g cell v) → Inside g cell (.native function held)
  | deferred {older : Nat} : g.cell older → older < cell → Inside g cell (.deferred older)

/-- The cells of the region refer to older ones of it. -/
structure Machine.Inside (g : Region φ) (size : Nat) (m : Machine φ) : Prop where
  size_eq : m.cells.size = size
  env : ∀ (cell : Nat) (c : Cell φ), g.cell cell → m.cells[cell]? = some c →
    ∀ v ∈ c.env, v.Inside g cell
  value : ∀ (cell : Nat) (v : Value φ), g.cell cell → m.cached? cell = some v →
    v.Inside g cell ∧ v.Settled

namespace Value.Inside

variable {g : Region φ} {cell newer : Nat} {v : Value φ}

theorem of_le (h : v.Inside g cell) (hle : cell ≤ newer) : v.Inside g newer := by
  induction h with
  | undefined => exact .undefined
  | atom name => exact .atom name
  | closure body _ ih => exact .closure body ih
  | native hfunction _ ih => exact .native hfunction ih
  | deferred hcell hlt => exact .deferred hcell (Nat.lt_of_lt_of_le hlt hle)

theorem of_madeWith {given : Value φ → Prop} (hgiven : ∀ w, given w → w.Inside g cell)
    (h : v.MadeWith g.function given) : v.Inside g cell := by
  induction h with
  | given hw => exact hgiven _ hw
  | undefined => exact .undefined
  | atom name => exact .atom name
  | native hfunction _ ih => exact .native hfunction ih

end Value.Inside

namespace Machine.Inside

variable {g : Region φ} {size cell : Nat} {m : Machine φ} {v : Value φ}

theorem record (h : m.Inside g size) (call : Call φ) : (m.record call).Inside g size :=
  ⟨h.size_eq, h.env, h.value⟩

theorem fill (h : m.Inside g size) (hv : v.Inside g cell) (hsettled : v.Settled) :
    (m.fill cell v).Inside g size := by
  refine ⟨(m.size_fill cell v).trans h.size_eq, ?_, ?_⟩
  · intro i c hi hc
    obtain ⟨value, hold, -⟩ := exists_cell_of_fill hc
    have henv := h.env i _ hi hold
    exact henv
  · intro i w hi hw
    obtain ⟨c, hc, hw⟩ := cached?_eq_some_iff.mp hw
    obtain ⟨value, hold, hvalue⟩ := exists_cell_of_fill hc
    rcases hvalue w hw with hw | ⟨rfl, -, rfl⟩
    · exact h.value i w hi ((cached?_of_cell hold).trans hw)
    · exact ⟨hv, hsettled⟩

end Machine.Inside

namespace Region

def realm (g : Region φ) (cell : Nat) : Realm φ where
  term _ _ := True
  value v := v.Inside g cell
  callee v := v.Inside g cell ∧ v.Settled
  failure _ := True
  term_app _ := ⟨trivial, trivial⟩
  value_undefined _ := .undefined
  value_lambda _ henv := .closure _ henv
  value_of_callee h := h.1
  callee_of_settled h hsettled := ⟨h, hsettled⟩
  callee_closure h := by
    cases h.1 with
    | closure _ henv => exact ⟨trivial, henv⟩
  failure_depth := trivial
  failure_slot _ _ := trivial
  failure_callee _ _ := trivial

/-- On a machine inside the region both computations have the same outcome, with a machine inside
the region. -/
def comparison (g : Region φ) (size : Nat) : Comparison φ where
  machines m n := m = n ∧ m.Inside g size
  absence := .never

def EndAlike (g : Region φ) (size : Nat) (P : Value φ → Prop) (run run' : Run φ (Value φ)) : Prop :=
  (g.comparison size).Relates P run run'

variable {g : Region φ} {size cell : Nat}

theorem EndAlike.exists_outcome {P : Value φ → Prop} {run run' : Run φ (Value φ)}
    {m : Machine φ} (h : g.EndAlike size P run run') (hm : m.Inside g size) :
    ∃ r m', run.outcome? m = some (r, m') ∧ run'.outcome? m = some (r, m') := by
  have hboth := h m m ⟨rfl, hm⟩
  generalize run.outcome? m = o at hboth ⊢
  generalize run'.outcome? m = o' at hboth ⊢
  cases hboth with
  | absent habsent => exact habsent.elim
  | excused he => exact he.elim
  | both _ hmachines => exact ⟨_, _, rfl, by rw [hmachines.1]⟩

theorem endAlike_fill {v : Value φ} (hcell : g.cell cell) (hv : v.Inside g cell)
    (hsettled : v.Settled) :
    g.EndAlike size (fun v => v.Inside g cell ∧ v.Settled) (Run.fill cell v) (Run.fill cell v) := by
  rintro m _ ⟨rfl, hm⟩
  have hfilled := hm.fill hv hsettled
  refine .both ?_ ⟨rfl, hfilled⟩ trivial
  cases hcached : (m.fill cell v).cached? cell with
  | none => exact ⟨hv, hsettled⟩
  | some w => exact hfilled.value cell w hcell hcached

section Entry

variable {host : Host φ} {enter enter' : Request φ → Run φ (Value φ)}

theorem endAlike_callHost (hhost : host.Quiet g.function) {function : φ} {held : List (Value φ)}
    {x : Value φ} (hf : (Value.native function held).Inside g cell) (hx : x.Inside g cell) :
    g.EndAlike size (·.Inside g cell) (callHost host enter function held x)
      (callHost host enter' function held x) := by
  rintro m _ ⟨rfl, hm⟩
  cases hf with
  | native hfunction hheld =>
    obtain ⟨result, hrespond, hresult⟩ :=
      hhost (m.record ⟨function, x⟩).calls function held x hfunction
    -- The function makes no request, so it does not matter how requests are answered.
    have hrun : ∀ enter, (callHost host enter function held x).outcome? m =
        some (result, m.record ⟨function, x⟩) := by
      intro enter
      simp only [callHost, Run.outcome?_bind, Run.outcome?_modify, Run.outcome?_get, hrespond,
        perform, Run.outcome?_ofResult]
    rw [hrun, hrun]
    refine .both ?_ ⟨rfl, hm.record _⟩ trivial
    cases result with
    | error e => trivial
    | ok v =>
      apply Value.Inside.of_madeWith ?_ (hresult v rfl)
      rintro w (rfl | hw)
      · exact hx
      · exact hheld w hw

/-- Forcing older cells of the region terminates, with the same outcome for both ways of answering
entries. -/
def ForceAlike (g : Region φ) (size cell : Nat) (enter enter' : Request φ → Run φ (Value φ)) :
    Prop :=
  ∀ older depth, g.cell older → older < cell →
    g.EndAlike size (fun v => v.Inside g cell ∧ v.Settled)
      (enter (.force (.deferred older) depth)) (enter' (.force (.deferred older) depth))

def coupling (hhost : host.Quiet g.function) (hforce : g.ForceAlike size cell enter enter') :
    Coupling (g.realm cell) host enter enter' where
  rel := g.EndAlike size
  depths depth depth' := depth = depth'
  depths_pred := Nat.succ.inj
  rel_pure := .pure
  rel_throw _ := .throw trivial
  rel_bind := .bind
  rel_spent t env hdepths hzero := by
    obtain rfl : _ = 0 := hzero.elim id fun h => hdepths.trans h
    subst hdepths
    exact .throw trivial
  rel_force hcell hdepths := by
    subst hdepths
    cases hcell with
    | deferred hcell hlt => exact hforce _ _ hcell hlt
  rel_native hf hx := endAlike_callHost hhost hf.1 hx

theorem endAlike_forceCell (hhost : host.Quiet g.function)
    (hforce : g.ForceAlike size cell enter enter') (hcell : g.cell cell) (hsize : cell < size)
    (depth : Nat) :
    g.EndAlike size (fun v => v.Inside g cell ∧ v.Settled) (forceCell host enter depth cell)
      (forceCell host enter' depth cell) := by
  rintro m _ ⟨rfl, hm⟩
  obtain ⟨c, hc⟩ : ∃ c, m.cells[cell]? = some c :=
    ⟨_, Array.getElem?_eq_getElem (hm.size_eq ▸ hsize)⟩
  cases hvalue : c.value with
  | some v =>
    have hcached := (Machine.cached?_of_cell hc).trans hvalue
    rw [outcome?_forceCell_filled hcached, outcome?_forceCell_filled hcached]
    exact .both (hm.value cell v hcell hcached) ⟨rfl, hm⟩ trivial
  | none =>
    have heval : g.EndAlike size (fun v => v.Inside g cell ∧ v.Settled)
        (evalCell host enter depth c) (evalCell host enter' depth c) :=
      (coupling hhost hforce).rel_evalCell rfl trivial (hm.env cell c hcell hc)
    rw [outcome?_forceCell_unfilled hc hvalue, outcome?_forceCell_unfilled hc hvalue]
    exact heval.bind (fun v hv => endAlike_fill hcell hv.1 hv.2) m m ⟨rfl, hm⟩

/-- Forcing cells of the region terminates if as many entries may be nested as there are older
cells. -/
theorem forceAlike_enter (hhost : host.Quiet g.function) {bound bound' : Nat}
    (hbound : cell ≤ bound) (hbound' : cell ≤ bound') (hsize : cell ≤ size) :
    g.ForceAlike size cell (host.enter bound) (host.enter bound') := by
  induction bound generalizing cell bound' with
  | zero =>
    intro older depth _ hlt
    omega
  | succ bound ih =>
    intro older depth holder hlt
    obtain ⟨bound', rfl⟩ := Nat.exists_eq_add_one_of_ne_zero (show bound' ≠ 0 by omega)
    have hforce : g.ForceAlike size older (host.enter bound) (host.enter bound') :=
      ih (by omega) (by omega) (by omega)
    refine (endAlike_forceCell hhost hforce holder (by omega) depth).mono fun v hv => ?_
    exact ⟨hv.1.of_le (Nat.le_of_lt hlt), hv.2⟩

/-- Every request about values of the region terminates, for every bound above the number of cells.
-/
theorem endAlike_request (hhost : host.Quiet g.function) {bound bound' : Nat}
    (hbound : size < bound) (hbound' : size < bound') {request : Request φ}
    (hrequest : ∀ v ∈ request.operands, v.Inside g size) :
    g.EndAlike size (·.Inside g size) (host.enter bound request) (host.enter bound' request) := by
  obtain ⟨bound, rfl⟩ := Nat.exists_eq_add_one_of_ne_zero (Nat.ne_zero_of_lt hbound)
  obtain ⟨bound', rfl⟩ := Nat.exists_eq_add_one_of_ne_zero (Nat.ne_zero_of_lt hbound')
  have hforce : g.ForceAlike size size (host.enter bound) (host.enter bound') :=
    forceAlike_enter hhost (Nat.le_of_lt_succ hbound) (Nat.le_of_lt_succ hbound') Nat.le.refl
  cases request with
  | force v depth =>
    have hv : v.Inside g size := hrequest v (by simp [Request.operands])
    have hends : g.EndAlike size (fun v => v.Inside g size ∧ v.Settled)
        (host.enter (bound + 1) (.force v depth)) (host.enter (bound' + 1) (.force v depth)) := by
      refine (coupling hhost hforce).rel_answer_force hv ?_
      rintro cell rfl
      cases hv with
      | deferred hcell hlt =>
        exact forceAlike_enter hhost (Nat.le_of_lt hbound) (Nat.le_of_lt hbound') Nat.le.refl cell
          depth hcell hlt
    exact hends.mono fun v hv => hv.1
  | call f x depth =>
    exact (coupling hhost hforce).rel_call rfl (hrequest f (by simp [Request.operands]))
      (hrequest x (by simp [Request.operands]))

/-- Every operation terminates, with the bound read off the machine and with any other. -/
theorem endAlike_run (hhost : host.Quiet g.function) {bound : Nat} (hbound : size < bound)
    (op : Operation φ) (hop : ∀ v ∈ op.operands, v.Inside g size) :
    g.EndAlike size (·.Inside g size) (op.run host) (op.runBy (host.enter bound)) := by
  rw [op.run_eq_runBy]
  refine op.rel_runBy Comparison.Relates.pure Comparison.Relates.bind ?_ hop
  rintro request hrequest m _ ⟨rfl, hm⟩
  rw [host.outcome?_request, hm.size_eq]
  exact endAlike_request hhost (by omega) hbound hrequest m m ⟨rfl, hm⟩

end Entry

end Region

/-! ## Sessions -/

/-- The cells of a machine in which all functions satisfy `functions`. -/
def Machine.region (m : Machine φ) (functions : φ → Prop) : Region φ where
  function := functions
  cell i := m.OnlyHolds functions (.deferred i)

theorem Value.Obeys.inside {m : Machine φ} {functions : φ → Prop} {cell : Nat} {v : Value φ}
    (h : v.Obeys ordered cell) (hv : m.OnlyHolds functions v) :
    v.Inside (m.region functions) cell := by
  induction h with
  | undefined => exact .undefined
  | atom => exact .atom _
  | closure _ _ ih => exact .closure _ fun w hw => ih w hw (hv.of_holds (.around .self hw))
  | native _ _ ih =>
    exact .native (hv _ _ .self) fun w hw => ih w hw (hv.of_holds (.held .self hw))
  | deferred hlt => exact .deferred hv hlt

/-- If cells refer to older ones only, the machine is inside its region. -/
theorem Machine.Ordered.inside {m : Machine φ} {size : Nat} (h : m.Ordered size)
    (functions : φ → Prop) : m.Inside (m.region functions) size := by
  refine ⟨h.obeys.size_eq, ?_, ?_⟩
  · intro cell c hcell hc v hv
    exact ((h.obeys.cell cell c hc).env v hv).inside (hcell.of_holds (.waiting .self hc hv))
  · intro cell v hcell hv
    obtain ⟨hobeys, hsettled⟩ := h.obeys.cached hv
    exact ⟨hobeys.inside (hcell.of_holds (.cached .self hv)), hsettled⟩

/-- A value of the stage in which all functions satisfy `functions`. -/
def Stage.Has (s : Stage φ) (functions : φ → Prop) (v : Value φ) : Prop :=
  v ∈ s.values ∧ s.machine.OnlyHolds functions v

section Session

variable {host : Host φ} {quiet : φ → Prop} {s : Stage φ}

theorem Stage.Reached.exists_outcome (hhost : host.Honest fun _ => True)
    (hquiet : host.Quiet quiet) (hs : s.Reached host) (op : Operation φ)
    (hop : ∀ v ∈ op.operands, s.Has quiet v) :
    ∃ r m, (op.run host).outcome? s.machine = some (r, m) ∧
      ∀ bound, s.machine.cells.size < bound →
        (op.runBy (host.enter bound)).outcome? s.machine = some (r, m) := by
  obtain ⟨hm, hvalues⟩ := hs.keeps_order hhost
  have hinside : ∀ v ∈ op.operands,
      v.Inside (s.machine.region quiet) s.machine.cells.size := fun v hv =>
    (hvalues v (hop v hv).1).inside (hop v hv).2
  have hends (bound : Nat) (hbound : s.machine.cells.size < bound) :
      (s.machine.region quiet).EndAlike _ _ (op.run host) (op.runBy (host.enter bound)) :=
    Region.endAlike_run hquiet hbound op hinside
  obtain ⟨r, m, hrun, -⟩ := (hends _ (Nat.lt_succ_self _)).exists_outcome (hm.inside quiet)
  refine ⟨r, m, hrun, ?_⟩
  intro bound hbound
  obtain ⟨r', m', hrun', hbounded⟩ := (hends bound hbound).exists_outcome (hm.inside quiet)
  exact hbounded.trans (hrun'.symm.trans hrun)

end Session

/-- The builtin functions that return at once. -/
def Builtin.isQuiet (b : Builtin) : Bool :=
  match b.kind with
  | .identity | .wrap | .constant | .pair | .second | .fail _ => true
  | .successor | .feed | .via | .force | .inspect => false

theorem Builtin.quiet : Builtin.host.Quiet fun b => b.isQuiet = true := by
  intro calls b held x hb
  have hown : (held.headD .undefined).MadeWith (fun b => Builtin.isQuiet b = true)
      fun v => v = x ∨ v ∈ held := by
    cases held with
    | nil => exact .undefined
    | cons own rest => exact .given (.inr List.mem_cons_self)
  obtain ⟨kind, label⟩ := b
  cases kind with
  | identity => exact ⟨_, rfl, by rintro v ⟨⟩; exact .given (.inl rfl)⟩
  | wrap => exact ⟨_, rfl, by rintro v ⟨⟩; exact .atom _⟩
  | constant => exact ⟨_, rfl, by rintro v ⟨⟩; exact hown⟩
  | pair => exact ⟨_, rfl, by rintro v ⟨⟩; exact .native rfl (by simpa using .given (.inl rfl))⟩
  | second => exact ⟨_, rfl, by rintro v ⟨⟩; exact .atom _⟩
  | fail error => exact ⟨_, rfl, nofun⟩
  | successor => cases hb
  | feed => cases hb
  | via => cases hb
  | force => cases hb
  | inspect => cases hb

end LambdaCalculus
