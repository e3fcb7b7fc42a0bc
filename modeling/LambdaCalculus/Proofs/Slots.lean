import LambdaCalculus.Proofs.Sessions

/-! # Slots in range

In every session, evaluation finds a value for every slot it looks up.  Host functions may store all
values they meet and pass them on; it is only assumed that they do not raise the error of a missing
slot themselves.
-/
namespace LambdaCalculus

variable {φ : Type}

/-- Slots in range, and any error except a missing slot. -/
def ranged : Discipline φ := inScope (fun e => ∀ i, e ≠ .missingSlot i) fun _ h => h

/-- All values on a machine with `size` cells have their slots in range.  Since host functions can
store values, a cell may hold a reference to a newer one. -/
structure Machine.Ranged (size : Nat) (m : Machine φ) : Prop where
  size_eq : m.cells.size = size
  cell : ∀ (i : Nat) (c : Cell φ), m.cells[i]? = some c → c.Obeys ranged size
  argument : ∀ call ∈ m.calls, call.argument.Obeys ranged size

namespace Machine.Ranged

variable {m : Machine φ} {size : Nat}

theorem empty : (Machine.empty : Machine φ).Ranged 0 :=
  ⟨rfl, by simp [Machine.empty], by simp [Machine.empty]⟩

theorem record (h : m.Ranged size) (function : φ) {x : Value φ} (hx : x.Obeys ranged size) :
    (m.record ⟨function, x⟩).Ranged size :=
  ⟨h.size_eq, h.cell, List.forall_mem_cons.mpr ⟨hx, h.argument⟩⟩

theorem fill (h : m.Ranged size) (cell : Nat) {v : Value φ} (hv : v.Obeys ranged size)
    (hsettled : v.Settled) : (m.fill cell v).Ranged size := by
  refine ⟨(m.size_fill cell v).trans h.size_eq, ?_, h.argument⟩
  intro i c hc
  obtain ⟨value, hold, hvalue⟩ := exists_cell_of_fill hc
  obtain ⟨hterm, henv, hkept⟩ := h.cell i _ hold
  refine ⟨hterm, henv, ?_⟩
  intro w hw
  rcases hvalue w hw with hw | ⟨-, -, rfl⟩
  · exact hkept w hw
  · exact ⟨hv, hsettled⟩

theorem cached?_getD (h : m.Ranged size) (cell : Nat) {v : Value φ} (hv : v.Obeys ranged size)
    (hsettled : v.Settled) :
    ((m.cached? cell).getD v).Obeys ranged size ∧ ((m.cached? cell).getD v).Settled := by
  cases hcached : m.cached? cell with
  | none => exact ⟨hv, hsettled⟩
  | some w =>
    obtain ⟨c, hc, hw⟩ := cached?_eq_some_iff.mp hcached
    exact (h.cell cell c hc).value w hw

theorem met (h : m.Ranged size) {function : φ} {held : List (Value φ)} {x : Value φ}
    (hf : (Value.native function held).Obeys ranged size) (hx : x.Obeys ranged size) :
    ∀ v, (v = x ∨ v ∈ held ∨ ∃ call ∈ m.calls, v = call.argument) → v.Obeys ranged size := by
  rintro v (rfl | hv | ⟨call, hcall, rfl⟩)
  · exact hx
  · cases hf with
    | native _ hheld => exact hheld v hv
  · exact h.argument call hcall

theorem defer {t : Term} {env : Env φ} (h : m.Ranged m.cells.size) (ht : t.Within env.length)
    (henv : ∀ v ∈ env, v.Obeys ranged m.cells.size) :
    (m.defer t env).2.Ranged (m.defer t env).2.cells.size := by
  have hle : m.cells.size ≤ (m.defer t env).2.cells.size := by simp [Machine.defer]
  refine ⟨rfl, ?_, fun call hcall => (h.argument call hcall).of_le hle⟩
  intro i c hc
  rcases cell_of_defer hc with hc | ⟨-, rfl⟩
  · obtain ⟨hterm, henv, hvalue⟩ := h.cell i c hc
    exact ⟨hterm, fun v hv => (henv v hv).of_le hle,
      fun v hv => ⟨(hvalue v hv).1.of_le hle, (hvalue v hv).2⟩⟩
  · exact ⟨ht, fun v hv => (henv v hv).of_le hle, by simp⟩

def upkeep (size : Nat) : Upkeep φ :=
  .shared (Machine.Ranged size) (fun _ _ => True) (fun _ => trivial) fun _ _ => trivial

end Machine.Ranged

/-! ## Evaluation stays in range -/

section Entry

variable {host : Host φ} {size : Nat}

theorem ranged_hosts (hhost : host.Collecting fun e => ∀ i, e ≠ .missingSlot i) :
    (ranged.realm size).Hosts (Machine.Ranged.upkeep size) host := by
  intro m function held x hm hf hx
  have hm' : (m.record ⟨function, x⟩).Ranged size := hm.record function hx
  exact ⟨hm', trivial, _, hm'.met hf hx, hhost _ function held x⟩

theorem ranged_fill (cell : Nat) {v : Value φ} (hv : (ranged.realm size).callee v) :
    (ranged.realm size).Upholds (Machine.Ranged.upkeep size) (ranged.realm size).callee
      (Run.fill cell v) (Run.fill cell v) := by
  rintro m _ ⟨rfl, hm⟩
  have hfilled := hm.fill cell hv.1 hv.2
  exact .both (hfilled.cached?_getD cell hv.1 hv.2) ⟨rfl, hfilled⟩ trivial

theorem ranged_forceCell (hhost : host.Collecting fun e => ∀ i, e ≠ .missingSlot i)
    {enter enter' : Request φ → Run φ (Value φ)}
    (h : (ranged.realm size).UpheldFor (Machine.Ranged.upkeep size) enter enter') (cell depth : Nat)
    (hcell : (Value.deferred cell : Value φ).Obeys ranged size) :
    (ranged.realm size).Upholds (Machine.Ranged.upkeep size) (ranged.realm size).callee
      (forceCell host enter depth cell) (forceCell host enter' depth cell) := by
  intro m n hmachines
  obtain ⟨rfl, hm⟩ : m = n ∧ m.Ranged size := hmachines
  cases hcell with
  | deferred hlt =>
    obtain ⟨c, hc⟩ : ∃ c, m.cells[cell]? = some c :=
      ⟨_, Array.getElem?_eq_getElem (hm.size_eq ▸ hlt)⟩
    have hobeys := hm.cell cell c hc
    cases hvalue : c.value with
    | some v =>
      have hcached := (Machine.cached?_of_cell hc).trans hvalue
      rw [outcome?_forceCell_filled hcached, outcome?_forceCell_filled hcached]
      exact .both (hobeys.value v hvalue) ⟨rfl, hm⟩ trivial
    | none =>
      rw [outcome?_forceCell_unfilled hc hvalue, outcome?_forceCell_unfilled hc hvalue]
      have heval := (h.coupling (inScope_open size) (ranged_hosts hhost)).rel_evalCell
        (d := depth) rfl hobeys.term hobeys.env
      exact Comparison.Relates.bind heval (fun v => ranged_fill cell) m m ⟨rfl, hm⟩

/-- No entry fails with a missing slot. -/
theorem ranged_watched (hhost : host.Collecting fun e => ∀ i, e ≠ .missingSlot i) (bound : Nat) :
    (ranged.realm size).UpheldFor (Machine.Ranged.upkeep size) (host.enter bound)
      (host.watched (fun _ _ r _ => ∀ i, r ≠ .error (.missingSlot i)) bound) := by
  induction bound with
  | zero => exact ⟨fun _ _ _ _ _ => .giveUp fun _ => rfl, fun _ _ _ => .giveUp fun _ => rfl⟩
  | succ bound ih =>
    have hanswer := ih.answer (inScope_open size) (ranged_hosts hhost) (ranged_forceCell hhost ih)
    refine hanswer.guarded (fun _ => rfl) ?_
    rintro request m r m' hrequest hm hrun i rfl
    obtain ⟨hallows, -⟩ := (Realm.upholds_iff.mp (hanswer.request hrequest) m hm).2 _ m' hrun
    exact hallows i rfl

end Entry

/-! ## All values of a session -/

namespace Stage

/-- The values obtained, those met by host functions, and all components of these. -/
inductive Contains (s : Stage φ) : Value φ → Prop where
  | value {v : Value φ} : v ∈ s.values → Contains s v
  | argument {call : Call φ} : call ∈ s.machine.calls → Contains s call.argument
  | around {body : Term} {env : Env φ} {v : Value φ} :
      Contains s (.closure body env) → v ∈ env → Contains s v
  | held {function : φ} {held : List (Value φ)} {v : Value φ} :
      Contains s (.native function held) → v ∈ held → Contains s v
  | waiting {cell : Nat} {c : Cell φ} {v : Value φ} :
      Contains s (.deferred cell) → s.machine.cells[cell]? = some c → v ∈ c.env → Contains s v
  | cached {cell : Nat} {v : Value φ} :
      Contains s (.deferred cell) → s.machine.cached? cell = some v → Contains s v

variable {host : Host φ} {s : Stage φ}

theorem Reached.keeps_range (hhost : host.Collecting fun e => ∀ i, e ≠ .missingSlot i)
    (hs : s.Reached host) :
    s.machine.Ranged s.machine.cells.size ∧
      ∀ v ∈ s.values, v.Obeys ranged s.machine.cells.size := by
  refine hs.invariant (I := fun m => m.Ranged m.cells.size) .empty ?_ ?_ ?_
  · exact fun m hm => hm.argument
  · exact fun m t env hm => hm.defer
  · intro m m' op r hm hop hout
    have hrun := op.upholds (fun bound => (ranged_watched hhost bound).diagonal fun _ => rfl) hop
    obtain ⟨hallows, hm', -⟩ := (Realm.upholds_iff.mp hrun m hm).2 r m' hout
    refine ⟨hm'.size_eq ▸ hm', hm'.size_eq, ?_⟩
    rintro v rfl
    exact hallows

theorem Contains.obeys (hm : s.machine.Ranged s.machine.cells.size)
    (hvalues : ∀ v ∈ s.values, v.Obeys ranged s.machine.cells.size) {v : Value φ}
    (hv : s.Contains v) : v.Obeys ranged s.machine.cells.size := by
  induction hv with
  | value hv => exact hvalues _ hv
  | argument hcall => exact hm.argument _ hcall
  | around _ hv ih =>
    cases ih with
    | closure _ henv => exact henv _ hv
  | held _ hv ih =>
    cases ih with
    | native _ hheld => exact hheld _ hv
  | waiting _ hc hv _ => exact (hm.cell _ _ hc).env _ hv
  | cached _ hv _ =>
    obtain ⟨c, hc, hv⟩ := Machine.cached?_eq_some_iff.mp hv
    exact ((hm.cell _ c hc).value _ hv).1

end Stage

/-- Throughout a session, no operation and no nested entry fails with a missing slot, no program
fails to load for this reason, and all closures and deferred values have their slots in range. -/
theorem session_slots_in_range (host : Host φ)
    (hhost : host.Collecting fun e => ∀ i, e ≠ .missingSlot i) {s : Stage φ}
    (hs : s.Reached host) :
    (∀ (op : Operation φ) (r : Result φ) (m : Machine φ), (∀ v ∈ op.operands, s.Contains v) →
      (op.run host).outcome? s.machine = some (r, m) → ∀ i, r ≠ .error (.missingSlot i)) ∧
    (∀ request : Request φ, (∀ v ∈ request.operands, s.Contains v) →
      host.AllEntries (fun _ _ r _ => ∀ i, r ≠ .error (.missingSlot i)) request s.machine) ∧
    (∀ (p : Program) (values : List (Value φ)) (e : RuntimeError),
      p.load values s.machine ≠ .error (.runtime e)) ∧
    (∀ body env, s.Contains (.closure body env) → body.Within (env.length + 1)) ∧
    ∀ cell, s.Contains (.deferred cell) →
      ∃ c, s.machine.cells[cell]? = some c ∧ c.term.Within c.env.length := by
  obtain ⟨hm, hvalues⟩ := hs.keeps_range hhost
  refine ⟨?_, ?_, fun p values e => p.load_ne_runtime values s.machine e, ?_, ?_⟩
  · rintro op r m hop hout i rfl
    have hrun := op.upholds (fun bound => (ranged_watched hhost bound).diagonal fun _ => rfl)
      fun v hv => (hop v hv).obeys hm hvalues
    obtain ⟨hallows, -⟩ := (Realm.upholds_iff.mp hrun s.machine hm).2 _ m hout
    exact hallows i rfl
  · intro request hrequest
    exact Realm.UpheldFor.allEntries (fun _ => rfl) (ranged_watched hhost)
      (fun v hv => (hrequest v hv).obeys hm hvalues) hm
  · intro body env h
    cases h.obeys hm hvalues with
    | closure hbody _ => exact hbody
  · intro cell h
    cases h.obeys hm hvalues with
    | deferred hlt =>
      have hc := Array.getElem?_eq_getElem (hlt : cell < s.machine.cells.size)
      exact ⟨_, hc, (hm.cell cell _ hc).term⟩

/-- Its function calls its argument with the argument of the first call. -/
def recallingHost : Host Unit where
  respond calls _ _ x := .call x ((calls.map Call.argument).getLastD .undefined) .done
  nesting := 8

def recallingStage : Stage Unit :=
  ⟨(compile [("f", .native () [])] "f (\\x.f x)" .empty).2,
    [(compile [("f", .native () [])] "f (\\x.f x)" .empty).1.value, .native () []]⟩

theorem session_slots_in_range_recalling :
    recallingHost.Collecting (fun e => ∀ i, e ≠ .missingSlot i) ∧
    recallingStage.Reached recallingHost ∧
    (∀ r m, (recallingHost.force (.deferred 0)).outcome? recallingStage.machine = some (r, m) →
      ∀ i, r ≠ .error (.missingSlot i)) ∧
    ∃ c, recallingStage.machine.cells[0]? = some c ∧ c.term.Within c.env.length := by
  have hhost : recallingHost.Collecting fun e => ∀ i, e ≠ .missingSlot i := by
    intro calls function held x
    refine ⟨.given (.inl rfl), ?_, fun v => .given (.inr rfl), fun e he => he⟩
    rcases List.eq_nil_or_concat calls with rfl | ⟨later, first, rfl⟩
    · exact .undefined
    · refine .given (.inr (.inr ⟨first, by simp, ?_⟩))
      simp
  have hmake : (Value.native () []).MadeOf (Stage.start : Stage Unit).Known :=
    .native () nofun
  have hstage : recallingStage.Reached recallingHost :=
    .tail (.single (.make hmake)) (.compile [("f", .native () [])] "f (\\x.f x)" (by simp))
  have hcontains : recallingStage.Contains (.deferred 0) := .value List.mem_cons_self
  obtain ⟨hrun, -, -, -, hcell⟩ := session_slots_in_range recallingHost hhost hstage
  refine ⟨hhost, hstage, fun r m => hrun (.force (.deferred 0)) r m ?_, hcell 0 hcontains⟩
  simpa [Operation.operands] using hcontains

end LambdaCalculus
