import LambdaCalculus.Proofs.Coupling

/-! # Filling cells

Evaluation changes the cells of a machine only by filling some.  The outcome of forcing a cell is
stated in three equations: the cell is filled, it is not, or it does not exist.
-/
namespace LambdaCalculus

variable {φ : Type}

namespace Machine

/-- The cells of the first machine are in the second, and filled cells keep their values. -/
structure Extends (m m' : Machine φ) : Prop where
  cell : ∀ (i : Nat) (c : Cell φ), m.cells[i]? = some c →
    ∃ value, m'.cells[i]? = some { c with value := value } ∧
      ∀ v, c.value = some v → value = some v

/-- The same cells, more of which may be filled. -/
structure Fills (m m' : Machine φ) : Prop extends Extends m m' where
  size_eq : m'.cells.size = m.cells.size

theorem cached?_eq_some_iff {m : Machine φ} {i : Nat} {v : Value φ} :
    m.cached? i = some v ↔ ∃ c, m.cells[i]? = some c ∧ c.value = some v :=
  Option.bind_eq_some_iff

theorem cached?_of_cell {m : Machine φ} {i : Nat} {c : Cell φ} (h : m.cells[i]? = some c) :
    m.cached? i = c.value := by
  rw [cached?, h, Option.bind_some]

theorem cells_fill (m : Machine φ) (i j : Nat) (v : Value φ) :
    (m.fill i v).cells[j]? =
      if i = j then m.cells[j]?.map fun c => { c with value := c.value.or (some v) }
      else m.cells[j]? :=
  Array.getElem?_modify

theorem cached?_fill {m : Machine φ} {i : Nat} {c : Cell φ} (h : m.cells[i]? = some c)
    (v : Value φ) : (m.fill i v).cached? i = c.value.or (some v) := by
  rw [cached?, cells_fill, if_pos rfl, h, Option.map_some, Option.bind_some]

/-- After a fill, a cell is unchanged or it is the one filled. -/
theorem exists_cell_of_fill {m : Machine φ} {i j : Nat} {v : Value φ} {c : Cell φ}
    (h : (m.fill i v).cells[j]? = some c) :
    ∃ value, m.cells[j]? = some { c with value := value } ∧
      ∀ w, c.value = some w → value = some w ∨ i = j ∧ value = none ∧ w = v := by
  rw [cells_fill] at h
  by_cases hij : i = j
  · rw [if_pos hij, Option.map_eq_some_iff] at h
    obtain ⟨old, hold, rfl⟩ := h
    refine ⟨old.value, hold, ?_⟩
    intro w hw
    cases hvalue : old.value with
    | none =>
      have hw : v = w := by simpa [hvalue] using hw
      exact .inr ⟨hij, rfl, hw.symm⟩
    | some first => exact .inl (by simpa [hvalue] using hw)
  · rw [if_neg hij] at h
    exact ⟨c.value, h, fun w hw => .inl hw⟩

theorem cell_of_defer {m : Machine φ} {t : Term} {env : Env φ} {i : Nat} {c : Cell φ}
    (h : (m.defer t env).2.cells[i]? = some c) :
    m.cells[i]? = some c ∨ i = m.cells.size ∧ c = ⟨t, env, none⟩ := by
  rw [defer, Array.getElem?_push] at h
  by_cases hi : i = m.cells.size
  · rw [if_pos hi] at h
    cases h
    exact .inr ⟨hi, rfl⟩
  · rw [if_neg hi] at h
    exact .inl h

@[simp] theorem size_fill (m : Machine φ) (i : Nat) (v : Value φ) :
    (m.fill i v).cells.size = m.cells.size :=
  Array.size_modify

namespace Extends

variable {m m' m'' : Machine φ} {i : Nat} {v : Value φ}

theorem refl (m : Machine φ) : m.Extends m :=
  ⟨fun _ c hc => ⟨c.value, hc, fun _ hv => hv⟩⟩

theorem trans (h : m.Extends m') (h' : m'.Extends m'') : m.Extends m'' := by
  refine ⟨?_⟩
  intro i c hc
  obtain ⟨value, hc', hkeep⟩ := h.cell i c hc
  obtain ⟨value', hc'', hkeep'⟩ := h'.cell i _ hc'
  exact ⟨value', hc'', fun v hv => hkeep' v (hkeep v hv)⟩

theorem cached (h : m.Extends m') (hv : m.cached? i = some v) : m'.cached? i = some v := by
  obtain ⟨c, hc, hvalue⟩ := cached?_eq_some_iff.mp hv
  obtain ⟨value, hc', hkeep⟩ := h.cell i c hc
  exact cached?_eq_some_iff.mpr ⟨_, hc', hkeep v hvalue⟩

theorem defer (m : Machine φ) (t : Term) (env : Env φ) : m.Extends (m.defer t env).2 := by
  refine ⟨?_⟩
  intro i c hc
  refine ⟨c.value, ?_, fun v hv => hv⟩
  rw [Machine.defer, Array.getElem?_push, if_neg, hc]
  exact Nat.ne_of_lt (Array.getElem?_eq_some_iff.mp hc).1

/-- Filling a cell with its value on a later machine stays before that machine. -/
theorem fill_of_cached (h : m.Extends m') (hv : m'.cached? i = some v) :
    (m.fill i v).Extends m' := by
  refine ⟨?_⟩
  intro j c hc
  obtain ⟨value, hold, hvalue⟩ := exists_cell_of_fill hc
  obtain ⟨value', hc', hkeep⟩ := h.cell j _ hold
  refine ⟨value', hc', ?_⟩
  intro w hw
  rcases hvalue w hw with hw | ⟨rfl, -, rfl⟩
  · exact hkeep w hw
  · exact (cached?_of_cell hc').symm.trans hv

end Extends

namespace Fills

variable {m m' m'' : Machine φ}

theorem refl (m : Machine φ) : m.Fills m :=
  ⟨.refl m, rfl⟩

theorem trans (h : m.Fills m') (h' : m'.Fills m'') : m.Fills m'' :=
  ⟨h.toExtends.trans h'.toExtends, h'.size_eq.trans h.size_eq⟩

theorem fill_self (m : Machine φ) (i : Nat) (v : Value φ) : m.Fills (m.fill i v) := by
  refine ⟨⟨?_⟩, size_fill m i v⟩
  intro j c hc
  rw [cells_fill, hc]
  by_cases hij : i = j
  · rw [if_pos hij]
    exact ⟨_, rfl, fun w hw => by rw [hw, Option.some_or]⟩
  · rw [if_neg hij]
    exact ⟨c.value, rfl, fun w hw => hw⟩

theorem record (m : Machine φ) (call : Call φ) : m.Fills (m.record call) :=
  ⟨⟨(refl m).cell⟩, rfl⟩

end Fills

end Machine

/-! ## Forcing a cell -/

section Entry

variable {host : Host φ} {enter : Request φ → Run φ (Value φ)} {m : Machine φ} {cell : Nat}

/-- Evaluates the term of a cell, and forces the value if it is deferred. -/
def evalCell (host : Host φ) (enter : Request φ → Run φ (Value φ)) (depth : Nat) (c : Cell φ) :
    Run φ (Value φ) :=
  eval host enter depth c.term c.env >>= forced enter depth

theorem Coupling.rel_evalCell {R : Realm φ} {enter' : Request φ → Run φ (Value φ)}
    (K : Coupling R host enter enter') {d d' : Nat} {c : Cell φ} (hdepths : K.depths d d')
    (ht : R.term c.env.length c.term) (henv : ∀ v ∈ c.env, R.value v) :
    K.rel R.callee (evalCell host enter d c) (evalCell host enter' d' c) := by
  apply K.rel_bind (K.rel_eval hdepths c.term c.env ht henv)
  intro v hv
  exact K.rel_forced hdepths hv

theorem outcome?_forceCell_filled {v : Value φ} (h : m.cached? cell = some v) (depth : Nat) :
    (forceCell host enter depth cell).outcome? m = some (.ok v, m) := by
  obtain ⟨c, hc, hv⟩ := Machine.cached?_eq_some_iff.mp h
  rw [forceCell, Run.outcome?_bind]
  simp only [Run.outcome?_get, hc, hv, Run.outcome?_pure]

theorem outcome?_forceCell_unfilled {c : Cell φ} (hc : m.cells[cell]? = some c)
    (hv : c.value = none) (depth : Nat) :
    (forceCell host enter depth cell).outcome? m =
      (evalCell host enter depth c >>= Run.fill cell).outcome? m := by
  rw [forceCell, Run.outcome?_bind]
  simp only [Run.outcome?_get, hc, hv, evalCell, bind_assoc]

theorem outcome?_forceCell_missing (hc : m.cells[cell]? = none) (depth : Nat) :
    (forceCell host enter depth cell).outcome? m = none := by
  rw [forceCell, Run.outcome?_bind]
  simp only [Run.outcome?_get, hc, Run.outcome?_giveUp]

end Entry

/-- The bound on nested entries is read off the machine. -/
theorem Host.outcome?_request (host : Host φ) (r : Request φ) (m : Machine φ) :
    (host.request r).outcome? m =
      (host.enter (m.cells.size + host.nesting + 1) r).outcome? m := by
  rw [request, Run.outcome?_bind, Run.outcome?_get]

end LambdaCalculus
