import LambdaCalculus.Proofs.Resolution
import Mathlib.Logic.Relation

/-! # Named terms

Lambda terms with names, and their reduction: call by value, callee before argument, and never under
an abstraction.  The slots of a closed term represent it up to the names of its parameters.
-/
namespace LambdaCalculus

inductive Named where
  | var (name : String)
  | app (callee argument : Named)
  | lambda (parameter : String) (body : Named)
  deriving DecidableEq, Repr

namespace Named

def free : Named → List String
  | .var x => [x]
  | .app f a => f.free ++ a.free
  | .lambda x body => body.free.filter (· ≠ x)

/-- The given name if it is not taken, and otherwise a longer one. -/
def freshFor (x : String) (taken : List String) : String :=
  if x ∈ taken then
    String.ofList (x.toList ++ List.replicate ((taken.map String.toList).flatten.length + 1) '\x27')
  else x

abbrev Substitution := List (String × Named)

def image (σ : Substitution) (x : String) : Named := (σ.lookup x).getD (.var x)

/-- Simultaneous substitution.  A parameter that would capture a free name of a substituted term is
renamed. -/
def subst (σ : Substitution) : Named → Named
  | .var x => image σ x
  | .app f a => .app (f.subst σ) (a.subst σ)
  | .lambda x body =>
    let y := freshFor x ((Named.lambda x body).free.flatMap fun z => (image σ z).free)
    .lambda y (body.subst ((x, .var y) :: σ))

inductive Step : Named → Named → Prop where
  | beta {x y : String} {body inner : Named} :
      Step (.app (.lambda x body) (.lambda y inner)) (body.subst [(x, .lambda y inner)])
  | callee {f f' a : Named} : Step f f' → Step (.app f a) (.app f' a)
  | argument {x : String} {body a a' : Named} :
      Step a a' → Step (.app (.lambda x body) a) (.app (.lambda x body) a')

abbrev Steps : Named → Named → Prop := Relation.ReflTransGen Step

/-- The term without names.  `names` are the names in scope, innermost first. -/
def slots (names : List String) : Named → Term
  | .var x =>
    match names.idxOf? x with
    | some i => .slot i
    | none => .undefined
  | .app f a => .app (f.slots names) (a.slots names)
  | .lambda x body => .lambda (body.slots (x :: names))

/-! ## Substitution -/

theorem freshFor_notMem (x : String) (taken : List String) : freshFor x taken ∉ taken := by
  unfold freshFor
  split
  · intro h
    have hle := (List.sublist_flatten_of_mem (List.mem_map_of_mem (f := String.toList) h)).length_le
    rw [String.toList_ofList, List.length_append, List.length_replicate] at hle
    omega
  · assumption

@[simp] theorem image_cons_self (σ : Substitution) (x : String) (s : Named) :
    image ((x, s) :: σ) x = s := by
  simp [image]

theorem image_cons_ne (σ : Substitution) {x z : String} (s : Named) (h : z ≠ x) :
    image ((x, s) :: σ) z = image σ z := by
  have hne : (z == x) = false := by simpa using h
  rw [image, List.lookup_cons, hne]
  rfl

/-- Substitution avoids capture: the free names of the result are those of the terms substituted for
free names. -/
theorem mem_free_subst (t : Named) (σ : Substitution) (z : String) :
    z ∈ (t.subst σ).free ↔ ∃ w ∈ t.free, z ∈ (image σ w).free := by
  induction t generalizing σ with
  | var x => simp [subst, free]
  | app f a hf ha =>
    simp only [subst, free, List.mem_append, hf, ha]
    constructor
    · rintro (⟨w, hw, hz⟩ | ⟨w, hw, hz⟩)
      · exact ⟨w, .inl hw, hz⟩
      · exact ⟨w, .inr hw, hz⟩
    · rintro ⟨w, hw | hw, hz⟩
      · exact .inl ⟨w, hw, hz⟩
      · exact .inr ⟨w, hw, hz⟩
  | lambda x body ih =>
    simp only [subst]
    generalize htaken : (Named.lambda x body).free.flatMap (fun z => (image σ z).free) = taken
    have hfresh := freshFor_notMem x taken
    generalize freshFor x taken = y at hfresh ⊢
    simp only [free, List.mem_filter, ih, decide_eq_true_eq]
    constructor
    · rintro ⟨⟨w, hw, hz⟩, hne⟩
      by_cases hwx : w = x
      · subst hwx
        rw [image_cons_self] at hz
        exact absurd (List.mem_singleton.mp hz) hne
      · rw [image_cons_ne σ _ hwx] at hz
        exact ⟨w, ⟨hw, hwx⟩, hz⟩
    · rintro ⟨w, ⟨hw, hwx⟩, hz⟩
      refine ⟨⟨w, hw, by rwa [image_cons_ne σ _ hwx]⟩, ?_⟩
      rintro rfl
      refine hfresh (htaken ▸ List.mem_flatMap.mpr ⟨w, ?_, hz⟩)
      simp [free, hw, hwx]

/-- Reduction preserves closed terms. -/
theorem Step.closed {t t' : Named} (h : Step t t') (ht : t.free = []) : t'.free = [] := by
  induction h with
  | @beta x y body inner =>
    rw [free, List.append_eq_nil_iff] at ht
    rw [List.eq_nil_iff_forall_not_mem]
    intro z hz
    obtain ⟨w, hw, hz⟩ := (mem_free_subst body _ z).mp hz
    by_cases hwx : w = x
    · subst hwx
      rw [image_cons_self, ht.2] at hz
      simp at hz
    · have hfree : w ∈ (Named.lambda x body).free := by simp [free, hw, hwx]
      rw [ht.1] at hfree
      simp at hfree
  | callee _ ih =>
    rw [free, List.append_eq_nil_iff] at ht ⊢
    exact ⟨ih ht.1, ht.2⟩
  | argument _ ih =>
    rw [free, List.append_eq_nil_iff] at ht ⊢
    exact ⟨ht.1, ih ht.2⟩

theorem Steps.closed {t t' : Named} (h : Steps t t') (ht : t.free = []) : t'.free = [] := by
  induction h with
  | refl => exact ht
  | tail _ hstep ih => exact hstep.closed ih

theorem Steps.callee {f f' : Named} (h : Steps f f') (a : Named) :
    Steps (.app f a) (.app f' a) :=
  h.lift (Named.app · a) fun _ _ => .callee

theorem Steps.argument {a a' : Named} (h : Steps a a') (x : String) (body : Named) :
    Steps (.app (.lambda x body) a) (.app (.lambda x body) a') :=
  h.lift (Named.app (.lambda x body)) fun _ _ => .argument

/-! ## Slots -/

/-- The slots of a term depend only on the indices of its free names. -/
theorem slots_congr {t : Named} {names names' : List String}
    (h : ∀ x ∈ t.free, names.idxOf? x = names'.idxOf? x) : t.slots names = t.slots names' := by
  induction t generalizing names names' with
  | var x => rw [slots, slots, h x (by simp [free])]
  | app f a hf ha =>
    rw [slots, slots, hf fun x hx => h x (List.mem_append_left _ hx),
      ha fun x hx => h x (List.mem_append_right _ hx)]
  | lambda x body ih =>
    rw [slots, slots, ih]
    intro z hz
    rw [List.idxOf?_cons, List.idxOf?_cons]
    by_cases hzx : z = x
    · simp [hzx]
    · rw [h z (by simp [free, hz, hzx])]

theorem slots_of_closed {t : Named} (h : t.free = []) (names : List String) :
    t.slots names = t.slots [] :=
  slots_congr (by simp [h])

/-- If the slots of a term are defined, its free names are in scope. -/
theorem mem_of_slots_defined {t : Named} {names : List String} (h : (t.slots names).Defined)
    {x : String} (hx : x ∈ t.free) : x ∈ names := by
  induction t generalizing names with
  | var y =>
    obtain rfl : x = y := List.mem_singleton.mp hx
    rw [slots] at h
    by_contra hnot
    rw [List.idxOf?_eq_none_iff.mpr hnot] at h
    exact h
  | app f a hf ha =>
    rcases List.mem_append.mp hx with hx | hx
    · exact hf h.1 hx
    · exact ha h.2 hx
  | lambda y body ih =>
    obtain ⟨hx, hne⟩ := List.mem_filter.mp hx
    exact (List.mem_cons.mp (ih h hx)).resolve_left (by simpa using hne)

theorem exists_lambda_of_slots {t : Named} {names : List String} {body : Term}
    (h : t.slots names = .lambda body) :
    ∃ x b, t = .lambda x b ∧ b.slots (x :: names) = body := by
  cases t with
  | var x =>
    rw [slots] at h
    split at h <;> cases h
  | app f a => cases h
  | lambda x b =>
    cases h
    exact ⟨x, b, rfl, rfl⟩

theorem exists_app_of_slots {t : Named} {names : List String} {f a : Term}
    (h : t.slots names = .app f a) :
    ∃ g b, t = .app g b ∧ g.slots names = f ∧ b.slots names = a := by
  cases t with
  | var x =>
    rw [slots] at h
    split at h <;> cases h
  | app g b =>
    cases h
    exact ⟨g, b, rfl, rfl, rfl⟩
  | lambda x b => cases h

end Named

/-! ## Instantiation -/

namespace Term

/-- Replaces the free slots of a term, those from `bound` on, by closed terms. -/
def instantiate (bound : Nat) (values : List Term) : Term → Term
  | .undefined => .undefined
  | .slot i => if i < bound then .slot i else (values[i - bound]?).getD .undefined
  | .app f a => .app (f.instantiate bound values) (a.instantiate bound values)
  | .lambda body => .lambda (body.instantiate (bound + 1) values)

theorem Within.mono {t : Term} {n k : Nat} (h : t.Within n) (hle : n ≤ k) : t.Within k := by
  induction t generalizing n k with
  | undefined => trivial
  | slot i => exact Nat.lt_of_lt_of_le h hle
  | app f a hf ha => exact ⟨hf h.1 hle, ha h.2 hle⟩
  | lambda body ih => exact ih h (Nat.succ_le_succ hle)

theorem instantiate_of_within {t : Term} {bound : Nat} (h : t.Within bound) (values : List Term) :
    t.instantiate bound values = t := by
  induction t generalizing bound with
  | undefined => rfl
  | slot i => exact if_pos h
  | app f a hf ha => rw [instantiate, hf h.1, ha h.2]
  | lambda body ih => rw [instantiate, ih h]

theorem within_instantiate {t : Term} {bound : Nat} {values : List Term}
    (ht : t.Within (bound + values.length)) (hvalues : ∀ u ∈ values, u.Within 0) :
    (t.instantiate bound values).Within bound := by
  induction t generalizing bound with
  | undefined => trivial
  | slot i =>
    rw [instantiate]
    by_cases hi : i < bound
    · rw [if_pos hi]
      exact hi
    · have hlt : i - bound < values.length := by
        have htotal : i < bound + values.length := ht
        omega
      rw [if_neg hi, List.getElem?_eq_getElem hlt, Option.getD_some]
      exact (hvalues _ (List.getElem_mem hlt)).mono (Nat.zero_le bound)
  | app f a hf ha => exact ⟨hf ht.1, ha ht.2⟩
  | lambda body ih =>
    have hbody : body.Within (bound + values.length + 1) := ht
    exact ih (hbody.mono (by omega))

/-- The argument of an abstraction extends the list of values. -/
theorem instantiate_instantiate (t : Term) (bound : Nat) (value : Term) {values : List Term}
    (hvalues : ∀ u ∈ values, u.Within 0) :
    (t.instantiate (bound + 1) values).instantiate bound [value] =
      t.instantiate bound (value :: values) := by
  induction t generalizing bound with
  | undefined => rfl
  | slot i =>
    rcases Nat.lt_trichotomy i bound with hlt | rfl | hgt
    · simp [instantiate, hlt, Nat.lt_succ_of_lt hlt]
    · simp [instantiate]
    · obtain ⟨j, rfl⟩ := Nat.exists_eq_add_of_lt hgt
      rw [instantiate, instantiate, if_neg (by omega), if_neg (by omega),
        show bound + j + 1 - (bound + 1) = j by omega, show bound + j + 1 - bound = j + 1 by omega,
        List.getElem?_cons_succ]
      cases hj : values[j]? with
      | none => rfl
      | some u =>
        have hu := (hvalues u (List.mem_of_getElem? hj)).mono (Nat.zero_le bound)
        exact instantiate_of_within hu _
  | app f a hf ha => rw [instantiate, instantiate, instantiate, hf, ha]
  | lambda body ih => rw [instantiate, instantiate, instantiate, ih]

end Term

namespace Named

/-- The substitution of `a` for `x` under the binders of `inner`. -/
def under (inner : List String) (x : String) (a : Named) : Substitution :=
  inner.map (fun y => (y, .var y)) ++ [(x, a)]

theorem image_under (inner : List String) (x : String) (a : Named) (z : String) :
    image (under inner x a) z = if z ∉ inner ∧ z = x then a else .var z := by
  induction inner with
  | nil =>
    by_cases hz : z = x
    · simp [under, hz]
    · rw [under, List.map_nil, List.nil_append, image_cons_ne _ _ hz, if_neg (by simp [hz])]
      rfl
  | cons y inner ih =>
    by_cases hz : z = y
    · simp [under, hz]
    · rw [under, List.map_cons, List.cons_append, image_cons_ne _ _ hz, ← under, ih]
      simp [hz]

/-- No parameter is renamed for a closed term. -/
theorem subst_lambda_under {a : Named} (ha : a.free = []) (inner : List String) (x y : String)
    (body : Named) :
    (Named.lambda y body).subst (under inner x a) =
      .lambda y (body.subst (under (y :: inner) x a)) := by
  have hy : y ∉ (Named.lambda y body).free.flatMap
      fun z => (image (under inner x a) z).free := by
    intro h
    obtain ⟨z, hz, hy⟩ := List.mem_flatMap.mp h
    rw [image_under] at hy
    split at hy
    · simp [ha] at hy
    · simp_all [free]
  rw [subst, freshFor, if_neg hy]
  rfl

/-- Substituting a closed term for a name instantiates the slot of the name. -/
theorem slots_subst_under {a : Named} (ha : a.free = []) (t : Named) (inner : List String)
    (x : String) :
    (t.subst (under inner x a)).slots inner =
      (t.slots (inner ++ [x])).instantiate inner.length [a.slots []] := by
  induction t generalizing inner with
  | var z =>
    have happend : (inner ++ [x]).idxOf? z =
        (inner.idxOf? z).or (if x = z then some inner.length else none) := by
      simp only [List.idxOf?, List.findIdx?_append, List.findIdx?_singleton, beq_iff_eq]
      split <;> simp
    rw [subst, image_under, slots, happend]
    cases hi : inner.idxOf? z with
    | some i =>
      obtain ⟨hlt, hz, -⟩ := List.idxOf?_eq_some_iff.mp hi
      have hmem : z ∈ inner := hz ▸ List.getElem_mem hlt
      rw [if_neg fun h => h.1 hmem, slots, hi]
      simp [Term.instantiate, hlt]
    | none =>
      have hmem := List.idxOf?_eq_none_iff.mp hi
      by_cases hzx : z = x
      · rw [if_pos ⟨hmem, hzx⟩, slots_of_closed ha, if_pos hzx.symm]
        simp [Term.instantiate]
      · rw [if_neg fun h => hzx h.2, slots, hi, if_neg (Ne.symm hzx)]
        rfl
  | app f b hf hb => rw [subst, slots, slots, Term.instantiate, hf, hb]
  | lambda y body ih =>
    rw [subst_lambda_under ha, slots, slots, Term.instantiate, ih]
    rfl

theorem slots_subst {a : Named} (ha : a.free = []) (t : Named) (x : String) :
    (t.subst [(x, a)]).slots [] = (t.slots [x]).instantiate 0 [a.slots []] :=
  slots_subst_under ha t [] x

end Named

end LambdaCalculus
