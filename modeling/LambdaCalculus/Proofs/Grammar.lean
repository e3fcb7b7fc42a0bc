import LambdaCalculus.Expr.Parse
import Mathlib.Data.List.Induction

/-! # The grammar

A text without diagnostics is an expression: a sequence of atoms, which an abstraction may follow.

    expression   ::=  atom+  |  atom* abstraction
    atom         ::=  identifier  |  ( expression )
    abstraction  ::=  binder identifier . expression

The grammar is stated over tokens, independently of the reader, together with the tree of each
derivation.
-/
namespace LambdaCalculus

namespace Grammar

inductive Part where
  | atom
  | abstraction
  | expression
  deriving DecidableEq, Repr

/-- Tokens, and the tree they denote. -/
abbrev Phrase := List Token × Expr

/-- Adjacent terms, applied from left to right. -/
def chain : List Expr → Expr
  | [] => .empty
  | e :: es => es.foldl .app e

def tokensOf (phrases : List Phrase) : List Token := phrases.flatMap (·.1)

def treesOf (phrases : List Phrase) : List Expr := phrases.map (·.2)

/-- The tokens are a phrase of the given part, with the given tree. -/
inductive Derives : Part → List Token → Expr → Prop where
  | identifier {t : Token} : t.kind = .identifier → Derives .atom [t] (.var t)
  /-- A group has the tree of its content. -/
  | group {opening closing : Token} {ts : List Token} {e : Expr} :
      opening.kind = .groupOpen → Derives .expression ts e → closing.kind = .groupClose →
      Derives .atom (opening :: ts ++ [closing]) e
  | abstraction {binder parameter delimiter : Token} {ts : List Token} {body : Expr} :
      binder.kind = .binder → parameter.kind = .identifier → delimiter.kind = .bodyDelimiter →
      Derives .expression ts body →
      Derives .abstraction (binder :: parameter :: delimiter :: ts)
        (.lambda binder (some parameter) body)
  | atoms {atoms : List Phrase} :
      atoms ≠ [] → (∀ a ∈ atoms, Derives .atom a.1 a.2) →
      Derives .expression (tokensOf atoms) (chain (treesOf atoms))
  | atomsThen {atoms : List Phrase} {ts : List Token} {e : Expr} :
      (∀ a ∈ atoms, Derives .atom a.1 a.2) → Derives .abstraction ts e →
      Derives .expression (tokensOf atoms ++ ts) (chain (treesOf atoms ++ [e]))

@[simp] theorem tokensOf_nil : tokensOf [] = [] := rfl

@[simp] theorem tokensOf_cons (a : Phrase) (atoms : List Phrase) :
    tokensOf (a :: atoms) = a.1 ++ tokensOf atoms := rfl

@[simp] theorem tokensOf_append (atoms rest : List Phrase) :
    tokensOf (atoms ++ rest) = tokensOf atoms ++ tokensOf rest := List.flatMap_append

@[simp] theorem treesOf_append (atoms rest : List Phrase) :
    treesOf (atoms ++ rest) = treesOf atoms ++ treesOf rest := List.map_append

/-- A chain without missing terms is extended at its end as by the reader. -/
theorem chain_concat {es : List Expr} (h : .empty ∉ es) (e : Expr) :
    chain (es ++ [e]) = (chain es).apply e := by
  cases es with
  | nil => rfl
  | cons first rest =>
    have hne : chain (first :: rest) ≠ .empty := by
      cases rest using List.reverseRecOn with
      | nil => exact fun hf => h (by simp [← hf, chain])
      | append_singleton rest last => simp [chain]
    rw [Expr.apply_eq_app hne]
    simp [chain]

theorem foldl_apply {es : List Expr} (h : .empty ∉ es) : es.foldl .apply .empty = chain es := by
  induction es using List.reverseRecOn with
  | nil => rfl
  | append_singleton es e ih =>
    have hes : .empty ∉ es := fun hm => h (List.mem_append_left _ hm)
    rw [List.foldl_append, ih hes, chain_concat hes]
    rfl

end Grammar

namespace Expr

/-- No term and no parameter is missing. -/
def Complete : Expr → Prop
  | .empty => False
  | .var _ => True
  | .app f a => f.Complete ∧ a.Complete
  | .lambda _ p body => p.isSome ∧ body.Complete

theorem Complete.ne_empty {e : Expr} (h : e.Complete) : e ≠ .empty := by
  rintro rfl
  exact h

end Expr

namespace Grammar

theorem chain_complete {es : List Expr} (hne : es ≠ []) (h : ∀ e ∈ es, e.Complete) :
    (chain es).Complete := by
  induction es using List.reverseRecOn with
  | nil => exact absurd rfl hne
  | append_singleton es e ih =>
    have hes : ∀ e ∈ es, e.Complete := fun f hf => h f (List.mem_append_left _ hf)
    have he : e.Complete := h e (by simp)
    have hempty : .empty ∉ es := fun hm => (hes _ hm).ne_empty rfl
    rw [chain_concat hempty]
    by_cases hnil : es = []
    · subst hnil
      exact he
    · have hchain := ih hnil hes
      rw [Expr.apply_eq_app hchain.ne_empty]
      exact ⟨hchain, he⟩

/-- The tree of a derivation is complete. -/
theorem Derives.complete {part : Part} {ts : List Token} {e : Expr} (h : Derives part ts e) :
    e.Complete := by
  induction h with
  | identifier => trivial
  | group _ _ _ ih => exact ih
  | abstraction _ _ _ _ ih => exact ⟨rfl, ih⟩
  | atoms hne _ ih =>
    apply chain_complete (by simpa [treesOf] using hne)
    intro e he
    obtain ⟨a, ha, rfl⟩ := List.mem_map.mp he
    exact ih a ha
  | atomsThen _ _ ihs ih =>
    apply chain_complete (by simp)
    intro e he
    rcases List.mem_append.mp he with he | he
    · obtain ⟨a, ha, rfl⟩ := List.mem_map.mp he
      exact ihs a ha
    · exact List.mem_singleton.mp he ▸ ih

theorem empty_notMem_treesOf {atoms : List Phrase} (h : ∀ a ∈ atoms, Derives .atom a.1 a.2) :
    .empty ∉ treesOf atoms := by
  intro hm
  obtain ⟨a, ha, he⟩ := List.mem_map.mp hm
  exact (h a ha).complete.ne_empty he

end Grammar

end LambdaCalculus
