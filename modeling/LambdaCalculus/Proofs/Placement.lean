import LambdaCalculus.Proofs.Unbound

/-! # Positions of expressions

The position of an expression is found by descending through callees.  This ends at the first token
of the expression, since no callee is missing: an empty group before a term is not in the tree.  So
the position of the tree of a text is that of the first binder or identifier of the text, even if
the text is malformed.
-/
namespace LambdaCalculus

namespace Expr

theorem Formed.of_mem_parts {e part : Expr} (h : e.Formed) (hpart : part ∈ e.parts) :
    part.Formed := by
  induction h with
  | empty =>
    rw [List.mem_singleton.mp hpart]
    exact .empty
  | var ht =>
    rw [List.mem_singleton.mp hpart]
    exact .var ht
  | app hne hf ha ihf iha =>
    rcases List.mem_cons.mp hpart with rfl | hpart
    · exact .app hne hf ha
    · exact (List.mem_append.mp hpart).elim ihf iha
  | lambda hb hp hbody ih =>
    rcases List.mem_cons.mp hpart with rfl | hpart
    · exact .lambda hb hp hbody
    · exact ih hpart

theorem Formed.tokens_ne_nil {e : Expr} (h : e.Formed) (hne : e ≠ .empty) : e.tokens ≠ [] := by
  induction h with
  | empty => exact absurd rfl hne
  | var _ => simp [tokens]
  | app hcallee _ _ ihf _ => exact List.append_ne_nil_of_left_ne_nil (ihf hcallee) _
  | lambda _ _ _ _ => simp [tokens]

/-- The position of an expression is that of its first token. -/
theorem Formed.position?_eq {e : Expr} (h : e.Formed) :
    e.position? = e.tokens.head?.map (·.position) := by
  induction h with
  | empty => rfl
  | var _ => rfl
  | app hcallee hf _ ihf _ =>
    obtain ⟨t, ts, hts⟩ := List.exists_cons_of_ne_nil (hf.tokens_ne_nil hcallee)
    rw [position?, ihf, tokens, hts]
    rfl
  | lambda _ _ _ _ => rfl

/-- For every text, no application in its tree lacks a callee, and the position of each expression
in the tree is that of its first token.  The position of the whole tree is that of the first binder
or identifier of the text, and there is none iff the text has no such token. -/
theorem expressions_placed_at_first_token (source : String) :
    (∀ callee argument, .app callee argument ∈ (parse source).expr.parts → callee ≠ .empty) ∧
    (∀ part ∈ (parse source).expr.parts,
      part.position? = part.tokens.head?.map (·.position)) ∧
    (parse source).expr.position? =
      ((Token.scan source).tokens.find? Token.isKept).map (·.position) ∧
    ((parse source).expr.position? = none ↔
      ∀ t ∈ (Token.scan source).tokens, t.kind ≠ .identifier ∧ t.kind ≠ .binder) := by
  have hformed := parse_formed source
  have hposition := hformed.position?_eq
  rw [tokens_parse, List.head?_filter] at hposition
  refine ⟨?_, fun part hpart => (hformed.of_mem_parts hpart).position?_eq, hposition, ?_⟩
  · intro callee argument hpart
    cases hformed.of_mem_parts hpart with
    | app hcallee _ _ => exact hcallee
  · rw [hposition, Option.map_eq_none_iff, List.find?_eq_none]
    simp [Token.isKept, and_comm]

/-- An empty group, stray tokens and unclosed groups may precede the first term, or be the whole
text. -/
theorem expressions_placed_at_first_token_malformed :
    (∃ callee argument, .app callee argument ∈ (parse "() ) .\n ( (f x").expr.parts ∧
      callee ≠ .empty ∧ callee.position? = some ⟨11, 2, 5⟩) ∧
    (parse "() ) .\n ( (f x").expr.position? = some ⟨11, 2, 5⟩ ∧
    (parse "() ) .\n ( (").expr.position? = none := by
  obtain ⟨hcallees, -, hplaced, -⟩ := expressions_placed_at_first_token "() ) .\n ( (f x"
  obtain ⟨-, -, hnowhere, -⟩ := expressions_placed_at_first_token "() ) .\n ( ("
  have happ : .app (.var ⟨.identifier, ⟨11, 2, 5⟩, "f"⟩) (.var ⟨.identifier, ⟨13, 2, 7⟩, "x"⟩) ∈
      (parse "() ) .\n ( (f x").expr.parts := by decide
  exact ⟨⟨_, _, happ, hcallees _ _ happ, rfl⟩, hplaced.trans (by decide),
    hnowhere.trans (by decide)⟩

end Expr

end LambdaCalculus
