import LambdaCalculus.Proofs.Descent

/-! # Error recovery is lossless

For every text, malformed or not, parsing terminates and consumes each token once.  The tree
contains the binders and identifiers of the text, each once and in order: tokens may be skipped or
assumed, but no name is dropped or read twice.
-/
namespace LambdaCalculus

def Token.isKept (t : Token) : Bool := t.kind = .binder || t.kind = .identifier

namespace Expr

/-- The tokens of a tree from left to right. -/
def tokens : Expr → List Token
  | .empty => []
  | .var t => [t]
  | .app callee argument => callee.tokens ++ argument.tokens
  | .lambda binder parameter body => binder :: parameter.toList ++ body.tokens

theorem tokens_apply (f e : Expr) : (f.apply e).tokens = f.tokens ++ e.tokens := by
  cases f <;> rfl

def Opened.tokens (o : Opened) : List Token := o.before.tokens ++ o.binder :: o.parameter.toList

def Level.tokens (l : Level) : List Token :=
  l.opened.reverse.flatMap Opened.tokens ++ l.terms.tokens

def Header.tokens : Header → List Token
  | .none => []
  | .binder b => [b]
  | .parameter b p => b :: p.toList

namespace Level

@[simp] theorem tokens_start : start.tokens = [] := rfl

@[simp] theorem tokens_add (l : Level) (e : Expr) : (l.add e).tokens = l.tokens ++ e.tokens := by
  simp [tokens, tokens_apply]

@[simp] theorem tokens_enter (l : Level) (b : Token) (p : Option Token) :
    (l.enter b p).tokens = l.tokens ++ b :: p.toList := by
  simp [tokens, enter, Opened.tokens, Expr.tokens]

theorem tokens_close (l : Level) : l.close.tokens = l.tokens := by
  obtain ⟨opened, terms, hasTerm⟩ := l
  induction opened generalizing terms with
  | nil => rfl
  | cons o opened ih =>
    have hbody := ih (o.before.apply (.lambda o.binder o.parameter terms))
    simpa [close, tokens, tokens_apply, Opened.tokens, Expr.tokens] using hbody

end Level

/-- The diagnostics of a header followed by a token other than a parameter. -/
def Header.withoutParameter (t : Token) : Header → List Diagnostic
  | .binder _ => [.missingParameter t]
  | _ => []

namespace Reader

def tokens (r : Reader) : List Token :=
  r.groups.reverse.flatMap (·.2.tokens) ++ r.level.tokens ++ r.header.tokens

/-- The cases of reading a token: it is a parameter, it is the delimiter of a header, or it ends the
header in progress, if any, and is read as part of the body. -/
theorem step_cases (r : Reader) (t : Token) :
    (∃ b, r.header = .binder b ∧ t.kind = .identifier ∧
      r.next t = { r with header := .parameter b (some t) } ∧ r.emit t = []) ∨
    (r.header ≠ .none ∧ t.kind = .bodyDelimiter ∧ r.next t = r.settle ∧
      r.emit t = r.header.withoutParameter t) ∨
    ((∀ b, r.header = .binder b → t.kind ≠ .identifier) ∧
      (r.header ≠ .none → t.kind ≠ .bodyDelimiter) ∧
      r.next t = r.settle.accept t ∧ r.emit t = r.headerAtEnd t ++ r.settle.complain t) := by
  obtain ⟨level, groups, header⟩ := r
  cases header with
  | none => exact .inr (.inr ⟨by simp, by simp, rfl, rfl⟩)
  | binder b =>
    by_cases hid : t.kind = .identifier
    · exact .inl ⟨b, rfl, hid, by simp [next, hid], by simp [emit, hid]⟩
    · by_cases hdot : t.kind = .bodyDelimiter
      · exact .inr (.inl ⟨by simp, hdot, by simp [next, settle, hdot],
          by simp [emit, Header.withoutParameter, hdot]⟩)
      · refine .inr (.inr ⟨fun _ _ => hid, fun _ => hdot, ?_⟩)
        cases hk : t.kind <;> simp_all [next, emit, settle, headerAtEnd]
  | parameter b p =>
    by_cases hdot : t.kind = .bodyDelimiter
    · exact .inr (.inl ⟨by simp, hdot, by simp [next, settle, hdot],
        by simp [emit, Header.withoutParameter, hdot]⟩)
    · refine .inr (.inr ⟨by simp, fun _ => hdot, ?_⟩)
      cases hk : t.kind <;> simp_all [next, emit, settle, headerAtEnd]

theorem header_settle (r : Reader) : r.settle.header = .none := by
  unfold settle
  split
  · assumption
  · rfl
  · rfl

theorem groups_settle (r : Reader) : r.settle.groups = r.groups := by
  unfold settle
  split <;> rfl

theorem tokens_settle (r : Reader) : r.settle.tokens = r.tokens := by
  unfold settle
  split <;> simp_all [tokens, enter, Header.tokens]

theorem tokens_accept {r : Reader} (h : r.header = .none) (t : Token) :
    (r.accept t).tokens = r.tokens ++ [t].filter Token.isKept := by
  obtain ⟨level, groups, header⟩ := r
  obtain rfl : header = .none := h
  cases hk : t.kind with
  | identifier => simp [accept, tokens, hk, Token.isKept, Expr.tokens, Header.tokens]
  | binder => simp [accept, tokens, hk, Token.isKept, Header.tokens]
  | groupOpen => simp [accept, tokens, hk, Token.isKept, Header.tokens]
  | groupClose =>
    cases groups with
    | nil => simp [accept, tokens, hk, Token.isKept]
    | cons group groups =>
      simp [accept, tokens, hk, Token.isKept, Level.tokens_close]
  | bodyDelimiter => simp [accept, tokens, hk, Token.isKept]
  | endOfFile => simp [accept, tokens, hk, Token.isKept]

theorem tokens_next (r : Reader) (t : Token) :
    (r.next t).tokens = r.tokens ++ [t].filter Token.isKept := by
  rcases r.step_cases t with ⟨b, hb, ht, hnext, -⟩ | ⟨-, ht, hnext, -⟩ | ⟨-, -, hnext, -⟩
  · simp [hnext, tokens, hb, Header.tokens, Token.isKept, ht]
  · simp [hnext, tokens_settle, Token.isKept, ht]
  · rw [hnext, tokens_accept r.header_settle, tokens_settle]

theorem tokens_reach (r : Reader) (ts : List Token) :
    (transducer.reach r ts).tokens = r.tokens ++ ts.filter Token.isKept := by
  induction ts generalizing r with
  | nil => simp
  | cons t ts ih =>
    rw [Transducer.reach_cons, ih]
    change (r.next t).tokens ++ _ = _
    rw [tokens_next, List.append_assoc, ← List.filter_append]
    rfl

theorem tokens_foldl_close (groups : List (Token × Level)) (e : Expr) :
    (groups.foldl (fun e group => (group.2.add e).close) e).tokens =
      groups.reverse.flatMap (·.2.tokens) ++ e.tokens := by
  induction groups generalizing e with
  | nil => rfl
  | cons group groups ih =>
    rw [List.foldl_cons, ih, Level.tokens_close, Level.tokens_add]
    simp

theorem tokens_finish (r : Reader) : r.finish.tokens = r.tokens := by
  rw [finish, tokens_foldl_close, Level.tokens_close, ← tokens_settle, tokens, header_settle]
  simp [Header.tokens]

end Reader

/-- For every text, recursive descent terminates, with the same result for all bounds above the
number of tokens.  It ends at the end of the text, with each token produced once and in order.  Its
result is the tree with its diagnostics, and the tree contains the binders and identifiers of the
text from left to right. -/
theorem recovery_loses_nothing (source : String) :
    (∃ final : Descent.State,
      (∀ bound, (Token.scan source).tokens.length < bound →
        Descent.descend bound source = some ((parse source).expr, final)) ∧
      final.problems = (parse source).diagnostics ∧
      final.stream.current = (Token.scan source).endOfFile ∧
      final.stream.produced = (Token.scan source).all) ∧
    (Token.scan source).Orderly ∧
    (parse source).expr.tokens = (Token.scan source).tokens.filter Token.isKept := by
  refine ⟨Descent.descend_eq source, Token.scan_orderly source, ?_⟩
  rw [parse, ofTokens, Reader.tokens_finish, Reader.tokens_reach]
  rfl

end Expr

end LambdaCalculus
