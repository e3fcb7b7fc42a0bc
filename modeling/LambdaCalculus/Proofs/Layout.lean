import LambdaCalculus.Proofs.Resolution

/-! # Tokens without positions

The meaning of a text does not depend on the positions of its tokens.  Up to positions, a character
that cannot occur in an identifier splits a text into parts that are scanned independently, and
tokens that differ only in positions are parsed to trees that do.
-/
namespace LambdaCalculus

namespace Token

def unplaced (t : Token) : Token := { t with position := .start }

@[simp] theorem kind_unplaced (t : Token) : t.unplaced.kind = t.kind := rfl

@[simp] theorem raw_unplaced (t : Token) : t.unplaced.raw = t.raw := rfl

namespace Scanner

variable {s s' : Scanner}

def rest (s : Scanner) (text : List Char) : List Token :=
  transducer.output s text ++ (transducer.reach s text).pending

theorem rest_cons (s : Scanner) (c : Char) (text : List Char) :
    s.rest (c :: text) = s.emit c ++ (s.next c).rest text := by
  rw [rest, Transducer.output_cons, Transducer.reach_cons, List.append_assoc]
  rfl

theorem rest_append (s : Scanner) (text more : List Char) :
    s.rest (text ++ more) = transducer.output s text ++ (transducer.reach s text).rest more := by
  rw [rest, Transducer.output_append, Transducer.reach_append, List.append_assoc]
  rfl

def letters (s : Scanner) : Option (List Char) := s.word.map Word.letters

theorem unplaced_pending (h : s.letters = s'.letters) :
    s.pending.map unplaced = s'.pending.map unplaced := by
  obtain ⟨p, word⟩ := s
  obtain ⟨p', word'⟩ := s'
  cases word with
  | none =>
    cases word' with
    | none => rfl
    | some w' => cases h
  | some w =>
    cases word' with
    | none => cases h
    | some w' =>
      have hletters : w.letters = w'.letters := Option.some.inj h
      simp [pending, Word.token, unplaced, hletters]

theorem letters_next (h : s.letters = s'.letters) (c : Char) :
    (s.next c).letters = (s'.next c).letters := by
  obtain ⟨p, word⟩ := s
  obtain ⟨p', word'⟩ := s'
  cases hc : isIdentifierChar c with
  | false => simp [letters, next, hc]
  | true =>
    cases word with
    | none =>
      cases word' with
      | none => simp [letters, next, extend, hc]
      | some w' => cases h
    | some w =>
      cases word' with
      | none => cases h
      | some w' =>
        have hletters : w.letters = w'.letters := Option.some.inj h
        simp [letters, next, extend, hc, hletters]

theorem unplaced_symbol (s s' : Scanner) (c : Char) :
    (s.symbol c).map unplaced = (s'.symbol c).map unplaced := by
  unfold symbol
  split <;> rfl

theorem unplaced_emit (h : s.letters = s'.letters) (c : Char) :
    (s.emit c).map unplaced = (s'.emit c).map unplaced := by
  unfold emit
  split
  · rfl
  · rw [List.map_append, List.map_append, unplaced_pending h, unplaced_symbol s s']

/-- Scanning does not depend on the current position. -/
theorem unplaced_rest (h : s.letters = s'.letters) (text : List Char) :
    (s.rest text).map unplaced = (s'.rest text).map unplaced := by
  induction text generalizing s s' with
  | nil => exact unplaced_pending h
  | cons c text ih =>
    rw [rest_cons, rest_cons, List.map_append, List.map_append, unplaced_emit h,
      ih (letters_next h c)]

theorem rest_of_word (p : Position) (w : Word) {text : List Char}
    (h : text.all isIdentifierChar = true) :
    (Scanner.mk p (some w)).rest text =
      [⟨.identifier, w.start, String.ofList (w.letters.reverse ++ text)⟩] := by
  induction text generalizing p w with
  | nil => simp [rest, pending, Word.token]
  | cons c text ih =>
    obtain ⟨hc, htext⟩ := Bool.and_eq_true_iff.mp h
    have hnext : (Scanner.mk p (some w)).next c =
        ⟨p.advance c, some ⟨w.start, c :: w.letters⟩⟩ := by
      simp [next, extend, hc]
    rw [rest_cons, hnext, ih _ _ htext]
    simp [emit, hc]

end Scanner

/-- The tokens of a text up to positions. -/
def lexemes (text : List Char) : List Token := (scanChars text).tokens.map unplaced

theorem lexemes_eq_rest (text : List Char) :
    lexemes text = (Scanner.start.rest text).map unplaced := rfl

/-- A character that cannot occur in an identifier splits a text in two. -/
theorem lexemes_append_cons {c : Char} (hc : isIdentifierChar c = false)
    (before after : List Char) :
    lexemes (before ++ c :: after) = lexemes before ++ lexemes [c] ++ lexemes after := by
  have hsymbol : lexemes [c] = (Scanner.start.symbol c).map unplaced := by
    simp [lexemes_eq_rest, Scanner.rest, Scanner.transducer, Scanner.emit, Scanner.next,
      Scanner.pending, Scanner.start, hc]
  have hemit : (Scanner.transducer.reach .start before).emit c =
      (Scanner.transducer.reach .start before).pending ++
        (Scanner.transducer.reach .start before).symbol c := by
    simp [Scanner.emit, hc]
  have hafter : ((Scanner.transducer.reach .start before).next c).letters =
      Scanner.start.letters := by
    simp [Scanner.letters, Scanner.next, Scanner.start, hc]
  have hbefore : lexemes before = (Scanner.transducer.output .start before).map unplaced ++
      (Scanner.transducer.reach .start before).pending.map unplaced := List.map_append
  rw [hbefore, hsymbol, lexemes_eq_rest, lexemes_eq_rest, Scanner.rest_append, Scanner.rest_cons,
    hemit]
  simp only [List.map_append, List.append_assoc]
  rw [Scanner.unplaced_rest hafter, Scanner.unplaced_symbol _ .start]

theorem lexemes_cons {c : Char} (hc : isIdentifierChar c = false) (text : List Char) :
    lexemes (c :: text) = lexemes [c] ++ lexemes text :=
  lexemes_append_cons hc [] text

theorem lexemes_identifier {name : String} (h : isIdentifier name = true) :
    lexemes name.toList = [⟨.identifier, .start, name⟩] := by
  obtain ⟨hne, hall⟩ := Bool.and_eq_true_iff.mp h
  cases htext : name.toList with
  | nil => simp [String.toList_eq_nil_iff.mp htext] at hne
  | cons c text =>
    rw [htext] at hall
    obtain ⟨hc, hrest⟩ := Bool.and_eq_true_iff.mp hall
    have hnext : Scanner.start.next c = ⟨Position.start.advance c, some ⟨.start, [c]⟩⟩ := by
      simp [Scanner.next, Scanner.extend, Scanner.start, hc]
    have hname : String.ofList (c :: text) = name := by
      rw [← htext, String.ofList_toList]
    rw [lexemes_eq_rest, Scanner.rest_cons, hnext, Scanner.rest_of_word _ _ hrest]
    simp [Scanner.emit, hc, unplaced, hname]

end Token

/-! ## Parsing tokens at other positions -/

namespace Expr

def map (f : Token → Token) : Expr → Expr
  | .empty => .empty
  | .var t => .var (f t)
  | .app callee argument => .app (callee.map f) (argument.map f)
  | .lambda binder parameter body => .lambda (f binder) (parameter.map f) (body.map f)

theorem map_chain (f : Token → Token) (es : List Expr) :
    (Grammar.chain es).map f = Grammar.chain (es.map (map f)) := by
  cases es with
  | nil => rfl
  | cons e es =>
    simp only [Grammar.chain, List.map_cons]
    induction es generalizing e with
    | nil => rfl
    | cons e' es ih => exact ih (.app e e')

theorem slots_unplaced (e : Expr) (names : List String) :
    (e.map Token.unplaced).slots names = e.slots names := by
  induction e generalizing names with
  | empty => rfl
  | var t => rfl
  | app f a hf ha => rw [map, slots, slots, hf, ha]
  | lambda b p body ih =>
    rw [map, slots, slots, ih]
    cases p <;> rfl

theorem free_unplaced (e : Expr) (bound : List String) :
    (e.map Token.unplaced).free bound = (e.free bound).map Token.unplaced := by
  induction e generalizing bound with
  | empty => rfl
  | var t =>
    rw [map, free_var, free_var]
    split <;> simp_all
  | app f a hf ha => rw [map, free_app, free_app, hf, ha, List.map_append]
  | lambda b p body ih =>
    rw [map, free_lambda, free_lambda, ih]
    cases p <;> rfl

end Expr

namespace Grammar

section Lift

variable {f : Token → Token} (hf : ∀ t, (f t).kind = t.kind)
include hf

theorem kind_eq_of_map {t u : Token} (h : f u = f t) : u.kind = t.kind := by
  rw [← hf u, h, hf]

omit hf in
theorem exists_phrases {atoms : List Phrase}
    (h : ∀ a ∈ atoms, ∀ us : List Token, us.map f = a.1.map f →
      ∃ e, Derives .atom us e ∧ e.map f = a.2.map f)
    {us : List Token} (hus : us.map f = (tokensOf atoms).map f) :
    ∃ others : List Phrase, us = tokensOf others ∧ (∀ a ∈ others, Derives .atom a.1 a.2) ∧
      (treesOf others).map (Expr.map f) = (treesOf atoms).map (Expr.map f) := by
  induction atoms generalizing us with
  | nil =>
    rw [tokensOf_nil, List.map_nil, List.map_eq_nil_iff] at hus
    exact ⟨[], hus, by simp, rfl⟩
  | cons a atoms ih =>
    obtain ⟨ha, hatoms⟩ := List.forall_mem_cons.mp h
    rw [tokensOf_cons, List.map_append] at hus
    obtain ⟨us₁, us₂, rfl, hus₁, hus₂⟩ := List.map_eq_append_iff.mp hus
    obtain ⟨e, he, hmap⟩ := ha us₁ hus₁
    obtain ⟨others, rfl, hothers, htrees⟩ := ih hatoms hus₂
    refine ⟨(us₁, e) :: others, rfl, List.forall_mem_cons.mpr ⟨he, hothers⟩, ?_⟩
    simp only [treesOf, List.map_cons] at htrees ⊢
    rw [hmap, htrees]

/-- Tokens of the same kinds have the same derivations. -/
theorem Derives.exists_of_map {part : Part} {ts us : List Token} {e : Expr}
    (h : Derives part ts e) (hus : us.map f = ts.map f) :
    ∃ e', Derives part us e' ∧ e'.map f = e.map f := by
  induction h generalizing us with
  | identifier ht =>
    obtain ⟨u, rfl, hu⟩ := List.map_eq_singleton_iff.mp hus
    exact ⟨.var u, .identifier ((kind_eq_of_map hf hu).trans ht), congrArg Expr.var hu⟩
  | @group o c ts e ho _ hc ih =>
    rw [List.cons_append, List.map_cons, List.map_append, List.map_cons, List.map_nil] at hus
    obtain ⟨u, us₁, rfl, hu, hus₁⟩ := List.map_eq_cons_iff.mp hus
    obtain ⟨us₂, us₃, rfl, hus₂, hus₃⟩ := List.map_eq_append_iff.mp hus₁
    obtain ⟨v, rfl, hv⟩ := List.map_eq_singleton_iff.mp hus₃
    obtain ⟨e', he', hmap⟩ := ih hus₂
    exact ⟨e', .group ((kind_eq_of_map hf hu).trans ho) he' ((kind_eq_of_map hf hv).trans hc), hmap⟩
  | abstraction hb hp hd _ ih =>
    simp only [List.map_cons] at hus
    obtain ⟨b, us₁, rfl, hfb, hus₁⟩ := List.map_eq_cons_iff.mp hus
    obtain ⟨p, us₂, rfl, hfp, hus₂⟩ := List.map_eq_cons_iff.mp hus₁
    obtain ⟨d, us₃, rfl, hfd, hus₃⟩ := List.map_eq_cons_iff.mp hus₂
    obtain ⟨body, hbody, hmap⟩ := ih hus₃
    refine ⟨.lambda b (some p) body, .abstraction ((kind_eq_of_map hf hfb).trans hb)
      ((kind_eq_of_map hf hfp).trans hp) ((kind_eq_of_map hf hfd).trans hd) hbody, ?_⟩
    simp only [Expr.map, Option.map_some, hfb, hfp, hmap]
  | atoms hne _ ih =>
    obtain ⟨others, rfl, hothers, htrees⟩ := exists_phrases (fun a ha us => ih a ha) hus
    refine ⟨_, .atoms ?_ hothers, ?_⟩
    · rintro rfl
      exact hne (by simpa [treesOf] using htrees.symm)
    · rw [Expr.map_chain, Expr.map_chain, htrees]
  | atomsThen _ _ ihs ih =>
    rw [List.map_append] at hus
    obtain ⟨us₁, us₂, rfl, hus₁, hus₂⟩ := List.map_eq_append_iff.mp hus
    obtain ⟨others, rfl, hothers, htrees⟩ := exists_phrases (fun a ha us => ihs a ha) hus₁
    obtain ⟨e', he', hmap⟩ := ih hus₂
    refine ⟨_, .atomsThen hothers he', ?_⟩
    rw [Expr.map_chain, Expr.map_chain, List.map_append, List.map_append, htrees]
    simp only [List.map_cons, List.map_nil, hmap]

end Lift

end Grammar

/-- A text whose tokens are, up to positions, those of an expression is parsed without diagnostics,
to the same slots. -/
theorem Expr.parse_of_lexemes {source : String} {ts : List Token} {e : Expr}
    (h : Grammar.Derives .expression ts e)
    (hsource : Token.lexemes source.toList = ts.map Token.unplaced) :
    (parse source).diagnostics = [] ∧
      (∀ names, (parse source).expr.slots names = e.slots names) ∧
      ∀ bound, e.free bound = [] → (parse source).expr.free bound = [] := by
  obtain ⟨e', he', hmap⟩ := h.exists_of_map Token.kind_unplaced hsource
  have hparse : parse source = ⟨e', []⟩ := ofTokens_of_derives he'
  rw [hparse]
  refine ⟨rfl, ?_, ?_⟩
  · intro names
    rw [← slots_unplaced e', hmap, slots_unplaced]
  · intro bound hfree
    have hfree' := free_unplaced e' bound
    rw [hmap, free_unplaced, hfree] at hfree'
    exact List.map_eq_nil_iff.mp hfree'.symm

end LambdaCalculus
