import LambdaCalculus.Proofs.Lossless
import LambdaCalculus.Proofs.Reduction
import Mathlib.Data.List.Chain

/-! # Concrete syntax of terms

A term can be written in many ways.  Parentheses are required around an argument that is not a
variable and around an applied abstraction, and allowed around any term; binders have two forms; and
whitespace is required only between two identifiers.  Parsing any of these texts returns the term.
-/
namespace LambdaCalculus

namespace Named

def names : Named → List String
  | .var x => [x]
  | .app f a => f.names ++ a.names
  | .lambda x body => x :: body.names

/-- The place of a term: by itself, as a text, a group or a body; before an argument; or as an
argument. -/
inductive Role where
  | whole
  | callee
  | argument
  deriving DecidableEq, Repr

/-- The sequences of words that a term may be written as. -/
inductive Writes : Role → Named → List String → Prop where
  | var {role : Role} {x : String} : isIdentifier x = true → Writes role (.var x) [x]
  | app {role : Role} {f a : Named} {callee argument : List String} :
      role ≠ .argument → Writes .callee f callee → Writes .argument a argument →
      Writes role (.app f a) (callee ++ argument)
  | lambda {binder x : String} {body : Named} {words : List String} :
      binder = "\\" ∨ binder = "λ" → isIdentifier x = true → Writes .whole body words →
      Writes .whole (.lambda x body) (binder :: x :: "." :: words)
  /-- Parentheses are allowed around any term. -/
  | group {role : Role} {e : Named} {words : List String} :
      Writes .whole e words → Writes role e ("(" :: words ++ [")"])

end Named

structure Spaced where
  gap : List Char
  word : String
  deriving DecidableEq, Repr

namespace Spaced

/-- Consecutive identifiers are separated by whitespace. -/
def Apart (s s' : Spaced) : Prop :=
  isIdentifier s.word = true → isIdentifier s'.word = true → s'.gap ≠ []

instance (s s' : Spaced) : Decidable (s.Apart s') :=
  inferInstanceAs (Decidable (_ → _ → _))

def layOut (words : List Spaced) (last : List Char) : List Char :=
  words.flatMap (fun s => s.gap ++ s.word.toList) ++ last

end Spaced

def Named.WrittenAs (e : Named) (text : String) : Prop :=
  ∃ words last, e.Writes .whole (words.map Spaced.word) ∧ words.IsChain Spaced.Apart ∧
    (∀ s ∈ words, s.gap ⊆ Token.separators) ∧ last ⊆ Token.separators ∧
    text.toList = Spaced.layOut words last

/-! ## Words and tokens -/

namespace Token

def ofWord (word : String) : Token :=
  ⟨match word.toList with
    | [c] => (reserved? c).getD .identifier
    | _ => .identifier, .start, word⟩

/-- A word is an identifier or a reserved character. -/
def IsWord (word : String) : Prop :=
  isIdentifier word = true ∨ ∃ c, (reserved? c).isSome = true ∧ word = String.singleton c

theorem kind_ofWord {x : String} (h : isIdentifier x = true) : (ofWord x).kind = .identifier := by
  obtain ⟨-, hall⟩ := Bool.and_eq_true_iff.mp h
  unfold ofWord
  split
  · rename_i c hc
    simp only [hc, List.all_cons, isIdentifierChar, Bool.and_eq_true, Option.isNone_iff_eq_none]
      at hall
    simp [hall.1.2]
  · rfl

theorem lexemes_gap {gap : List Char} (h : gap ⊆ separators) (text : List Char) :
    lexemes (gap ++ text) = lexemes text := by
  induction gap with
  | nil => rfl
  | cons c gap ih =>
    obtain ⟨hc, hgap⟩ := List.cons_subset.mp h
    have hwhite : isIdentifierChar c = false ∧ lexemes [c] = [] := by
      simp only [separators, List.mem_cons, List.not_mem_nil, or_false] at hc
      rcases hc with rfl | rfl | rfl | rfl <;> decide
    rw [List.cons_append, lexemes_cons hwhite.1, hwhite.2, List.nil_append, ih hgap]

theorem lexemes_word {word : String} (h : IsWord word) {rest : List Char}
    (hrest : isIdentifier word = true → ∀ c ∈ rest.head?, isIdentifierChar c = false) :
    lexemes (word.toList ++ rest) = ofWord word :: lexemes rest := by
  rcases h with h | ⟨c, hc, rfl⟩
  · have hword : lexemes word.toList = [ofWord word] := by
      rw [lexemes_identifier h, ← kind_ofWord h]
      rfl
    cases rest with
    | nil => rw [List.append_nil, hword]; rfl
    | cons c rest =>
      have hc : isIdentifierChar c = false := hrest h c rfl
      rw [lexemes_append_cons hc, hword, List.append_assoc, ← lexemes_cons hc]
      rfl
  · obtain ⟨kind, hkind⟩ := Option.isSome_iff_exists.mp hc
    have hletter : isIdentifierChar c = false := by simp [isIdentifierChar, hkind]
    have hword : lexemes [c] = [ofWord (String.singleton c)] := by
      rw [lexemes_eq_rest, Scanner.start, Scanner.rest_reserved hkind]
      simp [ofWord, hkind, unplaced, Scanner.rest, Scanner.pending]
    rw [String.toList_singleton, List.singleton_append, lexemes_cons hletter, hword]
    rfl

end Token

namespace Spaced

open Token

theorem layOut_cons (s : Spaced) (words : List Spaced) (last : List Char) :
    layOut (s :: words) last = s.gap ++ (s.word.toList ++ layOut words last) := by
  simp [layOut]

/-- The text after an identifier does not extend it. -/
theorem head_layOut {s : Spaced} {words : List Spaced} {last : List Char}
    (hwords : ∀ s ∈ words, IsWord s.word) (hgaps : ∀ s ∈ words, s.gap ⊆ separators)
    (hlast : last ⊆ separators) (hapart : (s :: words).IsChain Apart)
    (hs : isIdentifier s.word = true) :
    ∀ c ∈ (layOut words last).head?, isIdentifierChar c = false := by
  intro c hc
  have hseparator : c ∈ separators → isIdentifierChar c = false := fun h => by
    simp [isIdentifierChar, isWhitespace_iff.mpr h]
  cases words with
  | nil => exact hseparator (hlast (List.mem_of_mem_head? hc))
  | cons s' words =>
    rw [layOut_cons] at hc
    cases hgap : s'.gap with
    | cons d gap =>
      obtain rfl : d = c := by simpa [hgap] using hc
      exact hseparator (hgaps s' List.mem_cons_self (by simp [hgap]))
    | nil =>
      -- Without whitespace in front, the next word is a reserved character.
      rcases hwords s' List.mem_cons_self with hs' | ⟨d, hd, hword⟩
      · exact absurd hgap ((List.isChain_cons_cons.mp hapart).1 hs hs')
      · obtain rfl : d = c := by simpa [hgap, hword] using hc
        obtain ⟨kind, hkind⟩ := Option.isSome_iff_exists.mp hd
        simp [isIdentifierChar, hkind]

/-- The tokens of a text are those of its words. -/
theorem lexemes_layOut {words : List Spaced} {last : List Char}
    (hwords : ∀ s ∈ words, IsWord s.word) (hgaps : ∀ s ∈ words, s.gap ⊆ separators)
    (hlast : last ⊆ separators) (hapart : words.IsChain Apart) :
    lexemes (layOut words last) = words.map fun s => ofWord s.word := by
  induction words with
  | nil =>
    have hnone := lexemes_gap hlast []
    rw [List.append_nil] at hnone
    exact hnone
  | cons s words ih =>
    obtain ⟨hword, hwords⟩ := List.forall_mem_cons.mp hwords
    obtain ⟨hgap, hgaps⟩ := List.forall_mem_cons.mp hgaps
    rw [layOut_cons, lexemes_gap hgap, lexemes_word hword (head_layOut hwords hgaps hlast hapart),
      ih hwords hgaps hapart.tail, List.map_cons]

end Spaced

/-! ## Parsing written terms -/

namespace Expr

theorem named?_unplaced (e : Expr) : (e.map Token.unplaced).named? = e.named? := by
  induction e with
  | empty => rfl
  | var t => rfl
  | app f a hf ha => rw [map, named?, named?, hf, ha]
  | lambda b p body ih =>
    rw [map, named?, named?, ih]
    cases p <;> rfl

end Expr

namespace Named

open Grammar Token

theorem Writes.isWord {role : Role} {e : Named} {words : List String} (h : e.Writes role words) :
    ∀ word ∈ words, IsWord word := by
  induction h with
  | var hx => exact List.forall_mem_singleton.mpr (.inl hx)
  | app _ _ _ hf ha => exact List.forall_mem_append.mpr ⟨hf, ha⟩
  | lambda hbinder hx _ ih =>
    refine List.forall_mem_cons.mpr ⟨?_, List.forall_mem_cons.mpr ⟨.inl hx,
      List.forall_mem_cons.mpr ⟨.inr ⟨'.', rfl, rfl⟩, ih⟩⟩⟩
    rcases hbinder with rfl | rfl
    · exact .inr ⟨'\\', rfl, rfl⟩
    · exact .inr ⟨'λ', rfl, rfl⟩
  | group _ ih =>
    exact List.forall_mem_cons.mpr ⟨.inr ⟨'(', rfl, rfl⟩,
      List.forall_mem_append.mpr ⟨ih, List.forall_mem_singleton.mpr (.inr ⟨')', rfl, rfl⟩)⟩⟩

/-- The tokens are a phrase of the grammar for a term in the given role. -/
def Reads : Role → Named → List Token → Prop
  | .whole, e, ts => ∃ tree, Derives .expression ts tree ∧ tree.named? = some e
  | .callee, e, ts => ∃ atoms, atoms ≠ [] ∧ (∀ a ∈ atoms, Derives .atom a.1 a.2) ∧
      tokensOf atoms = ts ∧ (chain (treesOf atoms)).named? = some e
  | .argument, e, ts => ∃ tree, Derives .atom ts tree ∧ tree.named? = some e

/-- A sequence of atoms is a phrase in every role but that of an argument. -/
theorem reads_of_atoms {role : Role} {e : Named} {atoms : List Phrase} (hrole : role ≠ .argument)
    (hne : atoms ≠ []) (hatoms : ∀ a ∈ atoms, Derives .atom a.1 a.2)
    (he : (chain (treesOf atoms)).named? = some e) : e.Reads role (tokensOf atoms) := by
  cases role with
  | whole => exact ⟨_, .atoms hne hatoms, he⟩
  | callee => exact ⟨atoms, hne, hatoms, rfl, he⟩
  | argument => exact absurd rfl hrole

theorem reads_of_atom {role : Role} {e : Named} {ts : List Token} {tree : Expr}
    (h : Derives .atom ts tree) (he : tree.named? = some e) : e.Reads role ts := by
  by_cases hrole : role = .argument
  · rw [hrole]
    exact ⟨tree, h, he⟩
  · have hreads := reads_of_atoms hrole (List.cons_ne_nil (ts, tree) [])
      (List.forall_mem_singleton.mpr h) he
    simpa using hreads

theorem named?_chain_concat {atoms : List Phrase} {f a : Named} {tree : Expr} (hne : atoms ≠ [])
    (hatoms : ∀ a ∈ atoms, Derives .atom a.1 a.2) (hf : (chain (treesOf atoms)).named? = some f)
    (ha : tree.named? = some a) : (chain (treesOf atoms ++ [tree])).named? = some (.app f a) := by
  have hcallee : chain (treesOf atoms) ≠ .empty := (Derives.atoms hne hatoms).complete.ne_empty
  rw [chain_concat (empty_notMem_treesOf hatoms), Expr.apply_eq_app hcallee, Expr.named?, hf, ha]
  rfl

/-- The words of a term are a phrase for its role. -/
theorem Writes.reads {role : Role} {e : Named} {words : List String} (h : e.Writes role words) :
    e.Reads role (words.map ofWord) := by
  induction h with
  | var hx => exact reads_of_atom (.identifier (kind_ofWord hx)) rfl
  | @app role f a callee argument hrole _ _ hf ha =>
    obtain ⟨atoms, hne, hatoms, htokens, hcallee⟩ := hf
    obtain ⟨tree, hatom, hargument⟩ := ha
    rw [List.map_append, ← htokens]
    have hlonger : atoms ++ [(argument.map ofWord, tree)] ≠ [] := by simp
    have hreads := reads_of_atoms hrole hlonger
      (List.forall_mem_append.mpr ⟨hatoms, List.forall_mem_singleton.mpr hatom⟩)
      (by rw [treesOf_append]; exact named?_chain_concat hne hatoms hcallee hargument)
    simpa using hreads
  | @lambda binder x body words hbinder hx _ ih =>
    obtain ⟨tree, hbody, he⟩ := ih
    have hkind : (ofWord binder).kind = .binder := by
      rcases hbinder with rfl | rfl <;> rfl
    have habstraction : Derives .abstraction
        (ofWord binder :: ofWord x :: ofWord "." :: words.map ofWord)
        (.lambda (ofWord binder) (some (ofWord x)) tree) :=
      .abstraction hkind (kind_ofWord hx) rfl hbody
    have hexpression := @Derives.atomsThen [] _ _ (by simp) habstraction
    refine ⟨_, hexpression, ?_⟩
    change (Expr.lambda _ (some (ofWord x)) tree).named? = _
    rw [Expr.named?, he]
    rfl
  | @group role e words _ ih =>
    obtain ⟨tree, hinner, he⟩ := ih
    have hgroup : Derives .atom (ofWord "(" :: words.map ofWord ++ [ofWord ")"]) tree :=
      .group rfl hinner rfl
    exact reads_of_atom (by simpa using hgroup) he

/-- Every term whose names are identifiers can be written. -/
theorem exists_writes {e : Named} (h : e.names.all isIdentifier = true) :
    ∃ words, e.Writes .whole words := by
  induction e with
  | var x => exact ⟨[x], .var (by simpa [names] using h)⟩
  | app f a hf ha =>
    rw [names, List.all_append, Bool.and_eq_true] at h
    obtain ⟨callee, hcallee⟩ := hf h.1
    obtain ⟨argument, hargument⟩ := ha h.2
    exact ⟨_, .app (by simp) (.group hcallee) (.group hargument)⟩
  | lambda x body ih =>
    rw [names, List.all_cons, Bool.and_eq_true] at h
    obtain ⟨words, hwords⟩ := ih h.2
    exact ⟨_, .lambda (.inl rfl) h.1 hwords⟩

theorem exists_writtenAs {e : Named} (h : e.names.all isIdentifier = true) :
    ∃ text, e.WrittenAs text := by
  obtain ⟨words, hwords⟩ := exists_writes h
  let spaced := words.map (Spaced.mk [' '])
  have hword : spaced.map Spaced.word = words := by simp [spaced, Function.comp_def]
  refine ⟨String.ofList (Spaced.layOut spaced []), spaced, [], hword ▸ hwords, ?_, ?_, ?_, ?_⟩
  · exact (List.pairwise_map.mpr (List.pairwise_of_forall (by simp [Spaced.Apart]))).isChain
  · simp [spaced, separators]
  · simp
  · exact String.toList_ofList

end Named

open Named in
/-- Parsing any text of a term has no diagnostics and returns the tree of that term. -/
theorem reading_undoes_writing (e : Named) (h : e.names.all isIdentifier = true) :
    (∃ text, e.WrittenAs text) ∧
    ∀ text, e.WrittenAs text →
      (Expr.parse text).diagnostics = [] ∧ (Expr.parse text).expr.named? = some e := by
  refine ⟨exists_writtenAs h, ?_⟩
  rintro text ⟨words, last, hwrites, hapart, hgaps, hlast, htext⟩
  have hwords : ∀ s ∈ words, Token.IsWord s.word :=
    fun s hs => hwrites.isWord s.word (List.mem_map_of_mem hs)
  have htokens : (Token.scan text).tokens.map Token.unplaced =
      ((words.map Spaced.word).map Token.ofWord).map Token.unplaced := by
    have hlexemes := Spaced.lexemes_layOut hwords hgaps hlast hapart
    rw [← htext] at hlexemes
    rw [List.map_map, List.map_map]
    exact hlexemes
  obtain ⟨tree, hderives, hnamed⟩ := hwrites.reads
  obtain ⟨tree', hderives', hmap⟩ := hderives.exists_of_map Token.kind_unplaced htokens
  have hparse : Expr.parse text = ⟨tree', []⟩ := Expr.ofTokens_of_derives hderives'
  rw [hparse]
  refine ⟨rfl, ?_⟩
  rw [← Expr.named?_unplaced, hmap, Expr.named?_unplaced, hnamed]

/-- Redundant parentheses, and whitespace where it is required. -/
theorem reading_undoes_writing_spaced :
    (Named.app (.lambda "x" (.app (.app (.var "x") (.var "y")) (.var "z"))) (.var "w")).WrittenAs
      "(λx . ((x) y z)) (w)\n" ∧
    (Expr.parse "(λx . ((x) y z)) (w)\n").expr.named? =
      some (.app (.lambda "x" (.app (.app (.var "x") (.var "y")) (.var "z"))) (.var "w")) := by
  have hcallee : (Named.app (.var "x") (.var "y")).Writes .callee (["(", "x", ")"] ++ ["y"]) :=
    .app (by decide) (.group (.var rfl)) (.var rfl)
  have hbody : (Named.app (.app (.var "x") (.var "y")) (.var "z")).Writes .whole
      (["(", "x", ")", "y"] ++ ["z"]) := .app (by decide) hcallee (.var rfl)
  have hwhole : (Named.app (.lambda "x" (.app (.app (.var "x") (.var "y")) (.var "z")))
      (.var "w")).Writes .whole
      (["(", "λ", "x", ".", "(", "(", "x", ")", "y", "z", ")", ")"] ++ ["(", "w", ")"]) :=
    .app (by decide) (.group (.lambda (.inr rfl) rfl (.group hbody))) (.group (.var rfl))
  have hwritten : (Named.app (.lambda "x" (.app (.app (.var "x") (.var "y")) (.var "z")))
      (.var "w")).WrittenAs "(λx . ((x) y z)) (w)\n" :=
    ⟨[⟨[], "("⟩, ⟨[], "λ"⟩, ⟨[], "x"⟩, ⟨[' '], "."⟩, ⟨[' '], "("⟩, ⟨[], "("⟩, ⟨[], "x"⟩, ⟨[], ")"⟩,
      ⟨[' '], "y"⟩, ⟨[' '], "z"⟩, ⟨[], ")"⟩, ⟨[], ")"⟩, ⟨[' '], "("⟩, ⟨[], "w"⟩, ⟨[], ")"⟩], ['\n'],
      hwhole, by decide, by decide, by decide, by decide⟩
  exact ⟨hwritten, ((reading_undoes_writing _ (by decide)).2 _ hwritten).2⟩

end LambdaCalculus
