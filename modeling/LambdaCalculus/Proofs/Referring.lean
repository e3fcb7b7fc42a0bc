import LambdaCalculus.Proofs.Entries

/-! # References to defined names

The prompt accepts a definition if its name passes a test on its characters.  The test holds for
exactly the names that are scanned as one identifier.  So a defined name can be written as an
expression, and it denotes the value it was given last, whatever was defined before.
-/
namespace LambdaCalculus

namespace Token

/-- An identifier is scanned as a single token. -/
theorem tokens_scan_identifier {name : String} (h : isIdentifier name = true) :
    (scan name).tokens = [⟨.identifier, .start, name⟩] := by
  have hletters := isIdentifier_iff.mp h
  have hfits : Fits ([] ++ []) ⟨.identifier, .start, name⟩ [] :=
    ⟨rfl, fun hk => absurd rfl hk, fun _ => hletters, fun _ => by simp⟩
  have hcut := Cut.cons (List.nil_subset separators) hfits (.nil (List.nil_subset separators))
  simp only [List.nil_append, List.append_nil] at hcut
  exact hcut.tokens_eq.symm

theorem isIdentifier_of_tokens {name : String} {t : Token} (htokens : (scan name).tokens = [t])
    (hkind : t.kind = .identifier) (hraw : t.raw = name) : isIdentifier name = true := by
  obtain ⟨pieces, last, hcut⟩ := exists_cut_source name
  rw [← hcut.tokens_eq] at htokens
  obtain ⟨p, rfl, rfl⟩ := List.map_eq_singleton_iff.mp htokens
  apply isIdentifier_iff.mpr
  rw [← hraw]
  exact (hcut.fits [] p [] rfl).letters hkind

end Token

namespace Expr

theorem parse_identifier {name : String} (h : isIdentifier name = true) :
    parse name = ⟨.var ⟨.identifier, .start, name⟩, []⟩ := by
  have hderives (t : Token) (ht : t.kind = .identifier) :
      Grammar.Derives .expression (Grammar.tokensOf [([t], .var t)])
        (Grammar.chain (Grammar.treesOf [([t], .var t)])) := by
    apply Grammar.Derives.atoms (List.cons_ne_nil _ _)
    intro a ha
    rw [List.mem_singleton.mp ha]
    exact .identifier ht
  apply ofTokens_of_derives
  rw [Token.tokens_scan_identifier h]
  exact hderives _ rfl

end Expr

variable {φ : Type}

/-- An identifier by itself denotes the innermost global of that name. -/
theorem compile_identifier {name : String} (h : isIdentifier name = true) (globals : Globals φ)
    (v : Value φ) (m : Machine φ) :
    ∃ program, compile (globals ++ [(name, v)]) name m = (⟨v, program, []⟩, m) := by
  obtain ⟨v', m', hload, hcompile⟩ := compile_eq (globals ++ [(name, v)]) name m
  rw [Expr.parse_identifier h] at hload hcompile
  have hslots : (Expr.var ⟨.identifier, .start, name⟩).slots
      (Globals.names (globals ++ [(name, v)])) = .slot 0 := by
    simp [Expr.slots, Globals.names, List.idxOf?_cons]
  have henv : (Globals.env (globals ++ [(name, v)]))[0]? = some v := by
    simp [Globals.env]
  have hloaded : (v', m') = (v, m) := by
    rw [hslots, Term.load, henv] at hload
    exact (Except.ok.inj hload).symm
  obtain ⟨rfl, rfl⟩ := Prod.mk.inj hloaded
  rw [hcompile]
  simp [Expr.free_var]

namespace Entry

theorem isIdentifier_of_name {text name : String} (h : (ofText text).name = some name) :
    isIdentifier name = true ∧ isBlank text = false := by
  have hdefines : Defines text name (ofText text).source := ofText_eq_some_iff.mp (by rw [← h])
  obtain ⟨hidentifier, front, back, -, -, hhalves⟩ := hdefines
  refine ⟨hidentifier, ?_⟩
  rw [isBlank, List.all_eq_false]
  exact ⟨'=', by simp [hhalves.text_eq, equals], by decide⟩

end Entry

/-- A definition without diagnostics binds the name to the value, inside all others. -/
theorem Prompt.finish_definition {p : Prompt φ} {text name : String}
    (h : (Entry.ofText text).name = some name)
    (hok : (p.compile (Entry.ofText text).source).1.isOk = true) :
    p.finish text = ⟨(p.compile (Entry.ofText text).source).2,
      p.globals ++ [(name, (p.compile (Entry.ofText text).source).1.value)], ""⟩ := by
  simp [finish, define, (Entry.isIdentifier_of_name h).2, h, hok]

/-- A name is an identifier iff it is scanned as one token, an identifier with all of its text, and
the end of file.  It then denotes the value bound to it last: compiling it has no diagnostics,
returns that value and leaves the machine unchanged, whatever globals precede, including those with
the same name or spelling.  So every definition that the prompt accepts can be referred to by its
name. -/
theorem identifiers_can_be_referred_to (name : String) :
    (isIdentifier name = true ↔
      ∃ t eof, (Token.scan name).all = [t, eof] ∧ t.kind = .identifier ∧ t.raw = name ∧
        eof.kind = .endOfFile) ∧
    (isIdentifier name = true →
      ∀ (φ : Type) (globals : Globals φ) (v : Value φ) (m : Machine φ),
        ∃ program, compile (globals ++ [(name, v)]) name m = (⟨v, program, []⟩, m)) ∧
    ∀ (φ : Type) (p : Prompt φ) (text : String), (Entry.ofText text).name = some name →
      (p.compile (Entry.ofText text).source).1.isOk = true →
      ∃ program, (p.finish text).compile name =
        (⟨(p.compile (Entry.ofText text).source).1.value, program, []⟩,
          (p.finish text).machine) := by
  refine ⟨⟨?_, ?_⟩, fun h φ => compile_identifier h, ?_⟩
  · intro h
    refine ⟨⟨.identifier, .start, name⟩, (Token.scan name).endOfFile, ?_, rfl, rfl, ?_⟩
    · rw [Token.Scanned.all, Token.tokens_scan_identifier h, List.singleton_append]
    · exact (Token.scan_orderly name).endOfFile
  · rintro ⟨t, eof, hall, hkind, hraw, -⟩
    have htokens : (Token.scan name).tokens = [t] :=
      (List.append_inj hall (by simpa [Token.Scanned.all] using congrArg List.length hall)).1
    exact Token.isIdentifier_of_tokens htokens hkind hraw
  · intro φ p text hname hok
    rw [Prompt.finish_definition hname hok]
    exact compile_identifier (Entry.isIdentifier_of_name hname).1 p.globals _ _

/-- A no-break space is part of a name, while the tab in front of it is not. -/
theorem identifiers_can_be_referred_to_unbroken :
    (∃ t eof, (Token.scan "a\u00a0b").all = [t, eof] ∧ t.kind = .identifier ∧
      t.raw = "a\u00a0b" ∧ eof.kind = .endOfFile) ∧
    (∃ program, compile
        ([("a", .undefined), ("a\u00a0b", .atom "old")] ++ [("a\u00a0b", .deferred 0)])
        "a\u00a0b" (⟨#[⟨.app .undefined .undefined, [], none⟩], []⟩ : Machine Empty) =
      (⟨.deferred 0, program, []⟩, ⟨#[⟨.app .undefined .undefined, [], none⟩], []⟩)) ∧
    ∃ program, ((Prompt.start : Prompt Empty).finish "\ta\u00a0b = \\x.x\n").compile "a\u00a0b" =
      (⟨.closure (.slot 0) [], program, []⟩, .empty) := by
  obtain ⟨hscan, hcompile, hprompt⟩ := identifiers_can_be_referred_to "a\u00a0b"
  have hidentifier : isIdentifier "a\u00a0b" = true := by decide
  refine ⟨hscan.mp hidentifier, hcompile hidentifier Empty _ _ _, ?_⟩
  exact hprompt Empty .start "\ta\u00a0b = \\x.x\n" (by decide) (by decide)

end LambdaCalculus
