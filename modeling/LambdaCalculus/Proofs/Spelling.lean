import LambdaCalculus.Proofs.Nesting

/-! # Injectivity of spelling

A spelling is a sequence of blocks, one for each character of the name.  Nothing marks the end of a
block, but no block of a character up to `U+FFFF` is an initial segment of that of another such
character.  So names of these characters are determined by their spellings, and the quotes in their
generated names count repetitions only.
-/
namespace LambdaCalculus

namespace Name

/-- A character whose code point has no more than four hexadecimal digits. -/
def IsBasic (c : Char) : Prop := c.toNat ≤ 0xffff

instance (c : Char) : Decidable (IsBasic c) := inferInstanceAs (Decidable (c.toNat ≤ 0xffff))

/-! ## Four hexadecimal digits -/

theorem digitChar_inj {d e : Nat} (hd : d < 16) (he : e < 16) (h : d.digitChar = e.digitChar) :
    d = e := by
  have hall : ∀ d < 16, ∀ e < 16, Nat.digitChar d = Nat.digitChar e → d = e := by decide
  exact hall d hd e he h

theorem hex4_eq {n : Nat} (h : n ≤ 0xffff) :
    hex4 n = [(n / 4096).digitChar, (n / 256 % 16).digitChar, (n / 16 % 16).digitChar,
      (n % 16).digitChar] := by
  have hlast {k : Nat} (hk : k < 16) : Nat.toDigits 16 k = [k.digitChar] :=
    Nat.toDigits_of_lt_base hk
  have hmore {k : Nat} (hk : ¬ k < 16) :
      Nat.toDigits 16 k = Nat.toDigits 16 (k / 16) ++ [(k % 16).digitChar] :=
    Nat.toDigits_of_base_le (by decide) (by omega)
  have h256 : n / 16 / 16 = n / 256 := by omega
  have h4096 : n / 256 / 16 = n / 4096 := by omega
  unfold hex4
  by_cases h₁ : n < 16
  · have hzeros : n / 4096 = 0 ∧ n / 256 % 16 = 0 ∧ n / 16 % 16 = 0 := by omega
    rw [hlast h₁, hzeros.1, hzeros.2.1, hzeros.2.2, Nat.mod_eq_of_lt h₁]
    rfl
  by_cases h₂ : n / 16 < 16
  · have hzeros : n / 4096 = 0 ∧ n / 256 % 16 = 0 := by omega
    rw [hmore h₁, hlast h₂, hzeros.1, hzeros.2, Nat.mod_eq_of_lt h₂]
    rfl
  by_cases h₃ : n / 256 < 16
  · have hzero : n / 4096 = 0 := by omega
    rw [hmore h₁, hmore h₂, h256, hlast h₃, hzero, Nat.mod_eq_of_lt h₃]
    rfl
  · rw [hmore h₁, hmore h₂, h256, hmore h₃, h4096, hlast (by omega)]
    rfl

theorem hex4_inj {m n : Nat} (hm : m ≤ 0xffff) (hn : n ≤ 0xffff) (h : hex4 m = hex4 n) : m = n := by
  rw [hex4_eq hm, hex4_eq hn] at h
  simp only [List.cons.injEq, and_true] at h
  obtain ⟨h₃, h₂, h₁, h₀⟩ := h
  have h₃ := digitChar_inj (by omega) (by omega) h₃
  have h₂ := digitChar_inj (by omega) (by omega) h₂
  have h₁ := digitChar_inj (by omega) (by omega) h₁
  have h₀ := digitChar_inj (by omega) (by omega) h₀
  omega

/-! ## Blocks -/

/-- The text after the marker for a character that is not plain. -/
def escaped (c : Char) : List Char :=
  match words.lookup c with
  | some word => word.toList
  | none => 'u' :: hex4 c.toNat

theorem spellChar_eq (c : Char) : spellChar c = if isPlain c then [c] else '$' :: escaped c := by
  unfold spellChar escaped
  split
  · rfl
  · cases words.lookup c <;> rfl

/-- No word is an initial segment of another. -/
theorem eq_of_prefix_word {p q : Char × String} (hp : p ∈ words) (hq : q ∈ words)
    (h : p.2.toList <+: q.2.toList) : p = q := by
  have hall : words.all (fun p => words.all fun q =>
      !p.2.toList.isPrefixOf q.2.toList || p = q) = true := by decide
  have hpq := List.all_eq_true.mp (List.all_eq_true.mp hall p hp) q hq
  simpa [List.isPrefixOf_iff_prefix.mpr h] using hpq

theorem head_word {p : Char × String} (hp : p ∈ words) :
    ∃ c letters, p.2.toList = c :: letters ∧ c ≠ 'u' := by
  have hall : words.all (fun p => p.2.toList.head?.any (· ≠ 'u')) = true := by decide
  have hhead := List.all_eq_true.mp hall p hp
  cases hletters : p.2.toList with
  | nil => simp [hletters] at hhead
  | cons c letters => exact ⟨c, letters, rfl, by simpa [hletters] using hhead⟩

theorem eq_of_prefix_escaped {c d : Char} (hc : IsBasic c) (hd : IsBasic d)
    (h : escaped c <+: escaped d) : c = d := by
  unfold escaped at h
  cases hcword : words.lookup c with
  | some word =>
    cases hdword : words.lookup d with
    | some word' =>
      rw [hcword, hdword] at h
      have hpair := eq_of_prefix_word (mem_words_of_lookup hcword) (mem_words_of_lookup hdword) h
      exact congrArg Prod.fst hpair
    | none =>
      obtain ⟨x, letters, hletters, hx⟩ := head_word (mem_words_of_lookup hcword)
      rw [hcword, hdword] at h
      simp only [hletters, List.cons_prefix_cons] at h
      exact absurd h.1 hx
  | none =>
    cases hdword : words.lookup d with
    | some word' =>
      obtain ⟨x, letters, hletters, hx⟩ := head_word (mem_words_of_lookup hdword)
      rw [hcword, hdword] at h
      simp only [hletters, List.cons_prefix_cons] at h
      exact absurd h.1.symm hx
    | none =>
      rw [hcword, hdword] at h
      have hdigits : hex4 c.toNat <+: hex4 d.toNat := (List.cons_prefix_cons.mp h).2
      have hlength : (hex4 c.toNat).length = (hex4 d.toNat).length := by
        rw [hex4_eq hc, hex4_eq hd]
        rfl
      exact Char.toNat_inj.mp (hex4_inj hc hd (hdigits.eq_of_length hlength))

/-- No block is an initial segment of another. -/
theorem eq_of_prefix_spellChar {c d : Char} (hc : IsBasic c) (hd : IsBasic d)
    (h : spellChar c <+: spellChar d) : c = d := by
  have hmarker {x : Char} (hx : isPlain x = true) : x ≠ '$' := by
    rintro rfl
    exact absurd hx (by decide)
  rw [spellChar_eq, spellChar_eq] at h
  by_cases hcplain : isPlain c <;> by_cases hdplain : isPlain d
  · rw [if_pos hcplain, if_pos hdplain, List.cons_prefix_cons] at h
    exact h.1
  · rw [if_pos hcplain, if_neg hdplain, List.cons_prefix_cons] at h
    exact absurd h.1 (hmarker hcplain)
  · rw [if_neg hcplain, if_pos hdplain, List.cons_prefix_cons] at h
    exact absurd h.1.symm (hmarker hdplain)
  · rw [if_neg hcplain, if_neg hdplain, List.cons_prefix_cons] at h
    exact eq_of_prefix_escaped hc hd h.2

theorem spellChar_ne_nil (c : Char) : spellChar c ≠ [] := by
  rw [spellChar_eq]
  split <;> simp

-- Of two texts that blocks make, the first block of one begins with that of the other.
theorem flatMap_spellChar_inj {a b : List Char} (ha : ∀ c ∈ a, IsBasic c) (hb : ∀ c ∈ b, IsBasic c)
    (h : a.flatMap spellChar = b.flatMap spellChar) : a = b := by
  induction a generalizing b with
  | nil =>
    cases b with
    | nil => rfl
    | cons d b => simp [spellChar_ne_nil] at h
  | cons c a ih =>
    cases b with
    | nil => simp [spellChar_ne_nil] at h
    | cons d b =>
      obtain ⟨hc, hrest⟩ := List.forall_mem_cons.mp ha
      obtain ⟨hd, hrest'⟩ := List.forall_mem_cons.mp hb
      rw [List.flatMap_cons, List.flatMap_cons] at h
      have hcd : c = d := by
        have hleft : spellChar c <+: spellChar c ++ a.flatMap spellChar := List.prefix_append _ _
        have hright : spellChar d <+: spellChar c ++ a.flatMap spellChar :=
          h ▸ List.prefix_append _ _
        rcases List.prefix_or_prefix_of_prefix hleft hright with hprefix | hprefix
        · exact eq_of_prefix_spellChar hc hd hprefix
        · exact (eq_of_prefix_spellChar hd hc hprefix).symm
      subst hcd
      exact congrArg (c :: ·) (ih hrest hrest' (List.append_cancel_left h))

/-! ## Quotes -/

def AllBasic (name : String) : Prop := ∀ c ∈ name.toList, IsBasic c

instance (name : String) : Decidable (AllBasic name) :=
  decidable_of_iff (name.toList.all (fun c => decide (IsBasic c)) = true) (by simp [AllBasic])

theorem eq_of_spell {a b : String} (ha : AllBasic a) (hb : AllBasic b) (h : spell a = spell b) :
    a = b := by
  apply String.toList_injective
  exact flatMap_spellChar_inj ha hb (List.cons.inj (spell_eq_iff.mp h)).2

/-- Among basic names, only equal ones have the same spelling. -/
theorem alike_eq_count {names : List String} {name : String} (hnames : ∀ x ∈ names, AllBasic x)
    (hname : AllBasic name) : alike names name = names.count name := by
  refine List.countP_congr ?_
  intro other hother
  simp only [decide_eq_true_eq, beq_iff_eq]
  constructor
  · exact eq_of_spell (hnames other hother) hname
  · exact congrArg spell

theorem quote_mem_quoted {name : String} {n : Nat} :
    '\x27' ∈ (quoted name n).toList ↔ n ≠ 0 := by
  simp [quoted, quote_notMem_spellChars]

end Name

/-- Names without characters above `U+FFFF` that have the same spelling are equal.  So if only such
names are bound, along any path in the code of any text with any globals, a generated name has one
quote for each enclosing binding of the same name: it has quotes iff the name is repeated. -/
theorem spelling_tells_names_apart :
    (∀ a b : String, Name.AllBasic a → Name.AllBasic b → Name.spell a = Name.spell b → a = b) ∧
    ∀ (source : String) (globals names : List String) (way : List Turn),
      (Expr.parse source).expr.boundAlong way = some names →
      (∀ name ∈ globals ++ names, Name.AllBasic name) →
      ∃ inner, (Program.ofText source globals).code.boundAlong way = some inner ∧
        ((Program.ofText source globals).globals ++ inner).length = (globals ++ names).length ∧
        ∀ (i : Nat) (name : String), (globals ++ names)[i]? = some name →
          ∃ generated, ((Program.ofText source globals).globals ++ inner)[i]? = some generated ∧
            generated = Name.quoted name (((globals ++ names).take i).count name) ∧
            ('\x27' ∈ generated.toList ↔ name ∈ (globals ++ names).take i) := by
  refine ⟨fun a b => Name.eq_of_spell, ?_⟩
  intro source globals names way hnames hbasic
  have hway := (Expr.parse source).expr.boundAlong_code globals way
  rw [hnames, ← Program.code_ofText] at hway
  obtain ⟨inner, hinner, hnested⟩ := Option.map_eq_some_iff.mp hway
  refine ⟨inner, hinner, ?_⟩
  rw [Program.ofText, Expr.globals_generate, hnested]
  refine ⟨by simp [Name.nested], ?_⟩
  intro i name hname
  have hcount : Name.alike ((globals ++ names).take i) name =
      ((globals ++ names).take i).count name := by
    apply Name.alike_eq_count
    · exact fun x hx => hbasic x (List.mem_of_mem_take hx)
    · exact hbasic name (List.mem_of_getElem? hname)
  refine ⟨Name.quoted name (((globals ++ names).take i).count name), ?_, rfl, ?_⟩
  · simp [Name.nested, hname, ← hcount]
  · rw [Name.quote_mem_quoted, Ne, List.count_eq_zero, not_not]

/-- The prime in the second global is spelled out, so the parameter `x` has no quote; the inner `é`
has two, for the outer one and the global. -/
theorem spelling_tells_names_apart_primed :
    (∀ name, Name.AllBasic name → Name.spell name = "$x$quote" → name = "x'") ∧
    (Expr.parse "\\é.\\x.\\é.x").expr.boundAlong [.body, .body, .body] = some ["é", "x", "é"] ∧
    ∃ inner, (Program.ofText "\\é.\\x.\\é.x" ["é", "x'"]).code.boundAlong [.body, .body, .body] =
        some inner ∧
      ((Program.ofText "\\é.\\x.\\é.x" ["é", "x'"]).globals ++ inner)[3]? = some "$x" ∧
      ((Program.ofText "\\é.\\x.\\é.x" ["é", "x'"]).globals ++ inner)[4]? = some "$$u00e9''" := by
  obtain ⟨happart, hquotes⟩ := spelling_tells_names_apart
  have hnames : (Expr.parse "\\é.\\x.\\é.x").expr.boundAlong [.body, .body, .body] =
      some ["é", "x", "é"] := by decide
  have hbasic : (["é", "x'"] ++ ["é", "x", "é"]).all (fun name => decide (Name.AllBasic name)) =
      true := by decide
  obtain ⟨inner, hinner, -, hplace⟩ := hquotes _ ["é", "x'"] _ _ hnames fun name hname =>
    of_decide_eq_true (List.all_eq_true.mp hbasic name hname)
  refine ⟨?_, hnames, inner, hinner, ?_, ?_⟩
  · intro name hbasic hspell
    exact happart name "x'" hbasic (by decide) (hspell.trans (by decide))
  · obtain ⟨generated, hgenerated, hquoted, -⟩ := hplace 3 "x" rfl
    rw [hgenerated, hquoted]
    decide
  · obtain ⟨generated, hgenerated, hquoted, -⟩ := hplace 4 "é" rfl
    rw [hgenerated, hquoted]
    decide

-- A code point above `U+FFFF` has five digits, of which the last can be taken for a character.
example : Name.spell "ὁ1" = Name.spell "🐑" := by decide

end LambdaCalculus
