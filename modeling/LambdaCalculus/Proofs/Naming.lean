import LambdaCalculus.Scope

/-! # Generated names

The generated name of a binding is its spelling followed by one quote for each enclosing binding
with the same spelling.  No spelling contains a quote, so the names in a scope are distinct.
-/
namespace LambdaCalculus

namespace Name

def isSpelling (c : Char) : Bool := isPlain c || c = '$'

theorem isSpelling_of_isPlain {c : Char} (h : isPlain c = true) : isSpelling c = true := by
  simp [isSpelling, h]

theorem isPlain_digitChar {d : Nat} (h : d < 16) : isPlain d.digitChar = true := by
  have hall : ∀ d < 16, isPlain (Nat.digitChar d) = true := by decide
  exact hall d h

theorem isPlain_of_mem_toDigits {n : Nat} {c : Char} (h : c ∈ Nat.toDigits 16 n) :
    isPlain c = true := by
  induction n using Nat.strongRecOn with
  | ind n ih =>
    rw [Nat.toDigits_eq_if (by decide)] at h
    split at h
    · rw [List.mem_singleton.mp h]
      exact isPlain_digitChar ‹n < 16›
    · rcases List.mem_append.mp h with h | h
      · exact ih (n / 16) (by omega) h
      · rw [List.mem_singleton.mp h]
        exact isPlain_digitChar (by omega)

theorem isPlain_of_mem_hex4 {n : Nat} {c : Char} (h : c ∈ hex4 n) : isPlain c = true := by
  rcases List.mem_append.mp h with h | h
  · rw [List.eq_of_mem_replicate h]
    decide
  · exact isPlain_of_mem_toDigits h

theorem isPlain_of_mem_word {p : Char × String} (hp : p ∈ words) {c : Char}
    (hc : c ∈ p.2.toList) : isPlain c = true := by
  have hall : words.all (fun p => p.2.toList.all isPlain) = true := by decide
  exact List.all_eq_true.mp (List.all_eq_true.mp hall p hp) c hc

theorem mem_words_of_lookup {c : Char} {word : String} (h : words.lookup c = some word) :
    (c, word) ∈ words := by
  obtain ⟨before, after, hsplit, -⟩ := List.lookup_eq_some_iff.mp h
  simp [hsplit]

theorem isSpelling_of_mem_spellChar {c d : Char} (h : d ∈ spellChar c) : isSpelling d = true := by
  unfold spellChar at h
  split at h
  · rw [List.mem_singleton.mp h]
    exact isSpelling_of_isPlain ‹_›
  · split at h
    · rename_i word hword
      rcases List.mem_cons.mp h with rfl | h
      · rfl
      · exact isSpelling_of_isPlain (isPlain_of_mem_word (mem_words_of_lookup hword) h)
    · rcases List.mem_cons.mp h with rfl | h
      · rfl
      rcases List.mem_cons.mp h with rfl | h
      · rfl
      · exact isSpelling_of_isPlain (isPlain_of_mem_hex4 h)

theorem isSpelling_of_mem_spellChars {name : List Char} {c : Char} (h : c ∈ spellChars name) :
    isSpelling c = true := by
  rcases List.mem_cons.mp h with rfl | h
  · rfl
  · obtain ⟨d, _, hd⟩ := List.mem_flatMap.mp h
    exact isSpelling_of_mem_spellChar hd

theorem quote_notMem_spellChars (name : List Char) : '\x27' ∉ spellChars name := by
  intro h
  have hquote := isSpelling_of_mem_spellChars h
  exact absurd hquote (by decide)

def quoted (name : String) (quotes : Nat) : String :=
  String.ofList (spellChars name.toList ++ List.replicate quotes '\x27')

@[simp] theorem quoted_zero (name : String) : quoted name 0 = spell name := by
  simp [quoted, spell]

theorem push_quoted (name : String) (n : Nat) :
    (quoted name n).push '\x27' = quoted name (n + 1) := by
  apply String.toList_injective
  simp [quoted, List.replicate_succ']

theorem spell_eq_iff {a b : String} :
    spell a = spell b ↔ spellChars a.toList = spellChars b.toList :=
  String.ofList_inj

theorem quoted_inj {a b : String} {i j : Nat} :
    quoted a i = quoted b j ↔ spell a = spell b ∧ i = j := by
  constructor
  · intro h
    have hchars : spellChars a.toList ++ List.replicate i '\x27' =
        spellChars b.toList ++ List.replicate j '\x27' := by
      simpa [quoted] using congrArg String.toList h
    have hspell : spellChars a.toList = spellChars b.toList := by
      have htake := congrArg (List.takeWhile (· ≠ '\x27')) hchars
      have hquiet (name : List Char) (n : Nat) :
          (spellChars name ++ List.replicate n '\x27').takeWhile (· ≠ '\x27') =
            spellChars name := by
        rw [List.takeWhile_append_of_pos]
        · simp
        · intro c hc
          have hne : c ≠ '\x27' := fun he => quote_notMem_spellChars name (he ▸ hc)
          simpa using hne
      rwa [hquiet, hquiet] at htake
    rw [hspell] at hchars
    have hlength := congrArg List.length (List.append_cancel_left hchars)
    simp only [List.length_replicate] at hlength
    exact ⟨spell_eq_iff.mpr hspell, hlength⟩
  · rintro ⟨hspell, rfl⟩
    rw [quoted, quoted, spell_eq_iff.mp hspell]

/-- The number of names with the same spelling as `name`. -/
def alike (names : List String) (name : String) : Nat :=
  names.countP (fun other => spell other = spell name)

theorem alike_congr {a b : String} (h : spell a = spell b) (names : List String) :
    alike names a = alike names b := by
  simp [alike, h]

end Name

namespace Scope

open Name

def around (names : List String) : Scope := names.foldr (fun name s => s.bind name) []

@[simp] theorem around_nil : around [] = [] := rfl

theorem around_cons (name : String) (names : List String) :
    around (name :: names) = ⟨name, (around names).fresh name⟩ :: around names := rfl

theorem ofNames_eq_around (names : List String) : ofNames names = around names.reverse := by
  rw [ofNames, around, List.foldr_reverse]

@[simp] theorem sources_around (names : List String) :
    (around names).map (·.source) = names := by
  induction names with
  | nil => rfl
  | cons name names ih => rw [around_cons, List.map_cons, ih]

@[simp] theorem length_around (names : List String) : (around names).length = names.length := by
  rw [← List.length_map, sources_around]

theorem fresh_cons (b : Binding) (s : Scope) (name : String) :
    fresh (b :: s) name =
      if b.generated = s.fresh name then (s.fresh name).push '\x27' else s.fresh name := rfl

/-- A generated name has one quote for each enclosing name with the same spelling. -/
theorem fresh_around (names : List String) (name : String) :
    (around names).fresh name = quoted name (alike names name) := by
  induction names generalizing name with
  | nil => exact (quoted_zero name).symm
  | cons other names ih =>
    rw [around_cons, fresh_cons, ih, ih, push_quoted]
    by_cases h : spell other = spell name
    · have hsame : quoted other (alike names other) = quoted name (alike names name) :=
        quoted_inj.mpr ⟨h, alike_congr h names⟩
      have hcount : alike (other :: names) name = alike names name + 1 :=
        List.countP_cons_of_pos (by simpa using h)
      rw [if_pos hsame, hcount]
    · have hother : quoted other (alike names other) ≠ quoted name (alike names name) :=
        fun he => h (quoted_inj.mp he).1
      have hcount : alike (other :: names) name = alike names name :=
        List.countP_cons_of_neg (by simpa using h)
      rw [if_neg hother, hcount]

def generatedNames (names : List String) : List String := (around names).map (·.generated)

@[simp] theorem generatedNames_nil : generatedNames [] = [] := rfl

theorem generatedNames_cons (name : String) (names : List String) :
    generatedNames (name :: names) = (around names).fresh name :: generatedNames names := rfl

/-- In a scope, a name has fewer quotes than a further name with the same spelling would have. -/
theorem exists_quoted_of_mem {names : List String} {g : String} (h : g ∈ generatedNames names) :
    ∃ name i, g = quoted name i ∧ i < alike names name := by
  induction names with
  | nil => simp at h
  | cons other names ih =>
    rw [generatedNames_cons, fresh_around] at h
    rcases List.mem_cons.mp h with rfl | h
    · refine ⟨other, alike names other, rfl, ?_⟩
      rw [alike, alike, List.countP_cons_of_pos (by simp)]
      exact Nat.lt_succ_self _
    · obtain ⟨name, i, rfl, hi⟩ := ih h
      refine ⟨name, i, rfl, Nat.lt_of_lt_of_le hi ?_⟩
      exact List.Sublist.countP_le (List.sublist_cons_self other names)

/-- A generated name differs from those of all enclosing bindings. -/
theorem fresh_notMem (names : List String) (name : String) :
    (around names).fresh name ∉ generatedNames names := by
  intro h
  obtain ⟨other, i, heq, hi⟩ := exists_quoted_of_mem h
  rw [fresh_around, quoted_inj] at heq
  obtain ⟨hspell, rfl⟩ := heq
  rw [alike_congr hspell] at hi
  exact Nat.lt_irrefl _ hi

theorem mem_of_resolve {names : List String} {name g : String}
    (h : (around names).resolve name = some g) : g ∈ generatedNames names := by
  obtain ⟨b, hb, rfl⟩ := Option.map_eq_some_iff.mp h
  exact List.mem_map_of_mem (List.mem_of_find?_eq_some hb)

/-- Resolving a name in the scope, and then its generated name among the generated names, gives the
index of the name itself. -/
theorem idxOf?_resolve (names : List String) (name : String) :
    ((around names).resolve name).bind (generatedNames names).idxOf? = names.idxOf? name := by
  induction names with
  | nil => rfl
  | cons other names ih =>
    rw [around_cons, generatedNames_cons, resolve, List.idxOf?_cons]
    by_cases h : other = name
    · subst h
      simp [List.idxOf?_cons]
    · rw [List.find?_cons_of_neg (by simpa using h), ← resolve]
      simp only [beq_iff_eq, h, if_false]
      rw [← ih]
      cases hg : (around names).resolve name with
      | none => rfl
      | some g =>
        -- The name found is one of those further out, so it is not the one just bound.
        have hne : (around names).fresh other ≠ g :=
          fun he => fresh_notMem names other (he ▸ mem_of_resolve hg)
        simp [List.idxOf?_cons, hne]

end Scope

end LambdaCalculus
