import LambdaCalculus.Proofs.Lossless
import LambdaCalculus.Prompt

/-! # Definitions at the prompt

An entry is a definition if an identifier, with optional whitespace, is the text before its first
equals sign between two spaces.  Appending text to a definition does not change the name defined.
-/
namespace LambdaCalculus

namespace Entry

open Token (separators)

/-! ## The first equals sign -/

section

variable {text left right : List Char}

def equals : List Char := [' ', '=', ' ']

/-- The parts of a text before and after its first equals sign between two spaces.  An earlier one
would end before the last space of this one. -/
structure Halves (text left right : List Char) : Prop where
  text_eq : text = left ++ equals ++ right
  first : ¬ equals <:+: left ++ equals.dropLast

theorem Halves.append (h : Halves text left right) (more : List Char) :
    Halves (text ++ more) left (right ++ more) :=
  ⟨by rw [h.text_eq, List.append_assoc], h.first⟩

theorem begins_append_equals (left right : List Char) :
    left ++ equals.dropLast <+: left ++ equals ++ right :=
  ⟨' ' :: right, by simp [equals]⟩

theorem halves_equals_append {rest : List Char} :
    Halves (equals ++ rest) left right ↔ left = [] ∧ right = rest := by
  constructor
  · rintro ⟨htext, hfirst⟩
    cases left with
    | nil => exact ⟨rfl, (List.append_cancel_left htext).symm⟩
    | cons c left =>
      have hleft := begins_append_equals (c :: left) right
      rw [← htext] at hleft
      have hbegins : equals <+: c :: left ++ equals.dropLast :=
        List.prefix_of_prefix_length_le (List.prefix_append _ rest) hleft (by simp [equals])
      exact absurd hbegins.isInfix hfirst
  · rintro ⟨rfl, rfl⟩
    refine ⟨rfl, fun hinfix => ?_⟩
    have hlength := hinfix.length_le
    simp [equals] at hlength

theorem halves_cons {c : Char} {rest : List Char} (hc : ¬ equals <+: c :: rest) :
    Halves (c :: rest) left right ↔ ∃ left', left = c :: left' ∧ Halves rest left' right := by
  constructor
  · rintro ⟨htext, hfirst⟩
    cases left with
    | nil => exact absurd ⟨right, htext.symm⟩ hc
    | cons d left =>
      obtain ⟨rfl, hrest⟩ := List.cons.inj htext
      exact ⟨left, rfl, hrest, fun hinfix => hfirst (List.infix_cons hinfix)⟩
  · rintro ⟨left', rfl, hrest, hfirst⟩
    refine ⟨by rw [hrest]; rfl, fun hinfix => ?_⟩
    rcases List.infix_cons_iff.mp hinfix with hbegins | hlater
    · rw [hrest] at hc
      exact hc (hbegins.trans (begins_append_equals (c :: left') right))
    · exact hfirst hlater

theorem cut_onto_eq_some_iff {before : List Char} :
    cut before text = some (left, right) ↔
      ∃ left', left = before.reverse ++ left' ∧ Halves text left' right := by
  fun_induction cut before text with
  | case1 before rest =>
    have hhalves (left' : List Char) : Halves (' ' :: '=' :: ' ' :: rest) left' right ↔
        left' = [] ∧ right = rest := halves_equals_append
    simp [hhalves, eq_comm]
  | case2 before c rest hne ih =>
    have hc : ¬ equals <+: c :: rest := by
      rintro ⟨rest', hrest⟩
      obtain ⟨rfl, rfl⟩ := List.cons.inj hrest
      exact hne rest' rfl rfl
    rw [ih]
    simp [halves_cons hc]
  | case3 before =>
    have hhalves (left' : List Char) : ¬ Halves [] left' right := fun h => by
      simpa [equals] using h.text_eq
    simp [hhalves]

theorem cut_eq_some_iff : cut [] text = some (left, right) ↔ Halves text left right := by
  simp [cut_onto_eq_some_iff]

end

/-! ## Whitespace around a name -/

theorem dropWhile_isWhitespace {gap rest : List Char} (hgap : gap ⊆ separators)
    (hrest : ∀ c ∈ rest.head?, c ∉ separators) : (gap ++ rest).dropWhile isWhitespace = rest := by
  rw [List.dropWhile_append_of_pos fun c hc => Token.isWhitespace_iff.mpr (hgap hc)]
  cases rest with
  | nil => rfl
  | cons c rest =>
    have hc : ¬ isWhitespace c = true := fun hc => hrest c rfl (Token.isWhitespace_iff.mp hc)
    exact List.dropWhile_cons_of_neg hc

theorem exists_trim (text : List Char) :
    ∃ front back, front ⊆ separators ∧ back ⊆ separators ∧ text = front ++ trim text ++ back := by
  let rest := text.dropWhile isWhitespace
  have hrest : rest = trim text ++ (rest.reverse.takeWhile isWhitespace).reverse := by
    rw [trim, ← List.reverse_append, List.takeWhile_append_dropWhile, List.reverse_reverse]
  refine ⟨text.takeWhile isWhitespace, _, Token.takeWhile_isWhitespace_subset text,
    List.reverse_subset.mpr (Token.takeWhile_isWhitespace_subset rest.reverse), ?_⟩
  rw [List.append_assoc, ← hrest, List.takeWhile_append_dropWhile]

theorem trim_eq {front name back : List Char} (hfront : front ⊆ separators)
    (hback : back ⊆ separators) (hne : name ≠ []) (hname : ∀ c ∈ name, c ∉ separators) :
    trim (front ++ name ++ back) = name := by
  have hstart : ∀ c ∈ (name ++ back).head?, c ∉ separators := by
    obtain ⟨c, rest, rfl⟩ := List.exists_cons_of_ne_nil hne
    simpa using hname c List.mem_cons_self
  have hend : ∀ c ∈ name.reverse.head?, c ∉ separators :=
    fun c hc => hname c (List.mem_reverse.mp (List.mem_of_mem_head? hc))
  rw [trim, List.append_assoc, dropWhile_isWhitespace hfront hstart, List.reverse_append,
    dropWhile_isWhitespace (List.reverse_subset.mpr hback) hend, List.reverse_reverse]

/-! ## The name defined by an entry -/

/-- The text defines a name: the name, with optional whitespace around it, precedes the first equals
sign, and the source follows it. -/
structure Defines (text name source : String) : Prop where
  identifier : isIdentifier name = true
  halves : ∃ front back, front ⊆ separators ∧ back ⊆ separators ∧
    Halves text.toList (front ++ name.toList ++ back) source.toList

variable {text name source : String}

theorem ofText_of_defines (h : Defines text name source) : ofText text = ⟨some name, source⟩ := by
  obtain ⟨hidentifier, front, back, hfront, hback, hhalves⟩ := h
  obtain ⟨hne, hletters⟩ := Token.isIdentifier_iff.mp hidentifier
  have hcut := cut_eq_some_iff.mpr hhalves
  have htrim : trim (front ++ name.toList ++ back) = name.toList :=
    trim_eq hfront hback (by simpa using hne) fun c hc => (hletters c hc).1
  simp only [ofText, hcut, htrim, String.ofList_toList, hidentifier, if_true]

/-- A text that does not define a name is a source as a whole. -/
theorem ofText_cases (text : String) :
    (∃ name source, Defines text name source) ∨ ofText text = ⟨none, text⟩ := by
  cases hcut : cut [] text.toList with
  | none => exact .inr (by simp only [ofText, hcut])
  | some halves =>
    obtain ⟨left, right⟩ := halves
    cases hname : isIdentifier (String.ofList (trim left)) with
    | false => exact .inr (by simp [ofText, hcut, hname])
    | true =>
      obtain ⟨front, back, hfront, hback, hleft⟩ := exists_trim left
      have hhalves := cut_eq_some_iff.mp hcut
      rw [hleft] at hhalves
      exact .inl ⟨_, String.ofList right, hname, front, back, hfront, hback, by simpa using hhalves⟩

theorem ofText_eq_some_iff : ofText text = ⟨some name, source⟩ ↔ Defines text name source := by
  refine ⟨fun h => ?_, ofText_of_defines⟩
  rcases ofText_cases text with ⟨name', source', hdefines⟩ | hnone
  · rw [ofText_of_defines hdefines] at h
    cases h
    exact hdefines
  · rw [hnone] at h
    cases h

theorem Defines.append (h : Defines text name source) (more : String) :
    Defines (text ++ more) name (source ++ more) := by
  obtain ⟨hidentifier, front, back, hfront, hback, hhalves⟩ := h
  refine ⟨hidentifier, front, back, hfront, hback, ?_⟩
  rw [String.toList_append, String.toList_append]
  exact hhalves.append more.toList

/-- A continued definition was one before, if it already had a parenthesis, which cannot be part of
the name. -/
theorem Defines.of_append {more : String} (h : Defines (text ++ more) name source)
    (hparen : '(' ∈ text.toList) : ∃ source', Defines text name source' := by
  obtain ⟨hidentifier, front, back, hfront, hback, hhalves⟩ := h
  obtain ⟨-, hletters⟩ := Token.isIdentifier_iff.mp hidentifier
  have htext : text.toList <+: (text ++ more).toList := by simp
  have hleft : front ++ name.toList ++ back ++ equals <+: (text ++ more).toList :=
    ⟨source.toList, hhalves.text_eq.symm⟩
  -- The name and the whitespace around it have no parenthesis, so the text extends past the sign.
  rcases List.prefix_or_prefix_of_prefix htext hleft with hbefore | hafter
  · have hmem := hbefore.subset hparen
    simp only [List.mem_append] at hmem
    rcases hmem with ((hmem | hmem) | hmem) | hmem
    · exact absurd (hfront hmem) (by decide)
    · exact absurd List.mem_cons_self ((hletters '(' hmem).2 .groupOpen)
    · exact absurd (hback hmem) (by decide)
    · exact absurd hmem (by decide)
  · obtain ⟨rest, hrest⟩ := hafter
    refine ⟨String.ofList rest, hidentifier, front, back, hfront, hback, ?_, hhalves.first⟩
    rw [String.toList_ofList, hrest]

end Entry

end LambdaCalculus
