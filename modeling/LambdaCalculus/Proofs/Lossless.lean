import LambdaCalculus.Proofs.Stream
import Mathlib.Algebra.Group.Nat.Defs

/-! # Scanning is lossless

A text is the sequence of its tokens, with whitespace before, between and after them.  The position
of a token is determined by the text before it.  Identifiers are maximal, so there is only one way
to split a text.
-/
namespace LambdaCalculus

namespace Position

/-- The line of the end of a text, as an unbounded number. -/
def lineAfter (text : List Char) : Nat := 1 + text.count '\n'

def columnAfter (text : List Char) : Nat := 1 + (text.reverse.takeWhile (· ≠ '\n')).length

def after (text : List Char) : Position where
  offset := (String.ofList text).utf8ByteSize
  line := .ofNat (lineAfter text)
  column := .ofNat (columnAfter text)

@[simp] theorem after_nil : after [] = start := rfl

theorem lineAfter_concat (text : List Char) (c : Char) :
    lineAfter (text ++ [c]) = if c = '\n' then lineAfter text + 1 else lineAfter text := by
  by_cases hc : c = '\n' <;> simp [lineAfter, hc, Nat.add_assoc]

theorem columnAfter_concat (text : List Char) (c : Char) :
    columnAfter (text ++ [c]) = if c = '\n' then 1 else columnAfter text + 1 := by
  by_cases hc : c = '\n' <;> simp [columnAfter, hc, Nat.add_assoc]

theorem after_concat (text : List Char) (c : Char) :
    after (text ++ [c]) = (after text).advance c := by
  have hbytes : (String.ofList (text ++ [c])).utf8ByteSize =
      (String.ofList text).utf8ByteSize + c.utf8Size := by
    rw [String.ofList_append, String.utf8ByteSize_append, ← String.singleton_eq_ofList,
      String.utf8ByteSize_singleton]
  rw [after, advance, hbytes, lineAfter_concat, columnAfter_concat]
  by_cases hc : c = '\n' <;> simp [after, hc, UInt32.ofNat_add]

theorem advanceAll_after (before text : List Char) :
    (after before).advanceAll text = after (before ++ text) := by
  induction text generalizing before with
  | nil => simp
  | cons c text ih => rw [advanceAll_cons, ← after_concat, ih, List.append_assoc]; rfl

theorem lineAfter_le (text : List Char) : lineAfter text ≤ 1 + text.length :=
  Nat.add_le_add_left List.count_le_length 1

theorem columnAfter_le (text : List Char) : columnAfter text ≤ 1 + text.length := by
  have hle := (List.takeWhile_sublist (fun c => decide (c ≠ '\n')) (l := text.reverse)).length_le
  rw [List.length_reverse] at hle
  exact Nat.add_le_add_left hle 1

theorem length_le_offset (text : List Char) : text.length ≤ (after text).offset := by
  induction text using List.reverseRecOn with
  | nil => exact Nat.zero_le _
  | append_singleton text c ih =>
    have hsize := c.utf8Size_pos
    rw [after_concat, offset_advance, List.length_append, List.length_singleton]
    omega

/-- The position is that of the end of `before`, with line and column as unbounded numbers. -/
structure Marks (p : Position) (before : List Char) : Prop where
  offset : p.offset = (String.ofList before).utf8ByteSize
  line : p.line.toNat = lineAfter before
  column : p.column.toNat = columnAfter before

theorem marks_after {before : List Char} (h : before.length < 2 ^ 32 - 1) :
    (after before).Marks before := by
  have hline := lineAfter_le before
  have hcolumn := columnAfter_le before
  have hline' : lineAfter before < 2 ^ 32 := by omega
  have hcolumn' : columnAfter before < 2 ^ 32 := by omega
  exact ⟨rfl, UInt32.toNat_ofNat_of_lt hline', UInt32.toNat_ofNat_of_lt hcolumn'⟩

/-- The order of positions in a text.  Lines and columns are in lexicographic order unless they are
reduced modulo `2 ^ 32`. -/
def Before (p q : Position) : Prop :=
  p.offset < q.offset ∧
    (q.offset < 2 ^ 32 - 1 → p.line < q.line ∨ p.line = q.line ∧ p.column < q.column)

/-- `text` ends in an earlier line than `text'`, or in an earlier column of the same line. -/
def EndsBefore (text text' : List Char) : Prop :=
  lineAfter text < lineAfter text' ∨
    lineAfter text = lineAfter text' ∧ columnAfter text < columnAfter text'

theorem endsBefore_concat (text : List Char) (c : Char) : EndsBefore text (text ++ [c]) := by
  rw [EndsBefore, lineAfter_concat, columnAfter_concat]
  by_cases hc : c = '\n' <;> simp [hc]

theorem endsBefore_append_cons (text : List Char) (c : Char) (rest : List Char) :
    EndsBefore text (text ++ c :: rest) := by
  induction rest generalizing text c with
  | nil => exact endsBefore_concat text c
  | cons d rest ih =>
    have hstep := endsBefore_concat text c
    have hrest := ih (text ++ [c]) d
    rw [List.append_assoc, List.singleton_append] at hrest
    unfold EndsBefore at *
    omega

theorem before_after_append_cons (text : List Char) (c : Char) (rest : List Char) :
    (after text).Before (after (text ++ c :: rest)) := by
  refine ⟨advanceAll_after text (c :: rest) ▸ offset_lt_advanceAll_cons _ c rest, ?_⟩
  intro hsize
  have hlength := length_le_offset (text ++ c :: rest)
  have hmarks' := marks_after (Nat.lt_of_le_of_lt hlength hsize)
  have hmarks : (after text).Marks text := by
    rw [List.length_append] at hlength
    exact marks_after (by omega)
  rw [UInt32.lt_iff_toNat_lt, UInt32.lt_iff_toNat_lt, ← UInt32.toNat_inj, hmarks.line,
    hmarks'.line, hmarks.column, hmarks'.column]
  exact endsBefore_append_cons text c rest

/-- Of two initial segments of a text, the one with the smaller offset ends before the other. -/
theorem before_of_offset_lt {source before before' : List Char} (h : before <+: source)
    (h' : before' <+: source) (hlt : (after before).offset < (after before').offset) :
    (after before).Before (after before') := by
  rcases List.prefix_or_prefix_of_prefix h h' with ⟨rest, rfl⟩ | ⟨rest, rfl⟩
  · cases rest with
    | nil => simp at hlt
    | cons c rest => exact before_after_append_cons before c rest
  · have hle := (after before').offset_le_advanceAll rest
    rw [advanceAll_after] at hle
    omega

end Position

namespace Token

/-! ## Characters -/

def Kind.symbols : Kind → List Char
  | .binder => ['\\', 'λ']
  | .bodyDelimiter => ['.']
  | .groupOpen => ['(']
  | .groupClose => [')']
  | .identifier | .endOfFile => []

def separators : List Char := [' ', '\t', '\n', '\r']

def IsLetter (c : Char) : Prop := c ∉ separators ∧ ∀ kind : Kind, c ∉ kind.symbols

theorem isWhitespace_iff {c : Char} : isWhitespace c = true ↔ c ∈ separators := by
  simp [isWhitespace, separators, or_assoc]

theorem takeWhile_isWhitespace_subset (text : List Char) :
    text.takeWhile isWhitespace ⊆ separators :=
  fun c hc => isWhitespace_iff.mp (List.all_eq_true.mp List.all_takeWhile c hc)

theorem reserved?_eq_some_iff {c : Char} {kind : Kind} :
    reserved? c = some kind ↔ c ∈ kind.symbols := by
  constructor
  · intro h
    unfold reserved? at h
    split_ifs at h <;> cases h <;> simp_all [Kind.symbols]
  · intro h
    cases kind <;> simp only [Kind.symbols, List.mem_cons, List.not_mem_nil, or_false] at h
    · rcases h with rfl | rfl <;> rfl
    · rw [h]; rfl
    · rw [h]; rfl
    · rw [h]; rfl

theorem isIdentifierChar_iff {c : Char} : isIdentifierChar c = true ↔ IsLetter c := by
  have hreserved : reserved? c = none ↔ ∀ kind : Kind, c ∉ kind.symbols := by
    simp only [Option.eq_none_iff_forall_ne_some, ne_eq, reserved?_eq_some_iff]
  have hwhitespace : isWhitespace c = false ↔ c ∉ separators := by
    rw [← isWhitespace_iff, Bool.not_eq_true]
  simp [isIdentifierChar, IsLetter, hreserved, hwhitespace]

theorem isIdentifier_iff {name : String} :
    isIdentifier name = true ↔ name ≠ "" ∧ ∀ c ∈ name.toList, IsLetter c := by
  simp only [isIdentifier, Bool.and_eq_true, Bool.not_eq_true', List.all_eq_true,
    isIdentifierChar_iff, ← Bool.not_eq_true, String.isEmpty_iff, ne_eq]

/-! ## Pieces -/

structure Piece where
  gap : List Char
  token : Token
  deriving DecidableEq, Repr

def Piece.text (p : Piece) : List Char := p.gap ++ p.token.raw.toList

def layout (pieces : List Piece) : List Char := pieces.flatMap Piece.text

@[simp] theorem layout_nil : layout [] = [] := rfl

@[simp] theorem layout_cons (p : Piece) (pieces : List Piece) :
    layout (p :: pieces) = p.gap ++ (p.token.raw.toList ++ layout pieces) :=
  List.append_assoc _ _ _

@[simp] theorem layout_append (pieces pieces' : List Piece) :
    layout (pieces ++ pieces') = layout pieces ++ layout pieces' :=
  List.flatMap_append

/-- The conditions on a token between two texts. -/
structure Fits (before : List Char) (t : Token) (rest : List Char) : Prop where
  position : t.position = .after before
  symbol : t.kind ≠ .identifier → ∃ c ∈ t.kind.symbols, t.raw = String.singleton c
  letters : t.kind = .identifier → t.raw ≠ "" ∧ ∀ c ∈ t.raw.toList, IsLetter c
  /-- An identifier cannot be extended to either side. -/
  maximal : t.kind = .identifier →
    (∀ c ∈ before.getLast?, ¬ IsLetter c) ∧ ∀ c ∈ rest.head?, ¬ IsLetter c

/-- A text after `before` is split into pieces, with `last` left over. -/
structure Cut (before text : List Char) (pieces : List Piece) (last : List Char) : Prop where
  whole : text = layout pieces ++ last
  gaps : ∀ p ∈ pieces, p.gap ⊆ separators
  trailing : last ⊆ separators
  fits : ∀ front p back, pieces = front ++ p :: back →
    Fits (before ++ layout front ++ p.gap) p.token (layout back ++ last)

/-- No identifier extends from the first text into the second. -/
def Parted (before rest : List Char) : Prop :=
  ∀ c ∈ before.getLast?, ∀ d ∈ rest.head?, IsLetter c → ¬ IsLetter d

variable {before rest text gap last : List Char} {t : Token} {pieces : List Piece}

theorem Fits.raw_ne_nil (h : Fits before t rest) : t.raw.toList ≠ [] := by
  by_cases hk : t.kind = .identifier
  · exact fun hnil => (h.letters hk).1 (String.toList_eq_nil_iff.mp hnil)
  · obtain ⟨c, -, hraw⟩ := h.symbol hk
    simp [hraw]

theorem Fits.parted (h : Fits before t rest) : Parted (before ++ t.raw.toList) rest := by
  intro c hc d hd hletter
  by_cases hk : t.kind = .identifier
  · exact (h.maximal hk).2 d hd
  · -- A token that is no identifier ends in its symbol, and that is no letter.
    obtain ⟨x, hx, hraw⟩ := h.symbol hk
    have hlast : c = x := by simpa [hraw, eq_comm] using hc
    exact absurd (hlast ▸ hx) (hletter.2 t.kind)

theorem parted_gap (hgap : gap ⊆ separators) (hparted : Parted before (gap ++ rest)) :
    Parted (before ++ gap) rest := by
  intro c hc d hd hletter
  rcases gap.eq_nil_or_concat with rfl | ⟨front, x, rfl⟩
  · exact hparted c (by simpa using hc) d (by simpa using hd) hletter
  · have hlast : c = x := by simpa [eq_comm] using hc
    exact absurd (hgap (by simp [hlast])) hletter.1

theorem Cut.nil (h : text ⊆ separators) : Cut before text [] text where
  whole := rfl
  gaps := by simp
  trailing := h
  fits := by simp

theorem Cut.cons (hgap : gap ⊆ separators) (hfits : Fits (before ++ gap) t rest)
    (hcut : Cut (before ++ gap ++ t.raw.toList) rest pieces last) :
    Cut before (gap ++ (t.raw.toList ++ rest)) (⟨gap, t⟩ :: pieces) last where
  whole := by simp [hcut.whole]
  gaps := List.forall_mem_cons.mpr ⟨hgap, hcut.gaps⟩
  trailing := hcut.trailing
  fits := by
    intro front p back hsplit
    cases front with
    | nil =>
      obtain ⟨rfl, rfl⟩ := List.cons.inj hsplit
      rw [hcut.whole] at hfits
      simpa using hfits
    | cons q front =>
      obtain ⟨rfl, hrest⟩ := List.cons.inj hsplit
      simpa using hcut.fits front p back hrest

theorem Cut.uncons {p : Piece} (h : Cut before text (p :: pieces) last) :
    p.gap ⊆ separators ∧ Fits (before ++ p.gap) p.token (layout pieces ++ last) ∧
      Cut (before ++ p.gap ++ p.token.raw.toList) (layout pieces ++ last) pieces last := by
  obtain ⟨hgap, hgaps⟩ := List.forall_mem_cons.mp h.gaps
  refine ⟨hgap, by simpa using h.fits [] p pieces rfl, rfl, hgaps, h.trailing, ?_⟩
  intro front q back hsplit
  simpa using h.fits (p :: front) q back (by simp [hsplit])

/-- Consecutive identifiers are separated by whitespace. -/
theorem Cut.gap_ne_nil (h : Cut before text pieces last) {front back : List Piece} {p q : Piece}
    (hsplit : pieces = front ++ p :: q :: back) (hp : p.token.kind = .identifier)
    (hq : q.token.kind = .identifier) : q.gap ≠ [] := by
  intro hgap
  have hfits := h.fits (front ++ [p]) q back (by simp [hsplit])
  obtain ⟨c, letters, hraw⟩ := List.exists_cons_of_ne_nil hfits.raw_ne_nil
  have hletter : IsLetter c := (hfits.letters hq).2 c (by simp [hraw])
  have hend := ((h.fits front p (q :: back) hsplit).maximal hp).2 c
  simp only [layout_cons, hgap, hraw] at hend
  exact hend (by simp) hletter

/-- The texts before tokens are initial segments of the text. -/
theorem Cut.exists_prefix (h : Cut [] text pieces last) {t : Token}
    (ht : t ∈ pieces.map Piece.token) :
    ∃ before, before <+: text ∧ t.position = .after before := by
  obtain ⟨p, hp, rfl⟩ := List.mem_map.mp ht
  obtain ⟨front, back, hsplit⟩ := List.append_of_mem hp
  refine ⟨layout front ++ p.gap, ?_, (h.fits front p back hsplit).position⟩
  rw [h.whole, hsplit]
  simp [List.append_assoc]

/-- A text without leading whitespace starts with a token. -/
theorem exists_fits {x : Char} (hx : isWhitespace x = false) (hparted : Parted before (x :: text)) :
    ∃ t rest, x :: text = t.raw.toList ++ rest ∧ Fits before t rest := by
  cases hreserved : reserved? x with
  | some kind =>
    have hsymbol := reserved?_eq_some_iff.mp hreserved
    have hkind : kind ≠ .identifier := by
      rintro rfl
      cases hsymbol
    refine ⟨⟨kind, .after before, String.singleton x⟩, text, by simp, rfl, ?_, ?_, ?_⟩
    · exact fun _ => ⟨x, hsymbol, rfl⟩
    · exact fun hk => absurd hk hkind
    · exact fun hk => absurd hk hkind
  | none =>
    have hletter : isIdentifierChar x = true := by simp [isIdentifierChar, hx, hreserved]
    refine ⟨⟨.identifier, .after before, String.ofList ((x :: text).takeWhile isIdentifierChar)⟩,
      (x :: text).dropWhile isIdentifierChar, ?_, rfl, by simp, fun _ => ⟨?_, ?_⟩,
      fun _ => ⟨?_, ?_⟩⟩
    · rw [String.toList_ofList, List.takeWhile_append_dropWhile]
    · simp [hletter, ← String.toList_eq_nil_iff]
    · intro c hc
      rw [String.toList_ofList] at hc
      exact isIdentifierChar_iff.mp (List.all_eq_true.mp List.all_takeWhile c hc)
    · intro c hc hc'
      exact hparted c hc x rfl hc' (isIdentifierChar_iff.mp hletter)
    · intro c hc hc'
      have hstop := List.head?_dropWhile_not isIdentifierChar (x :: text)
      rw [hc] at hstop
      simp [isIdentifierChar_iff.mpr hc'] at hstop

/-- Every text can be split, unless an identifier extends into it. -/
theorem exists_cut (hparted : Parted before text) : ∃ pieces last, Cut before text pieces last := by
  induction hlength : text.length using Nat.strongRecOn generalizing before text with
  | ind n ih =>
    have hgap := takeWhile_isWhitespace_subset text
    have htext := text.takeWhile_append_dropWhile (p := isWhitespace)
    rw [← htext] at hparted
    have hparted := parted_gap hgap hparted
    cases hrest : text.dropWhile isWhitespace with
    | nil =>
      rw [hrest, List.append_nil] at htext
      exact ⟨[], text, .nil (htext ▸ hgap)⟩
    | cons x rest =>
      have hx : isWhitespace x = false := by
        have hstop := List.head?_dropWhile_not isWhitespace text
        rw [hrest] at hstop
        simpa using hstop
      rw [hrest] at hparted htext
      obtain ⟨t, rest', hraw, hfits⟩ := exists_fits hx hparted
      have hshorter : rest'.length < n := by
        have hpos := List.length_pos_iff.mpr hfits.raw_ne_nil
        have htotal := congrArg List.length htext
        rw [hraw] at htotal
        simp only [List.length_append] at htotal
        omega
      obtain ⟨pieces, last, hcut⟩ := ih _ hshorter hfits.parted rfl
      have hcons := hcut.cons hgap hfits
      rw [← hraw, htext] at hcons
      exact ⟨_, last, hcons⟩

theorem exists_cut_source (source : String) :
    ∃ pieces last, Cut [] source.toList pieces last :=
  exists_cut (by simp [Parted])

/-! ## Scanning -/

theorem Scanner.rest_gap (hgap : gap ⊆ separators) (p : Position) (text : List Char) :
    (Scanner.mk p none).rest (gap ++ text) = (Scanner.mk (p.advanceAll gap) none).rest text := by
  induction gap generalizing p with
  | nil => rfl
  | cons c gap ih =>
    obtain ⟨hc, hgap⟩ := List.cons_subset.mp hgap
    rw [List.cons_append, rest_whitespace (isWhitespace_iff.mpr hc), ih hgap,
      Position.advanceAll_cons]

theorem Fits.rest_eq (h : Fits before t rest) :
    (Scanner.mk (.after before) none).rest (t.raw.toList ++ rest) =
      t :: (Scanner.mk (.after (before ++ t.raw.toList)) none).rest rest := by
  obtain ⟨kind, position, raw⟩ := t
  obtain rfl : position = .after before := h.position
  by_cases hk : kind = .identifier
  · subst hk
    obtain ⟨c, letters, hraw⟩ := List.exists_cons_of_ne_nil h.raw_ne_nil
    have hletters : ∀ c ∈ raw.toList, isIdentifierChar c = true :=
      fun c hc => isIdentifierChar_iff.mpr ((h.letters rfl).2 c hc)
    have hrest : rest.takeWhile isIdentifierChar = [] ∧ rest.dropWhile isIdentifierChar = rest := by
      cases rest with
      | nil => exact ⟨rfl, rfl⟩
      | cons d rest =>
        have hd : isIdentifierChar d = false := by
          rw [← Bool.not_eq_true, isIdentifierChar_iff]
          exact (h.maximal rfl).2 d rfl
        simp [hd]
    have htake : (raw.toList ++ rest).takeWhile isIdentifierChar = raw.toList := by
      rw [List.takeWhile_append_of_pos hletters, hrest.1, List.append_nil]
    have hdrop : (raw.toList ++ rest).dropWhile isIdentifierChar = rest := by
      rw [List.dropWhile_append_of_pos hletters, hrest.2]
    simp only [hraw, List.cons_append] at htake hdrop hletters ⊢
    rw [Scanner.rest_identifier (hletters c List.mem_cons_self), htake, hdrop,
      Position.advanceAll_after, ← hraw, String.ofList_toList]
  · obtain ⟨c, hc, hraw⟩ := h.symbol hk
    obtain rfl : raw = String.singleton c := hraw
    rw [String.toList_singleton, List.singleton_append,
      Scanner.rest_reserved (reserved?_eq_some_iff.mpr hc), Position.after_concat]

/-- Scanning returns the tokens of the pieces, for every split of the text. -/
theorem Cut.rest_eq (h : Cut before text pieces last) :
    (Scanner.mk (.after before) none).rest text = pieces.map Piece.token := by
  induction pieces generalizing before text with
  | nil =>
    rw [h.whole, layout_nil, List.nil_append, ← List.append_nil last, Scanner.rest_gap h.trailing]
    rfl
  | cons p pieces ih =>
    obtain ⟨hgap, hfits, hcut⟩ := h.uncons
    rw [h.whole, layout_cons, List.append_assoc, List.append_assoc, Scanner.rest_gap hgap,
      Position.advanceAll_after, hfits.rest_eq, ih hcut, List.map_cons]

theorem Cut.tokens_eq {source : String} (h : Cut [] source.toList pieces last) :
    pieces.map Piece.token = (scan source).tokens :=
  h.rest_eq.symm

theorem endOfFile_scan (source : String) :
    (scan source).endOfFile = .atEnd (.after source.toList) := by
  rw [← Cursor.scanned_start, ← List.nil_append source.toList, ← Position.advanceAll_after]
  rfl

/-- The tokens of a text are in reading order, the end of file last. -/
theorem scan_in_reading_order (source : String) :
    (scan source).all.Pairwise fun t u => t.position.Before u.position := by
  obtain ⟨pieces, last, hcut⟩ := exists_cut_source source
  have hplace : ∀ t ∈ (scan source).all,
      ∃ before, before <+: source.toList ∧ t.position = .after before := by
    intro t ht
    rcases List.mem_append.mp ht with ht | ht
    · exact hcut.exists_prefix (hcut.tokens_eq ▸ ht)
    · rw [List.mem_singleton.mp ht, endOfFile_scan]
      exact ⟨source.toList, List.prefix_refl _, rfl⟩
  refine (scan_orderly source).increasing.imp_of_mem ?_
  intro t u ht hu hlt
  obtain ⟨before, hbefore, hposition⟩ := hplace t ht
  obtain ⟨before', hbefore', hposition'⟩ := hplace u hu
  rw [hposition, hposition'] at hlt ⊢
  exact Position.before_of_offset_lt hbefore hbefore' hlt

/-- A text of fewer than `2 ^ 32 - 1` characters is the sequence of its tokens with whitespace
around them.  Every token satisfies the conditions of its place, at the exact position of the text
before it, and the end of file is where the text ends.  Consecutive identifiers are separated by
whitespace.  There is no other split of the text into tokens. -/
theorem scanning_loses_nothing (source : String) (hsize : source.length < 2 ^ 32 - 1) :
    (∃ pieces last, Cut [] source.toList pieces last ∧
      pieces.map Piece.token = (scan source).tokens ∧
      (∀ front p back, pieces = front ++ p :: back →
        p.token.position.Marks (layout front ++ p.gap)) ∧
      ∀ front p q back, pieces = front ++ p :: q :: back →
        p.token.kind = .identifier → q.token.kind = .identifier → q.gap ≠ []) ∧
    (∀ pieces last, Cut [] source.toList pieces last →
      pieces.map Piece.token = (scan source).tokens) ∧
    (scan source).endOfFile = ⟨.endOfFile, .after source.toList, "end of file"⟩ ∧
    (scan source).endOfFile.position.Marks source.toList := by
  rw [← String.length_toList] at hsize
  have hend := endOfFile_scan source
  refine ⟨?_, fun _ _ hcut => hcut.tokens_eq, hend, hend ▸ Position.marks_after hsize⟩
  obtain ⟨pieces, last, hcut⟩ := exists_cut_source source
  refine ⟨pieces, last, hcut, hcut.tokens_eq, ?_, ?_⟩
  · intro front p back hsplit
    have hlength : (layout front ++ p.gap).length ≤ source.toList.length := by
      rw [hcut.whole, hsplit]
      simp only [layout_append, layout_cons, List.length_append]
      omega
    rw [(hcut.fits front p back hsplit).position]
    exact Position.marks_after (Nat.lt_of_le_of_lt hlength hsize)
  · intro front p q back hsplit hp hq
    exact hcut.gap_ne_nil hsplit hp hq

theorem scanning_loses_nothing_lines :
    "λé.\n é ".length < 2 ^ 32 - 1 ∧
    (∃ pieces last, Cut [] "λé.\n é ".toList pieces last ∧
      pieces.map Piece.token = (scan "λé.\n é ").tokens ∧
      ∀ front p back, pieces = front ++ p :: back →
        p.token.position.Marks (layout front ++ p.gap)) ∧
    (scan "λé.\n é ").endOfFile.position.Marks "λé.\n é ".toList := by
  have hsize : "λé.\n é ".length < 2 ^ 32 - 1 := by decide
  obtain ⟨⟨pieces, last, hcut, htokens, hmarks, -⟩, -, -, hend⟩ :=
    scanning_loses_nothing "λé.\n é " hsize
  exact ⟨hsize, ⟨pieces, last, hcut, htokens, hmarks⟩, hend⟩

-- Offsets count bytes and columns characters; the newline that ends a line still stands on it.
example : (scan "λé.\n é ").all =
    [⟨.binder, ⟨0, 1, 1⟩, "λ"⟩, ⟨.identifier, ⟨2, 1, 2⟩, "é"⟩, ⟨.bodyDelimiter, ⟨4, 1, 3⟩, "."⟩,
      ⟨.identifier, ⟨7, 2, 2⟩, "é"⟩, ⟨.endOfFile, ⟨10, 2, 4⟩, "end of file"⟩] := by
  decide

def spaces (n : Nat) : String := String.ofList (List.replicate n ' ')

theorem column_endOfFile_spaces (n : Nat) :
    (scan (spaces n)).endOfFile.position.column = .ofNat (1 + n) ∧
      Position.columnAfter (spaces n).toList = 1 + n := by
  have hcolumn : Position.columnAfter (spaces n).toList = 1 + n := by
    simp [Position.columnAfter, spaces]
  refine ⟨?_, hcolumn⟩
  rw [endOfFile_scan, ← hcolumn]
  rfl

/-- With `2 ^ 32 - 1` characters in one line, the column of the end of file wraps to zero. -/
theorem column_of_long_line_wraps :
    (spaces (2 ^ 32 - 1)).length < 2 ^ 32 ∧
    (scan (spaces (2 ^ 32 - 1))).endOfFile.position.column = 0 ∧
    ¬ (scan (spaces (2 ^ 32 - 1))).endOfFile.position.Marks (spaces (2 ^ 32 - 1)).toList := by
  obtain ⟨hcolumn, hexact⟩ := column_endOfFile_spaces (2 ^ 32 - 1)
  have hzero : (scan (spaces (2 ^ 32 - 1))).endOfFile.position.column = 0 :=
    hcolumn.trans (by decide)
  refine ⟨?_, hzero, ?_⟩
  · rw [spaces, String.length_ofList, List.length_replicate]
    decide
  · intro hmarks
    have hmarked := hmarks.column
    rw [hzero, hexact] at hmarked
    cases hmarked

end Token

end LambdaCalculus
