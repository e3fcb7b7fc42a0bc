import LambdaCalculus.Proofs.Layout

/-! # Token streams

Tokens can be split off the front of a text one at a time.  A stream does so with one token of
lookahead, and records the tokens produced.  Advanced to the end of the text, it has produced the
tokens of scanning the whole text, each once and in order.
-/
namespace LambdaCalculus

namespace Position

@[simp] theorem offset_advance (p : Position) (c : Char) :
    (p.advance c).offset = p.offset + c.utf8Size := by
  unfold advance
  split <;> rfl

theorem offset_le_advanceAll (p : Position) (text : List Char) :
    p.offset ≤ (p.advanceAll text).offset := by
  induction text generalizing p with
  | nil => exact Nat.le_refl _
  | cons c text ih =>
    have hrest := ih (p.advance c)
    rw [offset_advance] at hrest
    rw [advanceAll_cons]
    omega

theorem offset_lt_advanceAll_cons (p : Position) (c : Char) (text : List Char) :
    p.offset < (p.advanceAll (c :: text)).offset := by
  have hrest := (p.advance c).offset_le_advanceAll text
  have hsize := c.utf8Size_pos
  rw [offset_advance] at hrest
  rw [advanceAll_cons]
  omega

end Position

namespace Token

structure Cursor where
  position : Position
  text : List Char
  deriving DecidableEq, Repr

namespace Cursor

def start (source : String) : Cursor := ⟨.start, source.toList⟩

def skip (c : Cursor) (isOf : Char → Bool) : Cursor :=
  ⟨c.position.advanceAll (c.text.takeWhile isOf), c.text.dropWhile isOf⟩

/-- Splits off the token at the cursor, which is not at whitespace. -/
def cut (c : Cursor) : Token × Cursor :=
  match c.text with
  | [] => (.atEnd c.position, c)
  | x :: rest =>
    match reserved? x with
    | some kind => (⟨kind, c.position, String.singleton x⟩, ⟨c.position.advance x, rest⟩)
    | none =>
      (⟨.identifier, c.position, String.ofList (c.text.takeWhile isIdentifierChar)⟩,
        c.skip isIdentifierChar)

def next (c : Cursor) : Token × Cursor := (c.skip isWhitespace).cut

def scanned (c : Cursor) : Scanned :=
  ⟨(Scanner.mk c.position none).rest c.text, .atEnd (c.position.advanceAll c.text)⟩

end Cursor

theorem kind_ne_endOfFile_of_reserved {c : Char} {kind : Kind} (h : reserved? c = some kind) :
    kind ≠ .endOfFile := by
  rintro rfl
  unfold reserved? at h
  split_ifs at h <;> cases h

namespace Scanner

theorem position_reach (s : Scanner) (text : List Char) :
    (transducer.reach s text).position = s.position.advanceAll text := by
  induction text generalizing s with
  | nil => rfl
  | cons c text ih => exact ih (s.next c)

theorem rest_whitespace {c : Char} (hc : isWhitespace c = true) (p : Position) (text : List Char) :
    (Scanner.mk p none).rest (c :: text) = (Scanner.mk (p.advance c) none).rest text := by
  have hid : isIdentifierChar c = false := by simp [isIdentifierChar, hc]
  have hreserved : reserved? c = none := by
    rcases (by simpa [isWhitespace] using hc) with ((rfl | rfl) | rfl) | rfl <;> decide
  simp [rest_cons, emit, next, pending, symbol, hid, hreserved]

theorem rest_reserved {c : Char} {kind : Kind} (hc : reserved? c = some kind) (p : Position)
    (text : List Char) :
    (Scanner.mk p none).rest (c :: text) =
      ⟨kind, p, String.singleton c⟩ :: (Scanner.mk (p.advance c) none).rest text := by
  have hid : isIdentifierChar c = false := by simp [isIdentifierChar, hc]
  simp [rest_cons, emit, next, pending, symbol, hid, hc]

/-- An identifier in progress ends with its last character. -/
theorem rest_word (p : Position) (w : Word) (text : List Char) :
    (Scanner.mk p (some w)).rest text =
      ⟨.identifier, w.start,
        String.ofList (w.letters.reverse ++ text.takeWhile isIdentifierChar)⟩ ::
        (Scanner.mk (p.advanceAll (text.takeWhile isIdentifierChar)) none).rest
          (text.dropWhile isIdentifierChar) := by
  induction text generalizing p w with
  | nil => simp [rest, pending, Word.token]
  | cons c text ih =>
    cases hc : isIdentifierChar c with
    | true =>
      have hnext : (Scanner.mk p (some w)).next c =
          ⟨p.advance c, some ⟨w.start, c :: w.letters⟩⟩ := by
        simp [next, extend, hc]
      rw [rest_cons, hnext, ih]
      simp [emit, hc]
    | false => simp [rest_cons, emit, next, pending, symbol, Word.token, hc]

theorem rest_identifier {c : Char} (hc : isIdentifierChar c = true) (p : Position)
    (text : List Char) :
    (Scanner.mk p none).rest (c :: text) =
      ⟨.identifier, p, String.ofList ((c :: text).takeWhile isIdentifierChar)⟩ ::
        (Scanner.mk (p.advanceAll ((c :: text).takeWhile isIdentifierChar)) none).rest
          ((c :: text).dropWhile isIdentifierChar) := by
  have hnext : (Scanner.mk p none).next c = ⟨p.advance c, some ⟨p, [c]⟩⟩ := by
    simp [next, extend, hc]
  rw [rest_cons, hnext, rest_word]
  simp [emit, hc]

end Scanner

namespace Cursor

theorem scanned_start (source : String) : (start source).scanned = scan source := by
  rw [scan, scanChars, Scanner.position_reach]
  rfl

theorem scanned_skip (c : Cursor) : (c.skip isWhitespace).scanned = c.scanned := by
  obtain ⟨p, text⟩ := c
  induction text generalizing p with
  | nil => rfl
  | cons x text ih =>
    cases hx : isWhitespace x with
    | true =>
      have hskip : (Cursor.mk p (x :: text)).skip isWhitespace =
          (Cursor.mk (p.advance x) text).skip isWhitespace := by
        simp [skip, hx]
      rw [hskip, ih, scanned, scanned, Scanner.rest_whitespace hx, Position.advanceAll_cons]
    | false => simp [skip, hx]

theorem head_skip (c : Cursor) : (c.skip isWhitespace).text.head?.all (!isWhitespace ·) = true := by
  obtain ⟨p, text⟩ := c
  induction text generalizing p with
  | nil => rfl
  | cons x text ih =>
    cases hx : isWhitespace x with
    | true => simpa [skip, hx] using ih p
    | false => simp [skip, hx]

/-- Except at whitespace, the token split off is the end of file or the first of those scanned. -/
theorem cut_cases (c : Cursor) (hc : c.text.head?.all (!isWhitespace ·) = true) :
    c.scanned = ⟨[], c.cut.1⟩ ∧ c.cut.1.kind = .endOfFile ∧ c.cut.1.position = c.position ∨
    c.scanned = ⟨c.cut.1 :: c.cut.2.scanned.tokens, c.cut.2.scanned.endOfFile⟩ ∧
      c.cut.1.kind ≠ .endOfFile ∧ c.cut.1.position = c.position ∧
      c.position.offset < c.cut.2.position.offset ∧ c.cut.2.text.length < c.text.length := by
  obtain ⟨p, text⟩ := c
  cases text with
  | nil => exact .inl ⟨rfl, rfl, rfl⟩
  | cons x text =>
    right
    cases hx : reserved? x with
    | some kind =>
      have hcut : (Cursor.mk p (x :: text)).cut =
          (⟨kind, p, String.singleton x⟩, ⟨p.advance x, text⟩) := by simp [cut, hx]
      rw [hcut, scanned, scanned, Scanner.rest_reserved hx]
      refine ⟨rfl, kind_ne_endOfFile_of_reserved hx, rfl, ?_, by simp⟩
      simpa using p.offset_lt_advanceAll_cons x []
    | none =>
      have hid : isIdentifierChar x = true := by
        simp only [List.head?_cons, Option.all_some, Bool.not_eq_true'] at hc
        simp [isIdentifierChar, hc, hx]
      have hcut : (Cursor.mk p (x :: text)).cut =
          (⟨.identifier, p, String.ofList ((x :: text).takeWhile isIdentifierChar)⟩,
            (Cursor.mk p (x :: text)).skip isIdentifierChar) := by simp [cut, hx]
      rw [hcut, scanned, scanned, Scanner.rest_identifier hid]
      refine ⟨?_, by simp, rfl, ?_, ?_⟩
      · simp only [skip]
        rw [← Position.advanceAll_append, List.takeWhile_append_dropWhile]
      · simpa [skip, hid] using p.offset_lt_advanceAll_cons x (text.takeWhile isIdentifierChar)
      · have hle := (text.dropWhile_suffix isIdentifierChar).length_le
        simpa [skip, hid] using Nat.lt_succ_of_le hle

/-- The next token is the end of file or the first of those scanned. -/
theorem next_cases (c : Cursor) :
    c.scanned = ⟨[], c.next.1⟩ ∧ c.next.1.kind = .endOfFile ∧
      c.position.offset ≤ c.next.1.position.offset ∨
    c.scanned = ⟨c.next.1 :: c.next.2.scanned.tokens, c.next.2.scanned.endOfFile⟩ ∧
      c.next.1.kind ≠ .endOfFile ∧ c.position.offset ≤ c.next.1.position.offset ∧
      c.next.1.position.offset < c.next.2.position.offset ∧
      c.next.2.text.length < c.text.length := by
  have hle : c.position.offset ≤ (c.skip isWhitespace).position.offset :=
    c.position.offset_le_advanceAll _
  have hlength : (c.skip isWhitespace).text.length ≤ c.text.length :=
    (c.text.dropWhile_suffix isWhitespace).length_le
  rw [← c.scanned_skip, next]
  rcases (c.skip isWhitespace).cut_cases c.head_skip with
    ⟨hscanned, hkind, hposition⟩ | ⟨hscanned, hkind, hposition, hoffset, htext⟩
  · exact .inl ⟨hscanned, hkind, hposition ▸ hle⟩
  · rw [← hposition] at hoffset hle
    exact .inr ⟨hscanned, hkind, hle, hoffset, by omega⟩

end Cursor

/-- Only the last token is the end of file, and offsets increase strictly. -/
structure Scanned.Orderly (s : Scanned) : Prop where
  tokens : ∀ t ∈ s.tokens, t.kind ≠ .endOfFile
  endOfFile : s.endOfFile.kind = .endOfFile
  increasing : s.all.Pairwise fun t u => t.position.offset < u.position.offset

theorem Scanned.Orderly.nodup {s : Scanned} (h : s.Orderly) : s.all.Nodup := by
  refine h.increasing.imp ?_
  rintro t u hlt rfl
  exact Nat.lt_irrefl _ hlt

theorem Cursor.orderly (c : Cursor) :
    c.scanned.Orderly ∧ ∀ t ∈ c.scanned.all, c.position.offset ≤ t.position.offset := by
  induction hlength : c.text.length using Nat.strongRecOn generalizing c with
  | ind n ih =>
    rcases c.next_cases with ⟨hscanned, hkind, hle⟩ | ⟨hscanned, hkind, hle, hlt, htext⟩
    · rw [hscanned]
      exact ⟨⟨by simp, hkind, by simp [Scanned.all]⟩, by simpa [Scanned.all] using hle⟩
    · obtain ⟨⟨htokens, hend, hincreasing⟩, hfrom⟩ := ih _ (hlength ▸ htext) c.next.2 rfl
      have hall : c.scanned.all = c.next.1 :: c.next.2.scanned.all := by rw [hscanned]; rfl
      refine ⟨⟨?_, ?_, ?_⟩, ?_⟩
      · rw [hscanned]
        exact List.forall_mem_cons.mpr ⟨hkind, htokens⟩
      · rw [hscanned]
        exact hend
      · rw [hall]
        refine List.pairwise_cons.mpr ⟨?_, hincreasing⟩
        exact fun t ht => Nat.lt_of_lt_of_le hlt (hfrom t ht)
      · rw [hall]
        refine List.forall_mem_cons.mpr ⟨hle, ?_⟩
        intro t ht
        have ht := hfrom t ht
        omega

theorem scan_orderly (source : String) : (scan source).Orderly := by
  rw [← Cursor.scanned_start]
  exact (Cursor.start source).orderly.1

/-! ## Streams -/

/-- A text being read, with one token of lookahead. -/
structure Stream where
  current : Token
  cursor : Cursor
  /-- The tokens split off so far, the current one last. -/
  produced : List Token
  deriving DecidableEq, Repr

namespace Stream

def start (source : String) : Stream :=
  let (t, c) := (Cursor.start source).next
  ⟨t, c, [t]⟩

/-- Advances to the next token, unless the current one is the end of file. -/
def advance (s : Stream) : Stream :=
  if s.current.isEndOfFile then s
  else
    let (t, c) := s.cursor.next
    ⟨t, c, s.produced ++ [t]⟩

def ahead (s : Stream) : Scanned :=
  if s.current.isEndOfFile then ⟨[], s.current⟩
  else ⟨s.current :: s.cursor.scanned.tokens, s.cursor.scanned.endOfFile⟩

def whole (s : Stream) : List Token := s.produced ++ s.ahead.all.tail

variable {s : Stream} {t eof : Token} {ts : List Token}

theorem all_ahead (s : Stream) : s.ahead.all = s.current :: s.ahead.all.tail := by
  unfold ahead
  split <;> rfl

theorem ahead_next (c : Cursor) (produced : List Token) :
    (Stream.mk c.next.1 c.next.2 produced).ahead = c.scanned := by
  unfold ahead
  rcases c.next_cases with ⟨hscanned, hkind, -⟩ | ⟨hscanned, hkind, -⟩
  · rw [if_pos (by simpa [isEndOfFile] using hkind), hscanned]
  · rw [if_neg (by simpa [isEndOfFile] using hkind), hscanned]

theorem ahead_start (source : String) : (start source).ahead = scan source :=
  (ahead_next _ _).trans (Cursor.scanned_start source)

theorem whole_start (source : String) : (start source).whole = (scan source).all := by
  rw [← ahead_start, all_ahead]
  rfl

theorem current_of_ahead_nil (h : s.ahead = ⟨[], eof⟩) : s.current = eof := by
  have hall := s.all_ahead
  rw [h] at hall
  exact (List.cons.inj hall).1.symm

theorem current_of_ahead_cons (h : s.ahead = ⟨t :: ts, eof⟩) : s.current = t := by
  have hall := s.all_ahead
  rw [h] at hall
  exact (List.cons.inj hall).1.symm

theorem advance_of_ahead_cons (h : s.ahead = ⟨t :: ts, eof⟩) :
    s.advance = ⟨s.cursor.next.1, s.cursor.next.2, s.produced ++ [s.cursor.next.1]⟩ ∧
      s.cursor.scanned = ⟨ts, eof⟩ := by
  unfold ahead at h
  unfold advance
  split at h
  · cases h
  · rename_i hcurrent
    cases h
    exact ⟨if_neg hcurrent, rfl⟩

/-- Advancing removes the current token from those ahead. -/
theorem ahead_advance (h : s.ahead = ⟨t :: ts, eof⟩) : s.advance.ahead = ⟨ts, eof⟩ := by
  obtain ⟨hadvance, hscanned⟩ := advance_of_ahead_cons h
  rw [hadvance, ahead_next, hscanned]

/-- Advancing neither loses nor repeats a token. -/
theorem whole_advance (h : s.ahead = ⟨t :: ts, eof⟩) : s.advance.whole = s.whole := by
  obtain ⟨hadvance, hscanned⟩ := advance_of_ahead_cons h
  have hall := s.advance.all_ahead
  rw [ahead_advance h] at hall
  rw [whole, whole, ahead_advance h, h, hadvance]
  rw [hadvance] at hall
  simp only [Scanned.all] at hall ⊢
  rw [List.append_assoc, List.singleton_append, ← hall]
  rfl

theorem kind_of_ahead (h : s.ahead = ⟨ts, eof⟩) :
    (∀ t ∈ ts, t.kind ≠ .endOfFile) ∧ eof.kind = .endOfFile := by
  unfold ahead at h
  split at h
  · rename_i hcurrent
    cases h
    exact ⟨by simp, by simpa [isEndOfFile] using hcurrent⟩
  · rename_i hcurrent
    cases h
    obtain ⟨htokens, hend, -⟩ := s.cursor.orderly.1
    exact ⟨List.forall_mem_cons.mpr ⟨by simpa [isEndOfFile] using hcurrent, htokens⟩, hend⟩

theorem produced_of_ahead_nil (h : s.ahead = ⟨[], eof⟩) : s.produced = s.whole := by
  rw [whole, h]
  exact (List.append_nil _).symm

end Stream

end Token

end LambdaCalculus
