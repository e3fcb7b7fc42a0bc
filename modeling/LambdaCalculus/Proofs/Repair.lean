import LambdaCalculus.Proofs.Complaints
import LambdaCalculus.Proofs.Lossless

/-! # Repaired texts

A malformed text is parsed as if it had been repaired: as if every unexpected token were absent, and
every group open at the end were closed there.  Only a missing parameter cannot be repaired in this
way.  The repaired text keeps all other tokens at their positions, so the two trees are equal
including positions.
-/
namespace LambdaCalculus

namespace Diagnostic

def isUnexpected : Diagnostic → Bool
  | .unexpected _ => true
  | _ => false

def isMissingParameter : Diagnostic → Bool
  | .missingParameter _ => true
  | _ => false

end Diagnostic

/-- The text with its tokens replaced by other texts, and the same whitespace. -/
def Token.exchange (f : Token → List Char) : List Token → List Char → List Char
  | [], text => text
  | t :: ts, text =>
    text.takeWhile isWhitespace ++
      (f t ++ exchange f ts ((text.dropWhile isWhitespace).drop t.raw.toList.length))

/-- The text of a token, or a space if the token is dropped. -/
def Token.blanked (drop : Token → Bool) (t : Token) : List Char :=
  if drop t then [' '] else t.raw.toList

namespace Expr

def isReported (source : String) (t : Token) : Bool :=
  (parse source).diagnostics.contains (.unexpected t)

/-- The text with a space in place of each unexpected token, and a closing parenthesis at the end
for each unclosed group. -/
def repaired (source : String) : String :=
  let unclosed := (parse source).diagnostics.countP (·.isUnclosedGroup)
  String.ofList (Token.exchange (Token.blanked (isReported source)) (Token.scan source).tokens
    source.toList ++ List.replicate unclosed ')')

namespace Reader

/-! ## Parsing without stray tokens -/

/-- A closing parenthesis outside of groups, or a delimiter outside of headers. -/
def strays (r : Reader) (t : Token) : Bool :=
  t.kind = .groupClose && r.groups.isEmpty || t.kind = .bodyDelimiter && r.header = .none

variable {r r' : Reader} {t u : Token}

theorem unexpected_mem_complain (ht : t.kind ≠ .endOfFile) :
    .unexpected u ∈ r.complain t ↔
      u = t ∧ (t.kind = .groupClose ∧ r.groups = [] ∨ t.kind = .bodyDelimiter) := by
  cases hk : t.kind with
  | groupClose =>
    cases hg : r.groups with
    | nil => simp [complain, hk, hg]
    | cons group groups => cases hterm : r.level.hasTerm <;> simp [complain, hk, hg, hterm]
  | endOfFile => exact absurd hk ht
  | _ => simp [complain, hk]

theorem unexpected_notMem_headerAtEnd : .unexpected u ∉ r.headerAtEnd t := by
  cases hh : r.header <;> simp [headerAtEnd, hh]

theorem unexpected_mem_emit (ht : t.kind ≠ .endOfFile) :
    .unexpected u ∈ r.emit t ↔ u = t ∧ r.strays t = true := by
  rcases r.step_cases t with ⟨b, hb, hk, -, hemit⟩ | ⟨hne, hk, -, hemit⟩ | ⟨-, hdot, -, hemit⟩
  · simp [hemit, strays, hk]
  · cases hh : r.header with
    | none => exact absurd hh hne
    | _ => simp [hemit, strays, hk, hh, Header.withoutParameter]
  · have hheader : t.kind = .bodyDelimiter → r.header = .none := fun hk =>
      by_contra fun hne => hdot hne hk
    rw [hemit, List.mem_append, or_iff_right unexpected_notMem_headerAtEnd,
      unexpected_mem_complain ht, groups_settle]
    simp only [strays, Bool.or_eq_true, Bool.and_eq_true, decide_eq_true_eq, List.isEmpty_iff]
    tauto

theorem missingParameter_mem_emit {b : Token} (hb : r.header = .binder b)
    (ht : t.kind ≠ .identifier) : .missingParameter t ∈ r.emit t := by
  rcases r.step_cases t with ⟨-, -, hk, -⟩ | ⟨-, -, -, hemit⟩ | ⟨-, -, -, hemit⟩
  · exact absurd hk ht
  · simp [hemit, hb, Header.withoutParameter]
  · simp [hemit, headerAtEnd, hb]

theorem accept_of_stray (ht : r.strays t = true) : r.accept t = r := by
  simp only [strays, Bool.or_eq_true, Bool.and_eq_true, decide_eq_true_eq, List.isEmpty_iff] at ht
  rcases ht with ⟨hk, hg⟩ | ⟨hk, -⟩
  · simp [accept, hk, hg]
  · simp [accept, hk]

theorem next_of_header_none (h : r.header = .none) (t : Token) : r.next t = r.accept t := by
  simp [next, h]

theorem settle_of_header_none (h : r.header = .none) : r.settle = r := by
  simp [settle, h]

theorem next_of_header_parameter {b : Token} {p : Option Token} (h : r.header = .parameter b p)
    (ht : t.kind ≠ .bodyDelimiter) : r.next t = r.settle.accept t := by
  rcases r.step_cases t with ⟨b', hb', -⟩ | ⟨-, hk, -⟩ | ⟨-, -, hnext, -⟩
  · simp [h] at hb'
  · exact absurd hk ht
  · exact hnext

/-- A reader that has skipped stray tokens, and one that has not met them.  They differ at most in a
header that waits for its delimiter, which a stray token ends. -/
def Keeps (r r' : Reader) : Prop :=
  r = r' ∨ (∃ b p, r'.header = .parameter b p) ∧ r = r'.settle

theorem Keeps.groups_eq (h : Keeps r r') : r.groups = r'.groups := by
  rcases h with rfl | ⟨-, rfl⟩
  · rfl
  · exact groups_settle r'

theorem Keeps.finish_eq (h : Keeps r r') : r.finish = r'.finish := by
  rcases h with rfl | ⟨-, rfl⟩
  · rfl
  · rw [finish, finish, settle_of_header_none (header_settle r')]

/-- A stray token that only the first reader meets preserves the relation. -/
theorem Keeps.next_of_stray (h : Keeps r r') (ht : r.strays t = true)
    (hparameter : .missingParameter t ∉ r.emit t) : Keeps (r.next t) r' := by
  have hk : t.kind ≠ .identifier := by
    intro hk
    simp [strays, hk] at ht
  rcases h with rfl | ⟨hheader, rfl⟩
  · cases hh : r.header with
    | none => exact .inl (by rw [next_of_header_none hh, accept_of_stray ht])
    | binder b => exact absurd (missingParameter_mem_emit hh hk) hparameter
    | parameter b p =>
      have hdot : t.kind ≠ .bodyDelimiter := by
        intro hdot
        simp [strays, hdot, hh] at ht
      have hstray : r.settle.strays t = true := by
        simpa [strays, hh, groups_settle, hdot] using ht
      rw [next_of_header_parameter hh hdot, accept_of_stray hstray]
      exact .inr ⟨⟨b, p, hh⟩, rfl⟩
  · rw [next_of_header_none (header_settle r'), accept_of_stray ht]
    exact .inr ⟨hheader, rfl⟩

/-- Any other token is read by both readers, and is not unexpected. -/
theorem Keeps.next_of_not_stray (h : Keeps r r') (ht : r.strays t = false) :
    r.next t = r'.next t ∧ r'.strays t = false := by
  rcases h with rfl | ⟨⟨b, p, hheader⟩, rfl⟩
  · exact ⟨rfl, ht⟩
  · have hdot : t.kind ≠ .bodyDelimiter := by
      intro hdot
      simp [strays, hdot, header_settle] at ht
    rw [next_of_header_none (header_settle r'), next_of_header_parameter hheader hdot]
    exact ⟨rfl, by simpa [strays, hdot, groups_settle] using ht⟩

def kept (r : Reader) : List Token → List Token
  | [] => []
  | t :: ts => if r.strays t then (r.next t).kept ts else t :: (r.next t).kept ts

variable {ts : List Token}

theorem Keeps.reach (h : Keeps r r') (hts : ∀ t ∈ ts, t.kind ≠ .endOfFile)
    (hparameter : ∀ t, .missingParameter t ∉ transducer.output r ts) :
    Keeps (transducer.reach r ts) (transducer.reach r' (r.kept ts)) ∧
      ∀ t, .unexpected t ∉ transducer.output r' (r.kept ts) := by
  induction ts generalizing r r' with
  | nil => exact ⟨h, by simp [kept]⟩
  | cons t ts ih =>
    obtain ⟨ht, hts⟩ := List.forall_mem_cons.mp hts
    simp only [Transducer.output_cons, List.mem_append, not_or] at hparameter
    have hrest := fun t => (hparameter t).2
    rw [kept, Transducer.reach_cons]
    cases hstray : r.strays t with
    | true => exact ih (h.next_of_stray hstray (hparameter t).1) hts hrest
    | false =>
      obtain ⟨hnext, hstray'⟩ := h.next_of_not_stray hstray
      obtain ⟨hkeeps, hquiet⟩ := ih (.inl hnext) hts hrest
      refine ⟨hkeeps, fun u => ?_⟩
      simp only [Transducer.output_cons, List.mem_append, not_or, Bool.false_eq_true, if_false]
      refine ⟨fun hmem => ?_, hquiet u⟩
      have hemit := ((unexpected_mem_emit ht).mp hmem).2
      simp [hstray'] at hemit

theorem mem_of_unexpected_mem_output (hts : ∀ t ∈ ts, t.kind ≠ .endOfFile)
    (h : .unexpected u ∈ transducer.output r ts) : u ∈ ts := by
  induction ts generalizing r with
  | nil => simp at h
  | cons t ts ih =>
    obtain ⟨ht, hts⟩ := List.forall_mem_cons.mp hts
    rw [Transducer.output_cons, List.mem_append] at h
    rcases h with h | h
    · rw [((unexpected_mem_emit ht).mp h).1]
      exact List.mem_cons_self
    · exact List.mem_cons_of_mem t (ih hts h)

/-- If no token is repeated, those kept are the ones not reported. -/
theorem kept_eq_filter (hts : ∀ t ∈ ts, t.kind ≠ .endOfFile) (hnodup : ts.Nodup) :
    r.kept ts = ts.filter fun t => .unexpected t ∉ transducer.output r ts := by
  induction ts generalizing r with
  | nil => rfl
  | cons t ts ih =>
    obtain ⟨ht, hts⟩ := List.forall_mem_cons.mp hts
    obtain ⟨hfirst, hnodup⟩ := List.nodup_cons.mp hnodup
    have hhead : .unexpected t ∈ transducer.output r (t :: ts) ↔ r.strays t = true := by
      rw [Transducer.output_cons, List.mem_append, or_iff_left fun h =>
        hfirst (mem_of_unexpected_mem_output hts h)]
      exact (unexpected_mem_emit ht).trans (by simp)
    have htail : (r.next t).kept ts =
        ts.filter fun u => .unexpected u ∉ transducer.output r (t :: ts) := by
      rw [ih hts hnodup]
      refine List.filter_congr fun u hu => decide_eq_decide.mpr (not_congr ?_)
      have hne : .unexpected u ∉ r.emit t := fun h =>
        hfirst (((unexpected_mem_emit ht).mp h).1 ▸ hu)
      rw [Transducer.output_cons, List.mem_append, iff_comm]
      exact or_iff_right hne
    rw [kept, List.filter_cons, htail]
    simp only [hhead]
    cases r.strays t <;> simp

/-! ## Closing open groups -/

/-- A closing parenthesis closes the innermost group, as the end of the text does. -/
theorem next_of_groupClose (ht : t.kind = .groupClose) (hgroups : r.groups ≠ []) :
    (r.next t).groups = r.groups.tail ∧ (r.next t).finish = r.finish := by
  have hnext : r.next t = r.settle.accept t := by
    rcases r.step_cases t with ⟨b, -, hk, -⟩ | ⟨-, hk, -⟩ | ⟨-, -, hnext, -⟩
    · simp [ht] at hk
    · simp [ht] at hk
    · exact hnext
  obtain ⟨group, groups, hg⟩ := List.exists_cons_of_ne_nil hgroups
  have hsettle : r.settle = ⟨r.settle.level, group :: groups, .none⟩ := by
    rw [← hg, ← r.groups_settle, ← r.header_settle]
  have hclosed : r.next t = ⟨group.2.add r.settle.level.close, groups, .none⟩ := by
    rw [hnext, hsettle]
    simp [accept, ht]
  rw [hclosed, finish, finish, hsettle]
  exact ⟨by rw [hg]; rfl, rfl⟩

/-- As many closing parentheses as there are open groups close them all. -/
theorem reach_of_closing (hts : ∀ t ∈ ts, t.kind = .groupClose)
    (hlength : ts.length = r.groups.length) :
    (transducer.reach r ts).groups = [] ∧ (transducer.reach r ts).finish = r.finish ∧
      ∀ t, .unexpected t ∉ transducer.output r ts := by
  induction ts generalizing r with
  | nil => exact ⟨List.length_eq_zero_iff.mp hlength.symm, rfl, by simp⟩
  | cons t ts ih =>
    obtain ⟨ht, hts⟩ := List.forall_mem_cons.mp hts
    have hgroups : r.groups ≠ [] := by
      intro hnil
      simp [hnil] at hlength
    obtain ⟨htail, hfinish⟩ := next_of_groupClose ht hgroups
    have hrest : ts.length = (r.next t).groups.length := by
      rw [htail, List.length_tail, ← hlength]
      rfl
    obtain ⟨hclosed, hsame, hquiet⟩ := ih hts hrest
    refine ⟨hclosed, hsame.trans hfinish, fun u => ?_⟩
    rw [Transducer.output_cons, List.mem_append, not_or]
    refine ⟨fun h => ?_, hquiet u⟩
    have hstray := ((unexpected_mem_emit (by simp [ht])).mp h).2
    simp [strays, ht, hgroups] at hstray

end Reader

end Expr

/-! ## Scanning the repaired text -/

namespace Token

variable {before text last tail rest : List Char} {pieces : List Piece} {t : Token}
  {drop : Token → Bool}

theorem not_isLetter_of_mem_separators {c : Char} (h : c ∈ separators) : ¬ IsLetter c :=
  fun hletter => hletter.1 h

theorem Fits.head_not_whitespace (h : Fits before t rest) :
    ∀ c ∈ t.raw.toList.head?, isWhitespace c = false := by
  intro c hc
  rw [← Bool.not_eq_true, isWhitespace_iff]
  by_cases hk : t.kind = .identifier
  · exact ((h.letters hk).2 c (List.mem_of_mem_head? hc)).1
  · obtain ⟨d, hd, hraw⟩ := h.symbol hk
    obtain rfl : d = c := by simpa [hraw] using hc
    intro hseparator
    have hreserved := reserved?_eq_some_iff.mpr hd
    simp only [separators, List.mem_cons, List.not_mem_nil, or_false] at hseparator
    rcases hseparator with rfl | rfl | rfl | rfl <;> simp [reserved?] at hreserved

theorem Cut.exchange_eq (h : Cut before text pieces last) (f : Token → List Char) :
    exchange f (pieces.map Piece.token) text =
      pieces.flatMap (fun p => p.gap ++ f p.token) ++ last := by
  induction pieces generalizing before text with
  | nil => exact h.whole
  | cons p pieces ih =>
    obtain ⟨hgap, hfits, hcut⟩ := h.uncons
    have hgap' : ∀ c ∈ p.gap, isWhitespace c = true := fun c hc => isWhitespace_iff.mpr (hgap hc)
    have htext : text = p.gap ++ (p.token.raw.toList ++ (layout pieces ++ last)) := by
      rw [h.whole, layout_cons, List.append_assoc, List.append_assoc]
    obtain ⟨c, letters, hraw⟩ := List.exists_cons_of_ne_nil hfits.raw_ne_nil
    have hc : isWhitespace c = false := hfits.head_not_whitespace c (by simp [hraw])
    have htake : text.takeWhile isWhitespace = p.gap := by
      rw [htext, List.takeWhile_append_of_pos hgap', hraw]
      simp [hc]
    have hdrop : text.dropWhile isWhitespace = p.token.raw.toList ++ (layout pieces ++ last) := by
      rw [htext, List.dropWhile_append_of_pos hgap', hraw]
      simp [hc]
    rw [List.map_cons, exchange, htake, hdrop, List.drop_left, ih hcut]
    simp

def blankedLayout (drop : Token → Bool) (pieces : List Piece) : List Char :=
  pieces.flatMap fun p => p.gap ++ p.token.blanked drop

theorem blankedLayout_cons (p : Piece) (pieces : List Piece) :
    blankedLayout drop (p :: pieces) =
      p.gap ++ (p.token.blanked drop ++ blankedLayout drop pieces) :=
  List.append_assoc _ _ _

theorem Cut.head_blanked (h : Cut before text pieces last) (htext : ∀ c ∈ text.head?, ¬ IsLetter c)
    (htail : ∀ c ∈ tail.head?, ¬ IsLetter c) :
    ∀ c ∈ (blankedLayout drop pieces ++ (last ++ tail)).head?, ¬ IsLetter c := by
  intro c hc
  cases pieces with
  | nil =>
    cases last with
    | nil => exact htail c hc
    | cons d last =>
      obtain rfl : d = c := by simpa [blankedLayout] using hc
      exact not_isLetter_of_mem_separators (h.trailing List.mem_cons_self)
  | cons p pieces =>
    obtain ⟨hgap, hfits, -⟩ := h.uncons
    rw [h.whole, layout_cons] at htext
    rw [blankedLayout_cons] at hc
    cases hg : p.gap with
    | cons d gap =>
      obtain rfl : d = c := by simpa [hg] using hc
      exact not_isLetter_of_mem_separators (hgap (by simp [hg]))
    | nil =>
      obtain ⟨d, letters, hraw⟩ := List.exists_cons_of_ne_nil hfits.raw_ne_nil
      cases hdrop : drop p.token with
      | true =>
        obtain rfl : ' ' = c := by simpa [hg, blanked, hdrop] using hc
        exact not_isLetter_of_mem_separators (by decide)
      | false =>
        obtain rfl : d = c := by simpa [hg, blanked, hdrop, hraw] using hc
        exact htext d (by simp [hg, hraw])

/-- A token that may be dropped has the width of a space. -/
theorem Fits.advance_space (h : Fits before t rest)
    (hk : t.kind = .groupClose ∨ t.kind = .bodyDelimiter) :
    (Position.after before).advance ' ' = .after (before ++ t.raw.toList) := by
  obtain ⟨c, hc, hraw⟩ := h.symbol (by rcases hk with hk | hk <;> simp [hk])
  rw [hraw, String.toList_singleton, Position.after_concat]
  rcases hk with hk | hk <;> rw [hk] at hc <;> rw [List.mem_singleton.mp hc] <;> rfl

/-- With spaces in place of some tokens, the others are scanned as before, at the same positions. -/
theorem Cut.rest_blanked (h : Cut before text pieces last)
    (hdrop : ∀ p ∈ pieces, drop p.token = true →
      p.token.kind = .groupClose ∨ p.token.kind = .bodyDelimiter)
    (htail : ∀ c ∈ tail.head?, ¬ IsLetter c) :
    (Scanner.mk (.after before) none).rest (blankedLayout drop pieces ++ (last ++ tail)) =
      (pieces.map Piece.token).filter (fun t => !drop t) ++
        (Scanner.mk (.after (before ++ text)) none).rest tail := by
  induction pieces generalizing before text with
  | nil =>
    have htext : text = last := h.whole
    subst htext
    exact (Scanner.rest_gap h.trailing _ _).trans (by rw [Position.advanceAll_after]; rfl)
  | cons p pieces ih =>
    obtain ⟨hgap, hfits, hcut⟩ := h.uncons
    obtain ⟨hp, hdrop⟩ := List.forall_mem_cons.mp hdrop
    have hrest := ih hcut hdrop
    have htext : before ++ text =
        before ++ p.gap ++ p.token.raw.toList ++ (layout pieces ++ last) := by
      simp [h.whole]
    rw [blankedLayout_cons, List.append_assoc, List.append_assoc, Scanner.rest_gap hgap,
      Position.advanceAll_after, htext, List.map_cons, blanked]
    cases hp' : drop p.token with
    | true =>
      rw [if_pos rfl, List.singleton_append, Scanner.rest_whitespace (by decide),
        hfits.advance_space (hp hp'), hrest]
      simp [hp']
    | false =>
      have hfits' : Fits (before ++ p.gap) p.token (blankedLayout drop pieces ++ (last ++ tail)) :=
        { hfits with
          maximal := fun hk =>
            ⟨(hfits.maximal hk).1, hcut.head_blanked (hfits.maximal hk).2 htail⟩ }
      rw [if_neg (by simp), hfits'.rest_eq, hrest]
      simp [hp']

theorem Scanner.rest_closing (p : Position) (n : Nat) :
    ((Scanner.mk p none).rest (List.replicate n ')')).length = n ∧
      ∀ t ∈ (Scanner.mk p none).rest (List.replicate n ')'), t.kind = .groupClose := by
  induction n generalizing p with
  | zero => exact ⟨rfl, by simp [rest, pending]⟩
  | succ n ih =>
    rw [List.replicate_succ, rest_reserved (show reserved? ')' = some .groupClose from rfl)]
    exact ⟨congrArg (· + 1) (ih _).1, List.forall_mem_cons.mpr ⟨rfl, (ih _).2⟩⟩

end Token

namespace Expr

/-! ## Parsing the repaired text -/

theorem Reader.unexpected_notMem_atEnd {r : Reader} {t eof : Token} :
    .unexpected t ∉ r.atEnd eof := by
  rw [atEnd, List.mem_append, not_or]
  refine ⟨unexpected_notMem_headerAtEnd, ?_⟩
  unfold groupsAtEnd
  split
  · split <;> simp
  · simp

theorem unexpected_mem_parse {source : String} {t : Token} :
    .unexpected t ∈ (parse source).diagnostics ↔
      .unexpected t ∈ Reader.transducer.output .start (Token.scan source).tokens := by
  rw [parse, ofTokens, List.mem_append, or_iff_left Reader.unexpected_notMem_atEnd]

def Reader.final (source : String) : Reader := transducer.reach .start (Token.scan source).tokens

theorem expr_parse (source : String) : (parse source).expr = (Reader.final source).finish := rfl

theorem countP_isUnclosedGroup_parse (source : String) :
    (parse source).diagnostics.countP (·.isUnclosedGroup) =
      (Reader.final source).groups.length := by
  have hreach := (Reader.start_reflects.reach (Token.scan_orderly source).tokens).groups
  have hnone : (complaintsFrom [] (Token.scan source).all).countP (·.isUnclosedGroup) = 0 :=
    List.countP_eq_zero.mpr fun d hd => by simp [isUnclosedGroup_of_mem_complaintsFrom hd]
  rw [List.append_nil] at hreach
  rw [diagnostics_parse, List.countP_append, hnone, List.countP_map, ← hreach, Reader.final]
  simp [Function.comp_def, Diagnostic.isUnclosedGroup]

theorem kind_of_isReported {source : String} {t : Token} (h : isReported source t = true) :
    t.kind = .groupClose ∨ t.kind = .bodyDelimiter := by
  have hmem : .unexpected t ∈ (parse source).diagnostics := List.contains_iff_mem.mp h
  rw [diagnostics_parse, List.mem_append] at hmem
  rcases hmem with hmem | hmem
  · obtain ⟨before, u, -, hmem⟩ := mem_complaintsFrom hmem
    rcases mem_complaints hmem with ⟨ht, hstray⟩ | ht | ht | ht <;> cases ht
    exact kind_of_isStray hstray
  · simp at hmem

theorem kept_eq_filter_isReported (source : String) :
    Reader.start.kept (Token.scan source).tokens =
      (Token.scan source).tokens.filter fun t => !isReported source t := by
  have hnodup := (List.sublist_append_left _ _).nodup (Token.scan_orderly source).nodup
  rw [Reader.kept_eq_filter (Token.scan_orderly source).tokens hnodup]
  refine List.filter_congr fun t _ => ?_
  simp only [isReported, List.contains_eq_mem, unexpected_mem_parse, decide_not]

/-- The tokens that are not reported keep their positions, and closing parentheses follow them. -/
theorem tokens_repaired (source : String) :
    ∃ closing : List Token, (∀ t ∈ closing, t.kind = .groupClose) ∧
      closing.length = (Reader.final source).groups.length ∧
      (Token.scan (repaired source)).tokens =
        Reader.start.kept (Token.scan source).tokens ++ closing := by
  obtain ⟨pieces, last, hcut⟩ := Token.exists_cut_source source
  have htext : (repaired source).toList = Token.blankedLayout (isReported source) pieces ++
      (last ++ List.replicate (Reader.final source).groups.length ')') := by
    rw [repaired, String.toList_ofList, ← hcut.tokens_eq, hcut.exchange_eq,
      countP_isUnclosedGroup_parse, List.append_assoc]
    rfl
  have htail : ∀ c ∈ (List.replicate (Reader.final source).groups.length ')').head?,
      ¬ Token.IsLetter c := by
    intro c hc hletter
    rw [List.eq_of_mem_replicate (List.mem_of_mem_head? hc)] at hletter
    exact hletter.2 .groupClose (by decide)
  have hdrop : ∀ p ∈ pieces, isReported source p.token = true →
      p.token.kind = .groupClose ∨ p.token.kind = .bodyDelimiter := fun p _ => kind_of_isReported
  have hscan := hcut.rest_blanked hdrop htail
  rw [← htext, hcut.tokens_eq, ← kept_eq_filter_isReported] at hscan
  obtain ⟨hlength, hclosing⟩ := Token.Scanner.rest_closing (.after source.toList)
    (Reader.final source).groups.length
  exact ⟨_, hclosing, hlength, hscan⟩

/-- A malformed text without a missing parameter is parsed as the repaired one, to the same tree
with the same tokens at the same positions.  The repaired text has no unexpected tokens, and every
group in it is closed. -/
theorem recovery_reads_repaired (source : String)
    (h : ∀ d ∈ (parse source).diagnostics, d.isMissingParameter = false) :
    (parse (repaired source)).expr = (parse source).expr ∧
    ∀ d ∈ (parse (repaired source)).diagnostics,
      d.isUnexpected = false ∧ d.isUnclosedGroup = false := by
  have hparameter : ∀ t, .missingParameter t ∉
      Reader.transducer.output .start (Token.scan source).tokens := fun t ht => by
    simpa [Diagnostic.isMissingParameter] using h _ (List.mem_append_left _ ht)
  obtain ⟨hkeeps, hquiet⟩ := Reader.Keeps.reach (.inl rfl) (Token.scan_orderly source).tokens
    hparameter
  obtain ⟨closing, hclosing, hlength, htokens⟩ := tokens_repaired source
  rw [← Reader.final] at hkeeps
  rw [hkeeps.groups_eq] at hlength
  obtain ⟨hgroups, hfinish, hquiet'⟩ := Reader.reach_of_closing hclosing hlength
  rw [← Transducer.reach_append, ← htokens, ← Reader.final] at hgroups hfinish
  constructor
  · rw [expr_parse, expr_parse, hfinish, hkeeps.finish_eq]
  · intro d hd
    constructor
    · cases d with
      | unexpected t =>
        rw [unexpected_mem_parse, htokens, Transducer.output_append, List.mem_append] at hd
        exact absurd hd (not_or.mpr ⟨hquiet t, hquiet' t⟩)
      | _ => rfl
    · have hnone := countP_isUnclosedGroup_parse (repaired source)
      rw [hgroups, List.length_nil, List.countP_eq_zero] at hnone
      simpa using hnone d hd

/-- Two stray tokens after a parameter, and a header at the end inside two groups. -/
theorem recovery_reads_repaired_headers :
    repaired "x) \\y ). z (a . (\\w" = "x  \\y    z (a   (\\w))" ∧
    (parse "x  \\y    z (a   (\\w))").expr = (parse "x) \\y ). z (a . (\\w").expr := by
  have hrepaired : repaired "x) \\y ). z (a . (\\w" = "x  \\y    z (a   (\\w))" := by decide
  refine ⟨hrepaired, ?_⟩
  rw [← hrepaired]
  exact (recovery_reads_repaired _ (by decide)).1

end Expr

end LambdaCalculus
