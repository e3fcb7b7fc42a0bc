import LambdaCalculus.CommandLine
import LambdaCalculus.Proofs.Complaints
import LambdaCalculus.Proofs.Definitions

/-! # Entries of the prompt

The prompt reads its input entry by entry.  An entry is the shortest sequence of lines whose
expression has no open group, regardless of other errors, or all remaining lines if there is none.
Its end is found by counting parentheses.  After each line the prompt determines again what the
entry defines, with the same answer.
-/
namespace LambdaCalculus

namespace Text

/-! ## Lines -/

/-- Lines as they occur in a text: each ends with its only newline, which the last may lack. -/
def Lined : List String → Prop
  | [] => True
  | line :: rest =>
    ((∃ body, '\n' ∉ body ∧ line.toList = body ++ ['\n']) ∨
      rest = [] ∧ line ≠ "" ∧ '\n' ∉ line.toList) ∧ Lined rest

theorem splitAfter_cons {α : Type} (ends : α → Bool) (x : α) (xs : List α) :
    splitAfter ends (x :: xs) =
      if ends x then [x] :: splitAfter ends xs
      else match splitAfter ends xs with
        | [] => [[x]]
        | piece :: pieces => (x :: piece) :: pieces := rfl

theorem lines_lined (text : String) : Lined (lines text) := by
  unfold lines
  induction text.toList with
  | nil => trivial
  | cons c text ih =>
    rw [splitAfter_cons]
    by_cases hc : c = '\n'
    · rw [if_pos (by simpa using hc)]
      exact ⟨.inl ⟨[], by simp, by simp [hc]⟩, ih⟩
    · have hc' : '\n' ≠ c := fun he => hc he.symm
      rw [if_neg (by simpa using hc)]
      cases hpieces : splitAfter (· = '\n') text with
      | nil => exact ⟨.inr ⟨rfl, by simp, by simpa using hc'⟩, trivial⟩
      | cons piece pieces =>
        rw [hpieces] at ih
        obtain ⟨hpiece, hrest⟩ := ih
        refine ⟨?_, hrest⟩
        rcases hpiece with ⟨body, hbody, hline⟩ | ⟨hlast, -, hline⟩
        · exact .inl ⟨c :: body, by simp [hc', hbody], by simpa using hline⟩
        · exact .inr ⟨hlast, by simp, by simpa [hc'] using hline⟩

theorem Lined.ne_empty {lines : List String} (h : Lined lines) : ∀ line ∈ lines, line ≠ "" := by
  induction lines with
  | nil => simp
  | cons line rest ih =>
    refine List.forall_mem_cons.mpr ⟨?_, ih h.2⟩
    rcases h.1 with ⟨body, -, hline⟩ | ⟨-, hline, -⟩
    · rintro rfl
      simp at hline
    · exact hline

theorem join_lines (text : String) : String.join (lines text) = text := by
  apply String.toList_injective
  rw [String.toList_join, lines, List.flatMap_map]
  simpa [List.flatMap_id'] using flatten_splitAfter (· = '\n') text.toList

/-! ## Open parentheses -/

/-- The number of open parentheses after one more character.  An unmatched closing one is ignored.
-/
def nest (n : Nat) (c : Char) : Nat :=
  if c = '(' then n + 1 else if c = ')' then n - 1 else n

def openings (text : List Char) : Nat := text.foldl nest 0

theorem openings_eq_zero {text : List Char} (h : '(' ∉ text) : openings text = 0 := by
  unfold openings
  induction text with
  | nil => rfl
  | cons c text ih =>
    have hc : c ≠ '(' := fun hc => h (hc ▸ List.mem_cons_self)
    have hnest : nest 0 c = 0 := by simp [nest, hc]
    rw [List.foldl_cons, hnest, ih fun hmem => h (List.mem_cons_of_mem c hmem)]

end Text

namespace Expr

open Token

theorem unmatched_pending (s : Scanner) (before : List Token) :
    unmatched (s.pending.reverse ++ before) = unmatched before := by
  unfold Scanner.pending
  split <;> simp [unmatched, Word.token]

theorem length_unmatched_symbol (s : Scanner) (c : Char) (before : List Token) :
    (unmatched ((s.symbol c).reverse ++ before)).length =
      Text.nest (unmatched before).length c := by
  unfold Scanner.symbol reserved? Text.nest
  split_ifs with hbinder hdot hopen hclose <;> simp_all [unmatched]

/-- Unmatched parentheses can be counted without scanning. -/
theorem length_unmatched_rest (s : Scanner) (text : List Char) (before : List Token) :
    (unmatched ((s.rest text).reverse ++ before)).length =
      text.foldl Text.nest (unmatched before).length := by
  induction text generalizing s before with
  | nil => exact congrArg List.length (unmatched_pending s before)
  | cons c text ih =>
    have hemit : (unmatched ((s.emit c).reverse ++ before)).length =
        Text.nest (unmatched before).length c := by
      cases hc : isIdentifierChar c with
      | true =>
        have hopen : c ≠ '(' := by rintro rfl; cases hc
        have hclose : c ≠ ')' := by rintro rfl; cases hc
        simp [Scanner.emit, hc, Text.nest, hopen, hclose]
      | false =>
        have hparts : (s.emit c).reverse ++ before =
            (s.symbol c).reverse ++ (s.pending.reverse ++ before) := by
          simp [Scanner.emit, hc]
        rw [hparts, length_unmatched_symbol, unmatched_pending]
    rw [Scanner.rest_cons, List.reverse_append, List.append_assoc, ih, hemit, List.foldl_cons]

theorem length_unmatched_scan (source : String) :
    (unmatched (scan source).tokens.reverse).length = Text.openings source.toList := by
  have hrest := length_unmatched_rest .start source.toList []
  rw [List.append_nil] at hrest
  exact hrest

theorem any_isUnclosedGroup_parse (source : String) :
    (parse source).diagnostics.any (·.isUnclosedGroup) = true ↔
      Text.openings source.toList ≠ 0 := by
  have hothers : (complaintsFrom [] (scan source).all).any (·.isUnclosedGroup) = false :=
    List.any_eq_false.mpr fun d hd => by simp [isUnclosedGroup_of_mem_complaintsFrom hd]
  rw [diagnostics_parse, List.any_append, hothers, Bool.false_or, ← length_unmatched_scan]
  cases unmatched (scan source).tokens.reverse with
  | nil => simp
  | cons t ts => simp [Diagnostic.isUnclosedGroup]

end Expr

namespace Entry

/-- The expression in some lines has no open parenthesis. -/
def Balanced (lines : List String) : Prop :=
  Text.openings (ofText (String.join lines)).source.toList = 0

instance (lines : List String) : Decidable (Balanced lines) :=
  inferInstanceAs (Decidable (_ = 0))

theorem isOpen_iff (lines : List String) : isOpen (String.join lines) = true ↔ ¬ Balanced lines :=
  Expr.any_isUnclosedGroup_parse _

/-- The expression of an entry is a suffix of it. -/
theorem source_suffix (text : String) : (ofText text).source.toList <:+ text.toList := by
  rcases ofText_cases text with ⟨name, source, hdefines⟩ | hnone
  · rw [ofText_of_defines hdefines]
    obtain ⟨-, front, back, -, -, hhalves⟩ := hdefines
    exact ⟨_, hhalves.text_eq.symm⟩
  · simp [hnone]

theorem balanced_of_isBlank {lines : List String} (h : isBlank (String.join lines) = true) :
    Balanced lines := by
  refine Text.openings_eq_zero fun hmem => ?_
  have hblank := List.all_eq_true.mp h _ ((source_suffix _).subset hmem)
  cases hblank

/-- No initial segment of the lines is a complete entry. -/
def Pending (lines : List String) : Prop :=
  ∀ run, run ≠ [] → run <+: lines → ¬ Balanced run

theorem Pending.concat {lines : List String} {line : String} (h : Pending lines)
    (hline : ¬ Balanced (lines ++ [line])) : Pending (lines ++ [line]) := by
  intro run hne hrun
  rcases List.prefix_concat_iff.mp hrun with rfl | hrun
  · exact hline
  · exact h run hne hrun

/-- The first entry of some lines: the shortest initial segment without an open parenthesis, or all
of them if there is none. -/
structure Next (entry lines : List String) : Prop where
  nonempty : entry ≠ []
  begins : entry <+: lines
  shortest : ∀ run, run ≠ [] → run <+: lines → Balanced run → entry <+: run
  whole : Balanced entry ∨ entry = lines ∧ Pending lines

theorem Pending.next {run rest : List String} {line : String} (h : Pending run)
    (hbalanced : Balanced (run ++ [line])) : Next (run ++ [line]) (run ++ [line] ++ rest) where
  nonempty := by simp
  begins := List.prefix_append _ _
  shortest := by
    intro run' hne hrun' hbalanced'
    rcases List.prefix_or_prefix_of_prefix hrun' (List.prefix_append (run ++ [line]) rest) with
      hbefore | hafter
    · rcases List.prefix_concat_iff.mp hbefore with rfl | hbefore
      · exact List.prefix_refl _
      · exact absurd hbalanced' (h run' hne hbefore)
    · exact hafter
  whole := .inl hbalanced

theorem Pending.next_self {lines : List String} (h : Pending lines) (hne : lines ≠ []) :
    Next lines lines where
  nonempty := hne
  begins := List.prefix_refl _
  shortest := fun run hne hrun hbalanced => absurd hbalanced (h run hne hrun)
  whole := .inr ⟨rfl, h⟩

end Entry

/-! ## Reading -/

structure Reading where
  /-- One cue for each line requested, including one that the input does not have. -/
  cues : List String
  /-- The text of the entry, if there is one before the input ends. -/
  entry : Option String
  /-- The remaining lines. -/
  rest : List String
  deriving DecidableEq, Repr

namespace Reading

/-- Reads lines until they are a complete entry or the input ends. -/
def onto (cue buffer : String) : List String → Reading
  | [] => ⟨[cue], if Entry.isBlank buffer then none else some buffer, []⟩
  | line :: lines =>
    let text := buffer ++ line
    if Entry.isOpen text then
      let later := onto ">> " text lines
      ⟨cue :: later.cues, later.entry, later.rest⟩
    else ⟨[cue], some text, lines⟩

def next (lines : List String) : Reading := onto "> " "" lines

variable {cue buffer line : String} {lines : List String}

theorem onto_of_open (h : Entry.isOpen (buffer ++ line) = true) :
    onto cue buffer (line :: lines) =
      ⟨cue :: (onto ">> " (buffer ++ line) lines).cues, (onto ">> " (buffer ++ line) lines).entry,
        (onto ">> " (buffer ++ line) lines).rest⟩ := by
  simp only [onto, h, if_true]

theorem onto_of_closed (h : Entry.isOpen (buffer ++ line) = false) :
    onto cue buffer (line :: lines) = ⟨[cue], some (buffer ++ line), lines⟩ := by
  simp only [onto, h, Bool.false_eq_true, if_false]

/-- Reading consumes a line if there is one, and leaves a suffix of the lines. -/
theorem rest_onto_suffix (cue buffer : String) (lines : List String) :
    (onto cue buffer lines).rest <:+ lines.tail := by
  induction lines generalizing cue buffer with
  | nil => simp only [onto, List.tail_nil, List.suffix_refl]
  | cons line lines ih =>
    cases hopen : Entry.isOpen (buffer ++ line) with
    | true =>
      simp only [onto_of_open hopen, List.tail_cons]
      exact (ih ">> " (buffer ++ line)).trans (List.tail_suffix lines)
    | false => simp only [onto_of_closed hopen, List.tail_cons, List.suffix_refl]

theorem next_nil : next [] = ⟨["> "], none, []⟩ := by
  simp [next, onto, Entry.isBlank]

theorem length_rest_next {lines : List String} (h : (next lines).entry ≠ none) :
    (next lines).rest.length < lines.length := by
  cases lines with
  | nil => exact absurd (congrArg entry next_nil) h
  | cons line lines =>
    exact Nat.lt_succ_of_le (rest_onto_suffix "> " "" (line :: lines)).length_le

def all (lines : List String) : List Reading :=
  if (next lines).entry = none then [next lines] else next lines :: all (next lines).rest
termination_by lines.length
decreasing_by exact length_rest_next ‹_›

/-- Reading continues from pending lines to the line that completes the entry, or to the end of the
input. -/
theorem onto_cases {run : List String} (h : Entry.Pending run) (cue : String)
    (lines : List String) :
    (∃ more line rest, lines = more ++ line :: rest ∧ Entry.Pending (run ++ more) ∧
      Entry.Balanced (run ++ more ++ [line]) ∧
      onto cue (String.join run) lines =
        ⟨cue :: List.replicate more.length ">> ", some (String.join (run ++ more ++ [line])),
          rest⟩) ∨
    Entry.Pending (run ++ lines) ∧
      onto cue (String.join run) lines =
        ⟨cue :: List.replicate lines.length ">> ",
          if Entry.isBlank (String.join (run ++ lines)) then none
          else some (String.join (run ++ lines)), []⟩ := by
  induction lines generalizing run cue with
  | nil => exact .inr ⟨by simpa using h, by simp [onto]⟩
  | cons line lines ih =>
    have htext : String.join run ++ line = String.join (run ++ [line]) := by
      rw [String.join_append, String.join_cons, String.join_nil, String.append_empty]
    by_cases hbalanced : Entry.Balanced (run ++ [line])
    · have hclosed : Entry.isOpen (String.join run ++ line) = false := by
        rw [← Bool.not_eq_true, htext, Entry.isOpen_iff, not_not]
        exact hbalanced
      refine .inl ⟨[], line, lines, rfl, by simpa using h, by simpa using hbalanced, ?_⟩
      rw [onto_of_closed hclosed, htext, List.append_nil]
      rfl
    · have hopen : Entry.isOpen (String.join run ++ line) = true := by
        rw [htext, Entry.isOpen_iff]
        exact hbalanced
      rw [onto_of_open hopen, htext]
      have hrun (more : List String) : run ++ [line] ++ more = run ++ line :: more :=
        List.append_assoc run [line] more
      rcases ih (h.concat hbalanced) ">> " with
        ⟨more, line', rest, rfl, hpending, hwhole, honto⟩ | ⟨hpending, honto⟩
      · rw [hrun] at hpending hwhole honto
        refine .inl ⟨line :: more, line', rest, rfl, hpending, hwhole, ?_⟩
        rw [honto]
        rfl
      · rw [hrun] at hpending honto
        refine .inr ⟨hpending, ?_⟩
        rw [honto]
        rfl

/-- The number of continuation lines requested for an entry: one for each line after the first, and
one more if the input ends inside the entry. -/
def continuations (entry : List String) : Nat :=
  if Entry.Balanced entry then entry.length - 1 else entry.length

theorem next_of_ne_nil {lines : List String} (hne : lines ≠ []) :
    ∃ entry rest, lines = entry ++ rest ∧ Entry.Next entry lines ∧
      next lines = ⟨"> " :: List.replicate (continuations entry) ">> ", some (String.join entry),
        rest⟩ := by
  have hnil : Entry.Pending [] := fun run hne hrun => absurd (List.prefix_nil.mp hrun) hne
  rw [next, ← String.join_nil]
  rcases onto_cases hnil "> " lines with
    ⟨more, line, rest, rfl, hpending, hbalanced, honto⟩ | ⟨hpending, honto⟩
  · rw [List.nil_append] at hpending hbalanced honto
    have hlines : more ++ line :: rest = more ++ [line] ++ rest := by simp
    refine ⟨more ++ [line], rest, hlines, hlines ▸ hpending.next hbalanced, ?_⟩
    rw [honto, continuations, if_pos hbalanced, List.length_append, List.length_singleton,
      Nat.add_sub_cancel]
  · rw [List.nil_append] at hpending honto
    have hopen : ¬ Entry.Balanced lines := hpending lines hne (List.prefix_refl _)
    have hblank : Entry.isBlank (String.join lines) = false := by
      rw [← Bool.not_eq_true]
      exact fun hblank => hopen (Entry.balanced_of_isBlank hblank)
    refine ⟨lines, [], by simp, hpending.next_self hne, ?_⟩
    rw [honto, continuations, if_neg hopen, hblank]
    rfl

/-- The readings of some entries, and a last one without an entry. -/
def ofEntries : List (List String) → List Reading
  | [] => [⟨["> "], none, []⟩]
  | entry :: later =>
    ⟨"> " :: List.replicate (continuations entry) ">> ", some (String.join entry), later.flatten⟩ ::
      ofEntries later

theorem join_map_join (entries : List (List String)) :
    String.join (entries.map String.join) = String.join entries.flatten := by
  induction entries with
  | nil => rfl
  | cons entry later ih =>
    rw [List.map_cons, String.join_cons, ih, List.flatten_cons, String.join_append]

theorem entries_ofEntries (entries : List (List String)) :
    (ofEntries entries).filterMap (·.entry) = entries.map String.join := by
  induction entries with
  | nil => rfl
  | cons entry later ih => simp [ofEntries, ih]

/-- All input is read as a sequence of entries. -/
theorem exists_entries (lines : List String) :
    ∃ entries : List (List String), entries.flatten = lines ∧ all lines = ofEntries entries ∧
      ∀ front entry back, entries = front ++ entry :: back →
        Entry.Next entry (entry ++ back.flatten) := by
  fun_induction all lines with
  | case1 lines hnone =>
    have hnil : lines = [] := by
      by_contra hne
      obtain ⟨entry, rest, -, -, hnext⟩ := next_of_ne_nil hne
      rw [hnext] at hnone
      cases hnone
    refine ⟨[], hnil.symm, ?_, by simp⟩
    rw [hnil, next_nil, ofEntries]
  | case2 lines hsome ih =>
    have hne : lines ≠ [] := by
      rintro rfl
      exact hsome (congrArg entry next_nil)
    obtain ⟨entry, rest, hlines, hentry, hnext⟩ := next_of_ne_nil hne
    obtain ⟨later, hlater, hall, hsplits⟩ := ih
    rw [hnext] at hlater hall ⊢
    refine ⟨entry :: later, by rw [List.flatten_cons, hlater, hlines], ?_, ?_⟩
    · rw [hall, ofEntries, hlater]
    · intro front entry' back hsplit
      cases front with
      | nil =>
        obtain ⟨rfl, rfl⟩ := List.cons.inj hsplit
        rw [hlater, ← hlines]
        exact hentry
      | cons _ front =>
        obtain ⟨rfl, hlater⟩ := List.cons.inj hsplit
        exact hsplits front entry' back hlater

end Reading

namespace Prompt

variable {φ : Type}

/-- The output for a reading, followed by that of `later` with the updated prompt. -/
def answerTo (p : Prompt φ) (r : Reading) (later : Prompt φ → List Output) : List Output :=
  r.cues.map .out ++
    match r.entry with
    | none => [.out "\n"]
    | some text => p.reply text ++ later (p.finish text)

theorem answerTo_cue (p : Prompt φ) (cue : String) (r : Reading)
    (later : Prompt φ → List Output) :
    p.answerTo ⟨cue :: r.cues, r.entry, r.rest⟩ later = .out cue :: p.answerTo r later := rfl

theorem answerTo_buffer (p : Prompt φ) (buffer : String) (r : Reading)
    (later : Prompt φ → List Output) :
    { p with buffer := buffer }.answerTo r later = p.answerTo r later := by
  unfold answerTo
  cases r.entry with
  | none => rfl
  | some text => rfl

def answers (p : Prompt φ) : List Reading → List Output
  | [] => []
  | r :: later => p.answerTo r fun q => q.answers later

def printed (p : Prompt φ) (lines : List String) : List Output :=
  transducer.output p lines ++
    .out (transducer.reach p lines).cue :: (transducer.reach p lines).answerEnd

theorem next_transducer : (transducer : Transducer (Prompt φ) String Output).next = next := by
  simp only [transducer]

theorem emit_transducer : (transducer : Transducer (Prompt φ) String Output).emit = emit := by
  simp only [transducer]

theorem printed_nil (p : Prompt φ) : p.printed [] = .out p.cue :: p.answerEnd := rfl

theorem printed_cons (p : Prompt φ) (line : String) (lines : List String) :
    p.printed (line :: lines) = .out p.cue :: (p.answer line ++ (p.next line).printed lines) := by
  rw [printed, Transducer.output_cons, Transducer.reach_cons, next_transducer, emit_transducer,
    emit, List.append_assoc, ← printed, List.cons_append]

theorem buffer_finish (p : Prompt φ) (text : String) : (p.finish text).buffer = "" := by
  unfold finish
  split <;> rfl

theorem cue_of_buffer {p : Prompt φ} (h : p.buffer = "") : p.cue = "> " := by
  simp [cue, h]

/-- The output for some lines begins with the reading of an entry. -/
theorem printed_eq (p : Prompt φ) {lines : List String} (hlines : ∀ line ∈ lines, line ≠ "") :
    p.printed lines = p.answerTo (Reading.onto p.cue p.buffer lines)
      fun q => q.printed (Reading.onto p.cue p.buffer lines).rest := by
  induction lines generalizing p with
  | nil =>
    rw [printed_nil, Reading.onto, answerTo, answerEnd]
    by_cases hblank : Entry.isBlank p.buffer = true
    · simp [hblank]
    · have hbuffer := p.buffer_finish p.buffer
      have hend : (p.finish p.buffer).printed [] = [.out "> ", .out "\n"] := by
        rw [printed_nil, cue_of_buffer hbuffer, answerEnd, hbuffer,
          if_pos (by simp [Entry.isBlank])]
      simp [hblank, hend]
  | cons line lines ih =>
    obtain ⟨hline, hlines⟩ := List.forall_mem_cons.mp hlines
    rw [printed_cons]
    cases hopen : Entry.isOpen (p.buffer ++ line) with
    | true =>
      have hnext : p.next line = { p with buffer := p.buffer ++ line } := by simp [next, hopen]
      have hanswer : p.answer line = [] := by simp [answer, hopen]
      have hcue : (p.next line).cue = ">> " := by
        simp [hnext, cue, hline]
      have hrest := ih (p.next line) hlines
      rw [hcue, hnext, answerTo_buffer] at hrest
      simp only [hanswer, hnext, hrest, Reading.onto_of_open hopen, answerTo_cue, List.nil_append]
    | false =>
      have hnext : p.next line = p.finish (p.buffer ++ line) := by simp [next, hopen]
      have hanswer : p.answer line = p.reply (p.buffer ++ line) := by simp [answer, hopen]
      simp only [hanswer, hnext, Reading.onto_of_closed hopen, answerTo, List.map_cons,
        List.map_nil, List.cons_append, List.nil_append]

theorem printed_next {p : Prompt φ} (hbuffer : p.buffer = "") {lines : List String}
    (hlines : ∀ line ∈ lines, line ≠ "") :
    p.printed lines =
      p.answerTo (Reading.next lines) fun q => q.printed (Reading.next lines).rest := by
  rw [p.printed_eq hlines, cue_of_buffer hbuffer, hbuffer, Reading.next]

/-- The prompt answers the entries that are read, in order. -/
theorem printed_eq_answers {p : Prompt φ} (hbuffer : p.buffer = "") {lines : List String}
    (hlines : ∀ line ∈ lines, line ≠ "") : p.printed lines = p.answers (Reading.all lines) := by
  fun_induction Reading.all lines generalizing p with
  | case1 lines hnone =>
    rw [printed_next hbuffer hlines]
    simp [answers, answerTo, hnone]
  | case2 lines hsome ih =>
    obtain ⟨text, htext⟩ := Option.ne_none_iff_exists'.mp hsome
    have hsuffix := (Reading.rest_onto_suffix "> " "" lines).trans (List.tail_suffix lines)
    have hrest : ∀ line ∈ (Reading.next lines).rest, line ≠ "" :=
      fun line hline => hlines line (hsuffix.subset hline)
    rw [printed_next hbuffer hlines]
    simp only [answers, answerTo, htext, ih (p.buffer_finish text) hrest]

end Prompt

/-- The prompt splits its input into entries, each the shortest initial segment of the remaining
lines without an open parenthesis, or all of them if there is none, until no lines are left.  For an
entry it prints one cue for each of its lines, and one more if the input ends inside of it. -/
theorem input_cut_at_balance (files : FileTree) (text : String) :
    let readings := Reading.all (Text.lines text)
    CommandLine.run files [] text.toUTF8 = ⟨0, (Prompt.start : Prompt Empty).answers readings⟩ ∧
    Text.Lined (Text.lines text) ∧ String.join (Text.lines text) = text ∧
    String.join (readings.filterMap (·.entry)) = text ∧
    ∃ entries : List (List String),
      entries.flatten = Text.lines text ∧ readings = Reading.ofEntries entries ∧
      ∀ front entry back, entries = front ++ entry :: back →
        Entry.Next entry (entry ++ back.flatten) := by
  intro readings
  have hlined := Text.lines_lined text
  have hjoin := Text.join_lines text
  obtain ⟨entries, hflatten, hreadings, hsplits⟩ := Reading.exists_entries (Text.lines text)
  refine ⟨?_, hlined, hjoin, ?_, entries, hflatten, hreadings, hsplits⟩
  · have hdecode : String.fromUTF8? text.toUTF8 = some text := dif_pos text.isValidUTF8
    have hinput : Text.Input.ofBytes text.toUTF8 = ⟨Text.lines text, false⟩ := by
      rw [Text.Input.ofBytes, hdecode]
    have hanswers : Prompt.transcript (Text.lines text) = Prompt.start.answers readings :=
      Prompt.printed_eq_answers rfl hlined.ne_empty
    rw [CommandLine.run, if_pos List.isEmpty_nil, CommandLine.runPrompt, hinput, if_neg (by simp),
      hanswers]
  · calc
      String.join (readings.filterMap (·.entry)) =
          String.join ((Reading.ofEntries entries).filterMap (·.entry)) := by rw [← hreadings]
      _ = String.join (Text.lines text) := by
        rw [Reading.entries_ofEntries, Reading.join_map_join, hflatten]
      _ = text := hjoin

-- A parenthesis that closes none does not make up for a later one, and the last line lacks its
-- newline.
example : Reading.next ["f = ) (\n", "x) .\n", "y"] =
    ⟨["> ", ">> "], some "f = ) (\nx) .\n", ["y"]⟩ := by
  decide

/-- Whether an entry defines a name, and which, is determined as soon as its expression has an open
parenthesis: for every text that follows, and wherever the entry ends, the name is the same or there
is still none, and the text is appended to the expression. -/
theorem continued_entry_keeps_definition (entry more : String)
    (hopen : Text.openings (Entry.ofText entry).source.toList ≠ 0) :
    Entry.ofText (entry ++ more) =
      ⟨(Entry.ofText entry).name, (Entry.ofText entry).source ++ more⟩ ∧
    ∀ name source, Entry.ofText entry = ⟨some name, source⟩ ↔ Entry.Defines entry name source := by
  refine ⟨?_, fun name source => Entry.ofText_eq_some_iff⟩
  rcases Entry.ofText_cases entry with ⟨name, source, hdefines⟩ | hnone
  · rw [Entry.ofText_of_defines hdefines, Entry.ofText_of_defines (hdefines.append more)]
  · rw [hnone] at hopen ⊢
    rcases Entry.ofText_cases (entry ++ more) with ⟨name, source, hdefines⟩ | hnone'
    · have hparen : '(' ∈ entry.toList := by
        by_contra hmem
        exact hopen (Text.openings_eq_zero hmem)
      obtain ⟨source', hdefines'⟩ := hdefines.of_append hparen
      rw [Entry.ofText_of_defines hdefines'] at hnone
      cases hnone
    · exact hnone'

/-- An equals sign on a later line neither makes an entry a definition nor ends one. -/
theorem continued_entry_keeps_definition_later :
    (Text.openings (Entry.ofText "g = (f\n").source.toList = 1 ∧
      Entry.ofText ("g = (f\n" ++ "x = y)\n") = ⟨some "g", "(f\nx = y)\n"⟩) ∧
    Text.openings (Entry.ofText "(f\n").source.toList = 1 ∧
      Entry.ofText ("(f\n" ++ "x = y)\n") = ⟨none, "(f\nx = y)\n"⟩ := by
  obtain ⟨hnamed, -⟩ := continued_entry_keeps_definition "g = (f\n" "x = y)\n" (by decide)
  obtain ⟨hunnamed, -⟩ := continued_entry_keeps_definition "(f\n" "x = y)\n" (by decide)
  exact ⟨⟨by decide, hnamed.trans (by decide)⟩, by decide, hunnamed.trans (by decide)⟩

-- Without an open parenthesis a later line may make a definition of a blank one.
example : (Entry.ofText "\n").name = none ∧ (Entry.ofText ("\n" ++ "x = y\n")).name = some "x" := by
  decide

end LambdaCalculus
