import LambdaCalculus.Proofs.Entries

/-! # The dialogue at the prompt

The prompt answers each entry with its compilation, with the preceding definitions as globals.  An
entry that is blank, has diagnostics or defines nothing does not affect the answers to the others:
without its lines, the input is split into the other entries, with the same answers.
-/
namespace LambdaCalculus

/-! ## Removing lines -/

namespace Text

theorem Lined.sublist {lines some : List String} (h : Lined lines) (hsome : some.Sublist lines) :
    Lined some := by
  induction hsome with
  | slnil => trivial
  | cons line _ ih => exact ih h.2
  | cons_cons line hrest ih =>
    refine ⟨?_, ih h.2⟩
    rcases h.1 with hline | ⟨rfl, hline⟩
    · exact .inl hline
    · exact .inr ⟨List.sublist_nil.mp hrest, hline⟩

theorem splitAfter_newline {body : List Char} (h : '\n' ∉ body) (text : List Char) :
    splitAfter (· = '\n') (body ++ '\n' :: text) =
      (body ++ ['\n']) :: splitAfter (· = '\n') text := by
  induction body with
  | nil => rfl
  | cons c body ih =>
    obtain ⟨hc, hbody⟩ := List.ne_and_not_mem_of_not_mem_cons h
    rw [List.cons_append, splitAfter_cons, if_neg (by simpa using Ne.symm hc), ih hbody]
    rfl

theorem splitAfter_last {line : List Char} (h : '\n' ∉ line) (hne : line ≠ []) :
    splitAfter (· = '\n') line = [line] := by
  induction line with
  | nil => exact absurd rfl hne
  | cons c line ih =>
    obtain ⟨hc, hline⟩ := List.ne_and_not_mem_of_not_mem_cons h
    rw [splitAfter_cons, if_neg (by simpa using Ne.symm hc)]
    cases line with
    | nil => rfl
    | cons c' line => rw [ih hline nofun]

theorem Lined.lines_join {lines : List String} (h : Lined lines) :
    Text.lines (String.join lines) = lines := by
  have hsplit : splitAfter (· = '\n') (lines.flatMap String.toList) = lines.map String.toList := by
    induction lines with
    | nil => rfl
    | cons line rest ih =>
      obtain ⟨hline, hrest⟩ := h
      rw [List.flatMap_cons, List.map_cons]
      rcases hline with ⟨body, hbody, hline⟩ | ⟨rfl, hne, hline⟩
      · rw [hline, List.append_assoc, List.singleton_append, splitAfter_newline hbody, ih hrest]
      · rw [List.flatMap_nil, List.append_nil, splitAfter_last hline (by simpa using hne)]
        rfl
  rw [Text.lines, String.toList_join, hsplit, List.map_map]
  simp

end Text

/-! ## Removing an entry -/

namespace Entry

variable {entry entry' lines rest : List String} {entries entries' : List (List String)}

theorem Next.unique (h : Next entry lines) (h' : Next entry' lines) : entry = entry' := by
  have hle : ∀ {e e' : List String}, Next e lines → Next e' lines → e <+: e' := by
    intro e e' h h'
    rcases h'.whole with hbalanced | ⟨rfl, -⟩
    · exact h.shortest e' h'.nonempty h'.begins hbalanced
    · exact h.begins
  exact (hle h h').eq_of_length_le (hle h' h).length_le

theorem Next.balanced (h : Next entry (entry ++ rest)) (hne : rest ≠ []) : Balanced entry := by
  rcases h.whole with hbalanced | ⟨hall, -⟩
  · exact hbalanced
  · exact absurd (List.self_eq_append_right.mp hall) hne

/-- A complete entry stays complete, whatever follows. -/
theorem Next.followed (h : Next entry (entry ++ rest)) (hbalanced : Balanced entry)
    (rest' : List String) : Next entry (entry ++ rest') where
  nonempty := h.nonempty
  begins := List.prefix_append _ _
  shortest := by
    intro run hne hrun hrunBalanced
    rcases List.prefix_or_prefix_of_prefix hrun (List.prefix_append entry rest') with
      hbefore | hafter
    · exact h.shortest run hne (hbefore.trans (List.prefix_append entry rest)) hrunBalanced
    · exact hafter
  whole := .inl hbalanced

/-- Each entry is the first entry of the lines from its own on. -/
def Cut (entries : List (List String)) : Prop :=
  ∀ front entry back, entries = front ++ entry :: back → Next entry (entry ++ back.flatten)

theorem cut_cons :
    Cut (entry :: entries) ↔ Next entry (entry ++ entries.flatten) ∧ Cut entries := by
  constructor
  · intro h
    refine ⟨h [] entry entries rfl, ?_⟩
    rintro front later back rfl
    exact h (entry :: front) later back rfl
  · rintro ⟨hentry, hlater⟩ front later back hsplit
    cases front with
    | nil =>
      obtain ⟨rfl, rfl⟩ := List.cons.inj hsplit
      exact hentry
    | cons _ front =>
      obtain ⟨-, rfl⟩ := List.cons.inj hsplit
      exact hlater front later back rfl

/-- Lines are split into entries in one way only. -/
theorem Cut.unique (h : Cut entries) (h' : Cut entries')
    (hlines : entries.flatten = entries'.flatten) : entries = entries' := by
  induction entries generalizing entries' with
  | nil =>
    cases entries' with
    | nil => rfl
    | cons entry' later' =>
      have hnil := List.append_eq_nil_iff.mp hlines.symm
      exact absurd hnil.1 (cut_cons.mp h').1.nonempty
  | cons entry later ih =>
    obtain ⟨hentry, hlater⟩ := cut_cons.mp h
    cases entries' with
    | nil =>
      have hnil := List.append_eq_nil_iff.mp hlines
      exact absurd hnil.1 hentry.nonempty
    | cons entry' later' =>
      obtain ⟨hentry', hlater'⟩ := cut_cons.mp h'
      rw [List.flatten_cons, List.flatten_cons] at hlines
      obtain rfl := hentry.unique (hlines ▸ hentry')
      rw [ih hlater hlater' (List.append_cancel_left hlines)]

/-- Without one of the entries, lines are split into the others. -/
theorem Cut.erase {front back : List (List String)} (h : Cut (front ++ entry :: back)) :
    Cut (front ++ back) := by
  induction front with
  | nil => exact (cut_cons.mp h).2
  | cons first front ih =>
    obtain ⟨hfirst, hlater⟩ := cut_cons.mp h
    have hentry : entry ≠ [] := (hlater front entry back rfl).nonempty
    have hmore : (front ++ entry :: back).flatten ≠ [] := by
      simp [hentry]
    -- The first entry is complete, since another follows, so it is cut off in the same place.
    exact cut_cons.mpr ⟨hfirst.followed (hfirst.balanced hmore) _, ih hlater⟩

end Entry

theorem Reading.all_eq_ofEntries {entries : List (List String)} (h : Entry.Cut entries) :
    all entries.flatten = ofEntries entries := by
  obtain ⟨entries', hlines, hall, hsplits⟩ := exists_entries entries.flatten
  rw [hall, h.unique hsplits hlines.symm]

/-! ## Exchanges -/

variable {φ : Type}

/-- An entry, its compilation, and the machine after it. -/
structure Exchange (φ : Type) where
  text : String
  /-- `none` for a blank entry. -/
  compilation : Option (Compilation φ)
  machine : Machine φ

namespace Exchange

/-- There is no definition if the entry is blank, has no name or has diagnostics. -/
def definition? (x : Exchange φ) : Option (String × Value φ) :=
  match (Entry.ofText x.text).name, x.compilation with
  | some name, some c => if c.isOk then some (name, c.value) else none
  | _, _ => none

theorem name_definition? (x : Exchange φ) : x.definition?.map (·.1) =
    if x.compilation.any (·.isOk) then (Entry.ofText x.text).name else none := by
  obtain ⟨text, compilation, m⟩ := x
  unfold definition?
  cases (Entry.ofText text).name with
  | none => simp
  | some name =>
    cases compilation with
    | none => rfl
    | some c => cases hok : c.isOk <;> simp [hok]

def answer (x : Exchange φ) : List Output :=
  match x.compilation with
  | none => []
  | some c =>
    if c.isOk then [.out (c.program.code.render ++ "\n")]
    else c.diagnostics.map fun d => .err ("stdin:" ++ d.text ++ "\n")

/-- One cue for each line requested for the entry, including one that the input does not have. -/
def cues (x : Exchange φ) : List Output :=
  .out "> " :: List.replicate (Reading.continuations (Text.lines x.text)) (.out ">> ")

end Exchange

abbrev Dialogue (φ : Type) := List (Exchange φ)

namespace Dialogue

def globals (d : Dialogue φ) : Globals φ := d.filterMap (·.definition?)

def machine (d : Dialogue φ) : Machine φ := (d.getLast?.map (·.machine)).getD .empty

/-- The exchange for an entry: unless it is blank, its expression is compiled with the definitions
so far as globals. -/
def exchange (d : Dialogue φ) (text : String) : Exchange φ :=
  if Entry.isBlank text then ⟨text, none, d.machine⟩
  else
    let (c, m) := compile d.globals (Entry.ofText text).source d.machine
    ⟨text, some c, m⟩

def continued (d : Dialogue φ) : List String → Dialogue φ
  | [] => []
  | text :: later => d.exchange text :: continued (d ++ [d.exchange text]) later

/-- The output: the cues and the answers, and a last cue at the end of the input. -/
def printed (d : Dialogue φ) : List Output :=
  d.flatMap (fun x => x.cues ++ x.answer) ++ [.out "> ", .out "\n"]

variable (d : Dialogue φ) (text : String) (x : Exchange φ)

theorem globals_concat : globals (d ++ [x]) = d.globals ++ x.definition?.toList := by
  rw [globals, List.filterMap_append]
  cases hx : x.definition? <;> simp [globals, hx]

theorem machine_concat : machine (d ++ [x]) = x.machine := by
  simp [machine]

theorem text_exchange : (d.exchange text).text = text := by
  unfold exchange
  split <;> rfl

def prompt : Prompt φ := ⟨d.machine, d.globals, ""⟩

theorem reply_prompt : d.prompt.reply text = (d.exchange text).answer := by
  unfold Prompt.reply exchange
  split <;> rfl

theorem define_prompt (c : Compilation φ) (m : Machine φ) :
    d.prompt.define (Entry.ofText text).name c =
      d.globals ++ (Exchange.mk text (some c) m).definition?.toList := by
  unfold Prompt.define Exchange.definition?
  cases (Entry.ofText text).name with
  | none => simp [prompt]
  | some name => cases hok : c.isOk <;> simp [prompt, hok]

theorem finish_prompt : d.prompt.finish text = prompt (d ++ [d.exchange text]) := by
  have hafter : prompt (d ++ [d.exchange text]) =
      ⟨(d.exchange text).machine, d.globals ++ (d.exchange text).definition?.toList, ""⟩ := by
    rw [prompt, globals_concat, machine_concat]
  rw [hafter]
  unfold Prompt.finish exchange
  split
  · simp [prompt, Exchange.definition?]
  · simp only [← define_prompt]
    rfl

/-- The prompt answers entries by their exchanges. -/
theorem answers_prompt {entries : List (List String)} (hlined : Text.Lined entries.flatten) :
    d.prompt.answers (Reading.ofEntries entries) =
      printed (d.continued (entries.map String.join)) := by
  induction entries generalizing d with
  | nil => rfl
  | cons entry later ih =>
    have hentry : Text.lines (String.join entry) = entry :=
      (hlined.sublist (List.sublist_append_left _ _)).lines_join
    have hlater := hlined.sublist (List.sublist_append_right _ _)
    simp only [Reading.ofEntries, Prompt.answers, Prompt.answerTo, List.map_cons, continued,
      finish_prompt, reply_prompt, ih _ hlater]
    simp [printed, Exchange.cues, text_exchange, hentry]

end Dialogue

/-! ## Definitions by name -/

/-- Code and diagnostics depend only on the names of the globals. -/
theorem compile_of_names {globals globals' : Globals φ}
    (h : globals.map (·.1) = globals'.map (·.1)) (source : String) (m m' : Machine φ) :
    (compile globals source m).1.program = (compile globals' source m').1.program ∧
      (compile globals source m).1.diagnostics = (compile globals' source m').1.diagnostics := by
  obtain ⟨v, m₁, -, hcompile⟩ := compile_eq globals source m
  obtain ⟨v', m₁', -, hcompile'⟩ := compile_eq globals' source m'
  rw [hcompile, hcompile', h]
  exact ⟨rfl, rfl⟩

namespace Dialogue

variable {d d' : Dialogue φ}

/-- After definitions of the same names, an entry has the same answer and defines the same name. -/
theorem exchange_of_names (h : d.globals.map (·.1) = d'.globals.map (·.1)) (text : String) :
    (d.exchange text).answer = (d'.exchange text).answer ∧
      (d.exchange text).definition?.map (·.1) = (d'.exchange text).definition?.map (·.1) := by
  obtain ⟨hprogram, hdiagnostics⟩ :=
    compile_of_names h (Entry.ofText text).source d.machine d'.machine
  unfold exchange
  split
  · exact ⟨rfl, rfl⟩
  · simp only [Exchange.answer, Exchange.name_definition?, Option.any_some, Compilation.isOk,
      hprogram, hdiagnostics]
    exact ⟨rfl, rfl⟩

theorem printed_of_names (h : d.globals.map (·.1) = d'.globals.map (·.1)) (entries : List String) :
    printed (d.continued entries) = printed (d'.continued entries) := by
  induction entries generalizing d d' with
  | nil => rfl
  | cons text later ih =>
    obtain ⟨hanswer, hname⟩ := exchange_of_names h text
    have hlater : (globals (d ++ [d.exchange text])).map (·.1) =
        (globals (d' ++ [d'.exchange text])).map (·.1) := by
      simp only [globals_concat, List.map_append, h, ← Option.toList_map, hname]
    have hrest := ih hlater
    -- Cues depend on the lines only, and these are the same.
    have hcues : (d.exchange text).cues = (d'.exchange text).cues := by
      rw [Exchange.cues, Exchange.cues, text_exchange, text_exchange]
    simp only [printed, continued, List.flatMap_cons, hanswer, hcues, List.append_assoc] at hrest ⊢
    rw [hrest]

variable (d : Dialogue φ)

theorem text_continued (entries : List String) :
    (d.continued entries).map (·.text) = entries := by
  induction entries generalizing d with
  | nil => rfl
  | cons text later ih => rw [continued, List.map_cons, text_exchange, ih]

theorem continued_append (front back : List String) :
    d.continued (front ++ back) =
      d.continued front ++ continued (d ++ d.continued front) back := by
  induction front generalizing d with
  | nil => simp [continued]
  | cons text front ih => simp [continued, ih]

theorem exchange_of_continued {entries : List String} {front back : Dialogue φ} {x : Exchange φ}
    (h : d.continued entries = front ++ x :: back) :
    x = exchange (d ++ front) x.text ∧
      front = d.continued (front.map (·.text)) ∧
      back = continued (d ++ front ++ [x]) (back.map (·.text)) := by
  have hentries : entries = front.map (·.text) ++ x.text :: back.map (·.text) := by
    rw [← d.text_continued entries, h]
    simp
  rw [hentries, continued_append, continued] at h
  have hlength : (d.continued (front.map (·.text))).length = front.length := by
    simpa using congrArg List.length (d.text_continued (front.map (·.text)))
  obtain ⟨hfront, hrest⟩ := List.append_inj h hlength
  rw [hfront] at hrest
  obtain ⟨hx, hback⟩ := List.cons.inj hrest
  rw [hx] at hback
  exact ⟨hx.symm, hfront.symm, hback.symm⟩

/-- An exchange without a definition can be left out. -/
theorem printed_others {entries : List String} {front back : Dialogue φ} {x : Exchange φ}
    (h : continued [] entries = front ++ x :: back) (hx : x.definition? = none) :
    printed (φ := φ) (continued [] ((front ++ back).map (·.text))) = printed (front ++ back) := by
  obtain ⟨-, hfront, hback⟩ := exchange_of_continued [] h
  have hglobals : globals (front ++ [x]) = front.globals := by
    rw [globals_concat, hx]
    exact List.append_nil _
  have hlater : printed (front.continued (back.map (·.text))) = printed back := by
    rw [hback, text_continued]
    exact printed_of_names (by rw [List.nil_append, hglobals]) _
  have happend (later : Dialogue φ) :
      printed (front ++ later) = front.flatMap (fun x => x.cues ++ x.answer) ++ printed later := by
    simp [printed]
  rw [List.map_append, continued_append, ← hfront, List.nil_append, happend, hlater, happend]

end Dialogue

/-! ## The program -/

def Prompt.entries (text : String) : List String :=
  (Reading.all (Text.lines text)).filterMap (·.entry)

theorem CommandLine.run_prompt (files : FileTree) (text : String) :
    run files [] text.toUTF8 = ⟨0, Prompt.transcript (Text.lines text)⟩ := by
  have hdecode : String.fromUTF8? text.toUTF8 = some text := dif_pos text.isValidUTF8
  rw [run, if_pos List.isEmpty_nil, runPrompt, Text.Input.ofBytes, hdecode]
  rfl

section Run

variable (files : FileTree) {entries : List (List String)} (hcut : Entry.Cut entries)
  (hlined : Text.Lined entries.flatten)
include hcut hlined

/-- Lines that are split into entries are read as these, and their exchanges are printed. -/
theorem run_of_cut :
    Prompt.entries (String.join entries.flatten) = entries.map String.join ∧
      CommandLine.run files [] (String.join entries.flatten).toUTF8 =
        ⟨0, Dialogue.printed (φ := Empty) (Dialogue.continued [] (entries.map String.join))⟩ := by
  have hall := Reading.all_eq_ofEntries hcut
  rw [Prompt.entries, CommandLine.run_prompt, hlined.lines_join]
  refine ⟨by rw [hall, Reading.entries_ofEntries], ?_⟩
  have hprinted : Prompt.transcript entries.flatten =
      Dialogue.printed (Dialogue.continued [] (entries.map String.join)) :=
    calc
      Prompt.transcript entries.flatten = Prompt.start.answers (Reading.all entries.flatten) :=
        Prompt.printed_eq_answers rfl hlined.ne_empty
      _ = Prompt.start.answers (Reading.ofEntries entries) := by rw [hall]
      _ = _ := Dialogue.answers_prompt [] hlined
  rw [hprinted]

/-- Without the lines of an entry that defines nothing, the others are read and answered as before.
-/
theorem run_of_others {front back : Dialogue Empty} {x : Exchange Empty}
    (hsplit : Dialogue.continued [] (entries.map String.join) = front ++ x :: back)
    (hx : x.definition? = none) :
    let remaining := String.join ((front ++ back).map (·.text))
    Prompt.entries remaining = (front ++ back).map (·.text) ∧
      CommandLine.run files [] remaining.toUTF8 = ⟨0, Dialogue.printed (front ++ back)⟩ := by
  intro remaining
  have htexts : entries.map String.join = front.map (·.text) ++ x.text :: back.map (·.text) := by
    rw [← Dialogue.text_continued [] (entries.map String.join), hsplit, List.map_append,
      List.map_cons]
  obtain ⟨before, rest, rfl, hbefore, hrest⟩ := List.map_eq_append_iff.mp htexts
  obtain ⟨entry, after, rfl, -, hafter⟩ := List.map_eq_cons_iff.mp hrest
  have hothers : (before ++ after).map String.join = (front ++ back).map (·.text) := by
    rw [List.map_append, hbefore, hafter, List.map_append]
  have hremaining : String.join (before ++ after).flatten = remaining := by
    rw [← Reading.join_map_join, hothers]
  have hlined' : Text.Lined (before ++ after).flatten := by
    refine hlined.sublist ?_
    rw [List.flatten_append, List.flatten_append, List.flatten_cons]
    exact (List.sublist_append_right entry after.flatten).append_left before.flatten
  have hrun := run_of_cut files hcut.erase hlined'
  rw [hremaining, hothers, Dialogue.printed_others hsplit hx] at hrun
  exact hrun

end Run

/-- On every input text, the program prints the exchanges for its entries.  Each entry is answered
with its code, or with its diagnostics, compiled with exactly the preceding definitions as globals,
in order; a blank one is not answered.  Without an entry that is blank, has diagnostics or defines
nothing, the input consists of the other entries, with the same output for them. -/
theorem entries_answered_by_definitions (files : FileTree) (text : String) :
    let dialogue : Dialogue Empty := Dialogue.continued [] (Prompt.entries text)
    CommandLine.run files [] text.toUTF8 = ⟨0, dialogue.printed⟩ ∧
    dialogue.map (·.text) = Prompt.entries text ∧ String.join (Prompt.entries text) = text ∧
    ∀ (front back : Dialogue Empty) (x : Exchange Empty), dialogue = front ++ x :: back →
      x = front.exchange x.text ∧
      (x.definition? = none →
        let others : Dialogue Empty := front ++ back
        let remaining := String.join (others.map (·.text))
        Prompt.entries remaining = others.map (·.text) ∧
        CommandLine.run files [] remaining.toUTF8 = ⟨0, others.printed⟩) := by
  intro dialogue
  obtain ⟨entries, hlines, -, hcut⟩ := Reading.exists_entries (Text.lines text)
  have hlined : Text.Lined entries.flatten := hlines ▸ Text.lines_lined text
  have htext : String.join entries.flatten = text := by
    rw [hlines, Text.join_lines]
  obtain ⟨hentries, hrun⟩ := run_of_cut files hcut hlined
  rw [htext] at hentries hrun
  refine ⟨?_, Dialogue.text_continued [] _, ?_, ?_⟩
  · rw [hrun, ← hentries]
  · rw [hentries, Reading.join_map_join, htext]
  · intro front back x hsplit
    refine ⟨(Dialogue.exchange_of_continued [] hsplit).1, ?_⟩
    exact run_of_others files hcut hlined (hentries ▸ hsplit)

/-- The second entry spans two lines, and a variable in it is unbound. -/
def failingText : String := "i = \\x.x\n(i\ny)\ni i\n"

theorem entries_answered_by_definitions_failing :
    CommandLine.run .empty [] failingText.toUTF8 =
      ⟨0, [.out "> ", .out "(|$x| $x)\n", .out "> ", .out ">> ",
        .err "stdin:2:1: unresolved variable `y`\n", .out "> ", .out "$i($i)\n", .out "> ",
        .out "\n"]⟩ ∧
    CommandLine.run .empty [] "i = \\x.x\ni i\n".toUTF8 =
      ⟨0, [.out "> ", .out "(|$x| $x)\n", .out "> ", .out "$i($i)\n", .out "> ", .out "\n"]⟩ := by
  have hlines : Text.lines failingText = ["i = \\x.x\n", "(i\n", "y)\n", "i i\n"] := by decide
  have hfirst : Reading.next ["i = \\x.x\n", "(i\n", "y)\n", "i i\n"] =
      ⟨["> "], some "i = \\x.x\n", ["(i\n", "y)\n", "i i\n"]⟩ := by decide
  have hsecond : Reading.next ["(i\n", "y)\n", "i i\n"] =
      ⟨["> ", ">> "], some "(i\ny)\n", ["i i\n"]⟩ := by decide
  have hthird : Reading.next ["i i\n"] = ⟨["> "], some "i i\n", []⟩ := by decide
  have hentries : Prompt.entries failingText = ["i = \\x.x\n", "(i\ny)\n", "i i\n"] := by
    rw [Prompt.entries, hlines, Reading.all, hfirst, if_neg nofun, Reading.all, hsecond,
      if_neg nofun, Reading.all, hthird, if_neg nofun, Reading.all, Reading.next_nil, if_pos rfl]
    rfl
  obtain ⟨hrun, -, -, hsplit⟩ := entries_answered_by_definitions .empty failingText
  rw [hentries] at hrun hsplit
  let front : Dialogue Empty := Dialogue.continued [] ["i = \\x.x\n"]
  let x := front.exchange "(i\ny)\n"
  have hx : x.definition? = none := Option.isNone_iff_eq_none.mp (by decide)
  obtain ⟨-, hrun'⟩ := (hsplit front (Dialogue.continued (front ++ [x]) ["i i\n"]) x rfl).2 hx
  refine ⟨hrun.trans ?_, Eq.trans ?_ (hrun'.trans ?_)⟩
  · exact congrArg _ (by decide)
  · exact congrArg (fun text : String => CommandLine.run .empty [] text.toUTF8) (by decide)
  · exact congrArg _ (by decide)

end LambdaCalculus
