import LambdaCalculus.Proofs.Reading
import LambdaCalculus.Proofs.Stream

/-! # Recursive descent

The grammar can be parsed by mutually recursive functions, one for each of its parts.  They take
tokens from a stream, one at a time.  A missing part of an abstraction is reported, and no token is
consumed for it.  A group does not look for its closing parenthesis: if there is none, the last
diagnostic since it was opened is that the text ends, and this diagnostic is attributed to the
group.

The functions have a bound on the depth of recursion, and no result if it is reached.  Every bound
above the number of tokens suffices, with the same result.  The tree and the diagnostics are those
of the reader with its stack of open groups; the stack corresponds to the pending calls.
-/
namespace LambdaCalculus

/-- The diagnostic is that the text ends.  An unclosed group is a diagnostic of its own. -/
def Diagnostic.isAtEnd : Diagnostic → Bool
  | .unexpected t | .emptyExpression t | .missingParameter t | .missingDelimiter t => t.isEndOfFile
  | _ => false

namespace Expr

open Token (Kind Scanned Stream)

namespace Descent

structure State where
  stream : Stream
  problems : List Diagnostic
  deriving DecidableEq, Repr

namespace State

def start (source : String) : State := ⟨.start source, []⟩

def current (s : State) : Token := s.stream.current

def advance (s : State) : State := { s with stream := s.stream.advance }

def report (s : State) (d : Diagnostic) : State := { s with problems := s.problems ++ [d] }

def parameter (s : State) : Option Token × State :=
  if s.current.kind = .identifier then (some s.current, s.advance)
  else (none, s.report (.missingParameter s.current))

def delimiter (s : State) : State :=
  if s.current.kind = .bodyDelimiter then s.advance
  else s.report (.missingDelimiter s.current)

/-- Leaves a group that was opened after `known` diagnostics.  If the last one since then is that
the text ends, it is attributed to the group; otherwise the closing parenthesis is consumed. -/
def leave (s : State) (opening : Token) (known : Nat) : State :=
  match (s.problems.drop known).getLast? with
  | none => s.advance
  | some last =>
    if last.isAtEnd then
      { s with problems := s.problems.dropLast ++ [.unclosedGroup opening last] }
    else s.advance

end State

section Parts

variable (expression : Kind → Expr → Bool → State → Option (Expr × State))

def group (s : State) : Option (Expr × State) := do
  let (e, inner) ← expression .groupClose .empty false s.advance
  return (e, inner.leave s.current s.problems.length)

def abstraction (terminator : Kind) (s : State) : Option (Expr × State) := do
  let header := s.advance.parameter
  let (body, inner) ← expression terminator .empty false header.2.delimiter
  return (.lambda s.current header.1 body, inner)

end Parts

/-- Parses terms up to a token of the given kind, which is not consumed, and appends them to the
given ones. -/
def expression : (bound : Nat) → Kind → Expr → Bool → State → Option (Expr × State)
  | 0, _, _, _, _ => none
  | bound + 1, terminator, terms, hasTerm, s =>
    if s.current.kind = terminator then
      some (terms, if hasTerm then s else s.report (.emptyExpression s.current))
    else
      match s.current.kind with
      | .identifier => expression bound terminator (terms.apply (.var s.current)) true s.advance
      | .binder => do
        -- The body reaches to the terminator, so that this expression ends with it.
        let (e, s) ← abstraction (expression bound) terminator s
        return (terms.apply e, s)
      | .groupOpen => do
        let (e, s) ← group (expression bound) s
        expression bound terminator (terms.apply e) true s
      | .bodyDelimiter | .groupClose =>
        expression bound terminator terms hasTerm (s.report (.unexpected s.current)).advance
      | .endOfFile => some (terms, s.report (.unexpected s.current))

def descend (bound : Nat) (source : String) : Option (Expr × State) :=
  expression bound .endOfFile .empty false (.start source)

end Descent

/-! ## The reader from the middle of a text -/

def Parsed.after (p : Parsed) (before : List Diagnostic) : Parsed :=
  ⟨p.expr, before ++ p.diagnostics⟩

theorem Parsed.after_nil (p : Parsed) : p.after [] = p := rfl

theorem Parsed.after_after (p : Parsed) (ds before : List Diagnostic) :
    (p.after ds).after before = p.after (before ++ ds) := by
  simp [after]

namespace Reader

/-- The result of the reader on the rest of a text. -/
def outcome (r : Reader) (rest : Scanned) : Parsed :=
  ⟨(transducer.reach r rest.tokens).finish,
    transducer.output r rest.tokens ++ (transducer.reach r rest.tokens).atEnd rest.endOfFile⟩

theorem outcome_cons (r : Reader) (t : Token) (ts : List Token) (eof : Token) :
    r.outcome ⟨t :: ts, eof⟩ = ((r.next t).outcome ⟨ts, eof⟩).after (r.emit t) := by
  rw [outcome, Transducer.output_cons, Transducer.reach_cons, List.append_assoc]
  rfl

variable {l : Level} {groups : List (Token × Level)} {opened : List Opened} {terms : Expr}
  {hasTerm : Bool} {t b : Token} {p : Option Token} {ts : List Token} {eof : Token}

theorem outcome_identifier (ht : t.kind = .identifier) :
    (Reader.mk l groups .none).outcome ⟨t :: ts, eof⟩ =
      (Reader.mk (l.add (.var t)) groups .none).outcome ⟨ts, eof⟩ := by
  simp [outcome_cons, next, accept, emit, complain, ht, Parsed.after_nil]

theorem outcome_binder (ht : t.kind = .binder) :
    (Reader.mk l groups .none).outcome ⟨t :: ts, eof⟩ =
      (Reader.mk l groups (.binder t)).outcome ⟨ts, eof⟩ := by
  simp [outcome_cons, next, accept, emit, complain, ht, Parsed.after_nil]

theorem outcome_groupOpen (ht : t.kind = .groupOpen) :
    (Reader.mk l groups .none).outcome ⟨t :: ts, eof⟩ =
      (Reader.mk .start ((t, l) :: groups) .none).outcome ⟨ts, eof⟩ := by
  simp [outcome_cons, next, accept, emit, complain, ht, Parsed.after_nil]

theorem outcome_bodyDelimiter (ht : t.kind = .bodyDelimiter) :
    (Reader.mk l groups .none).outcome ⟨t :: ts, eof⟩ =
      ((Reader.mk l groups .none).outcome ⟨ts, eof⟩).after [.unexpected t] := by
  simp [outcome_cons, next, accept, emit, complain, ht]

theorem outcome_groupClose_stray (ht : t.kind = .groupClose) :
    (Reader.mk l [] .none).outcome ⟨t :: ts, eof⟩ =
      ((Reader.mk l [] .none).outcome ⟨ts, eof⟩).after [.unexpected t] := by
  simp [outcome_cons, next, accept, emit, complain, ht]

def emptyAt (t : Token) (hasTerm : Bool) : List Diagnostic :=
  if hasTerm then [] else [.emptyExpression t]

theorem outcome_groupClose {o : Token} {outer : Level} (ht : t.kind = .groupClose) :
    (Reader.mk l ((o, outer) :: groups) .none).outcome ⟨t :: ts, eof⟩ =
      ((Reader.mk (outer.add l.close) groups .none).outcome ⟨ts, eof⟩).after
        (emptyAt t l.hasTerm) := by
  simp [outcome_cons, next, accept, emit, complain, emptyAt, ht]

theorem outcome_end :
    (Reader.mk l [] .none).outcome ⟨[], eof⟩ = ⟨l.close, emptyAt eof l.hasTerm⟩ := by
  cases h : l.hasTerm <;>
    simp [outcome, finish, settle, atEnd, headerAtEnd, groupsAtEnd, emptyAt, h]

theorem outcome_end_group {o : Token} {outer : Level} :
    (Reader.mk l ((o, outer) :: groups) .none).outcome ⟨[], eof⟩ =
      ((Reader.mk (outer.add l.close) groups .none).outcome ⟨[], eof⟩).after
        [.unclosedGroup o (.unexpected eof)] := by
  cases groups <;>
    simp [outcome, finish, settle, atEnd, headerAtEnd, groupsAtEnd, Parsed.after]

/-! The header of an abstraction is read in two stages.  A token that does not belong to a stage is
left to the next one. -/

theorem outcome_parameter (ht : t.kind = .identifier) :
    (Reader.mk l groups (.binder b)).outcome ⟨t :: ts, eof⟩ =
      (Reader.mk l groups (.parameter b (some t))).outcome ⟨ts, eof⟩ := by
  simp [outcome_cons, next, emit, ht, Parsed.after_nil]

theorem outcome_missingParameter (ht : t.kind ≠ .identifier) :
    (Reader.mk l groups (.binder b)).outcome ⟨t :: ts, eof⟩ =
      ((Reader.mk l groups (.parameter b none)).outcome ⟨t :: ts, eof⟩).after
        [.missingParameter t] := by
  rw [outcome_cons, outcome_cons, Parsed.after_after]
  cases hk : t.kind <;> simp_all [next, emit, enter]

theorem outcome_missingParameter_end :
    (Reader.mk l groups (.binder b)).outcome ⟨[], eof⟩ =
      ((Reader.mk l groups (.parameter b none)).outcome ⟨[], eof⟩).after
        [.missingParameter eof] := by
  simp [outcome, finish, settle, atEnd, headerAtEnd, enter, Parsed.after]

theorem outcome_delimiter (ht : t.kind = .bodyDelimiter) :
    (Reader.mk l groups (.parameter b p)).outcome ⟨t :: ts, eof⟩ =
      (Reader.mk (l.enter b p) groups .none).outcome ⟨ts, eof⟩ := by
  simp [outcome_cons, next, emit, enter, ht, Parsed.after_nil]

theorem outcome_missingDelimiter (ht : t.kind ≠ .bodyDelimiter) :
    (Reader.mk l groups (.parameter b p)).outcome ⟨t :: ts, eof⟩ =
      ((Reader.mk (l.enter b p) groups .none).outcome ⟨t :: ts, eof⟩).after
        [.missingDelimiter t] := by
  rw [outcome_cons, outcome_cons, Parsed.after_after]
  cases hk : t.kind <;> simp_all [next, emit, enter]

theorem outcome_missingDelimiter_end :
    (Reader.mk l groups (.parameter b p)).outcome ⟨[], eof⟩ =
      ((Reader.mk (l.enter b p) groups .none).outcome ⟨[], eof⟩).after
        [.missingDelimiter eof] := by
  simp [outcome, finish, settle, atEnd, headerAtEnd, enter, Parsed.after]

end Reader

/-! ## Descent and the reader -/

namespace Descent

/-- A transition between two states, after which `rest` are the remaining tokens: no token is lost,
and the diagnostics are those reported in between.  Unless the text ends, none of them is that it
does. -/
structure Path (s : State) (ts : List Token) (eof : Token) (s' : State) (rest : List Token)
    (ds : List Diagnostic) : Prop where
  whole : s'.stream.whole = s.stream.whole
  ahead : s'.stream.ahead = ⟨rest, eof⟩
  length_le : rest.length ≤ ts.length
  problems : s'.problems = s.problems ++ ds
  quiet : rest ≠ [] → ∀ d ∈ ds, d.isAtEnd = false

variable {s s₁ s₂ : State} {ts ts₁ ts₂ : List Token} {t eof : Token} {ds₁ ds₂ : List Diagnostic}

namespace Path

theorem refl (h : s.stream.ahead = ⟨ts, eof⟩) : Path s ts eof s ts [] :=
  ⟨rfl, h, Nat.le_refl _, (List.append_nil _).symm, by simp⟩

theorem trans (h₁ : Path s ts eof s₁ ts₁ ds₁) (h₂ : Path s₁ ts₁ eof s₂ ts₂ ds₂) :
    Path s ts eof s₂ ts₂ (ds₁ ++ ds₂) where
  whole := h₂.whole.trans h₁.whole
  ahead := h₂.ahead
  length_le := Nat.le_trans h₂.length_le h₁.length_le
  problems := by rw [h₂.problems, h₁.problems, List.append_assoc]
  quiet hne := by
    have hne₁ : ts₁ ≠ [] := by
      rintro rfl
      exact hne (List.eq_nil_of_length_eq_zero (Nat.le_zero.mp h₂.length_le))
    intro d hd
    rcases List.mem_append.mp hd with hd | hd
    · exact h₁.quiet hne₁ d hd
    · exact h₂.quiet hne d hd

theorem advance (h : s.stream.ahead = ⟨t :: ts, eof⟩) : Path s (t :: ts) eof s.advance ts [] :=
  ⟨Stream.whole_advance h, Stream.ahead_advance h, by simp, (List.append_nil _).symm, by simp⟩

theorem report {d : Diagnostic} (h : s.stream.ahead = ⟨ts, eof⟩)
    (hd : ts ≠ [] → d.isAtEnd = false) : Path s ts eof (s.report d) ts [d] :=
  ⟨rfl, h, Nat.le_refl _, rfl, by simpa using hd⟩

end Path

theorem isEndOfFile_of_ahead (h : s.stream.ahead = ⟨t :: ts, eof⟩) : t.isEndOfFile = false := by
  have hkind := (Stream.kind_of_ahead h).1 t List.mem_cons_self
  simpa [Token.isEndOfFile] using hkind

theorem parameter_reads (h : s.stream.ahead = ⟨ts, eof⟩) :
    ∃ rest ds, Path s ts eof s.parameter.2 rest ds ∧
      ∀ l groups b, (Reader.mk l groups (.binder b)).outcome ⟨ts, eof⟩ =
        ((Reader.mk l groups (.parameter b s.parameter.1)).outcome ⟨rest, eof⟩).after ds := by
  unfold State.parameter
  cases ts with
  | nil =>
    have hcurrent : s.current = eof := Stream.current_of_ahead_nil h
    have hkind : eof.kind ≠ .identifier := by simp [(Stream.kind_of_ahead h).2]
    rw [hcurrent, if_neg hkind]
    exact ⟨[], _, .report h (by simp), fun _ _ _ => Reader.outcome_missingParameter_end⟩
  | cons t ts =>
    have hcurrent : s.current = t := Stream.current_of_ahead_cons h
    rw [hcurrent]
    by_cases hkind : t.kind = .identifier
    · rw [if_pos hkind]
      exact ⟨ts, [], .advance h, fun _ _ _ => Reader.outcome_parameter hkind⟩
    · rw [if_neg hkind]
      exact ⟨t :: ts, _, .report h fun _ => isEndOfFile_of_ahead h,
        fun _ _ _ => Reader.outcome_missingParameter hkind⟩

theorem delimiter_reads (h : s.stream.ahead = ⟨ts, eof⟩) :
    ∃ rest ds, Path s ts eof s.delimiter rest ds ∧
      ∀ l groups b p, (Reader.mk l groups (.parameter b p)).outcome ⟨ts, eof⟩ =
        ((Reader.mk (l.enter b p) groups .none).outcome ⟨rest, eof⟩).after ds := by
  unfold State.delimiter
  cases ts with
  | nil =>
    have hcurrent : s.current = eof := Stream.current_of_ahead_nil h
    have hkind : eof.kind ≠ .bodyDelimiter := by simp [(Stream.kind_of_ahead h).2]
    rw [hcurrent, if_neg hkind]
    exact ⟨[], _, .report h (by simp), fun _ _ _ _ => Reader.outcome_missingDelimiter_end⟩
  | cons t ts =>
    have hcurrent : s.current = t := Stream.current_of_ahead_cons h
    rw [hcurrent]
    by_cases hkind : t.kind = .bodyDelimiter
    · rw [if_pos hkind]
      exact ⟨ts, [], .advance h, fun _ _ _ _ => Reader.outcome_delimiter hkind⟩
    · rw [if_neg hkind]
      exact ⟨t :: ts, _, .report h fun _ => isEndOfFile_of_ahead h,
        fun _ _ _ _ => Reader.outcome_missingDelimiter hkind⟩

/-- The groups around an expression that ends with a token of the given kind. -/
def Fits (groups : List (Token × Level)) : Kind → Prop
  | .groupClose => groups ≠ []
  | .endOfFile => groups = []
  | _ => False

/-- The diagnostics of an expression that the end of the text interrupts. -/
def cutShort (terminator : Kind) (eof : Token) (rest : List Token) : List Diagnostic :=
  if terminator = .groupClose ∧ rest = [] then [.unexpected eof] else []

/-- An expression that continues the given terms is parsed to its end.  The result is that of the
reader on a level of its own, inside any abstractions begun before. -/
def Reads (terminator : Kind) (terms : Expr) (hasTerm : Bool) (s : State) (ts : List Token)
    (eof : Token) : Prop :=
  ∃ e s' rest ds,
    (∀ bound, ts.length < bound → expression bound terminator terms hasTerm s = some (e, s')) ∧
    Path s ts eof s' rest (ds ++ cutShort terminator eof rest) ∧
    (∀ t ∈ rest.head?, terminator = .groupClose ∧ t.kind = .groupClose) ∧
    ∀ opened groups, Fits groups terminator →
      (Reader.mk ⟨opened, terms, hasTerm⟩ groups .none).outcome ⟨ts, eof⟩ =
        ((Reader.mk ⟨[], Level.around opened e, true⟩ groups .none).outcome ⟨rest, eof⟩).after ds

theorem above_of_succ {enough : Nat → Prop} {n : Nat}
    (h : ∀ bound, n ≤ bound → enough (bound + 1)) : ∀ bound, n < bound → enough bound
  | bound + 1, hbound => h bound (Nat.le_of_lt_succ hbound)

theorem Reads.of_path {terminator : Kind} {terms terms' : Expr} {hasTerm hasTerm' : Bool}
    (h : Reads terminator terms' hasTerm' s₁ ts₁ eof)
    (hexpr : ∀ bound, ts.length ≤ bound → expression (bound + 1) terminator terms hasTerm s =
      expression bound terminator terms' hasTerm' s₁)
    (hpath : Path s ts eof s₁ ts₁ ds₁) (hlt : ts₁.length < ts.length)
    (houtcome : ∀ opened groups, Fits groups terminator →
      (Reader.mk ⟨opened, terms, hasTerm⟩ groups .none).outcome ⟨ts, eof⟩ =
        ((Reader.mk ⟨opened, terms', hasTerm'⟩ groups .none).outcome ⟨ts₁, eof⟩).after ds₁) :
    Reads terminator terms hasTerm s ts eof := by
  obtain ⟨e, s', rest, ds, hexpr', hpath', hstop, houtcome'⟩ := h
  refine ⟨e, s', rest, ds₁ ++ ds, ?_, ?_, hstop, ?_⟩
  · refine above_of_succ fun bound hbound => ?_
    exact (hexpr bound hbound).trans (hexpr' bound (Nat.lt_of_lt_of_le hlt hbound))
  · simpa using hpath.trans hpath'
  · intro opened groups hfits
    rw [houtcome _ _ hfits, houtcome' _ _ hfits, Parsed.after_after]

/-- A group parsed up to its closing parenthesis is left after it. -/
theorem leave_closed (opening : Token) {rest : List Token} {ds : List Diagnostic}
    (h : Path s ts eof s₁ (t :: rest) ds) :
    Path s ts eof (s₁.leave opening s.problems.length) rest ds := by
  have hleave : s₁.leave opening s.problems.length = s₁.advance := by
    unfold State.leave
    rw [h.problems, List.drop_left]
    cases hlast : ds.getLast? with
    | none => rfl
    | some last =>
      have hquiet := h.quiet (by simp) last (List.mem_of_getLast? hlast)
      simp [hquiet]
  rw [hleave]
  simpa using h.trans (.advance h.ahead)

/-- The end of the text inside a group is attributed to the group. -/
theorem leave_unclosed (opening : Token) {ds : List Diagnostic}
    (h : Path s ts eof s₁ [] (ds ++ [.unexpected eof])) :
    Path s ts eof (s₁.leave opening s.problems.length) []
      (ds ++ [.unclosedGroup opening (.unexpected eof)]) := by
  have heof : eof.isEndOfFile = true := by
    simpa [Token.isEndOfFile] using (Stream.kind_of_ahead h.ahead).2
  have hleave : s₁.leave opening s.problems.length =
      ⟨s₁.stream, s.problems ++ ds ++ [.unclosedGroup opening (.unexpected eof)]⟩ := by
    unfold State.leave
    rw [h.problems, List.drop_left, List.getLast?_concat]
    simp only [Diagnostic.isAtEnd, heof, if_true]
    rw [← List.append_assoc, List.dropLast_concat]
  rw [hleave]
  exact ⟨h.whole, h.ahead, h.length_le, List.append_assoc _ _ _, by simp⟩

/-- A group is parsed as by the reader, if its expression is. -/
theorem group_reads (h : s.stream.ahead = ⟨t :: ts, eof⟩) (ht : t.kind = .groupOpen)
    (hread : Reads .groupClose .empty false s.advance ts eof) :
    ∃ e s' rest ds,
      (∀ bound, ts.length < bound → group (expression bound) s = some (e, s')) ∧
      Path s (t :: ts) eof s' rest ds ∧ rest.length ≤ ts.length ∧
      ∀ l groups, (Reader.mk l groups .none).outcome ⟨t :: ts, eof⟩ =
        ((Reader.mk (l.add e) groups .none).outcome ⟨rest, eof⟩).after ds := by
  have hcurrent : s.current = t := Stream.current_of_ahead_cons h
  obtain ⟨e, s₁, rest, ds, hexpr, hpath, hstop, houtcome⟩ := hread
  have hgroup : ∀ bound, ts.length < bound →
      group (expression bound) s = some (e, s₁.leave t s.problems.length) := by
    intro bound hbound
    rw [group, hexpr bound hbound, hcurrent]
    rfl
  have hfrom : Path s (t :: ts) eof s₁ rest (ds ++ cutShort .groupClose eof rest) := by
    simpa using (Path.advance h).trans hpath
  have hopen : ∀ l groups, (Reader.mk l groups .none).outcome ⟨t :: ts, eof⟩ =
      ((Reader.mk ⟨[], e, true⟩ ((t, l) :: groups) .none).outcome ⟨rest, eof⟩).after ds := by
    intro l groups
    rw [Reader.outcome_groupOpen ht]
    exact houtcome [] ((t, l) :: groups) (by simp [Fits])
  cases rest with
  | nil =>
    have hleft := leave_unclosed t (by simpa [cutShort] using hfrom)
    refine ⟨e, _, [], _, hgroup, hleft, Nat.zero_le _, ?_⟩
    intro l groups
    rw [hopen, Reader.outcome_end_group, Parsed.after_after]
    rfl
  | cons c rest =>
    obtain ⟨-, hc⟩ := hstop c rfl
    have hleft := leave_closed t (by simpa [cutShort] using hfrom)
    refine ⟨e, _, rest, _, hgroup, hleft, ?_, ?_⟩
    · exact Nat.le_of_succ_le hpath.length_le
    · intro l groups
      rw [hopen, Reader.outcome_groupClose hc]
      rfl

theorem abstraction_reads (terminator : Kind) (h : s.stream.ahead = ⟨t :: ts, eof⟩)
    (ht : t.kind = .binder)
    (hread : ∀ s' ts', ts'.length ≤ ts.length → s'.stream.ahead = ⟨ts', eof⟩ →
      Reads terminator .empty false s' ts' eof) :
    ∃ e s' rest ds,
      (∀ bound, ts.length < bound → abstraction (expression bound) terminator s = some (e, s')) ∧
      Path s (t :: ts) eof s' rest (ds ++ cutShort terminator eof rest) ∧
      (∀ t ∈ rest.head?, terminator = .groupClose ∧ t.kind = .groupClose) ∧
      ∀ opened terms hasTerm groups, Fits groups terminator →
        (Reader.mk ⟨opened, terms, hasTerm⟩ groups .none).outcome ⟨t :: ts, eof⟩ =
          ((Reader.mk ⟨[], Level.around opened (terms.apply e), true⟩ groups .none).outcome
            ⟨rest, eof⟩).after ds := by
  have hcurrent : s.current = t := Stream.current_of_ahead_cons h
  have hbinder := Path.advance h
  obtain ⟨ts₁, ds₁, hparameter, houtcome₁⟩ := parameter_reads hbinder.ahead
  obtain ⟨ts₂, ds₂, hdelimiter, houtcome₂⟩ := delimiter_reads hparameter.ahead
  have hle : ts₂.length ≤ ts.length := Nat.le_trans hdelimiter.length_le hparameter.length_le
  obtain ⟨body, s', rest, ds, hexpr, hbody, hstop, houtcome⟩ :=
    hread _ ts₂ hle hdelimiter.ahead
  refine ⟨.lambda t s.advance.parameter.1 body, s', rest, ds₁ ++ ds₂ ++ ds, ?_, ?_, hstop, ?_⟩
  · intro bound hbound
    rw [abstraction, hexpr bound (by omega), hcurrent]
    rfl
  · simpa using ((hbinder.trans hparameter).trans hdelimiter).trans hbody
  · intro opened terms hasTerm groups hfits
    rw [Reader.outcome_binder ht, houtcome₁, houtcome₂, Level.enter, houtcome _ _ hfits,
      Parsed.after_after, Parsed.after_after, List.append_assoc]
    rfl

theorem reads_nil {terminator : Kind} (hend : terminator = .groupClose ∨ terminator = .endOfFile)
    (h : s.stream.ahead = ⟨[], eof⟩) (terms : Expr) (hasTerm : Bool) :
    Reads terminator terms hasTerm s [] eof := by
  have hcurrent : s.current = eof := Stream.current_of_ahead_nil h
  have heof : eof.kind = .endOfFile := (Stream.kind_of_ahead h).2
  rcases hend with rfl | rfl
  · refine ⟨terms, s.report (.unexpected eof), [], [], ?_, .report h (by simp), by simp, ?_⟩
    · refine above_of_succ fun bound _ => ?_
      rw [expression, hcurrent]
      simp [heof]
    · intro opened groups hgroups
      obtain ⟨⟨o, outer⟩, groups, rfl⟩ := List.exists_cons_of_ne_nil hgroups
      rw [Reader.outcome_end_group, Reader.outcome_end_group]
      rfl
  · refine ⟨terms, if hasTerm then s else s.report (.emptyExpression eof), [],
      Reader.emptyAt eof hasTerm, ?_, ?_, by simp, ?_⟩
    · refine above_of_succ fun bound _ => ?_
      rw [expression, hcurrent, if_pos heof]
    · cases hasTerm with
      | true => exact .refl h
      | false => exact .report h (by simp)
    · rintro opened groups rfl
      rw [Reader.outcome_end, Reader.outcome_end]
      simp [Reader.emptyAt, Parsed.after, Level.close, Level.around]

/-- A closing parenthesis ends an expression in a group, and is skipped outside of groups. -/
theorem reads_groupClose {terminator : Kind}
    (hend : terminator = .groupClose ∨ terminator = .endOfFile)
    (h : s.stream.ahead = ⟨t :: ts, eof⟩) (ht : t.kind = .groupClose) {terms : Expr}
    {hasTerm : Bool}
    (hread : ∀ s', s'.stream.ahead = ⟨ts, eof⟩ → Reads terminator terms hasTerm s' ts eof) :
    Reads terminator terms hasTerm s (t :: ts) eof := by
  have hcurrent : s.current = t := Stream.current_of_ahead_cons h
  have hreport : ∀ d : Diagnostic, d.isAtEnd = t.isEndOfFile →
      Path s (t :: ts) eof (s.report d) _ [d] :=
    fun d hd => .report h fun _ => hd.trans (isEndOfFile_of_ahead h)
  rcases hend with rfl | rfl
  · refine ⟨terms, if hasTerm then s else s.report (.emptyExpression t), t :: ts,
      Reader.emptyAt t hasTerm, ?_, ?_, by simpa using ht, ?_⟩
    · refine above_of_succ fun bound _ => ?_
      rw [expression, hcurrent, if_pos ht]
    · cases hasTerm with
      | true => exact .refl h
      | false => exact hreport (.emptyExpression t) rfl
    · intro opened groups hgroups
      obtain ⟨⟨o, outer⟩, groups, rfl⟩ := List.exists_cons_of_ne_nil hgroups
      rw [Reader.outcome_groupClose ht, Reader.outcome_groupClose ht, Parsed.after_after]
      simp [Reader.emptyAt, Level.close, Level.around]
  · have hpath := (hreport (.unexpected t) rfl).trans (.advance h)
    refine (hread _ hpath.ahead).of_path (fun bound _ => ?_) hpath (Nat.lt_succ_self _) ?_
    · rw [expression, hcurrent]
      simp [ht]
    · rintro opened groups rfl
      exact Reader.outcome_groupClose_stray ht

/-- Every expression is parsed to its end. -/
theorem expression_reads {terminator : Kind}
    (hend : terminator = .groupClose ∨ terminator = .endOfFile)
    (h : s.stream.ahead = ⟨ts, eof⟩) (terms : Expr) (hasTerm : Bool) :
    Reads terminator terms hasTerm s ts eof := by
  -- A call is made only after a token has been passed, so the tokens ahead get fewer.
  induction hlength : ts.length using Nat.strongRecOn
    generalizing terminator s ts terms hasTerm with
  | ind n ih =>
    subst hlength
    cases ts with
    | nil => exact reads_nil hend h terms hasTerm
    | cons t ts =>
      have hcurrent : s.current = t := Stream.current_of_ahead_cons h
      have hne : t.kind ≠ .groupClose → t.kind ≠ terminator := by
        have hkind := (Stream.kind_of_ahead h).1 t List.mem_cons_self
        rcases hend with rfl | rfl
        · exact id
        · exact fun _ => hkind
      cases hk : t.kind with
      | identifier =>
        have hpath := Path.advance h
        refine (ih _ (Nat.lt_succ_self _) hend hpath.ahead (terms.apply (.var t)) true rfl).of_path
          (fun bound _ => ?_) hpath (Nat.lt_succ_self _) fun _ _ _ => Reader.outcome_identifier hk
        rw [expression, hcurrent, if_neg (hne (by simp [hk]))]
        simp only [hk]
      | binder =>
        obtain ⟨e, s', rest, ds, habstraction, hpath, hstop, houtcome⟩ :=
          abstraction_reads terminator h hk fun s' ts' hle hs' =>
            ih _ (Nat.lt_succ_of_le hle) hend hs' .empty false rfl
        refine ⟨terms.apply e, s', rest, ds, ?_, hpath, hstop,
          fun opened => houtcome opened terms hasTerm⟩
        refine above_of_succ fun bound hbound => ?_
        rw [expression, hcurrent, if_neg (hne (by simp [hk]))]
        simp only [hk, habstraction bound hbound]
        rfl
      | groupOpen =>
        have hinner := ih _ (Nat.lt_succ_self _) (.inl rfl) (Path.advance h).ahead .empty false rfl
        obtain ⟨e, s', rest, ds, hgroup, hpath, hle, houtcome⟩ := group_reads h hk hinner
        refine (ih _ (Nat.lt_succ_of_le hle) hend hpath.ahead (terms.apply e) true rfl).of_path
          (fun bound hbound => ?_) hpath (Nat.lt_succ_of_le hle) fun _ _ _ => houtcome _ _
        rw [expression, hcurrent, if_neg (hne (by simp [hk]))]
        simp only [hk, hgroup bound hbound]
        rfl
      | groupClose =>
        exact reads_groupClose hend h hk fun s' hs' =>
          ih _ (Nat.lt_succ_self _) hend hs' terms hasTerm rfl
      | bodyDelimiter =>
        have hreport : Path s (t :: ts) eof (s.report (.unexpected t)) _ _ :=
          .report h fun _ => isEndOfFile_of_ahead h
        have hpath := hreport.trans (.advance h)
        refine (ih _ (Nat.lt_succ_self _) hend hpath.ahead terms hasTerm rfl).of_path
          (fun bound _ => ?_) hpath (Nat.lt_succ_self _)
          fun _ _ _ => Reader.outcome_bodyDelimiter hk
        rw [expression, hcurrent, if_neg (hne (by simp [hk]))]
        simp only [hk]
      | endOfFile => exact absurd hk ((Stream.kind_of_ahead h).1 t List.mem_cons_self)

/-- Descent parses every text to its end, with the result of the reader.  The stream has then
produced all tokens of the text. -/
theorem descend_eq (source : String) :
    ∃ final : State,
      (∀ bound, (Token.scan source).tokens.length < bound →
        descend bound source = some ((parse source).expr, final)) ∧
      final.problems = (parse source).diagnostics ∧
      final.stream.current = (Token.scan source).endOfFile ∧
      final.stream.produced = (Token.scan source).all := by
  have hstart : (State.start source).stream.ahead =
      ⟨(Token.scan source).tokens, (Token.scan source).endOfFile⟩ := Stream.ahead_start source
  obtain ⟨e, final, rest, ds, hexpr, hpath, hstop, houtcome⟩ :=
    expression_reads (.inr rfl) hstart .empty false
  obtain rfl : rest = [] := by
    cases rest with
    | nil => rfl
    | cons t rest => cases (hstop t rfl).1
  have hparse : parse source = ⟨e, ds⟩ := by
    have hread : parse source = _ := houtcome [] [] rfl
    rw [hread, Reader.outcome_end]
    simp [Reader.emptyAt, Parsed.after, Level.close, Level.around]
  rw [hparse]
  refine ⟨final, hexpr, ?_, Stream.current_of_ahead_nil hpath.ahead, ?_⟩
  · simpa [State.start, cutShort] using hpath.problems
  · rw [Stream.produced_of_ahead_nil hpath.ahead, hpath.whole]
    exact Stream.whole_start source

end Descent

end Expr

end LambdaCalculus
