import LambdaCalculus.Proofs.Recovery
import LambdaCalculus.Proofs.Resolution

/-! # Diagnostics by token

The diagnostics at a token are determined by the tokens before it, without building a tree: whether
the token follows a binder or a parameter, whether there is a group for it to close, and whether the
current expression has a term.  Only unclosed groups are left for the end of the text.  The tokens
before a token are listed nearest first.
-/
namespace LambdaCalculus

namespace Expr

/-! ## The context of a token -/

def followsBinder : List Token → Bool
  | [] => false
  | t :: _ => t.kind = .binder

def followsParameter : List Token → Bool
  | [] => false
  | t :: before => t.kind = .identifier && followsBinder before

/-- The unmatched opening parentheses, innermost first.  A closing parenthesis matches the nearest
unmatched one before it, if any. -/
def unmatched : List Token → List Token
  | [] => []
  | t :: before =>
    match t.kind with
    | .groupOpen => t :: unmatched before
    | .groupClose => (unmatched before).tail
    | _ => unmatched before

/-- A closing parenthesis without a match, or a delimiter outside of a header. -/
def isStray (before : List Token) (t : Token) : Bool :=
  match t.kind with
  | .groupClose => (unmatched before).isEmpty
  | .bodyDelimiter => !followsBinder before && !followsParameter before
  | _ => false

/-- The current expression has no term yet: at the start of the text or of a group, and after a
complete or incomplete header.  Stray tokens have no effect. -/
def awaitsTerm : List Token → Bool
  | [] => true
  | t :: before =>
    if isStray before t then awaitsTerm before
    else
      match t.kind with
      | .groupOpen | .binder | .bodyDelimiter => true
      | .identifier => followsBinder before
      | .groupClose | .endOfFile => false

/-- A matched closing parenthesis, or the end of a text in which none is missing. -/
def endsExpression (before : List Token) (t : Token) : Bool :=
  match t.kind with
  | .groupClose => !(unmatched before).isEmpty
  | .endOfFile => (unmatched before).isEmpty
  | _ => false

def headerComplaints (before : List Token) (t : Token) : List Diagnostic :=
  (if followsBinder before ∧ t.kind ≠ .identifier then [.missingParameter t] else []) ++
  (if t.kind ≠ .bodyDelimiter ∧
      (followsBinder before ∧ t.kind ≠ .identifier ∨ followsParameter before) then
    [.missingDelimiter t] else [])

def bodyComplaints (before : List Token) (t : Token) : List Diagnostic :=
  (if isStray before t then [.unexpected t] else []) ++
  (if endsExpression before t ∧ awaitsTerm before then [.emptyExpression t] else [])

/-- The diagnostics at a token after the tokens `before`. -/
def complaints (before : List Token) (t : Token) : List Diagnostic :=
  headerComplaints before t ++ bodyComplaints before t

def complaintsFrom (before : List Token) : List Token → List Diagnostic
  | [] => []
  | t :: ts => complaints before t ++ complaintsFrom (t :: before) ts

/-! ## The reader and the context -/

namespace Header

def isBinder : Header → Bool
  | .binder _ => true
  | _ => false

def isParameter : Header → Bool
  | .parameter .. => true
  | _ => false

end Header

namespace Reader

/-- The state of the reader is determined by the tokens before. -/
structure Reflects (r : Reader) (before : List Token) : Prop where
  groups : r.groups.map Prod.fst = unmatched before
  binder : r.header.isBinder = followsBinder before
  parameter : r.header.isParameter = followsParameter before
  hasTerm : r.settle.level.hasTerm = !awaitsTerm before

theorem start_reflects : start.Reflects [] := ⟨rfl, rfl, rfl, rfl⟩

variable {r : Reader} {before : List Token} {t : Token}

theorem Reflects.header_eq_none (h : r.Reflects before) :
    r.header = .none ↔ followsBinder before = false ∧ followsParameter before = false := by
  rw [← h.binder, ← h.parameter]
  cases r.header <;> simp [Header.isBinder, Header.isParameter]

theorem Reflects.headerAtEnd (h : r.Reflects before)
    (hid : ∀ b, r.header = .binder b → t.kind ≠ .identifier)
    (hdot : r.header ≠ .none → t.kind ≠ .bodyDelimiter) :
    r.headerAtEnd t = headerComplaints before t := by
  rw [headerComplaints, ← h.binder, ← h.parameter]
  cases hh : r.header with
  | none => simp [Reader.headerAtEnd, hh, Header.isBinder, Header.isParameter]
  | binder b =>
    simp [Reader.headerAtEnd, hh, Header.isBinder, Header.isParameter, hid b hh,
      hdot (by simp [hh])]
  | parameter b p =>
    simp [Reader.headerAtEnd, hh, Header.isBinder, Header.isParameter, hdot (by simp [hh])]

theorem Reflects.complain (h : r.Reflects before) (ht : t.kind ≠ .endOfFile)
    (hdot : r.header ≠ .none → t.kind ≠ .bodyDelimiter) :
    r.settle.complain t = bodyComplaints before t := by
  have hgroups := h.groups
  have hterm := h.hasTerm
  rw [← r.groups_settle] at hgroups
  cases hk : t.kind with
  | groupClose =>
    cases hg : r.settle.groups with
    | nil =>
      have hnone : unmatched before = [] := by rw [← hgroups, hg, List.map_nil]
      simp [Reader.complain, bodyComplaints, isStray, endsExpression, hk, hg, hnone]
    | cons group groups =>
      have hsome : unmatched before = group.1 :: groups.map Prod.fst := by
        rw [← hgroups, hg, List.map_cons]
      cases hawaits : awaitsTerm before <;>
        simp [Reader.complain, bodyComplaints, isStray, endsExpression, hk, hg, hsome, hterm,
          hawaits]
  | bodyDelimiter =>
    obtain ⟨hb, hp⟩ := h.header_eq_none.mp (by_contra fun hne => hdot hne hk)
    simp [Reader.complain, bodyComplaints, isStray, endsExpression, hk, hb, hp]
  | identifier => simp [Reader.complain, bodyComplaints, isStray, endsExpression, hk]
  | binder => simp [Reader.complain, bodyComplaints, isStray, endsExpression, hk]
  | groupOpen => simp [Reader.complain, bodyComplaints, isStray, endsExpression, hk]
  | endOfFile => exact absurd hk ht

/-- The reader emits the diagnostics determined by the context. -/
theorem Reflects.emit (h : r.Reflects before) (ht : t.kind ≠ .endOfFile) :
    r.emit t = complaints before t := by
  rcases r.step_cases t with ⟨b, hb, hk, -, hemit⟩ | ⟨hne, hk, -, hemit⟩ | ⟨hid, hdot, -, hemit⟩
  · have hbinder : followsBinder before = true := by rw [← h.binder, hb]; rfl
    have hparameter : followsParameter before = false := by rw [← h.parameter, hb]; rfl
    rw [hemit]
    simp [complaints, headerComplaints, bodyComplaints, isStray, endsExpression, hk, hparameter]
  · rw [hemit, complaints, headerComplaints, bodyComplaints, isStray, endsExpression, ← h.binder,
      ← h.parameter]
    cases hh : r.header with
    | none => exact absurd hh hne
    | binder b => simp [Header.withoutParameter, Header.isBinder, hk]
    | parameter b p => simp [Header.withoutParameter, Header.isBinder, Header.isParameter, hk]
  · rw [hemit, complaints, h.headerAtEnd hid hdot, h.complain ht hdot]

/-- At the end of a text, the reader emits the diagnostics determined by the context, and one for
each unmatched group. -/
theorem Reflects.atEnd (h : r.Reflects before) (ht : t.kind = .endOfFile) :
    r.atEnd t = complaints before t ++
      (unmatched before).map fun o => .unclosedGroup o (.unexpected t) := by
  have hgroups := h.groups
  have hterm := h.hasTerm
  rw [← r.groups_settle] at hgroups
  have hheader : r.headerAtEnd t = headerComplaints before t :=
    h.headerAtEnd (by simp [ht]) (by simp [ht])
  rw [Reader.atEnd, complaints, hheader, List.append_assoc, ← hgroups]
  congr 1
  cases hg : r.settle.groups with
  | nil =>
    have hnone : unmatched before = [] := by rw [← hgroups, hg, List.map_nil]
    cases hawaits : awaitsTerm before <;>
      simp [groupsAtEnd, bodyComplaints, isStray, endsExpression, ht, hg, hnone, hterm, hawaits]
  | cons group groups =>
    have hsome : unmatched before = group.1 :: groups.map Prod.fst := by
      rw [← hgroups, hg, List.map_cons]
    simp [groupsAtEnd, bodyComplaints, isStray, endsExpression, ht, hg, hsome]

/-- Outside of headers, reading a token preserves the correspondence with the context. -/
theorem accept_reflects {level : Level} {groups : List (Token × Level)}
    (hgroups : groups.map Prod.fst = unmatched before) (hterm : level.hasTerm = !awaitsTerm before)
    (ht : t.kind ≠ .endOfFile) (hid : t.kind = .identifier → followsBinder before = false)
    (hdot : t.kind = .bodyDelimiter →
      followsBinder before = false ∧ followsParameter before = false) :
    ((Reader.mk level groups .none).accept t).Reflects (t :: before) := by
  cases hk : t.kind with
  | identifier =>
    simp only [accept, hk]
    refine ⟨by simp [unmatched, hk, hgroups], by simp [Header.isBinder, followsBinder, hk], ?_, ?_⟩
    · simp [Header.isParameter, followsParameter, hk, hid hk]
    · simp [settle, awaitsTerm, isStray, hk, hid hk]
  | binder =>
    simp only [accept, hk]
    refine ⟨by simp [unmatched, hk, hgroups], by simp [Header.isBinder, followsBinder, hk], ?_, ?_⟩
    · simp [Header.isParameter, followsParameter, hk]
    · simp [settle, enter, Level.enter, awaitsTerm, isStray, hk]
  | groupOpen =>
    simp only [accept, hk]
    refine ⟨by simp [unmatched, hk, hgroups], by simp [Header.isBinder, followsBinder, hk], ?_, ?_⟩
    · simp [Header.isParameter, followsParameter, hk]
    · simp [settle, Level.start, awaitsTerm, isStray, hk]
  | groupClose =>
    cases groups with
    | nil =>
      have hnone : unmatched before = [] := hgroups.symm
      simp only [accept, hk]
      refine ⟨by simp [unmatched, hk, hnone], by simp [Header.isBinder, followsBinder, hk], ?_, ?_⟩
      · simp [Header.isParameter, followsParameter, hk]
      · simp [settle, awaitsTerm, isStray, hk, hnone, hterm]
    | cons group groups =>
      have hsome : unmatched before = group.1 :: groups.map Prod.fst := hgroups.symm
      simp only [accept, hk]
      refine ⟨by simp [unmatched, hk, hsome], by simp [Header.isBinder, followsBinder, hk], ?_, ?_⟩
      · simp [Header.isParameter, followsParameter, hk]
      · simp [settle, awaitsTerm, isStray, hk, hsome]
  | bodyDelimiter =>
    obtain ⟨hbinder, hparameter⟩ := hdot hk
    simp only [accept, hk]
    refine ⟨by simp [unmatched, hk, hgroups], by simp [Header.isBinder, followsBinder, hk], ?_, ?_⟩
    · simp [Header.isParameter, followsParameter, hk]
    · simp [settle, awaitsTerm, isStray, hk, hbinder, hparameter, hterm]
  | endOfFile => exact absurd hk ht

theorem hasTerm_settle (h : r.header ≠ .none) : r.settle.level.hasTerm = false := by
  cases hh : r.header with
  | none => exact absurd hh h
  | binder b => simp [settle, hh, enter, Level.enter]
  | parameter b p => simp [settle, hh, enter, Level.enter]

/-- Reading a token preserves the correspondence with the context. -/
theorem Reflects.next (h : r.Reflects before) (ht : t.kind ≠ .endOfFile) :
    (r.next t).Reflects (t :: before) := by
  obtain ⟨level, groups, hsettle⟩ : ∃ level groups, r.settle = ⟨level, groups, .none⟩ :=
    ⟨_, _, by rw [← r.header_settle]⟩
  have hgroups : groups.map Prod.fst = unmatched before := by
    rw [← h.groups, ← r.groups_settle, hsettle]
  have hterm : level.hasTerm = !awaitsTerm before := by rw [← h.hasTerm, hsettle]
  rcases r.step_cases t with ⟨b, hb, hk, hnext, -⟩ | ⟨hne, hk, hnext, -⟩ | ⟨hid, hdot, hnext, -⟩
  · have hbinder : followsBinder before = true := by rw [← h.binder, hb]; rfl
    rw [hnext]
    refine ⟨by simp [unmatched, hk, h.groups], by simp [Header.isBinder, followsBinder, hk], ?_, ?_⟩
    · simp [Header.isParameter, followsParameter, hk, hbinder]
    · simp [settle, enter, Level.enter, awaitsTerm, isStray, hk, hbinder]
  · have hheader : (followsBinder before || followsParameter before) = true := by
      by_contra hno
      exact hne (h.header_eq_none.mpr (by simpa using hno))
    rw [hnext, hsettle]
    refine ⟨by simp [unmatched, hk, hgroups], by simp [Header.isBinder, followsBinder, hk], ?_, ?_⟩
    · simp [Header.isParameter, followsParameter, hk]
    · have hempty : level.hasTerm = false := by
        have hsettled := hasTerm_settle hne
        rwa [hsettle] at hsettled
      have hinner : isStray before t = false := by
        cases hb : followsBinder before <;> simp_all [isStray]
      simp [settle, awaitsTerm, hinner, hk, hempty]
  · rw [hnext, hsettle]
    refine accept_reflects hgroups hterm ht (fun hk => ?_) (fun hk => ?_)
    · rw [← h.binder]
      cases hh : r.header with
      | binder b => exact absurd hk (hid b hh)
      | none => rfl
      | parameter b p => rfl
    · exact h.header_eq_none.mp (by_contra fun hne => hdot hne hk)

theorem Reflects.reach {ts : List Token} (h : r.Reflects before)
    (hts : ∀ t ∈ ts, t.kind ≠ .endOfFile) :
    (transducer.reach r ts).Reflects (ts.reverse ++ before) := by
  induction ts generalizing r before with
  | nil => exact h
  | cons t ts ih =>
    obtain ⟨ht, hts⟩ := List.forall_mem_cons.mp hts
    have hnext : (transducer.reach (r.next t) ts).Reflects _ := ih (h.next ht) hts
    rw [List.reverse_cons, List.append_assoc]
    exact hnext

theorem Reflects.output {ts : List Token} (h : r.Reflects before)
    (hts : ∀ t ∈ ts, t.kind ≠ .endOfFile) :
    transducer.output r ts = complaintsFrom before ts := by
  induction ts generalizing r before with
  | nil => rfl
  | cons t ts ih =>
    obtain ⟨ht, hts⟩ := List.forall_mem_cons.mp hts
    have hnext : transducer.output (r.next t) ts = _ := ih (h.next ht) hts
    rw [Transducer.output_cons, complaintsFrom, ← hnext, ← h.emit ht]
    rfl

end Reader

/-! ## Diagnostics of a text -/

variable {before : List Token} {t : Token} {d : Diagnostic}

theorem complaintsFrom_append (before ts us : List Token) :
    complaintsFrom before (ts ++ us) =
      complaintsFrom before ts ++ complaintsFrom (ts.reverse ++ before) us := by
  induction ts generalizing before with
  | nil => rfl
  | cons t ts ih => simp [complaintsFrom, ih]

/-- The diagnostics of a text are those at each token in turn and at the end of the text, followed
by those of the unclosed groups. -/
theorem diagnostics_parse (source : String) :
    (parse source).diagnostics =
      complaintsFrom [] (Token.scan source).all ++
        (unmatched (Token.scan source).tokens.reverse).map fun o =>
          .unclosedGroup o (.unexpected (Token.scan source).endOfFile) := by
  obtain ⟨htokens, hend, -⟩ := Token.scan_orderly source
  have hreach := Reader.start_reflects.reach htokens
  rw [List.append_nil] at hreach
  rw [parse, ofTokens, Reader.start_reflects.output htokens, hreach.atEnd hend, Token.Scanned.all,
    complaintsFrom_append]
  simp [complaintsFrom]

theorem mem_complaints (h : d ∈ complaints before t) :
    d = .unexpected t ∧ isStray before t = true ∨ d = .emptyExpression t ∨
      d = .missingParameter t ∨ d = .missingDelimiter t := by
  simp only [complaints, headerComplaints, bodyComplaints, List.mem_append] at h
  grind

theorem mem_complaintsFrom {ts : List Token} (h : d ∈ complaintsFrom before ts) :
    ∃ before', ∃ t ∈ ts, d ∈ complaints before' t := by
  induction ts generalizing before with
  | nil => cases h
  | cons t ts ih =>
    rcases List.mem_append.mp h with h | h
    · exact ⟨before, t, List.mem_cons_self, h⟩
    · obtain ⟨before', u, hu, h⟩ := ih h
      exact ⟨before', u, List.mem_cons_of_mem t hu, h⟩

theorem isUnclosedGroup_of_mem_complaintsFrom {ts : List Token} (h : d ∈ complaintsFrom before ts) :
    d.isUnclosedGroup = false := by
  obtain ⟨before', t, -, h⟩ := mem_complaintsFrom h
  rcases mem_complaints h with ⟨rfl, -⟩ | rfl | rfl | rfl <;> rfl

theorem kind_of_isStray (h : isStray before t = true) :
    t.kind = .groupClose ∨ t.kind = .bodyDelimiter := by
  unfold isStray at h
  split at h
  · exact .inl ‹_›
  · exact .inr ‹_›
  · cases h

end Expr

/-! ## Messages -/

namespace Diagnostic

theorem message_unexpected (t : Token) :
    (unexpected t).message = "unexpected token " ++ t.raw := rfl

theorem message_emptyExpression (t : Token) :
    (emptyExpression t).message = "empty expression (found " ++ t.raw ++ ")" := rfl

theorem message_missingParameter (t : Token) :
    (missingParameter t).message = "expecting identifier, found " ++ t.raw := rfl

theorem message_missingDelimiter (t : Token) :
    (missingDelimiter t).message = "expecting . (body delimiter), found " ++ t.raw := rfl

theorem message_unclosedGroup (opening : Token) (within : Diagnostic) :
    (unclosedGroup opening within).message = within.message ++
      (" (the cause is likely to be the parenthesis at line " ++ toString opening.position.line) ++
      (" column " ++ toString opening.position.column ++ ")") := rfl

/-- No other message starts like that of an unexpected token. -/
theorem message_ne_of_expecting {d : Diagnostic} {t : Token}
    (h : d = .emptyExpression t ∨ d = .missingParameter t ∨ d = .missingDelimiter t)
    (rest : String) : d.message ≠ "unexpected token end of file" ++ rest := by
  have hfirst : d.message.toList.head? = some 'e' := by
    rcases h with rfl | rfl | rfl
    · rw [message_emptyExpression, String.append_assoc, String.toList_append, List.head?_append]
      rfl
    · rw [message_missingParameter, String.toList_append, List.head?_append]
      rfl
    · rw [message_missingDelimiter, String.toList_append, List.head?_append]
      rfl
  intro hmessage
  have hother : "unexpected token end of file".toList.head? = some 'u' := rfl
  rw [hmessage, String.toList_append, List.head?_append, hother] at hfirst
  exact absurd hfirst (by simp)

theorem message_ne_of_singleton {t : Token} {c : Char} (h : t.raw = String.singleton c)
    (rest : String) : (unexpected t).message ≠ "unexpected token end of file" ++ rest := by
  intro hmessage
  have hlength := congrArg String.length hmessage
  rw [message_unexpected, h, String.length_append, String.length_append,
    String.length_singleton] at hlength
  have hshort : "unexpected token ".length = 17 := rfl
  have hlong : "unexpected token end of file".length = 28 := rfl
  omega

/-- An unclosed group is reported at the end of the text, with the position where it opens. -/
theorem message_unclosedGroup_atEnd (opening : Token) (p : Position) :
    (unclosedGroup opening (.unexpected (.atEnd p))).message =
      "unexpected token end of file (the cause is likely to be the parenthesis at line " ++
        toString opening.position.line ++ " column " ++ toString opening.position.column ++
        ")" := by
  have hwords : "unexpected token " ++ "end of file" ++
      " (the cause is likely to be the parenthesis at line " =
      "unexpected token end of file (the cause is likely to be the parenthesis at line " := by
    decide
  rw [message_unclosedGroup, message_unexpected, ← hwords]
  simp only [Token.atEnd, String.append_assoc]

end Diagnostic

theorem Token.raw_of_mem_scan {source : String} {t : Token} (h : t ∈ (scan source).tokens)
    (hk : t.kind ≠ .identifier) : ∃ c, t.raw = String.singleton c := by
  have hpending (s : Scanner) : t ∉ s.pending := by
    intro h
    unfold Scanner.pending at h
    split at h
    · simp at h
    · rw [List.mem_singleton.mp h] at hk
      exact hk rfl
  rcases List.mem_append.mp h with h | h
  · obtain ⟨s, c, h⟩ := Transducer.exists_mem_emit _ h
    change t ∈ s.emit c at h
    unfold Scanner.emit at h
    split at h
    · simp at h
    · have h := (List.mem_append.mp h).resolve_left (hpending s)
      unfold Scanner.symbol at h
      split at h
      · simp at h
      · rw [List.mem_singleton.mp h]
        exact ⟨c, rfl⟩
  · exact absurd h (hpending _)

namespace Expr

/-- Unclosed groups are reported last, innermost first, at the end of the text.  No other diagnostic
is about an unclosed group or says that the end of the text is unexpected. -/
theorem unclosed_groups_reported (source : String) :
    (Token.scan source).endOfFile.kind = .endOfFile ∧
    (∃ others,
      (parse source).diagnostics = others ++
        (unmatched (Token.scan source).tokens.reverse).map (fun o =>
          .unclosedGroup o (.unexpected (Token.scan source).endOfFile)) ∧
      ∀ d ∈ others, d.isUnclosedGroup = false ∧
        ∀ rest, d.message ≠ "unexpected token end of file" ++ rest) ∧
    (parse source).diagnostics.countP (·.isUnclosedGroup) =
      (unmatched (Token.scan source).tokens.reverse).length ∧
    ∀ o ∈ unmatched (Token.scan source).tokens.reverse,
      let d := Diagnostic.unclosedGroup o (.unexpected (Token.scan source).endOfFile)
      d.position = (Token.scan source).endOfFile.position ∧
      d.message =
        "unexpected token end of file (the cause is likely to be the parenthesis at line " ++
          toString o.position.line ++ " column " ++ toString o.position.column ++ ")" := by
  have hend := (Token.scan_orderly source).endOfFile
  have hothers : ∀ d ∈ complaintsFrom [] (Token.scan source).all, d.isUnclosedGroup = false :=
    fun d hd => isUnclosedGroup_of_mem_complaintsFrom hd
  refine ⟨hend, ⟨_, diagnostics_parse source, ?_⟩, ?_, ?_⟩
  · intro d hd
    refine ⟨hothers d hd, fun rest => ?_⟩
    obtain ⟨before, t, ht, hd⟩ := mem_complaintsFrom hd
    rcases mem_complaints hd with ⟨rfl, hstray⟩ | hd
    · have hkind := kind_of_isStray hstray
      have hmem : t ∈ (Token.scan source).tokens := by
        refine (List.mem_append.mp ht).resolve_right fun h => ?_
        rw [List.mem_singleton.mp h, hend] at hkind
        simp at hkind
      obtain ⟨c, hc⟩ := Token.raw_of_mem_scan hmem (by rcases hkind with h | h <;> simp [h])
      exact Diagnostic.message_ne_of_singleton hc rest
    · exact Diagnostic.message_ne_of_expecting hd rest
  · have hnone : (complaintsFrom [] (Token.scan source).all).countP (·.isUnclosedGroup) = 0 :=
      List.countP_eq_zero.mpr fun d hd => by simp [hothers d hd]
    rw [diagnostics_parse, List.countP_append, hnone, List.countP_map]
    simp [Function.comp_def, Diagnostic.isUnclosedGroup]
  · intro o _
    exact ⟨rfl, Diagnostic.message_unclosedGroup_atEnd o _⟩

/-- The other diagnostics are those of a left-to-right scan of the tokens, each at its token and
with its message. -/
theorem other_diagnostics_by_scan (source : String) :
    (parse source).diagnostics.filter (fun d => !d.isUnclosedGroup) =
      complaintsFrom [] (Token.scan source).all ∧
    (∀ before t, ∀ d ∈ complaints before t, d.position = t.position) ∧
    ∀ t : Token,
      (Diagnostic.missingParameter t).message = "expecting identifier, found " ++ t.raw ∧
      (Diagnostic.missingDelimiter t).message = "expecting . (body delimiter), found " ++ t.raw ∧
      (Diagnostic.unexpected t).message = "unexpected token " ++ t.raw ∧
      (Diagnostic.emptyExpression t).message = "empty expression (found " ++ t.raw ++ ")" := by
  refine ⟨?_, ?_, fun t => ⟨Diagnostic.message_missingParameter t,
    Diagnostic.message_missingDelimiter t, Diagnostic.message_unexpected t,
    Diagnostic.message_emptyExpression t⟩⟩
  · rw [diagnostics_parse, List.filter_append, List.filter_eq_self.mpr, List.filter_eq_nil_iff.mpr,
      List.append_nil]
    · intro d hd
      obtain ⟨o, -, rfl⟩ := List.mem_map.mp hd
      simp [Diagnostic.isUnclosedGroup]
    · intro d hd
      simp [isUnclosedGroup_of_mem_complaintsFrom hd]
  · intro before t d hd
    rcases mem_complaints hd with ⟨rfl, -⟩ | rfl | rfl | rfl <;> rfl

-- A stray delimiter does not make up for a term, and a header that the end of the text cuts short
-- is reported before the group around it.
example : (parse "x (.) (\\").diagnostics.map (·.text) =
    ["1:4: unexpected token .",
      "1:5: empty expression (found ))",
      "1:9: expecting identifier, found end of file",
      "1:9: expecting . (body delimiter), found end of file",
      "1:9: unexpected token end of file " ++
        "(the cause is likely to be the parenthesis at line 1 column 7)"] := by
  decide

end Expr

end LambdaCalculus
