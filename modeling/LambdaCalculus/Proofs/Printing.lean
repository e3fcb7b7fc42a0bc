import LambdaCalculus.Proofs.Blame
import LambdaCalculus.Proofs.Nesting

/-! # Printed code can be decoded

Printed code has parentheses around arguments and around closures, and no escapes.  It can still be
decoded in one way only, from left to right: a parenthesis at the start of code opens a closure, and
one after code opens an argument.  Generated names do not interfere, since they contain neither
parentheses nor bars and start with the marker.
-/
namespace LambdaCalculus

namespace Name

def isGeneratedChar (c : Char) : Bool := isSpelling c || c = '\x27'

/-- The name has the form of a generated one: the marker, followed by characters of generated names.
-/
def isGenerated (name : String) : Bool :=
  match name.toList with
  | [] => false
  | c :: rest => c = '$' && rest.all isGeneratedChar

theorem isGenerated_iff {name : String} :
    isGenerated name = true ↔
      ∃ rest, name.toList = '$' :: rest ∧ ∀ c ∈ rest, isGeneratedChar c = true := by
  unfold isGenerated
  cases name.toList with
  | nil => simp
  | cons c rest => simp

theorem isGenerated_quoted (name : String) (quotes : Nat) :
    isGenerated (quoted name quotes) = true := by
  apply isGenerated_iff.mpr
  refine ⟨name.toList.flatMap spellChar ++ List.replicate quotes '\x27', ?_, ?_⟩
  · simp [quoted, spellChars]
  intro c hc
  unfold isGeneratedChar
  rcases List.mem_append.mp hc with hc | hc
  · have hspelling := isSpelling_of_mem_spellChars (List.mem_cons_of_mem '$' hc)
    rw [hspelling, Bool.true_or]
  · rw [List.eq_of_mem_replicate hc]
    decide

end Name

namespace Code

def names : Code → List String
  | .undefined => []
  | .var name => [name]
  | .app f a => f.names ++ a.names
  | .closure p body => p :: body.names

/-! ## Decoding -/

/-- An enclosing construct that is still being read. -/
inductive Outer where
  /-- A callee whose argument is being read. -/
  | callee (f : Code)
  /-- A closure whose body is being read. -/
  | header (parameter : String)
  deriving DecidableEq, Repr

inductive Progress where
  | nothing
  /-- A closure after its parenthesis. -/
  | opening
  /-- A closure after its first bar, with some of the parameter in reverse order. -/
  | parameter (letters : List Char)
  /-- A closure after its second bar. -/
  | bar (parameter : String)
  /-- A word in progress, in reverse order. -/
  | word (letters : List Char)
  | whole (c : Code)
  deriving DecidableEq, Repr

/-- The code being read, and the enclosing constructs, innermost first. -/
structure Decoder where
  outer : List Outer
  progress : Progress
  deriving DecidableEq, Repr

def ofWord (word : String) : Code := if word = "undefined" then .undefined else .var word

/-- The code read so far, if it may end here. -/
def Progress.code? : Progress → Option Code
  | .word letters => some (ofWord (String.ofList letters.reverse))
  | .whole c => some c
  | .nothing | .opening | .parameter _ | .bar _ => none

namespace Decoder

def start : Decoder := ⟨[], .nothing⟩

/-- Continues after some code: a parenthesis starts an argument or ends an enclosing construct. -/
def after (outer : List Outer) (c : Code) (x : Char) : Option Decoder :=
  if x = '(' then some ⟨.callee c :: outer, .nothing⟩
  else if x = ')' then
    match outer with
    | .callee f :: outer => some ⟨outer, .whole (.app f c)⟩
    | .header p :: outer => some ⟨outer, .whole (.closure p c)⟩
    | [] => none
  else none

def next? (d : Decoder) (x : Char) : Option Decoder :=
  match d.progress with
  | .nothing => some ⟨d.outer, if x = '(' then .opening else .word [x]⟩
  | .opening => if x = '|' then some ⟨d.outer, .parameter []⟩ else none
  | .parameter letters =>
    some ⟨d.outer,
      if x = '|' then .bar (String.ofList letters.reverse) else .parameter (x :: letters)⟩
  | .bar p => if x = ' ' then some ⟨.header p :: d.outer, .nothing⟩ else none
  | .word letters =>
    if x = '(' ∨ x = ')' then after d.outer (ofWord (String.ofList letters.reverse)) x
    else some ⟨d.outer, .word (x :: letters)⟩
  | .whole c => after d.outer c x

def reads (d : Decoder) (text : List Char) : Option Decoder := text.foldlM next? d

end Decoder

def decode? (text : String) : Option Code := do
  let d ← Decoder.start.reads text.toList
  if d.outer.isEmpty then d.progress.code? else none

namespace Decoder

variable {outer : List Outer}

theorem reads_cons (d : Decoder) (x : Char) (text : List Char) :
    d.reads (x :: text) = (d.next? x).bind (·.reads text) :=
  List.foldlM_cons

theorem reads_append (d : Decoder) (text more : List Char) :
    d.reads (text ++ more) = (d.reads text).bind (·.reads more) :=
  List.foldlM_append

theorem next?_of_code? {p : Progress} {c : Code} (h : p.code? = some c) {x : Char}
    (hx : x = '(' ∨ x = ')') : next? ⟨outer, p⟩ x = after outer c x := by
  cases p with
  | word letters =>
    obtain rfl := Option.some.inj h
    exact if_pos hx
  | whole c' =>
    obtain rfl := Option.some.inj h
    rfl
  | _ => cases h

theorem reads_letters {text : List Char} (h : '(' ∉ text ∧ ')' ∉ text) (letters : List Char) :
    reads ⟨outer, .word letters⟩ text = some ⟨outer, .word (text.reverse ++ letters)⟩ := by
  induction text generalizing letters with
  | nil => rfl
  | cons x text ih =>
    simp only [List.mem_cons, not_or] at h
    have hx : ¬ (x = '(' ∨ x = ')') := by
      rintro (rfl | rfl)
      · exact h.1.1 rfl
      · exact h.2.1 rfl
    have hnext : next? ⟨outer, .word letters⟩ x = some ⟨outer, .word (x :: letters)⟩ := if_neg hx
    rw [reads_cons, hnext, Option.bind_some, ih ⟨h.1.2, h.2.2⟩]
    simp

theorem reads_word (outer : List Outer) {word : String} (hne : word ≠ "")
    (h : '(' ∉ word.toList ∧ ')' ∉ word.toList) :
    ∃ p, reads ⟨outer, .nothing⟩ word.toList = some ⟨outer, p⟩ ∧ p.code? = some (ofWord word) := by
  cases hletters : word.toList with
  | nil => exact absurd (String.toList_eq_nil_iff.mp hletters) hne
  | cons x text =>
    rw [hletters] at h
    simp only [List.mem_cons, not_or] at h
    have hnext : next? ⟨outer, .nothing⟩ x = some ⟨outer, .word [x]⟩ := by
      simp [next?, Ne.symm h.1.1]
    refine ⟨.word (text.reverse ++ [x]), ?_, ?_⟩
    · rw [reads_cons, hnext, Option.bind_some, reads_letters ⟨h.1.2, h.2.2⟩]
    · simp [Progress.code?, ← hletters]

theorem reads_parameter {text : List Char} (h : '|' ∉ text) (letters : List Char) :
    reads ⟨outer, .parameter letters⟩ text =
      some ⟨outer, .parameter (text.reverse ++ letters)⟩ := by
  induction text generalizing letters with
  | nil => rfl
  | cons x text ih =>
    simp only [List.mem_cons, not_or] at h
    have hnext : next? ⟨outer, .parameter letters⟩ x =
        some ⟨outer, .parameter (x :: letters)⟩ := by
      simp [next?, Ne.symm h.1]
    rw [reads_cons, hnext, Option.bind_some, ih h.2]
    simp

theorem reads_header {p : String} (h : '|' ∉ p.toList) (text : List Char) :
    reads ⟨outer, .nothing⟩ ('(' :: '|' :: (p.toList ++ '|' :: ' ' :: text)) =
      reads ⟨.header p :: outer, .nothing⟩ text := by
  have hopening : reads ⟨outer, .nothing⟩ ('(' :: '|' :: (p.toList ++ '|' :: ' ' :: text)) =
      reads ⟨outer, .parameter []⟩ (p.toList ++ '|' :: ' ' :: text) := rfl
  rw [hopening, reads_append, reads_parameter h, Option.bind_some, List.append_nil]
  have hbar : reads ⟨outer, .parameter p.toList.reverse⟩ ('|' :: ' ' :: text) =
      reads ⟨.header (String.ofList p.toList.reverse.reverse) :: outer, .nothing⟩ text := rfl
  rw [hbar, List.reverse_reverse, String.ofList_toList]

end Decoder

theorem notMem_of_isGenerated {name : String} (h : Name.isGenerated name = true) {x : Char}
    (hx : Name.isGeneratedChar x = false) : x ∉ name.toList := by
  obtain ⟨rest, hname, hrest⟩ := Name.isGenerated_iff.mp h
  rw [hname]
  intro hmem
  rcases List.mem_cons.mp hmem with rfl | hmem
  · exact absurd hx (by decide)
  · rw [hrest x hmem] at hx
    cases hx

theorem ofWord_of_isGenerated {name : String} (h : Name.isGenerated name = true) :
    ofWord name = .var name := by
  apply if_neg
  rintro rfl
  exact absurd h (by decide)

/-- Printed code is decoded inside any enclosing constructs. -/
theorem Decoder.reads_render {c : Code} (h : ∀ name ∈ c.names, Name.isGenerated name = true)
    (outer : List Outer) :
    ∃ p, reads ⟨outer, .nothing⟩ c.render.toList = some ⟨outer, p⟩ ∧ p.code? = some c := by
  induction c generalizing outer with
  | undefined =>
    have hword : "undefined" ≠ "" := by decide
    exact reads_word outer hword (by decide)
  | var name =>
    have hname := h name List.mem_cons_self
    have hne : name ≠ "" := by
      rintro rfl
      exact absurd hname (by decide)
    obtain ⟨p, hreads, hp⟩ := reads_word outer hne
      ⟨notMem_of_isGenerated hname (by decide), notMem_of_isGenerated hname (by decide)⟩
    rw [ofWord_of_isGenerated hname] at hp
    refine ⟨p, ?_, hp⟩
    rw [toList_render, renderOnto, List.append_nil, hreads]
  | app f a hf ha =>
    obtain ⟨p, hcallee, hp⟩ := hf (fun name hname => h name (List.mem_append_left _ hname)) outer
    obtain ⟨q, hargument, hq⟩ := ha (fun name hname => h name (List.mem_append_right _ hname))
      (.callee f :: outer)
    refine ⟨.whole (.app f a), ?_, rfl⟩
    rw [toList_render_app, reads_append, hcallee, Option.bind_some, reads_cons,
      next?_of_code? hp (.inl rfl)]
    have hopen : after outer f '(' = some ⟨.callee f :: outer, .nothing⟩ := rfl
    rw [hopen, Option.bind_some, reads_append, hargument, Option.bind_some, reads_cons,
      next?_of_code? hq (.inr rfl)]
    rfl
  | closure p body ih =>
    have hp := h p List.mem_cons_self
    obtain ⟨q, hbody, hq⟩ := ih (fun name hname => h name (List.mem_cons_of_mem _ hname))
      (.header p :: outer)
    refine ⟨.whole (.closure p body), ?_, rfl⟩
    rw [toList_render_closure, reads_header (notMem_of_isGenerated hp (by decide)), reads_append,
      hbody, Option.bind_some, reads_cons, next?_of_code? hq (.inr rfl)]
    rfl

/-- Decoding is a left inverse of printing. -/
theorem decode?_render {c : Code} (h : ∀ name ∈ c.names, Name.isGenerated name = true) :
    decode? c.render = some c := by
  obtain ⟨p, hreads, hp⟩ := Decoder.reads_render h []
  rw [decode?, Decoder.start, hreads]
  exact hp

end Code

/-! ## Generated code -/

/-- All names in the code of an expression are generated ones. -/
theorem Expr.isGenerated_code (e : Expr) (names : List String) :
    ∀ name ∈ (e.code (Scope.around names)).names, Name.isGenerated name = true := by
  induction e generalizing names with
  | empty => exact fun name hname => absurd hname List.not_mem_nil
  | var t =>
    rw [code_var]
    cases hresolve : (Scope.around names).resolve t.raw with
    | none => exact fun name hname => absurd hname List.not_mem_nil
    | some generated =>
      obtain ⟨source, quotes, rfl, -⟩ := Scope.exists_quoted_of_mem (Scope.mem_of_resolve hresolve)
      intro name hname
      rw [List.mem_singleton.mp hname]
      exact Name.isGenerated_quoted source quotes
  | app f a hf ha =>
    rw [code_app]
    intro name hname
    rcases List.mem_append.mp hname with hname | hname
    · exact hf names name hname
    · exact ha names name hname
  | lambda b p body ih =>
    rw [code_lambda]
    intro name hname
    rcases List.mem_cons.mp hname with rfl | hname
    · rw [Scope.fresh_around]
      exact Name.isGenerated_quoted _ _
    · exact ih (parameterName p :: names) name hname

/-- Printing is injective on code whose names have the form of generated ones; and all names in the
code of a text have it, for every text and all globals. -/
theorem printed_code_unambiguous :
    (∀ c c' : Code, (∀ name ∈ c.names, Name.isGenerated name = true) →
      (∀ name ∈ c'.names, Name.isGenerated name = true) → c.render = c'.render → c = c') ∧
    ∀ (source : String) (globals : List String),
      ∀ name ∈ (Program.ofText source globals).code.names, Name.isGenerated name = true := by
  constructor
  · intro c c' hc hc' hrender
    have hdecoded := Code.decode?_render hc
    rw [hrender, Code.decode?_render hc'] at hdecoded
    exact (Option.some.inj hdecoded).symm
  · intro source globals
    have hnames := (Expr.parse source).expr.isGenerated_code globals.reverse
    rwa [← Scope.ofNames_eq_around, ← Program.code_ofText] at hnames

/-- The applied closure and its argument are distinguished by their parentheses. -/
theorem printed_code_unambiguous_closures :
    (Program.ofText "(\\f.\\f.f (f f)) (\\x.y)" ["y"]).code.render =
      "(|$f| (|$f'| $f'($f'($f'))))((|$x| $y))" ∧
    (Program.ofText "(\\f.\\f.f (f f)) (\\x.y)" ["y"]).code =
      .app (.closure "$f" (.closure "$f'" (.app (.var "$f'") (.app (.var "$f'") (.var "$f'")))))
        (.closure "$x" (.var "$y")) := by
  obtain ⟨hprint, hgenerated⟩ := printed_code_unambiguous
  refine ⟨by decide, hprint _ _ (hgenerated _ _) (by decide) (by decide)⟩

-- With other names, a variable can have the print of an application.
example : (Code.var "$f($x)").render = (Code.app (.var "$f") (.var "$x")).render := by decide

end LambdaCalculus
