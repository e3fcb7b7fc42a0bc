import LambdaCalculus.Compile
import LambdaCalculus.Text
import LambdaCalculus.Transducer

/-! # The prompt

The prompt reads a text line by line and answers each entry with its code or its diagnostics.  An
entry continues over further lines as long as a group in it is open.  An entry `name = expression`
without diagnostics defines the name for the entries after it.
-/
namespace LambdaCalculus

inductive Output where
  | out (text : String)
  | err (text : String)
  deriving DecidableEq, Repr

namespace Output

def outText : Output → String
  | .out text => text
  | .err _ => ""

def errText : Output → String
  | .out _ => ""
  | .err text => text

end Output

structure Entry where
  name : Option String
  source : String
  deriving DecidableEq, Repr

namespace Entry

/-- Splits a text at its first equals sign between two spaces; `before` is the reversed text in
front. -/
def cut (before : List Char) : List Char → Option (List Char × List Char)
  | ' ' :: '=' :: ' ' :: rest => some (before.reverse, rest)
  | c :: rest => cut (c :: before) rest
  | [] => none

def trim (text : List Char) : List Char :=
  ((text.dropWhile isWhitespace).reverse.dropWhile isWhitespace).reverse

def isBlank (text : String) : Bool := text.toList.all isWhitespace

/-- The text before the first equals sign is the name defined, if it is an identifier; otherwise the
whole text is an expression. -/
def ofText (text : String) : Entry :=
  match cut [] text.toList with
  | none => ⟨none, text⟩
  | some (left, right) =>
    let name := String.ofList (trim left)
    if isIdentifier name then ⟨some name, String.ofList right⟩ else ⟨none, text⟩

/-- Whether a group is open at the end, so that a later line may close it. -/
def isOpen (text : String) : Bool :=
  (Expr.parse (ofText text).source).diagnostics.any (·.isUnclosedGroup)

end Entry

structure Prompt (φ : Type) where
  machine : Machine φ
  globals : Globals φ
  /-- The lines so far of an incomplete entry. -/
  buffer : String

namespace Prompt

variable {φ : Type}

def start : Prompt φ := ⟨.empty, [], ""⟩

def cue (p : Prompt φ) : String := if p.buffer.isEmpty then "> " else ">> "

/-- Adds a definition without diagnostics to the globals. -/
def define (p : Prompt φ) (name : Option String) (c : Compilation φ) : Globals φ :=
  match name with
  | some name => if c.isOk then p.globals ++ [(name, c.value)] else p.globals
  | none => p.globals

def compile (p : Prompt φ) (source : String) : Compilation φ × Machine φ :=
  LambdaCalculus.compile p.globals source p.machine

def finish (p : Prompt φ) (text : String) : Prompt φ :=
  if Entry.isBlank text then { p with buffer := "" }
  else
    let entry := Entry.ofText text
    let (c, m) := p.compile entry.source
    ⟨m, p.define entry.name c, ""⟩

def reply (p : Prompt φ) (text : String) : List Output :=
  if Entry.isBlank text then []
  else
    let c := (p.compile (Entry.ofText text).source).1
    if c.isOk then [.out (c.program.code.render ++ "\n")]
    else c.diagnostics.map fun d => .err ("stdin:" ++ d.text ++ "\n")

def next (p : Prompt φ) (line : String) : Prompt φ :=
  let text := p.buffer ++ line
  if Entry.isOpen text then { p with buffer := text } else p.finish text

/-- The answer to a line, empty unless the line completes an entry. -/
def answer (p : Prompt φ) (line : String) : List Output :=
  let text := p.buffer ++ line
  if Entry.isOpen text then [] else p.reply text

/-- The answer at the end of the input, which also ends an entry with an open group. -/
def answerEnd (p : Prompt φ) : List Output :=
  if Entry.isBlank p.buffer then [.out "\n"]
  else p.reply p.buffer ++ [.out "> ", .out "\n"]

def emit (p : Prompt φ) (line : String) : List Output := .out p.cue :: p.answer line

def transducer : Transducer (Prompt φ) String Output := ⟨next, emit⟩

def transcript (lines : List String) : List Output :=
  let p : Prompt Empty := .start
  let final := transducer.reach p lines
  transducer.output p lines ++ .out final.cue :: final.answerEnd

def transcriptUntilBroken (lines : List String) : List Output :=
  let p : Prompt Empty := .start
  transducer.output p lines ++ [.out (transducer.reach p lines).cue]

end Prompt

end LambdaCalculus
