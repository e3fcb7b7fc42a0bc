import LambdaCalculus.FileTree
import LambdaCalculus.Prompt

/-! # The command line

With arguments, the files they name are compiled together; without any, the prompt runs over the
standard input.
-/
namespace LambdaCalculus

namespace CommandLine

structure Outcome where
  exit : Nat
  output : List Output
  deriving DecidableEq, Repr

namespace Outcome

def stdout (o : Outcome) : String := String.join (o.output.map (·.outText))

def stderr (o : Outcome) : String := String.join (o.output.map (·.errText))

end Outcome

def readFailure (name : String) (e : ReadError) : Output :=
  .err ("Error: cannot read " ++ name ++ "\n\nCaused by:\n    " ++ e.reason ++ "\n")

def inputFailure : Output := .err ("Error: " ++ ReadError.notText.reason ++ "\n")

def batchProblems (batch : Batch Empty) : List Output :=
  batch.toList.flatMap fun (name, c) =>
    c.diagnostics.map fun d => .err (name ++ ":" ++ d.text ++ "\n")

def batchCode (batch : Batch Empty) : List Output :=
  batch.toList.map fun (name, c) => .out (name ++ ": " ++ c.program.code.render ++ "\n")

def compileSources (sources : List (String × String)) : Outcome :=
  let batch := (compileAll [] sources .empty).1
  if batch.isOk then ⟨0, batchCode batch⟩ else ⟨1, batchProblems batch⟩

def readAll (read : String → Except ReadError String) :
    List String → Except Output (List (String × String))
  | [] => .ok []
  | name :: names =>
    match read name with
    | .error e => .error (readFailure name e)
    | .ok source => (readAll read names).map ((name, source) :: ·)

/-- Compiles files.  Nothing is compiled unless all of them can be read. -/
def runFiles (read : String → Except ReadError String) (names : List String) : Outcome :=
  match readAll read names with
  | .ok sources => compileSources sources
  | .error failure => ⟨1, [failure]⟩

def runPrompt (input : Text.Input) : Outcome :=
  if input.broken then ⟨1, Prompt.transcriptUntilBroken input.lines ++ [inputFailure]⟩
  else ⟨0, Prompt.transcript input.lines⟩

def run (files : FileTree) (arguments : List String) (stdin : ByteArray) : Outcome :=
  if arguments.isEmpty then runPrompt (.ofBytes stdin)
  else runFiles files.read arguments

end CommandLine

end LambdaCalculus
