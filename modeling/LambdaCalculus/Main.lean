import LambdaCalculus.CommandLine

/-! # The program -/
namespace LambdaCalculus

namespace CommandLine

def write : Output → IO Unit
  | .out text => do
    let stdout ← IO.getStdout
    stdout.putStr text
    stdout.flush
  | .err text => IO.eprint text

def readError : IO.Error → ReadError
  | .noFileOrDirectory .. => .missing
  | .inappropriateType _ code _ =>
    if code = 21 then .isDirectory else .notDirectory
  | .invalidArgument .. => .nameTooLong
  | e => .other e.toString

def readFile (name : String) : IO (Except ReadError String) := do
  try return ReadError.decode (← IO.FS.readBinFile name)
  catch e => return .error (readError e)

/-- The bytes of the next line with its newline, after those of it already read. -/
partial def readLine (stdin : IO.FS.Stream) (line : ByteArray) : IO ByteArray := do
  let byte ← stdin.read 1
  if byte.isEmpty then return line
  else if byte.toList = [10] then return line ++ byte
  else readLine stdin (line ++ byte)

partial def promptLoop (stdin : IO.FS.Stream) (p : Prompt Empty) : IO UInt32 := do
  write (.out p.cue)
  let line ← readLine stdin .empty
  if line.isEmpty then
    p.answerEnd.forM write
    return 0
  match String.fromUTF8? line with
  | none =>
    write inputFailure
    return 1
  | some line =>
    (p.answer line).forM write
    promptLoop stdin (p.next line)

end CommandLine

end LambdaCalculus

open LambdaCalculus CommandLine in
def main (arguments : List String) : IO UInt32 := do
  if arguments.isEmpty then
    promptLoop (← IO.getStdin) .start
  else
    let contents ← arguments.mapM fun name => return (name, ← readFile name)
    let read name := (contents.lookup name).getD (.error .missing)
    let outcome := runFiles read arguments
    outcome.output.forM write
    return outcome.exit.toUInt32
