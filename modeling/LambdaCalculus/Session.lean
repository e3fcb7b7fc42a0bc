import LambdaCalculus.Builtin
import LambdaCalculus.Compile

/-! # Sessions

A session compiles, calls and inspects values, one command after another.  Values are stored in
named registers, and each command reports the host calls it made.
-/
namespace LambdaCalculus

inductive Recipe where
  | undefined
  | register (name : String)
  | atom (name : String)
  /-- The value of a source without globals, with or without diagnostics. -/
  | source (text : String)
  | native (function : Builtin) (held : Recipe)
  deriving DecidableEq, Repr

structure Session where
  machine : Machine Builtin
  registers : List (String × Value Builtin)
  /-- The number of host calls already reported. -/
  reported : Nat

namespace Session

/-- A step of a session, which fails if evaluation has no outcome. -/
abbrev Command := StateT Session Option

def start : Session := ⟨.empty, [], 0⟩

def make : Recipe → Command (Value Builtin)
  | .undefined => return .undefined
  | .register name => return ((← get).registers.lookup name).getD .undefined
  | .atom name => return .atom name
  | .source text => modifyGet fun s =>
    let (compilation, m) := LambdaCalculus.compile [] text s.machine
    (compilation.value, { s with machine := m })
  | .native function held => return .native function [← make held]

def makeGlobals (globals : List (String × Recipe)) : Command (Globals Builtin) :=
  globals.mapM fun (name, recipe) => return (name, ← make recipe)

def run {α : Type} (computation : Run Builtin α) : Command (Except RuntimeError α) := fun s => do
  let (result, m) ← computation s.machine
  return (result, { s with machine := m })

def compile (source : String) (globals : List (String × Recipe)) :
    Command (Compilation Builtin) := do
  let globals ← makeGlobals globals
  modifyGet fun s =>
    let (compilation, m) := LambdaCalculus.compile globals source s.machine
    (compilation, { s with machine := m })

def compileAll (sources : List (String × String)) (globals : List (String × Recipe)) :
    Command (Batch Builtin) := do
  let globals ← makeGlobals globals
  modifyGet fun s =>
    let (batch, m) := LambdaCalculus.compileAll globals sources s.machine
    (batch, { s with machine := m })

def load (program : Program) (values : List Recipe) :
    Command (Except LoadError (Value Builtin)) := do
  let values ← values.mapM make
  modifyGet fun s =>
    match program.load values s.machine with
    | .ok (v, m) => (.ok v, { s with machine := m })
    | .error e => (.error e, s)

def call (f x : Recipe) : Command (Result Builtin) := do
  run (Builtin.host.call (← make f) (← make x))

def applyAll (f : Recipe) (args : List Recipe) : Command (Result Builtin) := do
  run (Builtin.host.applyAll (← make f) (← args.mapM make))

def force (v : Recipe) : Command (Result Builtin) := do
  run (Builtin.host.force (← make v))

def asAtom (v : Recipe) : Command (Option String) := do
  return (← run (Builtin.host.asAtom (← make v))).toOption.join

def isCallable (v : Recipe) : Command Bool := do
  return (← run (Builtin.host.isCallable (← make v))).toOption.getD false

def describe (v : Recipe) : Command String := do
  let v ← make v
  return v.describe (← get).machine

def keep (register : Option String) (v : Value Builtin) : Command Unit :=
  match register with
  | none => return
  | some name => modify fun s => { s with registers := (name, v) :: s.registers }

/-- Stores a result in a register; after an error the register is unchanged. -/
def keepResult (register : Option String) : Result Builtin → Command Unit
  | .ok v => keep register v
  | .error _ => return

def report : Command (List (Call Builtin)) := modifyGet fun s =>
  (s.machine.callsSince s.reported, { s with reported := s.machine.calls.length })

/-- The result of applying a value to arguments, and of forcing that result. -/
structure Trial where
  result : Result Builtin
  calls : List (Call Builtin)
  forced : Option (Result Builtin × List (Call Builtin))

def trial (v : Value Builtin) (args : List Recipe) : Command Trial := do
  let result ← run (Builtin.host.applyAll v (← args.mapM make))
  let calls ← report
  match result with
  | .error _ => return ⟨result, calls, none⟩
  | .ok w =>
    let forced ← run (Builtin.host.force w)
    return ⟨result, calls, some (forced, ← report)⟩

end Session

end LambdaCalculus
