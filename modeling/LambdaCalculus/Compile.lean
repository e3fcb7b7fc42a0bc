import LambdaCalculus.Code.Generate
import LambdaCalculus.Expr.Parse
import LambdaCalculus.Load
import Std.Data.TreeMap

/-! # Compiling

A source text is parsed, turned into code, and loaded.  All diagnostics are collected, the parser's
first.  A value is always returned; it is meaningful only if there are no diagnostics.
-/
namespace LambdaCalculus

/-- Named values, outermost first. -/
abbrev Globals (φ : Type) := List (String × Value φ)

structure Compilation (φ : Type) where
  value : Value φ
  program : Program
  diagnostics : List Diagnostic

abbrev Batch (φ : Type) := Std.TreeMap String (Compilation φ)

namespace Compilation

variable {φ : Type}

def isOk (c : Compilation φ) : Bool := c.diagnostics.isEmpty

end Compilation

section

variable {φ : Type}

def compile (globals : Globals φ) (source : String) (m : Machine φ) :
    Compilation φ × Machine φ :=
  let parsed := Expr.parse source
  let generated := parsed.expr.generate (globals.map (·.1))
  let problems := parsed.diagnostics ++ generated.diagnostics
  match generated.program.load (globals.map (·.2)) m with
  | .ok (value, m) => (⟨value, generated.program, problems⟩, m)
  | .error e => (⟨.undefined, generated.program, problems ++ [.load e]⟩, m)

def Batch.add (globals : Globals φ) (state : Batch φ × Machine φ) (named : String × String) :
    Batch φ × Machine φ :=
  let (compilation, m) := compile globals named.2 state.2
  (state.1.insert named.1 compilation, m)

/-- Compiles named sources in order.  Of two sources with one name the later is kept. -/
def compileAll (globals : Globals φ) (sources : List (String × String)) (m : Machine φ) :
    Batch φ × Machine φ :=
  sources.foldl (Batch.add globals) (∅, m)

def Batch.isOk (b : Batch φ) : Bool := b.toList.all (·.2.isOk)

end

end LambdaCalculus
