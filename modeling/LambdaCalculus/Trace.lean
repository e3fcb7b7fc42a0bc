import LambdaCalculus.Compile

/-! # Traces

The events of compiling a source, stage by stage.
-/
namespace LambdaCalculus

inductive Event where
  | lexed (token : Token)
  /-- `problems` is the number of the parser's diagnostics. -/
  | parsed (problems : Nat)
  /-- `problems` is the number of the generator's diagnostics. -/
  | generated (code : Code) (position : Option Position) (problems : Nat)
  | loaded (globals : Nat) (deferred : Bool)
  deriving DecidableEq, Repr

/-- The event of the loader; there is none for code that cannot be loaded. -/
def Program.loadEvents (p : Program) (values : Nat) : List Event :=
  if p.globals.length = values then
    match p.code.resolve p.globals.reverse with
    | .ok t => [.loaded values t.isApplication]
    | .error _ => []
  else []

def trace (globals : List String) (source : String) : List Event :=
  let scanned := Token.scan source
  let parsed := Expr.ofTokens scanned
  let generated := parsed.expr.generate globals
  scanned.all.map .lexed
    ++ [.parsed parsed.diagnostics.length,
        .generated generated.program.code parsed.expr.position? generated.diagnostics.length]
    ++ generated.program.loadEvents globals.length

end LambdaCalculus
