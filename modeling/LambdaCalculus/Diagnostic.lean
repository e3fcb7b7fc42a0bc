import LambdaCalculus.Error
import LambdaCalculus.Token

/-! # Diagnostics

A diagnostic is a problem in a source text.  It holds its cause, which determines its position and
its message.
-/
namespace LambdaCalculus

inductive Diagnostic where
  /-- A token that cannot stand where it was found. -/
  | unexpected (found : Token)
  /-- An expression that ended before it had a term. -/
  | emptyExpression (found : Token)
  | missingParameter (found : Token)
  | missingDelimiter (found : Token)
  /-- A diagnostic inside a group that is never closed. -/
  | unclosedGroup (opening : Token) (within : Diagnostic)
  | unresolved (occurrence : Token)
  | load (error : LoadError)
  deriving DecidableEq, Repr

namespace Diagnostic

/-- The position of the cause.  A load error is reported at the start of the text. -/
def position : Diagnostic → Position
  | .unexpected t | .emptyExpression t | .missingParameter t | .missingDelimiter t => t.position
  | .unclosedGroup _ within => within.position
  | .unresolved t => t.position
  | .load _ => .start

def message : Diagnostic → String
  | .unexpected t => s!"unexpected token {t.raw}"
  | .emptyExpression t => s!"empty expression (found {t.raw})"
  | .missingParameter t => s!"expecting identifier, found {t.raw}"
  | .missingDelimiter t => s!"expecting . (body delimiter), found {t.raw}"
  | .unclosedGroup opening within =>
    within.message ++ s!" (the cause is likely to be the parenthesis at line {opening.position.line}"
      ++ s!" column {opening.position.column})"
  | .unresolved t => s!"unresolved variable `{t.raw}`"
  | .load error => error.message

def text (d : Diagnostic) : String :=
  s!"{d.position.line}:{d.position.column}: " ++ d.message

def isUnclosedGroup : Diagnostic → Bool
  | .unclosedGroup .. => true
  | _ => false

end Diagnostic

end LambdaCalculus
