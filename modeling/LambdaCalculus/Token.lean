import LambdaCalculus.Position

/-! # Tokens

A binder is a backslash or a small lambda.  Every character other than whitespace and the five
reserved ones may occur in an identifier.
-/
namespace LambdaCalculus

namespace Token

inductive Kind where
  | binder
  | bodyDelimiter
  | groupOpen
  | groupClose
  | identifier
  | endOfFile
  deriving DecidableEq, Repr

end Token

structure Token where
  kind : Token.Kind
  position : Position
  raw : String
  deriving DecidableEq, Repr

namespace Token

/-- The token at the end of the source.  Its text does not occur there. -/
def atEnd (p : Position) : Token := ⟨.endOfFile, p, "end of file"⟩

def name? (t : Token) : Option String :=
  if t.kind = .identifier then some t.raw else none

def isEndOfFile (t : Token) : Bool := t.kind = .endOfFile

end Token

def isWhitespace (c : Char) : Bool :=
  c = ' ' || c = '\t' || c = '\n' || c = '\r'

/-- The kind of the token that consists of a reserved character. -/
def reserved? (c : Char) : Option Token.Kind :=
  if c = '\\' ∨ c = 'λ' then some .binder
  else if c = '.' then some .bodyDelimiter
  else if c = '(' then some .groupOpen
  else if c = ')' then some .groupClose
  else none

def isIdentifierChar (c : Char) : Bool :=
  !isWhitespace c && (reserved? c).isNone

def isIdentifier (name : String) : Bool :=
  !name.isEmpty && name.toList.all isIdentifierChar

end LambdaCalculus
