import LambdaCalculus.Token
import LambdaCalculus.Transducer

/-! # Scanning

A text is split into tokens in one pass over its characters.  The state of the scanner is the
current position and the identifier in progress, if any; a token is emitted at the character that
ends it.
-/
namespace LambdaCalculus

namespace Token

/-- An identifier in progress: its start, and its characters in reverse order. -/
structure Word where
  start : Position
  letters : List Char
  deriving DecidableEq, Repr

def Word.token (w : Word) : Token :=
  ⟨.identifier, w.start, String.ofList w.letters.reverse⟩

structure Scanner where
  position : Position
  word : Option Word
  deriving DecidableEq, Repr

namespace Scanner

def start : Scanner := ⟨.start, none⟩

def pending (s : Scanner) : List Token :=
  match s.word with
  | none => []
  | some w => [w.token]

def extend (s : Scanner) (c : Char) : Word :=
  match s.word with
  | none => ⟨s.position, [c]⟩
  | some w => ⟨w.start, c :: w.letters⟩

def next (s : Scanner) (c : Char) : Scanner :=
  ⟨s.position.advance c, if isIdentifierChar c then some (s.extend c) else none⟩

def symbol (s : Scanner) (c : Char) : List Token :=
  match reserved? c with
  | none => []
  | some kind => [⟨kind, s.position, String.singleton c⟩]

def emit (s : Scanner) (c : Char) : List Token :=
  if isIdentifierChar c then [] else s.pending ++ s.symbol c

def transducer : Transducer Scanner Char Token := ⟨next, emit⟩

end Scanner

structure Scanned where
  tokens : List Token
  endOfFile : Token
  deriving DecidableEq, Repr

def Scanned.all (s : Scanned) : List Token := s.tokens ++ [s.endOfFile]

def scanChars (text : List Char) : Scanned :=
  let final := Scanner.transducer.reach .start text
  ⟨Scanner.transducer.output .start text ++ final.pending, .atEnd final.position⟩

def scan (source : String) : Scanned := scanChars source.toList

end Token

end LambdaCalculus
