/-! # Positions in a source text -/
namespace LambdaCalculus

/-- A place between two characters: the number of bytes before it in UTF-8, and the line and column
of the character after it, both counted from one and modulo `2 ^ 32`. -/
structure Position where
  offset : Nat
  line : UInt32
  column : UInt32
  deriving DecidableEq, Repr

namespace Position

def start : Position := ⟨0, 1, 1⟩

/-- The position after `c`.  Only a newline starts a new line. -/
def advance (p : Position) (c : Char) : Position :=
  if c = '\n' then ⟨p.offset + c.utf8Size, p.line + 1, 1⟩
  else ⟨p.offset + c.utf8Size, p.line, p.column + 1⟩

def advanceAll (p : Position) (text : List Char) : Position := text.foldl advance p

@[simp] theorem advanceAll_nil (p : Position) : p.advanceAll [] = p := rfl

@[simp] theorem advanceAll_cons (p : Position) (c : Char) (text : List Char) :
    p.advanceAll (c :: text) = (p.advance c).advanceAll text := rfl

theorem advanceAll_append (p : Position) (s t : List Char) :
    p.advanceAll (s ++ t) = (p.advanceAll s).advanceAll t :=
  List.foldl_append

end Position

end LambdaCalculus
