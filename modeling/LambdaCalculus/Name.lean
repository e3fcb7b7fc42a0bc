/-! # Spelling of generated names

A source name may hold almost any character.  In generated code it is spelled with ASCII letters,
digits, underscores and the marker `$`: every other character becomes the marker and a word, or the
marker, `u` and its code point in hexadecimal.
-/
namespace LambdaCalculus

namespace Name

def words : List (Char × String) :=
  [('+', "plus"), ('-', "minus"), ('*', "times"), ('/', "bar"),
   ('%', "perc"), ('$', "dollar"), ('>', "gt"), ('<', "lt"),
   ('=', "eq"), ('&', "and"), ('|', "pipe"), ('^', "cflex"),
   ('~', "tilde"), ('!', "excl"), ('?', "quest"), ('\x27', "quote"),
   (':', "colon"), ('#', "hash"), ('@', "at"), (',', "comma"),
   (';', "semi"), ('[', "lbrack"), (']', "rbrack"), ('\x7b', "lbrace"),
   ('\x7d', "rbrace"), ('\x22', "dquote"), ('\x60', "tick")]

def isPlain (c : Char) : Bool := c.isAlphanum || c = '_'

def hex4 (n : Nat) : List Char :=
  let digits := Nat.toDigits 16 n
  List.replicate (4 - digits.length) '0' ++ digits

def spellChar (c : Char) : List Char :=
  if isPlain c then [c]
  else match words.lookup c with
    | some word => '$' :: word.toList
    | none => '$' :: 'u' :: hex4 c.toNat

def spellChars (name : List Char) : List Char := '$' :: name.flatMap spellChar

/-- The spelling of a source name.  It starts with the marker, so it is not a keyword and may
continue with a digit. -/
def spell (name : String) : String := String.ofList (spellChars name.toList)

end Name

end LambdaCalculus
