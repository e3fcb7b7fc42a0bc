/-! # Lines of text

Input is a sequence of bytes.  A text is split into lines, each with the newline that ends it; lines
are readable up to the first that is not UTF-8.
-/
namespace LambdaCalculus

namespace Text

/-- Splits a list after every item that satisfies `ends`. -/
def splitAfter {α : Type} (ends : α → Bool) (xs : List α) : List (List α) :=
  xs.foldr
    (fun x pieces =>
      if ends x then [x] :: pieces
      else match pieces with
        | [] => [[x]]
        | piece :: pieces => (x :: piece) :: pieces)
    []

theorem flatten_splitAfter {α : Type} (ends : α → Bool) (xs : List α) :
    (splitAfter ends xs).flatten = xs := by
  induction xs with
  | nil => rfl
  | cons x xs ih =>
    rw [splitAfter, List.foldr_cons, ← splitAfter]
    split
    · simp [ih]
    · split <;> simp_all

def lines (text : String) : List String :=
  (splitAfter (· = '\n') text.toList).map String.ofList

structure Input where
  lines : List String
  broken : Bool
  deriving DecidableEq, Repr

def linesUntilBroken (bytes : ByteArray) : List String :=
  let decoded := (splitAfter (· = 10) bytes.toList).map fun line => String.fromUTF8? ⟨line.toArray⟩
  (decoded.takeWhile (·.isSome)).filterMap id

def Input.ofBytes (bytes : ByteArray) : Input :=
  match String.fromUTF8? bytes with
  | some text => ⟨Text.lines text, false⟩
  | none => ⟨linesUntilBroken bytes, true⟩

end Text

end LambdaCalculus
