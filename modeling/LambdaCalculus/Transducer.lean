/-! # Left-to-right transducers

A transducer reads its input one item at a time and emits a block of output for each, determined by
the item and the state before it.  The scanner and the reader are transducers.
-/
namespace LambdaCalculus

structure Transducer (σ α β : Type) where
  next : σ → α → σ
  emit : σ → α → List β

namespace Transducer

variable {σ α β : Type} (T : Transducer σ α β)

/-- The state after reading the whole input from `s`. -/
def reach (s : σ) (xs : List α) : σ := xs.foldl T.next s

/-- The output of a run, appended to the reverse of `emitted`. -/
def outputOnto (emitted : List β) : σ → List α → List β
  | _, [] => emitted.reverse
  | s, x :: xs => outputOnto ((T.emit s x).reverseAux emitted) (T.next s x) xs

def output (s : σ) (xs : List α) : List β := T.outputOnto [] s xs

theorem outputOnto_eq (emitted : List β) (s : σ) (xs : List α) :
    T.outputOnto emitted s xs = emitted.reverse ++ T.output s xs := by
  induction xs generalizing emitted s with
  | nil => simp [outputOnto, output]
  | cons x xs ih =>
    rw [output, outputOnto, outputOnto, ih, ih ((T.emit s x).reverseAux [])]
    simp [List.reverseAux_eq]

@[simp] theorem reach_nil (s : σ) : T.reach s [] = s := rfl

@[simp] theorem reach_cons (s : σ) (x : α) (xs : List α) :
    T.reach s (x :: xs) = T.reach (T.next s x) xs := rfl

@[simp] theorem output_nil (s : σ) : T.output s [] = [] := rfl

@[simp] theorem output_cons (s : σ) (x : α) (xs : List α) :
    T.output s (x :: xs) = T.emit s x ++ T.output (T.next s x) xs := by
  rw [output, outputOnto, outputOnto_eq]
  simp [List.reverseAux_eq]

theorem reach_append (s : σ) (xs ys : List α) :
    T.reach s (xs ++ ys) = T.reach (T.reach s xs) ys :=
  List.foldl_append

theorem output_append (s : σ) (xs ys : List α) :
    T.output s (xs ++ ys) = T.output s xs ++ T.output (T.reach s xs) ys := by
  induction xs generalizing s with
  | nil => rfl
  | cons x xs ih => simp [ih]

end Transducer

end LambdaCalculus
