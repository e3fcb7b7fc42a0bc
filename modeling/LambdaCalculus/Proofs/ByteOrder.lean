import LambdaCalculus.Text
import Mathlib.Algebra.Group.Nat.Defs
import Mathlib.Tactic.SplitIfs
import Std.Data.TreeMap

/-! # Texts in byte order

Texts are compared by their characters.  This is the order of their UTF-8 bytes: the lead byte
determines the number of bytes, which is monotone in the code point, and characters with equally
many bytes hold the digits of the code point, the highest first.
-/
namespace LambdaCalculus

namespace Text

def bytes (text : String) : List UInt8 := text.toUTF8.data.toList

theorem bytes_eq (text : String) : bytes text = text.toList.flatMap String.utf8EncodeChar := by
  have hutf8 : bytes (String.ofList text.toList) = text.toList.flatMap String.utf8EncodeChar := by
    rw [bytes, String.toUTF8_eq_toByteArray, String.toByteArray_ofList, List.utf8Encode,
      List.toList_data_toByteArray]
  rwa [String.ofList_toList] at hutf8

/-- The bytes after the lead byte: the last `count` base-64 digits of a code point. -/
def continuation (x : Nat) : Nat → List UInt8
  | 0 => []
  | count + 1 => .ofNat (x / 64 ^ count % 64 + 128) :: continuation x count

section

variable {x y : Nat} {s t : List UInt8}

theorem ofNat_cons_lt {a b : Nat} (ha : a < 256) (hb : b < 256) (h : a < b ∨ a = b ∧ s < t) :
    UInt8.ofNat a :: s < UInt8.ofNat b :: t := by
  apply List.cons_lt_cons_iff.mpr
  rcases h with hlt | ⟨rfl, hrest⟩
  · exact .inl ((UInt8.ofNat_lt_iff_lt ha hb).mpr hlt)
  · exact .inr ⟨rfl, hrest⟩

-- The induction goes from the last digit to higher ones.
theorem continuation_lt (hlt : x < y) {count : Nat} (h : x / 64 ^ count = y / 64 ^ count) :
    continuation x count ++ s < continuation y count ++ t := by
  induction count with
  | zero =>
    rw [Nat.pow_zero, Nat.div_one, Nat.div_one] at h
    omega
  | succ count ih =>
    rw [Nat.pow_succ, ← Nat.div_div_eq_div_mul, ← Nat.div_div_eq_div_mul] at h
    have hle : x / 64 ^ count ≤ y / 64 ^ count := Nat.div_le_div_right (Nat.le_of_lt hlt)
    apply ofNat_cons_lt (by omega) (by omega)
    by_cases hdigit : x / 64 ^ count = y / 64 ^ count
    · exact .inr ⟨by rw [hdigit], ih hdigit⟩
    · exact .inl (by omega)

/-- The lead bytes of characters with equally many bytes hold the highest digits. -/
theorem lead_cons_lt (hlt : x < y) (count : Nat) {mark : Nat} (hbyte : y / 64 ^ count + mark < 256)
    (s t : List UInt8) :
    UInt8.ofNat (x / 64 ^ count + mark) :: (continuation x count ++ s) <
      UInt8.ofNat (y / 64 ^ count + mark) :: (continuation y count ++ t) := by
  have hle : x / 64 ^ count ≤ y / 64 ^ count := Nat.div_le_div_right (Nat.le_of_lt hlt)
  apply ofNat_cons_lt (by omega) hbyte
  by_cases hlead : x / 64 ^ count = y / 64 ^ count
  · exact .inr ⟨by rw [hlead], continuation_lt hlt hlead⟩
  · exact .inl (by omega)

end

/-- A smaller character has smaller bytes, whatever follows. -/
theorem utf8EncodeChar_lt {c d : Char} (h : c < d) (s t : List UInt8) :
    String.utf8EncodeChar c ++ s < String.utf8EncodeChar d ++ t := by
  have hlt : c.val.toNat < d.val.toNat := h
  have hmax : d.val.toNat < 0x110000 := by
    rcases d.valid with hvalid | ⟨-, hvalid⟩
    · exact Nat.lt_trans hvalid (by decide)
    · exact hvalid
  unfold String.utf8EncodeChar
  generalize c.val.toNat = x at hlt ⊢
  generalize d.val.toNat = y at hlt hmax ⊢
  dsimp only
  by_cases hx₁ : x ≤ 0x7f
  · rw [if_pos hx₁]
    split_ifs <;> exact ofNat_cons_lt (by omega) (by omega) (.inl (by omega))
  rw [if_neg hx₁, if_neg (show ¬ y ≤ 0x7f by omega)]
  by_cases hx₂ : x ≤ 0x7ff
  · rw [if_pos hx₂]
    by_cases hy₂ : y ≤ 0x7ff
    · rw [if_pos hy₂]
      have hbyte : y / 64 ^ 1 + 192 < 256 := by omega
      rw [Nat.mod_eq_of_lt (show x / 64 < 32 by omega),
        Nat.mod_eq_of_lt (show y / 64 < 32 by omega)]
      simpa [continuation] using lead_cons_lt hlt 1 hbyte s t
    · rw [if_neg hy₂]
      split_ifs <;> exact ofNat_cons_lt (by omega) (by omega) (.inl (by omega))
  rw [if_neg hx₂, if_neg (show ¬ y ≤ 0x7ff by omega)]
  by_cases hx₃ : x ≤ 0xffff
  · rw [if_pos hx₃]
    by_cases hy₃ : y ≤ 0xffff
    · rw [if_pos hy₃]
      have hbyte : y / 64 ^ 2 + 224 < 256 := by omega
      rw [Nat.mod_eq_of_lt (show x / 4096 < 16 by omega),
        Nat.mod_eq_of_lt (show y / 4096 < 16 by omega)]
      simpa [continuation] using lead_cons_lt hlt 2 hbyte s t
    · rw [if_neg hy₃]
      exact ofNat_cons_lt (by omega) (by omega) (.inl (by omega))
  · rw [if_neg hx₃, if_neg (show ¬ y ≤ 0xffff by omega)]
    have hbyte : y / 64 ^ 3 + 240 < 256 := by omega
    rw [Nat.mod_eq_of_lt (show x / 262144 < 8 by omega),
      Nat.mod_eq_of_lt (show y / 262144 < 8 by omega)]
    simpa [continuation] using lead_cons_lt hlt 3 hbyte s t

theorem flatMap_utf8EncodeChar_lt {a b : List Char} (h : a < b) :
    a.flatMap String.utf8EncodeChar < b.flatMap String.utf8EncodeChar := by
  induction a generalizing b with
  | nil =>
    cases b with
    | nil => exact absurd h (List.not_lt_nil _)
    | cons d b =>
      have hne : String.utf8EncodeChar d ≠ [] := String.utf8EncodeChar_ne_nil
      obtain ⟨x, rest, hd⟩ := List.exists_cons_of_ne_nil hne
      rw [List.flatMap_cons, hd]
      exact List.nil_lt_cons _ _
  | cons c a ih =>
    cases b with
    | nil => exact absurd h (List.not_lt_nil _)
    | cons d b =>
      rw [List.flatMap_cons, List.flatMap_cons]
      rcases List.cons_lt_cons_iff.mp h with hlt | ⟨rfl, hrest⟩
      · exact utf8EncodeChar_lt hlt _ _
      · exact List.append_left_lt (ih hrest)

/-- The order of texts is the order of their bytes. -/
theorem bytes_lt {a b : String} (h : a < b) : bytes a < bytes b := by
  rw [bytes_eq, bytes_eq]
  exact flatMap_utf8EncodeChar_lt h

/-! ## Names in order -/

/-- `order` lists the names in byte order, without repetition. -/
structure Lists (order names : List String) : Prop where
  increasing : order.Pairwise fun a b => bytes a < bytes b
  mem_iff : ∀ name, name ∈ order ↔ name ∈ names

theorem Lists.nodup {order names : List String} (h : Lists order names) : order.Nodup := by
  refine h.increasing.imp ?_
  rintro a b hlt rfl
  exact List.lt_irrefl _ hlt

theorem Lists.unique {order order' names : List String} (h : Lists order names)
    (h' : Lists order' names) : order = order' := by
  have hperm : order.Perm order' :=
    (List.perm_ext_iff_of_nodup h.nodup h'.nodup).mpr fun name =>
      (h.mem_iff name).trans (h'.mem_iff name).symm
  refine hperm.eq_of_pairwise ?_ h.increasing h'.increasing
  intro a b _ _ hab hba
  exact absurd hba (List.lt_asymm hab)

theorem lists_keys {β : Type} {map : Std.TreeMap String β} {names : List String}
    (h : ∀ name, name ∈ map ↔ name ∈ names) : Lists map.keys names where
  increasing := by
    have hordered : map.keys.Pairwise fun a b => compare a b = .lt := Std.TreeMap.ordered_keys
    refine hordered.imp ?_
    intro a b hlt
    exact bytes_lt (compareOfLessAndEq_eq_lt.mp hlt)
  mem_iff name := Std.TreeMap.mem_keys.trans (h name)

end Text

end LambdaCalculus
