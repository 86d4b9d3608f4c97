import Kevy.Lib.LittleEndian
import Mathlib.Data.List.Lex

/-!
# The order of byte strings

Bytes are ordered as numbers and byte strings as words, the way slices of bytes compare.
-/

namespace Kevy.Lib

open List

instance byteLinearOrder : LinearOrder UInt8 where
  le_refl := UInt8.le_refl
  le_trans _ _ _ := UInt8.le_trans
  lt_iff_le_not_ge _ _ := by
    simp only [UInt8.lt_iff_toNat_lt, UInt8.le_iff_toNat_le]
    omega
  le_antisymm _ _ := UInt8.le_antisymm
  le_total := UInt8.le_total
  toDecidableLE := inferInstance
  toDecidableEq := inferInstance
  toDecidableLT := inferInstance

theorem append_lt_append {A B C D : List UInt8} (hlen : A.length = B.length) (h : A < B) : A ++ C < B ++ D := by
  induction A generalizing B with
  | nil =>
    rw [length_eq_zero_iff.mp hlen.symm] at h
    exact absurd h (lt_irrefl _)
  | cons a A ih =>
    obtain ⟨b, B, rfl⟩ := exists_cons_of_length_eq_add_one hlen.symm
    rcases cons_lt_cons_iff.mp h with hlt | ⟨rfl, hlt⟩
    · exact cons_lt_cons_iff.mpr (.inl hlt)
    · exact cons_lt_cons_iff.mpr (.inr ⟨rfl, ih (Nat.succ.inj hlen) hlt⟩)

theorem reverse_leBytes_lt {w i j : Nat} (hij : i < j) (hj : j < 256 ^ w) : (leBytes w i).reverse < (leBytes w j).reverse := by
  induction w generalizing i j with
  | zero => omega
  | succ w ih =>
    rw [leBytes, leBytes, reverse_cons, reverse_cons]
    rcases Nat.lt_or_ge (i / 256) (j / 256) with hlt | hge
    · refine append_lt_append (by simp) (ih hlt ?_)
      rw [Nat.pow_succ, Nat.mul_comm] at hj
      exact Nat.div_lt_of_lt_mul hj
    · have heq : i / 256 = j / 256 := by omega
      have hlow : UInt8.ofNat (i % 256) < UInt8.ofNat (j % 256) := by
        have hbyte (n : Nat) : (UInt8.ofNat (n % 256)).toNat = n % 256 :=
          UInt8.toNat_ofNat_of_lt' (Nat.mod_lt _ (by decide))
        rw [UInt8.lt_iff_toNat_lt, hbyte, hbyte]
        omega
      rw [heq]
      exact append_left_lt (cons_lt_cons_iff.mpr (.inl hlow))

end Kevy.Lib
