import Mathlib.Data.Nat.ModEq

/-!
# Circular buffers over logical offsets

A buffer of `cap` cells is addressed by offsets that only grow: offset `q` lives in cell `q % cap`. A write
at offset `p` therefore leaves alone every offset of the window that ends at its own end, as long as the
written block does not cross the end of the buffer (`overwrite_behind`).
-/

namespace Kevy.Lib

variable {β : Type*}

def slice (cells : Nat → β) (off len : Nat) : List β := (List.range len).map fun i => cells (off + i)

def overwrite (cells : Nat → β) (off : Nat) (xs : List β) : Nat → β := fun i =>
  if off ≤ i then xs[i - off]?.getD (cells i) else cells i

variable {cells cells' : Nat → β} {cap p q off len : Nat} {xs : List β}

@[simp] theorem length_slice : (slice cells off len).length = len := by
  simp [slice]

theorem slice_add (m n : Nat) : slice cells off (m + n) = slice cells off m ++ slice cells (off + m) n := by
  simp [slice, List.range_add, Function.comp_def, Nat.add_assoc]

theorem slice_congr (h : ∀ i < len, cells' (off + i) = cells (off + i)) :
    slice cells' off len = slice cells off len := by
  apply List.map_congr_left
  intro i hi
  exact h i (List.mem_range.mp hi)

theorem overwrite_outside (h : q < off ∨ off + xs.length ≤ q) : overwrite cells off xs q = cells q := by
  unfold overwrite
  split_ifs with hle
  · rw [List.getElem?_eq_none (by omega), Option.getD_none]
  · rfl

@[simp] theorem slice_overwrite : slice (overwrite cells off xs) off xs.length = xs := by
  apply List.ext_getElem (by simp)
  intro i _ hi
  simp [slice, overwrite, hi]

theorem slice_overwrite_of_disjoint (h : off + len ≤ p ∨ p + xs.length ≤ off) :
    slice (overwrite cells p xs) off len = slice cells off len :=
  slice_congr fun _ _ => overwrite_outside (by omega)

theorem add_mod_of_fits {i : Nat} (h : p % cap + i < cap) : (p + i) % cap = p % cap + i := by
  rw [Nat.add_mod, Nat.mod_eq_of_lt (Nat.lt_of_le_of_lt (Nat.le_add_left i _) h), Nat.mod_eq_of_lt h]

theorem mod_ne_of_window (hlt : q < p) (hwin : p < q + cap) : p % cap ≠ q % cap := by
  intro heq
  have hdvd : cap ∣ p - q := Nat.dvd_of_mod_eq_zero (Nat.sub_mod_eq_zero_of_mod_eq heq)
  have := Nat.le_of_dvd (by omega) hdvd
  omega

theorem overwrite_behind (hlt : q < p) (hwin : p + xs.length ≤ q + cap)
    (hfit : p % cap + xs.length ≤ cap) : overwrite cells (p % cap) xs (q % cap) = cells (q % cap) := by
  apply overwrite_outside
  by_contra hin
  rw [not_or, Nat.not_lt, Nat.not_le] at hin
  -- then `q` shares its cell with an offset of the block
  obtain ⟨i, hi⟩ := Nat.exists_eq_add_of_le hin.1
  have hmod : (p + i) % cap = p % cap + i := add_mod_of_fits (by omega)
  have hne : (p + i) % cap ≠ q % cap := mod_ne_of_window (by omega) (by omega)
  exact hne (hmod.trans hi.symm)

end Kevy.Lib
