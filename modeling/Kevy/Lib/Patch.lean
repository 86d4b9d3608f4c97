import Mathlib.Data.List.Basic

/-!
# Writing over a part of a buffer

`patch buf off xs` is the buffer with `xs` in place of what was there from `off` on (`copy_from_slice` into a slice of
it). Writes side by side are one write, and a write into a buffer whose parts are known replaces parts.
-/

namespace Kevy.Lib

open List

variable {α : Type*} {buf xs ys A B C : List α} {off : Nat}

def patch (buf : List α) (off : Nat) (xs : List α) : List α := buf.take off ++ (xs ++ buf.drop (off + xs.length))

theorem patch_middle (h : xs.length = B.length) : patch (A ++ (B ++ C)) A.length xs = A ++ (xs ++ C) := by
  unfold patch
  rw [take_left, h, ← drop_drop, drop_left, drop_left]

theorem patch_front (h : xs.length = B.length) : patch (B ++ C) 0 xs = xs ++ C := by
  unfold patch
  rw [h, Nat.zero_add, drop_left]
  rfl

theorem patch_behind (hoff : off = A.length) (h : xs.length ≤ B.length) :
    patch (A ++ B) off xs = A ++ (xs ++ B.drop xs.length) := by
  subst hoff
  have hsplit : B = B.take xs.length ++ B.drop xs.length := (take_append_drop _ _).symm
  have hlen : xs.length = (B.take xs.length).length := by
    rw [length_take]
    omega
  nth_rewrite 1 [hsplit]
  exact patch_middle hlen

theorem patch_patch (buf : List α) {next : Nat} (hnext : next = off + xs.length) (h : next + ys.length ≤ buf.length) :
    patch (patch buf off xs) next ys = patch buf off (xs ++ ys) := by
  have hA : next = (buf.take off ++ xs).length := by
    rw [length_append, length_take]
    omega
  have hB : ys.length ≤ (buf.drop (off + xs.length)).length := by
    rw [length_drop]
    omega
  have hassoc : patch buf off xs = (buf.take off ++ xs) ++ buf.drop (off + xs.length) := by
    rw [patch, append_assoc]
  rw [hassoc, patch_behind hA hB, drop_drop, patch, length_append]
  simp only [append_assoc, Nat.add_assoc]

end Kevy.Lib
