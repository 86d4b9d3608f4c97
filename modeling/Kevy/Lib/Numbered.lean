import Mathlib.Data.List.Range

/-!
# Runs of consecutive numbers

A list whose elements carry consecutive numbers: what a bounded log keeps of its history. The search for a number in
such a list is a subtraction.
-/

namespace Kevy.Lib

open List

variable {α : Type} {num : α → Nat} {n : Nat} {l : List α}

def Numbered (num : α → Nat) (n : Nat) (l : List α) : Prop := l.map num = List.range' n l.length

theorem Numbered.nil : Numbered num n [] := rfl

theorem Numbered.cons_iff {a : α} : Numbered num n (a :: l) ↔ num a = n ∧ Numbered num (n + 1) l := by
  unfold Numbered
  rw [map_cons, length_cons, range'_succ, List.cons.injEq]

theorem Numbered.append_iff {l' : List α} :
    Numbered num n (l ++ l') ↔ Numbered num n l ∧ Numbered num (n + l.length) l' := by
  induction l generalizing n with
  | nil => simp [Numbered.nil]
  | cons a l ih =>
    rw [cons_append, Numbered.cons_iff, Numbered.cons_iff, ih, and_assoc, length_cons,
      Nat.add_right_comm, Nat.add_assoc n l.length 1, Nat.add_comm l.length 1, ← Nat.add_assoc]

theorem Numbered.singleton_iff {a : α} : Numbered num n [a] ↔ num a = n := by
  rw [Numbered.cons_iff]
  exact and_iff_left Numbered.nil

theorem Numbered.drop (h : Numbered num n l) {k : Nat} (hk : k ≤ l.length) : Numbered num (n + k) (l.drop k) := by
  have hsplit := (take_append_drop k l).symm
  rw [hsplit, Numbered.append_iff, length_take, Nat.min_eq_left hk] at h
  exact h.2

theorem Numbered.mem_range (h : Numbered num n l) {a : α} (ha : a ∈ l) : n ≤ num a ∧ num a < n + l.length := by
  have hnum : num a ∈ List.range' n l.length := h ▸ List.mem_map_of_mem ha
  obtain ⟨i, hi, heq⟩ := mem_range'.mp hnum
  omega

theorem Numbered.dropWhile_lt (h : Numbered num n l) (k : Nat) :
    l.dropWhile (fun a => decide (num a < k)) = l.drop (k - n) := by
  induction l generalizing n with
  | nil => simp
  | cons a l ih =>
    obtain ⟨ha, hl⟩ := Numbered.cons_iff.mp h
    by_cases hlt : n < k
    · have hsub : k - n = k - (n + 1) + 1 := by omega
      rw [dropWhile_cons_of_pos (by simpa [ha] using hlt), ih hl, hsub, drop_succ_cons]
    · have hsub : k - n = 0 := by omega
      rw [dropWhile_cons_of_neg (by simpa [ha] using hlt), hsub, drop_zero]

end Kevy.Lib
