import Mathlib.Data.List.Basic
import Mathlib.Order.MinMax

/-!
# Levenshtein distance

`Edits xs ys n` turns `xs` into `ys`, read from the left, by `n` insertions, deletions and replacements.
`levenshtein` is the least such `n`. It is the same read from the right (`levenshtein_reverse`), which gives
its recursion on the last elements, and no front of `xs` costs more than the whole (`Edits.front`).
-/

namespace Kevy.Lib

open List

variable {α : Type*} [DecidableEq α] {xs ys us vs : List α} {m n : Nat}

inductive Edits : List α → List α → Nat → Prop
  | nil : Edits [] [] 0
  | delete {xs ys : List α} {n : Nat} (x : α) : Edits xs ys n → Edits (x :: xs) ys (n + 1)
  | insert {xs ys : List α} {n : Nat} (y : α) : Edits xs ys n → Edits xs (y :: ys) (n + 1)
  /-- `x` stays, or `y` replaces it. -/
  | pair {xs ys : List α} {n : Nat} (x y : α) : Edits xs ys n →
    Edits (x :: xs) (y :: ys) (n + if x = y then 0 else 1)

theorem Edits.append (h : Edits xs ys m) (h' : Edits us vs n) : Edits (xs ++ us) (ys ++ vs) (m + n) := by
  induction h with
  | nil => simpa using h'
  | delete x _ ih => simpa [Nat.add_right_comm] using ih.delete x
  | insert y _ ih => simpa [Nat.add_right_comm] using ih.insert y
  | pair x y _ ih => simpa [Nat.add_right_comm] using ih.pair x y

theorem Edits.reverse (h : Edits xs ys n) : Edits xs.reverse ys.reverse n := by
  induction h with
  | nil => exact .nil
  | delete x _ ih => simpa using ih.append (.delete x .nil)
  | insert y _ ih => simpa using ih.append (.insert y .nil)
  | pair x y _ ih => simpa using ih.append (.pair x y .nil)

theorem Edits.length_le (h : Edits xs ys n) : xs.length ≤ ys.length + n ∧ ys.length ≤ xs.length + n := by
  induction h with
  | nil => simp
  | delete | insert | pair =>
    simp only [length_cons]
    omega

theorem Edits.refl (xs : List α) : Edits xs xs 0 := by
  induction xs with
  | nil => exact .nil
  | cons x xs ih => simpa using ih.pair x x

def levenshtein : List α → List α → Nat
  | [], ys => ys.length
  | _ :: xs, [] => xs.length + 1
  | x :: xs, y :: ys => min (min (levenshtein xs (y :: ys) + 1) (levenshtein (x :: xs) ys + 1))
      (levenshtein xs ys + if x = y then 0 else 1)
termination_by xs ys => xs.length + ys.length

@[simp] theorem levenshtein_nil (ys : List α) : levenshtein [] ys = ys.length := by
  rw [levenshtein]

@[simp] theorem levenshtein_nil_right (xs : List α) : levenshtein xs [] = xs.length := by
  cases xs <;> simp [levenshtein]

theorem edits_levenshtein (xs ys : List α) : Edits xs ys (levenshtein xs ys) := by
  fun_induction levenshtein xs ys with
  | case1 ys =>
    induction ys with
    | nil => exact .nil
    | cons y ys ih => exact ih.insert y
  | case2 x xs =>
    induction xs generalizing x with
    | nil => exact .delete x .nil
    | cons y xs ih => exact (ih y).delete x
  | case3 x xs y ys hdelete hinsert hpair =>
    rcases min_choice (min (levenshtein xs (y :: ys) + 1) (levenshtein (x :: xs) ys + 1))
      (levenshtein xs ys + if x = y then 0 else 1) with h | h
    · rw [h]
      rcases min_choice (levenshtein xs (y :: ys) + 1) (levenshtein (x :: xs) ys + 1) with h | h
      · rw [h]
        exact hdelete.delete x
      · rw [h]
        exact hinsert.insert y
    · rw [h]
      exact hpair.pair x y

theorem Edits.levenshtein_le (h : Edits xs ys n) : levenshtein xs ys ≤ n := by
  induction h with
  | nil => simp
  | @delete xs ys n x _ ih =>
    cases ys with
    | nil => simpa using ih
    | cons y ys =>
      rw [levenshtein]
      omega
  | @insert xs ys n y _ ih =>
    cases xs with
    | nil => simpa using ih
    | cons x xs =>
      rw [levenshtein]
      omega
  | pair x y _ ih =>
    rw [levenshtein]
    omega

theorem levenshtein_reverse (xs ys : List α) : levenshtein xs.reverse ys.reverse = levenshtein xs ys := by
  apply Nat.le_antisymm
  · exact (edits_levenshtein xs ys).reverse.levenshtein_le
  · simpa using (edits_levenshtein xs.reverse ys.reverse).reverse.levenshtein_le

theorem levenshtein_snoc (xs ys : List α) (x y : α) : levenshtein (xs ++ [x]) (ys ++ [y]) =
    min (min (levenshtein xs (ys ++ [y]) + 1) (levenshtein (xs ++ [x]) ys + 1))
      (levenshtein xs ys + if x = y then 0 else 1) := by
  rw [← levenshtein_reverse (xs ++ [x]) (ys ++ [y]), ← levenshtein_reverse xs (ys ++ [y]),
    ← levenshtein_reverse (xs ++ [x]) ys, ← levenshtein_reverse xs ys]
  simp [levenshtein]

theorem Edits.front (h : Edits xs ys n) : us <+: xs → ∃ vs, vs <+: ys ∧ levenshtein us vs ≤ n := by
  induction h generalizing us with
  | nil =>
    intro hus
    exact ⟨[], nil_prefix, by simp [prefix_nil.mp hus]⟩
  | insert y _ ih =>
    intro hus
    obtain ⟨vs, hvs, hle⟩ := ih hus
    exact ⟨y :: vs, by simpa using hvs, ((edits_levenshtein us vs).insert y).levenshtein_le.trans (by omega)⟩
  | delete x _ ih =>
    intro hus
    rcases prefix_cons_iff.mp hus with rfl | ⟨us, rfl, hfront⟩
    · exact ⟨[], nil_prefix, by simp⟩
    obtain ⟨vs, hvs, hle⟩ := ih hfront
    exact ⟨vs, hvs, ((edits_levenshtein us vs).delete x).levenshtein_le.trans (by omega)⟩
  | pair x y _ ih =>
    intro hus
    rcases prefix_cons_iff.mp hus with rfl | ⟨us, rfl, hfront⟩
    · exact ⟨[], nil_prefix, by simp⟩
    obtain ⟨vs, hvs, hle⟩ := ih hfront
    exact ⟨y :: vs, by simpa using hvs, ((edits_levenshtein us vs).pair x y).levenshtein_le.trans (by omega)⟩

end Kevy.Lib
