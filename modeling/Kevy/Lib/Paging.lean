import Mathlib.Data.List.Sort

/-!
# Pages of an ascending list

A list handed out in pages, each resumed behind the last element of the one before, and pages taken from two ascending
lists at once.
-/

namespace Kevy.Lib

open List

variable {α : Type} [LinearOrder α] {xs ys zs : List α} {c : Option α} {n : Nat}

/-! ## Two lists at once -/

/-- The first `n` of two ascending lists. The second goes ahead where it is strictly smaller. -/
def mergeTake : Nat → List α → List α → List α
  | 0, _, _ => []
  | _ + 1, [], [] => []
  | n + 1, x :: xs, [] => x :: mergeTake n xs []
  | n + 1, [], y :: ys => y :: mergeTake n [] ys
  | n + 1, x :: xs, y :: ys => if y < x then y :: mergeTake n (x :: xs) ys else x :: mergeTake n xs (y :: ys)

theorem mergeTake_nil_right (n : Nat) (xs : List α) : mergeTake n xs [] = xs.take n := by
  induction n generalizing xs with
  | zero => rfl
  | succ n ih =>
    cases xs with
    | nil => rfl
    | cons x xs => rw [mergeTake, ih, take_succ_cons]

theorem mergeTake_nil_left (n : Nat) (ys : List α) : mergeTake n [] ys = ys.take n := by
  induction n generalizing ys with
  | zero => rfl
  | succ n ih =>
    cases ys with
    | nil => rfl
    | cons y ys => rw [mergeTake, ih, take_succ_cons]

theorem mergeTake_eq_merge (n : Nat) (xs ys : List α) :
    mergeTake n xs ys = (xs.merge ys fun x y => decide (x ≤ y)).take n := by
  induction n generalizing xs ys with
  | zero => rfl
  | succ n ih =>
    cases xs with
    | nil => rw [mergeTake_nil_left, nil_merge]
    | cons x xs =>
      cases ys with
      | nil => rw [mergeTake_nil_right, merge_right]
      | cons y ys =>
        rw [mergeTake]
        split
        · rename_i hlt
          rw [cons_merge_cons_neg _ _ _ (by simpa using hlt), take_succ_cons, ih]
        · rename_i hle
          rw [cons_merge_cons_pos _ _ _ (by simpa using hle), take_succ_cons, ih]

theorem mergeTake_take {m m' : Nat} (h : n ≤ m) (h' : n ≤ m') (xs ys : List α) :
    mergeTake n (xs.take m) (ys.take m') = mergeTake n xs ys := by
  induction n generalizing xs ys m m' with
  | zero => rfl
  | succ n ih =>
    obtain ⟨m, rfl⟩ := Nat.exists_eq_succ_of_ne_zero (Nat.ne_of_gt (Nat.lt_of_lt_of_le (Nat.succ_pos n) h))
    obtain ⟨m', rfl⟩ := Nat.exists_eq_succ_of_ne_zero (Nat.ne_of_gt (Nat.lt_of_lt_of_le (Nat.succ_pos n) h'))
    have hm := Nat.le_of_succ_le_succ h
    have hm' := Nat.le_of_succ_le_succ h'
    cases xs with
    | nil => rw [take_nil, mergeTake_nil_left, mergeTake_nil_left, take_take, Nat.min_eq_left h']
    | cons x xs =>
      cases ys with
      | nil => rw [take_nil, mergeTake_nil_right, mergeTake_nil_right, take_take, Nat.min_eq_left h]
      | cons y ys =>
        rw [take_succ_cons, take_succ_cons, mergeTake, mergeTake]
        split
        · rw [← take_succ_cons, ih (Nat.le_succ_of_le hm) hm']
        · rw [← take_succ_cons, ih hm (Nat.le_succ_of_le hm')]

theorem mergeTake_eq_take (hxs : xs.Pairwise (· < ·)) (hys : ys.Pairwise (· < ·)) (hzs : zs.Pairwise (· < ·))
    (hperm : zs.Perm (xs ++ ys)) (n : Nat) : mergeTake n xs ys = zs.take n := by
  rw [mergeTake_eq_merge]
  congr 1
  have hle {l : List α} (h : l.Pairwise (· < ·)) : l.Pairwise (fun a b => decide (a ≤ b) = true) :=
    h.imp fun hab => decide_eq_true hab.le
  have hmerge := pairwise_merge (fun a b c hab hbc => by simp at *; exact hab.trans hbc)
    (fun a b => by simpa using le_total a b) xs ys (hle hxs) (hle hys)
  refine Perm.eq_of_pairwise (fun a b _ _ hab hba => le_antisymm (by simpa using hab) (by simpa using hba)) hmerge
    (hle hzs) ((merge_perm_append _).trans hperm.symm)

/-! ## Pages -/

def behind (c : Option α) (xs : List α) : List α := xs.filter fun x => c.all fun a => decide (a < x)

theorem behind_none (xs : List α) : behind none xs = xs := filter_eq_self.mpr fun _ _ => rfl

theorem mem_behind {x : α} : x ∈ behind c xs ↔ x ∈ xs ∧ ∀ a ∈ c, a < x := by
  cases c <;> simp [behind]

/-- The pages a reader gets that passes on the last element of every full page, until a page is not full. -/
def follow (page : Option α → List α) (n : Nat) : Nat → Option α → List (List α)
  | 0, _ => []
  | k + 1, c =>
    page c :: if (page c).length = n then (page c).getLast?.elim [] fun x => follow page n k (some x) else []

theorem behind_getLast (hsorted : xs.Pairwise (· < ·)) {A B : List α} {x : α} (hsplit : behind c xs = A ++ x :: B) :
    behind (some x) xs = B := by
  have hmem : x ∈ behind c xs := by rw [hsplit]; simp
  have hagain : behind (some x) xs = (behind c xs).filter fun y => decide (x < y) := by
    rw [behind, behind, List.filter_filter]
    refine filter_congr fun y _ => ?_
    by_cases hxy : x < y
    · have : c.all (fun a => decide (a < y)) = true := by
        cases c with
        | none => rfl
        | some a => exact decide_eq_true (((mem_behind.mp hmem).2 a rfl).trans hxy)
      simp [hxy, this]
    · simp [hxy]
  have hpair : (A ++ x :: B).Pairwise (· < ·) := hsplit ▸ hsorted.filter _
  obtain ⟨-, hB, hA⟩ := pairwise_append.mp hpair
  have hAx : A.filter (fun y => decide (x < y)) = [] := filter_eq_nil_iff.mpr fun y hy => by
    simpa using (hA y hy x mem_cons_self).le
  have hBx : B.filter (fun y => decide (x < y)) = B := filter_eq_self.mpr fun y hy => by
    simpa using (pairwise_cons.mp hB).1 y hy
  rw [hagain, hsplit, filter_append, filter_cons_of_neg (by simp), hAx, hBx, nil_append]

theorem flatten_follow {page : Option α → List α} (hsorted : xs.Pairwise (· < ·)) (hn : 0 < n)
    (hpage : ∀ c, (∀ a ∈ c, a ∈ xs) → page c = (behind c xs).take n) :
    ∀ k c, (∀ a ∈ c, a ∈ xs) → (behind c xs).length < k → (follow page n k c).flatten = behind c xs := by
  intro k
  induction k with
  | zero => intro c _ hlt; exact absurd hlt (Nat.not_lt_zero _)
  | succ k ih =>
    intro c hc hlt
    rw [follow, flatten_cons, hpage c hc]
    by_cases hfull : ((behind c xs).take n).length = n
    · -- the page ends in `x`, and what is behind `x` is what the page left
      have hne : (behind c xs).take n ≠ [] := fun h => by
        rw [h] at hfull
        exact absurd hfull.symm (Nat.ne_of_gt hn)
      obtain ⟨A, x, hA⟩ := (eq_nil_or_concat' ((behind c xs).take n)).resolve_left hne
      have hx : ((behind c xs).take n).getLast? = some x := by rw [hA, getLast?_concat]
      have hsplit : behind c xs = A ++ x :: (behind c xs).drop n := by
        conv_lhs => rw [← take_append_drop n (behind c xs), hA]
        simp
      have hmem : x ∈ xs := (mem_behind.mp (by rw [hsplit]; simp : x ∈ behind c xs)).1
      have hrest := behind_getLast hsorted hsplit
      rw [if_pos hfull, hx, Option.elim_some, ih (some x) (by simpa using hmem), hrest, take_append_drop]
      rw [length_take] at hfull
      rw [hrest, length_drop]
      omega
    · rw [if_neg hfull, flatten_nil, append_nil, take_of_length_le]
      rw [length_take] at hfull
      omega

end Kevy.Lib
