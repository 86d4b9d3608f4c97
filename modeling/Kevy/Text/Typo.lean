import Kevy.Lib.ByteOrder
import Kevy.Lib.EditDistance
import Kevy.Resp.Basic

/-!
# Typo tolerance

`edit_within` fills the distance table row by row, with two ways out: the lengths alone differ by more than
the budget, or a whole row is over it. Its rows are those of `levenshtein` (`editRows_eq`), and neither way out
loses a distance within the budget, so an expansion has just the terms within it.
-/

namespace Kevy.Text

open Kevy.Lib Kevy.Resp List

/-- The cells behind `left` in the row of `ca`, under the row above, which starts diagonally from the first. -/
def cells (ca : UInt8) : (left : Nat) → (b : Bytes) → (prev : List Nat) → List Nat
  | left, cb :: b, diag :: up :: prev =>
    let cell := min (min (up + 1) (left + 1)) (diag + if ca = cb then 0 else 1)
    cell :: cells ca cell b (up :: prev)
  | _, _, _ => []

/-- The rows of the bytes of `a`, the first of which is byte `i`: the last row, or `none` once one is over
the budget. -/
def editRows (b : Bytes) (max : Nat) : (a : Bytes) → (i : Nat) → (prev : List Nat) → Option (List Nat)
  | [], _, prev => some prev
  | ca :: a, i, prev =>
    let cur := cells ca (i + 1) b prev
    if max < cur.foldl min (i + 1) then none else editRows b max a (i + 1) ((i + 1) :: cur)

def editWithin (a b : Bytes) (max : Nat) : Option Nat :=
  if max < (a.length - b.length) + (b.length - a.length) then none
  else if a = b then some 0
  else (editRows b max a 0 (range (b.length + 1))).bind fun prev =>
    prev[b.length]?.filter fun d => d ≤ max

/-- `expand_typo` over the keys of the postings. -/
def expandTypo (terms : List Bytes) (t : Bytes) (budget : Nat) : List Bytes :=
  (terms.filter fun cand => (editWithin t cand budget).isSome).mergeSort fun x y => decide (x ≤ y)

/-! ## Rows of distances -/

/-- The distances from `u` to `w` and to `w` with more and more of `b`. -/
def row (u : Bytes) : (w b : Bytes) → List Nat
  | w, [] => [levenshtein u w]
  | w, cb :: b => levenshtein u w :: row u (w ++ [cb]) b

variable {u w b v : Bytes} {ca : UInt8} {max : Nat}

theorem row_eq_cons (u w b : Bytes) : ∃ l, row u w b = levenshtein u w :: l := by
  cases b with
  | nil => exact ⟨[], rfl⟩
  | cons cb b => exact ⟨_, rfl⟩

theorem row_nil : row [] w b = range' w.length (b.length + 1) := by
  induction b generalizing w with
  | nil => simp [row]
  | cons cb b ih => simp [row, ih, range'_succ]

theorem getElem?_row : (row u w b)[b.length]? = some (levenshtein u (w ++ b)) := by
  induction b generalizing w with
  | nil => simp [row]
  | cons cb b ih => simp [row, ih]

theorem mem_row (h : v <+: b) : levenshtein u (w ++ v) ∈ row u w b := by
  induction b generalizing w v with
  | nil => simp [row, prefix_nil.mp h]
  | cons cb b ih =>
    rcases prefix_cons_iff.mp h with rfl | ⟨v, rfl, hv⟩
    · simp [row]
    · simpa [row] using Or.inr (ih (w := w ++ [cb]) hv)

theorem cells_row : levenshtein (u ++ [ca]) w :: cells ca (levenshtein (u ++ [ca]) w) b (row u w b) =
    row (u ++ [ca]) w b := by
  induction b generalizing w with
  | nil => simp [row, cells]
  | cons cb b ih =>
    obtain ⟨l, hl⟩ := row_eq_cons u (w ++ [cb]) b
    rw [row, row, hl, cells, ← levenshtein_snoc, ← hl, ih]

theorem lt_foldl_min {l : List Nat} {init : Nat} (h : max < l.foldl min init) : ∀ d ∈ init :: l, max < d := by
  induction l generalizing init with
  | nil => simpa using h
  | cons d l ih =>
    have := ih h
    simp only [mem_cons, forall_eq_or_imp, Nat.lt_min] at this ⊢
    exact ⟨this.1.1, this.1.2, this.2⟩

theorem editRows_eq (a u : Bytes) : editRows b max a u.length (row u [] b) = some (row (u ++ a) [] b) ∨
    editRows b max a u.length (row u [] b) = none ∧ max < levenshtein (u ++ a) b := by
  induction a generalizing u with
  | nil => simp [editRows]
  | cons ca a ih =>
    have hrow := @cells_row u [] b ca
    rw [levenshtein_nil_right, length_append, length_singleton] at hrow
    rw [editRows, hrow]
    split_ifs with hmin
    · refine Or.inr ⟨rfl, ?_⟩
      have hall := lt_foldl_min hmin
      rw [hrow] at hall
      have hfront : u ++ [ca] <+: u ++ ca :: a := by simp
      obtain ⟨v, hv, hle⟩ := (edits_levenshtein _ b).front hfront
      exact Nat.lt_of_lt_of_le (hall _ (mem_row hv)) hle
    · simpa using ih (u ++ [ca])

theorem editWithin_eq (a b : Bytes) (max : Nat) :
    editWithin a b max = if levenshtein a b ≤ max then some (levenshtein a b) else none := by
  have hlen := (edits_levenshtein a b).length_le
  have hrange : range (b.length + 1) = row [] [] b := by
    rw [row_nil, range_eq_range', length_nil]
  rw [editWithin, hrange]
  by_cases hfar : max < (a.length - b.length) + (b.length - a.length)
  · rw [if_pos hfar, if_neg (by omega)]
  rw [if_neg hfar]
  by_cases hsame : a = b
  · have hzero := Nat.le_zero.mp (Edits.refl a).levenshtein_le
    rw [if_pos hsame, ← hsame, hzero, if_pos (Nat.zero_le _)]
  rw [if_neg hsame]
  have hrows := @editRows_eq b max a []
  rw [length_nil, nil_append] at hrows
  rcases hrows with hrows | ⟨hrows, hover⟩
  · rw [hrows, Option.bind_some, getElem?_row, Option.filter_some]
    simp
  · rw [hrows, if_neg (Nat.not_le.mpr hover), Option.bind_none]

theorem editWithin_exact (a b t : Bytes) (terms : List Bytes) (max budget : Nat) :
    editWithin a b max = (if levenshtein a b ≤ max then some (levenshtein a b) else none) ∧
    (expandTypo terms t budget).Perm (terms.filter fun cand => levenshtein t cand ≤ budget) := by
  refine ⟨editWithin_eq a b max, ?_⟩
  refine (mergeSort_perm _ _).trans (Perm.of_eq ?_)
  congr 1
  funext cand
  rw [editWithin_eq]
  split_ifs with h <;> simp [h]

end Kevy.Text
