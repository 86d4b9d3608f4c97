import Kevy.Lib.Middle
import Mathlib.Algebra.Order.Ring.Nat

/-!
# Lists woven from lists and the elements between them

`weave [a, b, c] [x, y]` is `a ++ x :: b ++ y :: c`: the contents of a search tree's node from those of its subtrees
and its keys. One subtree of a node has a part of the woven list before it and a part after it.
-/

namespace Kevy.Lib

open List

variable {α : Type} {c k : List α} {cs L R : List (List α)} {ks KL KR : List α} {x : α}

def weave : List (List α) → List α → List α
  | [], _ => []
  | c :: _, [] => c
  | c :: cs, k :: ks => c ++ k :: weave cs ks

def before : List (List α) → List α → List α
  | c :: cs, k :: ks => c ++ k :: before cs ks
  | _, _ => []

def after : List α → List (List α) → List α
  | k :: ks, c :: cs => k :: (c ++ after ks cs)
  | _, _ => []

@[simp] theorem before_nil (ks : List α) : before [] ks = [] := rfl

@[simp] theorem after_nil_left (cs : List (List α)) : after [] cs = [] := rfl

@[simp] theorem after_nil (ks : List α) : after ks [] = [] := by
  cases ks <;> rfl

theorem weave_cons (h : cs.length = ks.length) (c : List α) : weave (c :: cs) ks = c ++ after ks cs := by
  induction ks generalizing c cs with
  | nil =>
    rw [weave, length_eq_zero_iff.mp h, after_nil, append_nil]
  | cons k ks ih =>
    obtain ⟨c', cs', rfl⟩ := exists_cons_of_length_eq_add_one h
    rw [weave, ih (by simpa using h)]
    rfl

theorem weave_append (h : L.length = KL.length) (cs : List (List α)) (ks : List α) :
    weave (L ++ cs) (KL ++ ks) = before L KL ++ weave cs ks := by
  induction L generalizing KL with
  | nil =>
    rw [length_eq_zero_iff.mp h.symm]
    rfl
  | cons l L ih =>
    obtain ⟨k, KL, rfl⟩ := exists_cons_of_length_eq_add_one h.symm
    rw [cons_append, cons_append, weave, ih (by simpa using h), before, append_assoc]
    rfl

theorem weave_split (hl : L.length = KL.length) (hr : R.length = KR.length) (c : List α) :
    weave (L ++ c :: R) (KL ++ KR) = before L KL ++ (c ++ after KR R) := by
  rw [weave_append hl, weave_cons hr]

theorem weave_at (h : cs.length = ks.length + 1) (x : α) (R : List (List α)) (KR : List α) :
    weave (cs ++ R) (ks ++ x :: KR) = weave cs ks ++ x :: weave R KR := by
  induction ks generalizing cs with
  | nil =>
    obtain ⟨c, rfl⟩ := length_eq_one_iff.mp h
    rfl
  | cons k ks ih =>
    obtain ⟨c, cs, rfl⟩ := exists_cons_of_length_eq_add_one h
    rw [cons_append, cons_append, weave, ih (by simpa using h), weave, append_assoc]
    rfl

theorem before_eq_weave (h : L.length = KL.length) : before L KL = weave (L ++ [[]]) KL := by
  have hweave := weave_append h [[]] []
  rw [append_nil] at hweave
  exact (hweave.trans (append_nil _)).symm

theorem before_concat (h : L.length = KL.length) (c : List α) (x : α) :
    before (L ++ [c]) (KL ++ [x]) = before L KL ++ (c ++ [x]) := by
  rw [before_eq_weave (by simp [h]), append_assoc, weave_append h]
  rfl

theorem length_after (h : R.length = KR.length) : (after KR R).length = KR.length + (R.map List.length).sum := by
  induction R generalizing KR with
  | nil =>
    rw [length_eq_zero_iff.mp h.symm]
    rfl
  | cons r R ih =>
    obtain ⟨k, KR, rfl⟩ := exists_cons_of_length_eq_add_one h.symm
    have hrest : (after KR R).length = KR.length + (R.map List.length).sum := ih (by simpa using h)
    simp only [after, length_cons, length_append, map_cons, sum_cons]
    omega

theorem length_weave (h : cs.length = ks.length + 1) : (weave cs ks).length = ks.length + (cs.map List.length).sum := by
  obtain ⟨c, cs, rfl⟩ := exists_cons_of_length_eq_add_one h
  have hlen : cs.length = ks.length := by simpa using h
  rw [weave_cons hlen, length_append, length_after hlen, map_cons, sum_cons]
  omega

theorem length_before (h : L.length = KL.length) : (before L KL).length = KL.length + (L.map List.length).sum := by
  rw [before_eq_weave h, length_weave (by simp [h])]
  simp

theorem sublist_weave (h : cs.length = ks.length + 1) : ks.Sublist (weave cs ks) := by
  induction ks generalizing cs with
  | nil => exact nil_sublist _
  | cons k ks ih =>
    obtain ⟨c, cs, rfl⟩ := exists_cons_of_length_eq_add_one h
    rw [weave]
    exact ((ih (by simpa using h)).cons_cons k).trans (sublist_append_right _ _)

theorem sublist_of_mem_weave (h : cs.length = ks.length + 1) (hc : c ∈ cs) : c.Sublist (weave cs ks) := by
  induction ks generalizing cs with
  | nil =>
    obtain ⟨c', rfl⟩ := length_eq_one_iff.mp h
    rw [mem_singleton.mp hc]
    exact Sublist.refl _
  | cons k ks ih =>
    obtain ⟨c', cs, rfl⟩ := exists_cons_of_length_eq_add_one h
    rw [weave]
    rcases mem_cons.mp hc with rfl | hc
    · exact sublist_append_left _ _
    · exact (ih (by simpa using h) hc).trans ((sublist_cons_self _ _).trans (sublist_append_right _ _))

/-! ## A predicate that holds up to a point -/

section Downward

variable {p : α → Bool}

theorem downward_before (hdown : Downward p (before L KL)) (hkeys : ∀ z ∈ KL, p z = true) :
    ∀ y ∈ before L KL, p y = true := by
  induction L generalizing KL with
  | nil => exact fun y hy => nomatch hy
  | cons l L ih =>
    cases KL with
    | nil => exact fun y hy => nomatch hy
    | cons k KL =>
      intro y hy
      rw [before] at hdown hy
      obtain ⟨-, hrest, hlt⟩ := pairwise_append.mp hdown
      rcases mem_append.mp hy with hy | hy
      · exact hlt y hy k mem_cons_self (hkeys k mem_cons_self)
      · rcases mem_cons.mp hy with rfl | hy
        · exact hkeys y mem_cons_self
        · exact ih (pairwise_cons.mp hrest).2 (forall_mem_cons.mp hkeys).2 y hy

theorem downward_after (hdown : Downward p (after KR R)) (hkeys : ∀ z ∈ KR, p z = false) :
    ∀ y ∈ after KR R, p y = false := by
  intro y hy
  cases KR with
  | nil => cases hy
  | cons k KR =>
    cases R with
    | nil => cases hy
    | cons r R =>
      rw [after] at hdown hy
      have hk := hkeys k mem_cons_self
      rcases mem_cons.mp hy with rfl | hy
      · exact hk
      · refine Bool.eq_false_iff.mpr fun hp => ?_
        rw [(pairwise_cons.mp hdown).1 y hy hp] at hk
        cases hk

end Downward

section Order

variable [LinearOrder α]

theorem lt_of_mem_before (hsorted : (before L KL).Pairwise (· < ·)) (hkeys : ∀ z ∈ KL, z < x) :
    ∀ y ∈ before L KL, y < x := by
  have hall := downward_before (downward_lt hsorted x) (by simpa using hkeys)
  simpa using hall

theorem lt_of_mem_after (hsorted : (after KR R).Pairwise (· < ·)) (hkeys : ∀ z ∈ KR, x < z) :
    ∀ y ∈ after KR R, x < y := by
  have hall := downward_after (downward_le hsorted x) (by simpa using hkeys)
  simpa using hall

end Order

end Kevy.Lib
