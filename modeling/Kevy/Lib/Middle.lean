import Mathlib.Data.List.Sort
import Mathlib.Data.List.TakeWhile

/-!
# The middle of a list

Operations at an index, for a list that is split there, and operations on a sorted list when everything before the
middle is below a value and everything after it above.
-/

namespace Kevy.Lib

open List

variable {α : Type}

/-! ## At an index -/

section Index

variable (L R : List α) (a b x : α)

theorem getElem?_middle : (L ++ a :: R)[L.length]? = some a := by
  simp

theorem getElem?_middle_succ : (L ++ a :: b :: R)[L.length + 1]? = some b := by
  simp

theorem set_middle : (L ++ a :: R).set L.length x = L ++ x :: R := by
  simp

theorem set_middle_succ : (L ++ a :: b :: R).set (L.length + 1) x = L ++ a :: x :: R := by
  simp

theorem insertIdx_middle : (L ++ R).insertIdx L.length x = L ++ x :: R := by
  induction L with
  | nil => rfl
  | cons l L ih => rw [cons_append, length_cons, insertIdx_succ_cons, ih, cons_append]

theorem insertIdx_middle_succ : (L ++ a :: R).insertIdx (L.length + 1) x = L ++ a :: x :: R := by
  have h := insertIdx_middle (L ++ [a]) R x
  rwa [length_append, length_singleton, append_assoc, append_assoc] at h

theorem eraseIdx_middle : (L ++ a :: R).eraseIdx L.length = L ++ R := by
  rw [eraseIdx_append_of_length_le le_rfl, Nat.sub_self, eraseIdx_cons_zero]

theorem eraseIdx_middle_succ : (L ++ a :: b :: R).eraseIdx (L.length + 1) = L ++ a :: R := by
  rw [eraseIdx_append_of_length_le (Nat.le_add_right _ 1), Nat.add_sub_cancel_left, eraseIdx_cons_succ,
    eraseIdx_cons_zero]

end Index

theorem exists_middle {l : List α} {i : Nat} (hi : i < l.length) : ∃ L a R, l = L ++ a :: R ∧ L.length = i :=
  ⟨l.take i, l[i], l.drop (i + 1), by rw [getElem_cons_drop, take_append_drop], length_take_of_le (Nat.le_of_lt hi)⟩

theorem exists_concat {l : List α} (hl : 0 < l.length) : ∃ L a, l = L ++ [a] := by
  have hne : l ≠ [] := ne_nil_of_length_pos hl
  exact ⟨l.dropLast, l.getLast hne, (dropLast_append_getLast hne).symm⟩

/-! ## A predicate that holds up to a point -/

/-- The predicate holds up to some point of the list and fails from there on. -/
def Downward (p : α → Bool) (l : List α) : Prop := l.Pairwise fun a b => p b = true → p a = true

section Downward

variable {p q : α → Bool} {l L R : List α}

theorem Downward.all_false {a : α} (hdown : Downward p (a :: l)) (ha : p a = false) : ∀ y ∈ l, p y = false := by
  intro y hy
  refine Bool.eq_false_iff.mpr fun hp => ?_
  rw [(pairwise_cons.mp hdown).1 y hy hp] at ha
  cases ha

theorem takeWhile_split (hdown : Downward p l) :
    ∃ L R, l = L ++ R ∧ l.takeWhile p = L ∧ (∀ y ∈ L, p y = true) ∧ ∀ y ∈ R, p y = false := by
  induction l with
  | nil => exact ⟨[], [], rfl, rfl, nofun, nofun⟩
  | cons a l ih =>
    cases ha : p a with
    | false =>
      refine ⟨[], a :: l, rfl, takeWhile_cons_of_neg (by rw [ha]; decide), nofun, ?_⟩
      intro y hy
      rcases mem_cons.mp hy with rfl | hy
      · exact ha
      · exact hdown.all_false ha y hy
    | true =>
      obtain ⟨L, R, hl, htake, hL, hR⟩ := ih (pairwise_cons.mp hdown).2
      refine ⟨a :: L, R, by rw [hl]; rfl, by rw [takeWhile_cons_of_pos ha, htake], ?_, hR⟩
      intro y hy
      rcases mem_cons.mp hy with rfl | hy
      · exact ha
      · exact hL y hy

theorem takeWhile_eq_nil_of_all_false (hR : ∀ y ∈ R, p y = false) : R.takeWhile p = [] := by
  cases R with
  | nil => rfl
  | cons a R => exact takeWhile_cons_of_neg (by rw [hR a mem_cons_self]; decide)

theorem length_takeWhile_middle (hL : ∀ y ∈ L, p y = true) (hR : ∀ y ∈ R, p y = false) (l : List α) :
    ((L ++ (l ++ R)).takeWhile p).length = L.length + (l.takeWhile p).length := by
  rw [takeWhile_append_of_pos hL, length_append, takeWhile_append, takeWhile_eq_nil_of_all_false hR]
  split_ifs with hall
  · rw [append_nil, hall]
  · rfl

theorem take_drop_takeWhile (hp : Downward p l) (hq : Downward q l) :
    (l.drop (l.takeWhile p).length).take ((l.takeWhile q).length - (l.takeWhile p).length) =
      l.filter fun y => !p y && q y := by
  induction l with
  | nil => rfl
  | cons a l ih =>
    have ih := ih (pairwise_cons.mp hp).2 (pairwise_cons.mp hq).2
    cases hpa : p a with
    | true =>
      rw [takeWhile_cons_of_pos hpa, length_cons, drop_succ_cons,
        filter_cons_of_neg (by rw [hpa]; exact Bool.false_ne_true), ← ih]
      cases hqa : q a with
      | true => rw [takeWhile_cons_of_pos hqa, length_cons, Nat.add_sub_add_right]
      | false =>
        rw [takeWhile_cons_of_neg (by rw [hqa]; decide), takeWhile_eq_nil_of_all_false (hq.all_false hqa),
          length_nil, Nat.zero_sub, Nat.zero_sub]
    | false =>
      rw [takeWhile_cons_of_neg (p := p) (by rw [hpa]; decide), length_nil, drop_zero, Nat.sub_zero]
      cases hqa : q a with
      | true =>
        rw [takeWhile_eq_nil_of_all_false (hp.all_false hpa), length_nil, drop_zero, Nat.sub_zero] at ih
        rw [takeWhile_cons_of_pos hqa, length_cons, take_succ_cons, ih, filter_cons_of_pos (by rw [hpa, hqa]; rfl)]
      | false =>
        have hnone : (a :: l).filter (fun y => !p y && q y) = [] := by
          refine filter_eq_nil_iff.mpr fun y hy => ?_
          rcases mem_cons.mp hy with rfl | hy
          · simp [hqa]
          · simp [hq.all_false hqa y hy]
        rw [takeWhile_cons_of_neg (by rw [hqa]; decide), hnone]
        rfl

end Downward

/-! ## Sorted lists without repetition -/

section Sorted

variable [LinearOrder α] {l L R : List α} {x : α}

def insertKey (l : List α) (x : α) : List α := if x ∈ l then l else l.orderedInsert (· ≤ ·) x

theorem sorted_insertKey (hsorted : l.Pairwise (· < ·)) (x : α) : (insertKey l x).Pairwise (· < ·) := by
  unfold insertKey
  split_ifs with h
  · exact hsorted
  · have hle : (l.orderedInsert (· ≤ ·) x).Pairwise (· ≤ ·) :=
      Pairwise.orderedInsert x _ (hsorted.imp fun h => h.le)
    have hnodup : (l.orderedInsert (· ≤ ·) x).Nodup :=
      (perm_orderedInsert (· ≤ ·) x l).nodup_iff.mpr (nodup_cons.mpr ⟨h, hsorted.imp fun h => h.ne⟩)
    exact (hle.and hnodup).imp fun h => lt_of_le_of_ne h.1 h.2

theorem orderedInsert_middle (hbefore : ∀ y ∈ L, y < x) (hafter : ∀ y ∈ R, x < y) (l : List α) :
    (L ++ (l ++ R)).orderedInsert (· ≤ ·) x = L ++ (l.orderedInsert (· ≤ ·) x ++ R) := by
  induction L with
  | nil =>
    induction l with
    | nil =>
      cases R with
      | nil => rfl
      | cons r R =>
        show (if x ≤ r then _ else _) = _
        rw [if_pos (hafter r mem_cons_self).le]
        rfl
    | cons a l ih =>
      show (if x ≤ a then x :: a :: (l ++ R) else a :: (l ++ R).orderedInsert (· ≤ ·) x) =
        (if x ≤ a then x :: a :: l else a :: l.orderedInsert (· ≤ ·) x) ++ R
      have hrest : (l ++ R).orderedInsert (· ≤ ·) x = l.orderedInsert (· ≤ ·) x ++ R := ih
      split_ifs
      · rfl
      · rw [hrest]
        rfl
  | cons b L ih =>
    have hb := hbefore b mem_cons_self
    show (if x ≤ b then _ else b :: (L ++ (l ++ R)).orderedInsert (· ≤ ·) x) = _
    rw [if_neg (not_le.mpr hb), ih (forall_mem_cons.mp hbefore).2]
    rfl

theorem mem_middle (hbefore : ∀ y ∈ L, y < x) (hafter : ∀ y ∈ R, x < y) (l : List α) : x ∈ L ++ (l ++ R) ↔ x ∈ l := by
  rw [mem_append, mem_append]
  constructor
  · rintro (h | h | h)
    · exact absurd (hbefore x h) (lt_irrefl x)
    · exact h
    · exact absurd (hafter x h) (lt_irrefl x)
  · exact fun h => .inr (.inl h)

theorem insertKey_middle (hbefore : ∀ y ∈ L, y < x) (hafter : ∀ y ∈ R, x < y) (l : List α) :
    insertKey (L ++ (l ++ R)) x = L ++ (insertKey l x ++ R) := by
  unfold insertKey
  rw [orderedInsert_middle hbefore hafter]
  by_cases h : x ∈ l
  · rw [if_pos h, if_pos ((mem_middle hbefore hafter l).mpr h)]
  · rw [if_neg h, if_neg (fun hm => h ((mem_middle hbefore hafter l).mp hm))]

theorem erase_middle (hbefore : ∀ y ∈ L, y < x) (hafter : ∀ y ∈ R, x < y) (l : List α) :
    (L ++ (l ++ R)).erase x = L ++ (l.erase x ++ R) := by
  have hL : x ∉ L := fun h => lt_irrefl x (hbefore x h)
  have hR : x ∉ R := fun h => lt_irrefl x (hafter x h)
  rw [erase_append_right _ hL]
  by_cases h : x ∈ l
  · rw [erase_append_left _ h]
  · rw [erase_append_right _ h, erase_of_not_mem hR, erase_of_not_mem h]

theorem sorted_middle (hsorted : (L ++ x :: R).Pairwise (· < ·)) : (∀ y ∈ L, y < x) ∧ ∀ y ∈ R, x < y := by
  obtain ⟨-, hright, hlt⟩ := pairwise_append.mp hsorted
  exact ⟨fun y hy => hlt y hy x mem_cons_self, (pairwise_cons.mp hright).1⟩

theorem downward_lt (hsorted : l.Pairwise (· < ·)) (x : α) : Downward (fun y => decide (y < x)) l :=
  hsorted.imp fun hab hb => decide_eq_true (hab.trans (of_decide_eq_true hb))

theorem downward_le (hsorted : l.Pairwise (· < ·)) (x : α) : Downward (fun y => decide (y ≤ x)) l :=
  hsorted.imp fun hab hb => decide_eq_true (hab.le.trans (of_decide_eq_true hb))

theorem takeWhile_lt_split (hsorted : l.Pairwise (· < ·)) (x : α) :
    ∃ L R, l = L ++ R ∧ l.takeWhile (· < x) = L ∧ (∀ y ∈ L, y < x) ∧ ∀ y ∈ R, x ≤ y := by
  obtain ⟨L, R, hl, htake, hL, hR⟩ := takeWhile_split (downward_lt hsorted x)
  exact ⟨L, R, hl, htake, by simpa using hL, by simpa using hR⟩

theorem idxOf?_middle (hbefore : ∀ y ∈ L, y < x) (hafter : ∀ y ∈ R, x < y) (l : List α) :
    (L ++ (l ++ R)).idxOf? x = (l.idxOf? x).map (L.length + ·) := by
  have hL : L.idxOf? x = none := idxOf?_eq_none_iff.mpr fun h => lt_irrefl x (hbefore x h)
  have hR : R.idxOf? x = none := idxOf?_eq_none_iff.mpr fun h => lt_irrefl x (hafter x h)
  unfold List.idxOf? at hL hR ⊢
  rw [findIdx?_append, findIdx?_append, hL, hR, Option.map_none, Option.or_none, Option.none_or]
  simp only [Nat.add_comm]

theorem idxOf?_of_split (hsorted : (L ++ x :: R).Pairwise (· < ·)) : (L ++ x :: R).idxOf? x = some L.length := by
  obtain ⟨hL, hR⟩ := sorted_middle hsorted
  have hmid := idxOf?_middle hL hR [x]
  rw [singleton_append] at hmid
  rw [hmid]
  simp

end Sorted

end Kevy.Lib
