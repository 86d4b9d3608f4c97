import Kevy.Index.Clauses

/-!
# The order of a page

Hits are ordered by `SORT`, in either direction, or by the driving value. Each order is linear up to the row of a hit, so
a set of hits of different rows has one list in order.
-/

namespace Kevy.Index

open Kevy.Lib Kevy.Resp

/-! ## The order of a page -/

section Order

variable {α β : Type} [LinearOrder α] [LinearOrder β]

theorem ordCmp_ne_gt_iff {x y : α} : ordCmp x y ≠ .gt ↔ x ≤ y := by
  rw [ordCmp, ne_eq, cmp_eq_gt_iff, not_lt]

theorem then_ne_gt_iff {x y : α} {p q : β} : (ordCmp x y).then (ordCmp p q) ≠ .gt ↔ toLex (x, p) ≤ toLex (y, q) := by
  rw [Prod.Lex.toLex_le_toLex, ordCmp]
  rcases lt_trichotomy x y with h | h | h
  · rw [(cmp_eq_lt_iff x y).mpr h]
    simp [Ordering.then, h]
  · rw [(cmp_eq_eq_iff x y).mpr h]
    subst h
    simp only [Ordering.then, lt_irrefl, true_and, false_or]
    exact ordCmp_ne_gt_iff
  · rw [(cmp_eq_gt_iff x y).mpr h]
    simp [Ordering.then, not_lt_of_gt h, ne_of_gt h]

theorem swap_ordCmp (x y : α) : (ordCmp x y).swap = ordCmp y x := cmp_swap x y

theorem ordCmp_swap (x y : α) : (ordCmp x y).swap = ordCmp (OrderDual.toDual x) (OrderDual.toDual y) := by
  rw [ordCmp, cmp_swap]
  rfl

end Order

/-- What decides the place of a hit under an ascending `SORT`. -/
def ascRank (a : Option Bytes × Bytes) : ℕ ×ₗ Bytes ×ₗ Bytes :=
  toLex (if a.1.isSome then 0 else 1, toLex (a.1.getD [], a.2))

def descRank (a : Option Bytes × Bytes) : ℕ ×ₗ Bytesᵒᵈ ×ₗ Bytes :=
  toLex (if a.1.isSome then 0 else 1, toLex (OrderDual.toDual (a.1.getD []), a.2))

/-- The order of two hits is that of their ranks, when the values under the `SORT` compare as their images do. -/
theorem sortedOrder_rank {β : Type} [LinearOrder β] (order : SortOrder) (image : Bytes → β)
    (hvalues : ∀ x y : Bytes, order.apply (ordCmp x y) = ordCmp (image x) (image y)) (a b : Option Bytes × Bytes) :
    sortedOrder a b order ≠ .gt ↔
      (toLex (if a.1.isSome then 0 else 1, toLex (image (a.1.getD []), a.2)) : ℕ ×ₗ β ×ₗ Bytes) ≤
        toLex (if b.1.isSome then 0 else 1, toLex (image (b.1.getD []), b.2)) := by
  obtain ⟨x, k⟩ := a
  obtain ⟨y, l⟩ := b
  rw [Prod.Lex.toLex_le_toLex]
  cases x with
  | none =>
    cases y with
    | none =>
      simp only [sortedOrder, Option.isSome_none, Bool.false_eq_true, if_false, lt_irrefl, true_and, false_or,
        Option.getD_none, Prod.Lex.toLex_le_toLex]
      exact ordCmp_ne_gt_iff
    | some y => simp [sortedOrder]
  | some x =>
    cases y with
    | none => simp [sortedOrder]
    | some y =>
      simp only [sortedOrder, hvalues, Option.isSome_some, if_true, lt_irrefl, true_and, false_or, Option.getD_some]
      exact then_ne_gt_iff

theorem sortedOrder_asc {a b : Option Bytes × Bytes} : sortedOrder a b .asc ≠ .gt ↔ ascRank a ≤ ascRank b :=
  sortedOrder_rank .asc id (fun _ _ => rfl) a b

theorem sortedOrder_desc {a b : Option Bytes × Bytes} : sortedOrder a b .desc ≠ .gt ↔ descRank a ≤ descRank b :=
  sortedOrder_rank .desc OrderDual.toDual ordCmp_swap a b

theorem hitLe_rank (sort : Option SortOrder) : ∃ (ρ : Type) (_ : LinearOrder ρ) (rank : ScalarHit → ρ),
      (∀ a b, hitLe sort a b = true ↔ rank a ≤ rank b) ∧ ∀ a b, rank a = rank b → a.key = b.key := by
  cases sort with
  | none =>
    refine ⟨_, inferInstance, fun h => toLex (h.value, h.key), fun a b => ?_, fun a b h => ?_⟩
    · rw [hitLe, bne_iff_ne]
      exact ordCmp_ne_gt_iff
    · exact congrArg (fun p => (ofLex p).2) h
  | some order =>
    cases order with
    | asc =>
      refine ⟨_, inferInstance, fun h => ascRank (h.okey, h.key), fun a b => ?_, fun a b h => ?_⟩
      · rw [hitLe, bne_iff_ne]
        exact sortedOrder_asc
      · exact congrArg (fun p => (ofLex (ofLex p).2).2) h
    | desc =>
      refine ⟨_, inferInstance, fun h => descRank (h.okey, h.key), fun a b => ?_, fun a b h => ?_⟩
      · rw [hitLe, bne_iff_ne]
        exact sortedOrder_desc
      · exact congrArg (fun p => (ofLex (ofLex p).2).2) h

variable {sort : Option SortOrder} {a b d : ScalarHit} {hits hits' : List ScalarHit}

theorem hitLe_trans (hab : hitLe sort a b = true) (hbd : hitLe sort b d = true) : hitLe sort a d = true := by
  obtain ⟨ρ, _, rank, hle, -⟩ := hitLe_rank sort
  rw [hle] at *
  exact le_trans hab hbd

theorem hitLe_total (sort : Option SortOrder) (a b : ScalarHit) : hitLe sort a b = true ∨ hitLe sort b a = true := by
  obtain ⟨ρ, _, rank, hle, -⟩ := hitLe_rank sort
  rw [hle, hle]
  exact le_total _ _

theorem key_eq_of_hitLe (hab : hitLe sort a b = true) (hba : hitLe sort b a = true) : a.key = b.key := by
  obtain ⟨ρ, _, rank, hle, hkey⟩ := hitLe_rank sort
  rw [hle] at *
  exact hkey a b (le_antisymm hab hba)

def Before (sort : Option SortOrder) (a b : ScalarHit) : Prop := hitLe sort a b = true ∧ hitLe sort b a = false

theorem Before.asymm (h : Before sort a b) : ¬Before sort b a := fun h' => by
  have hno := h'.2
  rw [h.1] at hno
  cases hno

theorem Before.trans (h : Before sort a b) (h' : Before sort b d) : Before sort a d := by
  refine ⟨hitLe_trans h.1 h'.1, Bool.eq_false_iff.mpr fun hda => ?_⟩
  have hdb := hitLe_trans hda h.1
  rw [h'.2] at hdb
  cases hdb

theorem before_or_before (sort : Option SortOrder) (hne : a.key ≠ b.key) : Before sort a b ∨ Before sort b a := by
  rcases hitLe_total sort a b with h | h
  · exact .inl ⟨h, Bool.eq_false_iff.mpr fun h' => hne (key_eq_of_hitLe h h')⟩
  · exact .inr ⟨h, Bool.eq_false_iff.mpr fun h' => hne (key_eq_of_hitLe h' h)⟩

theorem sortedOrder_swap (a b : Option Bytes × Bytes) (order : SortOrder) :
    (sortedOrder a b order).swap = sortedOrder b a order := by
  obtain ⟨x, k⟩ := a
  obtain ⟨y, l⟩ := b
  cases x with
  | none =>
    cases y with
    | none => exact swap_ordCmp k l
    | some y => rfl
  | some x =>
    cases y with
    | none => rfl
    | some y =>
      simp only [sortedOrder, Ordering.swap_then, swap_ordCmp]
      cases order with
      | asc => rw [SortOrder.apply, SortOrder.apply, swap_ordCmp]
      | desc => rw [SortOrder.apply, SortOrder.apply, swap_ordCmp, swap_ordCmp]

theorem sortedOrder_eq_lt_iff {order : SortOrder} :
    sortedOrder (a.okey, a.key) (b.okey, b.key) order = .lt ↔ Before (some order) a b := by
  have hswap := sortedOrder_swap (a.okey, a.key) (b.okey, b.key) order
  unfold Before hitLe
  dsimp only
  rw [← hswap]
  cases sortedOrder (a.okey, a.key) (b.okey, b.key) order <;> decide

theorem pairwise_mergeSort (hkeys : (hits.map ScalarHit.key).Nodup) :
    (hits.mergeSort (hitLe sort)).Pairwise (Before sort) := by
  have htotal : ∀ a b, (hitLe sort a b || hitLe sort b a) = true := fun a b => by
    rw [Bool.or_eq_true]
    exact hitLe_total sort a b
  have hle := @List.pairwise_mergeSort _ (hitLe sort) (fun a b d => hitLe_trans) htotal hits
  have hnodup : ((hits.mergeSort (hitLe sort)).map ScalarHit.key).Nodup :=
    (((List.mergeSort_perm hits (hitLe sort)).map ScalarHit.key).nodup_iff).mpr hkeys
  refine (hle.and (List.pairwise_map.mp hnodup)).imp ?_
  rintro a b ⟨hab, hne⟩
  exact ⟨hab, Bool.eq_false_iff.mpr fun hba => hne (key_eq_of_hitLe hab hba)⟩

theorem eq_of_pairwise_before (h : hits.Pairwise (Before sort)) (h' : hits'.Pairwise (Before sort))
    (hperm : hits.Perm hits') : hits = hits' :=
  List.Perm.eq_of_pairwise (fun _ _ _ _ hab hba => absurd hba hab.asymm) h h' hperm

end Kevy.Index
