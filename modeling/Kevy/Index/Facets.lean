import Kevy.Index.Clauses
import Mathlib.Algebra.BigOperators.Group.List.Basic

/-!
# Facets

What the buckets of a facet count, on one segment and folded over all shards: the candidates with each identity.
-/

namespace Kevy.Index

open Kevy.Lib Kevy.Resp List

/-! ## Facets -/

def bucketCount (id : Bytes) (buckets : List FacetBucket) : Nat :=
  ((buckets.filter fun b => b.1 == id).map fun b => b.2.2).sum

def countOf (id : Bytes) (counts : FacetCounts) : Nat := (counts.get id).elim 0 Prod.snd

def tally (T : Texts) (c : ScalarClauses) (id : Bytes) (es : List Entry) (facet : Nat × ValType) : Nat :=
  (es.filter (passes T · c.filters)).countP fun e => clauseKey T e facet.1 facet.2 == some id

section Facets

variable {id : Bytes}

theorem bucketCount_perm {bs bs' : List FacetBucket} (h : bs.Perm bs') : bucketCount id bs = bucketCount id bs' :=
  ((h.filter _).map _).sum_eq

theorem bucketCount_cons (b : FacetBucket) (bs : List FacetBucket) :
    bucketCount id (b :: bs) = (if b.1 = id then b.2.2 else 0) + bucketCount id bs := by
  unfold bucketCount
  rw [filter_cons]
  by_cases hb : b.1 = id
  · rw [if_pos (beq_iff_eq.mpr hb), if_pos hb, map_cons, sum_cons]
  · rw [if_neg (by simpa using hb), if_neg hb, Nat.zero_add]

theorem bucketCount_foldBucket (acc : List FacetBucket) (b : FacetBucket) :
    bucketCount id (foldBucket acc b) = bucketCount id acc + if b.1 = id then b.2.2 else 0 := by
  induction acc with
  | nil => rw [foldBucket, bucketCount_cons, Nat.add_comm]
  | cons e acc ih =>
    unfold foldBucket
    split_ifs with heq hb
    · rw [bucketCount_cons, bucketCount_cons, if_pos (heq.trans hb), if_pos (heq.trans hb)]
      dsimp only
      omega
    · rw [bucketCount_cons, bucketCount_cons, if_neg fun he => hb (heq ▸ he), if_neg fun he => hb (heq ▸ he)]
      rfl
    all_goals
      rw [bucketCount_cons, bucketCount_cons, ih]
      simp_all

theorem bucketCount_foldl (part acc : List FacetBucket) :
    bucketCount id (part.foldl foldBucket acc) = bucketCount id acc + bucketCount id part := by
  induction part generalizing acc with
  | nil => rfl
  | cons b part ih => rw [foldl_cons, ih, bucketCount_foldBucket, bucketCount_cons, Nat.add_assoc]

theorem bucketCount_items (items : List (Bytes × Bytes × Nat)) (hnodup : (items.map Prod.fst).Nodup) :
    bucketCount id items = ((items.find? fun p => p.1 = id).map Prod.snd).elim 0 Prod.snd := by
  induction items with
  | nil => rfl
  | cons b items ih =>
    obtain ⟨hb, hrest⟩ := nodup_cons.mp hnodup
    rw [bucketCount_cons, ih hrest, find?_cons]
    by_cases hid : b.1 = id
    · have hnone : items.find? (fun p => p.1 = id) = none := by
        refine find?_eq_none.mpr fun p hp hpid => hb (List.mem_map.mpr ⟨p, hp, ?_⟩)
        rw [hid]
        exact of_decide_eq_true hpid
      rw [if_pos hid, hnone, decide_eq_true hid]
      rfl
    · rw [if_neg hid, decide_eq_false hid, Nat.zero_add]

theorem bucketCount_finish (counts : FacetCounts) :
    bucketCount id ((counts.items.map fun b => (b.1, b.2.1, b.2.2)).mergeSort bucketLe) = countOf id counts := by
  rw [bucketCount_perm (mergeSort_perm _ _), List.map_id']
  exact bucketCount_items counts.items counts.nodup

variable {T : Texts} {c : ScalarClauses}

theorem countOf_countFacet (e : Entry) (facet : Nat × ValType) (counts : FacetCounts) :
    countOf id (countFacet T e facet counts) =
      countOf id counts + if clauseKey T e facet.1 facet.2 == some id then 1 else 0 := by
  cases hraw : e.column facet.1 with
  | none => simp [countFacet, clauseKey, hraw]
  | some raw =>
    cases hkey : orderKey T facet.2 raw with
    | none => simp [countFacet, clauseKey, hraw, hkey]
    | some key =>
      simp only [countFacet, clauseKey, hraw, hkey, Option.bind_some, countOf]
      by_cases hid : key = id
      · subst hid
        rw [beq_self_eq_true, if_pos rfl]
        cases hget : counts.get key with
        | none | some => rw [KeyedList.get_insert, if_pos rfl]; rfl
      · have hne : (some key == some id) = false := by simpa using hid
        rw [hne, if_neg Bool.false_ne_true, Nat.add_zero]
        cases hget : counts.get key with
        | none | some => rw [KeyedList.get_insert, if_neg (Ne.symm hid)]

theorem getElem?_zipInto {α β : Type} {f : α → β → β} {as : List α} {bs : List β} {j : Nat} {a : α}
    (ha : as[j]? = some a) : (zipInto f as bs)[j]? = (bs[j]?).map (f a) := by
  induction as generalizing bs j with
  | nil => cases ha
  | cons a' as ih =>
    cases bs with
    | nil => rfl
    | cons b bs =>
      cases j with
      | zero =>
        obtain rfl := Option.some_inj.mp ha
        rfl
      | succ j => exact ih ha

theorem length_zipInto {α β : Type} (f : α → β → β) (as : List α) (bs : List β) : (zipInto f as bs).length = bs.length := by
  induction as generalizing bs with
  | nil => rfl
  | cons a as ih =>
    cases bs with
    | nil => rfl
    | cons b bs => exact congrArg (· + 1) (ih bs)

theorem queryLoop_facets {facet : Nat × ValType} {j : Nat} (hfacet : c.facets[j]? = some facet) (es : List Entry) :
    ∀ {facets : List FacetCounts} {counts : FacetCounts} (s : Selection), facets[j]? = some counts →
      ∃ counts', (queryLoop T c es facets s).1[j]? = some counts' ∧
        countOf id counts' = countOf id counts + tally T c id es facet := by
  induction es with
  | nil => exact fun {facets counts} s h => ⟨counts, h, rfl⟩
  | cons e es ih =>
    intro facets counts s h
    unfold queryLoop
    cases hp : passes T e c.filters with
    | false =>
      rw [show tally T c id (e :: es) facet = tally T c id es facet by simp [tally, hp]]
      exact ih s h
    | true =>
      have hfull : (c.sort.isSome || !c.facets.isEmpty) = true := by
        cases hfacets : c.facets with
        | nil => rw [hfacets] at hfacet; cases hfacet
        | cons f fs => simp
      have hcounted : (countFacets T c e facets)[j]? = some (countFacet T e facet counts) := by
        rw [countFacets, getElem?_zipInto hfacet, h]
        rfl
      obtain ⟨counts', hget, hcount⟩ := ih (selectHit T c e s) hcounted
      simp only [hfull, Bool.not_true, Bool.false_eq_true, if_false, Bool.false_and]
      refine ⟨counts', hget, ?_⟩
      rw [hcount, countOf_countFacet]
      unfold tally
      rw [filter_cons, if_pos hp, countP_cons]
      omega

theorem queryClaused_facets (seg : Segment) (min max : IndexValue) (cursor : Option Cursor) {j : Nat}
    {facet : Nat × ValType} (hfacet : c.facets[j]? = some facet) :
    ∃ buckets, (seg.queryClaused T min max cursor c).facets[j]? = some buckets ∧
      bucketCount id buckets = tally T c id (seg.rangeWalk min max cursor) facet := by
  have hempty : (c.facets.map fun _ => (KeyedList.empty : FacetCounts))[j]? = some .empty := by
    rw [getElem?_map, hfacet]
    rfl
  obtain ⟨counts, hget, hcount⟩ := @queryLoop_facets id T c facet j hfacet (seg.rangeWalk min max cursor) _ _
    ⟨[], .empty⟩ hempty
  refine ⟨_, ?_, bucketCount_finish counts |>.trans (hcount.trans (Nat.zero_add _))⟩
  show (finishFacets _)[j]? = _
  rw [finishFacets, getElem?_map, hget]
  rfl

theorem foldFacets_count (shards : List Segment) (min max : IndexValue) (cursor : Option Cursor) {j : Nat}
    {facet : Nat × ValType} (hfacet : c.facets[j]? = some facet) :
    ∀ {facets : List (List FacetBucket)} {acc : List FacetBucket}, facets[j]? = some acc →
      ∃ total, ((shards.map fun s => s.queryClaused T min max cursor c).foldl
          (fun facets p => foldFacets facets p.facets) facets)[j]? = some total ∧ bucketCount id total =
          bucketCount id acc + tally T c id (shards.flatMap fun s => s.rangeWalk min max cursor) facet := by
  induction shards with
  | nil => exact fun {facets acc} h => ⟨acc, h, rfl⟩
  | cons s shards ih =>
    intro facets acc h
    obtain ⟨buckets, hget, hcount⟩ := @queryClaused_facets id T c s min max cursor j facet hfacet
    have hfold : (foldFacets facets (s.queryClaused T min max cursor c).facets)[j]? =
        some (buckets.foldl foldBucket acc) := by
      rw [foldFacets, getElem?_zipInto hget, h]
      rfl
    obtain ⟨total, htotal, hsum⟩ := ih hfold
    refine ⟨total, htotal, ?_⟩
    rw [hsum, bucketCount_foldl, hcount]
    unfold tally
    rw [flatMap_cons, filter_append, countP_append, Nat.add_assoc]

theorem length_queryLoop_facets (T : Texts) (c : ScalarClauses) (es : List Entry) (facets : List FacetCounts)
    (s : Selection) : (queryLoop T c es facets s).1.length = facets.length := by
  induction es generalizing facets s with
  | nil => rfl
  | cons e es ih =>
    unfold queryLoop
    dsimp only
    split_ifs
    · exact ih facets s
    · exact length_zipInto _ _ _
    · rw [ih]
      exact length_zipInto _ _ _

theorem length_queryClaused_facets (T : Texts) (seg : Segment) (min max : IndexValue) (cursor : Option Cursor)
    (c : ScalarClauses) : (seg.queryClaused T min max cursor c).facets.length = c.facets.length := by
  show (finishFacets _).length = _
  rw [finishFacets, length_map, length_queryLoop_facets, length_map]

theorem length_foldl_foldFacets (pages : List ClausedPage) (facets : List (List FacetBucket)) :
    (pages.foldl (fun facets p => foldFacets facets p.facets) facets).length = facets.length := by
  induction pages generalizing facets with
  | nil => rfl
  | cons p pages ih => rw [foldl_cons, ih, foldFacets, length_zipInto]

end Facets

end Kevy.Index
