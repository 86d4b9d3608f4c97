import Kevy.Index.Facets
import Kevy.Index.Selection

/-!
# Sharded queries

The pages of the shards, merged at the origin, are the page of one segment that holds all rows.
-/

namespace Kevy.Index

open Kevy.Lib Kevy.Resp List

/-! ## The origin -/

section Origin

variable {shards : List Segment} {whole : Segment} {min max : IndexValue} {cursor : Option Cursor}

theorem candidates_perm (T : Texts) (hrows : (shards.flatMap Segment.entries).Perm whole.entries) (min max : IndexValue)
    (cursor : Option Cursor) (c : ScalarClauses) :
    (shards.flatMap fun s => candidates T c (s.rangeWalk min max cursor)).Perm
      (candidates T c (whole.rangeWalk min max cursor)) := by
  have hall : (shards.flatMap fun s => candidates T c (s.rangeWalk min max cursor)) =
      (((shards.flatMap Segment.entries).filter (inRange min max cursor)).filter (passes T · c.filters)).map
        (hitOf T c) := by
    rw [filter_flatMap, filter_flatMap, map_flatMap]
    rfl
  rw [hall]
  exact ((hrows.filter _).filter _).map _

variable {τ : Type}

theorem mergeClaused_map (hydrate : ScalarHit → τ) (hits : List ScalarHit) (sort : Option SortOrder)
    (offset limit : Nat) : (mergeClaused (hits.map fun h => (h, hydrate h)) sort offset limit).map Prod.fst =
      ((firsts ScalarHit.dkey [] (hits.mergeSort (hitLe sort))).drop offset).take limit := by
  have hmerge : ((hits.map fun h => (h, hydrate h)).mergeSort fun a b => hitLe sort a.1 b.1) =
      (hits.mergeSort (hitLe sort)).map fun h => (h, hydrate h) := by
    symm
    apply map_mergeSort
    exact fun _ _ _ _ => rfl
  unfold mergeClaused
  rw [hmerge, firsts_map, ← map_drop, ← map_take, List.map_map]
  exact List.map_id _

theorem mergeSort_eq_filter {xs all : List ScalarHit} (sort : Option SortOrder) (hkeys : (all.map ScalarHit.key).Nodup)
    (hsub : xs ⊆ all) (hxs : xs.Nodup) :
    xs.mergeSort (hitLe sort) = (all.mergeSort (hitLe sort)).filter fun h => xs.contains h := by
  have hall := mergeSort_perm all (hitLe sort)
  refine @eq_of_pairwise_before sort _ _ (pairwise_mergeSort ?_) ((pairwise_mergeSort hkeys).sublist filter_sublist) ?_
  · exact Nodup.map_on (fun x hx y hy heq => inj_on_of_nodup_map hkeys (hsub hx) (hsub hy) heq) hxs
  · refine (mergeSort_perm xs _).trans ?_
    have hnodup : (all.mergeSort (hitLe sort)).Nodup := hall.nodup_iff.mpr (Nodup.of_map ScalarHit.key hkeys)
    refine (perm_ext_iff_of_nodup hxs (hnodup.sublist filter_sublist)).mpr fun h => ?_
    rw [mem_filter, hall.mem_iff, contains_iff_mem]
    exact ⟨fun hx => ⟨hsub hx, hx⟩, fun hx => hx.2⟩

theorem queryShards_hits (T : Texts) (hydrate : ScalarHit → τ)
    (hrows : (shards.flatMap Segment.entries).Perm whole.entries) (hkeys : (whole.entries.map Entry.key).Nodup)
    (c : ScalarClauses) (offset limit : Nat) :
    (queryShards T hydrate shards min max cursor c offset limit).1.map Prod.fst =
      (whole.queryClaused T min max cursor { c with fetch := limit + offset }).hits.drop offset := by
  obtain ⟨c', hc'⟩ : ∃ c' : ScalarClauses, c' = { c with fetch := limit + offset } := ⟨_, rfl⟩
  obtain ⟨sort, hsort⟩ : ∃ sort, sort = c.sort.map fun s => s.2.1 := ⟨_, rfl⟩
  have hsort' : (c'.sort.map fun s => s.2.1) = sort := by rw [hc', hsort]
  obtain ⟨found, hfound⟩ : ∃ found : Segment → List ScalarHit,
      found = fun s => candidates T c' (s.rangeWalk min max cursor) := ⟨_, rfl⟩
  have hperm : (shards.flatMap found).Perm (found whole) := hfound ▸ candidates_perm T hrows min max cursor c'
  have hnodup : ((found whole).map ScalarHit.key).Nodup := by
    rw [hfound]
    exact nodup_candidates T c' min max cursor hkeys
  have hfoundNodup := nodup_flatMap.mp (hperm.nodup_iff.mpr (Nodup.of_map ScalarHit.key hnodup))
  have hsubset : ∀ s ∈ shards, found s ⊆ found whole := fun s hs h hh =>
    hperm.subset (mem_flatMap.mpr ⟨s, hs, hh⟩)
  have hpages : ∀ s ∈ shards, (s.queryClaused T min max cursor c').hits =
      (firsts ScalarHit.dkey [] (((found whole).mergeSort (hitLe sort)).filter fun h => (found s).contains h)).take
        (limit + offset) := by
    intro s hs
    have hshard : (s.entries.map Entry.key).Nodup := by
      have hall : ((shards.flatMap Segment.entries).map Entry.key).Nodup := (hrows.map Entry.key).nodup_iff.mpr hkeys
      rw [map_flatMap] at hall
      exact (nodup_flatMap.mp hall).1 s hs
    rw [queryClaused_hits T s min max cursor c' hshard, hsort', hc',
      ← mergeSort_eq_filter sort hnodup (hsubset s hs) (hfoundNodup.1 s hs), hfound, hc']
  have hpageSubset : ∀ s ∈ shards, (s.queryClaused T min max cursor c').hits ⊆ found s := by
    intro s hs h hh
    rw [hpages s hs] at hh
    have hmem := (firsts_sublist [] _).subset (mem_of_mem_take hh)
    exact contains_iff_mem.mp (mem_filter.mp hmem).2
  have hmerged : (shards.flatMap fun s => (s.queryClaused T min max cursor c').hits).mergeSort (hitLe sort) =
      ((found whole).mergeSort (hitLe sort)).filter fun h =>
        (shards.flatMap fun s => (s.queryClaused T min max cursor c').hits).contains h := by
    refine mergeSort_eq_filter sort hnodup (fun h hh => ?_) (nodup_flatMap.mpr ⟨fun s hs => ?_, ?_⟩)
    · obtain ⟨s, hs, hh⟩ := mem_flatMap.mp hh
      exact hsubset s hs (hpageSubset s hs hh)
    · rw [hpages s hs, ← mergeSort_eq_filter sort hnodup (hsubset s hs) (hfoundNodup.1 s hs)]
      refine Nodup.sublist ((take_sublist _ _).trans (firsts_sublist [] _)) ?_
      exact (mergeSort_perm _ _).nodup_iff.mpr (hfoundNodup.1 s hs)
    · refine hfoundNodup.2.imp_of_mem fun hs ht hdisj => ?_
      exact fun h hh hh' => hdisj (hpageSubset _ hs hh) (hpageSubset _ ht hh')
  have hcover : ∀ h ∈ (found whole).mergeSort (hitLe sort),
      ∃ q ∈ shards.map fun s h => (found s).contains h, q h = true := by
    intro h hh
    obtain ⟨s, hs, hmem⟩ := mem_flatMap.mp (hperm.symm.subset ((mergeSort_perm _ _).subset hh))
    exact ⟨_, List.mem_map_of_mem hs, contains_iff_mem.mpr hmem⟩
  have hparts := take_firsts_parts (g := ScalarHit.dkey) _ hcover (limit + offset)
    (fun h => (shards.flatMap fun s => (s.queryClaused T min max cursor c').hits).contains h) fun h => by
      rw [contains_iff_mem, mem_flatMap]
      constructor
      · rintro ⟨s, hs, hh⟩
        exact ⟨_, List.mem_map_of_mem hs, hpages s hs ▸ hh⟩
      · rintro ⟨q, hq, hh⟩
        obtain ⟨s, hs, rfl⟩ := List.mem_map.mp hq
        exact ⟨s, hs, (hpages s hs).symm ▸ hh⟩
  unfold queryShards
  dsimp only
  rw [← hc', ← hsort, flatMap_map, ← map_flatMap, mergeClaused_map, hmerged, queryClaused_hits T whole _ _ _ _ hkeys,
    hsort', take_drop, Nat.add_comm offset limit, hparts]
  rw [hfound, hc']

theorem rangeWalk_perm (hrows : (shards.flatMap Segment.entries).Perm whole.entries) (min max : IndexValue)
    (cursor : Option Cursor) :
    (shards.flatMap fun s => s.rangeWalk min max cursor).Perm (whole.rangeWalk min max cursor) := by
  have hall : (shards.flatMap fun s => s.rangeWalk min max cursor) =
      (shards.flatMap Segment.entries).filter (inRange min max cursor) := by
    rw [filter_flatMap]
    rfl
  rw [hall]
  exact hrows.filter _

theorem tally_perm {T : Texts} {c : ScalarClauses} {id : Bytes} {facet : Nat × ValType} {es es' : List Entry}
    (h : es.Perm es') : tally T c id es facet = tally T c id es' facet :=
  (h.filter _).countP_eq _

theorem queryShards_facets (T : Texts) (hydrate : ScalarHit → τ)
    (hrows : (shards.flatMap Segment.entries).Perm whole.entries) (c : ScalarClauses) (offset limit : Nat) (id : Bytes) :
    (queryShards T hydrate shards min max cursor c offset limit).2.map (bucketCount id) =
      (whole.queryClaused T min max cursor { c with fetch := limit + offset }).facets.map (bucketCount id) := by
  obtain ⟨c', hc'⟩ : ∃ c' : ScalarClauses, c' = { c with fetch := limit + offset } := ⟨_, rfl⟩
  have hfacets : c'.facets = c.facets := by rw [hc']
  unfold queryShards sortFacets
  dsimp only
  rw [← hc', ← hfacets]
  refine ext_getElem? fun j => ?_
  rw [getElem?_map, getElem?_map, getElem?_map]
  cases hj : c'.facets[j]? with
  | none =>
    have hle : c'.facets.length ≤ j := List.getElem?_eq_none_iff.mp hj
    rw [List.getElem?_eq_none, List.getElem?_eq_none]
    · rfl
    · rw [length_queryClaused_facets]
      exact hle
    · rw [length_foldl_foldFacets, length_map]
      exact hle
  | some facet =>
    have hempty : (c'.facets.map fun _ => ([] : List FacetBucket))[j]? = some [] := by
      rw [getElem?_map, hj]
      rfl
    obtain ⟨total, hget, htotal⟩ := @foldFacets_count id T c' shards min max cursor j facet hj _ _ hempty
    obtain ⟨buckets, hget', hbuckets⟩ := @queryClaused_facets id T c' whole min max cursor j facet hj
    rw [hget, hget', Option.map_some, Option.map_some, Option.map_some, bucketCount_perm (mergeSort_perm _ _), htotal,
      hbuckets, tally_perm (rangeWalk_perm hrows min max cursor)]
    exact congrArg some (Nat.zero_add _)

/-- **Sharded clause queries equal a single-shard query**: the same hits in the same order, and the same count for every
identity of every facet. -/
theorem sharded_query_eq_single (T : Texts) (hydrate : ScalarHit → τ) (shards : List Segment) (whole : Segment)
    (hrows : (shards.flatMap Segment.entries).Perm whole.entries) (hkeys : (whole.entries.map Entry.key).Nodup)
    (min max : IndexValue) (cursor : Option Cursor) (c : ScalarClauses) (offset limit : Nat) :
    (queryShards T hydrate shards min max cursor c offset limit).1.map Prod.fst =
        (whole.queryClaused T min max cursor { c with fetch := limit + offset }).hits.drop offset ∧
      ∀ id, (queryShards T hydrate shards min max cursor c offset limit).2.map (bucketCount id) =
        (whole.queryClaused T min max cursor { c with fetch := limit + offset }).facets.map (bucketCount id) :=
  ⟨queryShards_hits T hydrate hrows hkeys c offset limit, queryShards_facets T hydrate hrows c offset limit⟩

end Origin

def rowOf (value : Int) (key city : Bytes) : Entry := ⟨.i64 value, key, [some city]⟩

def oneRow (e : Entry) : Segment := ⟨[e], pairwise_singleton _ _⟩

def twoRows (e e' : Entry) (h : e.place < e'.place) : Segment := ⟨[e, e'], pairwise_pair.mpr h⟩

/-- Two rows of one city on two shards, asked for the cities. -/
theorem sharded_query_eq_single_two :
    ((queryShards ⟨fun _ => none, fun _ => none⟩ (fun _ => ()) [oneRow (rowOf 2 [98] [120]), oneRow (rowOf 1 [97] [120])]
        (.i64 0) (.i64 9) none ⟨[], none, some (0, .str), [(0, .str)], 0⟩ 0 5).1.map Prod.fst =
      ((twoRows (rowOf 1 [97] [120]) (rowOf 2 [98] [120]) (by decide)).queryClaused ⟨fun _ => none, fun _ => none⟩ (.i64 0)
        (.i64 9) none ⟨[], none, some (0, .str), [(0, .str)], 5⟩).hits.drop 0) :=
  (sharded_query_eq_single ⟨fun _ => none, fun _ => none⟩ (fun _ => ())
    [oneRow (rowOf 2 [98] [120]), oneRow (rowOf 1 [97] [120])]
    (twoRows (rowOf 1 [97] [120]) (rowOf 2 [98] [120]) (by decide)) (List.Perm.swap _ _ []) (by decide) (.i64 0) (.i64 9)
    none ⟨[], none, some (0, .str), [(0, .str)], 0⟩ 0 5).1

end Kevy.Index
