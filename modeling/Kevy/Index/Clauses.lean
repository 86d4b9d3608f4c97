import Kevy.Index.Value
import Kevy.Lib.Firsts
import Kevy.Lib.KeyedList

/-!
# Clause queries

`FILTER`, `SORT`, `DISTINCT` and `FACET` over the entries of one segment, and the merge of the pages of all shards at
the origin.
-/

namespace Kevy.Index

open Kevy.Lib Kevy.Resp

/-! ## Orders -/

/-- `Ord::cmp`. -/
def ordCmp {α : Type} [LinearOrder α] (a b : α) : Ordering := cmp a b

inductive SortOrder
  | asc
  | desc
  deriving DecidableEq, Repr

def SortOrder.apply : SortOrder → Ordering → Ordering
  | .asc, o => o
  | .desc, o => o.swap

/-- `sorted_order`: a row with no value comes last in both directions. -/
def sortedOrder (a b : Option Bytes × Bytes) (order : SortOrder) : Ordering :=
  match a.1, b.1 with
  | some x, some y => (order.apply (ordCmp x y)).then (ordCmp a.2 b.2)
  | some _, none => .lt
  | none, some _ => .gt
  | none, none => ordCmp a.2 b.2

/-! ## Segments -/

/-- An entry of a segment: the driving value, the row and its stored columns. -/
structure Entry where
  value : IndexValue
  key : Bytes
  columns : List (Option Bytes)
  deriving DecidableEq, Repr

def Entry.place (e : Entry) : IndexValue ×ₗ Bytes := toLex (e.value, e.key)

def Entry.column (e : Entry) (f : Nat) : Option Bytes := (e.columns[f]?).join

/-- `Segment`, as the entries a walk meets. -/
structure Segment where
  entries : List Entry
  sorted : entries.Pairwise fun a b => a.place < b.place

structure Cursor where
  value : IndexValue
  key : Bytes

def inRange (min max : IndexValue) (cursor : Option Cursor) (e : Entry) : Bool :=
  (match cursor with
    | some c => decide (toLex (c.value, c.key) < e.place)
    | none => decide (min ≤ e.value)) && decide (e.value ≤ max)

def Segment.rangeWalk (s : Segment) (min max : IndexValue) (cursor : Option Cursor) : List Entry :=
  s.entries.filter (inRange min max cursor)

/-! ## Clauses -/

structure ScalarClauses where
  filters : List (Nat × ValueTest)
  sort : Option (Nat × SortOrder × ValType)
  distinct : Option (Nat × ValType)
  facets : List (Nat × ValType)
  fetch : Nat

structure ScalarHit where
  key : Bytes
  value : IndexValue
  okey : Option Bytes
  dkey : Option Bytes
  deriving DecidableEq, Repr

abbrev FacetBucket := Bytes × Bytes × Nat

abbrev FacetCounts := KeyedList Bytes (Bytes × Nat)

structure ClausedPage where
  hits : List ScalarHit
  facets : List (List FacetBucket)
  cursor : Option Cursor

def ScalarClauses.selects (c : ScalarClauses) : Bool := c.sort.isSome || c.distinct.isSome || !c.facets.isEmpty

variable (T : Texts)

def passes (e : Entry) (filters : List (Nat × ValueTest)) : Bool :=
  filters.all fun f => (e.column f.1).any (f.2.passes T)

def clauseKey (e : Entry) (field : Nat) (ty : ValType) : Option Bytes := (e.column field).bind (orderKey T ty)

def countFacet (e : Entry) (facet : Nat × ValType) (counts : FacetCounts) : FacetCounts :=
  match e.column facet.1 with
  | none => counts
  | some raw =>
    match orderKey T facet.2 raw with
    | none => counts
    | some id =>
      match counts.get id with
      | some b => counts.insert id (b.1, b.2 + 1)
      | none => counts.insert id (raw, 1)

/-- Two lists walked side by side, the second of them changed in place (`zip` with `iter_mut`). -/
def zipInto {α β : Type} (f : α → β → β) : List α → List β → List β
  | a :: as, b :: bs => f a b :: zipInto f as bs
  | _, bs => bs

def countFacets (c : ScalarClauses) (e : Entry) (facets : List FacetCounts) : List FacetCounts :=
  zipInto (countFacet T e) c.facets facets

def hitOf (c : ScalarClauses) (e : Entry) : ScalarHit where
  key := e.key
  value := e.value
  okey := c.sort.bind fun s => clauseKey T e s.1 s.2.2
  dkey := c.distinct.bind fun d => clauseKey T e d.1 d.2

/-- The page as it is selected: the hits, and for each group the place of its hit. -/
structure Selection where
  hits : List ScalarHit
  groups : KeyedList Bytes Nat

def selectHit (c : ScalarClauses) (e : Entry) (s : Selection) : Selection :=
  let hit := hitOf T c e
  match hit.dkey with
  | none => { s with hits := s.hits ++ [hit] }
  | some id =>
    match s.groups.get id with
    | none => ⟨s.hits ++ [hit], s.groups.insert id s.hits.length⟩
    | some i =>
      match c.sort, s.hits[i]? with
      | some (_, order, _), some prev =>
        if sortedOrder (hit.okey, hit.key) (prev.okey, prev.key) order = .lt then { s with hits := s.hits.set i hit }
        else s
      | _, _ => s

/-- The loop of `query_claused`. -/
def queryLoop (c : ScalarClauses) : List Entry → List FacetCounts → Selection → List FacetCounts × Selection
  | [], facets, s => (facets, s)
  | e :: es, facets, s =>
    if !passes T e c.filters then queryLoop c es facets s
    else
      let facets := countFacets T c e facets
      -- without `SORT` and `FACET` the walk stops as soon as the page is full
      if !(c.sort.isSome || !c.facets.isEmpty) && s.hits.length == c.fetch then (facets, s)
      else queryLoop c es facets (selectHit T c e s)

/-- The order of a page: by `SORT`, or the driving order. -/
def hitLe (sort : Option SortOrder) (a b : ScalarHit) : Bool :=
  match sort with
  | some order => sortedOrder (a.okey, a.key) (b.okey, b.key) order != .gt
  | none => ordCmp (toLex (a.value, a.key)) (toLex (b.value, b.key)) != .gt

/-- The order of reported buckets: most frequent first, then by label. -/
def bucketLe (a b : FacetBucket) : Bool := ((ordCmp b.2.2 a.2.2).then (ordCmp a.2.1 b.2.1)) != .gt

def finishFacets (facets : List FacetCounts) : List (List FacetBucket) :=
  facets.map fun counts => (counts.items.map fun b => (b.1, b.2.1, b.2.2)).mergeSort bucketLe

def filterCursor (c : ScalarClauses) (hits : List ScalarHit) : Option Cursor :=
  if c.selects || decide (hits.length < c.fetch) then none else hits.getLast?.map fun h => ⟨h.value, h.key⟩

def Segment.queryClaused (s : Segment) (min max : IndexValue) (cursor : Option Cursor) (c : ScalarClauses) :
    ClausedPage :=
  let (facets, selection) := queryLoop T c (s.rangeWalk min max cursor) (c.facets.map fun _ => .empty) ⟨[], .empty⟩
  let hits :=
    match c.sort with
    | some (_, order, _) => selection.hits.mergeSort (hitLe (some order))
    | none => selection.hits
  let hits := hits.take c.fetch
  ⟨hits, finishFacets facets, filterCursor c hits⟩

/-! ## The origin -/

def mergeClaused {τ : Type} (all : List (ScalarHit × τ)) (sort : Option SortOrder) (offset limit : Nat) :
    List (ScalarHit × τ) :=
  ((firsts (fun h => h.1.dkey) [] (all.mergeSort fun a b => hitLe sort a.1 b.1)).drop offset).take limit

def foldBucket : List FacetBucket → FacetBucket → List FacetBucket
  | [], b => [b]
  | e :: acc, b => if e.1 = b.1 then (e.1, e.2.1, e.2.2 + b.2.2) :: acc else e :: foldBucket acc b

def foldFacets (into «from» : List (List FacetBucket)) : List (List FacetBucket) :=
  zipInto (fun part acc => part.foldl foldBucket acc) «from» into

def sortFacets (facets : List (List FacetBucket)) : List (List FacetBucket) := facets.map (·.mergeSort bucketLe)

/-- `gather_claused` and the merge of `idx_query_claused`: each shard is asked for `limit + offset` hits. What rides with
a hit (`hydrate`) does not matter to the merge. -/
def queryShards {τ : Type} (hydrate : ScalarHit → τ) (shards : List Segment) (min max : IndexValue)
    (cursor : Option Cursor) (c : ScalarClauses) (offset limit : Nat) :
    List (ScalarHit × τ) × List (List FacetBucket) :=
  let pages := shards.map fun s => s.queryClaused T min max cursor { c with fetch := limit + offset }
  (mergeClaused (pages.flatMap fun p => p.hits.map fun h => (h, hydrate h)) (c.sort.map fun s => s.2.1) offset limit,
    sortFacets (pages.foldl (fun facets p => foldFacets facets p.facets) (c.facets.map fun _ => [])))

end Kevy.Index
