import Kevy.Index.Clauses

/-!
# Writes to a segment

How a row's entry gets into the tree and out of it again, and how the front of the tree is cut off.
-/

namespace Kevy.Index

open Kevy.Lib Kevy.Resp List

abbrev Hit := IndexValue ×ₗ Bytes

namespace Segment

def places (s : Segment) : List Hit := s.entries.map Entry.place

theorem pairwise_places (s : Segment) : s.places.Pairwise (· < ·) := pairwise_map.mpr s.sorted

def keep (s : Segment) (p : Entry → Bool) : Segment := ⟨s.entries.filter p, s.sorted.filter p⟩

def remove (s : Segment) (key : Bytes) (old : IndexValue) : Segment := s.keep fun e => !decide (e.place = toLex (old, key))

/-- `insert`: a new entry, or new columns for the one already there. -/
def insert (s : Segment) (e : Entry) : Segment where
  entries := s.entries.filter (fun x => decide (x.place < e.place)) ++
    e :: s.entries.filter (fun x => decide (e.place < x.place))
  sorted := by
    refine pairwise_append.mpr ⟨s.sorted.filter _, pairwise_cons.mpr ⟨fun x hx => ?_, s.sorted.filter _⟩, ?_⟩
    · simpa using (mem_filter.mp hx).2
    · intro x hx y hy
      have hxe : x.place < e.place := by simpa using (mem_filter.mp hx).2
      rcases mem_cons.mp hy with rfl | hy
      · exact hxe
      · exact hxe.trans (by simpa using (mem_filter.mp hy).2)

/-- `apply_with_values`. A row written again with its old value is left alone where there are no columns to store. -/
def applyWithValues (arity : Nat) (s : Segment) (key : Bytes) (old new : Option IndexValue)
    (columns : List (Option Bytes)) : Segment :=
  match new with
  | none =>
    match old with
    | none => s
    | some o => s.remove key o
  | some v =>
    if old = some v ∧ arity = 0 then s
    else
      let s :=
        match old with
        | some o => if o ≠ v then s.remove key o else s
        | none => s
      s.insert ⟨v, key, columns⟩

def count (s : Segment) (min max : IndexValue) : Nat := (s.rangeWalk min max none).length

def range (s : Segment) (min max : IndexValue) (cursor : Option Cursor) (limit : Nat) : List Hit :=
  ((s.rangeWalk min max cursor).take limit).map Entry.place

def maxValue (s : Segment) : Option IndexValue := s.entries.getLast?.map Entry.value

def scanBelow (s : Segment) (bound : IndexValue) : List Entry := s.entries.filter fun e => decide (e.value < bound)

def splitOffBelow (s : Segment) (bound : IndexValue) : Segment := s.keep fun e => !decide (e.value < bound)

/-! ## What a write leaves -/

variable {s : Segment} {key : Bytes}

theorem places_keep (p : Hit → Bool) : (s.keep fun e => p e.place).places = s.places.filter p := by
  rw [places, places, keep, List.filter_map]
  rfl

theorem places_remove (o : IndexValue) : (s.remove key o).places = s.places.filter fun h => !decide (h = toLex (o, key)) :=
  places_keep fun h => !decide (h = toLex (o, key))

theorem places_insert (e : Entry) :
    (s.insert e).places.Perm (e.place :: s.places.filter fun h => !decide (h = e.place)) := by
  have hmap (p : Hit → Bool) : (s.entries.filter fun x => p x.place).map Entry.place = s.places.filter p := by
    rw [places, List.filter_map]
    rfl
  rw [places, insert, map_append, map_cons, hmap fun h => decide (h < e.place), hmap fun h => decide (e.place < h)]
  refine perm_middle.trans (List.Perm.cons _ ?_)
  have hsplit := filter_append_perm (fun h => decide (h < e.place)) (s.places.filter fun h => !decide (h = e.place))
  rw [List.filter_filter, List.filter_filter] at hsplit
  refine List.Perm.trans (Perm.of_eq ?_) hsplit
  congr 1
  · refine filter_congr fun h _ => ?_
    by_cases hlt : h < e.place
    · simp [hlt, hlt.ne]
    · simp [hlt]
  · refine filter_congr fun h _ => ?_
    rcases lt_trichotomy h e.place with hlt | heq | hgt
    · simp [hlt, hlt.le]
    · simp [heq]
    · simp [hgt, hgt.ne', not_lt.mpr hgt.le]

end Segment

end Kevy.Index
