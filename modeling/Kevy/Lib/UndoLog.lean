import Mathlib.Data.List.Nodup

/-!
# Undo logs

Cells under keys, and a log of what some of them held before they were first changed. Undoing the log puts each record
back, the youngest first. What is *seen* of the cells is as before when every record restores what was seen of its
cell and the cells without a record look as they did.
-/

namespace Kevy.Lib

open List Function

variable {K C S V : Type} [DecidableEq K]

/-- Put the records of a log back, the youngest first. -/
def undoAll (restore : S → C → C) (cells : K → C) (log : List (K × S)) : K → C :=
  log.foldr (fun r cells => Function.update cells r.1 (restore r.2 (cells r.1))) cells

variable {restore : S → C → C} {cells cells' : K → C} {log : List (K × S)} {prior : K → C} {seen : C → V}

theorem undoAll_of_notMem {k : K} (h : k ∉ log.map Prod.fst) : undoAll restore cells log k = cells k := by
  induction log with
  | nil => rfl
  | cons r log ih =>
    rw [map_cons, mem_cons, not_or] at h
    rw [undoAll, foldr_cons, update_of_ne h.1]
    exact ih h.2

theorem undoAll_of_mem {k : K} {s : S} (hnodup : (log.map Prod.fst).Nodup) (h : (k, s) ∈ log) :
    undoAll restore cells log k = restore s (cells k) := by
  induction log with
  | nil => cases h
  | cons r log ih =>
    rw [map_cons, nodup_cons] at hnodup
    rw [undoAll, foldr_cons]
    rcases mem_cons.mp h with rfl | h
    · rw [update_self]
      exact congrArg _ (undoAll_of_notMem hnodup.1)
    · have hne : k ≠ r.1 := by
        rintro rfl
        exact hnodup.1 (List.mem_map.mpr ⟨_, h, rfl⟩)
      rw [update_of_ne hne]
      exact ih hnodup.2 h

/-- What makes a log undo the changes of the cells: every record restores what was seen, and only cells with a record
look different. -/
structure Undoes (restore : S → C → C) (seen : C → V) (prior : K → C) (log : List (K × S)) (cells : K → C) : Prop where
  nodup : (log.map Prod.fst).Nodup
  recorded : ∀ r ∈ log, ∀ c, seen (restore r.2 c) = seen (prior r.1)
  others : ∀ k ∉ log.map Prod.fst, seen (cells k) = seen (prior k)

omit [DecidableEq K] in
theorem Undoes.nil (restore : S → C → C) (seen : C → V) (prior : K → C) : Undoes restore seen prior [] prior :=
  ⟨nodup_nil, fun _ h => absurd h not_mem_nil, fun _ _ => rfl⟩

theorem Undoes.seen_undoAll (h : Undoes restore seen prior log cells) (k : K) :
    seen (undoAll restore cells log k) = seen (prior k) := by
  by_cases hk : k ∈ log.map Prod.fst
  · obtain ⟨⟨k', s⟩, hmem, rfl⟩ := List.mem_map.mp hk
    rw [undoAll_of_mem h.nodup hmem]
    exact h.recorded _ hmem _
  · rw [undoAll_of_notMem hk, h.others k hk]

theorem Undoes.update (h : Undoes restore seen prior log cells) (k : K) (c : C)
    (hk : k ∈ log.map Prod.fst ∨ seen c = seen (cells k)) :
    Undoes restore seen prior log (Function.update cells k c) where
  nodup := h.nodup
  recorded := h.recorded
  others k' hk' := by
    by_cases heq : k' = k
    · subst heq
      rw [update_self, hk.resolve_left hk', h.others k' hk']
    · rw [update_of_ne heq, h.others k' hk']

omit [DecidableEq K] in
theorem Undoes.record (h : Undoes restore seen prior log cells) {k : K} {s : S} (hk : k ∉ log.map Prod.fst)
    (hs : ∀ c, seen (restore s c) = seen (cells k)) : Undoes restore seen prior (log ++ [(k, s)]) cells where
  nodup := by
    rw [map_append, map_singleton]
    refine Nodup.append h.nodup (nodup_singleton _) fun k' hmem heq => hk ?_
    rwa [mem_singleton.mp heq] at hmem
  recorded r hr c := by
    rcases mem_append.mp hr with hr | hr
    · exact h.recorded r hr c
    · rw [mem_singleton.mp hr, hs, h.others k hk]
  others k' hk' := by
    rw [map_append, mem_append, not_or] at hk'
    exact h.others k' hk'.1

end Kevy.Lib
