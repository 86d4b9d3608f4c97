import Kevy.Lib.Middle

/-!
# A sorted list cut into runs

An ascending list is cut into runs that are not empty. The first keys of the runs, the fences, say where a key can be:
in the last run whose fence is not above it (`fence_split`).
-/

namespace Kevy.Lib

open List

variable {α K : Type*} [LinearOrder K] {key : α → K} {runs : List (α × List α)} {l : List α} {k : K}

def runElems (run : α × List α) : List α := run.1 :: run.2

def Ascending (key : α → K) (l : List α) : Prop := l.Pairwise fun a b => key a < key b

/-- The run a key can be in: the place of its fence, or the one before the place it would have. -/
def fence (fences : List K) (k : K) : Nat :=
  let i := (fences.takeWhile (· < k)).length
  if fences[i]? = some k then i else i - 1

theorem Ascending.append {l1 l2 : List α} (h : Ascending key (l1 ++ l2)) {a b : α} (ha : a ∈ l1) (hb : b ∈ l2) :
    key a < key b := (pairwise_append.mp h).2.2 a ha b hb

theorem Ascending.fence_le {run : α × List α} {more : List (α × List α)} (h : Ascending key ((run :: more).flatMap runElems))
    {a : α} (ha : a ∈ (run :: more).flatMap runElems) : key run.1 ≤ key a := by
  rw [flatMap_cons] at h ha
  rcases mem_append.mp ha with ha | ha
  · rcases mem_cons.mp ha with rfl | ha
    · exact le_rfl
    · exact le_of_lt ((pairwise_cons.mp (pairwise_append.mp h).1).1 a ha)
  · exact le_of_lt (h.append mem_cons_self ha)

/-- **Fences.** A key is above everything before its run, not below the fence of the run unless that is the first one,
and below everything behind the run. -/
theorem fence_split (hne : runs ≠ []) (h : Ascending key (runs.flatMap runElems)) (k : K) :
    ∃ L run R, runs = L ++ run :: R ∧ L.length = fence (runs.map fun run => key run.1) k ∧
      (∀ a ∈ L.flatMap runElems, key a < k) ∧ (L ≠ [] → key run.1 ≤ k) ∧ ∀ a ∈ R.flatMap runElems, k < key a := by
  have hsplit : runs = runs.takeWhile (fun run => key run.1 < k) ++ runs.dropWhile (fun run => key run.1 < k) :=
    takeWhile_append_dropWhile.symm
  have hbelow : ∀ run ∈ runs.takeWhile (fun run => key run.1 < k), key run.1 < k := fun run hrun => by
    simpa using mem_takeWhile_imp hrun
  have hcount : ((runs.map fun run => key run.1).takeWhile (· < k)).length =
      (runs.takeWhile (fun run => key run.1 < k)).length := by
    rw [takeWhile_map, length_map]
    rfl
  have hhead : ∀ run, (runs.dropWhile fun run => decide (key run.1 < k)).head? = some run → k ≤ key run.1 := by
    intro run hrun
    have hnot := head?_dropWhile_not (fun run => decide (key run.1 < k)) runs
    rw [hrun] at hnot
    simpa using hnot
  generalize runs.takeWhile (fun run => decide (key run.1 < k)) = A at *
  generalize runs.dropWhile (fun run => decide (key run.1 < k)) = B at *
  subst hsplit
  unfold fence
  dsimp only
  rw [hcount]
  have hfence : ((A ++ B).map fun run => key run.1)[A.length]? = B.head?.map fun run => key run.1 := by
    rw [getElem?_map, getElem?_append_right le_rfl, Nat.sub_self, head?_eq_getElem?]
  rw [hfence]
  by_cases hfound : (B.head?.map fun run => key run.1) = some k
  · -- the key is a fence
    rw [if_pos hfound]
    obtain ⟨run, hrun, hkey⟩ := Option.map_eq_some_iff.mp hfound
    obtain ⟨R, rfl⟩ : ∃ R, B = run :: R := ⟨B.tail, (cons_head?_tail hrun).symm⟩
    rw [flatMap_append, flatMap_cons] at h
    refine ⟨A, run, R, rfl, rfl, fun a ha => ?_, fun _ => hkey.le, fun a ha => ?_⟩
    · rw [← hkey]
      exact h.append ha (mem_append_left _ mem_cons_self)
    · rw [← hkey]
      exact Ascending.append (pairwise_append.mp h).2.1 mem_cons_self ha
  · rw [if_neg hfound]
    rcases eq_nil_or_concat A with rfl | ⟨L, run, rfl⟩
    · -- the key is below every fence
      obtain ⟨run, R, rfl⟩ := exists_cons_of_ne_nil hne
      refine ⟨[], run, R, rfl, rfl, fun a ha => absurd ha not_mem_nil, fun hL => absurd rfl hL, fun a ha => ?_⟩
      have hle := hhead run rfl
      rw [nil_append, flatMap_cons] at h
      exact lt_of_le_of_lt hle (h.append mem_cons_self ha)
    · -- the last fence below the key
      rw [concat_eq_append] at h hbelow ⊢
      refine ⟨L, run, B, by simp, by simp, fun a ha => ?_, fun _ => (hbelow run (by simp)).le, fun a ha => ?_⟩
      · rw [append_assoc, flatMap_append, flatMap_append] at h
        refine lt_trans (h.append ha (mem_append_left _ ?_)) (hbelow run (by simp))
        rw [flatMap_singleton]
        exact mem_cons_self
      · obtain ⟨next, hnext⟩ : ∃ next, B.head? = some next := by
          cases B with
          | nil => exact absurd ha not_mem_nil
          | cons next R => exact ⟨next, rfl⟩
        obtain ⟨R, rfl⟩ : ∃ R, B = next :: R := ⟨B.tail, (cons_head?_tail hnext).symm⟩
        have hlt : k < key next.1 := lt_of_le_of_ne (hhead next rfl) fun heq => hfound (by simp [heq])
        rw [flatMap_append] at h
        exact lt_of_lt_of_le hlt (Ascending.fence_le (pairwise_append.mp h).2.1 ha)

end Kevy.Lib
