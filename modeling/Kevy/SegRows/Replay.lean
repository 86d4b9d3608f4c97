import Kevy.SegRows.Rewrite

/-!
# What the replay of a log depends on

A log without a `FLUSHALL` looks at the keyspace and at the segments it names or the stubs refer to. Two directories that
agree on these replay it alike.
-/

namespace Kevy.SegRows.Store

open Kevy.Lib List

variable {K T V O : Type} [LinearOrder K] {s s' t : Store K T V O}

/-! ## The stitch looks at the keyspace -/

theorem demoteRowToSeg_map (h : t.map = s.map) (seq : Nat) (key : K) :
    (t.demoteRowToSeg seq key).map = (s.demoteRowToSeg seq key).map := by
  unfold demoteRowToSeg
  rw [h]
  split
  · rfl
  · exact h

theorem stitch_map (h : t.map = s.map) (seq : Nat) (key : K) : (t.stitch seq key).map = (s.stitch seq key).map := by
  have hdemote := demoteRowToSeg_map h seq key
  unfold stitch
  rw [h]
  split
  · exact hdemote
  · rfl
  · exact h
  · exact h

theorem foldl_stitch_map (h : t.map = s.map) (seq : Nat) (records : List (K × V)) :
    (records.foldl (fun s r => s.stitch seq r.1) t).map = (records.foldl (fun s r => s.stitch seq r.1) s).map := by
  induction records generalizing s t with
  | nil => exact h
  | cons r records ih => exact ih (stitch_map h seq r.1)

theorem foldl_stitch_eq_commit (file : SegName T) (records : List (K × V)) (h : ∀ r ∈ records, s.map.get r.1 ≠ none) :
    records.foldl (fun s r => s.stitch file.seq r.1) s = s.commitRowEviction file (records.map Prod.fst) := by
  unfold commitRowEviction
  induction records generalizing s with
  | nil => rfl
  | cons r records ih =>
    have hone : s.stitch file.seq r.1 = s.demoteRowToSeg file.seq r.1 := by
      unfold stitch demoteRowToSeg
      rcases hget : s.map.get r.1 with _ | v | o | seq
      · exact absurd hget (h r mem_cons_self)
      · rfl
      · rfl
      · rfl
    rw [map_cons, foldl_cons, foldl_cons, hone]
    refine ih fun r' hmem hnone => h r' (mem_cons_of_mem _ hmem) ?_
    rw [get_demoteRowToSeg] at hnone
    split_ifs at hnone
    · rcases hget : s.map.get r'.1 with _ | v | o | seq
      · rfl
      all_goals
        rw [hget] at hnone
        cases hnone
    · exact hnone

/-! ## Frames -/

theorem writeRow_cases {key : K} {f : Option V → Option V} (h : s.writeRow key f = .ok s') :
    s' = s ∨ ∃ v, s' = s.setRow key v := by
  unfold writeRow at h
  split at h
  · cases h
    exact .inr ⟨_, rfl⟩
  · cases h
    exact .inr ⟨_, rfl⟩
  · cases h
    exact .inl rfl
  · next seq hget =>
    cases hread : s.segrowRead seq key with
    | error e =>
      rw [hread] at h
      cases h
    | ok v =>
      rw [hread] at h
      cases h
      exact .inr ⟨_, rfl⟩

variable [DecidableEq T]

theorem applySegmented_cases {file : SegName T} (h : s.applySegmented file = .ok s') :
    ∃ slot ∈ s.segs, slot.file = file ∧ s' = slot.records.foldl (fun s r => s.stitch file.seq r.1) s := by
  unfold applySegmented at h
  cases hfind : s.segs.find? fun slot => slot.file = file with
  | none =>
    rw [hfind] at h
    cases h
  | some slot =>
    rw [hfind] at h
    cases h
    exact ⟨slot, mem_of_find?_eq_some hfind, by simpa using find?_some hfind, rfl⟩

variable {frame : Frame K T V O}

theorem applyFrame_segs (h : s.applyFrame frame = .ok s') (hflush : frame ≠ .flushall) : s'.segs = s.segs := by
  cases frame with
  | row key f =>
    rcases writeRow_cases h with rfl | ⟨v, rfl⟩
    · rfl
    · exact (setRow_segs s key v).1
  | set | del =>
    cases h
    rfl
  | flushall => exact absurd rfl hflush
  | segmented file =>
    obtain ⟨slot, -, -, rfl⟩ := applySegmented_cases h
    exact (foldl_stitch_segs _ _ _).1

theorem applyFrame_seq (h : s.applyFrame frame = .ok s') : s'.seq = s.seq := by
  cases frame with
  | row key f =>
    rcases writeRow_cases h with rfl | ⟨v, rfl⟩
    · rfl
    · exact (setRow_segs s key v).2
  | set | del | flushall =>
    cases h
    rfl
  | segmented file =>
    obtain ⟨slot, -, -, rfl⟩ := applySegmented_cases h
    exact (foldl_stitch_segs _ _ _).2

theorem applyFrame_stub (h : s.applyFrame frame = .ok s') {key : K} {seq : Nat}
    (hget : s'.map.get key = some (.cold seq)) :
    s.map.get key = some (.cold seq) ∨ ∃ file, frame = .segmented file ∧ file.seq = seq := by
  cases frame with
  | row key' f =>
    left
    rcases writeRow_cases h with rfl | ⟨_ | v, rfl⟩
    · exact hget
    · rw [setRow, KeyedList.get_erase] at hget
      split_ifs at hget
      exact hget
    · rw [setRow, KeyedList.get_insert] at hget
      split_ifs at hget
      · cases hget
      · exact hget
  | set key' o =>
    cases h
    rw [Store.set, KeyedList.get_insert] at hget
    split_ifs at hget
    · cases hget
    · exact .inl hget
  | del key' =>
    cases h
    rw [Store.del, KeyedList.get_erase] at hget
    split_ifs at hget
    exact .inl hget
  | flushall =>
    cases h
    cases hget
  | segmented file =>
    obtain ⟨slot, -, -, rfl⟩ := applySegmented_cases h
    rw [get_foldl (stitched_idem file.seq) fun s r key => get_stitch s _ r.1 key] at hget
    split_ifs at hget
    · rcases hx : s.map.get key with _ | v | o | q <;> rw [hx] at hget
      · cases hget
        exact .inr ⟨file, rfl, rfl⟩
      · cases hget
        exact .inr ⟨file, rfl, rfl⟩
      · cases hget
      · exact .inl hget
    · exact .inl hget

/-! ## Directories that agree -/

/-- Two stores with the same keyspace, whose directories both hold some segments, to which all stubs refer. -/
structure Agree (shared : SegSlot K T V → Prop) (s t : Store K T V O) : Prop where
  map : t.map = s.map
  left : (s.segs.map fun slot => slot.file.seq).Nodup ∧ ∀ slot, shared slot → slot ∈ s.segs
  right : (t.segs.map fun slot => slot.file.seq).Nodup ∧ ∀ slot, shared slot → slot ∈ t.segs
  stubs : ∀ key seq, s.map.get key = some (.cold seq) → ∃ slot, shared slot ∧ slot.file.seq = seq

variable {shared : SegSlot K T V → Prop}

omit [DecidableEq T] in
theorem Agree.segrowRead (h : Agree shared s t) {slot : SegSlot K T V} (hslot : shared slot) (key : K) :
    t.segrowRead slot.file.seq key = s.segrowRead slot.file.seq key := by
  unfold Store.segrowRead
  rw [find?_of_nodup h.left.1 (h.left.2 slot hslot), find?_of_nodup h.right.1 (h.right.2 slot hslot)]

omit [DecidableEq T] in
theorem Agree.writeRow (h : Agree shared s t) (key : K) (f : Option V → Option V) :
    (t.writeRow key f).map Store.map = (s.writeRow key f).map Store.map := by
  have hset (v : Option V) : (t.setRow key v).map = (s.setRow key v).map := by
    cases v <;> simp [setRow, h.map]
  unfold Store.writeRow
  rw [h.map]
  split
  · exact congrArg Except.ok (hset _)
  · exact congrArg Except.ok (hset _)
  · exact congrArg Except.ok h.map
  · next seq hget =>
    obtain ⟨slot, hslot, rfl⟩ := h.stubs key _ hget
    rw [h.segrowRead hslot]
    cases s.segrowRead slot.file.seq key with
    | error e => rfl
    | ok v => exact congrArg Except.ok (hset _)

theorem Agree.applySegmented (h : Agree shared s t) {slot : SegSlot K T V} (hslot : shared slot) :
    (t.applySegmented slot.file).map Store.map = (s.applySegmented slot.file).map Store.map := by
  rw [Store.applySegmented, Store.applySegmented, find_file h.left.1 (h.left.2 slot hslot),
    find_file h.right.1 (h.right.2 slot hslot)]
  exact congrArg Except.ok (foldl_stitch_map h.map _ _)

theorem Agree.applyFrame_map (h : Agree shared s t)
    (hnamed : ∀ file, frame = .segmented file → ∃ slot, shared slot ∧ slot.file = file) :
    (t.applyFrame frame).map Store.map = (s.applyFrame frame).map Store.map := by
  cases frame with
  | row key f => exact h.writeRow key f
  | set key o => exact congrArg Except.ok (by rw [Store.set, Store.set, h.map])
  | del key => exact congrArg Except.ok (by rw [Store.del, Store.del, h.map])
  | flushall => rfl
  | segmented file =>
    obtain ⟨slot, hslot, rfl⟩ := hnamed file rfl
    exact h.applySegmented hslot

theorem Agree.applyFrame (h : Agree shared s t) (hflush : frame ≠ .flushall)
    (hnamed : ∀ file, frame = .segmented file → ∃ slot, shared slot ∧ slot.file = file)
    (hs : s.applyFrame frame = .ok s') : ∃ t', t.applyFrame frame = .ok t' ∧ Agree shared s' t' ∧ t'.segs = t.segs := by
  have hmap := h.applyFrame_map hnamed
  rw [hs] at hmap
  cases ht : t.applyFrame frame with
  | error e =>
    rw [ht] at hmap
    cases hmap
  | ok t' =>
    rw [ht] at hmap
    have hsegs := applyFrame_segs hs hflush
    have hsegs' := applyFrame_segs ht hflush
    refine ⟨t', rfl, ⟨Except.ok.inj hmap, by rw [hsegs]; exact h.left, by rw [hsegs']; exact h.right, ?_⟩, hsegs'⟩
    intro key seq hget
    rcases applyFrame_stub hs hget with hold | ⟨file, rfl, rfl⟩
    · exact h.stubs key seq hold
    · obtain ⟨slot, hslot, rfl⟩ := hnamed file rfl
      exact ⟨slot, hslot, rfl⟩

theorem Agree.replay (h : Agree shared s t) {frames : List (Frame K T V O)} (hflush : .flushall ∉ frames)
    (hnamed : ∀ file, .segmented file ∈ frames → ∃ slot, shared slot ∧ slot.file = file)
    (hs : s.replay frames = .ok s') : ∃ t', t.replay frames = .ok t' ∧ Agree shared s' t' ∧ t'.segs = t.segs := by
  induction frames generalizing s t with
  | nil =>
    cases hs
    exact ⟨t, rfl, h, rfl⟩
  | cons frame frames ih =>
    rw [mem_cons, not_or] at hflush
    rw [Store.replay] at hs
    cases hone : s.applyFrame frame with
    | error e =>
      rw [hone] at hs
      cases hs
    | ok s1 =>
      rw [hone] at hs
      obtain ⟨t1, ht1, h1, hsegs1⟩ := h.applyFrame (Ne.symm hflush.1) (fun file heq =>
        hnamed file (heq ▸ mem_cons_self)) hone
      obtain ⟨t2, ht2, h2, hsegs2⟩ := ih h1 hflush.2 (fun file hmem => hnamed file (mem_cons_of_mem _ hmem)) hs
      refine ⟨t2, ?_, h2, hsegs2.trans hsegs1⟩
      rw [Store.replay, ht1]
      exact ht2

end Kevy.SegRows.Store
