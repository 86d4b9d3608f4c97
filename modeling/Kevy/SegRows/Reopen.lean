import Kevy.SegRows.Replay

/-!
# Restarts of a shard with row segments

A restart replays the whole log, and the frames of the log go on naming their segments. A shard comes back as it was as
long as no segment is removed under a name that the log or the snapshot still has, and no `FLUSHALL` is replayed over
segments that are younger than it.
-/

namespace Kevy.SegRows

open Kevy.Lib List

variable {K T V O : Type} [LinearOrder K]

/-- What a step does to the keyspace: a restart or a snapshot does nothing to it. -/
def Step.apply (ks : Keyspace K V O) : Step K T V O → Keyspace K V O
  | .command c => c.apply ks
  | .flushall => fun _ => none
  | .save | .restart => ks

namespace Store

variable {s s' : Store K T V O} {ks : Keyspace K V O}

omit [LinearOrder K] in
theorem enableSegRows_below (segs : List (SegSlot K T V)) {slot : SegSlot K T V} (hmem : slot ∈ segs) :
    slot.file.seq < (enableSegRows segs : Store K T V O).seq := by
  suffices h : ∀ n, n ≤ segs.foldl (fun seq slot => max seq (slot.file.seq + 1)) n ∧
      ∀ slot ∈ segs, slot.file.seq < segs.foldl (fun seq slot => max seq (slot.file.seq + 1)) n from
    (h 0).2 slot hmem
  clear hmem
  induction segs with
  | nil => exact fun n => ⟨le_rfl, fun _ h => absurd h not_mem_nil⟩
  | cons x segs ih =>
    intro n
    obtain ⟨hle, hlt⟩ := ih (max n (x.file.seq + 1))
    refine ⟨(le_max_left _ _).trans hle, fun slot hmem => ?_⟩
    rcases mem_cons.mp hmem with rfl | hmem
    · exact (le_max_right n _).trans hle
    · exact hlt slot hmem

theorem mem_sweepOrphanRowSegs {slot : SegSlot K T V} :
    slot ∈ s.sweepOrphanRowSegs.segs ↔ slot ∈ s.segs ∧ ∃ key, s.map.get key = some (.cold slot.file.seq) := by
  unfold sweepOrphanRowSegs
  dsimp only
  rw [mem_filter, List.any_eq_true]
  refine and_congr_right fun _ => ⟨?_, ?_⟩
  · rintro ⟨⟨key, x⟩, hmem, hx⟩
    cases x with
    | cold seq =>
      rw [of_decide_eq_true hx] at hmem
      exact ⟨key, (KeyedList.mem_items_iff _ _ _).mp hmem⟩
    | row | other => cases hx
  · rintro ⟨key, hget⟩
    exact ⟨(key, .cold slot.file.seq), (KeyedList.mem_items_iff _ _ _).mpr hget, decide_eq_true rfl⟩

theorem replay_seq [DecidableEq T] {frames : List (Frame K T V O)} (h : s.replay frames = .ok s') : s'.seq = s.seq := by
  induction frames generalizing s with
  | nil =>
    cases h
    rfl
  | cons frame frames ih =>
    rw [replay] at h
    cases hone : s.applyFrame frame with
    | error e =>
      rw [hone] at h
      cases h
    | ok s1 =>
      rw [hone] at h
      exact (ih h).trans (applyFrame_seq hone)

end Store

namespace Shard

def Named (sh : Shard K T V O) (slot : SegSlot K T V) : Prop :=
  .segmented slot.file ∈ sh.log ∨ ∃ key, sh.snapshot.get key = some (.cold slot.file.seq)

/-- A step that keeps what the log names: rows are evicted while the log has no `FLUSHALL`, a `FLUSHALL` finds no
segment, and a restart finds a stub for every segment that is named. -/
def Safe (sh : Shard K T V O) : Step K T V O → Prop
  | .command (.evict _ _) => .flushall ∉ sh.log
  | .flushall => sh.store.segs = []
  | .restart => ∀ slot ∈ sh.store.segs, sh.Named slot → ∃ key, sh.store.map.get key = some (.cold slot.file.seq)
  | .command _ | .save => True

variable [DecidableEq T]

/-- A history all of whose steps are safe where they are taken. -/
def SafeRun (fits : K → Bool) (sh : Shard K T V O) : List (Step K T V O) → Prop
  | [] => True
  | s :: steps => sh.Safe s ∧ ∀ sh', sh.step fits s = .ok sh' → sh'.SafeRun fits steps

/-- What is kept: the log names segments that are there, and its replay gives the keyspace back. -/
structure Reopens (sh : Shard K T V O) (ks : Keyspace K V O) : Prop where
  holds : sh.store.Holds ks
  frames : ∀ file, .segmented file ∈ sh.log → ∃ slot ∈ sh.store.segs, slot.file = file
  stubs : ∀ key seq, sh.snapshot.get key = some (.cold seq) → ∃ slot ∈ sh.store.segs, slot.file.seq = seq
  flushed : .flushall ∈ sh.log → sh.store.segs = []
  replays : ∃ t, sh.loaded.replay sh.log = .ok t ∧ t.map = sh.store.map ∧ t.segs = sh.store.segs

variable {sh : Shard K T V O} {ks ks' : Keyspace K V O}

theorem fresh_reopens : (fresh : Shard K T V O).Reopens fun _ => none where
  holds := fresh_holds
  frames _ hmem := absurd hmem not_mem_nil
  stubs _ _ hget := absurd hget (by simp [fresh])
  flushed hmem := absurd hmem not_mem_nil
  replays := ⟨_, rfl, rfl, rfl⟩

section Reopens

variable (h : sh.Reopens ks)
include h

theorem Reopens.agree {t : Store K T V O} (hmap : t.map = sh.store.map)
    (hsegs : t.segs = sh.store.segs) : Store.Agree (· ∈ sh.store.segs) sh.store t where
  map := hmap
  left := ⟨h.holds.nodup, fun _ => id⟩
  right := by
    rw [hsegs]
    exact ⟨h.holds.nodup, fun _ => id⟩
  stubs key seq hget := by
    obtain ⟨slot, hmem, hseq, -⟩ := h.holds.stub hget
    exact ⟨slot, hmem, hseq⟩

theorem Reopens.frame {frame : Frame K T V O} {store : Store K T V O} (hflush : frame ≠ .flushall)
    (hseg : ∀ file, frame ≠ .segmented file) (happly : sh.store.applyFrame frame = .ok store)
    (hholds : store.Holds ks') : ({ sh with store, log := sh.log ++ [frame] } : Shard K T V O).Reopens ks' := by
  have hsegs := Store.applyFrame_segs happly hflush
  obtain ⟨t, ht, hmap, htsegs⟩ := h.replays
  obtain ⟨t', ht', hagree, htsegs'⟩ :=
    (h.agree hmap htsegs).applyFrame hflush (fun file heq => absurd heq (hseg file)) happly
  refine ⟨hholds, fun file hmem => ?_, ?_, fun hmem => ?_, t', ?_, hagree.map, htsegs'.trans (htsegs.trans hsegs.symm)⟩
  · rcases mem_append.mp hmem with hmem | hmem
    · rw [hsegs]
      exact h.frames file hmem
    · exact absurd (mem_singleton.mp hmem).symm (hseg file)
  · rw [hsegs]
    exact h.stubs
  · rcases mem_append.mp hmem with hmem | hmem
    · exact hsegs.trans (h.flushed hmem)
    · exact absurd (mem_singleton.mp hmem).symm hflush
  · have hloaded : ({ sh with store, log := sh.log ++ [frame] } : Shard K T V O).loaded = sh.loaded := by
      unfold loaded
      rw [hsegs]
    rw [hloaded, Store.replay_append ht, Store.replay, ht']
    rfl

theorem Reopens.replays_over (hflush : .flushall ∉ sh.log) {segs : List (SegSlot K T V)}
    (hnodup : (segs.map fun slot => slot.file.seq).Nodup)
    (hnamed : ∀ slot ∈ sh.store.segs, sh.Named slot → slot ∈ segs) (sh' : Shard K T V O)
    (hsegs : sh'.store.segs = segs) (hsnap : sh'.snapshot = sh.snapshot) :
    ∃ t, sh'.loaded.replay sh.log = .ok t ∧ t.map = sh.store.map ∧ t.segs = segs := by
  obtain ⟨t, ht, hmap, -⟩ := h.replays
  have hagree : Store.Agree (fun slot => slot ∈ sh.store.segs ∧ sh.Named slot) sh.loaded sh'.loaded := by
    refine ⟨hsnap, ⟨h.holds.nodup, fun slot hslot => hslot.1⟩, ?_, ?_⟩
    · show ((sh'.store.segs.map fun slot => slot.file.seq).Nodup ∧ ∀ slot, _ → slot ∈ sh'.store.segs)
      rw [hsegs]
      exact ⟨hnodup, fun slot hslot => hnamed slot hslot.1 hslot.2⟩
    · intro key seq hget
      obtain ⟨slot, hmem, rfl⟩ := h.stubs key seq hget
      exact ⟨slot, ⟨hmem, .inr ⟨key, hget⟩⟩, rfl⟩
  obtain ⟨t', ht', hagree', htsegs⟩ := hagree.replay hflush (fun file hmem => by
    obtain ⟨slot, hslot, rfl⟩ := h.frames file hmem
    exact ⟨slot, ⟨hslot, .inl hmem⟩, rfl⟩) ht
  exact ⟨t', ht', hagree'.map.trans hmap, htsegs.trans hsegs⟩

theorem Reopens.evict (hflush : .flushall ∉ sh.log) (table : T) {rows : List (K × V)} (hrows : sh.store.Sealed rows) :
    ({ sh with
        store := (sh.store.addSegment table rows).commitRowEviction ⟨table, sh.store.seq⟩ (rows.map Prod.fst)
        log := sh.log ++ [.segmented ⟨table, sh.store.seq⟩] } : Shard K T V O).Reopens ks := by
  have hadd := h.holds.addSegment table rows
  have hsegs := (Store.commitRowEviction_segs (sh.store.addSegment table rows) ⟨table, sh.store.seq⟩
    (rows.map Prod.fst)).1
  have hold : ∀ slot ∈ sh.store.segs, slot ∈ (sh.store.addSegment table rows).segs :=
    fun slot hmem => mem_append_left _ hmem
  have hnew : (⟨⟨table, sh.store.seq⟩, rows⟩ : SegSlot K T V) ∈ (sh.store.addSegment table rows).segs :=
    mem_append_right _ (mem_singleton_self _)
  obtain ⟨t, ht, hmap, htsegs⟩ := h.replays_over hflush hadd.nodup (fun slot hmem _ => hold slot hmem)
    { sh with
      store := (sh.store.addSegment table rows).commitRowEviction ⟨table, sh.store.seq⟩ (rows.map Prod.fst)
      log := sh.log ++ [.segmented ⟨table, sh.store.seq⟩] } hsegs rfl
  refine ⟨h.holds.commitRowEviction hrows table, fun file hmem => ?_, fun key seq hget => ?_, fun hmem => ?_, ?_⟩
  · rw [hsegs]
    rcases mem_append.mp hmem with hmem | hmem
    · obtain ⟨slot, hslot, hfile⟩ := h.frames file hmem
      exact ⟨slot, hold slot hslot, hfile⟩
    · cases mem_singleton.mp hmem
      exact ⟨_, hnew, rfl⟩
  · obtain ⟨slot, hslot, hseq⟩ := h.stubs key seq hget
    rw [hsegs]
    exact ⟨slot, hold slot hslot, hseq⟩
  · rcases mem_append.mp hmem with hmem | hmem
    · exact absurd hmem hflush
    · cases mem_singleton.mp hmem
  · have hfile := Store.find_file (s := t) (by rw [htsegs]; exact hadd.nodup) (by rw [htsegs]; exact hnew)
    have hstitch : t.applySegmented ⟨table, sh.store.seq⟩ =
        .ok (rows.foldl (fun s r => s.stitch sh.store.seq r.1) t) := by
      rw [Store.applySegmented, hfile]
    refine ⟨_, by rw [Store.replay_append ht, Store.replay, Store.applyFrame, hstitch]; rfl, ?_, ?_⟩
    · rw [Store.foldl_stitch_map (s := sh.store.addSegment table rows) hmap,
        Store.foldl_stitch_eq_commit ⟨table, sh.store.seq⟩]
      intro r hr hnone
      cases (hrows.hot r hr).symm.trans hnone
    · rw [(Store.foldl_stitch_segs rows _ t).1, htsegs, hsegs]

theorem Reopens.restart
    (hsafe : ∀ slot ∈ sh.store.segs, sh.Named slot → ∃ key, sh.store.map.get key = some (.cold slot.file.seq)) :
    ∃ sh', sh.restart = .ok sh' ∧ sh'.Reopens ks := by
  obtain ⟨t, ht, hmap, hsegs⟩ := h.replays
  refine ⟨_, by rw [Shard.restart, ht]; rfl, ?_⟩
  have hkept : ∀ slot, slot ∈ t.sweepOrphanRowSegs.segs ↔
      slot ∈ sh.store.segs ∧ ∃ key, sh.store.map.get key = some (.cold slot.file.seq) := by
    intro slot
    rw [Store.mem_sweepOrphanRowSegs, hmap, hsegs]
  have hnodup : (t.sweepOrphanRowSegs.segs.map fun slot => slot.file.seq).Nodup := by
    refine Nodup.sublist (Sublist.map _ filter_sublist) ?_
    rw [hsegs]
    exact h.holds.nodup
  have hswept : .flushall ∈ sh.log → t.sweepOrphanRowSegs.segs = sh.store.segs := by
    intro hmem
    rw [Store.sweepOrphanRowSegs, hsegs, h.flushed hmem]
    rfl
  refine ⟨?_, fun file hmem => ?_, fun key seq hget => ?_, fun hmem => ?_, ?_⟩
  · have hholds : (⟨sh.store.map, t.sweepOrphanRowSegs.segs, t.seq⟩ : Store K T V O).Holds ks :=
      h.holds.of_segs (fun slot hmem hstub => (hkept slot).mpr ⟨hmem, hstub⟩) hnodup fun slot hmem => by
        rw [Store.replay_seq ht]
        exact Store.enableSegRows_below (O := O) sh.store.segs ((hkept slot).mp hmem).1
    rwa [← hmap] at hholds
  · obtain ⟨slot, hslot, rfl⟩ := h.frames file hmem
    exact ⟨slot, (hkept slot).mpr ⟨hslot, hsafe slot hslot (.inl hmem)⟩, rfl⟩
  · obtain ⟨slot, hslot, rfl⟩ := h.stubs key seq hget
    exact ⟨slot, (hkept slot).mpr ⟨hslot, hsafe slot hslot (.inr ⟨key, hget⟩)⟩, rfl⟩
  · exact (hswept hmem).trans (h.flushed hmem)
  · by_cases hflush : .flushall ∈ sh.log
    · have hloaded : ({ sh with store := t.sweepOrphanRowSegs } : Shard K T V O).loaded = sh.loaded := by
        unfold loaded
        rw [hswept hflush]
      exact ⟨t, by rw [hloaded, ht], rfl, hsegs.trans (hswept hflush).symm⟩
    · obtain ⟨t', ht', hmap', hsegs'⟩ := h.replays_over hflush hnodup
        (fun slot hmem hname => (hkept slot).mpr ⟨hmem, hsafe slot hmem hname⟩)
        { sh with store := t.sweepOrphanRowSegs } rfl rfl
      exact ⟨t', ht', hmap'.trans hmap.symm, hsegs'⟩

theorem Reopens.flushall (hsafe : sh.store.segs = []) :
    ({ sh with store := sh.store.flushall, log := sh.log ++ [.flushall] } : Shard K T V O).Reopens fun _ => none := by
  obtain ⟨t, ht, -⟩ := h.replays
  refine ⟨⟨fun _ => rfl, nodup_nil, fun _ hmem => absurd hmem not_mem_nil⟩, fun file hmem => ?_,
    fun key seq hget => ?_, fun _ => rfl, t.flushall, ?_, rfl, rfl⟩
  · rcases mem_append.mp hmem with hmem | hmem
    · obtain ⟨slot, hslot, -⟩ := h.frames file hmem
      rw [hsafe] at hslot
      cases hslot
    · cases mem_singleton.mp hmem
  · obtain ⟨slot, hslot, -⟩ := h.stubs key seq hget
    rw [hsafe] at hslot
    cases hslot
  · have hloaded : ({ sh with store := sh.store.flushall, log := sh.log ++ [.flushall] } : Shard K T V O).loaded =
        sh.loaded := by
      unfold loaded
      rw [hsafe]
      rfl
    rw [hloaded, Store.replay_append ht]
    rfl

theorem Reopens.save : ({ sh with snapshot := sh.store.map, log := [] } : Shard K T V O).Reopens ks := by
  refine ⟨h.holds, fun _ hmem => absurd hmem not_mem_nil, fun key seq hget => ?_,
    fun hmem => absurd hmem not_mem_nil, _, rfl, rfl, rfl⟩
  obtain ⟨slot, hmem, hseq, -⟩ := h.holds.stub hget
  exact ⟨slot, hmem, hseq⟩

theorem Reopens.step (fits : K → Bool) {s : Step K T V O} (hsafe : sh.Safe s) :
    ∃ sh', sh.step fits s = .ok sh' ∧ sh'.Reopens (s.apply ks) := by
  cases s with
  | command c =>
    cases c with
    | row key f =>
      obtain ⟨store, hstore, hholds, -⟩ := h.holds.writeRow key f
      refine ⟨_, by rw [Shard.step, command, hstore]; rfl, ?_⟩
      exact h.frame (by simp) (by simp) hstore hholds
    | set key o =>
      exact ⟨_, rfl, h.frame (by simp) (by simp) rfl (h.holds.insert key (Store.read_of_get_other (by simp)))⟩
    | del key => exact ⟨_, rfl, h.frame (by simp) (by simp) rfl (h.holds.erase key)⟩
    | evict table keys =>
      rcases sh.store.sealRowsToSeg_cases fits table keys with ⟨seq, hseq, hseal⟩ | ⟨rows, hrows, hseal⟩
      · refine ⟨_, by rw [Shard.step, command, hseal], ?_⟩
        refine ⟨?_, h.frames, h.stubs, h.flushed, h.replays⟩
        exact h.holds.of_segs (fun _ hmem _ => hmem) h.holds.nodup fun slot hmem =>
          (h.holds.below slot hmem).trans_le hseq
      · exact ⟨_, by rw [Shard.step, command, hseal], h.evict hsafe table hrows⟩
  | flushall => exact ⟨_, rfl, h.flushall hsafe⟩
  | save => exact ⟨_, rfl, h.save⟩
  | restart => exact h.restart hsafe

theorem Reopens.run (fits : K → Bool) {steps : List (Step K T V O)}
    (hsafe : sh.SafeRun fits steps) : ∃ sh', sh.run fits steps = .ok sh' ∧ sh'.Reopens (steps.foldl Step.apply ks) := by
  induction steps generalizing sh ks with
  | nil => exact ⟨sh, rfl, h⟩
  | cons s steps ih =>
    obtain ⟨sh1, hstep, h1⟩ := h.step fits hsafe.1
    obtain ⟨sh2, hrun, h2⟩ := ih h1 (hsafe.2 sh1 hstep)
    refine ⟨sh2, ?_, h2⟩
    rw [Shard.run, hstep]
    exact hrun

end Reopens

/-- **Every restart of a safe history succeeds, and the shard reads as if it had never stopped.** -/
theorem safe_history_reopens (fits : K → Bool) (steps : List (Step K T V O))
    (hsafe : (fresh : Shard K T V O).SafeRun fits steps) :
    ∃ sh, (fresh : Shard K T V O).run fits steps = .ok sh ∧
      ∀ key, sh.store.read key = .ok (steps.foldl Step.apply (fun _ => none) key) := by
  obtain ⟨sh, hrun, h⟩ := fresh_reopens.run fits hsafe
  exact ⟨sh, hrun, h.holds.reads⟩

/-- Two rows are evicted, one of them is deleted, and the shard restarts twice around a snapshot. -/
theorem safe_history_reopens_twice :
    ∃ sh, (fresh : Shard Nat Nat Nat Nat).run (fun _ => true) [.command (.row 1 fun _ => some 10),
        .command (.row 2 fun _ => some 20), .command (.evict 0 [1, 2]), .command (.del 2), .restart, .save, .restart] =
        .ok sh ∧ sh.store.read 1 = .ok (some (.inl 10)) ∧ sh.store.read 2 = .ok none := by
  obtain ⟨sh, hrun, hread⟩ := safe_history_reopens (K := Nat) (T := Nat) (V := Nat) (O := Nat) (fun _ => true)
    [.command (.row 1 fun _ => some 10), .command (.row 2 fun _ => some 20), .command (.evict 0 [1, 2]),
      .command (.del 2), .restart, .save, .restart] (by
    refine ⟨trivial, ?_⟩
    rintro _ ⟨⟩
    refine ⟨trivial, ?_⟩
    rintro _ ⟨⟩
    refine ⟨by rintro (_ | ⟨_, _ | ⟨_, ⟨⟩⟩⟩), ?_⟩
    rintro _ ⟨⟩
    refine ⟨trivial, ?_⟩
    rintro _ ⟨⟩
    refine ⟨fun slot hmem _ => ⟨1, by cases mem_singleton.mp hmem; rfl⟩, ?_⟩
    rintro _ ⟨⟩
    refine ⟨trivial, ?_⟩
    rintro _ ⟨⟩
    refine ⟨fun slot hmem _ => ⟨1, by cases mem_singleton.mp hmem; rfl⟩, ?_⟩
    rintro _ ⟨⟩
    exact trivial)
  exact ⟨sh, hrun, hread 1, hread 2⟩

/-- A log that names a segment which the sweep, a `FLUSHALL` or the replay of an older `FLUSHALL` has removed. -/
theorem restart_refuses_removed_segments :
    (fresh : Shard Nat Nat Nat Nat).run (fun _ => true) [.command (.row 1 fun _ => some 10),
      .command (.evict 0 [1]), .command (.del 1), .restart, .restart] = .error (.notInManifest ⟨0, 0⟩) ∧
    (fresh : Shard Nat Nat Nat Nat).run (fun _ => true) [.command (.row 1 fun _ => some 10),
      .command (.evict 0 [1]), .flushall, .restart] = .error (.notInManifest ⟨0, 0⟩) ∧
    (fresh : Shard Nat Nat Nat Nat).run (fun _ => true) [.flushall, .command (.row 1 fun _ => some 10),
      .command (.evict 0 [1]), .restart] = .error (.notInManifest ⟨0, 0⟩) :=
  ⟨rfl, rfl, rfl⟩

end Shard

end Kevy.SegRows
