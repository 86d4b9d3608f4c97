import Kevy.SegRows.Model

/-!
# Rows and stubs

A stub reads as the row that was sealed under it. Every command does to the keyspace what it does to a map of rows; an
eviction does nothing to it.
-/

namespace Kevy.SegRows

open Kevy.Lib List

variable {K T V O : Type} [LinearOrder K]

abbrev Keyspace (K V O : Type) := K → Option (V ⊕ O)

def rowOf : Option (V ⊕ O) → Option V
  | some (.inl v) => some v
  | _ => none

def Command.apply (ks : Keyspace K V O) : Command K T V O → Keyspace K V O
  | .row key f =>
    match ks key with
    | some (.inr _) => ks
    | old => Function.update ks key ((f (rowOf old)).map .inl)
  | .set key o => Function.update ks key (some (.inr o))
  | .del key => Function.update ks key none
  | .evict _ _ => ks

namespace Store

variable {s s' : Store K T V O} {ks : Keyspace K V O}

/-- The store reads as the keyspace, and its segments have numbers of their own. -/
structure Holds (s : Store K T V O) (ks : Keyspace K V O) : Prop where
  reads : ∀ key, s.read key = .ok (ks key)
  nodup : (s.segs.map fun slot => slot.file.seq).Nodup
  below : ∀ slot ∈ s.segs, slot.file.seq < s.seq

/-! ## Segments by their number -/

omit [LinearOrder K] in
theorem find_file [DecidableEq T] (hnodup : (s.segs.map fun slot => slot.file.seq).Nodup) {slot : SegSlot K T V}
    (hmem : slot ∈ s.segs) : (s.segs.find? fun x => x.file = slot.file) = some slot := by
  apply find?_of_nodup _ hmem
  exact Nodup.of_map SegName.seq (by rwa [List.map_map])

def recordOf (slot : SegSlot K T V) (key : K) : Option V := (slot.records.find? fun r => r.1 = key).map Prod.snd

variable {key : K}

theorem segrowRead_of_mem (hnodup : (s.segs.map fun slot => slot.file.seq).Nodup) {slot : SegSlot K T V}
    (hmem : slot ∈ s.segs) {v : V} (hv : recordOf slot key = some v) : s.segrowRead slot.file.seq key = .ok v := by
  obtain ⟨r, hr, rfl⟩ := Option.map_eq_some_iff.mp hv
  unfold segrowRead
  rw [find?_of_nodup hnodup hmem]
  dsimp only
  rw [hr]

variable {seq : Nat}

theorem slot_of_segrowRead {v : V} (h : s.segrowRead seq key = .ok v) :
    ∃ slot ∈ s.segs, slot.file.seq = seq ∧ recordOf slot key = some v := by
  unfold segrowRead at h
  cases hfind : s.segs.find? fun slot => slot.file.seq = seq with
  | none =>
    rw [hfind] at h
    cases h
  | some slot =>
    rw [hfind] at h
    dsimp only at h
    refine ⟨slot, mem_of_find?_eq_some hfind, by simpa using find?_some hfind, ?_⟩
    unfold recordOf
    cases hrec : slot.records.find? fun r => r.1 = key with
    | none =>
      rw [hrec] at h
      cases h
    | some r =>
      rw [hrec] at h
      cases h
      rfl

/-! ## What a key reads -/

theorem read_of_get_none (h : s.map.get key = none) : s.read key = .ok none := by
  rw [read, h]

theorem read_of_get_row {v : V} (h : s.map.get key = some (.row v)) : s.read key = .ok (some (.inl v)) := by
  rw [read, h]

theorem read_of_get_other {o : O} (h : s.map.get key = some (.other o)) : s.read key = .ok (some (.inr o)) := by
  rw [read, h]

theorem read_of_get_cold (h : s.map.get key = some (.cold seq)) :
    s.read key = (s.segrowRead seq key).map fun v => some (.inl v) := by
  rw [read, h]

theorem Holds.stub (h : s.Holds ks) (hget : s.map.get key = some (.cold seq)) :
    ∃ slot ∈ s.segs, slot.file.seq = seq ∧ ∃ v, recordOf slot key = some v ∧ ks key = some (.inl v) := by
  have hread := h.reads key
  rw [read_of_get_cold hget] at hread
  cases hv : s.segrowRead seq key with
  | error e =>
    rw [hv] at hread
    cases hread
  | ok v =>
    rw [hv] at hread
    obtain ⟨slot, hmem, hseq, hrec⟩ := slot_of_segrowRead hv
    exact ⟨slot, hmem, hseq, v, hrec, (Except.ok.inj hread).symm⟩

theorem read_update {m : KeyedList K (Value V O)} (h : m.get key = s.map.get key) :
    ({ s with map := m } : Store K T V O).read key = s.read key := by
  unfold read segrowRead
  rw [h]

/-! ## Commands -/

theorem Holds.update (h : s.Holds ks) {m : KeyedList K (Value V O)} {c : Option (V ⊕ O)}
    (hkey : ({ s with map := m } : Store K T V O).read key = .ok c)
    (hother : ∀ key' ≠ key, m.get key' = s.map.get key') :
    ({ s with map := m } : Store K T V O).Holds (Function.update ks key c) where
  nodup := h.nodup
  below := h.below
  reads := by
    intro key'
    by_cases heq : key' = key
    · rw [heq, hkey, Function.update_self]
    · rw [read_update (hother key' heq), h.reads, Function.update_of_ne heq]

theorem Holds.insert (h : s.Holds ks) (key : K) {x : Value V O} {c : Option (V ⊕ O)}
    (hkey : ({ s with map := s.map.insert key x } : Store K T V O).read key = .ok c) :
    ({ s with map := s.map.insert key x } : Store K T V O).Holds (Function.update ks key c) :=
  h.update hkey fun key' hne => by rw [KeyedList.get_insert, if_neg hne]

theorem Holds.erase (h : s.Holds ks) (key : K) :
    ({ s with map := s.map.erase key } : Store K T V O).Holds (Function.update ks key none) :=
  h.update (read_of_get_none (by simp)) fun key' hne => by rw [KeyedList.get_erase, if_neg hne]

theorem Holds.setRow (h : s.Holds ks) (key : K) (v : Option V) :
    (s.setRow key v).Holds (Function.update ks key (v.map .inl)) := by
  cases v with
  | none => exact h.erase key
  | some v => exact h.insert key (read_of_get_row (by simp))

theorem setRow_segs (s : Store K T V O) (key : K) (v : Option V) :
    (s.setRow key v).segs = s.segs ∧ (s.setRow key v).seq = s.seq := by
  cases v <;> exact ⟨rfl, rfl⟩

theorem Holds.writeRow (h : s.Holds ks) (key : K) (f : Option V → Option V) :
    ∃ s', s.writeRow key f = .ok s' ∧ s'.Holds ((Command.row key f : Command K T V O).apply ks) ∧
      s'.segs = s.segs ∧ s'.seq = s.seq := by
  cases hget : s.map.get key with
  | none =>
    have hks : ks key = none := (Except.ok.inj ((read_of_get_none hget).symm.trans (h.reads key))).symm
    refine ⟨_, by rw [Store.writeRow, hget], ?_, setRow_segs s key _⟩
    rw [Command.apply, hks]
    exact h.setRow key _
  | some x =>
    cases x with
    | row v =>
      have hks : ks key = some (.inl v) := (Except.ok.inj ((read_of_get_row hget).symm.trans (h.reads key))).symm
      refine ⟨_, by rw [Store.writeRow, hget], ?_, setRow_segs s key _⟩
      rw [Command.apply, hks]
      exact h.setRow key _
    | other o =>
      have hks : ks key = some (.inr o) := (Except.ok.inj ((read_of_get_other hget).symm.trans (h.reads key))).symm
      refine ⟨s, by rw [Store.writeRow, hget], ?_, rfl, rfl⟩
      rw [Command.apply, hks]
      exact h
    | cold seq =>
      obtain ⟨slot, hmem, rfl, v, hv, hks⟩ := h.stub hget
      refine ⟨s.setRow key (f (some v)), ?_, ?_, setRow_segs s key _⟩
      · rw [Store.writeRow, hget]
        dsimp only
        rw [segrowRead_of_mem h.nodup hmem hv]
        rfl
      · rw [Command.apply, hks]
        exact h.setRow key _

/-! ## Evictions -/

def demoted (seq : Nat) : Option (Value V O) → Option (Value V O)
  | some (.row _) => some (.cold seq)
  | x => x

def stitched (seq : Nat) : Option (Value V O) → Option (Value V O)
  | some (.row _) | none => some (.cold seq)
  | x => x

theorem get_demoteRowToSeg (s : Store K T V O) (seq : Nat) (key key' : K) :
    (s.demoteRowToSeg seq key).map.get key' = if key' = key then demoted seq (s.map.get key') else s.map.get key' := by
  unfold demoteRowToSeg
  split
  · next v hget =>
    rw [KeyedList.get_insert]
    split_ifs with heq
    · rw [heq, hget, demoted]
    · rfl
  · next hrow =>
    split_ifs with heq
    · rw [heq, demoted]
      exact fun v hv => hrow v hv
    · rfl

theorem get_stitch (s : Store K T V O) (seq : Nat) (key key' : K) :
    (s.stitch seq key).map.get key' = if key' = key then stitched seq (s.map.get key') else s.map.get key' := by
  unfold stitch
  split
  · next v hget =>
    rw [get_demoteRowToSeg]
    split_ifs with heq
    · rw [heq, hget, demoted, stitched]
    · rfl
  · next hget =>
    rw [KeyedList.get_insert]
    split_ifs with heq
    · rw [heq, hget, stitched]
    · rfl
  · next q hget =>
    split_ifs with heq
    · rw [heq, hget]
      rfl
    · rfl
  · next o hget =>
    split_ifs with heq
    · rw [heq, hget]
      rfl
    · rfl

theorem get_foldl {α : Type} {op : Store K T V O → α → Store K T V O} {f : α → K}
    {g : Option (Value V O) → Option (Value V O)} (hg : ∀ x, g (g x) = g x)
    (hop : ∀ s a key, (op s a).map.get key = if key = f a then g (s.map.get key) else s.map.get key)
    (batch : List α) (s : Store K T V O) (key : K) :
    (batch.foldl op s).map.get key = if key ∈ batch.map f then g (s.map.get key) else s.map.get key := by
  induction batch generalizing s with
  | nil => simp
  | cons a batch ih =>
    rw [foldl_cons, ih, hop]
    by_cases ha : key = f a <;> by_cases hb : key ∈ batch.map f <;> simp [ha, hb, hg]

theorem demoted_idem (seq : Nat) (x : Option (Value V O)) : demoted seq (demoted seq x) = demoted seq x := by
  rcases x with _ | v | o | q <;> rfl

theorem stitched_idem (seq : Nat) (x : Option (Value V O)) : stitched seq (stitched seq x) = stitched seq x := by
  rcases x with _ | v | o | q <;> rfl

theorem get_commitRowEviction (s : Store K T V O) (file : SegName T) (keys : List K) (key : K) :
    (s.commitRowEviction file keys).map.get key =
      if key ∈ keys then demoted file.seq (s.map.get key) else s.map.get key := by
  rw [commitRowEviction, get_foldl (f := id) (demoted_idem file.seq) fun s a key => get_demoteRowToSeg s _ a key,
    List.map_id]

theorem demoteRowToSeg_segs (s : Store K T V O) (seq : Nat) (key : K) :
    (s.demoteRowToSeg seq key).segs = s.segs ∧ (s.demoteRowToSeg seq key).seq = s.seq := by
  unfold demoteRowToSeg
  split <;> exact ⟨rfl, rfl⟩

theorem stitch_segs (s : Store K T V O) (seq : Nat) (key : K) :
    (s.stitch seq key).segs = s.segs ∧ (s.stitch seq key).seq = s.seq := by
  unfold stitch
  split
  · exact demoteRowToSeg_segs s seq key
  all_goals exact ⟨rfl, rfl⟩

theorem foldl_stitch_segs (records : List (K × V)) (seq : Nat) (s : Store K T V O) :
    (records.foldl (fun s r => s.stitch seq r.1) s).segs = s.segs ∧
      (records.foldl (fun s r => s.stitch seq r.1) s).seq = s.seq := by
  induction records generalizing s with
  | nil => exact ⟨rfl, rfl⟩
  | cons r records ih =>
    have hone := stitch_segs s seq r.1
    exact ⟨(ih _).1.trans hone.1, (ih _).2.trans hone.2⟩

theorem commitRowEviction_segs (s : Store K T V O) (file : SegName T) (keys : List K) :
    (s.commitRowEviction file keys).segs = s.segs ∧ (s.commitRowEviction file keys).seq = s.seq := by
  unfold commitRowEviction
  induction keys generalizing s with
  | nil => exact ⟨rfl, rfl⟩
  | cons key keys ih =>
    have hone := demoteRowToSeg_segs s file.seq key
    exact ⟨(ih _).1.trans hone.1, (ih _).2.trans hone.2⟩

/-- Rows that can be sealed: hot rows, each once. -/
structure Sealed (s : Store K T V O) (rows : List (K × V)) : Prop where
  nodup : (rows.map Prod.fst).Nodup
  hot : ∀ r ∈ rows, s.map.get r.1 = some (.row r.2)

def addSegment (s : Store K T V O) (table : T) (rows : List (K × V)) : Store K T V O :=
  { s with segs := s.segs ++ [⟨⟨table, s.seq⟩, rows⟩], seq := s.seq + 1 }

theorem sealRowsToSeg_cases (fits : K → Bool) (s : Store K T V O) (table : T) (keys : List K) :
    (∃ seq ≥ s.seq, s.sealRowsToSeg fits table keys = ({ s with seq }, none)) ∨
    ∃ rows, s.Sealed rows ∧
      s.sealRowsToSeg fits table keys = (s.addSegment table rows, some (⟨table, s.seq⟩, rows.map Prod.fst)) := by
  unfold sealRowsToSeg
  dsimp only
  split_ifs with hnil hfits
  · exact .inl ⟨s.seq, le_rfl, rfl⟩
  · refine .inr ⟨_, ⟨hfits.1, ?_⟩, rfl⟩
    intro r hr
    obtain ⟨key, -, hkey⟩ := mem_filterMap.mp ((mem_insertionSort _).mp hr)
    split at hkey
    · next v hget =>
      cases hkey
      exact hget
    · cases hkey
  · exact .inl ⟨s.seq + 1, Nat.le_succ _, rfl⟩

theorem Holds.of_segs (h : s.Holds ks) {segs : List (SegSlot K T V)}
    (hsub : ∀ slot ∈ s.segs, (∃ key, s.map.get key = some (.cold slot.file.seq)) → slot ∈ segs)
    (hnodup : (segs.map fun slot => slot.file.seq).Nodup) (hbelow : ∀ slot ∈ segs, slot.file.seq < seq) :
    ({ s with segs, seq } : Store K T V O).Holds ks where
  nodup := hnodup
  below := hbelow
  reads := by
    intro key
    cases hget : s.map.get key with
    | none =>
      rw [← h.reads, read_of_get_none hget]
      exact read_of_get_none hget
    | some x =>
      cases x with
      | row v =>
        rw [← h.reads, read_of_get_row hget]
        exact read_of_get_row hget
      | other o =>
        rw [← h.reads, read_of_get_other hget]
        exact read_of_get_other hget
      | cold q =>
        obtain ⟨slot, hmem, rfl, v, hv, hks⟩ := h.stub hget
        rw [read_of_get_cold (s := { s with segs, seq }) hget, segrowRead_of_mem hnodup (hsub slot hmem ⟨key, hget⟩) hv,
          hks]
        rfl

theorem Holds.addSegment (h : s.Holds ks) (table : T) (rows : List (K × V)) : (s.addSegment table rows).Holds ks := by
  refine h.of_segs (fun slot hmem _ => mem_append_left _ hmem) ?_ ?_
  · rw [map_append, map_singleton]
    refine Nodup.append h.nodup (nodup_singleton _) ?_
    intro seq hseq hnew
    obtain ⟨slot, hmem, rfl⟩ := List.mem_map.mp hseq
    exact absurd (mem_singleton.mp hnew) (h.below slot hmem).ne
  · intro slot hmem
    rcases mem_append.mp hmem with hmem | hmem
    · exact (h.below slot hmem).trans (Nat.lt_succ_self _)
    · rw [mem_singleton.mp hmem]
      exact Nat.lt_succ_self _

theorem Holds.commitRowEviction (h : s.Holds ks) {rows : List (K × V)} (hrows : s.Sealed rows) (table : T) :
    ((s.addSegment table rows).commitRowEviction ⟨table, s.seq⟩ (rows.map Prod.fst)).Holds ks := by
  have hadd := h.addSegment table rows
  obtain ⟨hsegs, hseq⟩ := commitRowEviction_segs (s.addSegment table rows) ⟨table, s.seq⟩ (rows.map Prod.fst)
  refine ⟨?_, by rw [hsegs]; exact hadd.nodup, by rw [hsegs, hseq]; exact hadd.below⟩
  intro key
  have hget := get_commitRowEviction (s.addSegment table rows) ⟨table, s.seq⟩ (rows.map Prod.fst) key
  split_ifs at hget with hmem
  · obtain ⟨r, hr, rfl⟩ := List.mem_map.mp hmem
    have hhot : (s.addSegment table rows).map.get r.1 = some (.row r.2) := hrows.hot r hr
    rw [hhot, demoted] at hget
    have hrec : recordOf (⟨⟨table, s.seq⟩, rows⟩ : SegSlot K T V) r.1 = some r.2 := by
      rw [recordOf, find?_of_nodup hrows.nodup hr, Option.map_some]
    have hnew : (⟨⟨table, s.seq⟩, rows⟩ : SegSlot K T V) ∈
        ((s.addSegment table rows).commitRowEviction ⟨table, s.seq⟩ (rows.map Prod.fst)).segs := by
      rw [hsegs]
      exact mem_append_right _ (mem_singleton_self _)
    rw [read_of_get_cold hget, segrowRead_of_mem (by rw [hsegs]; exact hadd.nodup) hnew hrec, ← hadd.reads,
      read_of_get_row hhot]
    rfl
  · rw [← hadd.reads]
    unfold read segrowRead
    rw [hget, hsegs]

end Store

/-! ## The shard -/

namespace Shard

theorem fresh_holds : (fresh : Shard K T V O).store.Holds fun _ => none where
  reads _ := rfl
  nodup := nodup_nil
  below _ hmem := absurd hmem not_mem_nil

theorem command_holds (fits : K → Bool) {sh : Shard K T V O} {ks : Keyspace K V O} (h : sh.store.Holds ks)
    (c : Command K T V O) : ∃ sh', sh.command fits c = .ok sh' ∧ sh'.store.Holds (c.apply ks) := by
  cases c with
  | row key f =>
    obtain ⟨store, hstore, hholds, -⟩ := h.writeRow key f
    exact ⟨_, by rw [command, hstore]; rfl, hholds⟩
  | set key o => exact ⟨_, rfl, h.insert key (Store.read_of_get_other (by simp))⟩
  | del key => exact ⟨_, rfl, h.erase key⟩
  | evict table keys =>
    rcases sh.store.sealRowsToSeg_cases fits table keys with ⟨seq, hseq, hseal⟩ | ⟨rows, hrows, hseal⟩
    · refine ⟨_, by rw [command, hseal], ?_⟩
      exact h.of_segs (fun _ hmem _ => hmem) h.nodup fun slot hmem => (h.below slot hmem).trans_le hseq
    · exact ⟨_, by rw [command, hseal], h.commitRowEviction hrows table⟩

theorem commands_holds [DecidableEq T] (fits : K → Bool) (cs : List (Command K T V O)) {sh : Shard K T V O} {ks : Keyspace K V O}
    (h : sh.store.Holds ks) :
    ∃ sh', sh.run fits (cs.map .command) = .ok sh' ∧ sh'.store.Holds (cs.foldl Command.apply ks) := by
  induction cs generalizing sh ks with
  | nil => exact ⟨sh, rfl, h⟩
  | cons c cs ih =>
    obtain ⟨sh1, hstep, h1⟩ := command_holds fits h c
    obtain ⟨sh2, hrun, h2⟩ := ih h1
    refine ⟨sh2, ?_, h2⟩
    rw [map_cons, run, step, hstep]
    exact hrun

end Shard

end Kevy.SegRows
