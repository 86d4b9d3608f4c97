import Kevy.SegRows.Rows

/-!
# The rewrite of a log with row segments

The rewrite writes what is hot as commands and then names every segment a stub refers to. Replay stitches the whole of
each segment, so a key comes back as the record of the first named segment that has one, whatever was hot.
-/

namespace Kevy.SegRows

open Kevy.Lib List

variable {K T V O : Type} [LinearOrder K]

namespace Store

variable {s t : Store K T V O} {ks : Keyspace K V O} {entries : List (K × Value V O)}

/-! ## The segments that are named -/

omit [LinearOrder K] in
theorem mem_noteCold {seqs : List Nat} {e : K × Value V O} {seq : Nat} :
    seq ∈ noteCold seqs e ↔ seq ∈ seqs ∨ e.2 = .cold seq := by
  obtain ⟨key, x⟩ := e
  cases x with
  | row | other => simp [noteCold]
  | cold q =>
    simp only [noteCold, contains_iff_mem, Value.cold.injEq]
    split_ifs with hmem
    · exact ⟨.inl, fun h => h.elim id fun heq => heq ▸ hmem⟩
    · rw [mem_append, mem_singleton, eq_comm (a := q)]

omit [LinearOrder K] in
theorem mem_coldSeqs {entries : List (K × Value V O)} {seq : Nat} :
    seq ∈ coldSeqs entries ↔ ∃ key, (key, Value.cold seq) ∈ entries := by
  suffices h : ∀ acc, seq ∈ entries.foldl noteCold acc ↔ seq ∈ acc ∨ ∃ key, (key, Value.cold seq) ∈ entries by
    simpa [coldSeqs] using h []
  induction entries with
  | nil => simp
  | cons e entries ih =>
    intro acc
    obtain ⟨key, x⟩ := e
    rw [foldl_cons, ih, mem_noteCold, or_assoc]
    refine or_congr_right ⟨?_, ?_⟩
    · rintro (rfl | ⟨key', hmem⟩)
      · exact ⟨key, mem_cons_self⟩
      · exact ⟨key', mem_cons_of_mem _ hmem⟩
    · rintro ⟨key', hmem⟩
      rcases mem_cons.mp hmem with heq | hmem
      · exact .inl (Prod.mk.inj heq).2.symm
      · exact .inr ⟨key', hmem⟩

def recordAt (s : Store K T V O) (seq : Nat) (key : K) : Option V :=
  (s.segs.find? fun slot => slot.file.seq = seq).bind fun slot => recordOf slot key

def firstRecord (s : Store K T V O) (seqs : List Nat) (key : K) : Option V :=
  seqs.findSome? fun seq => s.recordAt seq key

/-- Every key that a named segment has a record of reads as the first of these records, or is of another type. -/
def Current (s : Store K T V O) (entries : List (K × Value V O)) : Prop :=
  ∀ key v, s.firstRecord (coldSeqs entries) key = some v →
    s.read key = .ok (some (.inl v)) ∨ ∃ o, s.read key = .ok (some (.inr o))

theorem segrowRead_of_recordAt {seq : Nat} {key : K} {v : V} (h : s.recordAt seq key = some v) :
    s.segrowRead seq key = .ok v := by
  obtain ⟨slot, hslot, hrec⟩ := Option.bind_eq_some_iff.mp h
  obtain ⟨r, hr, rfl⟩ := Option.map_eq_some_iff.mp hrec
  rw [segrowRead, hslot]
  dsimp only
  rw [hr]

/-! ## The stitch of several segments -/

def stitchedAll (s : Store K T V O) (key : K) (seqs : List Nat) (x : Option (Value V O)) : Option (Value V O) :=
  seqs.foldl (fun x seq => if (s.recordAt seq key).isSome then stitched seq x else x) x

theorem recordAt_congr (h : t.segs = s.segs) (seq : Nat) (key : K) : t.recordAt seq key = s.recordAt seq key := by
  rw [recordAt, recordAt, h]

theorem stitchedAll_of_fixed (key : K) (seqs : List Nat) {x : Option (Value V O)}
    (hx : ∀ seq, stitched seq x = x) : s.stitchedAll key seqs x = x := by
  unfold stitchedAll
  induction seqs with
  | nil => rfl
  | cons seq seqs ih => rw [foldl_cons, hx, ite_self, ih]

theorem stitchedAll_of_none {key : K} {seqs : List Nat} (h : s.firstRecord seqs key = none)
    (x : Option (Value V O)) : s.stitchedAll key seqs x = x := by
  unfold stitchedAll
  induction seqs with
  | nil => rfl
  | cons seq seqs ih =>
    rw [firstRecord, findSome?_eq_none_iff] at h
    rw [foldl_cons, h seq mem_cons_self, Option.isSome_none, if_neg Bool.false_ne_true]
    exact ih (findSome?_eq_none_iff.mpr (forall_mem_cons.mp h).2)

theorem stitchedAll_of_some {key : K} {seqs : List Nat} {v : V} (h : s.firstRecord seqs key = some v)
    {x : Option (Value V O)} (hx : ∀ seq, stitched seq x = some (.cold seq)) :
    ∃ seq, s.stitchedAll key seqs x = some (.cold seq) ∧ s.recordAt seq key = some v := by
  unfold stitchedAll
  induction seqs with
  | nil => cases h
  | cons seq seqs ih =>
    rw [firstRecord, findSome?_cons] at h
    rw [foldl_cons]
    cases hrec : s.recordAt seq key with
    | none =>
      rw [hrec] at h
      obtain ⟨q, hq, hv⟩ := ih h
      exact ⟨q, by rw [Option.isSome_none, if_neg Bool.false_ne_true, hq], hv⟩
    | some w =>
      rw [hrec] at h
      refine ⟨seq, ?_, hrec.trans h⟩
      rw [Option.isSome_some, if_pos rfl, hx]
      exact stitchedAll_of_fixed key seqs fun _ => rfl

theorem Holds.firstRecord_of_cold (h : s.Holds ks) (horder : entries.Perm s.map.items) {key : K} {seq : Nat}
    (hget : s.map.get key = some (.cold seq)) : s.firstRecord (coldSeqs entries) key ≠ none := by
  intro hnone
  rw [firstRecord, findSome?_eq_none_iff] at hnone
  obtain ⟨slot, hmem, rfl, v, hv, -⟩ := h.stub hget
  have hrec := hnone slot.file.seq (mem_coldSeqs.mpr ⟨key, horder.mem_iff.mpr ((KeyedList.mem_items_iff _ _ _).mpr hget)⟩)
  rw [recordAt, find?_of_nodup h.nodup hmem, Option.bind_some, hv] at hrec
  cases hrec

def hot : Option (Value V O) → Option (Value V O)
  | some (.cold _) => none
  | x => x

/-- A key that has no record in a named segment, or is of another type, comes back as it was; any other comes back as
the first record. -/
theorem Holds.read_stitched (h : s.Holds ks) (horder : entries.Perm s.map.items) (hsegs : t.segs = s.segs) {key : K}
    (hget : t.map.get key = s.stitchedAll key (coldSeqs entries) (hot (s.map.get key))) :
    (s.firstRecord (coldSeqs entries) key = none ∧ t.read key = s.read key) ∨
    (∃ o, s.read key = .ok (some (.inr o)) ∧ t.read key = s.read key) ∨
    ∃ v, s.firstRecord (coldSeqs entries) key = some v ∧ t.read key = .ok (some (.inl v)) ∧
      ∀ o, s.read key ≠ .ok (some (.inr o)) := by
  have hsame : t.map.get key = s.map.get key → t.read key = s.read key := fun heq => by
    rw [read, read, heq]
    unfold segrowRead
    rw [hsegs]
  have hcold (hx : ∀ seq, stitched seq (hot (s.map.get key)) = some (.cold seq)) {v : V}
      (hv : s.firstRecord (coldSeqs entries) key = some v) : t.read key = .ok (some (.inl v)) := by
    obtain ⟨seq, hseq, hrec⟩ := stitchedAll_of_some hv hx
    rw [read_of_get_cold (hget.trans hseq), segrowRead_of_recordAt ((recordAt_congr hsegs seq key).trans hrec)]
    rfl
  cases hfirst : s.firstRecord (coldSeqs entries) key with
  | none =>
    refine .inl ⟨rfl, hsame ?_⟩
    rw [hget, stitchedAll_of_none hfirst]
    rcases hx : s.map.get key with _ | v | o | seq
    · rfl
    · rfl
    · rfl
    · exact absurd hfirst (h.firstRecord_of_cold horder hx)
  | some v =>
    rcases hx : s.map.get key with _ | w | o | seq
    · refine .inr (.inr ⟨v, rfl, hcold (by rw [hx]; exact fun _ => rfl) hfirst, ?_⟩)
      rw [read_of_get_none hx]
      rintro o ⟨⟩
    · refine .inr (.inr ⟨v, rfl, hcold (by rw [hx]; exact fun _ => rfl) hfirst, ?_⟩)
      rw [read_of_get_row hx]
      rintro o ⟨⟩
    · refine .inr (.inl ⟨o, read_of_get_other hx, hsame ?_⟩)
      rw [hget, hx]
      exact stitchedAll_of_fixed key _ fun _ => rfl
    · refine .inr (.inr ⟨v, rfl, hcold (by rw [hx]; exact fun _ => rfl) hfirst, ?_⟩)
      obtain ⟨slot, -, -, w, -, hks⟩ := h.stub hx
      rw [h.reads, hks]
      rintro o ⟨⟩

/-! ## Replay of the frames -/

variable [DecidableEq T]

theorem replay_append {frames frames' : List (Frame K T V O)} (h : s.replay frames = .ok t) :
    s.replay (frames ++ frames') = t.replay frames' := by
  induction frames generalizing s with
  | nil =>
    cases h
    rfl
  | cons frame frames ih =>
    rw [replay] at h
    rw [cons_append, replay]
    cases hone : s.applyFrame frame with
    | error e =>
      rw [hone] at h
      cases h
    | ok s1 =>
      rw [hone] at h
      exact ih h

theorem replay_hotFrames (entries : List (K × Value V O)) (hnodup : (entries.map Prod.fst).Nodup)
    (s : Store K T V O) (hfree : ∀ e ∈ entries, s.map.get e.1 = none) :
    ∃ t, s.replay (hotFrames entries) = .ok t ∧ t.segs = s.segs ∧
      ∀ key, t.map.get key = (hot ((entries.find? fun e => e.1 = key).map Prod.snd)).or (s.map.get key) := by
  induction entries generalizing s with
  | nil => exact ⟨s, rfl, rfl, fun key => rfl⟩
  | cons e entries ih =>
    obtain ⟨key, x⟩ := e
    rw [map_cons, nodup_cons] at hnodup
    have hkey : s.map.get key = none := hfree (key, x) mem_cons_self
    have hother : ∀ e ∈ entries, e.1 ≠ key := by
      rintro e hmem rfl
      exact hnodup.1 (mem_map.mpr ⟨e, hmem, rfl⟩)
    have hsame : ∀ e ∈ entries, s.map.get e.1 = none := (forall_mem_cons.mp hfree).2
    -- a value that is hot is inserted by its own command, and no later one touches it
    have hhot : ∀ frame, hotFrames ((key, x) :: entries) = frame :: hotFrames entries → hot (some x) = some x →
        s.applyFrame frame = .ok { s with map := s.map.insert key x } →
        ∃ t, s.replay (hotFrames ((key, x) :: entries)) = .ok t ∧ t.segs = s.segs ∧ ∀ key', t.map.get key' =
          (hot ((((key, x) :: entries).find? fun e => e.1 = key').map Prod.snd)).or (s.map.get key') := by
      intro frame hframes hx happly
      obtain ⟨t, ht, hsegs, hget⟩ := ih hnodup.2 { s with map := s.map.insert key x } fun e hmem => by
        rw [KeyedList.get_insert, if_neg (hother e hmem), hsame e hmem]
      refine ⟨t, by rw [hframes, replay, happly]; exact ht, hsegs, fun key' => ?_⟩
      rw [hget, KeyedList.get_insert]
      by_cases heq : key' = key
      · rw [heq, if_pos rfl, find?_cons_of_pos (by simp), find?_eq_none.mpr (by simpa using hother),
          Option.map_some, hx]
        rfl
      · rw [if_neg heq, find?_cons_of_neg (by simpa using Ne.symm heq)]
    cases x with
    | row v => exact hhot (.row key fun _ => some v) rfl rfl (by rw [applyFrame, writeRow, hkey]; rfl)
    | other o => exact hhot (.set key o) rfl rfl rfl
    | cold seq =>
      obtain ⟨t, ht, hsegs, hget⟩ := ih hnodup.2 s hsame
      refine ⟨t, ht, hsegs, fun key' => ?_⟩
      rw [hget]
      by_cases heq : key' = key
      · rw [heq, find?_cons_of_pos (by simp), find?_eq_none.mpr (by simpa using hother), hkey]
        rfl
      · rw [find?_cons_of_neg (by simpa using Ne.symm heq)]

theorem applySegmented_spec (hnodup : (s.segs.map fun slot => slot.file.seq).Nodup) {slot : SegSlot K T V}
    (hmem : slot ∈ s.segs) :
    ∃ t, s.applySegmented slot.file = .ok t ∧ t.segs = s.segs ∧ ∀ key, t.map.get key =
      if (s.recordAt slot.file.seq key).isSome then stitched slot.file.seq (s.map.get key) else s.map.get key := by
  refine ⟨_, by rw [applySegmented, find_file hnodup hmem], (foldl_stitch_segs _ _ _).1, fun key => ?_⟩
  rw [get_foldl (stitched_idem slot.file.seq) fun s r key => get_stitch s _ r.1 key]
  have hrec : (s.recordAt slot.file.seq key).isSome ↔ key ∈ slot.records.map Prod.fst := by
    rw [recordAt, find?_of_nodup hnodup hmem, Option.bind_some, recordOf, Option.isSome_map, find?_isSome]
    simp
  simp only [hrec]

theorem replay_segmentedFrames (hnodup : (s.segs.map fun slot => slot.file.seq).Nodup) (seqs : List Nat)
    (hseqs : ∀ seq ∈ seqs, ∃ slot ∈ s.segs, slot.file.seq = seq) :
    ∃ frames, s.segmentedFrames seqs = .ok frames ∧ ∀ t : Store K T V O, t.segs = s.segs →
      ∃ t', t.replay frames = .ok t' ∧ t'.segs = s.segs ∧
        ∀ key, t'.map.get key = s.stitchedAll key seqs (t.map.get key) := by
  induction seqs with
  | nil => exact ⟨[], rfl, fun t ht => ⟨t, rfl, ht, fun key => rfl⟩⟩
  | cons seq seqs ih =>
    obtain ⟨slot, hmem, rfl⟩ := hseqs _ mem_cons_self
    obtain ⟨frames, hframes, hreplay⟩ := ih (forall_mem_cons.mp hseqs).2
    refine ⟨.segmented slot.file :: frames, ?_, fun t ht => ?_⟩
    · rw [segmentedFrames, find?_of_nodup hnodup hmem]
      dsimp only
      rw [hframes]
      rfl
    · obtain ⟨t1, h1, hsegs1, hget1⟩ := applySegmented_spec (s := t) (by rwa [ht]) (by rwa [ht])
      obtain ⟨t2, h2, hsegs2, hget2⟩ := hreplay t1 (hsegs1.trans ht)
      refine ⟨t2, ?_, hsegs2, fun key => ?_⟩
      · rw [replay, applyFrame, h1]
        exact h2
      · rw [hget2, hget1, recordAt_congr ht]
        rfl

theorem Holds.replay_dumpAof (h : s.Holds ks) (horder : entries.Perm s.map.items) :
    ∃ frames t, s.dumpAof entries = .ok frames ∧ (enableSegRows s.segs : Store K T V O).replay frames = .ok t ∧
      t.segs = s.segs ∧ ∀ key, t.map.get key = s.stitchedAll key (coldSeqs entries) (hot (s.map.get key)) := by
  obtain ⟨t1, h1, hsegs1, hget1⟩ := replay_hotFrames entries
    ((horder.map Prod.fst).nodup_iff.mpr s.map.nodup) (enableSegRows s.segs) fun _ _ => rfl
  obtain ⟨frames, hframes, hreplay⟩ := replay_segmentedFrames h.nodup (coldSeqs entries) fun seq hmem => by
    obtain ⟨key, hkey⟩ := mem_coldSeqs.mp hmem
    obtain ⟨slot, hslot, hseq, -⟩ := h.stub ((KeyedList.mem_items_iff _ _ _).mp (horder.mem_iff.mp hkey))
    exact ⟨slot, hslot, hseq⟩
  obtain ⟨t2, h2, hsegs2, hget2⟩ := hreplay t1 hsegs1
  refine ⟨hotFrames entries ++ frames, t2, ?_, ?_, hsegs2, fun key => ?_⟩
  · rw [dumpAof, hframes]
    rfl
  · rw [replay_append h1, h2]
  · rw [hget2, hget1, KeyedList.find_of_perm horder]
    exact congrArg _ (Option.or_none ..)

end Store

namespace Shard

variable [DecidableEq T]

/-- **The rewritten log, replayed over the same segments, restores a shard exactly when its named segments are
current**, in whatever order the keyspace is iterated. -/
theorem rewrite_restores_iff_current (fits : K → Bool) (cs : List (Command K T V O)) :
    ∃ sh : Shard K T V O, fresh.run fits (cs.map .command) = .ok sh ∧ ∀ entries, entries.Perm sh.store.map.items →
      ∃ (frames : List (Frame K T V O)) (restored : Store K T V O), sh.store.dumpAof entries = .ok frames ∧
        (Store.enableSegRows sh.store.segs).replay frames = .ok restored ∧
        ((∀ key, restored.read key = sh.store.read key) ↔ sh.store.Current entries) := by
  obtain ⟨sh, hrun, hholds⟩ := commands_holds fits cs (fresh_holds (K := K) (T := T) (V := V) (O := O))
  refine ⟨sh, hrun, fun entries horder => ?_⟩
  obtain ⟨frames, restored, hdump, hreplay, hsegs, hget⟩ := hholds.replay_dumpAof horder
  refine ⟨frames, restored, hdump, hreplay, ?_, ?_⟩
  · intro hsame key v hv
    rcases hholds.read_stitched horder hsegs (hget key) with ⟨hnone, -⟩ | ⟨o, ho, -⟩ | ⟨w, hw, hread, -⟩
    · cases hv.symm.trans hnone
    · exact .inr ⟨o, ho⟩
    · rw [← hsame, hread, Option.some.inj (hv.symm.trans hw)]
      exact .inl rfl
  · intro hcurrent key
    rcases hholds.read_stitched horder hsegs (hget key) with ⟨-, hread⟩ | ⟨-, -, hread⟩ | ⟨v, hv, hread, hrow⟩
    · exact hread
    · exact hread
    · rcases hcurrent key v hv with hcur | ⟨o, ho⟩
      · rw [hread, hcur]
      · exact absurd ho (hrow o)

/-- Three rows are evicted together; then the first is written again and the second is deleted. The third keeps the
segment named, and the rewritten log brings the first row back as it was and the second at all. -/
theorem rewrite_revives_old_rows :
    ∃ (sh : Shard Nat Nat Nat Nat) (frames : List (Frame Nat Nat Nat Nat)) (restored : Store Nat Nat Nat Nat),
      fresh.run (fun _ => true) ([.row 1 fun _ => some 10, .row 2 fun _ => some 20, .row 3 fun _ => some 30,
        .evict 0 [1, 2, 3], .row 1 fun _ => some 11, .del 2].map .command) = .ok sh ∧
      sh.store.dumpAof sh.store.map.items = .ok frames ∧
      (Store.enableSegRows sh.store.segs).replay frames = .ok restored ∧
      sh.store.read 1 = .ok (some (.inl 11)) ∧ restored.read 1 = .ok (some (.inl 10)) ∧
      sh.store.read 2 = .ok none ∧ restored.read 2 = .ok (some (.inl 20)) :=
  ⟨_, _, _, rfl, rfl, rfl, rfl, rfl, rfl, rfl⟩

end Shard

end Kevy.SegRows
