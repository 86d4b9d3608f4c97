import Kevy.Persist.Score
import Kevy.Seg.Manifest
import Kevy.Snapshot.Format

/-!
# The two dumpers of a rewrite

A rewrite turns the keyspace into the commands that rebuild it: `dump_aof` writes them to a file,
`dump_store_to_buf` into memory. A row whose data is in a cold segment is not turned into commands: `dump_aof`
names its segment in a frame behind the others, `dump_store_to_buf` drops the error and counts the row as written.
A stream that never had an entry and has no group left is turned into no command at all.
-/

namespace Kevy.Persist

open Kevy.Lib Kevy.Resp Kevy.Seg Kevy.Snapshot List

abbrev CommandFrame := List Bytes

inductive Score
  | finite (s : Finite64)
  | infinite (neg : Bool)

/-- `fmt_zset_score`. -/
def Score.text : Score → Bytes
  | .finite s => fmtZsetScore s
  | .infinite neg => signText neg ++ utf8Bytes "inf"

/-- The items of a collection; the store holds none that is empty. -/
abbrev Items (α : Type) := { items : List α // items ≠ [] }

/-- A value as `for_each_entry` yields it, in the order its encoding is walked in. -/
inductive Yielded
  | str (bytes : Bytes)
  | int (n : Int)
  | hash (fields : Items (Bytes × Bytes))
  | list (items : Items Bytes)
  | set (members : Items Bytes)
  | zset (members : Items (Bytes × Score))
  | stream (s : StreamData)
  | segStub (seq : Nat)
  | vlogStub

def Yielded.isCold : Yielded → Bool
  | .segStub _ => true
  | .vlogStub => true
  | _ => false

/-- A row of the keyspace, with the milliseconds it has left. -/
structure YieldedRow where
  key : Bytes
  value : Yielded
  ttlMs : Option Nat := none

/-- What a `SnapshotSource` yields. -/
structure SnapshotSource where
  rows : List YieldedRow
  hashTtls : List (Bytes × Bytes × Nat) := []
  rowSegFiles : List (Nat × Bytes) := []
  auxFrame : Option CommandFrame := none

/-! ## Collections -/

def rewriteItemsPerCmd : Nat := 64

def rewriteBytesPerCmd : Nat := 256 * 2 ^ 20

/-- The items of one frame, group by group, and the groups left. -/
def takeUnits : (units bytes : Nat) → List (List Bytes) → List Bytes × List (List Bytes)
  | _, _, [] => ([], [])
  | units, bytes, g :: gs =>
    if units < rewriteItemsPerCmd ∧ bytes < rewriteBytesPerCmd then
      let (items, rest) := takeUnits (units + 1) (bytes + (g.map List.length).sum) gs
      (g ++ items, rest)
    else ([], g :: gs)

/-- The loop of `write_verb_items`; a frame takes at least one group. -/
def verbItems (verb key : Bytes) : (fuel : Nat) → List (List Bytes) → List CommandFrame
  | 0, _ => []
  | _, [] => []
  | fuel + 1, gs =>
    let (items, rest) := takeUnits 0 0 gs
    (verb :: key :: items) :: verbItems verb key fuel rest

def writeVerbItems (verb key : Bytes) (groups : List (List Bytes)) : List CommandFrame :=
  verbItems verb key groups.length groups

/-! ## Streams -/

/-- `encode`. -/
def encodeId (id : StreamId) : Bytes := decimal id.ms.toNat ++ 45 :: decimal id.seq.toNat

/-- `StreamId::MIN`. -/
def minId : StreamId := ⟨0, 0⟩

/-- `write_stream_id_fixup`. -/
def streamIdFixup (key : Bytes) (s : StreamData) : List CommandFrame :=
  let empty := s.entries.items.isEmpty
  let recreate := if empty ∧ s.lastId ≠ minId then
    [[utf8Bytes "XADD", key, utf8Bytes "MAXLEN", [48], encodeId s.lastId, [120], [120]]] else []
  -- What the commands up to here give: last id, entries added, highest deleted id.
  let natural := if empty then (s.lastId, if s.lastId ≠ minId then 1 else 0, minId)
    else (((s.entries.items.getLast?).map Prod.fst).getD minId, s.entries.items.length, minId)
  let setId := if natural ≠ (s.lastId, s.entriesAdded.toNat, s.maxDeletedId) then
    [[utf8Bytes "XSETID", key, encodeId s.lastId, utf8Bytes "ENTRIESADDED", decimal s.entriesAdded.toNat,
      utf8Bytes "MAXDELETEDID", encodeId s.maxDeletedId]] else []
  recreate ++ setId

/-- `write_group_head`. -/
def groupHead (key name : Bytes) (g : ConsumerGroup) : List CommandFrame :=
  let named (sub : String) (tail : List Bytes) := utf8Bytes "XGROUP" :: utf8Bytes sub :: key :: name :: tail
  let last := encodeId g.lastDeliveredId
  named "CREATE" [last, utf8Bytes "MKSTREAM"] ::
    (g.entriesRead.toList.map fun n => named "SETID" [last, utf8Bytes "ENTRIESREAD", decimal n.toNat]) ++
    g.consumers.items.map fun c => named "CREATECONSUMER" [c.1]

/-- The frame of a pending row: `xclaim_argv`, or `pending_argv` for an entry that is gone. -/
def pelFrame (key name : Bytes) (s : StreamData) (p : StreamId × PelEntry) : CommandFrame :=
  let time := decimal p.2.deliveryTimeMs.toNat
  let count := decimal p.2.deliveryCount.toNat
  if p.1 ∈ s.entries.keys then
    [utf8Bytes "XCLAIM", key, name, p.2.consumer, [48], encodeId p.1, utf8Bytes "TIME", time,
      utf8Bytes "RETRYCOUNT", count, utf8Bytes "FORCE", utf8Bytes "JUSTID"]
  else [utf8Bytes "XINTERNAL.PENDING", key, name, p.2.consumer, time, count, encodeId p.1]

/-- A frame of `write_consumer_times`; the search by name finds the consumer's own active time. -/
def consumerSeen (key name : Bytes) (c : Bytes × ConsumerState) : CommandFrame :=
  [utf8Bytes "XINTERNAL.CONSUMERSEEN", key, name, c.1, decimal c.2.lastSeenMs.toNat] ++
    c.2.lastActiveMs.toList.map fun t => decimal t.toNat

/-- `write_stream_group_commands`. -/
def streamGroupCommands (key : Bytes) (s : StreamData) : List CommandFrame :=
  s.groups.items.flatMap fun g =>
    groupHead key g.1 g.2 ++ g.2.pel.items.map (pelFrame key g.1 s) ++ g.2.consumers.items.map (consumerSeen key g.1)

def streamAsCommands (key : Bytes) (s : StreamData) : List CommandFrame :=
  (s.entries.items.map fun e =>
    utf8Bytes "XADD" :: key :: encodeId e.1 :: e.2.flatMap fun p => [p.1, p.2]) ++
    streamIdFixup key s ++ streamGroupCommands key s

def IsBare (s : StreamData) : Prop :=
  s.entries.items = [] ∧ s.lastId = minId ∧ s.maxDeletedId = minId ∧ s.entriesAdded = 0 ∧ s.groups.items = []

/-! ## Values -/

section
variable (now : Bytes → Nat)

/-- `write_value_as_commands` up to the deadline. -/
def valueCommands (key : Bytes) : Yielded → Except String (List CommandFrame)
  | .segStub _ | .vlogStub =>
    .error "cold stub reached the AOF rewrite — SnapshotSource must materialize (T4)"
  | .str bytes => .ok (writeVerbItems (utf8Bytes "SET") key [[bytes]])
  | .int n => .ok (writeVerbItems (utf8Bytes "SET") key [[signText (n < 0) ++ decimal n.natAbs]])
  | .hash fields => .ok (writeVerbItems (utf8Bytes "HSET") key (fields.1.map fun p => [p.1, p.2]))
  | .list items => .ok (writeVerbItems (utf8Bytes "RPUSH") key (items.1.map ([·])))
  | .set members => .ok (writeVerbItems (utf8Bytes "SADD") key (members.1.map ([·])))
  | .zset members => .ok (writeVerbItems (utf8Bytes "ZADD") key (members.1.map fun p => [p.2.text, p.1]))
  | .stream s => .ok (streamAsCommands key s)

/-- `PEXPIREAT` behind the value; `now` is the clock when the key is written. -/
def expiryFrames (row : YieldedRow) : List CommandFrame :=
  row.ttlMs.toList.flatMap fun ms =>
    writeVerbItems (utf8Bytes "PEXPIREAT") row.key [[decimal (min (now row.key + ms) (2 ^ 64 - 1))]]

def writeValueAsCommands (row : YieldedRow) : Except String (List CommandFrame) :=
  (valueCommands row.key row.value).map (· ++ expiryFrames now row)

/-- `write_hash_ttl_frames`. -/
def hashTtlFrames (src : SnapshotSource) : List CommandFrame :=
  src.hashTtls.map fun (key, field, deadlineMs) =>
    [utf8Bytes "HPEXPIREAT", key, decimal deadlineMs, utf8Bytes "FIELDS", [49], field]

/-- One frame of `write_segmented_frames`; the verb's first byte is NUL. -/
def segmentedFrame (src : SnapshotSource) (seq : Nat) : Except String CommandFrame :=
  match src.rowSegFiles.find? fun f => f.1 == seq with
  | some f => .ok [0 :: utf8Bytes "KEVYSEGMENTED", f.2]
  | none => .error s!"rewrite: stub references unknown segment seq {seq}"

/-! ## The walkers -/

/-- What `dump_aof`'s walk has gathered. -/
structure DumpWalk where
  frames : List CommandFrame := []
  keys : Nat := 0
  coldSeqs : List Nat := []
  err : Option String := none

/-- `dump_aof` at a row that is no segment's. -/
def DumpWalk.write (w : DumpWalk) (row : YieldedRow) : DumpWalk :=
  match writeValueAsCommands now row with
  | .error msg => { w with err := some msg }
  | .ok frames => { w with frames := w.frames ++ frames, keys := w.keys + 1 }

/-- `dump_aof` at one row. -/
def dumpAofStep (w : DumpWalk) (row : YieldedRow) : DumpWalk :=
  if w.err.isSome then w
  else match row.value with
    | .segStub seq => if seq ∈ w.coldSeqs then w else { w with coldSeqs := w.coldSeqs ++ [seq] }
    | _ => w.write now row

/-- `dump_aof`: the frames of the file behind its magic and base record, and the count of keys. -/
def dumpAof (src : SnapshotSource) : Except String (List CommandFrame × Nat) :=
  let w := src.rows.foldl (dumpAofStep now) {}
  match w.err with
  | some msg => .error msg
  | none => do
    let segmented ← w.coldSeqs.mapM (segmentedFrame src)
    .ok (w.frames ++ hashTtlFrames src ++ segmented ++ src.auxFrame.toList, w.keys)

/-- `dump_store_to_buf` at one row: an error is dropped and the row is counted. -/
def dumpBufStep (b : List CommandFrame × Nat) (row : YieldedRow) : List CommandFrame × Nat :=
  match writeValueAsCommands now row with
  | .error _ => (b.1, b.2 + 1)
  | .ok frames => (b.1 ++ frames, b.2 + 1)

/-- `dump_store_to_buf`: the frames of the image behind its magic and base record, and the count of keys. -/
def dumpStoreToBuf (src : SnapshotSource) : List CommandFrame × Nat :=
  let b := src.rows.foldl (dumpBufStep now) ([], 0)
  (b.1 ++ hashTtlFrames src ++ src.auxFrame.toList, b.2)

/-! ## What a row is turned into -/

theorem writeVerbItems_ne_nil {verb key : Bytes} {groups : List (List Bytes)} (h : groups ≠ []) :
    writeVerbItems verb key groups ≠ [] := by
  cases groups with
  | nil => exact absurd rfl h
  | cons g gs => simp [writeVerbItems, verbItems]

theorem streamAsCommands_eq_nil_iff (key : Bytes) (s : StreamData) : streamAsCommands key s = [] ↔ IsBare s := by
  have hgroups : streamGroupCommands key s = [] ↔ s.groups.items = [] := by
    simp [streamGroupCommands, groupHead, flatMap_eq_nil_iff, eq_nil_iff_forall_not_mem (l := s.groups.items)]
  rw [streamAsCommands, append_eq_nil_iff, append_eq_nil_iff, hgroups, map_eq_nil_iff, IsBare]
  by_cases hentries : s.entries.items = []
  · by_cases hlast : s.lastId = minId
    · simp [streamIdFixup, hentries, hlast, Prod.ext_iff, eq_comm, ← UInt64.toNat_inj, and_assoc, and_left_comm]
    · simp [streamIdFixup, hentries, hlast]
  · simp [hentries]

theorem valueCommands_of_cold {value : Yielded} (h : value.isCold) (key : Bytes) :
    ∃ msg, valueCommands key value = .error msg := by
  cases value with
  | segStub | vlogStub => exact ⟨_, rfl⟩
  | str | int | hash | list | set | zset | stream => cases h

theorem valueCommands_of_hot {value : Yielded} (h : value.isCold = false) (key : Bytes) :
    ∃ frames, valueCommands key value = .ok frames ∧ (frames = [] ↔ ∃ s, value = .stream s ∧ IsBare s) := by
  cases value with
  | segStub | vlogStub => cases h
  | stream s =>
    refine ⟨_, rfl, (streamAsCommands_eq_nil_iff key s).trans ⟨fun hs => ⟨s, rfl, hs⟩, ?_⟩⟩
    rintro ⟨_, heq, hs⟩
    cases heq
    exact hs
  | str | int => exact ⟨_, rfl, by simp [writeVerbItems_ne_nil]⟩
  | hash items | list items | set items | zset items =>
    exact ⟨_, rfl, by simp [writeVerbItems_ne_nil, items.2]⟩

def rowFrames (row : YieldedRow) : List CommandFrame := (writeValueAsCommands now row).toOption.getD []

theorem foldl_dumpBufStep (rows : List YieldedRow) (b : List CommandFrame × Nat) :
    rows.foldl (dumpBufStep now) b = (b.1 ++ rows.flatMap (rowFrames now), b.2 + rows.length) := by
  induction rows generalizing b with
  | nil => simp
  | cons row rows ih =>
    have hstep : dumpBufStep now b row = (b.1 ++ rowFrames now row, b.2 + 1) := by
      rw [dumpBufStep, rowFrames]
      cases writeValueAsCommands now row <;> simp [Except.toOption]
    rw [foldl_cons, hstep, ih]
    simp [Nat.add_right_comm, ← Nat.add_assoc]

variable {w : DumpWalk} {row : YieldedRow}

theorem dumpAofStep_of_hot (hw : w.err = none) (h : row.value.isCold = false) :
    dumpAofStep now w row = { w with frames := w.frames ++ rowFrames now row, keys := w.keys + 1 } := by
  obtain ⟨frames, hframes, -⟩ := valueCommands_of_hot h row.key
  have hwrite : dumpAofStep now w row = w.write now row := by
    rw [dumpAofStep, hw]
    cases hv : row.value with
    | segStub | vlogStub => rw [hv] at h; cases h
    | str | int | hash | list | set | zset | stream => rfl
  rw [hwrite, DumpWalk.write, rowFrames, writeValueAsCommands, hframes]
  rfl

theorem foldl_dumpAofStep_of_hot {rows : List YieldedRow} (h : ∀ row ∈ rows, row.value.isCold = false)
    (hw : w.err = none) : rows.foldl (dumpAofStep now) w =
      { w with frames := w.frames ++ rows.flatMap (rowFrames now), keys := w.keys + rows.length } := by
  induction rows generalizing w with
  | nil => simp
  | cons row rows ih =>
    rw [forall_mem_cons] at h
    rw [foldl_cons, dumpAofStep_of_hot now hw h.1, ih h.2 (by exact hw)]
    simp [Nat.add_right_comm, ← Nat.add_assoc]

theorem dumpAofStep_of_noError (h : (dumpAofStep now w row).err = none) :
    w.err = none ∧ (dumpAofStep now w row).frames = w.frames ++ rowFrames now row ∧
      (w.coldSeqs ≠ [] ∨ row.value.isCold → (dumpAofStep now w row).coldSeqs ≠ []) := by
  have hw : w.err = none := by
    by_contra hne
    rw [dumpAofStep, if_pos (Option.isSome_iff_ne_none.mpr hne)] at h
    exact hne h
  refine ⟨hw, ?_⟩
  by_cases hcold : row.value.isCold
  · rw [dumpAofStep, hw] at h ⊢
    have hrow : rowFrames now row = [] := by
      obtain ⟨msg, hmsg⟩ := valueCommands_of_cold hcold row.key
      rw [rowFrames, writeValueAsCommands, hmsg]
      rfl
    cases hv : row.value with
    | segStub seq =>
      by_cases hseq : seq ∈ w.coldSeqs
      · simp [hrow, hseq, ne_nil_of_mem hseq]
      · simp [hrow, hseq]
    | vlogStub => simp [hv, DumpWalk.write, writeValueAsCommands, valueCommands, Except.map] at h
    | str | int | hash | list | set | zset | stream => rw [hv] at hcold; cases hcold
  · rw [dumpAofStep_of_hot now hw (Bool.not_eq_true _ ▸ hcold)]
    simp [hcold]

theorem foldl_dumpAofStep_of_noError {rows : List YieldedRow} (h : (rows.foldl (dumpAofStep now) w).err = none) :
    w.err = none ∧ (rows.foldl (dumpAofStep now) w).frames = w.frames ++ rows.flatMap (rowFrames now) ∧
      ((w.coldSeqs ≠ [] ∨ ∃ row ∈ rows, row.value.isCold) → (rows.foldl (dumpAofStep now) w).coldSeqs ≠ []) := by
  induction rows generalizing w with
  | nil => exact ⟨h, by simp, by simp⟩
  | cons row rows ih =>
    obtain ⟨herr, hframes, hcold⟩ := ih h
    obtain ⟨hw, hframe, hseq⟩ := dumpAofStep_of_noError now herr
    refine ⟨hw, ?_, ?_⟩
    · rw [foldl_cons, hframes, hframe, flatMap_cons, append_assoc]
    · rintro (hne | ⟨r, hr, hrcold⟩)
      · exact hcold (.inl (hseq (.inl hne)))
      · rcases mem_cons.mp hr with rfl | hmem
        · exact hcold (.inl (hseq (.inr hrcold)))
        · exact hcold (.inr ⟨r, hmem, hrcold⟩)

/-! ## The two images -/

def Carries (src : SnapshotSource) (image : List CommandFrame) (row : YieldedRow) : Prop :=
  (∃ frames f, valueCommands row.key row.value = .ok frames ∧ f ∈ frames ∧ f ∈ image) ∨
    ∃ seq f, row.value = .segStub seq ∧ segmentedFrame src seq = .ok f ∧ f ∈ image

variable {src : SnapshotSource}

theorem mapM_ne_nil {seqs : List Nat} {frames : List CommandFrame} (h : seqs ≠ [])
    (hm : seqs.mapM (segmentedFrame src) = .ok frames) : frames ≠ [] := by
  rintro rfl
  cases seqs with
  | nil => exact h rfl
  | cons seq seqs =>
    rw [mapM_cons] at hm
    cases hs : segmentedFrame src seq <;> cases ht : seqs.mapM (segmentedFrame src) <;>
      simp [hs, ht, bind, Except.bind, pure, Except.pure] at hm

theorem hot_of_agree {keys : Nat}
    (h : dumpAof now src = .ok ((dumpStoreToBuf now src).1, keys)) : ∀ row ∈ src.rows, row.value.isCold = false := by
  intro row hrow
  by_contra hcold
  rw [dumpAof] at h
  cases herr : (src.rows.foldl (dumpAofStep now) {}).err with
  | some msg => simp [herr] at h
  | none =>
    obtain ⟨-, hframes, hseqs⟩ := foldl_dumpAofStep_of_noError now herr
    have hne := hseqs (.inr ⟨row, hrow, by simpa using hcold⟩)
    cases hm : (src.rows.foldl (dumpAofStep now) {}).coldSeqs.mapM (segmentedFrame src) with
    | error msg => simp [herr, hm, bind, Except.bind] at h
    | ok segmented =>
      simp [herr, hm, bind, Except.bind, hframes, dumpStoreToBuf, foldl_dumpBufStep] at h
      exact mapM_ne_nil hne hm h.1

theorem agree_of_hot (h : ∀ row ∈ src.rows, row.value.isCold = false) :
    dumpAof now src = .ok (dumpStoreToBuf now src) := by
  simp [dumpAof, dumpStoreToBuf, foldl_dumpAofStep_of_hot now h, foldl_dumpBufStep, bind, Except.bind, pure, Except.pure]

theorem mem_dumpStoreToBuf (hrow : row ∈ src.rows)
    {frames : List CommandFrame} (hok : valueCommands row.key row.value = .ok frames) {f : CommandFrame}
    (hf : f ∈ frames) : f ∈ (dumpStoreToBuf now src).1 := by
  have hmem : f ∈ rowFrames now row := by
    rw [rowFrames, writeValueAsCommands, hok]
    exact mem_append_left _ hf
  rw [dumpStoreToBuf, foldl_dumpBufStep]
  simp only [nil_append, mem_append, mem_flatMap]
  exact .inl (.inl ⟨row, hrow, hmem⟩)

/-- **The two dumpers**: the image in memory has the frames of the file and carries every row exactly when no row
is a stub and no stream is bare. -/
theorem dumpers_agree_iff (src : SnapshotSource) : ((∃ keys, dumpAof now src = .ok ((dumpStoreToBuf now src).1, keys)) ∧
        ∀ row ∈ src.rows, Carries src (dumpStoreToBuf now src).1 row) ↔
      ∀ row ∈ src.rows, row.value.isCold = false ∧ ∀ s, row.value = .stream s → ¬ IsBare s := by
  constructor
  · rintro ⟨⟨keys, hagree⟩, hcarries⟩ row hrow
    have hhot := hot_of_agree now hagree row hrow
    obtain ⟨frames, hframes, hnil⟩ := valueCommands_of_hot hhot row.key
    refine ⟨hhot, fun s hs hbare => ?_⟩
    rcases hcarries row hrow with ⟨frames', f, hok, hf, -⟩ | ⟨seq, -, hseg, -⟩
    · obtain rfl : frames = frames' := Except.ok.inj (hframes.symm.trans hok)
      rw [hnil.mpr ⟨s, hs, hbare⟩] at hf
      exact not_mem_nil hf
    · rw [hseg] at hhot
      cases hhot
  · intro h
    refine ⟨⟨_, agree_of_hot now fun row hrow => (h row hrow).1⟩, fun row hrow => .inl ?_⟩
    obtain ⟨frames, hframes, hnil⟩ := valueCommands_of_hot (h row hrow).1 row.key
    have hne : frames ≠ [] := fun hempty => by
      obtain ⟨s, hs, hbare⟩ := hnil.mp hempty
      exact (h row hrow).2 s hs hbare
    obtain ⟨f, hf⟩ := exists_mem_of_ne_nil frames hne
    exact ⟨frames, f, hframes, hf, mem_dumpStoreToBuf now hrow hframes hf⟩

end

/-- A keyspace of one row, whose data is in segment 7. -/
def oneColdRow : SnapshotSource where
  rows := [⟨[107], .segStub 7, none⟩]
  rowSegFiles := [(7, utf8Bytes "seg-7.kseg")]

/-- The file names the segment; the image in memory is empty and counts the row. -/
theorem cold_row_is_dropped :
    dumpAof (fun _ => 0) oneColdRow = .ok ([[0 :: utf8Bytes "KEVYSEGMENTED", utf8Bytes "seg-7.kseg"]], 0) ∧
      dumpStoreToBuf (fun _ => 0) oneColdRow = ([], 1) :=
  ⟨rfl, rfl⟩

end Kevy.Persist
