import Kevy.Lib.Expiring
import Kevy.Snapshot.Format

/-!
# Writing and loading a snapshot

The whole file: a header, one record for each live key, one for each field deadline, the end-of-data opcode, and
behind it the auxiliary frame and the records of the consumer groups' reads. A load drives the records into an
empty store.

The store keeps its deadlines in nanoseconds of a monotonic clock, the file in milliseconds of the wall clock. Both
clocks are read at the write; the loader reads the wall clock once and the monotonic one at each record.
-/

namespace Kevy.Snapshot

open Kevy.Lib Kevy.Resp

/-! ## Clocks and deadlines -/

/-- The monotonic clock in nanoseconds and the wall clock in milliseconds, read together. -/
structure Clock where
  mono : Nat
  wall : Nat
  deriving DecidableEq, Repr

def remainingMs (deadline now : Nat) : Nat := (deadline - now) / 1000000

def deadlineAt (now ms : Nat) : Nat := min (now + min (ms * 1000000) u64Max) u64Max

def packDeadline (deadline : Nat) : Option Nat := if deadline = 0 then none else some deadline

def deadlineUnixMs (c : Clock) (deadline : Nat) : Nat :=
  if c.mono ≤ deadline then min (c.wall + (deadline - c.mono) / 1000000) u64Max
  else c.wall - (c.mono - deadline) / 1000000

/-! ## What is written -/

structure FeedPosition where
  generation : UInt64 := 0
  offset : UInt64 := 0
  deriving DecidableEq, Repr

def Value.isStub : Value → Bool
  | .segStub _ _ => true
  | _ => false

def Value.isStream : Value → Bool
  | .stream _ => true
  | _ => false

/-- A store to write: its entries, the deadlines of single hash fields, whether it has row segments, and the frame
carried beside it. A row in a segment has no deadline, a stream has no field deadlines. -/
structure SnapshotSource where
  entries : KeyedList Bytes (Entry Value)
  hashTtl : KeyedList (Bytes × Bytes) UInt64
  rowSegs : Bool
  aux : Option (List Bytes)
  rostered : ∀ e ∈ entries.items, e.2.value.rostered = true
  stub_forever : ∀ e ∈ entries.items, e.2.value.isStub = true → e.2.expireAt = none
  stream_whole : ∀ e ∈ entries.items, e.2.value.isStream = true → ∀ p ∈ hashTtl.items, p.1.1 ≠ e.1

/-- `snapshot_each`: the entries whose deadline is ahead. -/
def SnapshotSource.live (src : SnapshotSource) (now : Nat) : List (Bytes × Entry Value) :=
  src.entries.items.filter fun e => !e.2.expired now

/-- A group's read counter, its consumers' last active times and its delivery counts past 32 bits. -/
structure GroupReads where
  key : Bytes
  group : Bytes
  entriesRead : Option UInt64
  active : List (Bytes × UInt64)
  wide : List (StreamId × UInt64)
  deriving DecidableEq, Repr

def ConsumerGroup.active (g : ConsumerGroup) : List (Bytes × UInt64) :=
  g.consumers.items.filterMap fun c => c.2.lastActiveMs.map fun t => (c.1, t)

def ConsumerGroup.wide (g : ConsumerGroup) : List (StreamId × UInt64) :=
  g.pel.items.filterMap fun p => if u32Max < p.2.deliveryCount.toNat then some (p.1, p.2.deliveryCount) else none

def collectGroup (key : Bytes) (g : Bytes × ConsumerGroup) : Option GroupReads :=
  if g.2.entriesRead.isNone && g.2.active.isEmpty && g.2.wide.isEmpty then none
  else some ⟨key, g.1, g.2.entriesRead, g.2.active, g.2.wide⟩

def collect (e : Bytes × Entry Value) : List GroupReads :=
  match e.2.value with
  | .stream s => s.groups.items.filterMap (collectGroup e.1)
  | _ => []

/-- `KEVYSNAP`. -/
def magic : Bytes := [75, 69, 86, 89, 83, 78, 65, 80]

/-- `snapshot_version`: the highest feature the file needs. -/
def snapshotVersion (src : SnapshotSource) (cursor : Option FeedPosition) : UInt8 :=
  if src.rowSegs then 7
  else if !src.hashTtl.items.isEmpty then 6
  else if cursor.isSome then 5
  else 4

def writeCursor (position : FeedPosition) : Bytes := writeU64 position.generation ++ writeU64 position.offset

def writeHeader (version : UInt8) (cursor : Option FeedPosition) : Bytes :=
  magic ++ ([version] ++ if 5 ≤ version then writeCursor (cursor.getD {}) else [])

def savedDeadline (w : Clock) (e : Entry Value) : Option UInt64 :=
  e.expireAt.map fun d => UInt64.ofNat (min (w.wall + remainingMs d w.mono) u64Max)

def writeEntry (w : Clock) (e : Bytes × Entry Value) : Bytes :=
  [e.2.value.op] ++ (writeTtl (savedDeadline w e.2) ++ (writeBytes e.1 ++ writePayload e.2.value))

def writeHashTtl (p : (Bytes × Bytes) × UInt64) : Bytes :=
  [7] ++ (writeBytes p.1.1 ++ (writeBytes p.1.2 ++ writeU64 p.2))

def writeWide (p : StreamId × UInt64) : Bytes := writeId p.1 ++ writeU64 p.2

/-- The body of an `OP_GROUP_READS` record. -/
def writeGroupReads (r : GroupReads) : Bytes :=
  writeBytes r.key ++ (writeBytes r.group ++ (writeTtl r.entriesRead ++
    (writeVec writeScore r.active ++ writeVec writeWide r.wide)))

inductive WriteError
  | auxFrameTooLong
  deriving DecidableEq, Repr

def writeTrailer (aux : Option (List Bytes)) (reads : List GroupReads) : Except WriteError Bytes :=
  match aux with
  | none => .ok (reads.flatMap fun r => 10 :: writeGroupReads r)
  | some frame =>
    if fits32 frame.length then .ok (9 :: (writeVec writeBytes frame ++ reads.flatMap fun r => 10 :: writeGroupReads r))
    else .error .auxFrameTooLong

/-- Everything in front of the end-of-data opcode. -/
def snapshotData (src : SnapshotSource) (w : Clock) (cursor : Option FeedPosition) : Bytes :=
  writeHeader (snapshotVersion src cursor) cursor ++
    ((src.live w.mono).flatMap (writeEntry w) ++ src.hashTtl.items.flatMap writeHashTtl)

def writeSnapshotToWithCursor (src : SnapshotSource) (w : Clock) (cursor : Option FeedPosition) :
    Except WriteError Bytes := do
  let trailer ← writeTrailer src.aux ((src.live w.mono).flatMap collect)
  pure (snapshotData src w cursor ++ 0 :: trailer)

/-! ## The store a load fills -/

structure Store where
  map : Expiring Bytes Value
  hfttl : KeyedList (Bytes × Bytes) UInt64

/-- A load under way: the store, and how often the monotonic clock was read. -/
structure Loading where
  store : Store
  ticks : Nat

namespace Store

def empty : Store := ⟨fun _ => none, .empty⟩

def clearHashKeyTtls (s : Store) (key : Bytes) : KeyedList (Bytes × Bytes) UInt64 :=
  s.hfttl.filter fun p => p.1.1 ≠ key

def insertEntry (s : Store) (key : Bytes) (e : Entry Value) : Store :=
  ⟨Function.update s.map key (some e), s.clearHashKeyTtls key⟩

def insertRowStub (s : Store) (key : Bytes) (v : Value) : Store :=
  { s with map := Function.update s.map key (some ⟨v, none⟩) }

/-- `drop_expired`, for a key that has an entry. -/
def dropEntry (s : Store) (key : Bytes) : Store := ⟨Function.update s.map key none, s.clearHashKeyTtls key⟩

def loadHashFieldTtl (s : Store) (key field : Bytes) (deadline : UInt64) : Store :=
  { s with hfttl := s.hfttl.insert (key, field) deadline }

end Store

/-- Set a consumer's last active time; one that is missing is made. -/
def setActive (consumers : KeyedList Bytes ConsumerState) (c : Bytes × UInt64) : KeyedList Bytes ConsumerState :=
  let known := if consumers.keys.contains c.1 then consumers else consumers.insert c.1 ⟨c.2, none⟩
  known.modify c.1 fun state => { state with lastActiveMs := some c.2 }

def setCount (pel : KeyedList StreamId PelEntry) (p : StreamId × UInt64) : KeyedList StreamId PelEntry :=
  pel.modify p.1 fun q => { q with deliveryCount := p.2 }

namespace StreamData

/-- `group_set_entries_read`. -/
def setEntriesRead (s : StreamData) (group : Bytes) (entriesRead : Option UInt64) : StreamData :=
  { s with groups := s.groups.modify group fun g => { g with entriesRead } }

/-- `group_consumer_active`. -/
def consumerActive (s : StreamData) (group : Bytes) (c : Bytes × UInt64) : StreamData :=
  { s with groups := s.groups.modify group fun g => { g with consumers := setActive g.consumers c } }

/-- `xgroup_set_delivery_count` on the stream. -/
def setDeliveryCount (s : StreamData) (group : Bytes) (p : StreamId × UInt64) : StreamData :=
  { s with groups := s.groups.modify group fun g => { g with pel := setCount g.pel p } }

end StreamData

/-! ## The loader -/

section Loader

variable (mono : Nat → Nat) (now : Nat) (keep : Bytes → Bool)

namespace Loading

def insertLoaded (st : Loading) (key : Bytes) (v : Value) (ttl : Option Nat) : Loading where
  store := st.store.insertEntry key ⟨v, ttl.bind fun ms => packDeadline (deadlineAt (mono st.ticks) ms)⟩
  ticks := st.ticks + 1

/-- The `load_` function of a value's type. -/
def loadValue (st : Loading) (key : Bytes) (v : Value) (ttl : Option Nat) : Loading :=
  if v.isStub then { st with store := st.store.insertRowStub key v } else st.insertLoaded mono key v ttl

/-- A setter on the stream at `key`, behind `stream_mut`: a missing key is left alone, an expired one dropped. -/
def streamMut (st : Loading) (key : Bytes) (f : StreamData → StreamData) : Except LoadError Loading :=
  match st.store.map key with
  | none => .ok st
  | some e =>
    if e.expired (mono st.ticks) then .ok ⟨st.store.dropEntry key, st.ticks + 1⟩
    else match e.value with
      | .stream s =>
        .ok ⟨{ st.store with map := Function.update st.store.map key (some ⟨.stream (f s), e.expireAt⟩) }, st.ticks + 1⟩
      | _ => .error .wrongType

def applyGroupReads (st : Loading) (r : GroupReads) : Except LoadError Loading := do
  let st ← st.streamMut mono r.key fun s => s.setEntriesRead r.group r.entriesRead
  let st ← r.active.foldlM (fun st c => st.streamMut mono r.key fun s => s.consumerActive r.group c) st
  r.wide.foldlM (fun st p => st.streamMut mono r.key fun s => s.setDeliveryCount r.group p) st

end Loading

def readSnapshotHeader : In UInt8 := do
  let m ← readExact .unexpectedEof 8
  if m ≠ magic then fun _ => .error .badMagic
  else do
    let version ← readU8
    if version < 2 ∨ 7 < version then fun _ => .error .badVersion
    else if 5 ≤ version then do
      let _ ← readExact .unexpectedEof 16
      pure version
    else pure version

/-- What an `OP_HFTTL` record says. -/
def readHashTtl : In ((Bytes × Bytes) × UInt64) := do
  let key ← readBytes
  let field ← readBytes
  let deadline ← readU64
  pure ((key, field), deadline)

/-- A value record behind its opcode: the deadline, the key, the payload. -/
def readEntry (version op : UInt8) : In (Option UInt64 × Bytes × Value) := do
  let ttl ← readTtl
  let key ← readBytes
  let v ← readValue version op
  pure (ttl, key, v)

/-- What is left of a deadline read from the file; before version 3 the file has what is left. -/
def remaining (version : UInt8) (ttl : Option UInt64) : Option Nat :=
  ttl.map fun d => if 3 ≤ version then d.toNat - now else d.toNat

def Loading.loadEntry (version : UInt8) (st : Loading) (r : Option UInt64 × Bytes × Value) : Loading :=
  if keep r.2.1 then st.loadValue mono r.2.1 r.2.2 (remaining now version r.1) else st

def Loading.loadHashTtl (st : Loading) (p : (Bytes × Bytes) × UInt64) : Loading :=
  if keep p.1.1 then { st with store := st.store.loadHashFieldTtl p.1.1 p.1.2 p.2 } else st

/-- One round of the loop of `load_snapshot_with_aux`. -/
def loadStep (version : UInt8) (st : Loading) : In (Loading ⊕ Loading) := do
  let op ← readU8
  if op = 0 then pure (.inr st)
  else if op = 7 then do
    let p ← readHashTtl
    pure (.inl (st.loadHashTtl keep p))
  else do
    let r ← readEntry version op
    pure (.inl (st.loadEntry mono now keep version r))

def readData : In Loading := do
  let version ← readSnapshotHeader
  readUntil .unexpectedEof (loadStep mono now keep version) ⟨.empty, 0⟩

def readCounter : In (Option UInt64) := do
  let flag ← readU8
  if flag = 0 then pure none
  else do
    let n ← readU64
    pure (some n)

def readWide : In (StreamId × UInt64) := do
  let id ← readId
  let count ← readU64
  pure (id, count)

def readGroupReads : In GroupReads := do
  let key ← readBytes
  let group ← readBytes
  let entriesRead ← readCounter
  let active ← readVec readScore
  let wide ← readVec readWide
  pure ⟨key, group, entriesRead, active, wide⟩

def readAndApply (st : Loading) : In Loading := do
  let r ← readGroupReads
  if keep r.key then fun bs => (st.applyGroupReads mono r).map fun st => (st, bs)
  else pure st

abbrev Trailing := Loading × Option (List Bytes)

/-- A record of the trailer behind its opcode. What is no record is left unread. -/
def readTrailerRecord (s : Trailing) (op : UInt8) : In (Trailing ⊕ Trailing) :=
  if op = 9 ∧ s.2.isNone then do
    let frame ← readVec readBytes
    pure (.inl (s.1, some frame))
  else if op = 10 then do
    let st ← readAndApply mono keep s.1
    pure (.inl (st, s.2))
  else pure (.inr s)

/-- One round of the loop of `read_trailer`. The stream may end here. -/
def trailerStep (s : Trailing) : In (Trailing ⊕ Trailing) := fun bs =>
  match bs with
  | [] => .ok (.inr s, [])
  | op :: rest => readTrailerRecord mono keep s op rest

def loadSnapshotWithAux (bytes : Bytes) : Except LoadError (Loading × Option (List Bytes)) :=
  (do
    let st ← readData mono now keep
    readUntil .unexpectedEof (trailerStep mono keep) (st, none) : In _).run' bytes

end Loader

def readCursor : In (Option FeedPosition) := do
  let m ← readExact .unexpectedEof 8
  if m ≠ magic then fun _ => .error .badMagic
  else do
    let version ← readU8
    if version < 5 then pure none
    else do
      let generation ← readU64
      let offset ← readU64
      pure (some ⟨generation, offset⟩)

def readSnapshotCursor (bytes : Bytes) : Except LoadError (Option FeedPosition) := readCursor.run' bytes

end Kevy.Snapshot
