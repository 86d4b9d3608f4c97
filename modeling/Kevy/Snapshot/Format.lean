import Kevy.Lib.Reader
import Kevy.Lib.KeyedList
import Kevy.Resp.Basic

/-!
# The binary snapshot format: values

What a snapshot carries of a value, in the words of `snapshot_fmt.rs`, `snapshot_payload.rs` and `snapshot_read.rs`.
A value is written without its in-memory encoding: all strings, all hashes and so on share one form. A stream's
consumer groups lose their read counter, their consumers' last active times and delivery counts past 32 bits on the
way (`asWritten`); those follow in records of their own behind the end of the data.

Every length and every count is written as `u32`; what does not fit is cut to its low 32 bits (`leBytes 4`).
-/

namespace Kevy.Snapshot

open Kevy.Lib Kevy.Resp List

/-! ## Values -/

structure StreamId where
  ms : UInt64
  seq : UInt64
  deriving DecidableEq, Repr

structure PelEntry where
  consumer : Bytes
  deliveryTimeMs : UInt64
  deliveryCount : UInt64
  deriving DecidableEq, Repr

/-- A consumer; its cached pending count is its share of the pending entries and is left out. -/
structure ConsumerState where
  lastSeenMs : UInt64
  lastActiveMs : Option UInt64
  deriving DecidableEq, Repr

structure ConsumerGroup where
  lastDeliveredId : StreamId
  pel : KeyedList StreamId PelEntry
  consumers : KeyedList Bytes ConsumerState
  entriesRead : Option UInt64
  deriving DecidableEq, Repr

structure StreamData where
  entries : KeyedList StreamId (List (Bytes × Bytes))
  lastId : StreamId
  maxDeletedId : StreamId
  entriesAdded : UInt64
  groups : KeyedList Bytes ConsumerGroup
  deriving DecidableEq, Repr

/-- A value without its encoding. A score is the bit pattern of its `f64`; a row whose data lies in a segment is
the reference to it. -/
inductive Value
  | str (bytes : Bytes)
  | hash (fields : KeyedList Bytes Bytes)
  | list (items : List Bytes)
  | set (members : KeyedList Bytes Unit)
  | zset (members : KeyedList Bytes UInt64)
  | stream (s : StreamData)
  | segStub (seq weight : UInt32)
  deriving DecidableEq, Repr

/-! ## Reading and writing scalars -/

inductive LoadError
  | unexpectedEof
  | badMagic
  | badVersion
  | unknownOpcode (op : UInt8)
  | wrongType
  deriving DecidableEq, Repr

abbrev In (α : Type) := Reader LoadError α

/-- `bs` is one thing for the reader; cut short it is an unexpected end. -/
abbrev Parses {α : Type} (r : In α) (bs : Bytes) (a : α) : Prop := Reads LoadError.unexpectedEof r bs a

def u32Max : Nat := 2 ^ 32 - 1

def u64Max : Nat := 2 ^ 64 - 1

def fits32 (n : Nat) : Bool := n ≤ u32Max

def writeU64 (n : UInt64) : Bytes := leBytes 8 n.toNat

def writeBytes (b : Bytes) : Bytes := leBytes 4 b.length ++ b

def writeTtl : Option UInt64 → Bytes
  | some ms => 1 :: writeU64 ms
  | none => [0]

def readU8 : In UInt8 := readByte .unexpectedEof

def readU32 : In Nat := do
  let b ← readExact .unexpectedEof 4
  pure (ofLe b)

def readU64 : In UInt64 := do
  let b ← readExact .unexpectedEof 8
  pure (UInt64.ofNat (ofLe b))

/-- `read_bytes`. The buffer grows in steps as the bytes come in; what is read is the same. -/
def readBytes : In Bytes := do
  let len ← readU32
  readExact .unexpectedEof len

def readTtl : In (Option UInt64) := do
  let flag ← readU8
  if flag = 1 then do
    let ms ← readU64
    pure (some ms)
  else pure none

def readVec {α : Type} (item : In α) : In (List α) := do
  let n ← readU32
  readMany item n

/-- The writer's side of `readVec`. -/
def writeVec {α : Type} (enc : α → Bytes) (items : List α) : Bytes := leBytes 4 items.length ++ items.flatMap enc

theorem parses_u32 {n : Nat} (h : fits32 n) : Parses readU32 (leBytes 4 n) n := by
  have hlt : n < 256 ^ 4 := by
    have hle : n ≤ u32Max := of_decide_eq_true h
    unfold u32Max at hle
    omega
  have hbytes : Parses (readExact .unexpectedEof 4) (leBytes 4 n) (leBytes 4 n) :=
    Reads.readExact (length_leBytes 4 n)
  have hread := hbytes.map (g := ofLe)
  rwa [ofLe_leBytes_of_lt hlt] at hread

theorem parses_u64 (n : UInt64) : Parses readU64 (writeU64 n) n := by
  have hbytes : Parses (readExact .unexpectedEof 8) (writeU64 n) (writeU64 n) :=
    Reads.readExact (length_leBytes 8 n.toNat)
  have hread := hbytes.map (g := fun b => UInt64.ofNat (ofLe b))
  have hn : UInt64.ofNat (ofLe (writeU64 n)) = n := by
    rw [writeU64, ofLe_leBytes_of_lt n.toNat_lt, UInt64.ofNat_toNat]
  rwa [hn] at hread

theorem parses_bytes {b : Bytes} (h : fits32 b.length) : Parses readBytes (writeBytes b) b :=
  (parses_u32 h).bind (Reads.readExact rfl)

theorem parses_u8 (b : UInt8) : Parses readU8 [b] b := Reads.readByte b

theorem parses_ttl (ttl : Option UInt64) : Parses readTtl (writeTtl ttl) ttl := by
  cases ttl with
  | none => exact (parses_u8 0).bind (Reads.pure none)
  | some ms => exact (parses_u8 1).bind (parses_u64 ms).map

theorem parses_vec_map {α γ : Type} {item : In α} {enc : γ → Bytes} {g : γ → α} {items : List γ}
    (hlen : fits32 items.length) (h : ∀ c ∈ items, Parses item (enc c) (g c)) :
    Parses (readVec item) (writeVec enc items) (items.map g) :=
  (parses_u32 hlen).bind (Reads.readMany items h)

theorem parses_vec {α : Type} {item : In α} {enc : α → Bytes} {items : List α} (hlen : fits32 items.length)
    (h : ∀ a ∈ items, Parses item (enc a) a) : Parses (readVec item) (writeVec enc items) items := by
  have hmap := parses_vec_map (g := id) hlen h
  rwa [map_id] at hmap

/-! ## Payloads -/

def writePair (p : Bytes × Bytes) : Bytes := writeBytes p.1 ++ writeBytes p.2

def readPair : In (Bytes × Bytes) := do
  let f ← readBytes
  let v ← readBytes
  pure (f, v)

def writeScore (p : Bytes × UInt64) : Bytes := writeBytes p.1 ++ writeU64 p.2

def readScore : In (Bytes × UInt64) := do
  let m ← readBytes
  let score ← readU64
  pure (m, score)

def writeId (id : StreamId) : Bytes := writeU64 id.ms ++ writeU64 id.seq

def readId : In StreamId := do
  let ms ← readU64
  let seq ← readU64
  pure ⟨ms, seq⟩

def writeStreamEntry (e : StreamId × List (Bytes × Bytes)) : Bytes := writeId e.1 ++ writeVec writePair e.2

def readStreamEntry : In (StreamId × List (Bytes × Bytes)) := do
  let id ← readId
  let fv ← readVec readPair
  pure (id, fv)

structure LoadedGroup where
  name : Bytes
  lastDelivered : StreamId
  consumers : List (Bytes × UInt64)
  pel : List (StreamId × PelEntry)

/-- A row of the pending entries. A count past 32 bits goes in the group reads record. -/
def writePelRow (p : StreamId × PelEntry) : Bytes :=
  writeId p.1 ++ (writeBytes p.2.consumer ++ (writeU64 p.2.deliveryTimeMs ++
    leBytes 4 (min p.2.deliveryCount.toNat u32Max)))

def readPelRow : In (StreamId × PelEntry) := do
  let id ← readId
  let consumer ← readBytes
  let deliveryTimeMs ← readU64
  let count ← readU32
  pure (id, ⟨consumer, deliveryTimeMs, UInt64.ofNat count⟩)

def writeStreamGroup (g : LoadedGroup) : Bytes :=
  writeBytes g.name ++ (writeId g.lastDelivered ++ (writeVec writeScore g.consumers ++ writeVec writePelRow g.pel))

def readStreamGroup : In LoadedGroup := do
  let name ← readBytes
  let lastDelivered ← readId
  let consumers ← readVec readScore
  let pel ← readVec readPelRow
  pure ⟨name, lastDelivered, consumers, pel⟩

/-- One group of `export_groups`. -/
def ConsumerGroup.exported (name : Bytes) (g : ConsumerGroup) : LoadedGroup :=
  ⟨name, g.lastDeliveredId, g.consumers.items.map fun c => (c.1, c.2.lastSeenMs), g.pel.items⟩

def StreamData.exportGroups (s : StreamData) : List LoadedGroup := s.groups.items.map fun g => g.2.exported g.1

/-- One group of `import_groups`: an owner missing from the roster gets a place in it. -/
def LoadedGroup.imported (g : LoadedGroup) : ConsumerGroup where
  lastDeliveredId := g.lastDelivered
  pel := .ofList g.pel
  consumers := g.pel.foldl
    (fun roster p => if roster.keys.contains p.2.consumer then roster else roster.insert p.2.consumer ⟨0, none⟩)
    (.ofList (g.consumers.map fun c => (c.1, ⟨c.2, none⟩)))
  entriesRead := none

def writeStream (s : StreamData) : Bytes :=
  writeId s.lastId ++ (writeId s.maxDeletedId ++ (writeU64 s.entriesAdded ++
    (writeVec writeStreamEntry s.entries.items ++ writeVec writeStreamGroup s.exportGroups)))

/-- The group section; a file from before version 4 has none. -/
def readStreamGroups (version : UInt8) : In (List LoadedGroup) :=
  if 4 ≤ version then readVec readStreamGroup else pure []

/-- `load_stream_record`. -/
def readStream (version : UInt8) : In StreamData := do
  let lastId ← readId
  let maxDeletedId ← readId
  let entriesAdded ← readU64
  let entries ← readVec readStreamEntry
  let groups ← readStreamGroups version
  pure ⟨.ofList entries, lastId, maxDeletedId, entriesAdded, .ofList (groups.map fun g => (g.name, g.imported))⟩

/-- `op_for`. -/
def Value.op : Value → UInt8
  | .str _ => 1
  | .hash _ => 2
  | .list _ => 3
  | .set _ => 4
  | .zset _ => 5
  | .stream _ => 6
  | .segStub _ _ => 8

def writePayload : Value → Bytes
  | .str b => writeBytes b
  | .hash fields => writeVec writePair fields.items
  | .list items => writeVec writeBytes items
  | .set members => writeVec writeBytes members.keys
  | .zset members => writeVec writeScore members.items
  | .stream s => writeStream s
  | .segStub seq weight => leBytes 4 seq.toNat ++ leBytes 4 weight.toNat

/-- The payloads of `load_record`, with the value each becomes. -/
def readValue (version op : UInt8) : In Value :=
  if op = 1 then do
    let b ← readBytes
    pure (.str b)
  else if op = 2 then do
    let fields ← readVec readPair
    pure (.hash (.ofList fields))
  else if op = 3 then do
    let items ← readVec readBytes
    pure (.list items)
  else if op = 4 then do
    let members ← readVec readBytes
    pure (.set (.ofList (members.map fun m => (m, ()))))
  else if op = 5 then do
    let pairs ← readVec readScore
    pure (.zset (.ofList pairs))
  else if op = 6 then do
    let s ← readStream version
    pure (.stream s)
  else if op = 8 then do
    let seq ← readU32
    let weight ← readU32
    pure (.segStub (UInt32.ofNat seq) (UInt32.ofNat weight))
  else fun _ => .error (.unknownOpcode op)

/-! ## What comes back -/

/-- What the format has no place for: the last active time, the count past 32 bits, the read counter. -/
def ConsumerState.asWritten (c : ConsumerState) : ConsumerState := { c with lastActiveMs := none }

def PelEntry.asWritten (p : PelEntry) : PelEntry :=
  { p with deliveryCount := UInt64.ofNat (min p.deliveryCount.toNat u32Max) }

def ConsumerGroup.asWritten (g : ConsumerGroup) : ConsumerGroup where
  lastDeliveredId := g.lastDeliveredId
  pel := g.pel.mapValues PelEntry.asWritten
  consumers := g.consumers.mapValues ConsumerState.asWritten
  entriesRead := none

def StreamData.asWritten (s : StreamData) : StreamData :=
  { s with groups := s.groups.mapValues ConsumerGroup.asWritten }

def Value.asWritten : Value → Value
  | .stream s => .stream s.asWritten
  | v => v

/-- Every owner of a pending entry is in the roster. The stream commands keep it so. -/
def ConsumerGroup.rostered (g : ConsumerGroup) : Bool :=
  g.pel.items.all fun p => g.consumers.keys.contains p.2.consumer

def pairFits (p : Bytes × Bytes) : Bool := fits32 p.1.length && fits32 p.2.length

def ConsumerGroup.fits (g : ConsumerGroup) : Bool :=
  fits32 g.consumers.items.length && g.consumers.items.all (fun c => fits32 c.1.length) &&
    (fits32 g.pel.items.length && g.pel.items.all (fun p => fits32 p.2.consumer.length))

def StreamData.fits (s : StreamData) : Bool :=
  fits32 s.entries.items.length && s.entries.items.all (fun e => fits32 e.2.length && e.2.all pairFits) &&
    (fits32 s.groups.items.length && s.groups.items.all (fun g => fits32 g.1.length && g.2.fits))

def Value.fits : Value → Bool
  | .str b => fits32 b.length
  | .hash fields => fits32 fields.items.length && fields.items.all pairFits
  | .list items => fits32 items.length && items.all (fun b => fits32 b.length)
  | .set members => fits32 members.keys.length && members.keys.all (fun b => fits32 b.length)
  | .zset members => fits32 members.items.length && members.items.all (fun p => fits32 p.1.length)
  | .stream s => s.fits
  | .segStub _ _ => true

def Value.rostered : Value → Bool
  | .stream s => s.groups.items.all fun g => g.2.rostered
  | _ => true

theorem parses_id (id : StreamId) : Parses readId (writeId id) id := (parses_u64 id.ms).bind (parses_u64 id.seq).map

theorem parses_pair {p : Bytes × Bytes} (h : pairFits p) : Parses readPair (writePair p) p := by
  obtain ⟨h1, h2⟩ := (Bool.and_eq_true _ _).mp h
  exact (parses_bytes h1).bind (parses_bytes h2).map

theorem parses_score {p : Bytes × UInt64} (h : fits32 p.1.length) : Parses readScore (writeScore p) p :=
  (parses_bytes h).bind (parses_u64 p.2).map

theorem parses_streamEntry {e : StreamId × List (Bytes × Bytes)} (h : fits32 e.2.length && e.2.all pairFits) :
    Parses readStreamEntry (writeStreamEntry e) e := by
  obtain ⟨hlen, hall⟩ := (Bool.and_eq_true _ _).mp h
  have hpairs := parses_vec hlen fun p hp => parses_pair (all_eq_true.mp hall p hp)
  exact (parses_id e.1).bind hpairs.map

theorem parses_pelRow {p : StreamId × PelEntry} (h : fits32 p.2.consumer.length) :
    Parses readPelRow (writePelRow p) (p.1, p.2.asWritten) := by
  have hcount : fits32 (min p.2.deliveryCount.toNat u32Max) := decide_eq_true (Nat.min_le_right _ _)
  exact (parses_id p.1).bind ((parses_bytes h).bind ((parses_u64 _).bind (parses_u32 hcount).map))

def LoadedGroup.asWritten (g : LoadedGroup) : LoadedGroup :=
  { g with pel := g.pel.map fun p => (p.1, p.2.asWritten) }

theorem parses_streamGroup {name : Bytes} {g : ConsumerGroup} (hname : fits32 name.length) (h : g.fits) :
    Parses readStreamGroup (writeStreamGroup (g.exported name)) (g.exported name).asWritten := by
  unfold ConsumerGroup.fits at h
  simp only [Bool.and_eq_true, all_eq_true] at h
  obtain ⟨⟨hclen, hconsumers⟩, hplen, hpel⟩ := h
  have hc : Parses (readVec readScore) (writeVec writeScore (g.exported name).consumers)
      (g.exported name).consumers := by
    apply parses_vec
    · rw [ConsumerGroup.exported, length_map]
      exact hclen
    · intro c hc
      obtain ⟨c', hc', rfl⟩ := mem_map.mp hc
      exact parses_score (hconsumers c' hc')
  have hp : Parses (readVec readPelRow) (writeVec writePelRow (g.exported name).pel)
      (g.exported name).asWritten.pel := parses_vec_map hplen fun p hp => parses_pelRow (hpel p hp)
  exact (parses_bytes hname).bind ((parses_id _).bind (hc.bind hp.map))

theorem foldl_roster (pel : List (StreamId × PelEntry)) (roster : KeyedList Bytes ConsumerState)
    (h : ∀ p ∈ pel, roster.keys.contains p.2.consumer) : pel.foldl (fun roster p =>
      if roster.keys.contains p.2.consumer then roster else roster.insert p.2.consumer ⟨0, none⟩) roster = roster := by
  induction pel with
  | nil => rfl
  | cons p pel ih =>
    rw [foldl_cons, if_pos (h p mem_cons_self)]
    exact ih (forall_mem_cons.mp h).2

theorem imported_exported {name : Bytes} {g : ConsumerGroup} (h : g.rostered) :
    (g.exported name).asWritten.imported = g.asWritten := by
  have hroster : KeyedList.ofList ((g.exported name).asWritten.consumers.map fun c => (c.1, ⟨c.2, none⟩)) =
      g.consumers.mapValues ConsumerState.asWritten := by
    rw [← KeyedList.ofList_items (g.consumers.mapValues ConsumerState.asWritten)]
    congr 1
    show map _ (map _ g.consumers.items) = _
    rw [map_map]
    rfl
  have hpel : KeyedList.ofList (g.exported name).asWritten.pel = g.pel.mapValues PelEntry.asWritten :=
    KeyedList.ofList_items (g.pel.mapValues PelEntry.asWritten)
  have howners : ∀ p ∈ (g.exported name).asWritten.pel,
      (g.consumers.mapValues ConsumerState.asWritten).keys.contains p.2.consumer := by
    intro p hp
    obtain ⟨q, hq, rfl⟩ := mem_map.mp hp
    rw [KeyedList.keys_mapValues]
    exact all_eq_true.mp h q hq
  unfold LoadedGroup.imported ConsumerGroup.asWritten
  rw [hroster, hpel, foldl_roster _ _ howners]
  rfl

theorem parses_stream {version : UInt8} (hv : 4 ≤ version) {s : StreamData} (h : s.fits)
    (hroster : s.groups.items.all fun g => g.2.rostered) : Parses (readStream version) (writeStream s) s.asWritten := by
  unfold StreamData.fits at h
  simp only [Bool.and_eq_true, all_eq_true] at h hroster
  obtain ⟨⟨helen, hentries⟩, hglen, hgroups⟩ := h
  have he : Parses (readVec readStreamEntry) (writeVec writeStreamEntry s.entries.items) s.entries.items :=
    parses_vec helen fun e he => parses_streamEntry (by
      obtain ⟨h1, h2⟩ := hentries e he
      rw [h1, all_eq_true.mpr h2]
      rfl)
  have hg : Parses (readStreamGroups version) (writeVec writeStreamGroup s.exportGroups)
      (s.exportGroups.map LoadedGroup.asWritten) := by
    rw [readStreamGroups, if_pos hv]
    apply parses_vec_map
    · rw [StreamData.exportGroups, length_map]
      exact hglen
    · intro g hg
      obtain ⟨g', hg', rfl⟩ := mem_map.mp hg
      exact parses_streamGroup (hgroups g' hg').1 (hgroups g' hg').2
  have hstream : (⟨.ofList s.entries.items, s.lastId, s.maxDeletedId, s.entriesAdded,
      .ofList ((s.exportGroups.map LoadedGroup.asWritten).map fun g => (g.name, g.imported))⟩ : StreamData) =
      s.asWritten := by
    have himport : (s.exportGroups.map LoadedGroup.asWritten).map (fun g => (g.name, g.imported)) =
        (s.groups.mapValues ConsumerGroup.asWritten).items := by
      rw [StreamData.exportGroups, map_map, map_map]
      apply map_congr_left
      intro g hg
      exact congrArg (Prod.mk g.1) (imported_exported (hroster g hg))
    rw [himport, KeyedList.ofList_items, KeyedList.ofList_items]
    rfl
  rw [← hstream]
  exact (parses_id _).bind ((parses_id _).bind ((parses_u64 _).bind (he.bind hg.map)))

/-- **A payload is read back** as what the format carries of its value, and cut short it is an unexpected end. -/
theorem parses_payload {version : UInt8} (hv : 4 ≤ version) {v : Value} (h : v.fits) (hroster : v.rostered) :
    Parses (readValue version v.op) (writePayload v) v.asWritten := by
  cases v with
  | str b => exact (parses_bytes h).map
  | hash fields =>
    obtain ⟨hlen, hall⟩ := (Bool.and_eq_true _ _).mp h
    have hread := (parses_vec hlen fun p hp => parses_pair (all_eq_true.mp hall p hp)).map
      (g := fun ps => Value.hash (.ofList ps))
    rwa [KeyedList.ofList_items] at hread
  | list items =>
    obtain ⟨hlen, hall⟩ := (Bool.and_eq_true _ _).mp h
    exact (parses_vec hlen fun b hb => parses_bytes (all_eq_true.mp hall b hb)).map
  | set members =>
    obtain ⟨hlen, hall⟩ := (Bool.and_eq_true _ _).mp h
    have hread := (parses_vec hlen fun b hb => parses_bytes (all_eq_true.mp hall b hb)).map
      (g := fun ms => Value.set (.ofList (ms.map fun m => (m, ()))))
    have hitems : members.keys.map (fun m => (m, ())) = members.items := by
      rw [KeyedList.keys, map_map]
      exact map_id _
    rwa [hitems, KeyedList.ofList_items] at hread
  | zset members =>
    obtain ⟨hlen, hall⟩ := (Bool.and_eq_true _ _).mp h
    have hread := (parses_vec hlen fun p hp => parses_score (all_eq_true.mp hall p hp)).map
      (g := fun ps => Value.zset (.ofList ps))
    rwa [KeyedList.ofList_items] at hread
  | stream s => exact (parses_stream hv h hroster).map
  | segStub seq weight =>
    have hfits (n : UInt32) : fits32 n.toNat := by
      have := n.toNat_lt
      exact decide_eq_true (by unfold u32Max; omega)
    have hread : Parses (readValue version 8) (writePayload (.segStub seq weight))
        (.segStub (UInt32.ofNat seq.toNat) (UInt32.ofNat weight.toNat)) :=
      (parses_u32 (hfits seq)).bind (parses_u32 (hfits weight)).map
    rwa [UInt32.ofNat_toNat, UInt32.ofNat_toNat] at hread

end Kevy.Snapshot
