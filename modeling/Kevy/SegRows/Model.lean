import Kevy.Lib.KeyedList
import Mathlib.Data.List.Sort

/-!
# Row segments of a shard

Rows that fall out of a table's window are sealed into an immutable segment and become stubs in the keyspace. The log
says so with a `SEGMENTED` frame that names the segment. A restart loads the segments of the manifest, the snapshot and
the log, and sweeps the segments that no stub refers to.
-/

namespace Kevy.SegRows

open Kevy.Lib

variable {K T V O : Type}

/-- `Value`: a row (a hash in any of its forms), another type, or a stub of a row segment. -/
inductive Value (V O : Type)
  | row (v : V)
  | other (o : O)
  | cold (seq : Nat)
  deriving DecidableEq, Repr

/-- The file name of a row segment, `row-<table>-<seq>.seg`. -/
structure SegName (T : Type) where
  table : T
  seq : Nat
  deriving DecidableEq, Repr

/-- `SegSlot`: a segment that the manifest holds, with its records. -/
structure SegSlot (K T V : Type) where
  file : SegName T
  records : List (K × V)
  deriving DecidableEq, Repr

/-- What stops a shard: a frame that names a segment the manifest does not hold (`NotInManifest`), or a stub whose
segment is not loaded or does not hold its key, on which the process panics. -/
inductive Fault (K T : Type)
  | notInManifest (file : SegName T)
  | unloaded (seq : Nat)
  | missing (key : K) (seq : Nat)
  deriving DecidableEq, Repr

/-- `Store`, with its row segments; the manifest and the files are those of `segs`. -/
structure Store (K T V O : Type) where
  map : KeyedList K (Value V O)
  segs : List (SegSlot K T V)
  seq : Nat

namespace Store

section Reads

variable [DecidableEq K]

/-- `SegRows::read`. -/
def segrowRead (s : Store K T V O) (seq : Nat) (key : K) : Except (Fault K T) V :=
  match s.segs.find? fun slot => slot.file.seq = seq with
  | none => .error (.unloaded seq)
  | some slot =>
    match slot.records.find? fun r => r.1 = key with
    | none => .error (.missing key seq)
    | some r => .ok r.2

/-- What a read of a key gives: the row, wherever it is, or the value of another type. -/
def read (s : Store K T V O) (key : K) : Except (Fault K T) (Option (V ⊕ O)) :=
  match s.map.get key with
  | none => .ok none
  | some (.row v) => .ok (some (.inl v))
  | some (.other o) => .ok (some (.inr o))
  | some (.cold seq) => (s.segrowRead seq key).map fun v => some (.inl v)

/-! ## Commands -/

def setRow (s : Store K T V O) (key : K) : Option V → Store K T V O
  | none => { s with map := s.map.erase key }
  | some v => { s with map := s.map.insert key (.row v) }

/-- A write to a row, by what it makes of the row that was there. A stub is promoted first; a key of another type is
refused. -/
def writeRow (s : Store K T V O) (key : K) (f : Option V → Option V) : Except (Fault K T) (Store K T V O) :=
  match s.map.get key with
  | none => .ok (s.setRow key (f none))
  | some (.row v) => .ok (s.setRow key (f (some v)))
  | some (.other _) => .ok s
  | some (.cold seq) => (s.segrowRead seq key).map fun v => s.setRow key (f (some v))

/-- A write of another type over whatever was there. -/
def set (s : Store K T V O) (key : K) (o : O) : Store K T V O := { s with map := s.map.insert key (.other o) }

def del (s : Store K T V O) (key : K) : Store K T V O := { s with map := s.map.erase key }

/-- `flushall`, with `segrows_flush`. -/
def flushall (s : Store K T V O) : Store K T V O := { s with map := .empty, segs := [] }

/-! ## Evictions -/

def demoteRowToSeg (s : Store K T V O) (seq : Nat) (key : K) : Store K T V O :=
  match s.map.get key with
  | some (.row _) => { s with map := s.map.insert key (.cold seq) }
  | _ => s

def evictable (s : Store K T V O) (keys : List K) : List (K × V) :=
  keys.filterMap fun key =>
    match s.map.get key with
    | some (.row v) => some (key, v)
    | _ => none

end Reads

variable [LinearOrder K]

/-- `seal_rows_to_seg`: no row to seal, or the segment and the keys it holds, or a batch the segment builder refuses
(a key twice, or one that has no room in a page), which has used up its number. -/
def sealRowsToSeg (fits : K → Bool) (s : Store K T V O) (table : T) (keys : List K) :
    Store K T V O × Option (SegName T × List K) :=
  let rows := s.evictable keys
  if rows = [] then (s, none)
  else
    let rows := rows.insertionSort fun a b => a.1 ≤ b.1
    let file : SegName T := ⟨table, s.seq⟩
    let s := { s with seq := s.seq + 1 }
    if (rows.map Prod.fst).Nodup ∧ ∀ r ∈ rows, fits r.1 then
      ({ s with segs := s.segs ++ [⟨file, rows⟩] }, some (file, rows.map Prod.fst))
    else (s, none)

def commitRowEviction (s : Store K T V O) (file : SegName T) (keys : List K) : Store K T V O :=
  keys.foldl (fun s key => s.demoteRowToSeg file.seq key) s

/-! ## Replay -/

/-- What `apply_segmented` does to one record. -/
def stitch (s : Store K T V O) (seq : Nat) (key : K) : Store K T V O :=
  match s.map.get key with
  | some (.row _) => s.demoteRowToSeg seq key
  | none => { s with map := s.map.insert key (.cold seq) }
  | some (.cold _) | some (.other _) => s

def applySegmented [DecidableEq T] (s : Store K T V O) (file : SegName T) : Except (Fault K T) (Store K T V O) :=
  match s.segs.find? fun slot => slot.file = file with
  | none => .error (.notInManifest file)
  | some slot => .ok (slot.records.foldl (fun s r => s.stitch file.seq r.1) s)

end Store

/-! ## The log -/

inductive Frame (K T V O : Type)
  | row (key : K) (f : Option V → Option V)
  | set (key : K) (o : O)
  | del (key : K)
  | flushall
  | segmented (file : SegName T)

namespace Store

variable [LinearOrder K] [DecidableEq T]

def applyFrame (s : Store K T V O) : Frame K T V O → Except (Fault K T) (Store K T V O)
  | .row key f => s.writeRow key f
  | .set key o => .ok (s.set key o)
  | .del key => .ok (s.del key)
  | .flushall => .ok s.flushall
  | .segmented file => s.applySegmented file

def replay (s : Store K T V O) : List (Frame K T V O) → Except (Fault K T) (Store K T V O)
  | [] => .ok s
  | frame :: frames =>
    match s.applyFrame frame with
    | .error e => .error e
    | .ok s => s.replay frames

/-- `enable_seg_rows` on a fresh store: the segments of the manifest, and the next number. -/
def enableSegRows (segs : List (SegSlot K T V)) : Store K T V O :=
  ⟨.empty, segs, segs.foldl (fun seq slot => max seq (slot.file.seq + 1)) 0⟩

/-- `sweep_orphan_row_segs`: the segments some stub refers to. -/
def sweepOrphanRowSegs (s : Store K T V O) : Store K T V O :=
  { s with segs := s.segs.filter fun slot => s.map.items.any fun e =>
      match e.2 with
      | .cold seq => seq = slot.file.seq
      | _ => false }

/-! ## The rewrite -/

/-- One more entry of the keyspace, for the segments that are named. -/
def noteCold (seqs : List Nat) (e : K × Value V O) : List Nat :=
  match e.2 with
  | .cold seq => if seqs.contains seq then seqs else seqs ++ [seq]
  | _ => seqs

/-- The segments the stubs of the keyspace refer to, in the order they are met. -/
def coldSeqs (entries : List (K × Value V O)) : List Nat := entries.foldl noteCold []

def hotFrames (entries : List (K × Value V O)) : List (Frame K T V O) :=
  entries.filterMap fun e =>
    match e.2 with
    | .row v => some (.row e.1 fun _ => some v)
    | .other o => some (.set e.1 o)
    | .cold _ => none

/-- `write_segmented_frames`. -/
def segmentedFrames (s : Store K T V O) : List Nat → Except Nat (List (Frame K T V O))
  | [] => .ok []
  | seq :: seqs =>
    match s.segs.find? fun slot => slot.file.seq = seq with
    | none => .error seq
    | some slot => (s.segmentedFrames seqs).map (.segmented slot.file :: ·)

/-- `dump_aof` over the entries of the keyspace in the order they are iterated; an error is a stub of an unknown
segment. -/
def dumpAof (s : Store K T V O) (entries : List (K × Value V O)) : Except Nat (List (Frame K T V O)) :=
  (s.segmentedFrames (coldSeqs entries)).map (hotFrames entries ++ ·)

end Store

/-! ## The shard -/

/-- A command of a client, or a step of the window. -/
inductive Command (K T V O : Type)
  | row (key : K) (f : Option V → Option V)
  | set (key : K) (o : O)
  | del (key : K)
  | evict (table : T) (keys : List K)

inductive Step (K T V O : Type)
  | command (c : Command K T V O)
  | flushall
  | save
  | restart

/-- A shard: its store, and on disk its last snapshot and the log since. -/
structure Shard (K T V O : Type) where
  store : Store K T V O
  snapshot : KeyedList K (Value V O)
  log : List (Frame K T V O)

namespace Shard

variable [LinearOrder K] [DecidableEq T]

def fresh : Shard K T V O := ⟨.enableSegRows [], .empty, []⟩

def command (fits : K → Bool) (sh : Shard K T V O) : Command K T V O → Except (Fault K T) (Shard K T V O)
  | .row key f => (sh.store.writeRow key f).map fun store => { sh with store, log := sh.log ++ [.row key f] }
  | .set key o => .ok { sh with store := sh.store.set key o, log := sh.log ++ [.set key o] }
  | .del key => .ok { sh with store := sh.store.del key, log := sh.log ++ [.del key] }
  | .evict table keys =>
    match sh.store.sealRowsToSeg fits table keys with
    | (store, none) => .ok { sh with store }
    | (store, some (file, keys)) =>
      -- the frame is logged between the seal and the commit
      .ok { sh with store := store.commitRowEviction file keys, log := sh.log ++ [.segmented file] }

/-- The store before the log is replayed: the segments of the manifest and the snapshot. -/
def loaded (sh : Shard K T V O) : Store K T V O :=
  let enabled : Store K T V O := .enableSegRows sh.store.segs
  { enabled with map := sh.snapshot }

def restart (sh : Shard K T V O) : Except (Fault K T) (Shard K T V O) :=
  (sh.loaded.replay sh.log).map fun store => { sh with store := store.sweepOrphanRowSegs }

def step (fits : K → Bool) (sh : Shard K T V O) : Step K T V O → Except (Fault K T) (Shard K T V O)
  | .command c => sh.command fits c
  | .flushall => .ok { sh with store := sh.store.flushall, log := sh.log ++ [.flushall] }
  | .save => .ok { sh with snapshot := sh.store.map, log := [] }
  | .restart => sh.restart

def run (fits : K → Bool) (sh : Shard K T V O) : List (Step K T V O) → Except (Fault K T) (Shard K T V O)
  | [] => .ok sh
  | s :: steps =>
    match sh.step fits s with
    | .error e => .error e
    | .ok sh => sh.run fits steps

end Shard

end Kevy.SegRows
