import Kevy.Persist.StageRecover

/-!
# A log that stages its appends

The log file and its staging ring are two stores, written one step at a time: `DiskStep` is one write to the
log or one store into the mapping. Each operation of the log is the row of steps it makes, and a kill stops
it behind any of them, or inside one. The next open replays the log, cuts its unsettled tail, adopts what the
ring owes and creates a fresh ring header.

`Next` puts these together: a system is a running log or the files a kill left, and its `Ledger` is what the
log's callers were told.
-/

namespace Kevy.Persist

open Kevy.Lib Kevy.Resp

/-! ## The two files -/

structure StageDisk where
  log : Bytes
  ring : Option RingFile

inductive DiskStep
  | write (bytes : Bytes)
  | setLen (n : Nat)
  | ring (s : RingStore)
  | emptyRing
  | zeroRing (cap : Nat)

namespace StageDisk

def step : DiskStep → StageDisk → StageDisk
  | .write bytes, d => { d with log := d.log ++ bytes }
  | .setLen n, d => { d with log := d.log.take n }
  | .ring s, d => { d with ring := d.ring.map (RingFile.store s) }
  | .emptyRing, d => { d with ring := none }
  | .zeroRing cap, d => { d with ring := some (.zeros cap) }

/-- A step cut by a kill. A ring file that is not written through yet is too short to be one. -/
def torn : DiskStep → Nat → StageDisk → StageDisk
  | .write bytes, k, d => { d with log := d.log ++ bytes.take k }
  | .ring s, k, d => { d with ring := d.ring.map (RingFile.tornStore s k) }
  | _, _, d => d

def after (d : StageDisk) (steps : List DiskStep) : StageDisk := runAll step steps d

/-! ## Writing -/

def push (d : StageDisk) (record : Bytes) : Option (List DiskStep) :=
  d.ring.bind fun r => (r.push record).map fun stores => stores.map .ring

/-- `Aof::drain_stage`. -/
def drain (d : StageDisk) : List DiskStep :=
  match d.ring with
  | none => []
  | some r =>
    let runs := r.pendingRuns
    let log := d.log ++ runs.flatten
    let id := r.head.logId
    -- the id grows with a young log
    let id := if id / 2 ^ 32 < min idSpan log.length then logId log (min log.length idSpan) else id
    runs.map .write ++ (r.publish ⟨id, log.length, r.commit⟩).map .ring

/-- A record that goes to the file instead of the ring, and `stage_bypassed`. -/
def bypass (d : StageDisk) (record : Bytes) : List DiskStep :=
  match d.ring with
  | none => []
  | some r =>
    let (id, len) := identity (d.log ++ record)
    .write record :: (r.publish ⟨id, len, r.commit⟩).map .ring

/-! ## Opening -/

def settledLog (d : StageDisk) : Bytes := repairTail d.log false

/-- What `recover_stage` adopts. -/
def adopted (d : StageDisk) : List Argv × List Bytes := adopt (owed d.settledLog d.ring)

/-- Everything an open delivers: the replay of the log, then what is adopted from the ring. -/
def delivered (d : StageDisk) : List Argv := (streamV2 d.log false).frames ++ d.adopted.1

/-- `Aof::open` and `Aof::recover_stage`: the tail is cut, the adopted records are appended. -/
def settle (d : StageDisk) : List DiskStep := .setLen d.settledLog.length :: d.adopted.2.map .write

/-- `StageRing::create` next to the log: a file of another size is written through with zeros first. -/
def create (d : StageDisk) (cap : Nat) : List DiskStep :=
  let (id, len) := identity d.log
  let fresh := [.emptyRing, .zeroRing cap]
  (match d.ring with
    | some r => if r.cap = cap then [] else fresh
    | none => fresh) ++ (RingFile.create cap id len).map .ring

end StageDisk

/-! ## A running log -/

/-- An open log that stages: `always` is `Fsync::Always`. -/
structure StagedLog where
  disk : StageDisk
  always : Bool
  inTxn : Bool
  overflow : Bool

inductive StageOp
  | append (args : List Bytes)
  | beginGroup
  | endGroup
  | drain
  deriving DecidableEq, Repr

namespace StagedLog

/-- `Aof::stage_record`, and the bypass when it refuses: the steps made, and the overflow flag behind them. -/
def record (s : StagedLog) (record : Bytes) : List DiskStep × Bool :=
  if s.always ∨ s.overflow then (s.disk.bypass record, s.overflow)
  else
    match s.disk.push record with
    | some steps => (steps, s.overflow)
    | none =>
      let drained := s.disk.after s.disk.drain
      -- inside a transaction a drain sends the rest of it to the file
      if s.inTxn then (s.disk.drain ++ drained.bypass record, true)
      else
        match drained.push record with
        | some steps => (s.disk.drain ++ steps, false)
        | none => (s.disk.drain ++ drained.bypass record, false)

def frame (s : StagedLog) : StageOp → Option (List Bytes)
  | .append args => some args
  | .beginGroup => some [txnBegin]
  | .endGroup => if s.inTxn then some [txnCommit] else none
  | .drain => none

def steps (s : StagedLog) (op : StageOp) : List DiskStep :=
  match s.frame op with
  | some c => (s.record (writeRecordMultibulk c)).1
  | none => if op = .drain then s.disk.drain else []

def apply (s : StagedLog) (op : StageOp) : StagedLog :=
  let disk := s.disk.after (s.steps op)
  match op with
  | .append args => { s with disk, overflow := (s.record (writeRecordMultibulk args)).2 }
  | .beginGroup => { s with disk, overflow := (s.record (writeRecordMultibulk [txnBegin])).2, inTxn := true }
  | .endGroup => if s.inTxn then { s with disk, inTxn := false, overflow := false } else { s with disk }
  | .drain => { s with disk, overflow := s.overflow || s.inTxn }

/-- `Aof::open` and `Aof::open_stage`. -/
def reopen (d : StageDisk) (cap : Nat) (always : Bool) : StagedLog :=
  let d := d.after d.settle
  { disk := d.after (d.create cap), always, inTxn := false, overflow := false }

end StagedLog

/-! ## The system -/

/-- What the callers of a log know: the commands that must be replayed, and those of the open group. -/
structure Ledger where
  settled : List Argv
  txn : Option (List Argv)
  deriving DecidableEq, Repr

def Ledger.apply (l : Ledger) : StageOp → Ledger
  | .append args =>
    match l.txn with
    | none => { l with settled := l.settled ++ [Argv.ofArgs args] }
    | some cmds => { l with txn := some (cmds ++ [Argv.ofArgs args]) }
  | .beginGroup => { l with txn := some [] }
  | .endGroup => ⟨l.settled ++ l.txn.getD [], none⟩
  | .drain => l

/-- A log that runs, or what a kill left of it: `returned` is the ledger without the operation the kill cut
short, `inFlight` the ledger with it. -/
inductive StageSystem
  | up (ledger : Ledger) (log : StagedLog)
  | down (returned inFlight : Ledger) (disk : StageDisk)

inductive StageEvent
  | run (op : StageOp)
  | kill (op : StageOp)
  | killSettle
  | killCreate (cap stores : Nat)
  | reopen (cap : Nat) (always : Bool)

/-- A capacity `StageRing::create` takes. -/
def RingCap (cap : Nat) : Prop := cap.isPowerOfTwo ∧ 64 * 1024 ≤ cap

/-- What the callers keep to: commands are frames a replay can read and not markers, groups do not nest. -/
def Legal (s : StagedLog) : StageOp → Prop
  | .append args => CommandOk args
  | .beginGroup => s.inTxn = false
  | _ => True

/-- One thing that happens: an operation returns or is cut by a kill, an open is cut while it settles the log
or while it creates the ring, or it finishes. -/
inductive Next : StageSystem → StageEvent → StageSystem → Prop
  | run {l s op} : Legal s op → Next (.up l s) (.run op) (.up (l.apply op) (s.apply op))
  | kill {l s op d} : Legal s op → Crashes StageDisk.step StageDisk.torn (s.steps op) s.disk d →
    Next (.up l s) (.kill op) (.down l (l.apply op) d)
  | killSettle {l l' d d'} : Crashes StageDisk.step StageDisk.torn d.settle d d' →
    Next (.down l l' d) .killSettle (.down l l' d')
  | killCreate {l l' d cap stores} : RingCap cap →
    Next (.down l l' d) (.killCreate cap stores)
      (.down l l' ((d.after d.settle).after (((d.after d.settle).create cap).take stores)))
  | reopen {l l' d cap always} : RingCap cap →
    Next (.down l l' d) (.reopen cap always) (.up ⟨d.delivered, none⟩ (StagedLog.reopen d cap always))

end Kevy.Persist
