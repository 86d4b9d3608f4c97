import Kevy.Lib.KeyedList
import Kevy.Lib.Mesh
import Kevy.Resp.Basic
import Mathlib.Data.List.Dedup

/-!
# Watched keys and transactions

Shards that own keys, connections that live on shards, and the messages between them: `WATCH` collects versions from the
owners, `EXEC` has them checked there and sends the queued commands once every answer is in. What a shard has run is
kept as a log; how long the log was when a version was collected or checked is carried along to speak about it.
-/

namespace Kevy.Watch

open Kevy.Lib Kevy.Resp

/-! ## Writes -/

/-- What a shard runs for a client: a command that is dispatched under one key and may change others of the shard
(`SMOVE`, `MSETNX`, the pops over several keys and scripts once their keys share a shard), an operation that announces
every key it changes, or a flush. -/
inductive Op
  | dispatch (key : Bytes) (others : List Bytes)
  | keys (keys : List Bytes)
  | flush
  deriving DecidableEq, Repr

namespace Op

def changes : Op → Bytes → Bool
  | dispatch key others, k => k == key || others.contains k
  | keys ks, k => ks.contains k
  | flush, _ => true

def bumps : Op → Bytes → Nat
  | dispatch key _, k => if k = key then 1 else 0
  | keys ks, k => ks.count k
  | flush, _ => 1

end Op

/-- A version a connection has collected, when the shard had run `since` operations. -/
structure Watched where
  key : Bytes
  version : UInt64
  since : Nat
  deriving DecidableEq, Repr

/-- A version that was checked, when the shard had run `upto` operations. -/
structure Guard where
  watch : Watched
  upto : Nat
  deriving DecidableEq, Repr

/-- An operation that was run: for which connection, and the versions its transaction had checked. -/
structure Ran where
  op : Op
  conn : Nat
  guards : List Guard
  deriving DecidableEq, Repr

/-- The versions of the keys that were ever watched on a shard, and what it has run. -/
structure Shard where
  versions : KeyedList Bytes UInt64
  log : List Ran

namespace Shard

def new : Shard := ⟨.empty, []⟩

def bumpIfWatched (versions : KeyedList Bytes UInt64) (key : Bytes) : KeyedList Bytes UInt64 :=
  versions.modify key fun v => v + 1

def keyVersion (s : Shard) (key : Bytes) : UInt64 := (s.versions.get key).getD 0

def recordWatch (s : Shard) (key : Bytes) : Shard × Watched :=
  match s.versions.get key with
  | some v => (s, ⟨key, v, s.log.length⟩)
  | none => ({ s with versions := s.versions.insert key 0 }, ⟨key, 0, s.log.length⟩)

/-- `Op::CollectWatchVersions`. -/
def collect (s : Shard) : List Bytes → Shard × List Watched
  | [] => (s, [])
  | key :: keys =>
    let one := s.recordWatch key
    let rest := one.1.collect keys
    (rest.1, one.2 :: rest.2)

/-- `Op::CheckWatch`: whether a version has moved. -/
def check (s : Shard) (pairs : List Watched) : Bool := pairs.any fun w => s.keyVersion w.key != w.version

def guards (s : Shard) (pairs : List Watched) : List Guard := pairs.map fun w => ⟨w, s.log.length⟩

/-- `exec_op` and `run_dispatch`: runs the operation and announces its keys. -/
def run (s : Shard) (op : Op) (conn : Nat) (guards : List Guard) : Shard where
  versions :=
    match op with
    | .dispatch key _ => bumpIfWatched s.versions key
    | .keys ks => ks.foldl bumpIfWatched s.versions
    | .flush => s.versions.mapValues fun v => v + 1
  log := s.log ++ [⟨op, conn, guards⟩]

end Shard

/-! ## Commands -/

/-- A write of a client: of one key, of keys that share a shard and are routed by one of them, of keys anywhere with one
operation for each shard (`DEL`, `MSET`), or of everything. -/
inductive Verb (owner : Bytes → Nat)
  | single (key : Bytes)
  | together (key : Bytes) (others : List Bytes) (shared : ∀ k ∈ others, owner k = owner key)
  | spread (keys : List Bytes)
  | flush

/-- The operations of a write, with the shards they go to. -/
def Verb.targets {owner : Bytes → Nat} (nshards : Nat) : Verb owner → List (Nat × Op)
  | .single key => [(owner key, .dispatch key [])]
  | .together key others _ => [(owner key, .dispatch key others)]
  | .spread keys => (keys.map owner).dedup.map fun s => (s, .keys (keys.filter fun k => owner k == s))
  | .flush => (List.range nshards).map fun s => (s, .flush)

/-- What a client sends. A command that cannot be queued spoils the transaction. -/
inductive Command (owner : Bytes → Nat)
  | watch (keys : List Bytes)
  | unwatch
  | multi
  | discard
  | exec
  | invalid
  | write (verb : Verb owner)

/-- What a connection waits for: versions (`Agg::WatchCollect`), or the answers to its checks (`Agg::ExecPrep`). -/
inductive Waiting (owner : Bytes → Nat)
  | collect (pairs : List Watched) (remaining : Nat)
  | prep (dirty : Bool) (queued : List (Verb owner)) (guards : List Guard) (remaining : Nat)

/-- A connection. While it waits, or replies of a checked transaction are out (`hold`), its input is left alone. -/
structure Conn (owner : Bytes → Nat) where
  watched : List Watched
  multi : Option (List (Verb owner))
  multiDirty : Bool
  waiting : Option (Waiting owner)
  hold : Nat

def Conn.new (owner : Bytes → Nat) : Conn owner := ⟨[], none, false, none, 0⟩

inductive Msg
  | collect (conn : Nat) (keys : List Bytes)
  | versions (conn : Nat) (pairs : List Watched)
  | check (conn : Nat) (pairs : List Watched)
  | checked (conn : Nat) (dirty : Bool) (guards : List Guard)
  | run (conn : Nat) (op : Op) (guards : List Guard)
  | ran (conn : Nat)

/-- All shards and connections, and the messages under way. -/
structure System (owner : Bytes → Nat) where
  shards : Nat → Shard
  conns : Nat → Conn owner
  mesh : Mesh Msg

/-- A command of a client, or the arrival of a message. -/
inductive Step (owner : Bytes → Nat)
  | command (conn : Nat) (cmd : Command owner)
  | deliver (src dst : Nat)

namespace System

variable {owner : Bytes → Nat} (home : Nat → Nat) (nshards : Nat)

def new (owner : Bytes → Nat) : System owner := ⟨fun _ => .new, fun _ => .new owner, .empty⟩

def setConn (S : System owner) (c : Nat) (conn : Conn owner) : System owner :=
  { S with conns := Function.update S.conns c conn }

def setShard (S : System owner) (s : Nat) (shard : Shard) : System owner :=
  { S with shards := Function.update S.shards s shard }

/-- `send_to`. -/
def send (S : System owner) (src dst : Nat) (m : Msg) : System owner := { S with mesh := S.mesh.send src dst m }

def runAt (S : System owner) (s : Nat) (op : Op) (c : Nat) (guards : List Guard) : System owner :=
  S.setShard s ((S.shards s).run op c guards)

/-- One operation of a write: here at once, or sent to its shard. A checked transaction holds for the reply. -/
def startTarget (c : Nat) (guards : List Guard) (S : System owner) (t : Nat × Op) : System owner :=
  if t.1 = home c then S.runAt t.1 t.2 c guards
  else
    let S := S.send (home c) t.1 (.run c t.2 guards)
    if guards.isEmpty then S else S.setConn c { S.conns c with hold := (S.conns c).hold + 1 }

/-- `start_command` of a write. -/
def start (c : Nat) (guards : List Guard) (S : System owner) (verb : Verb owner) : System owner :=
  (verb.targets nshards).foldl (startTarget home c guards) S

def finalizeExecPrep (S : System owner) (c : Nat) (dirty : Bool) (queued : List (Verb owner)) (guards : List Guard) :
    System owner :=
  if dirty then S else queued.foldl (start home nshards c guards) S

def pairsOf (owner : Bytes → Nat) (s : Nat) (pairs : List Watched) : List Watched := pairs.filter fun w => owner w.key == s

def execTransactionWatched (S : System owner) (c : Nat) (queued : List (Verb owner)) (watched : List Watched) :
    System owner :=
  let here := pairsOf owner (home c) watched
  let dirty := (S.shards (home c)).check here
  let guards := (S.shards (home c)).guards here
  let remote := ((watched.map fun w => owner w.key).dedup).filter fun s => s != home c
  if remote.isEmpty then S.finalizeExecPrep home nshards c dirty queued guards
  else
    let S := remote.foldl (fun S s => S.send (home c) s (.check c (pairsOf owner s watched))) S
    S.setConn c { S.conns c with waiting := some (.prep dirty queued guards remote.length) }

def execTransaction (S : System owner) (c : Nat) (queued : List (Verb owner)) : System owner :=
  let conn := S.conns c
  let S := S.setConn c { conn with multi := none, multiDirty := false, watched := [] }
  if conn.multiDirty then S
  else if conn.watched.isEmpty then queued.foldl (start home nshards c []) S
  else S.execTransactionWatched home nshards c queued conn.watched

def doWatch (S : System owner) (c : Nat) (keys : List Bytes) : System owner :=
  let here := (S.shards (home c)).collect (keys.filter fun k => owner k == home c)
  let S := S.setShard (home c) here.1
  let remote := ((keys.map owner).dedup).filter fun s => s != home c
  if remote.isEmpty then S.setConn c { S.conns c with watched := (S.conns c).watched ++ here.2 }
  else
    let S := remote.foldl (fun S s => S.send (home c) s (.collect c (keys.filter fun k => owner k == s))) S
    S.setConn c { S.conns c with waiting := some (.collect here.2 remote.length) }

/-- `handle_txn_state` and `start_command`. -/
def command (S : System owner) (c : Nat) (cmd : Command owner) : System owner :=
  let conn := S.conns c
  if conn.waiting.isSome || conn.hold != 0 then S
  else
    match conn.multi, cmd with
    | none, .watch keys => S.doWatch home c keys
    | none, .unwatch => S.setConn c { conn with watched := [] }
    | none, .multi => S.setConn c { conn with multi := some [], multiDirty := false }
    | none, .write verb => start home nshards c [] S verb
    | none, _ => S
    | some _, .discard => S.setConn c { conn with multi := none, multiDirty := false, watched := [] }
    | some queued, .exec => S.execTransaction home nshards c queued
    | some _, .invalid => S.setConn c { conn with multiDirty := true }
    | some queued, .write verb => S.setConn c { conn with multi := some (queued ++ [verb]) }
    | some _, _ => S

/-- Versions arrive (`fold`, `finalize_watch_collect`). -/
def collected (S : System owner) (c : Nat) (pairs : List Watched) : System owner :=
  let conn := S.conns c
  match conn.waiting with
  | some (.collect sofar remaining) =>
    if remaining ≤ 1 then S.setConn c { conn with watched := conn.watched ++ (sofar ++ pairs), waiting := none }
    else S.setConn c { conn with waiting := some (.collect (sofar ++ pairs) (remaining - 1)) }
  | _ => S

/-- The answer to a check arrives (`fold`, `finalize_watch_agg`). -/
def checkedBack (S : System owner) (c : Nat) (dirty : Bool) (guards : List Guard) : System owner :=
  let conn := S.conns c
  match conn.waiting with
  | some (.prep sofar queued checked remaining) =>
    if remaining ≤ 1 then
      (S.setConn c { conn with waiting := none }).finalizeExecPrep home nshards c (sofar || dirty) queued
        (checked ++ guards)
    else S.setConn c { conn with waiting := some (.prep (sofar || dirty) queued (checked ++ guards) (remaining - 1)) }
  | _ => S

def handle (S : System owner) (src dst : Nat) : Msg → System owner
  | .collect c keys =>
    let got := (S.shards dst).collect keys
    (S.setShard dst got.1).send dst src (.versions c got.2)
  | .check c pairs => S.send dst src (.checked c ((S.shards dst).check pairs) ((S.shards dst).guards pairs))
  | .run c op guards =>
    let S := S.runAt dst op c guards
    if guards.isEmpty then S else S.send dst src (.ran c)
  | .versions c pairs => S.collected c pairs
  | .checked c dirty guards => S.checkedBack home nshards c dirty guards
  | .ran c => S.setConn c { S.conns c with hold := (S.conns c).hold - 1 }

def step (S : System owner) : Step owner → System owner
  | .command c cmd => S.command home nshards c cmd
  | .deliver src dst =>
    match S.mesh src dst with
    | [] => S
    | m :: _ => ({ S with mesh := S.mesh.pop src dst }).handle home nshards src dst m

def exec (S : System owner) (steps : List (Step owner)) : System owner := steps.foldl (step home nshards) S

end System

end Kevy.Watch
