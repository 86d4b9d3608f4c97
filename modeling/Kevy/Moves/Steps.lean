import Kevy.Resp.Basic
import Mathlib.Data.Finset.Card

/-!
# Moves between shards

`RENAME`, `RENAMENX`, `LMOVE` and `SMOVE` over keys of two shards. The connection's shard sends one operation at a time,
each is run by the shard that owns its key, and the answer decides the next one or the reply. Between two operations
anything may happen to the keys and to the clock.
-/

namespace Kevy.Moves

open Kevy.Resp

/-! ## The keyspace -/

/-- A value: a list, a set, or anything a list or set command refuses. -/
inductive Value
  | list (elements : List Bytes)
  | set (members : Finset Bytes)
  | other (data : Bytes)
  deriving DecidableEq

/-- What a key holds. The deadlines of single hash fields are kept beside the value. -/
structure Entry where
  value : Value
  expireAtNs : Option Nat
  fieldDeadlines : List (Bytes × Nat)
  deriving DecidableEq

/-- The keys of every shard, each with its owner, and the clock in nanoseconds. -/
structure Keyspace where
  now : Nat
  data : Bytes → Option Entry

namespace Entry

def fresh (v : Value) : Entry := ⟨v, none, []⟩

def isExpiredAt (e : Entry) (now : Nat) : Bool := e.expireAtNs.any (· ≤ now)

def NoDeadlines (e : Entry) : Prop := e.expireAtNs = none ∧ e.fieldDeadlines = []

end Entry

def remainingMs (deadline now : Nat) : Nat := (deadline - now) / 1000000

def deadlineAt (now ttlMs : Nat) : Nat := min (now + min (ttlMs * 1000000) (2 ^ 64 - 1)) (2 ^ 64 - 1)

namespace Keyspace

/-- What a command finds under the key: an entry past its deadline is reaped first. -/
def live (ks : Keyspace) (key : Bytes) : Option Entry := (ks.data key).filter fun e => !e.isExpiredAt ks.now

def place (ks : Keyspace) (key : Bytes) (entry : Option Entry) : Keyspace :=
  { ks with data := Function.update ks.data key entry }

/-- `take_with_ttl`: the value leaves with its remaining milliseconds, and what was kept beside it goes. -/
def takeWithTtl (ks : Keyspace) (key : Bytes) : Option (Value × Option Nat) × Keyspace :=
  match ks.live key with
  | none => (none, ks)
  | some e => (some (e.value, e.expireAtNs.map fun at' => remainingMs at' ks.now), ks.place key none)

def putWithTtl (ks : Keyspace) (key : Bytes) (value : Value) (ttlMs : Option Nat) : Keyspace :=
  ks.place key (some ⟨value, ttlMs.map (deadlineAt ks.now), []⟩)

/-- `lpush` and `rpush` of one element; nothing under a key of another kind. -/
def push (ks : Keyspace) (key : Bytes) (left : Bool) (x : Bytes) : Option Keyspace :=
  match ks.live key with
  | none => some (ks.place key (some (.fresh (.list [x]))))
  | some e =>
    match e.value with
    | .list xs => some (ks.place key (some { e with value := .list (if left then x :: xs else xs ++ [x]) }))
    | _ => none

/-- The entry with what is left of its list; a list that has run empty takes its key along. -/
def ofList (e : Entry) (xs : List Bytes) : Option Entry := if xs = [] then none else some { e with value := .list xs }

def ofSet (e : Entry) (ms : Finset Bytes) : Option Entry := if ms = ∅ then none else some { e with value := .set ms }

/-- `lpop` and `rpop` of one element; nothing under a key of another kind. -/
def pop (ks : Keyspace) (key : Bytes) (left : Bool) : Option (Option Bytes × Keyspace) :=
  match ks.live key with
  | none => some (none, ks)
  | some e =>
    match e.value with
    | .list xs =>
      match if left then xs.head? else xs.getLast? with
      | none => some (none, ks)
      | some x => some (some x, ks.place key (ofList e (if left then xs.tail else xs.dropLast)))
    | _ => none

def scard (ks : Keyspace) (key : Bytes) : Option Nat :=
  match ks.live key with
  | none => some 0
  | some e =>
    match e.value with
    | .set ms => some ms.card
    | _ => none

def srem (ks : Keyspace) (key member : Bytes) : Bool × Keyspace :=
  match ks.live key with
  | none => (false, ks)
  | some e =>
    match e.value with
    | .set ms => if member ∈ ms then (true, ks.place key (ofSet e (ms.erase member))) else (false, ks)
    | _ => (false, ks)

def sadd (ks : Keyspace) (key member : Bytes) : Option Keyspace :=
  match ks.live key with
  | none => some (ks.place key (some (.fresh (.set {member}))))
  | some e =>
    match e.value with
    | .set ms => some (ks.place key (some { e with value := .set (insert member ms) }))
    | _ => none

end Keyspace

/-! ## A move and its steps -/

inductive Kind
  | rename (nx : Bool)
  | list (fromLeft toLeft : Bool)
  | set (member : Bytes)
  deriving DecidableEq

/-- The command and its two keys, of different shards. -/
structure Plan where
  kind : Kind
  src : Bytes
  dst : Bytes
  src_ne_dst : src ≠ dst

inductive Reply
  /-- `+OK` -/
  | ok
  /-- `:1` -/
  | one
  /-- `:0` -/
  | zero
  /-- `$-1` -/
  | nil
  /-- the moved element -/
  | bulk (element : Bytes)
  /-- `-ERR no such key` -/
  | noSuchKey
  /-- `-WRONGTYPE Operation against a key holding the wrong kind of value` -/
  | wrongType
  deriving DecidableEq

def Reply.refuses : Reply → Bool
  | .ok | .one | .bulk _ => false
  | .zero | .nil | .noSuchKey | .wrongType => true

/-- The operation that is on its way, with what travels along; at last the reply. -/
inductive Stage
  | renameTake
  | renamePut (value : Value) (ttlMs : Option Nat)
  | renameRestore (value : Value) (ttlMs : Option Nat)
  | listTake
  | listPush (element : Bytes)
  | listRestore (element : Bytes)
  | setCheck
  | setTake (dstIsSet : Bool)
  | setPut
  | setPutBack
  | answered (reply : Reply)
  deriving DecidableEq

/-- A move among everything else. What the source held before the take and after it is kept to speak about it. -/
structure State where
  keys : Keyspace
  stage : Stage
  held : Option Entry
  left : Option Entry

def Plan.first (p : Plan) : Stage :=
  match p.kind with
  | .rename _ => .renameTake
  | .list _ _ => .listTake
  | .set _ => .setCheck

def Plan.start (p : Plan) (ks : Keyspace) : State := ⟨ks, p.first, none, none⟩

namespace State

def taking (s : State) (p : Plan) (ks : Keyspace) (next : Stage) : State :=
  ⟨ks, next, s.keys.live p.src, ks.live p.src⟩

/-- The step changed the keys, if at all, and took nothing. -/
def going (s : State) (ks : Keyspace) (next : Stage) : State := { s with keys := ks, stage := next }

/-- `Op::RenameTake`, then `advance_rename_to_put`. -/
def renameTake (s : State) (p : Plan) : State :=
  match s.keys.takeWithTtl p.src with
  | (none, ks) => s.going ks (.answered .noSuchKey)
  | (some (value, ttlMs), ks) => s.taking p ks (.renamePut value ttlMs)

/-- `Op::RenamePut` on the destination, then `finish_rename_put`. -/
def renamePut (s : State) (p : Plan) (nx : Bool) (value : Value) (ttlMs : Option Nat) : State :=
  if nx && (s.keys.live p.dst).isSome then s.going s.keys (.renameRestore value ttlMs)
  else s.going (s.keys.putWithTtl p.dst value ttlMs) (.answered (if nx then .one else .ok))

/-- `op_list_move_take`, then `after_take`. -/
def listTake (s : State) (p : Plan) (fromLeft : Bool) : State :=
  match s.keys.pop p.src fromLeft with
  | none => s.going s.keys (.answered .wrongType)
  | some (none, ks) => s.going ks (.answered .nil)
  | some (some x, ks) => s.taking p ks (.listPush x)

/-- `op_list_move_push`, then `after_push`. -/
def listPush (s : State) (p : Plan) (toLeft : Bool) (x : Bytes) : State :=
  match s.keys.push p.dst toLeft x with
  | some ks => s.going ks (.answered (.bulk x))
  | none => s.going s.keys (.listRestore x)

/-- `op_set_move_take`, then `set_move_next`. -/
def setTake (s : State) (p : Plan) (member : Bytes) (dstIsSet : Bool) : State :=
  match s.keys.scard p.src with
  | some 0 => s.going s.keys (.answered .zero)
  | none => s.going s.keys (.answered .wrongType)
  | some _ =>
    if dstIsSet then
      match s.keys.srem p.src member with
      | (true, ks) => s.taking p ks .setPut
      | (false, ks) => s.going ks (.answered .zero)
    else s.going s.keys (.answered .wrongType)

/-- `op_set_move_put` on the destination, then `set_move_next`. -/
def setPut (s : State) (p : Plan) (member : Bytes) : State :=
  match s.keys.sadd p.dst member with
  | some ks => s.going ks (.answered .one)
  | none => s.going s.keys .setPutBack

/-- The operation on its way is run by the owner of its key, and the connection's shard has its answer. -/
def advance (s : State) (p : Plan) : State :=
  match p.kind, s.stage with
  | .rename _, .renameTake => s.renameTake p
  | .rename nx, .renamePut value ttlMs => s.renamePut p nx value ttlMs
  -- the source is put without asking what stands there by now
  | .rename _, .renameRestore value ttlMs => s.going (s.keys.putWithTtl p.src value ttlMs) (.answered .zero)
  | .list fromLeft _, .listTake => s.listTake p fromLeft
  | .list _ toLeft, .listPush x => s.listPush p toLeft x
  -- whether the source took the element back is not looked at
  | .list fromLeft _, .listRestore x =>
    s.going ((s.keys.push p.src fromLeft x).getD s.keys) (.answered .wrongType)
  | .set _, .setCheck => s.going s.keys (.setTake (s.keys.scard p.dst).isSome)
  | .set member, .setTake dstIsSet => s.setTake p member dstIsSet
  | .set member, .setPut => s.setPut p member
  | .set member, .setPutBack => s.going ((s.keys.sadd p.src member).getD s.keys) (.answered .wrongType)
  | _, _ => s

end State

/-- What happens next: the move goes one step on, or others change the keys, or time passes. -/
inductive Event
  | advance
  | others (change : Keyspace → Keyspace)

def State.step (p : Plan) (s : State) : Event → State
  | .advance => s.advance p
  | .others change => { s with keys := change s.keys }

def Plan.run (p : Plan) (ks : Keyspace) (events : List Event) : State := events.foldl (State.step p) (p.start ks)

end Kevy.Moves
