import Kevy.Atomic.Cell
import Kevy.Lib.UndoLog
import Kevy.Replicate.Wire

/-!
# Transactions of the embedded store

`atomic` runs a closure over one shard, `atomic_all_shards` over all of them. A writing method first records what its
key held, then writes, then queues its log frame. A closure that ends with an error is undone from the records; one that
ends well has its frames appended to the logs.
-/

namespace Kevy.Atomic

open Kevy.Lib Kevy.Resp Kevy.Store Kevy.Replicate

/-- Which of the two contexts: over one shard, or over all of them with the routing of keys. -/
inductive Scope
  | shard
  | allShards (idx : Bytes → Nat)

def Scope.idx : Scope → Bytes → Nat
  | .shard, _ => 0
  | .allShards idx, key => idx key

abbrev Addr := Nat × Bytes

def Scope.addr (scope : Scope) (key : Bytes) : Addr := (scope.idx key, key)

abbrev Stores := Addr → Cell

abbrev Frame := List Bytes

/-- `UndoEntry`: where, and what was there before (`none`: no key). -/
abbrev UndoEntry := Addr × Option (Value × Option Nat)

/-- `AtomicCtx` and `AtomicAllShards`. -/
structure Ctx where
  stores : Stores
  log : List (Nat × Frame)
  undo : List UndoEntry
  touched : List Bytes

/-- The writing conditions of `ZADD`. -/
inductive SetCondition
  | always
  | ifAbsent
  | ifPresent
  deriving DecidableEq, Repr

inductive ScoreCompare
  | any
  | greater
  | less
  deriving DecidableEq, Repr

structure ZaddFlags where
  condition : SetCondition
  compare : ScoreCompare
  deriving DecidableEq, Repr

structure ZaddReport where
  added : Nat := 0
  changed : Nat := 0
  applied : List (UInt64 × Bytes) := []
  deriving DecidableEq, Repr

def ZaddFlags.vetoesUpdate (scores : Scores) (flags : ZaddFlags) (old new : UInt64) : Bool :=
  flags.condition = .ifAbsent ||
    match flags.compare with
    | .greater => scores.le new old
    | .less => scores.le old new
    | .any => false

def Cell.zaddFlags (clock : Clock) (scores : Scores) (flags : ZaddFlags) :
    List (UInt64 × Bytes) → ZaddReport → Cell → Except Error ZaddReport × Cell
  | [], rep, c => (.ok rep, c)
  | (score, m) :: pairs, rep, c =>
    match c.zscore clock m with
    | .error e => (.error e, c.reap clock)
    | .ok (some old) =>
      if flags.vetoesUpdate scores old score || scores.eq score old then
        Cell.zaddFlags clock scores flags pairs rep (c.reap clock)
      else
        match (c.reap clock).zadd clock [(score, m)] with
        | (.error e, c) => (.error e, c)
        | (.ok _, c) =>
          Cell.zaddFlags clock scores flags pairs
            { rep with changed := rep.changed + 1, applied := rep.applied ++ [(score, m)] } c
    | .ok none =>
      if flags.condition = .ifPresent then Cell.zaddFlags clock scores flags pairs rep (c.reap clock)
      else
        match (c.reap clock).zadd clock [(score, m)] with
        | (.error e, c) => (.error e, c)
        | (.ok _, c) =>
          Cell.zaddFlags clock scores flags pairs
            { added := rep.added + 1, changed := rep.changed + 1, applied := rep.applied ++ [(score, m)] } c

namespace Ctx

def snap (clock : Clock) (scope : Scope) (key : Bytes) (ctx : Ctx) : Ctx :=
  if ctx.touched.contains key then ctx
  else
    let addr := scope.addr key
    { ctx with
      stores := Function.update ctx.stores addr ((ctx.stores addr).reap clock)
      undo := ctx.undo ++ [(addr, (ctx.stores addr).cloneWithTtl clock)]
      touched := ctx.touched ++ [key] }

def logArg (idx : Nat) (frame : Frame) (ctx : Ctx) : Ctx := { ctx with log := ctx.log ++ [(idx, frame)] }

def apply {α : Type} (scope : Scope) (key : Bytes) (f : Cell → Except Error α × Cell) (frame : α → Option Frame)
    (ctx : Ctx) : Except Error α × Ctx :=
  let (r, c) := f (ctx.stores (scope.addr key))
  let ctx := { ctx with stores := Function.update ctx.stores (scope.addr key) c }
  match r with
  | .error e => (.error e, ctx)
  | .ok a => (.ok a, (frame a).elim ctx fun fr => ctx.logArg (scope.idx key) fr)

def write (clock : Clock) (scope : Scope) (key : Bytes) (f : Cell → Except Error Nat × Cell)
    (frame : Nat → Option Frame) (ctx : Ctx) : Except Error Nat × Ctx :=
  (ctx.snap clock scope key).apply scope key f frame

/-! ## Methods -/

variable (clock : Clock) (scope : Scope) (scores : Scores)

def ifAny (frame : Frame) (n : Nat) : Option Frame := if 0 < n then some frame else none

def set (key value : Bytes) : Ctx → Except Error Nat × Ctx :=
  write clock scope key (fun c => (.ok 1, c.set clock value)) fun _ => some [word "SET", key, value]

def incr (key : Bytes) : Ctx → Except Error Nat × Ctx :=
  write clock scope key (Cell.update clock (incrValue 1)) fun _ => some [word "INCR", key]

def incrBy (key : Bytes) (delta : Int) : Ctx → Except Error Nat × Ctx :=
  write clock scope key (Cell.update clock (incrValue delta)) fun _ => some [word "INCRBY", key, intText delta]

def hset (key : Bytes) (pairs : List (Bytes × Bytes)) : Ctx → Except Error Nat × Ctx :=
  write clock scope key (Cell.hset clock pairs) fun _ =>
    some (word "HSET" :: key :: pairs.flatMap fun p => [p.1, p.2])

def hincrby (key field : Bytes) (delta : Int) : Ctx → Except Error Nat × Ctx :=
  write clock scope key (Cell.hincrby clock field delta) fun _ =>
    some [word "HINCRBY", key, field, intText delta]

def zaddFrame (key : Bytes) (pairs : List (UInt64 × Bytes)) : Frame :=
  word "ZADD" :: key :: pairs.flatMap fun p => [scores.text p.1, p.2]

def zadd (key : Bytes) (pairs : List (UInt64 × Bytes)) : Ctx → Except Error Nat × Ctx :=
  write clock scope key (Cell.zadd clock pairs) fun _ => some (zaddFrame scores key pairs)

def zincrby (key : Bytes) (delta : UInt64) (member : Bytes) : Ctx → Except Error Nat × Ctx :=
  write clock scope key (Cell.zincrby clock scores delta member) fun _ =>
    some [word "ZINCRBY", key, scores.text delta, member]

def hdel (key : Bytes) (names : List Bytes) : Ctx → Except Error Nat × Ctx :=
  write clock scope key (Cell.hdel clock names) (ifAny (word "HDEL" :: key :: names))

def sadd (key : Bytes) (members : List Bytes) : Ctx → Except Error Nat × Ctx :=
  write clock scope key (Cell.sadd clock members) (ifAny (word "SADD" :: key :: members))

def srem (key : Bytes) (members : List Bytes) : Ctx → Except Error Nat × Ctx :=
  write clock scope key (Cell.update clock (sremValue members)) (ifAny (word "SREM" :: key :: members))

def lpush (key : Bytes) (values : List Bytes) : Ctx → Except Error Nat × Ctx :=
  write clock scope key (Cell.push clock true values) fun _ => some (word "LPUSH" :: key :: values)

def rpush (key : Bytes) (values : List Bytes) : Ctx → Except Error Nat × Ctx :=
  write clock scope key (Cell.push clock false values) fun _ => some (word "RPUSH" :: key :: values)

def zrem (key : Bytes) (members : List Bytes) : Ctx → Except Error Nat × Ctx :=
  write clock scope key (Cell.update clock (zremValue members)) (ifAny (word "ZREM" :: key :: members))

def zaddFlags (key : Bytes) (pairs : List (UInt64 × Bytes)) (flags : ZaddFlags) : Ctx → Except Error ZaddReport × Ctx :=
  apply scope key (Cell.zaddFlags clock scores flags pairs {}) fun rep =>
    if rep.applied.isEmpty then none else some (zaddFrame scores key rep.applied)

def delOne (key : Bytes) (n : Nat) (ctx : Ctx) : Nat × Ctx :=
  let (there, c) := (ctx.stores (scope.addr key)).del clock
  let ctx := { ctx with stores := Function.update ctx.stores (scope.addr key) c }
  match there, scope with
  | false, _ => (n, ctx)
  | true, .shard => (n + 1, ctx)
  | true, .allShards idx => (n + 1, ctx.logArg (idx key) [word "DEL", key])

def delEach : List Bytes → Nat → Ctx → Nat × Ctx
  | [], n, ctx => (n, ctx)
  | key :: keys, n, ctx =>
    let (n, ctx) := ctx.delOne clock scope key n
    delEach keys n ctx

def del (keys : List Bytes) (ctx : Ctx) : Nat × Ctx :=
  let ctx := keys.foldl (fun ctx key => ctx.snap clock scope key) ctx
  let (n, ctx) := delEach clock scope keys 0 ctx
  match scope with
  | .shard => (n, if 0 < n then ctx.logArg 0 (word "DEL" :: keys) else ctx)
  | .allShards _ => (n, ctx)

/-- A look at a key: a hash command first drops the fields that are due. -/
def look (ofHash : Bool) (key : Bytes) (ctx : Ctx) : Ctx :=
  let c := ctx.stores (scope.addr key)
  let c := if ofHash then c.purge clock else c
  { ctx with stores := Function.update ctx.stores (scope.addr key) (c.reap clock) }

end Ctx

/-! ## Closures -/

inductive Read
  | get
  | hget
  | hgetall
  | hmget
  | hexists
  | zscore
  | zcard
  | zrangebyscore
  | smembers
  | sismember
  | scard
  | lrange
  | llen
  deriving DecidableEq, Repr

def Read.ofHash : Read → Bool
  | .hget | .hgetall | .hmget | .hexists => true
  | _ => false

inductive Op
  | set (key value : Bytes)
  | incr (key : Bytes)
  | incrBy (key : Bytes) (delta : Int)
  | hset (key : Bytes) (pairs : List (Bytes × Bytes))
  | hincrby (key field : Bytes) (delta : Int)
  | hdel (key : Bytes) (names : List Bytes)
  | sadd (key : Bytes) (members : List Bytes)
  | srem (key : Bytes) (members : List Bytes)
  | lpush (key : Bytes) (values : List Bytes)
  | rpush (key : Bytes) (values : List Bytes)
  | zadd (key : Bytes) (pairs : List (UInt64 × Bytes))
  | zincrby (key : Bytes) (delta : UInt64) (member : Bytes)
  | zrem (key : Bytes) (members : List Bytes)
  | zaddFlags (key : Bytes) (pairs : List (UInt64 × Bytes)) (flags : ZaddFlags)
  | del (keys : List Bytes)
  | read (cmd : Read) (key : Bytes)
  | existsKeys (keys : List Bytes)

def Ctx.exec (clock : Clock) (scope : Scope) (scores : Scores) (ctx : Ctx) : Op → Ctx
  | .set key value => (ctx.set clock scope key value).2
  | .incr key => (ctx.incr clock scope key).2
  | .incrBy key delta => (ctx.incrBy clock scope key delta).2
  | .hset key pairs => (ctx.hset clock scope key pairs).2
  | .hincrby key field delta => (ctx.hincrby clock scope key field delta).2
  | .hdel key names => (ctx.hdel clock scope key names).2
  | .sadd key members => (ctx.sadd clock scope key members).2
  | .srem key members => (ctx.srem clock scope key members).2
  | .lpush key values => (ctx.lpush clock scope key values).2
  | .rpush key values => (ctx.rpush clock scope key values).2
  | .zadd key pairs => (ctx.zadd clock scope scores key pairs).2
  | .zincrby key delta member => (ctx.zincrby clock scope scores key delta member).2
  | .zrem key members => (ctx.zrem clock scope key members).2
  | .zaddFlags key pairs flags => (ctx.zaddFlags clock scope scores key pairs flags).2
  | .del keys => (ctx.del clock scope keys).2
  | .read cmd key => ctx.look clock scope cmd.ofHash key
  | .existsKeys keys => keys.foldl (fun ctx key => ctx.look clock scope false key) ctx

/-- The embedded store: its cells, and the log of each shard. -/
structure Db where
  stores : Stores
  aofs : Nat → List Frame

def restore (clock : Clock) : Option (Value × Option Nat) → Cell → Cell
  | some (value, ttlMs), _ => .putWithTtl clock value ttlMs
  | none, c => (c.del clock).2

/-- `rollback`, `rollback_all`. -/
def rollback (clock : Clock) (stores : Stores) (undo : List UndoEntry) : Stores := undoAll (restore clock) stores undo

/-- `commit_group`, `commit_group_all`: every queued frame goes to the log of its shard. -/
def commitGroup (log : List (Nat × Frame)) (aofs : Nat → List Frame) : Nat → List Frame :=
  log.foldl (fun aofs fr => Function.update aofs fr.1 (aofs fr.1 ++ [fr.2])) aofs

/-- `atomic` and `atomic_all_shards`, for a closure that makes some calls and ends with an outcome. -/
def Db.atomic {E R : Type} (clock : Clock) (scope : Scope) (scores : Scores) (ops : List Op) (outcome : Except E R)
    (db : Db) : Except E R × Db :=
  let ctx := ops.foldl (Ctx.exec clock scope scores) ⟨db.stores, [], [], []⟩
  match outcome with
  | .error e => (.error e, { db with stores := rollback clock ctx.stores ctx.undo })
  | .ok r => (.ok r, ⟨ctx.stores, commitGroup ctx.log db.aofs⟩)

end Kevy.Atomic
