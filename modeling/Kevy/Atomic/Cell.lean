import Kevy.Store.Values

/-!
# The cells of an embedded store

What a shard holds under a key: an entry with its deadline, and beside it the deadlines of hash fields. Every command of
a transaction works on cells. A command drops what has expired as it meets it; a hash command first drops the fields
that are due.
-/

namespace Kevy.Atomic

open Kevy.Lib Kevy.Resp Kevy.Store

/-- The two clocks: nanoseconds for keys, Unix milliseconds for hash fields. -/
structure Clock where
  ns : Nat
  unixMs : Nat

/-- The arithmetic of scores, which are the bit patterns of their `f64`. -/
structure Scores where
  add : UInt64 → UInt64 → UInt64
  isNan : UInt64 → Bool
  le : UInt64 → UInt64 → Bool
  eq : UInt64 → UInt64 → Bool
  text : UInt64 → Bytes

/-- What stands under a key: its entry (the deadline in nanoseconds), and its part of `hfttl`. -/
structure Cell where
  entry : Option (Entry Value)
  fields : List (Bytes × Nat)
  deriving DecidableEq, Repr

inductive Error
  | store (e : StoreError)
  | scoreIsNan
  deriving DecidableEq, Repr

/-! ## Values -/

/-- A change of a collection that counts what it changed; an emptied collection goes. -/
def onItems {α : Type} (unwrap : Value → Option (List α)) (wrap : List α → Value)
    (change : List α → Nat × List α) (old : Option Value) : Except Error (Nat × Option Value) :=
  match old.elim (some []) unwrap with
  | none => .error (.store .wrongType)
  | some items =>
    let (n, items) := change items
    .ok (n, if items.isEmpty then none else some (wrap items))

def putAll {α β : Type} [DecidableEq α] (pairs : List (α × β)) (items : List (α × β)) : Nat × List (α × β) :=
  pairs.foldl (fun (n, items) p =>
    (if (items.map Prod.fst).contains p.1 then n else n + 1, put p.1 p.2 items)) (0, items)

/-- Take names out one by one, counting those that were there. -/
def dropAll {α β : Type} [BEq α] (name : β → α) (names : List α) (items : List β) : Nat × List β :=
  names.foldl (fun (n, items) x =>
    (if (items.map name).contains x then n + 1 else n, items.filter fun i => !(name i == x))) (0, items)

def hsetValue (pairs : List (Bytes × Bytes)) : Option Value → Except Error (Nat × Option Value) :=
  onItems Value.hashFields .hash (putAll pairs)

def hdelValue (names : List Bytes) : Option Value → Except Error (Nat × Option Value) :=
  onItems Value.hashFields .hash (dropAll Prod.fst names)

def saddValue (members : List Bytes) : Option Value → Except Error (Nat × Option Value) :=
  onItems Value.setMembers .set fun items =>
    members.foldl (fun (n, items) m => (if items.contains m then n else n + 1, items.insert m)) (0, items)

def sremValue (members : List Bytes) : Option Value → Except Error (Nat × Option Value) :=
  onItems Value.setMembers .set (dropAll id members)

def zaddValue (pairs : List (UInt64 × Bytes)) : Option Value → Except Error (Nat × Option Value) :=
  onItems Value.zsetMembers .zset (putAll (pairs.map fun p => (p.2, foldZeroSign p.1)))

def zremValue (members : List Bytes) : Option Value → Except Error (Nat × Option Value) :=
  onItems Value.zsetMembers .zset (dropAll Prod.fst members)

/-- `LPUSH` and `RPUSH`; the count is the new length. -/
def pushValue (front : Bool) (values : List Bytes) : Option Value → Except Error (Nat × Option Value) :=
  onItems Value.listItems .list fun items =>
    let items := if front then values.reverse ++ items else items ++ values
    (items.length, items)

def incrValue (delta : Int) (old : Option Value) : Except Error (Nat × Option Value) :=
  match Store.incrBy delta old with
  | .error e => .error (.store e)
  | .ok v => .ok (0, v)

/-- `HINCRBY` on the fields of a hash. -/
def hincrValue (field : Bytes) (delta : Int) (old : Option Value) : Except Error (Nat × Option Value) :=
  match old.elim (some []) Value.hashFields with
  | none => .error (.store .wrongType)
  | some fields =>
    let cur := (fields.find? fun p => p.1 = field).elim (some 0) fun p => parseInt p.2
    match cur with
    | none => .error (.store .notInteger)
    | some n =>
      match checkedI64 (n + delta) with
      | none => .error (.store .overflow)
      | some m => .ok (0, some (.hash (put field (intText m) fields)))

namespace Cell

/-! ## Entries -/

/-- `remove_entry` and `insert_entry`: both drop the deadlines of the fields. -/
def removed : Cell := ⟨none, []⟩

def inserted (v : Value) (expireAt : Option Nat) : Cell := ⟨some ⟨v, expireAt⟩, []⟩

def reap (clock : Clock) (c : Cell) : Cell := if c.entry.any (·.expired clock.ns) then removed else c

/-- A change in place: the deadline of the key and those of its fields stay. -/
def update (clock : Clock) (f : Option Value → Except Error (Nat × Option Value)) (c : Cell) :
    Except Error Nat × Cell :=
  let c := c.reap clock
  match f (c.entry.map Entry.value), c.entry with
  | .error e, _ => (.error e, c)
  | .ok (n, none), none => (.ok n, c)
  | .ok (n, none), some _ => (.ok n, removed)
  | .ok (n, some v), none => (.ok n, inserted v none)
  | .ok (n, some v), some e => (.ok n, { c with entry := some { e with value := v } })

/-- `purge_hash_ttl`: the fields that are due go, from `hfttl` first. -/
def purge (clock : Clock) (c : Cell) : Cell :=
  let due := c.fields.filter fun p => decide (p.2 ≤ clock.unixMs)
  if due.isEmpty then c
  else
    let c := { c with fields := c.fields.filter fun p => !decide (p.2 ≤ clock.unixMs) }
    (c.update clock (hdelValue (due.map Prod.fst))).2

/-! ## Commands -/

/-- `SET` writes over a live entry in place, and leaves the deadlines of fields where they are. -/
def set (clock : Clock) (value : Bytes) (c : Cell) : Cell :=
  match (c.reap clock).entry with
  | some _ => { c with entry := some ⟨.str value, none⟩ }
  | none => inserted (.str value) none

def hset (clock : Clock) (pairs : List (Bytes × Bytes)) (c : Cell) : Except Error Nat × Cell :=
  let c := c.purge clock
  let c := { c with fields := c.fields.filter fun p => !(pairs.map Prod.fst).contains p.1 }
  if pairs.isEmpty then (.ok 0, c) else c.update clock (hsetValue pairs)

def hdel (clock : Clock) (names : List Bytes) (c : Cell) : Except Error Nat × Cell :=
  (c.purge clock).update clock (hdelValue names)

def hincrby (clock : Clock) (field : Bytes) (delta : Int) (c : Cell) : Except Error Nat × Cell :=
  (c.purge clock).update clock (hincrValue field delta)

/-- `SADD`, `ZADD` and the pushes look at nothing when they are given nothing; a push then answers the length. -/
def addAll {α : Type} (clock : Clock) (f : List α → Option Value → Except Error (Nat × Option Value)) (idle : Nat)
    (args : List α) (c : Cell) : Except Error Nat × Cell :=
  if args.isEmpty then (.ok idle, c) else c.update clock (f args)

def sadd (clock : Clock) (members : List Bytes) (c : Cell) : Except Error Nat × Cell :=
  c.addAll clock saddValue 0 members

def zadd (clock : Clock) (pairs : List (UInt64 × Bytes)) (c : Cell) : Except Error Nat × Cell :=
  c.addAll clock zaddValue 0 pairs

def listLen (c : Cell) : Nat := ((c.entry.bind fun e => e.value.listItems).getD []).length

def push (clock : Clock) (front : Bool) (values : List Bytes) (c : Cell) : Except Error Nat × Cell :=
  c.addAll clock (pushValue front) c.listLen values

def zscore (clock : Clock) (member : Bytes) (c : Cell) : Except Error (Option UInt64) :=
  match ((c.reap clock).entry.map Entry.value).elim (some []) Value.zsetMembers with
  | none => .error (.store .wrongType)
  | some members => .ok ((members.find? fun p => p.1 = member).map Prod.snd)

/-- `ZINCRBY` makes the key before it knows the new score. -/
def zincrby (clock : Clock) (scores : Scores) (incr : UInt64) (member : Bytes) (c : Cell) : Except Error Nat × Cell :=
  let c := c.reap clock
  let c := if c.entry.isNone then inserted (.zset []) none else c
  match c.zscore clock member with
  | .error e => (.error e, c)
  | .ok cur =>
    let next := scores.add (cur.getD 0) incr
    if scores.isNan next then (.error .scoreIsNan, c)
    else c.update clock (onItems Value.zsetMembers .zset (putAll [(member, next)]))

def del (clock : Clock) (c : Cell) : Bool × Cell :=
  let c := c.reap clock
  if c.entry.isSome then (true, removed) else (false, c)

/-! ## A transaction's record -/

def cloneWithTtl (clock : Clock) (c : Cell) : Option (Value × Option Nat) :=
  (c.reap clock).entry.map fun e => (e.value, e.expireAt.map fun d => (d - clock.ns) / 1000000)

def putWithTtl (clock : Clock) (value : Value) (ttlMs : Option Nat) : Cell :=
  inserted value (ttlMs.map fun ms => clock.ns + ms * 1000000)

end Cell

end Kevy.Atomic
