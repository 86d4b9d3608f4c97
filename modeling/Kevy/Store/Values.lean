import Kevy.Store.Commands
import Kevy.Persist.Record

/-!
# Values and in-place commands

The values of the keyspace without their encodings, and the commands that change one in place. A command on a
collection that is not there starts from an empty one, and a collection that becomes empty goes with its key.
-/

namespace Kevy.Store

open Kevy.Lib Kevy.Resp

/-- A value. A score is the bit pattern of its `f64`. -/
inductive Value
  | str (bytes : Bytes)
  | list (items : List Bytes)
  | set (members : List Bytes)
  | hash (fields : List (Bytes × Bytes))
  | zset (members : List (Bytes × UInt64))
  deriving DecidableEq, Repr

/-- The in-place commands. `INCR`, `DECR`, `INCRBY` and `DECRBY` are `incrBy`. -/
inductive Update
  | incrBy (delta : Int)
  | append (data : Bytes)
  | getDel
  | lpush (values : List Bytes)
  | rpush (values : List Bytes)
  | lpop (count : Nat)
  | rpop (count : Nat)
  | sadd (members : List Bytes)
  | srem (members : List Bytes)
  | hset (pairs : List (Bytes × Bytes))
  | hdel (fields : List Bytes)
  | zadd (pairs : List (UInt64 × Bytes))
  | zrem (members : List Bytes)
  deriving DecidableEq, Repr

/-! ## Strings -/

def intText (n : Int) : Bytes :=
  if n < 0 then minus :: Persist.decimal n.natAbs else Persist.decimal n.natAbs

def incrBy (delta : Int) (old : Option Value) : Except StoreError (Option Value) :=
  match old with
  | none => .ok (some (.str (intText delta)))
  | some (.str bytes) =>
    match parseInt bytes with
    | none => .error .notInteger
    | some n =>
      match checkedI64 (n + delta) with
      | none => .error .overflow
      | some m => .ok (some (.str (intText m)))
  | some _ => .error .wrongType

def append (data : Bytes) (old : Option Value) : Except StoreError (Option Value) :=
  match old with
  | none => .ok (some (.str data))
  | some (.str bytes) => .ok (some (.str (bytes ++ data)))
  | some _ => .error .wrongType

def getDel (old : Option Value) : Except StoreError (Option Value) :=
  match old with
  | none => .ok none
  | some (.str _) => .ok none
  | some _ => .error .wrongType

/-! ## Collections -/

def onCollection {α : Type} (unwrap : Value → Option (List α)) (wrap : List α → Value)
    (change : List α → List α) (old : Option Value) : Except StoreError (Option Value) :=
  match old.elim (some []) unwrap with
  | none => .error .wrongType
  | some items => .ok (if (change items).isEmpty then none else some (wrap (change items)))

/-- Set the value of a key in an association list. -/
def put {α β : Type} [DecidableEq α] (k : α) (v : β) : List (α × β) → List (α × β)
  | [] => [(k, v)]
  | p :: rest => if p.1 = k then (k, v) :: rest else p :: put k v rest

def Value.listItems : Value → Option (List Bytes)
  | .list items => some items
  | _ => none

def Value.setMembers : Value → Option (List Bytes)
  | .set members => some members
  | _ => none

def Value.hashFields : Value → Option (List (Bytes × Bytes))
  | .hash fields => some fields
  | _ => none

def Value.zsetMembers : Value → Option (List (Bytes × UInt64))
  | .zset members => some members
  | _ => none

def foldZeroSign (score : UInt64) : UInt64 := if score = 0x8000000000000000 then 0 else score

/-- What an in-place command makes of the value of its key. -/
def Update.apply : Update → Option Value → Except StoreError (Option Value)
  | .incrBy delta => Store.incrBy delta
  | .append data => Store.append data
  | .getDel => Store.getDel
  | .lpush values => onCollection Value.listItems .list fun items => values.foldl (fun items v => v :: items) items
  | .rpush values => onCollection Value.listItems .list fun items => items ++ values
  | .lpop count => onCollection Value.listItems .list fun items => items.drop count
  | .rpop count => onCollection Value.listItems .list fun items => items.take (items.length - count)
  | .sadd members => onCollection Value.setMembers .set fun items => members.foldl (fun items m => items.insert m) items
  | .srem members => onCollection Value.setMembers .set fun items => items.filter fun m => !members.contains m
  | .hset pairs => onCollection Value.hashFields .hash fun fields => pairs.foldl (fun fs p => put p.1 p.2 fs) fields
  | .hdel names => onCollection Value.hashFields .hash fun fields => fields.filter fun p => !names.contains p.1
  | .zadd pairs =>
    onCollection Value.zsetMembers .zset fun members => pairs.foldl (fun ms p => put p.2 (foldZeroSign p.1) ms) members
  | .zrem names => onCollection Value.zsetMembers .zset fun members => members.filter fun p => !names.contains p.1

/-- The keyspace's own values and in-place commands. -/
def kevyValues : Values Value Update where
  ofString := .str
  string
    | .str bytes => some bytes
    | _ => none
  apply := Update.apply

end Kevy.Store
