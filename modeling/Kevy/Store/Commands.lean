import Kevy.Lib.Expiring
import Kevy.Resp.Basic

/-!
# Commands that write keys

The writing commands of one shard and what each does to the keyspace at a clock time (milliseconds). A command on
one key looks at it, which drops it when it has expired, and decides from what it finds. The in-place commands
(`INCR`, `APPEND`, `LPUSH`, `HSET`, …) are one family: a function of the value that is there. They are a parameter
here, like the values themselves.
-/

namespace Kevy.Store

open Kevy.Lib Kevy.Resp

inductive StoreError
  | wrongType
  | notInteger
  | overflow
  deriving DecidableEq, Repr

/-- The values of a keyspace and its in-place commands: the new value of a key, `none` when the key goes. -/
structure Values (V W : Type) where
  ofString : Bytes → V
  string : V → Option Bytes
  apply : W → Option V → Except StoreError (Option V)

abbrev Keyspace (V : Type) := Expiring Bytes V

/-! ## Options -/

/-- The write condition of `SET`. -/
inductive Cond
  | always
  | nx
  | xx
  | eq (v : Bytes)
  | ne (v : Bytes)
  deriving DecidableEq, Repr

/-- What becomes of the deadline, in milliseconds: cleared, kept, from now (`EX`, `PX`) or absolute (`EXAT`,
`PXAT`). -/
inductive Ttl
  | clear
  | keep
  | px (ms : Nat)
  | pxAt (ms : Nat)
  deriving DecidableEq, Repr

/-- `Opts` of `SET`. -/
structure Opts where
  cond : Cond := .always
  get : Bool := false
  ttl : Ttl := .clear
  deriving DecidableEq, Repr

/-- The deadline options of `GETEX`. -/
inductive GetExTtl
  | none
  | persist
  | px (ms : Nat)
  | pxAt (ms : Nat)
  deriving DecidableEq, Repr

structure ExpireCond where
  nx : Bool := false
  xx : Bool := false
  gt : Bool := false
  lt : Bool := false
  deriving DecidableEq, Repr

def ExpireCond.allows (c : ExpireCond) (due : Int) (cur : Option Nat) : Bool :=
  !(c.nx && cur.isSome) && !(c.xx && cur.isNone) &&
    !(c.gt && cur.all fun d => decide (due ≤ d)) && !(c.lt && cur.any fun d => decide ((d : Int) ≤ due))

/-! ## What a command makes of an entry -/

section

variable {V W : Type} (M : Values V W)

/-- Whether the condition of `SET` lets the write through. -/
def Cond.met (c : Cond) (old : Option (Entry V)) : Bool :=
  match c with
  | .always => true
  | .nx => old.isNone
  | .xx => old.isSome
  | .eq v => (old.bind fun e => M.string e.value) == some v
  | .ne v => (old.bind fun e => M.string e.value) != some v

/-- The `SET` forms that read a string refuse any other value. -/
def Opts.refuses (o : Opts) (old : Option (Entry V)) : Bool :=
  let reads := o.get || match o.cond with
    | .eq _ | .ne _ => true
    | _ => false
  reads && old.any fun e => (M.string e.value).isNone

/-- `write` of `SET`: the new entry. An absolute deadline that is past deletes the key. -/
def writeEntry (now : Nat) (value : Bytes) (ttl : Ttl) (old : Option (Entry V)) : Option (Entry V) :=
  match ttl with
  | .clear => some ⟨M.ofString value, none⟩
  | .keep => some ⟨M.ofString value, old.bind Entry.expireAt⟩
  | .px ms => some ⟨M.ofString value, some (now + ms)⟩
  | .pxAt ms => if ms ≤ now then none else some ⟨M.ofString value, some ms⟩

/-- `SET`. -/
def setEntry (now : Nat) (value : Bytes) (o : Opts) (old : Option (Entry V)) : Option (Entry V) :=
  if o.refuses M old then old
  else if o.cond.met M old then writeEntry M now value o.ttl old
  else old

/-- `GETSET`: a value that is not a string stays. -/
def getSetEntry (value : Bytes) (old : Option (Entry V)) : Option (Entry V) :=
  if old.any fun e => (M.string e.value).isNone then old else some ⟨M.ofString value, none⟩

/-- An in-place command keeps the deadline; an error changes nothing. -/
def updateEntry (w : W) (old : Option (Entry V)) : Option (Entry V) :=
  match M.apply w (old.map Entry.value) with
  | .ok v => v.map fun v => ⟨v, old.bind Entry.expireAt⟩
  | .error _ => old

/-- `expire_at_unix_ms`: a deadline that is past deletes the key. -/
def expireAtEntry (now : Nat) (due : Int) (old : Option (Entry V)) : Option (Entry V) :=
  old.bind fun e => if due ≤ now then none else some ⟨e.value, some due.toNat⟩

/-- `expire_if`. -/
def expireIfEntry (now : Nat) (c : ExpireCond) (due : Int) (old : Option (Entry V)) : Option (Entry V) :=
  if c.allows due (old.bind Entry.expireAt) then expireAtEntry now due old else old

/-- `EXPIRE` / `PEXPIRE`. -/
def expireEntry (now : Nat) (ms : Int) (cond : Option ExpireCond) (old : Option (Entry V)) :
    Option (Entry V) :=
  match cond with
  | none => expireAtEntry now (now + ms) old
  | some c => expireIfEntry now c (now + ms) old

/-- `EXPIREAT` / `PEXPIREAT`. -/
def expireAtCondEntry (now : Nat) (ms : Int) (cond : Option ExpireCond) (old : Option (Entry V)) :
    Option (Entry V) :=
  match cond with
  | none => expireAtEntry now ms old
  | some c => expireIfEntry now c ms old

/-- `PERSIST`. -/
def persistEntry (old : Option (Entry V)) : Option (Entry V) := old.map fun e => ⟨e.value, none⟩

/-- `GETEX`: only a string has its deadline moved. -/
def getExEntry (now : Nat) (ttl : GetExTtl) (old : Option (Entry V)) : Option (Entry V) :=
  if old.any fun e => (M.string e.value).isNone then old
  else match ttl with
    | .none => old
    | .persist => persistEntry old
    | .px ms => expireAtEntry now (now + ms) old
    | .pxAt ms => expireAtEntry now ms old

end

/-! ## Commands -/

/-- A writing command whose arguments were accepted; the in-place commands are `update`. Times are milliseconds. -/
inductive Command (W : Type)
  | set (key value : Bytes) (o : Opts)
  | setEx (key : Bytes) (ms : Nat) (value : Bytes)
  | getSet (key value : Bytes)
  | mset (pairs : List (Bytes × Bytes))
  | msetNx (pairs : List (Bytes × Bytes))
  | del (keys : List Bytes)
  | expire (key : Bytes) (ms : Int) (cond : Option ExpireCond)
  | expireAt (key : Bytes) (ms : Int) (cond : Option ExpireCond)
  | persist (key : Bytes)
  | getEx (key : Bytes) (ttl : GetExTtl)
  | rename (src dst : Bytes) (nx : Bool)
  | update (key : Bytes) (w : W)
  | flushAll
  deriving DecidableEq, Repr

section

variable {V W : Type} (M : Values V W)

/-- The pairs of `MSET`, one after another. -/
def msetPairs (now : Nat) (pairs : List (Bytes × Bytes)) (s : Keyspace V) : Keyspace V :=
  pairs.foldl (fun s p => s.edit now p.1 fun _ => some ⟨M.ofString p.2, none⟩) s

/-- `Store::del`. -/
def delKeys (now : Nat) (keys : List Bytes) (s : Keyspace V) : Keyspace V :=
  keys.foldl (fun s k => s.edit now k fun _ => none) s

def renameIf (now : Nat) (src dst : Bytes) (nx : Bool) (s : Keyspace V) : Keyspace V :=
  let entry := s.live now src
  let s := s.edit now src id
  if entry.isNone || decide (src = dst) then s
  else if nx && (s.live now dst).isSome then s
  else (s.edit now src fun _ => none).edit now dst fun _ => entry

def exec (c : Command W) (now : Nat) (s : Keyspace V) : Keyspace V :=
  match c with
  | .set key value o => s.edit now key (setEntry M now value o)
  | .setEx key ms value => s.edit now key (setEntry M now value ⟨.always, false, .px ms⟩)
  | .getSet key value => s.edit now key (getSetEntry M value)
  | .mset pairs => msetPairs M now pairs s
  | .msetNx pairs =>
    if pairs.any fun p => (s.live now p.1).isSome then s else msetPairs M now pairs s
  | .del keys => delKeys now keys s
  | .expire key ms cond => s.edit now key (expireEntry now ms cond)
  | .expireAt key ms cond => s.edit now key (expireAtCondEntry now ms cond)
  | .persist key => s.edit now key persistEntry
  | .getEx key ttl => s.edit now key (getExEntry M now ttl)
  | .rename src dst nx => renameIf now src dst nx s
  | .update key w => s.edit now key (updateEntry M w)
  | .flushAll => fun _ => none

/-! ## The record -/

/-- `relative_ttl`: the key whose deadline the command moves by a relative amount. -/
def relativeTtl : Command W → Option Bytes
  | .set key _ o => match o.ttl with
    | .px _ => some key
    | _ => none
  | .setEx key _ _ => some key
  | .expire key _ _ => some key
  | .getEx key ttl => match ttl with
    | .px _ => some key
    | _ => none
  | _ => none

def deadlineUnixMs (s : Keyspace V) (k : Bytes) : Option Nat := (s k).bind Entry.expireAt

/-- `deadline_frame`: `PEXPIREAT` with the deadline the key has. -/
def deadlineFrame (s : Keyspace V) (k : Bytes) : Option (Command W) :=
  (deadlineUnixMs s k).map fun d : Nat => .expireAt k (d : Int) none

def ttlFollowup (s : Keyspace V) (c : Command W) : List (Command W) :=
  ((relativeTtl c).bind (deadlineFrame s)).toList

/-- Whether a command is recorded: any write is, but a `DEL` of several keys that removed none. -/
def recorded (c : Command W) (now : Nat) (s : Keyspace V) : Bool :=
  match c with
  | .del keys => keys.length < 2 || keys.any fun k => (s.live now k).isSome
  | _ => true

def logWrite (c : Command W) (now : Nat) (s : Keyspace V) : List (Command W) :=
  if recorded c now s then c :: ttlFollowup (exec M c now s) c else []

end

end Kevy.Store
