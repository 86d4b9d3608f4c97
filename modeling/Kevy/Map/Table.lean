import Mathlib.Algebra.Group.Nat.Defs
import Mathlib.Logic.Function.Basic

/-!
# The hash table

An open-addressing table in the manner of Swiss tables. A control byte per slot says whether the slot is empty, was
deleted, or holds an entry, and then carries seven bits of its hash. Probing looks at sixteen control bytes at a time,
from the home slot `hash & mask` on, window after window, until a window has an empty slot. The first sixteen control
bytes are repeated behind the last, so that a window near the end can be loaded whole.

Capacities are zero or powers of two from sixteen on. A probe that never ends is `none`.
-/

namespace Kevy.Map

/-- `Group::WIDTH`. -/
abbrev groupWidth : Nat := 16

/-- The control byte of a slot that was never used, or is as good as that. -/
def emptyByte : UInt8 := 0xFF

/-- The control byte of a slot whose entry was removed. -/
def deletedByte : UInt8 := 0x80

/-- A control byte of a slot with an entry: `meta & 0x80 == 0`. -/
def isFull (b : UInt8) : Bool := b &&& 0x80 == 0

def h2 (hash : UInt64) : UInt8 := UInt8.ofNat (hash.toNat / 2 ^ 57 % 128)

/-- `KevyHash` and `Eq` of a key type, with what the traits ask of an implementation. -/
structure KeyOps (K : Type) where
  hash : K → UInt64
  eq : K → K → Bool
  refl : ∀ a, eq a a = true
  symm : ∀ {a b}, eq a b = true → eq b a = true
  trans : ∀ {a b c}, eq a b = true → eq b c = true → eq a c = true
  hash_eq : ∀ {a b}, eq a b = true → hash a = hash b

/-- `KevyMap`: control bytes (those from `cap` on are the repeated ones), slots, counts, and the lane of auxiliary
words. A slot without an entry is uninitialised. -/
structure Table (K V : Type) where
  cap : Nat
  ctrl : Nat → UInt8
  slots : Nat → Option (K × V)
  occupied : Nat
  deleted : Nat
  aux : Option (Nat → UInt64)

inductive ProbeOutcome
  | found (slot : Nat)
  | notFound (insertAt : Nat) (viaTombstone : Bool)
  deriving DecidableEq, Repr

variable {K V : Type}

namespace Table

def new : Table K V where
  cap := 0
  ctrl _ := emptyByte
  slots _ := none
  occupied := 0
  deleted := 0
  aux := none

def allocTable (cap : Nat) : Table K V := { new with cap := cap }

def wrap (t : Table K V) (x : Nat) : Nat := x &&& (t.cap - 1)

def setMeta (t : Table K V) (i : Nat) (b : UInt8) : Table K V :=
  let i2 := t.wrap (i + t.cap - groupWidth) + groupWidth
  { t with ctrl := Function.update (Function.update t.ctrl i b) i2 b }

def threshold (t : Table K V) : Nat := t.cap - t.cap / 8

def growsOnInsert (t : Table K V) : Bool := t.cap == 0 || t.occupied + t.deleted ≥ t.threshold

/-- `Group::load(start).match_byte(b)`: the lanes of the window that hold the byte, lowest first. -/
def matchByte (t : Table K V) (start : Nat) (b : UInt8) : List Nat :=
  (List.range groupWidth).filter fun m => t.ctrl (start + m) == b

/-! ## Probing -/

def keyMatches (ops : KeyOps K) (t : Table K V) (key : K) (slot : Nat) : Bool :=
  (t.slots slot).any fun kv => ops.eq kv.1 key

/-- The first slot of a window whose byte is the key's tag and whose key is the key. -/
def matchKey (ops : KeyOps K) (t : Table K V) (key : K) (start : Nat) : Option Nat :=
  ((t.matchByte start (h2 (ops.hash key))).map fun m => t.wrap (start + m)).find? (t.keyMatches ops key)

/-- The probe loops. A window is searched for the key (`hit`) and then for an empty slot. With `track`, the first
deleted slot that is seen is where to insert. -/
def probeLoop (t : Table K V) (hit : Nat → Option Nat) (track : Bool) :
    (fuel : Nat) → (start : Nat) → (firstDeleted : Option Nat) → Option ProbeOutcome
  | 0, _, _ => none
  | fuel + 1, start, firstDeleted =>
    match hit start with
    | some slot => some (.found slot)
    | none =>
      let firstDeleted :=
        if track then firstDeleted.or ((t.matchByte start deletedByte).head?.map fun m => t.wrap (start + m))
        else firstDeleted
      match (t.matchByte start emptyByte).head? with
      | some m => some (.notFound (firstDeleted.getD (t.wrap (start + m))) firstDeleted.isSome)
      | none => t.probeLoop hit track fuel (t.wrap (start + groupWidth)) firstDeleted

/-- A probe from the home slot of a hash. After all windows of the table it would only see them again. -/
def probeFrom (t : Table K V) (hit : Nat → Option Nat) (track : Bool) (hash : UInt64) : Option ProbeOutcome :=
  t.probeLoop hit track (t.cap / groupWidth) (t.wrap hash.toNat) none

/-- `probe_with_key` and `probe_by_borrow`: deleted slots are tracked only when there are any. -/
def probe (ops : KeyOps K) (t : Table K V) (key : K) : Option ProbeOutcome :=
  if t.cap = 0 then some (.notFound 0 false)
  else t.probeFrom (t.matchKey ops key) (decide (t.deleted ≠ 0)) (ops.hash key)

def findByBorrow (ops : KeyOps K) (t : Table K V) (key : K) : Option (Option Nat) :=
  if t.cap = 0 then some none
  else
    (t.probeFrom (t.matchKey ops key) false (ops.hash key)).map fun outcome =>
      match outcome with
      | .found slot => some slot
      | .notFound _ _ => none

/-! ## Growth -/

def resetAux (t : Table K V) (slot : Nat) : Table K V :=
  { t with aux := t.aux.map fun lane => Function.update lane slot 0 }

def writeSlot (t : Table K V) (slot : Nat) (hash : UInt64) (key : K) (value : V) : Table K V :=
  let t := t.setMeta slot (h2 hash)
  { t with slots := Function.update t.slots slot (some (key, value)), occupied := t.occupied + 1 }

def insertKnownUnique (t : Table K V) (hash : UInt64) (key : K) (value : V) : Option (Table K V × Nat) :=
  (t.probeFrom (fun _ => none) false hash).map fun outcome =>
    match outcome with
    | .found slot => (t.writeSlot slot hash key value, slot)
    | .notFound slot _ => (t.writeSlot slot hash key value, slot)

/-- `move_slot`. The mark it leaves in the old table is read by nobody. -/
def moveSlot (ops : KeyOps K) (old new : Table K V) (i : Nat) : Option (Table K V) :=
  if isFull (old.ctrl i) then
    match old.slots i with
    | none => none
    | some (key, value) =>
      (new.insertKnownUnique (ops.hash key) key value).map fun (new, slot) =>
        match old.aux, new.aux with
        | some lane, some lane' => { new with aux := some (Function.update lane' slot (lane i)) }
        | _, _ => new
  else some new

def minCap : Nat := 16

/-- `with_capacity`: room for the hint below seven eighths. -/
def withCapacity (capHint : Nat) : Table K V :=
  if capHint = 0 then new else allocTable (max ((capHint * 8 + 6) / 7).nextPowerOfTwo minCap)

def grow (ops : KeyOps K) (t : Table K V) : Option (Table K V) :=
  let newCap := if t.cap = 0 then minCap else t.cap * 2
  let new := { allocTable newCap with aux := t.aux.map fun _ _ => 0 }
  (List.range t.cap).foldlM (t.moveSlot ops) new

def maybeGrow (ops : KeyOps K) (t : Table K V) : Option (Table K V) :=
  if t.growsOnInsert then t.grow ops else some t

/-! ## The operations -/

/-- A new entry in the slot a probe has found for it. -/
def fill (ops : KeyOps K) (t : Table K V) (insertAt : Nat) (viaTombstone : Bool) (key : K) (value : V) : Table K V :=
  let t := (t.writeSlot insertAt (ops.hash key) key value).resetAux insertAt
  if viaTombstone then { t with deleted := t.deleted - 1 } else t

def insertWithRoom (ops : KeyOps K) (t : Table K V) (key : K) (value : V) : Option (Table K V × Nat × Option V) :=
  (t.probe ops key).map fun outcome =>
    match outcome with
    | .found slot =>
      ({ t with slots := Function.update t.slots slot ((t.slots slot).map fun kv => (kv.1, value)) }, slot,
        (t.slots slot).map Prod.snd)
    | .notFound insertAt viaTombstone => (t.fill ops insertAt viaTombstone key value, insertAt, none)

/-- `insert_slot`, and `insert` without the slot. -/
def insertSlot (ops : KeyOps K) (t : Table K V) (key : K) (value : V) : Option (Table K V × Nat × Option V) :=
  (t.maybeGrow ops).bind fun t => t.insertWithRoom ops key value

def get (ops : KeyOps K) (t : Table K V) (key : K) : Option (Option V) :=
  (t.findByBorrow ops key).map fun slot => (slot.bind t.slots).map Prod.snd

/-- How many slots before `idx` are not empty, sixteen at most (`leading_zeros` of the empty lanes before it). -/
def emptyBefore (t : Table K V) (idx : Nat) : Nat :=
  match (t.matchByte (t.wrap (idx + t.cap - groupWidth)) emptyByte).getLast? with
  | none => groupWidth
  | some m => groupWidth - 1 - m

/-- How many slots from `idx` on are not empty, sixteen at most (`trailing_zeros`). -/
def emptyAfter (t : Table K V) (idx : Nat) : Nat :=
  match (t.matchByte idx emptyByte).head? with
  | none => groupWidth
  | some m => m

/-- `erase_mark`: a slot inside a run of sixteen that are not empty must stay walkable. -/
def eraseMark (t : Table K V) (idx : Nat) : UInt8 :=
  if t.emptyBefore idx + t.emptyAfter idx ≥ groupWidth then deletedByte else emptyByte

/-- The entry of a slot goes, and its control byte becomes `mark`. -/
def eraseSlot (t : Table K V) (slot : Nat) (mark : UInt8) : Table K V :=
  let t := t.setMeta slot mark
  { t with
    slots := Function.update t.slots slot none
    occupied := t.occupied - 1
    deleted := if mark = deletedByte then t.deleted + 1 else t.deleted }

def remove (ops : KeyOps K) (t : Table K V) (key : K) : Option (Table K V × Option V) :=
  (t.findByBorrow ops key).map fun slot =>
    match slot with
    | none => (t, none)
    | some slot => (t.eraseSlot slot (t.eraseMark slot), (t.slots slot).map Prod.snd)

/-- `raw_entry_mut` and, when it is occupied, `RawOccupiedEntryMut::remove`. -/
def rawRemove (ops : KeyOps K) (t : Table K V) (key : K) : Option (Table K V × Option V) :=
  (t.probe ops key).map fun outcome =>
    match outcome with
    | .found slot => (t.eraseSlot slot deletedByte, (t.slots slot).map Prod.snd)
    | .notFound _ _ => (t, none)

/-- `RawVacantEntryMut::insert`; `none` is also its `unreachable!`. -/
def vacantInsert (ops : KeyOps K) (t : Table K V) (key : K) (value : V) : Option (Table K V) :=
  (t.maybeGrow ops).bind fun t =>
    (t.probe ops key).bind fun outcome =>
      match outcome with
      | .found _ => none
      | .notFound insertAt viaTombstone => some (t.fill ops insertAt viaTombstone key value)

/-- `raw_entry_mut` and, when it is vacant, `RawVacantEntryMut::insert` with the same key. -/
def rawInsert (ops : KeyOps K) (t : Table K V) (key : K) (value : V) : Option (Table K V × Bool) :=
  (t.probe ops key).bind fun outcome =>
    match outcome with
    | .found _ => some (t, false)
    | .notFound _ _ => (t.vacantInsert ops key value).map fun t => (t, true)

def clear (t : Table K V) : Table K V :=
  if t.cap = 0 then t
  else { t with ctrl := fun _ => emptyByte, slots := fun _ => none, occupied := 0, deleted := 0 }

def slotIsFull (t : Table K V) (slot : Nat) : Bool := decide (slot < t.cap) && isFull (t.ctrl slot)

def enableAux (t : Table K V) : Table K V :=
  match t.aux with
  | some _ => t
  | none => { t with aux := some fun _ => 0 }

/-- Writes the word of a key's slot (`find_slot` and `aux_mut`). -/
def setAux (ops : KeyOps K) (t : Table K V) (key : K) (word : UInt64) : Option (Table K V) :=
  (t.findByBorrow ops key).map fun slot =>
    match slot with
    | none => t
    | some slot =>
      if t.slotIsFull slot then { t with aux := t.aux.map fun lane => Function.update lane slot word } else t

/-- Reads the word of a key's slot (`find_slot` and `aux`). -/
def auxOf (ops : KeyOps K) (t : Table K V) (key : K) : Option (Option UInt64) :=
  (t.findByBorrow ops key).map fun slot =>
    slot.bind fun slot => t.aux.bind fun lane => if t.slotIsFull slot then some (lane slot) else none

def iter (t : Table K V) : List (K × V) :=
  (List.range t.cap).filterMap fun i => if isFull (t.ctrl i) then t.slots i else none

end Table

end Kevy.Map
