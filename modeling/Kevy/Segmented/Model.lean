import Kevy.Lib.Directory
import Kevy.Lib.SharedHeap
import Kevy.Map.Refine

/-!
# The segmented map

An extendible-hash directory over shared buckets, each of them a `KevyMap`. A clone shares every bucket. A write goes
through `Arc::make_mut` and so to a bucket of its own. An index out of bounds, and a bucket's map that cannot be
probed, is `none`.
-/

namespace Kevy.Segmented

open Kevy.Lib Kevy.Map

variable {K V : Type}

def bucketSplit : Nat := 512

def maxBits : Nat := 40

structure Bucket (K V : Type) where
  localBits : Nat
  map : Table K V

/-- `SegMap`: the directory, the addresses of the buckets, and the number of entries. -/
structure SegMap where
  globalBits : Nat
  dirs : List Nat
  buckets : List Nat
  len : Nat

/-- `default`. -/
def new (h : Heap (Bucket K V)) : Heap (Bucket K V) × SegMap :=
  let (h, a) := h.alloc ⟨0, Table.new⟩
  (h, ⟨0, [0], [a], 0⟩)

def clone (h : Heap (Bucket K V)) (m : SegMap) : Heap (Bucket K V) × SegMap := (h.retain m.buckets, m)

def route (globalBits : Nat) (hash : UInt64) : Nat :=
  if globalBits = 0 then 0 else hash.toNat / 2 ^ (64 - globalBits)

def bucketOf (ops : KeyOps K) (m : SegMap) (key : K) : Option Nat := m.dirs[route m.globalBits (ops.hash key)]?

def get (ops : KeyOps K) (h : Heap (Bucket K V)) (m : SegMap) (key : K) : Option (Option V) := do
  let bi ← bucketOf ops m key
  let a ← m.buckets[bi]?
  (h.cell a).map.get ops key

def iter (h : Heap (Bucket K V)) (m : SegMap) : List (K × V) := (h.values m.buckets).flatMap fun b => b.map.iter

def lowBit (lb : Nat) (hash : UInt64) : Bool := hash.toNat / 2 ^ (63 - lb) % 2 == 0

/-- The loop of `partition_bucket`. -/
def partitionLoop (ops : KeyOps K) (lb : Nat) : List (K × V) → Table K V → Table K V → Option (Table K V × Table K V)
  | [], lo, hi => some (lo, hi)
  | (k, v) :: rest, lo, hi =>
    if lowBit lb (ops.hash k) then do
      let (lo, _, _) ← lo.insertSlot ops k v
      partitionLoop ops lb rest lo hi
    else do
      let (hi, _, _) ← hi.insertSlot ops k v
      partitionLoop ops lb rest lo hi

def partitionBucket (ops : KeyOps K) (b : Bucket K V) : Option (Bucket K V × Bucket K V) := do
  let src := b.map
  let half := Table.withCapacity (src.occupied / 2)
  let (lo, hi) ← partitionLoop ops b.localBits src.iter half half
  some (⟨b.localBits + 1, lo⟩, ⟨b.localBits + 1, hi⟩)

def doubleDirectory (m : SegMap) : SegMap := { m with globalBits := m.globalBits + 1, dirs := doubled m.dirs }

/-- `split`. A bucket gets deeper with every turn, so `fuel` beyond `maxBits` is enough. -/
def split (ops : KeyOps K) : (fuel : Nat) → Heap (Bucket K V) → SegMap → (slot : Nat) → Option (Heap (Bucket K V) × SegMap)
  | 0, _, _, _ => none
  | fuel + 1, h, m, slot => do
    let bi ← m.dirs[slot]?
    let a ← m.buckets[bi]?
    let b := h.cell a
    if b.map.occupied ≤ bucketSplit ∨ b.localBits ≥ maxBits then some (h, m)
    else
      let (m, slot) := if b.localBits = m.globalBits then (doubleDirectory m, slot * 2) else (m, slot)
      let (lo, hi) ← partitionBucket ops b
      let (h, alo) := (h.release a).alloc lo
      let (h, ahi) := h.alloc hi
      let dirs := repoint m.dirs (m.globalBits - b.localBits) slot m.buckets.length
      split ops fuel h { m with dirs := dirs, buckets := m.buckets.set bi alo ++ [ahi] } slot

def insert (ops : KeyOps K) (h : Heap (Bucket K V)) (m : SegMap) (key : K) (value : V) :
    Option (Heap (Bucket K V) × SegMap × Option V) := do
  let slot := route m.globalBits (ops.hash key)
  let bi ← m.dirs[slot]?
  let a ← m.buckets[bi]?
  let (map, _, old) ← (h.cell a).map.insertSlot ops key value
  let (h, a) := h.write a { h.cell a with map := map }
  let m := { m with buckets := m.buckets.set bi a }
  if old.isNone then do
    let m := { m with len := m.len + 1 }
    if map.occupied > bucketSplit then do
      let (h, m) ← split ops (maxBits + 1) h m slot
      some (h, m, old)
    else some (h, m, old)
  else some (h, m, old)

def remove (ops : KeyOps K) (h : Heap (Bucket K V)) (m : SegMap) (key : K) :
    Option (Heap (Bucket K V) × SegMap × Option V) := do
  let bi ← bucketOf ops m key
  let a ← m.buckets[bi]?
  let (map, old) ← (h.cell a).map.remove ops key
  let (h, a) := h.write a { h.cell a with map := map }
  let m := { m with buckets := m.buckets.set bi a }
  some (h, { m with len := if old.isSome then m.len - 1 else m.len }, old)

/-! ## Several values over one heap -/

structure World (K V : Type) where
  heap : Heap (Bucket K V)
  maps : List SegMap

inductive Op (K V : Type)
  | insert (i : Nat) (key : K) (value : V)
  | remove (i : Nat) (key : K)
  | clone (i : Nat)

def World.new : World K V :=
  let (h, m) := Segmented.new ⟨fun _ => ⟨0, Table.new⟩, fun _ => 0, 0⟩
  ⟨h, [m]⟩

/-- One call on value `i`. On a value that does not exist nothing happens. -/
def World.step (ops : KeyOps K) (w : World K V) : Op K V → Option (World K V × Option V)
  | .insert i key value =>
    match w.maps[i]? with
    | none => some (w, none)
    | some m => (Segmented.insert ops w.heap m key value).map fun (h, m, old) => (⟨h, w.maps.set i m⟩, old)
  | .remove i key =>
    match w.maps[i]? with
    | none => some (w, none)
    | some m => (Segmented.remove ops w.heap m key).map fun (h, m, old) => (⟨h, w.maps.set i m⟩, old)
  | .clone i =>
    match w.maps[i]? with
    | none => some (w, none)
    | some m =>
      let (h, m) := Segmented.clone w.heap m
      some (⟨h, w.maps ++ [m]⟩, none)

def World.run (ops : KeyOps K) : World K V → List (Op K V) → Option (World K V × List (Option V))
  | w, [] => some (w, [])
  | w, op :: rest => do
    let (w, reply) ← w.step ops op
    let (w, replies) ← World.run ops w rest
    some (w, reply :: replies)

end Kevy.Segmented
