import Kevy.Index.Writes
import Kevy.Lib.Framed
import Kevy.Lib.Paging
import Kevy.Seg.Lookup

/-!
# The sliding window of an index

The window of one index on one shard: the boundary, the sealed segments behind it, the filter of the rows that may have
gone cold and the marks that hide stale cold entries; and the reads that put the hot and the cold side together. A
sealed file is the list of the records it serves.
-/

namespace Kevy.Window

open Kevy.Lib Kevy.Resp Kevy.Index
open Kevy.Seg (Rec between)

/-! ## Keys of sealed entries -/

def orderBytes : IndexValue → Bytes
  | .str s => s
  | .i64 v => beBytes (v + 2 ^ 63).toNat
  | .f64 bits => beBytes (if 2 ^ 63 ≤ bits.toNat then 2 ^ 64 - 1 - bits.toNat else bits.toNat + 2 ^ 63)

def segKey (v : IndexValue) (row : Bytes) : Bytes := frame (orderBytes v) ++ frame row

def ofBe (bs : Bytes) : Option Nat := if bs.length = 8 then some (ofLe bs.reverse) else none

def valueOf (ty : ValType) (vb : Bytes) : Option IndexValue :=
  match ty with
  | .str => some (.str vb)
  | .i64 => (ofBe vb).map fun raw : Nat => .i64 ((raw : Int) - 2 ^ 63)
  | .f64 => (ofBe vb).map fun m => .f64 (UInt64.ofNat (if 2 ^ 63 ≤ m then m - 2 ^ 63 else 2 ^ 64 - 1 - m))
  | .vector => none

def decodeSegKey (ty : ValType) (key : Bytes) : Option Hit :=
  (unframe key).bind fun value =>
    (unframe value.2).bind fun row =>
      if row.2.isEmpty then (valueOf ty value.1).map fun v => toLex (v, row.1) else none

def segBounds (min max : IndexValue) : Bytes × Bytes := (frame (orderBytes min), frameEnd (orderBytes max))

def encodeSegValues (values : List (Option Bytes)) : Bytes :=
  if values.isEmpty then []
  else
    leBytes 4 values.length ++
      values.flatMap fun
        | none => [0]
        | some b => 1 :: (leBytes 4 b.length ++ b)

def recordOf (e : Entry) : Rec := (segKey e.value e.key, encodeSegValues e.columns)

/-! ## The filter -/

/-- `ColdBloom`, as the bits that are set. -/
structure ColdBloom where
  nbits : UInt64
  bits : List UInt64

namespace ColdBloom

def new : ColdBloom := ⟨65536, []⟩

def fnv (seed : UInt64) (item : Bytes) : UInt64 := item.foldl (fun h b => (h ^^^ b.toUInt64) * 0x100000001b3) seed

def probes (f : ColdBloom) (item : Bytes) : List UInt64 :=
  let h1 := fnv 0xcbf29ce484222325 item
  let h2 := fnv 0x84222325cbf29ce4 item ||| 1
  [0, 1, 2, 3, 4, 5, 6].map fun i => (h1 + i * h2) % f.nbits

def insert (f : ColdBloom) (item : Bytes) : ColdBloom := { f with bits := f.bits ++ f.probes item }

def contains (f : ColdBloom) (item : Bytes) : Bool := (f.probes item).all fun b => f.bits.contains b

end ColdBloom

/-! ## The window -/

/-- `WindowSpec`, as `validate_window` lets it through. -/
structure WindowSpec where
  span : Int
  bucket : Int
  bucket_pos : 0 < bucket
  bucket_le : bucket ≤ span
  span_lt : span < 2 ^ 63

inductive WindowShape
  | plainI64
  | compositeLed
  deriving DecidableEq, Repr

namespace WindowShape

def ty : WindowShape → ValType
  | plainI64 => .i64
  | compositeLed => .str

/-- The values `derive_scalar` gives an index of this shape. -/
def admits : WindowShape → IndexValue → Bool
  | plainI64, .i64 v => decide (-2 ^ 63 ≤ v) && decide (v < 2 ^ 63)
  | compositeLed, .str _ => true
  | _, _ => false

abbrev Value (shape : WindowShape) : Type := { v : IndexValue // shape.admits v = true }

end WindowShape

def windowValue (shape : WindowShape) (v : IndexValue) : Option Int :=
  match shape, v with
  | .plainI64, .i64 i => some i
  | .compositeLed, .str b => (ofBe (b.take 8)).map fun raw : Nat => (raw : Int) - 2 ^ 63
  | _, _ => none

def windowBound (target : Int) : WindowShape → IndexValue
  | .plainI64 => .i64 target
  | .compositeLed => .str (beBytes (target + 2 ^ 63).toNat)

def wrapI64 (v : Int) : Int := (v + 2 ^ 63) % 2 ^ 64 - 2 ^ 63

def saturatingSub (a b : Int) : Int := max (-2 ^ 63) (min (2 ^ 63 - 1) (a - b))

def bucketFloor (v bucket : Int) : Int := wrapI64 (v - v % bucket)

structure WindowRt where
  w : Int
  seq : Nat
  cold : List (Nat × List Rec)
  bloom : ColdBloom
  tombs : KeyedList Bytes Nat

variable (spec : WindowSpec) (shape : WindowShape)

namespace WindowRt

def new : WindowRt := ⟨-2 ^ 63, 0, [], .new, .empty⟩

def hasCold (win : WindowRt) : Bool := !win.cold.isEmpty

def shadowed (win : WindowRt) (row : Bytes) (seq : Nat) : Bool := (win.tombs.get row).any fun reach => decide (seq < reach)

def onRowWrite (win : WindowRt) (row : Bytes) : WindowRt :=
  if win.bloom.contains row then { win with tombs := win.tombs.insert row win.seq } else win

def target (seg : Segment) : Option Int :=
  (seg.maxValue.bind (windowValue shape)).map fun m => bucketFloor (saturatingSub m spec.span) spec.bucket

/-- The window once the entries below `bound` are sealed. -/
def sealBatch (win : WindowRt) (target : Int) (batch : List Entry) : WindowRt where
  w := target
  seq := win.seq + 1
  cold := win.cold ++ [(win.seq, batch.map recordOf)]
  bloom := batch.foldl (fun f e => f.insert e.key) win.bloom
  tombs := win.tombs

def slide (win : WindowRt) (seg : Segment) : Segment × WindowRt × Bool :=
  match target spec shape seg with
  | none => (seg, win, false)
  | some target =>
    if target ≤ win.w then (seg, win, false)
    else
      let bound := windowBound target shape
      if (seg.scanBelow bound).isEmpty then (seg, { win with w := target }, false)
      else (seg.splitOffBelow bound, win.sealBatch target (seg.scanBelow bound), true)

/-! ### The cold half of a read -/

/-- The records of one segment, put behind the hits so far; whether the page is full. -/
def hitRecords (win : WindowRt) (seq : Nat) (cursor : Option Hit) (limit : Option Nat) :
    List Rec → List Hit → List Hit × Bool
  | [], out => (out, false)
  | r :: recs, out =>
    match decodeSegKey shape.ty r.1 with
    | none => hitRecords win seq cursor limit recs out
    | some h =>
      if win.shadowed (ofLex h).2 seq then hitRecords win seq cursor limit recs out
      else if cursor.any fun c => decide (h ≤ c) then hitRecords win seq cursor limit recs out
      else
        if limit.any fun n => decide (n ≤ (out ++ [h]).length) then (out ++ [h], true)
        else hitRecords win seq cursor limit recs (out ++ [h])

/-- The segments in the order they were sealed, until the page is full. -/
def hitSegments (win : WindowRt) (lo hi : Bytes) (cursor : Option Hit) (limit : Option Nat) :
    List (Nat × List Rec) → List Hit → List Hit
  | [], out => out
  | s :: cold, out =>
    match hitRecords shape win s.1 cursor limit (s.2.filter (between lo hi)) out with
    | (out, true) => out
    | (out, false) => hitSegments win lo hi cursor limit cold out

/-- `cold_hits`. A limit of `usize::MAX`, which no number of records reaches, is none. -/
def coldHits (win : WindowRt) (min max : IndexValue) (cursor : Option Hit) (limit : Option Nat) : List Hit :=
  hitSegments shape win (segBounds min max).1 (segBounds min max).2 cursor limit win.cold []

def coldCount (win : WindowRt) (min max : IndexValue) : Nat :=
  if win.tombs.items.isEmpty then
    (win.cold.map fun s => (s.2.filter (between (segBounds min max).1 (segBounds min max).2)).length).sum
  else (win.coldHits shape min max none none).length

end WindowRt

/-! ## Rows, the tree and the window -/

/-- What `peek_hash_fields` finds of a row: nothing, or what it derives for the index and its stored columns. -/
inductive Peek (shape : WindowShape)
  | missing
  | row (primary : Option shape.Value) (columns : List (Option Bytes))

def Peek.value {shape : WindowShape} : Peek shape → Option IndexValue
  | missing => none
  | row primary _ => primary.map Subtype.val

def applyScalarRow {shape : WindowShape} (arity : Nat) (seg : Segment) (key : Bytes) (old : Option IndexValue) :
    Peek shape → Segment
  | .missing =>
    match old with
    | none => seg
    | some o => seg.remove key o
  | .row none _ => seg.applyWithValues arity key old none []
  | .row (some v) columns => seg.applyWithValues arity key old (some v) (if arity = 0 then [] else columns)

/-- One shard: the value each of its rows has in the index, the tree and the window. -/
structure Shard where
  rows : KeyedList Bytes IndexValue
  seg : Segment
  win : WindowRt

/-- What happens to the shard: a row changes, or the window slides. -/
inductive Step (shape : WindowShape)
  | write (key : Bytes) (row : Peek shape)
  | slide

namespace Shard

def new : Shard := ⟨.empty, ⟨[], List.Pairwise.nil⟩, .new⟩

def setRow (rows : KeyedList Bytes IndexValue) (key : Bytes) : Option IndexValue → KeyedList Bytes IndexValue
  | none => rows.erase key
  | some v => rows.insert key v

/-- `apply_row` finds the old entry by what the row held before; `slide` runs on a tick. -/
def step {shape : WindowShape} (spec : WindowSpec) (arity : Nat) (S : Shard) : Step shape → Shard
  | .write key row =>
    { rows := setRow S.rows key row.value
      seg := applyScalarRow arity S.seg key (S.rows.get key) row
      win := S.win.onRowWrite key }
  | .slide =>
    let slid := S.win.slide spec shape S.seg
    { S with seg := slid.1, win := slid.2.1 }

def run {shape : WindowShape} (spec : WindowSpec) (arity : Nat) (S : Shard) (steps : List (Step shape)) : Shard :=
  steps.foldl (step spec arity) S

/-- `IDX.COUNT` (`scalar_range_or_count`). -/
def count (S : Shard) (min max : IndexValue) : Nat :=
  S.seg.count min max + if S.win.hasCold then S.win.coldCount shape min max else 0

def mergeCold (hot cold : List Hit) (limit : Nat) : List Hit := mergeTake limit hot cold

/-- A page of `IDX.QUERY` (`scalar_range_or_count`). -/
def page (S : Shard) (min max : IndexValue) (limit : Nat) (cursor : Option Hit) : List Hit :=
  let hot := S.seg.range min max (cursor.map fun h => ⟨(ofLex h).1, (ofLex h).2⟩) limit
  if S.win.hasCold then mergeCold hot (S.win.coldHits shape min max cursor (some limit)) limit else hot

/-- The pages a client reads that follows the cursor (`reduce_query`): a full page returns its last hit. -/
def pages (S : Shard) (min max : IndexValue) (limit : Nat) (fuel : Nat) : List (List Hit) :=
  follow (S.page shape min max limit) limit fuel none

end Shard

end Kevy.Window
