import Kevy.Lib.ByteOrder
import Kevy.Lib.Fences
import Kevy.Seg.Manifest
import Kevy.Seg.Page

/-!
# Segments

The builder takes records in key order, fills pages and seals them with a footer that holds the first key of every data
page. The reader finds the page of a key in that table and the key in the page.
-/

set_option linter.dupNamespace false

namespace Kevy.Seg

open Kevy.Lib Kevy.Persist Kevy.Resp

/-- `SegError`; `panic` is an index out of bounds. -/
inductive SegError
  | io
  | corrupt (what : String)
  | unsorted
  | panic
  deriving DecidableEq, Repr

structure SegMeta where
  records : Nat
  dataPages : Nat
  minKey : Bytes
  maxKey : Bytes
  deriving DecidableEq, Repr

def magic : Nat := 0x4B534547

/-- `TRAILER`. -/
def trailerLen : Nat := 16

def u32 (n : Nat) : Nat := n % 2 ^ 32

/-! ## The footer -/

def encodeFence (fence : Nat × Bytes) : Bytes := leBytes 4 fence.1 ++ encodePart fence.2

/-- The body of `encode_footer`. -/
def footerBody (records dataPages : Nat) (minKey maxKey : Bytes) (fences : List (Nat × Bytes)) : Bytes :=
  leBytes 8 records ++ (leBytes 4 dataPages ++ (encodePart minKey ++ (encodePart maxKey ++
    (leBytes 4 fences.length ++ fences.flatMap encodeFence))))

def encodeFooter (records dataPages : Nat) (minKey maxKey : Bytes) (fences : List (Nat × Bytes)) : Bytes :=
  let b := footerBody records dataPages minKey maxKey fences
  b ++ leBytes 4 (crc32c b).toNat

def readFence : Reader Unit (Nat × Bytes) := do
  let page ← readExact () 4
  let key ← readPart
  pure (ofLe page, key)

/-- The fields of `decode_footer`. -/
def footerReader : Reader Unit (SegMeta × List (Nat × Bytes)) := do
  let records ← readExact () 8
  let dataPages ← readExact () 4
  let minKey ← readPart
  let maxKey ← readPart
  let nf ← readExact () 4
  let fences ← readMany readFence (ofLe nf)
  pure (⟨ofLe records, ofLe dataPages, minKey, maxKey⟩, fences)

def decodeFooter (b : Bytes) : Option (SegMeta × List (Nat × Bytes)) :=
  if b.length < 4 then none
  else if (crc32c (b.take (b.length - 4))).toNat ≠ ofLe (b.drop (b.length - 4)) then none
  else
    match footerReader (b.take (b.length - 4)) with
    | .ok (footer, []) => some footer
    | _ => none

/-! ## The builder -/

/-- `SegBuilder`; `w` is what was written to the file. -/
structure SegBuilder where
  w : Bytes
  page : Bytes
  used : Nat
  slots : List Nat
  pagesWritten : Nat
  fences : List (Nat × Bytes)
  records : Nat
  minKey : Bytes
  lastKey : Bytes

def blankPage : Bytes := List.replicate pageSize 0

/-- A page of `push_overflow`. -/
def overflowPage (chunk : Bytes) : Bytes :=
  let p := patch blankPage 0 chunk
  patch p (pageSize - pageCrc) (leBytes 4 (crc32c (p.take (pageSize - pageCrc))).toNat)

/-- The pages of `push_overflow`, one for each of the `chunks` of the payload. -/
def overflowPages (payload : Bytes) : List Bytes :=
  (List.range ((payload.length + overflowCap - 1) / overflowCap)).map fun i =>
    overflowPage ((payload.drop (i * overflowCap)).take overflowCap)

namespace SegBuilder

def create : SegBuilder := ⟨[], blankPage, 0, [], 0, [], 0, [], []⟩

def sealCurrentPage (b : SegBuilder) : SegBuilder :=
  if b.slots = [] then b
  else
    let page := sealPage (writeSlots b.page 0 b.slots) b.slots.length
    { b with w := b.w ++ page, pagesWritten := u32 (b.pagesWritten + 1), page := blankPage, used := 0, slots := [] }

def pushCell (b : SegBuilder) (key : Bytes) (write : Bytes → Nat → Bytes × Nat) : SegBuilder :=
  let cellLen := (write blankPage 0).2
  let b := if b.used + (pageHdr + cellLen + 2 * (b.slots.length + 1)) > pageBudget + pageHdr then b.sealCurrentPage else b
  let b := if b.slots = [] then { b with fences := b.fences ++ [(b.pagesWritten, key)] } else b
  let off := pageHdr + b.used
  let (page, written) := write b.page off
  { b with page, slots := b.slots ++ [off], used := b.used + written }

def pushOverflow (b : SegBuilder) (key payload : Bytes) : SegBuilder :=
  let cell := overflowCellLen key.length
  let b :=
    if pageHdr + b.used + cell + 2 * (b.slots.length + 1) > pageBudget + pageHdr then b.sealCurrentPage else b
  -- the overflow pages follow the sealed page in the file
  let b := b.sealCurrentPage
  let firstPage := b.pagesWritten
  let pages := overflowPages payload
  let b := { b with w := b.w ++ pages.flatten, pagesWritten := u32 (b.pagesWritten + pages.length) }
  b.pushCell key (writeOverflowCell key (u32 payload.length) firstPage (u32 pages.length))

def push (b : SegBuilder) (key payload : Bytes) : SegBuilder × Except SegError Unit :=
  if b.records > 0 ∧ key ≤ b.lastKey then (b, .error .unsorted)
  else
    let inline := inlineCellLen key.length payload.length
    if inline + 2 > pageBudget ∧ overflowCellLen key.length + 2 > pageBudget then
      (b, .error (.corrupt "key too large for a page"))
    else
      let pushed :=
        if inline + 2 ≤ pageBudget then b.pushCell key (writeInlineCell key payload) else b.pushOverflow key payload
      let minKey := if pushed.records = 0 then key else pushed.minKey
      ({ pushed with minKey, lastKey := key, records := pushed.records + 1 }, .ok ())

def finish (b : SegBuilder) : Except SegError (Bytes × SegMeta) :=
  if b.slots = [] ∧ b.records = 0 then .error (.corrupt "empty segment refused")
  else
    let b := b.sealCurrentPage
    let footer := encodeFooter b.records b.pagesWritten b.minKey b.lastKey b.fences
    let footerOff := b.pagesWritten * pageSize
    let trailer := leBytes 8 footerOff ++ (leBytes 4 footer.length ++ leBytes 4 magic)
    .ok (b.w ++ (footer ++ trailer), ⟨b.records, u32 b.fences.length, b.minKey, b.lastKey⟩)

end SegBuilder

/-! ## The reader -/

/-- `Seg`; `info` is its `meta`. -/
structure Seg where
  f : Bytes
  info : SegMeta
  fences : List (Nat × Bytes)

def readExactAt (f : Bytes) (off len : Nat) : Except SegError Bytes :=
  if off + len ≤ f.length then .ok ((f.drop off).take len) else .error .io

namespace Seg

/-- The last step of `open`. -/
def openFooter (f footer : Bytes) : Except SegError Seg :=
  match decodeFooter footer with
  | none => .error (.corrupt "footer crc/shape")
  | some (info, fences) => .ok ⟨f, info, fences⟩

/-- `open`. -/
def openFile (f : Bytes) : Except SegError Seg := do
  if f.length < trailerLen then .error (.corrupt "shorter than the trailer")
  else
    let tr ← readExactAt f (f.length - trailerLen) trailerLen
    if ofLe (tr.drop 12) ≠ magic then .error (.corrupt "bad magic")
    else
      let footerOff := ofLe (tr.take 8)
      let footerLen := ofLe ((tr.drop 8).take 4)
      if footerOff + (footerLen + trailerLen) ≠ f.length then .error (.corrupt "trailer does not close the file")
      else
        let footer ← readExactAt f footerOff footerLen
        openFooter f footer

/-- `fence_page`: the last page whose first key is not above `key`, as the binary search over the ascending fences
finds it. -/
def fencePage (seg : Seg) (key : Bytes) : Nat := fence (seg.fences.map Prod.snd) key

def readPage (seg : Seg) (ix : Nat) : Except SegError Bytes :=
  match seg.fences[ix]? with
  | none => .error .panic
  | some (pageIndex, _) =>
    match readExactAt seg.f (pageIndex * pageSize) pageSize with
    | .error e => .error e
    | .ok buf =>
      if !pageIntact buf then .error (.corrupt "data page crc")
      else if !pageShapeOk buf then .error (.corrupt "data page slot count")
      else .ok buf

def gather (seg : Seg) (totalLen firstPage : Nat) : (p n : Nat) → (out : Bytes) → Except SegError Bytes
  | _, 0, out => .ok out
  | p, n + 1, out =>
    match readExactAt seg.f ((firstPage + p) * pageSize) pageSize with
    | .error e => .error e
    | .ok buf =>
      if !pageIntact buf then .error (.corrupt "overflow page crc")
      else seg.gather totalLen firstPage (p + 1) n (out ++ buf.take (min overflowCap (totalLen - out.length)))

def materialize (seg : Seg) : Cell → Except SegError Bytes
  | .inline _ payload => .ok payload
  | .overflow _ totalLen firstPage nPages =>
    match seg.gather totalLen firstPage 0 nPages [] with
    | .error e => .error e
    | .ok out => if out.length ≠ totalLen then .error (.corrupt "overflow run short") else .ok out

/-- The search of `get` in a page, between two slots. -/
def search (seg : Seg) (page key : Bytes) : (fuel lo hi : Nat) → Except SegError (Option Bytes)
  | 0, _, _ => .ok none
  | fuel + 1, lo, hi =>
    if lo < hi then
      let mid := lo + (hi - lo) / 2
      match readCell page (slotOffset page mid) with
      | none => .error (.corrupt "cell shape")
      | some cell =>
        if cell.key < key then seg.search page key fuel (mid + 1) hi
        else if key < cell.key then seg.search page key fuel lo mid
        else (seg.materialize cell).map some
    else .ok none

def get (seg : Seg) (key : Bytes) : Except SegError (Option Bytes) :=
  if key < seg.info.minKey ∨ seg.info.maxKey < key then .ok none
  else
    match seg.readPage (seg.fencePage key) with
    | .error e => .error e
    | .ok page => seg.search page key (pageSlots page + 1) 0 (pageSlots page)

/-- The slots of a page that `count_range` looks at, from slot `s` on. -/
def countSlots (page lo hi : Bytes) : (s n : Nat) → (count : Nat) → Except SegError Nat
  | _, 0, count => .ok count
  | s, n + 1, count =>
    match readCell page (slotOffset page s) with
    | none => .error (.corrupt "cell shape")
    | some cell => countSlots page lo hi (s + 1) n (if lo ≤ cell.key ∧ cell.key ≤ hi then count + 1 else count)

/-- The pages `count_range` goes through, from page `ix` on. -/
def countPages (seg : Seg) (lo hi : Bytes) (first last : Nat) : (ix n : Nat) → (count : Nat) → Except SegError Nat
  | _, 0, count => .ok count
  | ix, n + 1, count =>
    match seg.readPage ix with
    | .error e => .error e
    | .ok page =>
      let slots := pageSlots page
      if ix ≠ first ∧ ix ≠ last then seg.countPages lo hi first last (ix + 1) n (count + slots)
      else
        match countSlots page lo hi 0 slots count with
        | .error e => .error e
        | .ok count => seg.countPages lo hi first last (ix + 1) n count

def countRange (seg : Seg) (lo hi : Bytes) : Except SegError Nat :=
  if hi < lo ∨ seg.fences = [] then .ok 0
  else
    let first := seg.fencePage lo
    let last := seg.fencePage hi
    seg.countPages lo hi first last first (last + 1 - first) 0

end Seg

/-! ## Ranges -/

structure RangeIter where
  pageIx : Nat
  slot : Nat
  lo : Bytes
  hi : Bytes
  page : Option Bytes
  done : Bool

/-- How a turn of the loop of `next` ends: it goes on, gives an item, or gives `None`. -/
inductive Turn
  | again (it : RangeIter)
  | item (e : Except SegError (Bytes × Bytes)) (it : RangeIter)
  | stop

def Seg.range (seg : Seg) (lo hi : Bytes) : RangeIter := ⟨seg.fencePage lo, 0, lo, hi, none, false⟩

namespace RangeIter

/-- A turn of the loop of `next`, once there is a page. -/
def onPage (seg : Seg) (it : RangeIter) (page : Bytes) : Turn :=
  if it.slot ≥ pageSlots page then .again { it with page := none, pageIx := it.pageIx + 1 }
  else
    let off := slotOffset page it.slot
    let it := { it with slot := it.slot + 1 }
    match readCell page off with
    | none => .item (.error (.corrupt "cell shape")) { it with done := true }
    | some cell =>
      if it.hi < cell.key then .stop
      else if cell.key < it.lo then .again it
      else .item ((seg.materialize cell).map fun p => (cell.key, p)) it

/-- A turn of the loop of `next`. -/
def turn (seg : Seg) (it : RangeIter) : Turn :=
  if it.done then .stop
  else
    match it.page with
    | some page => it.onPage seg page
    | none =>
      if it.pageIx ≥ seg.fences.length then .stop
      else
        match seg.readPage it.pageIx with
        | .error e => .item (.error e) { it with done := true }
        | .ok page => onPage seg { it with page := some page, slot := 0 } page

/-- What the iterator yields, in at most so many turns of its loop. -/
def collect (seg : Seg) : (turns : Nat) → RangeIter → Option (List (Except SegError (Bytes × Bytes)))
  | 0, _ => none
  | turns + 1, it =>
    match it.turn seg with
    | .stop => some []
    | .again it => it.collect seg turns
    | .item e it => (it.collect seg turns).map (e :: ·)

end RangeIter

end Kevy.Seg
