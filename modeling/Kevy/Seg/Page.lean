import Kevy.Lib.Middle
import Kevy.Lib.Patch
import Kevy.Lib.Reader
import Kevy.Persist.Record

/-!
# Pages of a segment

A data page has a header with its slot count, cells packed forward behind the header, slots packed backward from the
checksum, and the checksum. A cell holds a key and its payload, or where in the file the payload is.
-/

namespace Kevy.Seg

open Kevy.Lib Kevy.Persist Kevy.Resp List

/-- `PAGE`. -/
def pageSize : Nat := 4096

def pageCrc : Nat := 4

def pageHdr : Nat := 4

/-- `OVERFLOW`. -/
def overflowMark : Nat := 2 ^ 32 - 1

def overflowCap : Nat := pageSize - pageCrc

def pageBudget : Nat := pageSize - pageHdr - pageCrc

def maxSlots : Nat := (pageSize - pageCrc - pageHdr) / 2

def inlineCellLen (klen plen : Nat) : Nat := 2 + 4 + klen + plen

def overflowCellLen (klen : Nat) : Nat := 2 + 4 + klen + 4 + 4 + 4

/-! ## Cells -/

inductive Cell
  | inline (key payload : Bytes)
  | overflow (key : Bytes) (totalLen firstPage nPages : Nat)
  deriving DecidableEq, Repr

def Cell.key : Cell → Bytes
  | .inline key _ => key
  | .overflow key _ _ _ => key

def writeInlineCell (key payload buf : Bytes) (off : Nat) : Bytes × Nat :=
  let buf := patch buf off (leBytes 2 key.length)
  let buf := patch buf (off + 2) (leBytes 4 payload.length)
  let buf := patch buf (off + 6) key
  let buf := patch buf (off + 6 + key.length) payload
  (buf, inlineCellLen key.length payload.length)

def writeOverflowCell (key : Bytes) (totalLen firstPage nPages : Nat) (buf : Bytes) (off : Nat) : Bytes × Nat :=
  let buf := patch buf off (leBytes 2 key.length)
  let buf := patch buf (off + 2) (leBytes 4 overflowMark)
  let buf := patch buf (off + 6) key
  let tail := off + 6 + key.length
  let buf := patch buf tail (leBytes 4 totalLen)
  let buf := patch buf (tail + 4) (leBytes 4 firstPage)
  let buf := patch buf (tail + 8) (leBytes 4 nPages)
  (buf, overflowCellLen key.length)

/-- The fields of `read_cell`, from the start of the cell on. -/
def cellReader : Reader Unit Cell := do
  let klen ← readExact () 2
  let plen ← readExact () 4
  let key ← readExact () (ofLe klen)
  if ofLe plen = overflowMark then do
    let totalLen ← readExact () 4
    let firstPage ← readExact () 4
    let nPages ← readExact () 4
    pure (.overflow key (ofLe totalLen) (ofLe firstPage) (ofLe nPages))
  else do
    let payload ← readExact () (ofLe plen)
    pure (.inline key payload)

def readCell (page : Bytes) (off : Nat) : Option Cell :=
  match cellReader (page.drop off) with
  | .ok (cell, _) => some cell
  | .error _ => none

/-! ## Pages -/

def sealPage (page : Bytes) (nSlots : Nat) : Bytes :=
  let page := patch page 0 (leBytes 2 nSlots)
  patch page (pageSize - pageCrc) (leBytes 4 (crc32c (page.take (pageSize - pageCrc))).toNat)

def pageIntact (page : Bytes) : Bool :=
  decide (page.length = pageSize) &&
    decide ((crc32c (page.take (pageSize - pageCrc))).toNat = ofLe (page.drop (pageSize - pageCrc)))

def pageSlots (page : Bytes) : Nat := ofLe (page.take 2)

def pageShapeOk (page : Bytes) : Bool := decide (page.length = pageSize) && decide (pageSlots page ≤ maxSlots)

def slotOffset (page : Bytes) (i : Nat) : Nat := ofLe ((page.drop (pageSize - pageCrc - 2 * (i + 1))).take 2)

/-- The slot directory of `seal_current_page`, from slot `i` on. -/
def writeSlots (page : Bytes) (i : Nat) : List Nat → Bytes
  | [] => page
  | s :: slots => writeSlots (patch page (pageSize - pageCrc - 2 * (i + 1)) (leBytes 2 s)) (i + 1) slots

/-! ## What is written -/

def Cell.encode : Cell → Bytes
  | .inline key payload => leBytes 2 key.length ++ (leBytes 4 payload.length ++ (key ++ payload))
  | .overflow key totalLen firstPage nPages =>
    leBytes 2 key.length ++ (leBytes 4 overflowMark ++ (key ++ (leBytes 4 totalLen ++ (leBytes 4 firstPage ++
      leBytes 4 nPages))))

def Cell.Fits : Cell → Prop
  | .inline key payload => key.length < 2 ^ 16 ∧ payload.length < overflowMark
  | .overflow key totalLen firstPage nPages =>
    key.length < 2 ^ 16 ∧ totalLen < 2 ^ 32 ∧ firstPage < 2 ^ 32 ∧ nPages < 2 ^ 32

theorem length_encode_inline (key payload : Bytes) :
    (Cell.inline key payload).encode.length = inlineCellLen key.length payload.length := by
  simp only [Cell.encode, length_append, length_leBytes, inlineCellLen]
  omega

theorem length_encode_overflow (key : Bytes) (totalLen firstPage nPages : Nat) :
    (Cell.overflow key totalLen firstPage nPages).encode.length = overflowCellLen key.length := by
  simp only [Cell.encode, length_append, length_leBytes, overflowCellLen]
  omega

theorem writeInlineCell_eq {key payload buf : Bytes} {off : Nat}
    (h : off + (Cell.inline key payload).encode.length ≤ buf.length) : writeInlineCell key payload buf off =
      (patch buf off (Cell.inline key payload).encode, (Cell.inline key payload).encode.length) := by
  rw [length_encode_inline] at h ⊢
  unfold writeInlineCell
  unfold inlineCellLen at h
  dsimp only
  rw [patch_patch buf, patch_patch buf, patch_patch buf]
  · simp only [Cell.encode, append_assoc]
  -- the writes are side by side and inside the buffer
  all_goals grind [length_leBytes]

theorem writeOverflowCell_eq {key buf : Bytes} {totalLen firstPage nPages off : Nat}
    (h : off + (Cell.overflow key totalLen firstPage nPages).encode.length ≤ buf.length) :
    writeOverflowCell key totalLen firstPage nPages buf off =
      (patch buf off (Cell.overflow key totalLen firstPage nPages).encode,
        (Cell.overflow key totalLen firstPage nPages).encode.length) := by
  rw [length_encode_overflow] at h ⊢
  unfold writeOverflowCell
  unfold overflowCellLen at h
  dsimp only
  rw [patch_patch buf, patch_patch buf, patch_patch buf, patch_patch buf, patch_patch buf]
  · simp only [Cell.encode, append_assoc]
  -- the writes are side by side and inside the buffer
  all_goals grind [length_leBytes]

variable {cell : Cell}

theorem reads_cell (h : cell.Fits) : Reads () cellReader cell.encode cell := by
  cases cell with
  | inline key payload =>
    obtain ⟨hkey, hpayload⟩ := h
    have hklen : ofLe (leBytes 2 key.length) = key.length := ofLe_leBytes_of_lt hkey
    have hplen : ofLe (leBytes 4 payload.length) = payload.length :=
      ofLe_leBytes_of_lt (hpayload.trans_le (Nat.sub_le _ _))
    refine (Reads.readExact (length_leBytes 2 _)).bind ((Reads.readExact (length_leBytes 4 _)).bind
      ((Reads.readExact hklen.symm).bind ?_))
    rw [hplen, if_neg (Nat.ne_of_lt hpayload)]
    exact (Reads.readExact rfl).map
  | overflow key totalLen firstPage nPages =>
    obtain ⟨hkey, htotal, hfirst, hpages⟩ := h
    have hklen : ofLe (leBytes 2 key.length) = key.length := ofLe_leBytes_of_lt hkey
    have htotal' : ofLe (leBytes 4 totalLen) = totalLen := ofLe_leBytes_of_lt htotal
    have hfirst' : ofLe (leBytes 4 firstPage) = firstPage := ofLe_leBytes_of_lt hfirst
    have hpages' : ofLe (leBytes 4 nPages) = nPages := ofLe_leBytes_of_lt hpages
    have hmark : ofLe (leBytes 4 overflowMark) = overflowMark := ofLe_leBytes_of_lt (by decide)
    refine (Reads.readExact (length_leBytes 2 _)).bind ((Reads.readExact (length_leBytes 4 _)).bind
      ((Reads.readExact hklen.symm).bind ?_))
    rw [if_pos hmark]
    refine (Reads.readExact (length_leBytes 4 _)).bind ((Reads.readExact (length_leBytes 4 _)).bind ?_)
    have hlast : Reads () (readExact () 4) (leBytes 4 nPages) _ := Reads.readExact (length_leBytes 4 nPages)
    have hmap := hlast.map (g := fun bs => Cell.overflow key (ofLe (leBytes 4 totalLen)) (ofLe (leBytes 4 firstPage))
      (ofLe bs))
    rw [htotal', hfirst', hpages'] at hmap
    rwa [htotal', hfirst']

theorem readCell_of_drop {page rest : Bytes} {off : Nat} (h : cell.Fits)
    (hpage : page.drop off = cell.encode ++ rest) : readCell page off = some cell := by
  unfold readCell
  rw [hpage, (reads_cell h).whole rest]

/-! ## Sealed pages -/

def cellBytes (cells : List Cell) : Bytes := cells.flatMap Cell.encode

def offsets (off : Nat) : List Cell → List Nat
  | [] => []
  | cell :: cells => off :: offsets (off + cell.encode.length) cells

def Room (cells : List Cell) : Prop := (cellBytes cells).length + 2 * cells.length ≤ pageBudget

instance (cells : List Cell) : Decidable (Room cells) := inferInstanceAs (Decidable (_ ≤ _))

def openPage (cells : List Cell) : Bytes :=
  List.replicate pageHdr 0 ++ (cellBytes cells ++ List.replicate (pageSize - pageHdr - (cellBytes cells).length) 0)

def sealedBody (cells : List Cell) : Bytes :=
  leBytes 2 cells.length ++ (List.replicate 2 0 ++ (cellBytes cells ++
    (List.replicate (pageBudget - (cellBytes cells).length - 2 * cells.length) 0 ++
      (offsets pageHdr cells).reverse.flatMap (leBytes 2))))

def sealedPage (cells : List Cell) : Bytes :=
  sealedBody cells ++ leBytes 4 (crc32c (sealedBody cells)).toNat

@[simp] theorem length_offsets (off : Nat) (cells : List Cell) : (offsets off cells).length = cells.length := by
  induction cells generalizing off with
  | nil => rfl
  | cons cell cells ih => rw [offsets, length_cons, length_cons, ih]

@[simp] theorem length_slots (slots : List Nat) : (slots.flatMap (leBytes 2)).length = 2 * slots.length := by
  induction slots with
  | nil => rfl
  | cons s slots ih =>
    rw [flatMap_cons, length_append, length_leBytes, ih, length_cons]
    omega

theorem offsets_append (off : Nat) (L R : List Cell) :
    offsets off (L ++ R) = offsets off L ++ offsets (off + (cellBytes L).length) R := by
  induction L generalizing off with
  | nil => rfl
  | cons cell L ih =>
    rw [cons_append, offsets, offsets, ih, cellBytes, cellBytes, flatMap_cons, length_append, ← Nat.add_assoc]
    rfl

theorem cellBytes_append (L R : List Cell) : cellBytes (L ++ R) = cellBytes L ++ cellBytes R := flatMap_append

variable {cells : List Cell}

theorem length_openPage (h : Room cells) : (openPage cells).length = pageSize := by
  unfold Room pageBudget pageHdr pageCrc at h
  simp only [openPage, length_append, length_replicate, pageHdr]
  unfold pageSize at *
  omega

theorem length_sealedBody (h : Room cells) : (sealedBody cells).length = pageSize - pageCrc := by
  unfold Room pageBudget pageHdr pageCrc at h
  simp only [sealedBody, length_append, length_replicate, length_leBytes, length_slots, length_reverse,
    length_offsets, pageBudget, pageHdr, pageCrc]
  unfold pageSize at *
  omega

theorem length_sealedPage (h : Room cells) : (sealedPage cells).length = pageSize := by
  rw [sealedPage, length_append, length_sealedBody h, length_leBytes]
  rfl

theorem writeSlots_eq (X : Bytes) (slots : List Nat) {Z T : Bytes} {i : Nat} (hZ : Z.length = 2 * slots.length)
    (hT : T.length = pageCrc + 2 * i) (hlen : (X ++ (Z ++ T)).length = pageSize) :
    writeSlots (X ++ (Z ++ T)) i slots = X ++ (slots.reverse.flatMap (leBytes 2) ++ T) := by
  induction slots generalizing Z T i with
  | nil =>
    rw [length_eq_zero_iff.mp hZ]
    rfl
  | cons s slots ih =>
    rw [length_cons] at hZ
    -- the last two bytes of `Z` take the slot
    have hsplit : Z = Z.take (2 * slots.length) ++ Z.drop (2 * slots.length) := (take_append_drop _ _).symm
    have htake : (Z.take (2 * slots.length)).length = 2 * slots.length := by
      rw [length_take]
      omega
    have hdrop : (leBytes 2 s).length = (Z.drop (2 * slots.length)).length := by
      rw [length_leBytes, length_drop]
      omega
    have hpos : pageSize - pageCrc - 2 * (i + 1) = (X ++ Z.take (2 * slots.length)).length := by
      simp only [length_append] at hlen ⊢
      rw [htake]
      omega
    have hpage : X ++ (Z ++ T) = (X ++ Z.take (2 * slots.length)) ++ (Z.drop (2 * slots.length) ++ T) := by
      nth_rewrite 1 [hsplit]
      simp only [append_assoc]
    rw [writeSlots, hpage, hpos, patch_middle hdrop, append_assoc, ih htake]
    · rw [reverse_cons, flatMap_append, flatMap_singleton, append_assoc]
    · rw [length_append, length_leBytes, hT]
      omega
    · simp only [length_append, length_leBytes] at hlen ⊢
      rw [htake]
      omega

theorem sealPage_openPage (h : Room cells) :
    sealPage (writeSlots (openPage cells) 0 (offsets pageHdr cells)) cells.length = sealedPage cells := by
  have hroom := h
  unfold Room at hroom
  -- the zeros behind the cells: the free middle, the place of the slots and the place of the checksum
  have hzeros : List.replicate (pageSize - pageHdr - (cellBytes cells).length) (0 : UInt8) =
      List.replicate (pageBudget - (cellBytes cells).length - 2 * cells.length) 0 ++
        (List.replicate (2 * cells.length) 0 ++ List.replicate pageCrc 0) := by
    rw [replicate_append_replicate, replicate_append_replicate]
    congr 1
    unfold pageBudget pageSize pageHdr pageCrc at *
    omega
  have hopen : openPage cells = (List.replicate 2 0 ++ (List.replicate 2 0 ++ (cellBytes cells ++
      List.replicate (pageBudget - (cellBytes cells).length - 2 * cells.length) 0))) ++
        (List.replicate (2 * cells.length) 0 ++ List.replicate pageCrc 0) := by
    rw [openPage, hzeros]
    simp only [append_assoc]
    rfl
  have hslots : writeSlots (openPage cells) 0 (offsets pageHdr cells) = List.replicate 2 0 ++ (List.replicate 2 0 ++
      (cellBytes cells ++ (List.replicate (pageBudget - (cellBytes cells).length - 2 * cells.length) 0 ++
        ((offsets pageHdr cells).reverse.flatMap (leBytes 2) ++ List.replicate pageCrc 0)))) := by
    have hlen := length_openPage h
    rw [hopen] at hlen ⊢
    rw [writeSlots_eq _ _ (by simp) (by simp) hlen]
    simp only [append_assoc]
  have hcount : patch (writeSlots (openPage cells) 0 (offsets pageHdr cells)) 0 (leBytes 2 cells.length) =
      sealedBody cells ++ List.replicate pageCrc 0 := by
    have hwidth : (leBytes 2 cells.length).length = (List.replicate 2 (0 : UInt8)).length := by simp
    rw [hslots, patch_front hwidth]
    simp only [sealedBody, append_assoc]
  have hbody : (sealedBody cells ++ List.replicate pageCrc 0).take (pageSize - pageCrc) = sealedBody cells := by
    rw [← length_sealedBody h, take_left]
  unfold sealPage
  dsimp only
  rw [hcount, hbody, patch_behind (length_sealedBody h).symm (by simp [pageCrc]), sealedPage]
  simp [pageCrc]

/-! ## Reading a sealed page -/

theorem pageIntact_sealedPage (h : Room cells) : pageIntact (sealedPage cells) = true := by
  have hbody : (sealedPage cells).take (pageSize - pageCrc) = sealedBody cells := by
    rw [← length_sealedBody h, sealedPage, take_left]
  have hcrc : (sealedPage cells).drop (pageSize - pageCrc) = leBytes 4 (crc32c (sealedBody cells)).toNat := by
    rw [← length_sealedBody h, sealedPage, drop_left]
  have hread : ofLe (leBytes 4 (crc32c (sealedBody cells)).toNat) = (crc32c (sealedBody cells)).toNat :=
    ofLe_leBytes_of_lt (crc32c (sealedBody cells)).toNat_lt
  unfold pageIntact
  rw [hbody, hcrc, hread, length_sealedPage h]
  simp

theorem pageSlots_sealedPage (h : Room cells) : pageSlots (sealedPage cells) = cells.length := by
  have hfew : cells.length < 256 ^ 2 := by
    unfold Room pageBudget pageSize pageHdr pageCrc at h
    omega
  have htake : (sealedPage cells).take 2 = leBytes 2 cells.length := by
    rw [sealedPage, sealedBody, append_assoc, take_left' (length_leBytes 2 _)]
  rw [pageSlots, htake]
  exact ofLe_leBytes_of_lt hfew

theorem pageShapeOk_sealedPage (h : Room cells) : pageShapeOk (sealedPage cells) = true := by
  unfold pageShapeOk
  rw [length_sealedPage h, pageSlots_sealedPage h]
  unfold Room pageBudget pageSize pageHdr pageCrc at h
  unfold maxSlots pageSize pageHdr pageCrc
  simp only [decide_true, Bool.true_and, decide_eq_true_eq]
  omega

theorem slotOffset_sealedPage {L R : List Cell} (h : Room (L ++ cell :: R)) :
    slotOffset (sealedPage (L ++ cell :: R)) L.length = pageHdr + (cellBytes L).length := by
  have hsmall : pageHdr + (cellBytes L).length < 256 ^ 2 := by
    unfold Room pageBudget pageSize pageHdr pageCrc at h
    rw [cellBytes_append, length_append] at h
    unfold pageHdr
    omega
  -- the slots of the cells before it are behind its own
  obtain ⟨front, hpage⟩ : ∃ front, sealedPage (L ++ cell :: R) = front ++ (leBytes 2 (pageHdr + (cellBytes L).length) ++
      ((offsets pageHdr L).reverse.flatMap (leBytes 2) ++ leBytes 4 (crc32c (sealedBody (L ++ cell :: R))).toNat)) := by
    refine ⟨leBytes 2 (L ++ cell :: R).length ++ (List.replicate 2 0 ++ (cellBytes (L ++ cell :: R) ++
      (List.replicate (pageBudget - (cellBytes (L ++ cell :: R)).length - 2 * (L ++ cell :: R).length) 0 ++
        (offsets (pageHdr + (cellBytes L).length + cell.encode.length) R).reverse.flatMap (leBytes 2)))), ?_⟩
    rw [sealedPage]
    nth_rewrite 1 [sealedBody]
    rw [offsets_append pageHdr L, offsets, reverse_append, reverse_cons, flatMap_append,
      flatMap_append, flatMap_singleton]
    simp only [append_assoc]
  have hfront : front.length = pageSize - pageCrc - 2 * (L.length + 1) := by
    have hlen := length_sealedPage h
    rw [hpage] at hlen
    simp only [length_append, length_leBytes, length_slots, length_reverse, length_offsets] at hlen
    unfold pageCrc
    omega
  unfold slotOffset
  rw [hpage, drop_left' hfront, take_left' (length_leBytes 2 _)]
  exact ofLe_leBytes_of_lt hsmall

theorem readCell_sealedPage {L R : List Cell} (hfits : cell.Fits) :
    readCell (sealedPage (L ++ cell :: R)) (pageHdr + (cellBytes L).length) = some cell := by
  have hpage : sealedPage (L ++ cell :: R) = (leBytes 2 (L ++ cell :: R).length ++ (List.replicate 2 0 ++ cellBytes L)) ++
      (cell.encode ++ (cellBytes R ++
        (List.replicate (pageBudget - (cellBytes (L ++ cell :: R)).length - 2 * (L ++ cell :: R).length) 0 ++
        ((offsets pageHdr (L ++ cell :: R)).reverse.flatMap (leBytes 2) ++
          leBytes 4 (crc32c (sealedBody (L ++ cell :: R))).toNat)))) := by
    rw [sealedPage]
    nth_rewrite 1 [sealedBody]
    nth_rewrite 1 [cellBytes_append]
    nth_rewrite 2 [cellBytes]
    rw [flatMap_cons]
    simp only [append_assoc]
    rfl
  have hfront : (leBytes 2 (L ++ cell :: R).length ++ (List.replicate 2 0 ++ cellBytes L)).length =
      pageHdr + (cellBytes L).length := by
    simp only [length_append, length_leBytes, length_replicate, pageHdr]
    omega
  exact readCell_of_drop hfits (by rw [hpage, drop_left' hfront])

end Kevy.Seg
