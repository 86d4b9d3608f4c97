import Kevy.Seg.Segment

/-!
# Building a segment

What the builder has taken is in the file, in sealed pages and in runs of overflow pages, and in the open page. Every
push keeps that, and a push that is refused changes nothing.
-/

set_option linter.dupNamespace false

namespace Kevy.Seg

open Kevy.Lib Kevy.Persist Kevy.Resp List

/-! ## Places in the file -/

def StandsAt (w : Bytes) (n : Nat) (bs : Bytes) : Prop := ∃ A C, w = A ++ (bs ++ C) ∧ A.length = n * pageSize

variable {n : Nat}

variable {w : Bytes}

theorem StandsAt.append {bs : Bytes} (h : StandsAt w n bs) (more : Bytes) : StandsAt (w ++ more) n bs := by
  obtain ⟨A, C, rfl, hA⟩ := h
  exact ⟨A, C ++ more, by simp only [append_assoc], hA⟩

theorem standsAt_end (h : w.length = n * pageSize) (bs : Bytes) : StandsAt (w ++ bs) n bs :=
  ⟨w, [], by rw [append_nil], h⟩

theorem StandsAt.readExactAt {bs : Bytes} (h : StandsAt w n bs) {len : Nat} (hlen : bs.length = len) :
    Seg.readExactAt w (n * pageSize) len = .ok bs := by
  obtain ⟨A, C, rfl, hA⟩ := h
  unfold Seg.readExactAt
  rw [← hA, if_pos (by simp only [length_append]; omega), drop_left, take_left' hlen]

/-! ## Overflow runs -/

variable {chunk : Bytes}

section Overflow

variable (h : chunk.length ≤ overflowCap)
include h

theorem overflowPage_eq : overflowPage chunk = (chunk ++ List.replicate (overflowCap - chunk.length) 0) ++
      leBytes 4 (crc32c (chunk ++ List.replicate (overflowCap - chunk.length) 0)).toNat := by
  have hblank : blankPage = List.replicate chunk.length 0 ++
      (List.replicate (overflowCap - chunk.length) 0 ++ List.replicate pageCrc 0) := by
    rw [replicate_append_replicate, replicate_append_replicate, blankPage]
    congr 1
    unfold overflowCap pageSize pageCrc at *
    omega
  have hbody : (chunk ++ List.replicate (overflowCap - chunk.length) (0 : UInt8)).length = pageSize - pageCrc := by
    rw [length_append, length_replicate, Nat.add_sub_cancel' h]
    rfl
  unfold overflowPage
  rw [hblank, patch_front (by simp)]
  dsimp only
  rw [← append_assoc, take_left' hbody, patch_behind hbody.symm (by simp [pageCrc])]
  simp [pageCrc]

theorem length_overflowPage : (overflowPage chunk).length = pageSize := by
  rw [overflowPage_eq h, length_append, length_append, length_replicate, length_leBytes, Nat.add_sub_cancel' h]
  rfl

theorem pageIntact_overflowPage : pageIntact (overflowPage chunk) = true := by
  have hbody : (chunk ++ List.replicate (overflowCap - chunk.length) (0 : UInt8)).length = pageSize - pageCrc := by
    rw [length_append, length_replicate, Nat.add_sub_cancel' h]
    rfl
  have hlen := length_overflowPage h
  unfold pageIntact
  rw [hlen, overflowPage_eq h, take_left' hbody, drop_left' hbody]
  have hread (n : UInt32) : ofLe (leBytes 4 n.toNat) = n.toNat := ofLe_leBytes_of_lt n.toNat_lt
  rw [hread]
  simp

theorem take_overflowPage : (overflowPage chunk).take chunk.length = chunk := by
  rw [overflowPage_eq h, append_assoc, take_left]

end Overflow

theorem length_chunk_le (payload : Bytes) (i : Nat) :
    ((payload.drop (i * overflowCap)).take overflowCap).length ≤ overflowCap := by
  rw [length_take]
  exact Nat.min_le_left _ _

theorem length_overflowPages (payload : Bytes) :
    (overflowPages payload).length = (payload.length + overflowCap - 1) / overflowCap := by
  rw [overflowPages, length_map, length_range]

theorem length_flatten_pages {pages : List Bytes} (h : ∀ p ∈ pages, p.length = pageSize) :
    pages.flatten.length = pages.length * pageSize := by
  induction pages with
  | nil => rw [flatten_nil, length_nil, length_nil, Nat.zero_mul]
  | cons p pages ih =>
    rw [flatten_cons, length_append, h p mem_cons_self, ih (forall_mem_cons.mp h).2,
      length_cons, Nat.succ_mul, Nat.add_comm]

variable {payload : Bytes}

theorem mem_overflowPages {page : Bytes} (h : page ∈ overflowPages payload) : page.length = pageSize := by
  obtain ⟨i, -, rfl⟩ := List.mem_map.mp h
  exact length_overflowPage (length_chunk_le payload i)

theorem StandsAt.page {pages : List Bytes} (h : StandsAt w n pages.flatten)
    (hpages : ∀ p ∈ pages, p.length = pageSize) {i : Nat} {p : Bytes} (hp : pages[i]? = some p) : StandsAt w (n + i) p := by
  obtain ⟨A, C, rfl, hA⟩ := h
  obtain ⟨hlt, rfl⟩ := List.getElem?_eq_some_iff.mp hp
  have hsplit : pages = pages.take i ++ pages[i] :: pages.drop (i + 1) := by
    rw [← drop_eq_getElem_cons hlt, take_append_drop]
  refine ⟨A ++ (pages.take i).flatten, (pages.drop (i + 1)).flatten ++ C, ?_, ?_⟩
  · nth_rewrite 1 [hsplit]
    rw [flatten_append, flatten_cons]
    simp only [append_assoc]
  · rw [length_append, hA, length_flatten_pages fun p hp => hpages p (mem_of_mem_take hp), length_take,
      Nat.min_eq_left hlt.le, Nat.add_mul]

theorem gather_spec {seg : Seg} {first : Nat} (h : StandsAt seg.f first (overflowPages payload).flatten)
    (n : Nat) {p : Nat} (hn : p + n = (overflowPages payload).length) :
    seg.gather payload.length first p n (payload.take (p * overflowCap)) = .ok payload := by
  induction n generalizing p with
  | zero =>
    rw [Seg.gather, take_of_length_le]
    rw [length_overflowPages, Nat.add_zero] at hn
    rw [hn]
    have hdiv := Nat.div_add_mod (payload.length + overflowCap - 1) overflowCap
    have hmod := Nat.mod_lt (payload.length + overflowCap - 1) (show 0 < overflowCap by decide)
    rw [Nat.mul_comm] at hdiv
    omega
  | succ n ih =>
    have hlt : p < (payload.length + overflowCap - 1) / overflowCap := by
      rw [← length_overflowPages]
      omega
    have hget : (overflowPages payload)[p]? = some (overflowPage ((payload.drop (p * overflowCap)).take overflowCap)) := by
      rw [overflowPages, getElem?_map, getElem?_range hlt]
      rfl
    have hchunk := length_chunk_le payload p
    have hread := (h.page (fun _ => mem_overflowPages) hget).readExactAt (length_overflowPage hchunk)
    -- what the run has given so far ends where the chunk starts
    have hout : (payload.take (p * overflowCap)).length = p * overflowCap := by
      rw [length_take, Nat.min_eq_left]
      have hmul := Nat.mul_le_of_le_div _ _ _ (Nat.succ_le_of_lt hlt)
      rw [Nat.succ_mul] at hmul
      omega
    have htake : min overflowCap (payload.length - p * overflowCap) =
        ((payload.drop (p * overflowCap)).take overflowCap).length := by
      rw [length_take, length_drop]
    rw [Seg.gather, hread]
    dsimp only
    rw [pageIntact_overflowPage hchunk, Bool.not_true, if_neg Bool.false_ne_true, hout, htake, take_overflowPage hchunk,
      ← take_add, ← Nat.succ_mul]
    exact ih (by omega)

/-! ## What the builder holds -/

/-- A record and the cell that was written for it. -/
structure Placed where
  cell : Cell
  payload : Bytes

def Placed.record (p : Placed) : Bytes × Bytes := (p.cell.key, p.payload)

def Placed.Stored (w : Bytes) (p : Placed) : Prop :=
  p.cell.Fits ∧
    match p.cell with
    | .inline _ payload => payload = p.payload
    | .overflow _ totalLen firstPage nPages =>
      totalLen = p.payload.length ∧ nPages = u32 (overflowPages p.payload).length ∧
        ∃ n, firstPage = u32 n ∧ StandsAt w n (overflowPages p.payload).flatten

structure Sealed where
  index : Nat
  first : Placed
  rest : List Placed

def Sealed.cells (s : Sealed) : List Cell := (s.first :: s.rest).map Placed.cell

theorem Placed.Stored.append {p : Placed} (h : p.Stored w) (more : Bytes) : p.Stored (w ++ more) := by
  obtain ⟨cell, payload⟩ := p
  refine ⟨h.1, ?_⟩
  cases cell with
  | inline key payload => exact h.2
  | overflow key totalLen firstPage nPages =>
    obtain ⟨-, htotal, hpages, n, hfirst, hstands⟩ := h
    exact ⟨htotal, hpages, n, hfirst, hstands.append more⟩

namespace SegBuilder

variable {b : SegBuilder} {pages : List Sealed} {cur : List Placed}

/-- The pages that were sealed and the cells of the open page are what the builder has written and noted. -/
structure Holds (b : SegBuilder) (pages : List Sealed) (cur : List Placed) : Prop where
  fences : b.fences = pages.map (fun s => (u32 s.index, s.first.cell.key)) ++
    (cur.head?.map fun p => (b.pagesWritten, p.cell.key)).toList
  standing : ∀ s ∈ pages, StandsAt b.w s.index (sealedPage s.cells) ∧ Room s.cells
  stored : ∀ p ∈ pages.flatMap (fun s => s.first :: s.rest) ++ cur, p.Stored b.w
  page : b.page = openPage (cur.map Placed.cell)
  used : b.used = (cellBytes (cur.map Placed.cell)).length
  slots : b.slots = offsets pageHdr (cur.map Placed.cell)
  room : Room (cur.map Placed.cell)
  written : ∃ n, b.w.length = n * pageSize ∧ b.pagesWritten = u32 n

def taken (pages : List Sealed) (cur : List Placed) : List Placed := pages.flatMap (fun s => s.first :: s.rest) ++ cur

theorem u32_add (m n : Nat) : u32 (u32 m + n) = u32 (m + n) := Nat.mod_add_mod m (2 ^ 32) n

theorem holds_create : create.Holds [] [] where
  fences := rfl
  standing _ hs := absurd hs not_mem_nil
  stored _ hp := absurd hp not_mem_nil
  page := by
    show blankPage = List.replicate pageHdr 0 ++ ([] ++ List.replicate (pageSize - pageHdr - 0) 0)
    rw [nil_append, replicate_append_replicate]
    rfl
  used := rfl
  slots := rfl
  room := by decide
  written := ⟨0, rfl, rfl⟩

theorem Holds.slots_eq_nil (h : b.Holds pages cur) : b.slots = [] ↔ cur = [] := by
  rw [h.slots, ← length_eq_zero_iff, length_offsets, length_map, length_eq_zero_iff]

theorem Holds.seal (h : b.Holds pages cur) :
    ∃ pages', b.sealCurrentPage.Holds pages' [] ∧ taken pages' [] = taken pages cur := by
  cases cur with
  | nil =>
    refine ⟨pages, ?_, rfl⟩
    rw [sealCurrentPage, if_pos (h.slots_eq_nil.mpr rfl)]
    exact h
  | cons p ps =>
    obtain ⟨n, hlen, hn⟩ := h.written
    have hpage : sealPage (writeSlots b.page 0 b.slots) b.slots.length = sealedPage ((p :: ps).map Placed.cell) := by
      rw [h.page, h.slots, length_offsets, sealPage_openPage h.room]
    have hblank := holds_create.page
    refine ⟨pages ++ [⟨n, p, ps⟩], ?_, by simp [taken]⟩
    rw [sealCurrentPage, if_neg fun hnil => cons_ne_nil p ps (h.slots_eq_nil.mp hnil), hpage]
    refine ⟨?_, ?_, ?_, hblank, rfl, rfl, by decide, n + 1, ?_, ?_⟩
    · rw [h.fences, map_append, hn]
      simp
    · intro s hs
      rcases mem_append.mp hs with hs | hs
      · exact ⟨(h.standing s hs).1.append _, (h.standing s hs).2⟩
      · rw [mem_singleton.mp hs]
        exact ⟨standsAt_end hlen _, h.room⟩
    · intro q hq
      refine (h.stored q ?_).append _
      simpa using hq
    · rw [length_append, hlen, length_sealedPage h.room, Nat.succ_mul]
    · show u32 (b.pagesWritten + 1) = _
      rw [hn, u32_add]

theorem Holds.place (h : b.Holds pages cur) {p : Placed} (hp : p.Stored b.w)
    (hroom : Room ((cur ++ [p]).map Placed.cell)) :
    let fenced := if b.slots = [] then { b with fences := b.fences ++ [(b.pagesWritten, p.cell.key)] } else b
    Holds { fenced with page := patch fenced.page (pageHdr + fenced.used) p.cell.encode,
                        slots := fenced.slots ++ [pageHdr + fenced.used],
                        used := fenced.used + p.cell.encode.length } pages (cur ++ [p]) := by
  have hcells : (cur ++ [p]).map Placed.cell = cur.map Placed.cell ++ [p.cell] := by simp
  have hbytes : cellBytes (cur.map Placed.cell ++ [p.cell]) = cellBytes (cur.map Placed.cell) ++ p.cell.encode := by
    rw [cellBytes_append]
    simp [cellBytes]
  rw [hcells] at hroom
  have hfit := hroom
  unfold Room at hfit
  rw [hbytes, length_append, length_append, length_singleton] at hfit
  have hfenced : (if b.slots = [] then { b with fences := b.fences ++ [(b.pagesWritten, p.cell.key)] } else b) =
      { b with fences := pages.map (fun s => (u32 s.index, s.first.cell.key)) ++
        ((cur ++ [p]).head?.map fun p => (b.pagesWritten, p.cell.key)).toList } := by
    cases cur with
    | nil =>
      rw [if_pos (h.slots_eq_nil.mpr rfl), h.fences]
      simp
    | cons q qs =>
      rw [if_neg fun hnil => cons_ne_nil q qs (h.slots_eq_nil.mp hnil)]
      have hf := h.fences
      cases b
      simp only at hf ⊢
      rw [hf]
      rfl
  dsimp only
  rw [hfenced]
  refine ⟨rfl, h.standing, ?_, ?_, ?_, ?_, by rwa [hcells], h.written⟩
  · intro q hq
    rw [← append_assoc] at hq
    rcases mem_append.mp hq with hq | hq
    · exact h.stored q hq
    · exact mem_singleton.mp hq ▸ hp
  · -- the cell goes over the first zeros behind the others
    have hoff : pageHdr + b.used = (List.replicate pageHdr (0 : UInt8) ++ cellBytes (cur.map Placed.cell)).length := by
      rw [length_append, length_replicate, h.used]
    have hzeros : p.cell.encode.length ≤
        (List.replicate (pageSize - pageHdr - (cellBytes (cur.map Placed.cell)).length) (0 : UInt8)).length := by
      rw [length_replicate]
      unfold pageBudget pageSize pageHdr pageCrc at *
      omega
    show patch b.page (pageHdr + b.used) p.cell.encode = _
    rw [h.page, openPage, ← append_assoc, patch_behind hoff hzeros, hcells, openPage, hbytes, drop_replicate,
      length_append, Nat.sub_sub]
    simp only [append_assoc]
  · show b.used + p.cell.encode.length = _
    rw [hcells, hbytes, length_append, h.used]
  · show b.slots ++ [pageHdr + b.used] = _
    rw [hcells, offsets_append, h.slots, h.used]
    rfl

/-! ## Pushes -/

theorem sealCurrentPage_w (b : SegBuilder) : ∃ more, b.sealCurrentPage.w = b.w ++ more := by
  unfold sealCurrentPage
  split_ifs
  · exact ⟨[], (append_nil _).symm⟩
  · exact ⟨_, rfl⟩

/-- A function that writes the cell wherever there is room for it. -/
def Writes (write : Bytes → Nat → Bytes × Nat) (cell : Cell) : Prop :=
  ∀ buf off, off + cell.encode.length ≤ buf.length → write buf off = (patch buf off cell.encode, cell.encode.length)

theorem pushCell_spec (h : b.Holds pages cur) {p : Placed} (hp : p.Stored b.w) (hroom : Room [p.cell])
    {write : Bytes → Nat → Bytes × Nat} (hwrite : Writes write p.cell) :
    ∃ pages' cur', (b.pushCell p.cell.key write).Holds pages' cur' ∧ taken pages' cur' = taken pages cur ++ [p] := by
  have hsmall : p.cell.encode.length + 2 ≤ pageBudget := by
    unfold Room cellBytes at hroom
    rwa [flatMap_singleton] at hroom
  have hprobe : (write blankPage 0).2 = p.cell.encode.length := by
    rw [hwrite]
    rw [blankPage, length_replicate]
    unfold pageBudget at hsmall
    omega
  -- the page the cell goes to
  obtain ⟨pages', cur', b', hb', hholds, hstored, hroom', htaken⟩ : ∃ pages' cur' b',
      (if b.used + (pageHdr + p.cell.encode.length + 2 * (b.slots.length + 1)) > pageBudget + pageHdr then
        b.sealCurrentPage else b) = b' ∧ b'.Holds pages' cur' ∧ p.Stored b'.w ∧
      Room ((cur' ++ [p]).map Placed.cell) ∧ taken pages' cur' = taken pages cur := by
    split_ifs with hfull
    · obtain ⟨pages', hseal, htaken⟩ := h.seal
      obtain ⟨more, hmore⟩ := sealCurrentPage_w b
      exact ⟨pages', [], _, rfl, hseal, hmore ▸ hp.append more, hroom, htaken⟩
    · refine ⟨pages, cur, b, rfl, h, hp, ?_, rfl⟩
      rw [h.used, h.slots, length_offsets, length_map] at hfull
      unfold Room
      rw [map_append, map_singleton, cellBytes_append, length_append, length_append, length_map]
      have hone : cellBytes [p.cell] = p.cell.encode := flatMap_singleton ..
      rw [hone, length_singleton]
      omega
  refine ⟨pages', cur' ++ [p], ?_, ?_⟩
  · have hplace := hholds.place hstored hroom'
    unfold pushCell
    dsimp only at hplace ⊢
    rw [hprobe, hb', hwrite]
    · exact hplace
    · have hfit := hroom'
      unfold Room at hfit
      rw [map_append, map_singleton, cellBytes_append, length_append] at hfit
      have hone : cellBytes [p.cell] = p.cell.encode := flatMap_singleton ..
      rw [hone] at hfit
      split_ifs
      all_goals
        show pageHdr + b'.used + _ ≤ b'.page.length
        rw [hholds.page, length_openPage hholds.room, hholds.used]
        unfold pageBudget pageSize pageHdr pageCrc at *
        omega
  · rw [← htaken]
    simp [taken]

theorem Holds.spill (h : b.Holds pages []) (payload : Bytes) :
    Holds { b with w := b.w ++ (overflowPages payload).flatten,
                   pagesWritten := u32 (b.pagesWritten + (overflowPages payload).length) } pages [] where
  fences := h.fences
  standing s hs := ⟨(h.standing s hs).1.append _, (h.standing s hs).2⟩
  stored p hp := (h.stored p hp).append _
  page := h.page
  used := h.used
  slots := h.slots
  room := h.room
  written := by
    obtain ⟨n, hlen, hn⟩ := h.written
    refine ⟨n + (overflowPages payload).length, ?_, ?_⟩
    · rw [length_append, hlen, length_flatten_pages fun _ => mem_overflowPages, Nat.add_mul]
    · show u32 (b.pagesWritten + _) = _
      rw [hn, u32_add]

theorem pushOverflow_spec (h : b.Holds pages cur) {key : Bytes} (hpayload : payload.length < 2 ^ 32)
    (hkey : overflowCellLen key.length + 2 ≤ pageBudget) :
    ∃ pages' cur' p, (b.pushOverflow key payload).Holds pages' cur' ∧ taken pages' cur' = taken pages cur ++ [p] ∧
      p.record = (key, payload) := by
  -- whether the cell would have fitted or not, the page is sealed
  obtain ⟨pages', hseal, htaken⟩ : ∃ pages',
      (if pageHdr + b.used + overflowCellLen key.length + 2 * (b.slots.length + 1) > pageBudget + pageHdr then
        b.sealCurrentPage else b).sealCurrentPage.Holds pages' [] ∧ taken pages' [] = taken pages cur := by
    split_ifs
    · obtain ⟨pages1, hseal1, htaken1⟩ := h.seal
      obtain ⟨pages2, hseal2, htaken2⟩ := hseal1.seal
      exact ⟨pages2, hseal2, htaken2.trans htaken1⟩
    · exact h.seal
  unfold pushOverflow
  dsimp only
  generalize (if pageHdr + b.used + overflowCellLen key.length + 2 * (b.slots.length + 1) > pageBudget + pageHdr then
    b.sealCurrentPage else b).sealCurrentPage = b' at hseal ⊢
  obtain ⟨n, hlen, hn⟩ := hseal.written
  have hshort : key.length < 2 ^ 16 := by
    unfold overflowCellLen pageBudget pageSize pageHdr pageCrc at hkey
    omega
  have hstored : Placed.Stored (b'.w ++ (overflowPages payload).flatten)
      ⟨.overflow key (u32 payload.length) b'.pagesWritten (u32 (overflowPages payload).length), payload⟩ := by
    refine ⟨⟨hshort, Nat.mod_lt _ (by decide), ?_, Nat.mod_lt _ (by decide)⟩, Nat.mod_eq_of_lt hpayload, rfl, n, hn,
      standsAt_end hlen _⟩
    rw [hn]
    exact Nat.mod_lt _ (by decide)
  have hroom : Room [Cell.overflow key (u32 payload.length) b'.pagesWritten (u32 (overflowPages payload).length)] := by
    unfold Room cellBytes
    rw [flatMap_singleton, length_encode_overflow]
    exact hkey
  obtain ⟨pages2, cur2, hholds, htaken2⟩ := pushCell_spec (hseal.spill payload) hstored hroom
    fun buf off hfit => writeOverflowCell_eq hfit
  exact ⟨pages2, cur2, _, hholds, htaken2.trans (by rw [htaken]), rfl⟩

end SegBuilder

end Kevy.Seg
