import Kevy.Seg.Sealed

/-!
# The sorted map of a segment

A segment that `open` takes is the sorted map of the records that were pushed. A footer of more than 4 GiB makes one
that `finish` writes and `open` refuses.
-/

set_option linter.dupNamespace false

namespace Kevy.Seg

open Kevy.Lib Kevy.Persist Kevy.Resp List Option

namespace SegBuilder

variable {b : SegBuilder} {recs : List Rec}

/-! ## Reading what was built -/

def Sealed.run (s : Sealed) : Rec × List Rec := (s.first.record, s.rest.map Placed.record)

theorem runElems_run (s : Sealed) : runElems (Sealed.run s) = (s.first :: s.rest).map Placed.record := rfl

variable {w : Bytes} {n : Nat}

theorem standsAt_lt {bs : Bytes} (h : StandsAt w n bs) (hw : w.length < 2 ^ 32 * pageSize) : u32 n = n := by
  obtain ⟨A, C, rfl, hA⟩ := h
  rw [length_append, hA] at hw
  exact Nat.mod_eq_of_lt (Nat.lt_of_mul_lt_mul_right (lt_of_le_of_lt (Nat.le_add_right _ _) hw))

theorem materialize_stored {seg : Seg} {more : Bytes} (hf : seg.f = w ++ more) (hw : w.length < 2 ^ 32 * pageSize)
    {p : Placed} (hp : p.Stored w) : seg.materialize p.cell = .ok p.payload := by
  obtain ⟨cell, payload⟩ := p
  cases cell with
  | inline key data => exact congrArg Except.ok hp.2
  | overflow key totalLen firstPage nPages =>
    obtain ⟨-, htotal, hpages, n, hfirst, hstands⟩ := hp
    dsimp only at htotal hpages hstands ⊢
    subst htotal hpages hfirst
    have hfew : u32 (overflowPages payload).length = (overflowPages payload).length := by
      obtain ⟨A, C, rfl, hA⟩ := hstands
      simp only [length_append, length_flatten_pages fun _ => mem_overflowPages] at hw
      refine Nat.mod_eq_of_lt (Nat.lt_of_mul_lt_mul_right (a := pageSize) ?_)
      omega
    have hgather : seg.gather payload.length n 0 (overflowPages payload).length (payload.take (0 * overflowCap)) =
        .ok payload := gather_spec (hf ▸ hstands.append more) _ (Nat.zero_add _)
    rw [Nat.zero_mul, take_zero] at hgather
    rw [standsAt_lt hstands hw, hfew, Seg.materialize, hgather]
    dsimp only
    rw [if_neg (by simp)]

theorem shows_sealed {seg : Seg} {more : Bytes} (hf : seg.f = w ++ more) (hw : w.length < 2 ^ 32 * pageSize) {s : Sealed}
    (hroom : Room s.cells) (hstored : ∀ p ∈ s.first :: s.rest, p.Stored w) :
    seg.Shows (sealedPage s.cells) (runElems (Sealed.run s)) where
  slots := by
    rw [pageSlots_sealedPage hroom, runElems_run, Sealed.cells, length_map, length_map]
  cell {i r} hr := by
    rw [runElems_run, getElem?_map, map_eq_some_iff] at hr
    obtain ⟨p, hp, rfl⟩ := hr
    obtain ⟨hlt, rfl⟩ := List.getElem?_eq_some_iff.mp hp
    obtain ⟨L, q, R, hsplit, hL⟩ := exists_middle hlt
    have hq : (s.first :: s.rest)[i] = q := by
      have hget := getElem?_middle L R q
      rw [← hsplit, hL, hp] at hget
      exact some.inj hget
    have hmem : q ∈ s.first :: s.rest := hsplit ▸ mem_append_right L mem_cons_self
    have hcells : s.cells = L.map Placed.cell ++ q.cell :: R.map Placed.cell := by
      rw [Sealed.cells, hsplit, map_append, map_cons]
    rw [hcells] at hroom ⊢
    rw [hq]
    refine ⟨q.cell, ?_, rfl, materialize_stored hf hw (hstored q hmem)⟩
    have hslot := slotOffset_sealedPage hroom
    rw [length_map, hL] at hslot
    rw [hslot]
    exact readCell_sealedPage (hstored q hmem).1

theorem ascending_bounds {recs : List Rec} (h : Ascending Prod.fst recs) {r : Rec} (hr : r ∈ recs) :
    (recs.head?.map Prod.fst).getD [] ≤ r.1 ∧ r.1 ≤ (recs.getLast?.map Prod.fst).getD [] := by
  constructor
  · obtain ⟨first, rest, rfl⟩ := exists_cons_of_ne_nil (ne_nil_of_mem hr)
    rcases mem_cons.mp hr with rfl | hr
    · exact le_rfl
    · exact ((pairwise_cons.mp h).1 r hr).le
  · obtain ⟨front, last, rfl⟩ := (eq_nil_or_concat recs).resolve_left (ne_nil_of_mem hr)
    rw [concat_eq_append] at *
    rw [getLast?_concat]
    rcases mem_append.mp hr with hr | hr
    · exact (h.append hr (mem_singleton.mpr rfl)).le
    · rw [mem_singleton.mp hr]
      exact le_rfl

theorem serves (h : b.Tracks recs) (hsmall : b.Small) (hne : recs ≠ []) (dataPages : Nat) :
    ∃ runs, Seg.Serves ⟨b.file, ⟨recs.length, dataPages, (recs.head?.map Prod.fst).getD [],
      (recs.getLast?.map Prod.fst).getD []⟩, b.sealCurrentPage.fences⟩ runs ∧ runs.flatMap runElems = recs := by
  obtain ⟨pages, cur, hholds, hrecs⟩ := h.holds
  obtain ⟨pages', hseal, htaken⟩ := hholds.seal
  have hfences := hseal.fences
  rw [head?_nil, map_none, toList_none, append_nil] at hfences
  have hflat : (pages'.map Sealed.run).flatMap runElems = recs := by
    rw [← hrecs, ← htaken, taken, append_nil, map_flatMap, flatMap_map]
    rfl
  refine ⟨pages'.map Sealed.run, ⟨fun hnil => hne ?_, ?_, ?_, fun {ix run} hrun => ?_, fun r hr => ?_, fun r hr => ?_⟩, hflat⟩
  · rw [← hflat, hnil]
    rfl
  · rw [hflat]
    exact h.ascending
  · show b.sealCurrentPage.fences.map Prod.snd = _
    rw [hfences, List.map_map, List.map_map]
    rfl
  · rw [getElem?_map, map_eq_some_iff] at hrun
    obtain ⟨s, hs, rfl⟩ := hrun
    obtain ⟨hstands, hroom⟩ := hseal.standing s (mem_of_getElem? hs)
    have hread := (hstands.append (b.footer ++ (leBytes 8 (b.sealCurrentPage.pagesWritten * pageSize) ++
      (leBytes 4 b.footer.length ++ leBytes 4 magic)))).readExactAt (length_sealedPage hroom)
    refine ⟨sealedPage s.cells, ?_, shows_sealed rfl hsmall.1 hroom fun p hp => hseal.stored p ?_⟩
    · have hfence : b.sealCurrentPage.fences[ix]? = some (s.index, s.first.cell.key) := by
        rw [hfences, getElem?_map, hs, map_some, standsAt_lt hstands hsmall.1]
      unfold Seg.readPage
      dsimp only
      rw [hfence]
      dsimp only
      rw [file, hread]
      dsimp only
      rw [pageIntact_sealedPage hroom, pageShapeOk_sealedPage hroom]
      rfl
    · rw [append_nil]
      exact mem_flatMap.mpr ⟨s, mem_of_getElem? hs, hp⟩
  · rw [hflat] at hr
    exact (ascending_bounds h.ascending hr).1
  · rw [hflat] at hr
    exact (ascending_bounds h.ascending hr).2

/-! ## The sorted map -/

def IsMap (b : SegBuilder) (recs : List Rec) : Prop :=
  ∃ f info seg, b.finish = .ok (f, info) ∧ Seg.openFile f = .ok seg ∧
    (info.records = recs.length ∧ recs.head?.map Prod.fst = some info.minKey ∧
      recs.getLast?.map Prod.fst = some info.maxKey) ∧
    (seg.info.records = info.records ∧ seg.info.minKey = info.minKey ∧ seg.info.maxKey = info.maxKey) ∧
    (∀ key, seg.get key = .ok (lookupKey key recs)) ∧
    ∀ lo hi, seg.Yields (seg.range lo hi) (Seg.itemsOf lo hi recs) ∧
      seg.countRange lo hi = .ok (recs.filter (between lo hi)).length

theorem isMap_of_small (h : b.Tracks recs) (hne : recs ≠ []) (hsmall : b.Small) : b.IsMap recs := by
  obtain ⟨dataPages, hfinish⟩ := ((finish_spec h).resolve_left fun hnil => hne hnil.1).2
  obtain ⟨dataPages', hopen⟩ := openFile_small h hsmall
  obtain ⟨runs, hserves, hflat⟩ := serves h hsmall hne dataPages'
  refine ⟨_, _, _, hfinish, hopen, ⟨rfl, ?_, ?_⟩, ⟨rfl, rfl, rfl⟩, fun key => ?_, fun lo hi => ⟨?_, ?_⟩⟩
  · obtain ⟨r, rest, rfl⟩ := exists_cons_of_ne_nil hne
    rfl
  · obtain ⟨front, last, rfl⟩ := (eq_nil_or_concat recs).resolve_left hne
    rw [concat_eq_append, getLast?_concat]
    rfl
  · rw [Seg.get_spec hserves, hflat]
  · have hrange := Seg.range_spec hserves lo hi
    rwa [hflat] at hrange
  · rw [Seg.countRange_spec hserves, hflat, countP_eq_length_filter]

theorem not_isMap_of_large (h : b.Tracks recs) (hlarge : ¬ b.Small) : ¬ b.IsMap recs := by
  rintro ⟨f, info, seg, hfinish, hopen, -⟩
  rcases finish_spec h with ⟨-, hrefused⟩ | ⟨-, dataPages, hwritten⟩
  · rw [hrefused] at hfinish
    cases hfinish
  · rw [hwritten] at hfinish
    cases hfinish
    rw [openFile_large h hlarge] at hopen
    cases hopen

/-- **The segment is the sorted map** of what was taken of any row of pushes, exactly if something was taken, the pages
are fewer than `2 ^ 32` and the footer is shorter than `2 ^ 32` bytes; pushes that were refused leave no trace. -/
theorem sealed_segment_is_sorted_map (pushes : List Rec) (hpayload : ∀ r ∈ pushes, r.2.length < 2 ^ 32) :
    create.pushAll pushes = create.pushAll (accepted [] pushes) ∧ Ascending Prod.fst (accepted [] pushes) ∧
      ((create.pushAll pushes).IsMap (accepted [] pushes) ↔
        accepted [] pushes ≠ [] ∧ (create.pushAll pushes).Small) := by
  have htracks := pushAll_spec pushes tracks_create hpayload
  refine ⟨pushAll_accepted pushes tracks_create hpayload rfl, htracks.ascending, fun hmap => ?_, fun ⟨hne, hsmall⟩ =>
    isMap_of_small htracks hne hsmall⟩
  refine ⟨fun hnil => ?_, not_imp_not.mp (not_isMap_of_large htracks) hmap⟩
  obtain ⟨f, info, seg, -, -, ⟨-, hmin, -⟩, -⟩ := hmap
  rw [hnil] at hmin
  cases hmin

theorem sealed_segment_is_sorted_map_ab :
    create.pushAll [([97], [1]), ([97], [2]), ([98], [3])] = create.pushAll [([97], [1]), ([98], [3])] ∧
      Ascending Prod.fst (accepted [] [([97], [1]), ([97], [2]), ([98], [3])]) ∧
      ((create.pushAll [([97], [1]), ([97], [2]), ([98], [3])]).IsMap [([97], [1]), ([98], [3])] ↔
        [([97], [1]), ([98], [3])] ≠ ([] : List Rec) ∧ (create.pushAll [([97], [1]), ([97], [2]), ([98], [3])]).Small) := by
  have htaken : accepted [] [([97], [1]), ([97], [2]), ([98], [3])] = [([97], [1]), ([98], [3])] := by decide
  have hmap := sealed_segment_is_sorted_map [([97], [1]), ([97], [2]), ([98], [3])] (by decide)
  rw [htaken] at hmap ⊢
  exact hmap

/-! ## A footer of more than 4 GiB -/

theorem length_footer_long_keys (h : b.Tracks recs) (hlong : ∀ r ∈ recs, r.1.length = 4080) :
    recs.length * 4088 ≤ b.footer.length := by
  obtain ⟨pages, cur, hholds, hrecs⟩ := h.holds
  obtain ⟨pages', hseal, htaken⟩ := hholds.seal
  have hfences := hseal.fences
  rw [head?_nil, map_none, toList_none, append_nil] at hfences
  rw [← htaken, taken, append_nil] at hrecs
  have hkey : ∀ s ∈ pages', ∀ p ∈ s.first :: s.rest, p.cell.key.length = 4080 := by
    intro s hs p hp
    refine hlong p.record ?_
    rw [← hrecs]
    exact List.mem_map_of_mem (mem_flatMap.mpr ⟨s, hs, hp⟩)
  have hlone : ∀ s ∈ pages', s.rest = [] := by
    intro s hs
    by_contra hne
    obtain ⟨p, rest, hrest⟩ := exists_cons_of_ne_nil hne
    have hbig (q : Placed) (hq : q.cell.key.length = 4080) : 4086 ≤ q.cell.encode.length := by
      cases hcell : q.cell with
      | inline key payload =>
        rw [hcell] at hq
        rw [length_encode_inline, inlineCellLen, show key.length = 4080 from hq]
        omega
      | overflow key totalLen firstPage nPages =>
        rw [hcell] at hq
        rw [length_encode_overflow, overflowCellLen, show key.length = 4080 from hq]
        omega
    have hfirst := hbig s.first (hkey s hs s.first mem_cons_self)
    have hsecond := hbig p (hkey s hs p (by rw [hrest]; simp))
    have hroom := (hseal.standing s hs).2
    unfold Room Sealed.cells cellBytes at hroom
    rw [hrest, map_cons, map_cons, flatMap_cons, flatMap_cons, length_append, length_append] at hroom
    unfold pageBudget pageSize pageHdr pageCrc at hroom
    omega
  have hcount : recs.length = pages'.length := by
    rw [← hrecs, length_map]
    clear hrecs hfences htaken hseal hkey
    induction pages' with
    | nil => rfl
    | cons s pages' ih =>
      rw [flatMap_cons, length_append, hlone s mem_cons_self,
        ih (forall_mem_cons.mp hlone).2, length_singleton, length_cons, Nat.add_comm]
  have hwidth : (b.sealCurrentPage.fences.flatMap encodeFence).length = pages'.length * 4088 := by
    rw [hfences, flatMap_map]
    clear hrecs hfences htaken hseal hlone hcount
    induction pages' with
    | nil => rfl
    | cons s pages' ih =>
      rw [flatMap_cons, length_append, ih (forall_mem_cons.mp hkey).2, encodeFence,
        length_append, length_leBytes, length_encodePart, hkey s mem_cons_self s.first mem_cons_self,
        length_cons]
      omega
  rw [hcount, ← hwidth]
  simp only [footer, encodeFooter, footerBody, length_append]
  omega

def longKey (i : Nat) : Bytes := (leBytes 3 i).reverse ++ List.replicate 4077 0

theorem accepted_all {recs pushes : List Rec} (h : Ascending Prod.fst (recs ++ pushes))
    (hfits : ∀ r ∈ pushes, inlineCellLen r.1.length r.2.length + 2 ≤ pageBudget) :
    accepted recs pushes = recs ++ pushes := by
  induction pushes generalizing recs with
  | nil => rw [accepted, append_nil]
  | cons r pushes ih =>
    have htakes : Takes recs r :=
      ⟨fun last hlast => h.append (mem_of_getLast? hlast) mem_cons_self, .inl (hfits r mem_cons_self)⟩
    have hassoc : recs ++ r :: pushes = (recs ++ [r]) ++ pushes := by simp
    rw [accepted, if_pos htakes, hassoc]
    exact ih (hassoc ▸ h) (forall_mem_cons.mp hfits).2

def longPushes (n : Nat) : List Rec := (List.range n).map fun i => (longKey i, [])

theorem mem_longPushes {r : Rec} (hr : r ∈ longPushes n) : r.1.length = 4080 ∧ r.2 = [] := by
  obtain ⟨i, -, rfl⟩ := List.mem_map.mp hr
  refine ⟨?_, rfl⟩
  simp only [longKey, length_append, length_reverse, length_leBytes, length_replicate]

theorem ascending_longPushes (hn : n ≤ 256 ^ 3) : Ascending Prod.fst (longPushes n) := by
  refine pairwise_map.mpr (Pairwise.imp_of_mem (fun hi hj hij => ?_) pairwise_lt_range)
  exact append_lt_append (by simp) (reverse_leBytes_lt hij (lt_of_lt_of_le (List.mem_range.mp hj) hn))

theorem accepted_longPushes (hn : n ≤ 256 ^ 3) : accepted [] (longPushes n) = longPushes n :=
  accepted_all (ascending_longPushes hn) fun r hr => by
    rw [(mem_longPushes hr).1, (mem_longPushes hr).2]
    decide

theorem openFile_longPushes (hmany : 2 ^ 21 ≤ n) (hn : n ≤ 256 ^ 3) :
    ∃ f info, (create.pushAll (longPushes n)).finish = .ok (f, info) ∧
      Seg.openFile f = .error (.corrupt "trailer does not close the file") := by
  have htracks := pushAll_spec (longPushes n) tracks_create fun r hr => by
    rw [(mem_longPushes hr).2]
    decide
  rw [accepted_longPushes hn] at htracks
  have hlength : (longPushes n).length = n := by rw [longPushes, length_map, length_range]
  have hne : longPushes n ≠ [] := length_pos_iff.mp (by omega)
  have hlarge : ¬ (create.pushAll (longPushes n)).Small := fun hsmall => by
    have hle := length_footer_long_keys htracks fun r hr => (mem_longPushes hr).1
    have hlt := hsmall.2
    omega
  obtain ⟨dataPages, hfinish⟩ := ((finish_spec htracks).resolve_left fun hnil => hne hnil.1).2
  exact ⟨_, _, hfinish, openFile_large htracks hlarge⟩

/-- Two million ascending keys of 4080 bytes are all taken, `finish` writes the segment, and `open` refuses it: the
length of the footer does not fit the 32 bits of the trailer. -/
theorem long_footer_refused : ∃ pushes : List Rec, (∀ r ∈ pushes, r.1.length = 4080 ∧ r.2 = []) ∧ pushes.length = 2 ^ 21 ∧
    Ascending Prod.fst pushes ∧ accepted [] pushes = pushes ∧
    ∃ f info, (create.pushAll pushes).finish = .ok (f, info) ∧
      Seg.openFile f = .error (.corrupt "trailer does not close the file") := by
  have hn : 2 ^ 21 ≤ 256 ^ 3 := by norm_num
  refine ⟨longPushes (2 ^ 21), fun r => mem_longPushes, ?_, ascending_longPushes hn, accepted_longPushes hn,
    openFile_longPushes le_rfl hn⟩
  rw [longPushes, length_map, length_range]

end SegBuilder

end Kevy.Seg
