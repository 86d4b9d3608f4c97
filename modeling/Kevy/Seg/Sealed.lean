import Kevy.Seg.Build
import Kevy.Seg.Lookup
import Kevy.Seg.Recover

/-!
# Sealed segments

The builder keeps the records it takes, a push that is refused changes nothing, and the footer reads back. `open` takes
the file exactly if the page numbers and the length of the footer fit the 32 bits the file has for them.
-/

set_option linter.dupNamespace false

namespace Kevy.Seg

open Kevy.Lib Kevy.Persist Kevy.Resp List

namespace SegBuilder

variable {b : SegBuilder} {recs : List Rec} {key payload : Bytes}

/-! ## What the builder notes -/

def notes (b : SegBuilder) : Nat × Bytes × Bytes := (b.records, b.minKey, b.lastKey)

theorem notes_sealCurrentPage (b : SegBuilder) : b.sealCurrentPage.notes = b.notes := by
  unfold sealCurrentPage
  split_ifs <;> rfl

theorem notes_pushCell (b : SegBuilder) (key : Bytes) (write : Bytes → Nat → Bytes × Nat) :
    (b.pushCell key write).notes = b.notes := by
  unfold pushCell
  dsimp only
  generalize hb' : (if b.used + (pageHdr + (write blankPage 0).2 + 2 * (b.slots.length + 1)) > pageBudget + pageHdr then
    b.sealCurrentPage else b) = b'
  have hnotes : b'.notes = b.notes := by
    rw [← hb']
    split_ifs
    · exact notes_sealCurrentPage b
    · rfl
  rw [← hnotes]
  split_ifs <;> rfl

theorem notes_pushOverflow (b : SegBuilder) (key payload : Bytes) : (b.pushOverflow key payload).notes = b.notes := by
  unfold pushOverflow
  dsimp only
  rw [notes_pushCell]
  show (sealCurrentPage _).notes = _
  rw [notes_sealCurrentPage]
  split_ifs
  · exact notes_sealCurrentPage b
  · rfl

/-- The records that were taken are in the builder. -/
structure Tracks (b : SegBuilder) (recs : List Rec) : Prop where
  holds : ∃ pages cur, b.Holds pages cur ∧ (taken pages cur).map Placed.record = recs
  notes : b.notes = (recs.length, (recs.head?.map Prod.fst).getD [], (recs.getLast?.map Prod.fst).getD [])
  ascending : Ascending Prod.fst recs

theorem tracks_create : create.Tracks [] := ⟨⟨[], [], holds_create, rfl⟩, rfl, List.Pairwise.nil⟩

/-- What `push` takes: a key above the last one that has room in a page, in one of the two forms of a cell. -/
def Takes (recs : List Rec) (r : Rec) : Prop :=
  (∀ last ∈ recs.getLast?, last.1 < r.1) ∧
    (inlineCellLen r.1.length r.2.length + 2 ≤ pageBudget ∨ overflowCellLen r.1.length + 2 ≤ pageBudget)

instance (recs : List Rec) (r : Rec) : Decidable (Takes recs r) := inferInstanceAs (Decidable (_ ∧ _))

theorem Ascending.concat {recs : List Rec} (h : Ascending Prod.fst recs) {r : Rec}
    (hlast : ∀ last ∈ recs.getLast?, last.1 < r.1) : Ascending Prod.fst (recs ++ [r]) := by
  refine pairwise_append.mpr ⟨h, pairwise_singleton _ _, fun a ha x hx => ?_⟩
  rw [mem_singleton.mp hx]
  obtain ⟨front, last, rfl⟩ := eq_nil_or_concat recs |>.resolve_left (ne_nil_of_mem ha)
  rw [concat_eq_append] at *
  have hlt : last.1 < r.1 := hlast last (by simp)
  rcases mem_append.mp ha with ha | ha
  · exact (h.append ha (mem_singleton.mpr rfl)).trans hlt
  · exact mem_singleton.mp ha ▸ hlt

theorem Tracks.unsorted_iff (h : b.Tracks recs) (key : Bytes) :
    (b.records > 0 ∧ key ≤ b.lastKey) ↔ ¬ ∀ last ∈ recs.getLast?, last.1 < key := by
  have hnotes := h.notes
  simp only [SegBuilder.notes, Prod.mk.injEq] at hnotes
  obtain ⟨hrecords, -, hlast⟩ := hnotes
  rcases eq_nil_or_concat recs with rfl | ⟨front, last, rfl⟩
  · rw [hrecords]
    simp
  · rw [concat_eq_append] at *
    rw [hrecords, hlast]
    simp

theorem push_spec (h : b.Tracks recs) (hpayload : payload.length < 2 ^ 32) :
    (∃ e, b.push key payload = (b, .error e) ∧ ¬ Takes recs (key, payload)) ∨
      ∃ b', b.push key payload = (b', .ok ()) ∧ Takes recs (key, payload) ∧ b'.Tracks (recs ++ [(key, payload)]) := by
  unfold push
  split_ifs with hunsorted
  · exact .inl ⟨_, rfl, fun htakes => (h.unsorted_iff key).mp hunsorted htakes.1⟩
  · have hsorted : ∀ last ∈ recs.getLast?, last.1 < key := by
      by_contra hnot
      exact hunsorted ((h.unsorted_iff key).mpr hnot)
    dsimp only
    by_cases hbig : inlineCellLen key.length payload.length + 2 > pageBudget ∧ overflowCellLen key.length + 2 > pageBudget
    · rw [if_pos hbig]
      exact .inl ⟨_, rfl, fun htakes => htakes.2.elim (Nat.not_le_of_gt hbig.1) (Nat.not_le_of_gt hbig.2)⟩
    · rw [if_neg hbig]
      refine .inr ⟨_, rfl, ⟨hsorted, ?_⟩, ?_⟩
      · dsimp only
        omega
      · obtain ⟨pages, cur, hholds, hrecs⟩ := h.holds
        -- the cell, inline or with its payload spilled
        obtain ⟨pages', cur', p, hholds', htaken, hrecord⟩ : ∃ pages' cur' p,
            (if inlineCellLen key.length payload.length + 2 ≤ pageBudget then
              b.pushCell key (writeInlineCell key payload) else b.pushOverflow key payload).Holds pages' cur' ∧
            taken pages' cur' = taken pages cur ++ [p] ∧ p.record = (key, payload) := by
          split_ifs with hinline
          · have hwidth : key.length < 2 ^ 16 ∧ payload.length < overflowMark := by
              unfold inlineCellLen pageBudget pageSize pageHdr pageCrc at hinline
              unfold overflowMark
              omega
            have hroom : Room [Cell.inline key payload] := by
              unfold Room cellBytes
              rw [flatMap_singleton, length_encode_inline]
              exact hinline
            obtain ⟨pages', cur', hholds', htaken⟩ := pushCell_spec hholds
              (p := ⟨.inline key payload, payload⟩) ⟨hwidth, rfl⟩ hroom fun buf off hfit => writeInlineCell_eq hfit
            exact ⟨pages', cur', _, hholds', htaken, rfl⟩
          · exact pushOverflow_spec hholds hpayload (by omega)
        have hnotes : (if inlineCellLen key.length payload.length + 2 ≤ pageBudget then
            b.pushCell key (writeInlineCell key payload) else b.pushOverflow key payload).notes = b.notes := by
          split_ifs
          · exact notes_pushCell ..
          · exact notes_pushOverflow ..
        generalize (if inlineCellLen key.length payload.length + 2 ≤ pageBudget then
          b.pushCell key (writeInlineCell key payload) else b.pushOverflow key payload) = pushed at *
        rw [h.notes] at hnotes
        simp only [SegBuilder.notes, Prod.mk.injEq] at hnotes
        obtain ⟨hrecords, hmin, -⟩ := hnotes
        refine ⟨⟨pages', cur', ?_, ?_⟩, ?_, Ascending.concat h.ascending hsorted⟩
        · exact ⟨hholds'.fences, hholds'.standing, hholds'.stored, hholds'.page, hholds'.used, hholds'.slots,
            hholds'.room, hholds'.written⟩
        · rw [htaken, map_append, hrecs, map_singleton, hrecord]
        · simp only [SegBuilder.notes, hrecords, hmin, getLast?_concat]
          cases recs with
          | nil | cons => simp

/-! ## Rows of pushes -/

def pushAll (b : SegBuilder) (pushes : List Rec) : SegBuilder := pushes.foldl (fun b r => (b.push r.1 r.2).1) b

def accepted (recs : List Rec) : List Rec → List Rec
  | [] => recs
  | r :: pushes => if Takes recs r then accepted (recs ++ [r]) pushes else accepted recs pushes

theorem pushAll_cons (b : SegBuilder) (r : Rec) (pushes : List Rec) :
    b.pushAll (r :: pushes) = (b.push r.1 r.2).1.pushAll pushes := rfl

theorem pushAll_spec (pushes : List Rec) (h : b.Tracks recs) (hpayload : ∀ r ∈ pushes, r.2.length < 2 ^ 32) :
    (b.pushAll pushes).Tracks (accepted recs pushes) := by
  induction pushes generalizing b recs with
  | nil => exact h
  | cons r pushes ih =>
    have hrest := (forall_mem_cons.mp hpayload).2
    rw [pushAll_cons, accepted]
    rcases push_spec h (hpayload r mem_cons_self) with ⟨e, hpush, hnot⟩ | ⟨b', hpush, htakes, htracks⟩
    · rw [hpush, if_neg hnot]
      exact ih h hrest
    · rw [hpush, if_pos htakes]
      exact ih htracks hrest

theorem accepted_extends (recs pushes : List Rec) : ∃ more, accepted recs pushes = recs ++ more ∧ more.Sublist pushes := by
  induction pushes generalizing recs with
  | nil => exact ⟨[], (append_nil _).symm, Sublist.refl _⟩
  | cons r pushes ih =>
    rw [accepted]
    split_ifs
    · obtain ⟨more, heq, hsub⟩ := ih (recs ++ [r])
      exact ⟨r :: more, by rw [heq]; simp, hsub.cons_cons r⟩
    · obtain ⟨more, heq, hsub⟩ := ih recs
      exact ⟨more, heq, hsub.cons r⟩

theorem pushAll_accepted (pushes : List Rec) (h : b.Tracks recs) (hpayload : ∀ r ∈ pushes, r.2.length < 2 ^ 32)
    {more : List Rec} (hmore : accepted recs pushes = recs ++ more) : b.pushAll pushes = b.pushAll more := by
  induction pushes generalizing b recs more with
  | nil => rw [self_eq_append_right.mp hmore]
  | cons r pushes ih =>
    have hrest := (forall_mem_cons.mp hpayload).2
    rw [accepted] at hmore
    rw [pushAll_cons]
    rcases push_spec h (hpayload r mem_cons_self) with ⟨e, hpush, hnot⟩ | ⟨b', hpush, htakes, htracks⟩
    · rw [if_neg hnot] at hmore
      rw [hpush]
      exact ih h hrest hmore
    · rw [if_pos htakes] at hmore
      obtain ⟨more', hmore', -⟩ := accepted_extends (recs ++ [r]) pushes
      have heq : more = r :: more' := by
        rw [hmore', append_assoc, append_cancel_left_eq] at hmore
        exact hmore.symm
      rw [heq, pushAll_cons, hpush]
      exact ih htracks hrest hmore'

end SegBuilder

/-! ## The footer -/

theorem reads_fence {fence : Nat × Bytes} (hpage : fence.1 < 2 ^ 32) (hkey : fence.2.length < 2 ^ 32) :
    Reads () readFence (encodeFence fence) fence := by
  have hread : ofLe (leBytes 4 fence.1) = fence.1 := ofLe_leBytes_of_lt hpage
  refine (Reads.readExact (length_leBytes 4 _)).bind ?_
  rw [hread]
  exact (reads_part hkey).map (g := fun key => (fence.1, key))

theorem length_fences_le (fences : List (Nat × Bytes)) : fences.length ≤ (fences.flatMap encodeFence).length := by
  induction fences with
  | nil => exact le_rfl
  | cons fence fences ih =>
    rw [flatMap_cons, length_append, encodeFence, length_append, length_leBytes, length_cons]
    omega

theorem reads_footer {records dataPages : Nat} {minKey maxKey : Bytes} {fences : List (Nat × Bytes)}
    (hrecords : records < 2 ^ 64) (hpages : dataPages < 2 ^ 32)
    (hlen : (footerBody records dataPages minKey maxKey fences).length < 2 ^ 32)
    (hfences : ∀ fence ∈ fences, fence.1 < 2 ^ 32) :
    Reads () footerReader (footerBody records dataPages minKey maxKey fences)
      (⟨records, dataPages, minKey, maxKey⟩, fences) := by
  simp only [footerBody, length_append, length_encodePart, length_leBytes] at hlen
  have hrecords' : ofLe (leBytes 8 records) = records := ofLe_leBytes_of_lt hrecords
  have hpages' : ofLe (leBytes 4 dataPages) = dataPages := ofLe_leBytes_of_lt hpages
  have hkey : ∀ fence ∈ fences, fence.2.length < 2 ^ 32 := by
    intro fence hfence
    have hle := (sublist_flatten_of_mem (List.mem_map_of_mem (f := encodeFence) hfence)).length_le
    rw [← flatMap_def, encodeFence, length_append, length_encodePart] at hle
    omega
  have hcount : fences.length < 2 ^ 32 := lt_of_le_of_lt (length_fences_le fences) (by omega)
  have hnf : ofLe (leBytes 4 fences.length) = fences.length := ofLe_leBytes_of_lt hcount
  refine (Reads.readExact (length_leBytes 8 _)).bind ((Reads.readExact (length_leBytes 4 _)).bind
    ((reads_part (by omega)).bind ((reads_part (by omega)).bind ((Reads.readExact (length_leBytes 4 _)).bind ?_))))
  rw [hrecords', hpages', hnf]
  have hmany := Reads.readMany (g := id) fences fun fence hfence => reads_fence (hfences fence hfence) (hkey fence hfence)
  rw [List.map_id] at hmany
  exact hmany.map

theorem decodeFooter_encodeFooter {records dataPages : Nat} {minKey maxKey : Bytes} {fences : List (Nat × Bytes)}
    (hrecords : records < 2 ^ 64) (hpages : dataPages < 2 ^ 32)
    (hlen : (encodeFooter records dataPages minKey maxKey fences).length < 2 ^ 32)
    (hfences : ∀ fence ∈ fences, fence.1 < 2 ^ 32) :
    decodeFooter (encodeFooter records dataPages minKey maxKey fences) =
      some (⟨records, dataPages, minKey, maxKey⟩, fences) := by
  unfold encodeFooter at hlen ⊢
  dsimp only at hlen ⊢
  generalize hbody : footerBody records dataPages minKey maxKey fences = body at hlen ⊢
  rw [length_append, length_leBytes] at hlen
  have hread := (reads_footer hrecords hpages (by rw [hbody]; omega) hfences).whole []
  rw [append_nil, hbody] at hread
  have hcut : (body ++ leBytes 4 (crc32c body).toNat).length - 4 = body.length := by
    rw [length_append, length_leBytes, Nat.add_sub_cancel]
  have hcrc : ofLe (leBytes 4 (crc32c body).toNat) = (crc32c body).toNat := ofLe_leBytes_of_lt (crc32c body).toNat_lt
  unfold decodeFooter
  rw [hcut, take_left, drop_left, hcrc, if_neg (by simp), if_neg (by simp), hread]

/-! ## Sealing and opening -/

namespace SegBuilder

variable {b : SegBuilder} {recs : List Rec}

/-- The footer that `finish` writes. -/
def footer (b : SegBuilder) : Bytes :=
  let s := b.sealCurrentPage
  encodeFooter s.records s.pagesWritten s.minKey s.lastKey s.fences

/-- The numbers of the file fit their 32 bits: the pages fill less than `2 ^ 32` pages and the footer has less than
`2 ^ 32` bytes. -/
def Small (b : SegBuilder) : Prop := b.sealCurrentPage.w.length < 2 ^ 32 * pageSize ∧ b.footer.length < 2 ^ 32

/-- The file that `finish` writes. -/
def file (b : SegBuilder) : Bytes :=
  b.sealCurrentPage.w ++ (b.footer ++ (leBytes 8 (b.sealCurrentPage.pagesWritten * pageSize) ++
    (leBytes 4 b.footer.length ++ leBytes 4 magic)))

theorem Tracks.notes_eq (h : b.Tracks recs) : b.sealCurrentPage.records = recs.length ∧
    b.sealCurrentPage.minKey = (recs.head?.map Prod.fst).getD [] ∧
    b.sealCurrentPage.lastKey = (recs.getLast?.map Prod.fst).getD [] := by
  have hnotes := (notes_sealCurrentPage b).trans h.notes
  simpa only [SegBuilder.notes, Prod.mk.injEq] using hnotes

theorem finish_spec (h : b.Tracks recs) : (recs = [] ∧ b.finish = .error (.corrupt "empty segment refused")) ∨
      (recs ≠ [] ∧ ∃ dataPages, b.finish = .ok (b.file, ⟨recs.length, dataPages, (recs.head?.map Prod.fst).getD [],
        (recs.getLast?.map Prod.fst).getD []⟩)) := by
  obtain ⟨hrecords, hmin, hlast⟩ := h.notes_eq
  have hcount : b.records = recs.length := congrArg Prod.fst h.notes
  unfold finish
  by_cases hnil : recs = []
  · left
    obtain ⟨pages, cur, hholds, hrecs⟩ := h.holds
    rw [hnil, map_eq_nil_iff, taken, append_eq_nil_iff] at hrecs
    rw [if_pos ⟨hholds.slots_eq_nil.mpr hrecs.2, by rw [hcount, hnil]; rfl⟩]
    exact ⟨hnil, rfl⟩
  · right
    refine ⟨hnil, u32 b.sealCurrentPage.fences.length, ?_⟩
    rw [if_neg fun hempty => hnil (length_eq_zero_iff.mp (hcount.symm.trans hempty.2)), ← hrecords, ← hmin, ← hlast]
    rfl

theorem openFile_trailer (b : SegBuilder) {n : Nat} (hlen : b.sealCurrentPage.w.length = n * pageSize)
    (hn : b.sealCurrentPage.pagesWritten = u32 n) : Seg.openFile b.file =
      if u32 n * pageSize + (b.footer.length % 2 ^ 32 + trailerLen) ≠ n * pageSize + (b.footer.length + trailerLen) then
        .error (.corrupt "trailer does not close the file")
      else readExactAt b.file (u32 n * pageSize) (b.footer.length % 2 ^ 32) >>= Seg.openFooter b.file := by
  have hfile : b.file.length = n * pageSize + (b.footer.length + trailerLen) := by
    simp only [file, length_append, length_leBytes, hlen]
    rfl
  have hread : readExactAt b.file (b.file.length - trailerLen) trailerLen =
      .ok (leBytes 8 (u32 n * pageSize) ++ (leBytes 4 b.footer.length ++ leBytes 4 magic)) := by
    have hdrop : b.file.drop (b.file.length - trailerLen) =
        leBytes 8 (u32 n * pageSize) ++ (leBytes 4 b.footer.length ++ leBytes 4 magic) := by
      rw [file, ← append_assoc, ← hn]
      refine drop_left' ?_
      simp only [length_append, length_leBytes]
      unfold trailerLen
      omega
    rw [readExactAt, if_pos (by omega), hdrop, take_of_length_le (by simp [trailerLen])]
  have hmagic : ofLe (leBytes 4 magic) = magic := ofLe_leBytes_of_lt (by decide)
  have hoff : ofLe (leBytes 8 (u32 n * pageSize)) = u32 n * pageSize := by
    refine ofLe_leBytes_of_lt (lt_trans (Nat.mul_lt_mul_of_pos_right (Nat.mod_lt n (by decide)) (by decide)) (by decide))
  unfold Seg.openFile
  rw [if_neg (by rw [hfile]; omega), hread]
  dsimp only [bind, Except.bind]
  have hdrop12 : (leBytes 8 (u32 n * pageSize) ++ (leBytes 4 b.footer.length ++ leBytes 4 magic)).drop 12 =
      leBytes 4 magic := by
    rw [← append_assoc, drop_left' (by simp)]
  have htake8 : (leBytes 8 (u32 n * pageSize) ++ (leBytes 4 b.footer.length ++ leBytes 4 magic)).take 8 =
      leBytes 8 (u32 n * pageSize) := take_left' (length_leBytes 8 _)
  have hdrop8 : ((leBytes 8 (u32 n * pageSize) ++ (leBytes 4 b.footer.length ++ leBytes 4 magic)).drop 8).take 4 =
      leBytes 4 b.footer.length := by
    rw [drop_left' (length_leBytes 8 _), take_left' (length_leBytes 4 _)]
  have hflen : ofLe (leBytes 4 b.footer.length) = b.footer.length % 2 ^ 32 := ofLe_leBytes 4 _
  rw [hdrop12, hmagic, if_neg (by simp), htake8, hdrop8, hoff, hflen, hfile]

theorem length_taken {pages : List Sealed} (hpages : ∀ s ∈ pages, Room s.cells) :
    (pages.flatMap fun s => s.first :: s.rest).length ≤ pages.length * maxSlots := by
  induction pages with
  | nil => exact Nat.zero_le _
  | cons s pages ih =>
    have hroom := hpages s mem_cons_self
    unfold Room Sealed.cells pageBudget pageSize pageHdr pageCrc at hroom
    rw [length_map] at hroom
    have hrest := ih (forall_mem_cons.mp hpages).2
    rw [flatMap_cons, length_append, show (s :: pages).length = pages.length + 1 from rfl, Nat.succ_mul]
    unfold maxSlots pageSize pageHdr pageCrc at *
    omega

theorem openFile_small (h : b.Tracks recs) (hsmall : b.Small) :
    ∃ dataPages, Seg.openFile b.file = .ok ⟨b.file, ⟨recs.length, dataPages, (recs.head?.map Prod.fst).getD [],
      (recs.getLast?.map Prod.fst).getD []⟩, b.sealCurrentPage.fences⟩ := by
  obtain ⟨hrecords, hmin, hlast⟩ := h.notes_eq
  obtain ⟨pages, cur, hholds, hrecs⟩ := h.holds
  obtain ⟨pages', hseal, htaken⟩ := hholds.seal
  obtain ⟨n, hlen, hn⟩ := hseal.written
  obtain ⟨hw, hfooter⟩ := hsmall
  have hun : u32 n = n := Nat.mod_eq_of_lt (by rw [hlen] at hw; exact Nat.lt_of_mul_lt_mul_right hw)
  have hfences := hseal.fences
  rw [head?_nil, Option.map_none, Option.toList_none, append_nil] at hfences
  -- the footer has eight bytes and more for every fence, and a page at most `maxSlots` records
  have hcount : pages'.length < 2 ^ 32 := by
    have hle := length_fences_le b.sealCurrentPage.fences
    rw [footer, encodeFooter, footerBody] at hfooter
    simp only [length_append, length_leBytes, length_encodePart] at hfooter
    rw [hfences, length_map] at hle
    rw [hfences] at hfooter
    omega
  have hmany : b.sealCurrentPage.records < 2 ^ 64 := by
    have hle := length_taken fun s hs => (hseal.standing s hs).2
    have hrecs' : recs.length = (pages'.flatMap fun s => s.first :: s.rest).length := by
      rw [← hrecs, length_map, ← htaken, taken, append_nil]
    rw [hrecords, hrecs']
    refine lt_of_le_of_lt (hle.trans (Nat.mul_le_mul_right _ hcount.le)) (by decide)
  have hdecode : decodeFooter b.footer = some (⟨b.sealCurrentPage.records, b.sealCurrentPage.pagesWritten,
      b.sealCurrentPage.minKey, b.sealCurrentPage.lastKey⟩, b.sealCurrentPage.fences) := by
    refine decodeFooter_encodeFooter hmany ?_ hfooter fun fence hfence => ?_
    · rw [hn]
      exact Nat.mod_lt _ (by decide)
    · rw [hfences] at hfence
      obtain ⟨s, -, rfl⟩ := List.mem_map.mp hfence
      exact Nat.mod_lt _ (by decide)
  have hread : readExactAt b.file (n * pageSize) b.footer.length = .ok b.footer :=
    StandsAt.readExactAt ⟨b.sealCurrentPage.w, _, rfl, hlen⟩ rfl
  refine ⟨b.sealCurrentPage.pagesWritten, ?_⟩
  rw [openFile_trailer b hlen hn, hun, Nat.mod_eq_of_lt hfooter, if_neg (by simp), hread]
  show Seg.openFooter b.file b.footer = _
  rw [Seg.openFooter, hdecode, hrecords, hmin, hlast]

theorem openFile_large (h : b.Tracks recs) (hlarge : ¬ b.Small) :
    Seg.openFile b.file = .error (.corrupt "trailer does not close the file") := by
  obtain ⟨pages, cur, hholds, -⟩ := h.holds
  obtain ⟨pages', hseal, -⟩ := hholds.seal
  obtain ⟨n, hlen, hn⟩ := hseal.written
  rw [openFile_trailer b hlen hn, if_pos]
  intro heq
  -- both numbers are cut to something smaller or equal, so neither was cut
  have hpages : u32 n * pageSize ≤ n * pageSize := Nat.mul_le_mul_right _ (Nat.mod_le n _)
  refine hlarge ⟨?_, ?_⟩
  · have hsame : u32 n = n := Nat.eq_of_mul_eq_mul_right (show 0 < pageSize by decide) (by omega)
    rw [hlen, ← hsame]
    exact Nat.mul_lt_mul_of_pos_right (Nat.mod_lt n (by decide)) (by decide)
  · have hsame : b.footer.length % 2 ^ 32 = b.footer.length := by omega
    rw [← hsame]
    exact Nat.mod_lt _ (by decide)

end SegBuilder

end Kevy.Seg
