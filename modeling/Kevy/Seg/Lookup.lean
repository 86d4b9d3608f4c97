import Kevy.Seg.Segment

/-!
# Reads of a segment

A segment serves a row of pages when every page reads as its records. Then `get` is the lookup in the records of all
pages, `count_range` counts those between its bounds, and a range gives them in order.
-/

set_option linter.dupNamespace false

namespace Kevy.Seg

open Kevy.Lib Kevy.Persist Kevy.Resp List

abbrev Rec := Bytes × Bytes

def lookupKey (key : Bytes) (recs : List Rec) : Option Bytes := (recs.find? fun r => r.1 = key).map Prod.snd

def between (lo hi : Bytes) (r : Rec) : Bool := decide (lo ≤ r.1) && decide (r.1 ≤ hi)

theorem lookupKey_none {key : Bytes} {recs : List Rec} (h : ∀ r ∈ recs, r.1 ≠ key) : lookupKey key recs = none := by
  rw [lookupKey, find?_eq_none.mpr fun r hr => by simpa using h r hr]
  rfl

theorem lookupKey_append {key : Bytes} {A B : List Rec} (h : ∀ r ∈ A, r.1 ≠ key) :
    lookupKey key (A ++ B) = lookupKey key B := by
  rw [lookupKey, find?_append, find?_eq_none.mpr fun r hr => by simpa using h r hr, Option.none_or, lookupKey]

theorem lookupKey_append_left {key : Bytes} {A B : List Rec} (h : ∀ r ∈ B, r.1 ≠ key) :
    lookupKey key (A ++ B) = lookupKey key A := by
  have hnone : (B.find? fun r => r.1 = key) = none := find?_eq_none.mpr fun r hr => by simpa using h r hr
  rw [lookupKey, find?_append, hnone, Option.or_none, lookupKey]

theorem lookupKey_gap {key : Bytes} {recs : List Rec} {lo hi : Nat} (hle : hi ≤ lo)
    (hbelow : ∀ s r, s < lo → recs[s]? = some r → r.1 < key)
    (habove : ∀ s r, hi ≤ s → recs[s]? = some r → key < r.1) : lookupKey key recs = none := by
  refine lookupKey_none fun r hr => ?_
  obtain ⟨s, hs⟩ := getElem?_of_mem hr
  rcases Nat.lt_or_ge s lo with hlt | hge
  · exact (hbelow s r hlt hs).ne
  · exact (habove s r (hle.trans hge) hs).ne'

namespace Seg

variable {seg : Seg} {page key lo hi : Bytes} {recs : List Rec}

/-- The cells of a page are the records: their keys, and their payloads once gathered. -/
structure Shows (seg : Seg) (page : Bytes) (recs : List Rec) : Prop where
  slots : pageSlots page = recs.length
  cell : ∀ {s r}, recs[s]? = some r →
    ∃ cell, readCell page (slotOffset page s) = some cell ∧ cell.key = r.1 ∧ seg.materialize cell = .ok r.2

structure Serves (seg : Seg) (runs : List (Rec × List Rec)) : Prop where
  nonempty : runs ≠ []
  ascending : Ascending Prod.fst (runs.flatMap runElems)
  fences : seg.fences.map Prod.snd = runs.map fun run => run.1.1
  page : ∀ {ix run}, runs[ix]? = some run → ∃ page, seg.readPage ix = .ok page ∧ seg.Shows page (runElems run)
  minKey : ∀ r ∈ runs.flatMap runElems, seg.info.minKey ≤ r.1
  maxKey : ∀ r ∈ runs.flatMap runElems, r.1 ≤ seg.info.maxKey

/-! ## The search in a page -/

theorem search_spec (hpage : seg.Shows page recs) (hsorted : Ascending Prod.fst recs) (fuel : Nat) {lo hi : Nat}
    (hhi : hi ≤ recs.length) (hfuel : hi < lo + fuel) (hbelow : ∀ s r, s < lo → recs[s]? = some r → r.1 < key)
    (habove : ∀ s r, hi ≤ s → recs[s]? = some r → key < r.1) :
    seg.search page key fuel lo hi = .ok (lookupKey key recs) := by
  induction fuel generalizing lo hi with
  | zero => rw [search, lookupKey_gap (by omega) hbelow habove]
  | succ fuel ih =>
    rw [search]
    split_ifs with hlt
    · dsimp only
      obtain ⟨L, r, R, rfl, hL⟩ := exists_middle (l := recs) (i := lo + (hi - lo) / 2) (by omega)
      have hget : (L ++ r :: R)[lo + (hi - lo) / 2]? = some r := by rw [← hL, getElem?_middle]
      obtain ⟨cell, hread, hkey, hpayload⟩ := hpage.cell hget
      rw [hread]
      dsimp only
      rw [hkey]
      by_cases hless : r.1 < key
      · rw [if_pos hless]
        refine ih hhi (by omega) (fun s r' hs hr' => ?_) habove
        rcases Nat.lt_or_ge s L.length with hs' | hs'
        · rw [getElem?_append_left hs'] at hr'
          exact (hsorted.append (mem_of_getElem? hr') mem_cons_self).trans hless
        · have heq : s = L.length := by omega
          rw [heq, getElem?_middle] at hr'
          exact Option.some.inj hr' ▸ hless
      · rw [if_neg hless]
        split_ifs with hgreater
        · refine ih (by omega) (by omega) hbelow fun s r' hs hr' => ?_
          rcases Nat.eq_or_lt_of_le hs with hs' | hs'
          · rw [← hs', hget] at hr'
            exact Option.some.inj hr' ▸ hgreater
          · have hmem : r' ∈ R := by
              rw [getElem?_append_right (by omega)] at hr'
              obtain ⟨j, hj⟩ : ∃ j, s - L.length = j + 1 := ⟨s - L.length - 1, by omega⟩
              rw [hj, getElem?_cons_succ] at hr'
              exact mem_of_getElem? hr'
            exact hgreater.trans ((pairwise_cons.mp (pairwise_append.mp hsorted).2.1).1 r' hmem)
        · have heq : r.1 = key := le_antisymm (not_lt.mp hgreater) (not_lt.mp hless)
          have hfind : lookupKey key (L ++ r :: R) = some r.2 := by
            rw [lookupKey_append fun x hx => ?_]
            · simp [lookupKey, heq]
            · exact heq ▸ (hsorted.append hx mem_cons_self).ne
          rw [hpayload, hfind]
          rfl
    · rw [lookupKey_gap (by omega) hbelow habove]

/-! ## `get` -/

variable {runs : List (Rec × List Rec)}

theorem Serves.length_fences (h : seg.Serves runs) : seg.fences.length = runs.length := by
  have hlen := congrArg List.length h.fences
  rwa [length_map, length_map] at hlen

theorem fencePage_eq (h : seg.Serves runs) (key : Bytes) :
    seg.fencePage key = fence (runs.map fun run => run.1.1) key := by
  rw [fencePage, h.fences]

theorem Serves.split (h : seg.Serves runs) (key : Bytes) :
    ∃ L run R, runs = L ++ run :: R ∧ L.length = seg.fencePage key ∧ (∀ r ∈ L.flatMap runElems, r.1 < key) ∧
      (L ≠ [] → run.1.1 ≤ key) ∧ ∀ r ∈ R.flatMap runElems, key < r.1 := by
  rw [fencePage_eq h]
  exact fence_split h.nonempty h.ascending key

theorem get_spec (h : seg.Serves runs) (key : Bytes) : seg.get key = .ok (lookupKey key (runs.flatMap runElems)) := by
  unfold get
  split_ifs with hout
  · rw [lookupKey_none fun r hr heq => ?_]
    rcases hout with hout | hout
    · exact absurd (h.minKey r hr) (not_le.mpr (heq ▸ hout))
    · exact absurd (h.maxKey r hr) (not_le.mpr (heq ▸ hout))
  · obtain ⟨L, run, R, rfl, hlen, hbelow, -, habove⟩ := h.split key
    obtain ⟨page, hread, hshows⟩ := h.page (getElem?_middle L R run)
    have hasc := h.ascending
    rw [← hlen, hread, flatMap_append, flatMap_cons] at *
    rw [lookupKey_append fun r hr => (hbelow r hr).ne, lookupKey_append_left fun r hr => (habove r hr).ne']
    have hrun : Ascending Prod.fst (runElems run) :=
      (pairwise_append.mp (pairwise_append.mp hasc).2.1).1
    refine search_spec hshows hrun _ hshows.slots.le (by omega) (fun s r hs => absurd hs (Nat.not_lt_zero s)) ?_
    intro s r hs hr
    rw [hshows.slots] at hs
    rw [List.getElem?_eq_none hs] at hr
    cases hr

/-! ## `count_range` -/

theorem countSlots_spec (hpage : seg.Shows page recs) {n s : Nat} (hn : s + n = recs.length) (count : Nat) :
    countSlots page lo hi s n count = .ok (count + (recs.drop s).countP (between lo hi)) := by
  induction n generalizing s count with
  | zero =>
    rw [countSlots, drop_eq_nil_of_le (by omega)]
    rfl
  | succ n ih =>
    have hlt : s < recs.length := by omega
    obtain ⟨cell, hread, hkey, -⟩ := hpage.cell (getElem?_eq_getElem hlt)
    rw [countSlots, hread]
    dsimp only
    rw [ih (by omega), drop_eq_getElem_cons hlt, countP_cons, hkey]
    congr 1
    simp only [between, Bool.and_eq_true, decide_eq_true_eq]
    split_ifs <;> omega

theorem countPages_spec (h : seg.Serves runs) {first last n ix : Nat} (hn : ix + n ≤ runs.length) (count : Nat)
    (hinner : ∀ j run, runs[j]? = some run → first < j → j < last → ∀ r ∈ runElems run, between lo hi r = true)
    (hfirst : first ≤ ix) (hlast : ix + n ≤ last + 1) : seg.countPages lo hi first last ix n count =
      .ok (count + (((runs.drop ix).take n).flatMap runElems).countP (between lo hi)) := by
  induction n generalizing ix count with
  | zero =>
    rw [countPages, take_zero]
    rfl
  | succ n ih =>
    have hlt : ix < runs.length := by omega
    obtain ⟨page, hread, hshows⟩ := h.page (getElem?_eq_getElem hlt)
    rw [countPages, hread, drop_eq_getElem_cons hlt, take_succ_cons, flatMap_cons, countP_append]
    dsimp only
    split_ifs with hmiddle
    · have hall : (runElems runs[ix]).countP (between lo hi) = (runElems runs[ix]).length :=
        countP_eq_length.mpr (hinner ix _ (getElem?_eq_getElem hlt) (by omega) (by omega))
      rw [ih (by omega) _ (by omega) (by omega), hall, hshows.slots, Nat.add_assoc]
    · rw [countSlots_spec hshows (by rw [hshows.slots]; omega)]
      dsimp only
      rw [ih (by omega) _ (by omega) (by omega), drop_zero, Nat.add_assoc]

theorem mem_runs {r : Rec} {run : Rec × List Rec} (hrun : run ∈ runs) (hr : r ∈ runElems run) : r ∈ runs.flatMap runElems :=
  mem_flatMap.mpr ⟨run, hrun, hr⟩

theorem between_iff {r : Rec} : between lo hi r = true ↔ lo ≤ r.1 ∧ r.1 ≤ hi := by
  rw [between, Bool.and_eq_true, decide_eq_true_eq, decide_eq_true_eq]

theorem countRange_spec (h : seg.Serves runs) (lo hi : Bytes) :
    seg.countRange lo hi = .ok ((runs.flatMap runElems).countP (between lo hi)) := by
  have hfences : seg.fences ≠ [] := by
    intro hnil
    have hlen := h.length_fences
    rw [hnil] at hlen
    exact h.nonempty (length_eq_zero_iff.mp hlen.symm)
  unfold countRange
  by_cases hempty : hi < lo
  · rw [if_pos (.inl hempty), countP_eq_zero.mpr]
    intro r _ hr
    exact absurd ((between_iff.mp hr).1.trans (between_iff.mp hr).2) (not_le.mpr hempty)
  · rw [if_neg (fun hor => hor.elim hempty hfences)]
    dsimp only
    obtain ⟨L1, run1, R1, hruns1, hlen1, hbelow1, hat1, habove1⟩ := h.split lo
    obtain ⟨L2, run2, R2, hruns2, hlen2, hbelow2, -, habove2⟩ := h.split hi
    have hle : lo ≤ hi := not_lt.mp hempty
    have hlast : L2.length < runs.length := by
      rw [hruns2, length_append, length_cons]
      omega
    -- what is behind the page of `hi` and what is before the page of `lo` does not count
    have hdrop1 : runs.drop (L1.length + 1) = R1 := by rw [hruns1, drop_length_add_append]; rfl
    have hdrop2 : runs.drop (L2.length + 1) = R2 := by rw [hruns2, drop_length_add_append]; rfl
    have htake1 : runs.take L1.length = L1 := by rw [hruns1, take_left]
    have htake2 : runs.take L2.length = L2 := by rw [hruns2, take_left]
    have horder : L1.length ≤ L2.length := by
      by_contra hgt
      have hmem : run1 ∈ R2 := by
        rw [← hdrop2]
        refine mem_of_getElem? (i := L1.length - (L2.length + 1)) ?_
        rw [getElem?_drop, Nat.add_sub_cancel' (by omega), hruns1, getElem?_middle]
      have habove := habove2 run1.1 (mem_runs hmem mem_cons_self)
      have hat := hat1 fun hnil => by
        rw [hnil] at hgt
        simp at hgt
      exact absurd (hat.trans hle) (not_le.mpr habove)
    rw [← hlen1, ← hlen2]
    rw [countPages_spec h (by omega) 0 ?_ le_rfl (by omega), Nat.zero_add]
    · congr 1
      have hsplit : runs = L1 ++ ((runs.drop L1.length).take (L2.length + 1 - L1.length) ++ R2) := by
        nth_rewrite 1 [← take_append_drop L1.length runs]
        rw [htake1]
        congr 1
        nth_rewrite 1 [← take_append_drop (L2.length + 1 - L1.length) (runs.drop L1.length)]
        rw [drop_drop, Nat.add_sub_cancel' (by omega), hdrop2]
      have hzero1 : (L1.flatMap runElems).countP (between lo hi) = 0 := countP_eq_zero.mpr fun r hr hb =>
        absurd (between_iff.mp hb).1 (not_le.mpr (hbelow1 r hr))
      have hzero2 : (R2.flatMap runElems).countP (between lo hi) = 0 := countP_eq_zero.mpr fun r hr hb =>
        absurd (between_iff.mp hb).2 (not_le.mpr (habove2 r hr))
      have hall := congrArg (fun l => (l.flatMap runElems).countP (between lo hi)) hsplit
      simp only [flatMap_append, countP_append, hzero1, hzero2, Nat.zero_add, Nat.add_zero] at hall
      exact hall.symm
    · intro j run hj hfirst hlast r hr
      refine between_iff.mpr ⟨(habove1 r (mem_runs ?_ hr)).le, (hbelow2 r (mem_runs ?_ hr)).le⟩
      · rw [← hdrop1]
        refine mem_of_getElem? (i := j - (L1.length + 1)) ?_
        rw [getElem?_drop, Nat.add_sub_cancel' (by omega), hj]
      · rw [← htake2]
        refine mem_of_getElem? (i := j) ?_
        rw [getElem?_take_of_lt hlast, hj]

/-! ## Ranges -/

/-- From here on, the iterator yields exactly these items and then ends. -/
def Yields (seg : Seg) (it : RangeIter) (items : List (Except SegError Rec)) : Prop :=
  ∃ turns, ∀ more, it.collect seg (turns + more) = some items

variable {it it' : RangeIter} {items : List (Except SegError Rec)}

theorem Yields.stop (h : it.turn seg = .stop) : seg.Yields it [] :=
  ⟨1, fun more => by rw [Nat.add_comm, RangeIter.collect, h]⟩

theorem Yields.again (h : it.turn seg = .again it') (hrest : seg.Yields it' items) : seg.Yields it items := by
  obtain ⟨turns, hturns⟩ := hrest
  refine ⟨turns + 1, fun more => ?_⟩
  rw [Nat.add_right_comm, RangeIter.collect, h]
  exact hturns more

theorem Yields.item {e : Except SegError Rec} (h : it.turn seg = .item e it') (hrest : seg.Yields it' items) :
    seg.Yields it (e :: items) := by
  obtain ⟨turns, hturns⟩ := hrest
  refine ⟨turns + 1, fun more => ?_⟩
  rw [Nat.add_right_comm, RangeIter.collect, h]
  dsimp only
  rw [hturns more]
  rfl

theorem Yields.of_turn_eq (h : it.turn seg = it'.turn seg) (hrest : seg.Yields it' items) : seg.Yields it items := by
  obtain ⟨turns, hturns⟩ := hrest
  refine ⟨turns + 1, fun more => ?_⟩
  have hnext := hturns (more + 1)
  rw [← Nat.add_assoc, RangeIter.collect, ← h] at hnext
  rw [Nat.add_right_comm, RangeIter.collect]
  exact hnext

def itemsOf (lo hi : Bytes) (recs : List Rec) : List (Except SegError Rec) := (recs.filter (between lo hi)).map .ok

theorem yields_page (hpage : seg.Shows page recs) {rest : List Rec} {ix : Nat}
    (hnext : ∀ slot, seg.Yields ⟨ix + 1, slot, lo, hi, none, false⟩ (itemsOf lo hi rest)) (n : Nat) {s : Nat}
    (hn : s + n = recs.length) (hsorted : Ascending Prod.fst (recs.drop s ++ rest)) :
    seg.Yields ⟨ix, s, lo, hi, some page, false⟩ (itemsOf lo hi (recs.drop s ++ rest)) := by
  induction n generalizing s with
  | zero =>
    rw [drop_eq_nil_of_le (by omega), nil_append]
    refine Yields.again ?_ (hnext s)
    show RangeIter.onPage seg _ page = _
    rw [RangeIter.onPage, if_pos (by rw [hpage.slots]; show recs.length ≤ s; omega)]
  | succ n ih =>
    have hlt : s < recs.length := by omega
    obtain ⟨cell, hread, hkey, hpayload⟩ := hpage.cell (getElem?_eq_getElem hlt)
    have hturn : RangeIter.turn seg ⟨ix, s, lo, hi, some page, false⟩ = if hi < recs[s].1 then .stop
        else if recs[s].1 < lo then .again ⟨ix, s + 1, lo, hi, some page, false⟩
        else .item (.ok recs[s]) ⟨ix, s + 1, lo, hi, some page, false⟩ := by
      show RangeIter.onPage seg _ page = _
      rw [RangeIter.onPage, if_neg (by rw [hpage.slots]; show ¬ recs.length ≤ s; omega)]
      dsimp only
      rw [hread]
      dsimp only
      rw [hkey, hpayload]
      rfl
    rw [drop_eq_getElem_cons hlt, cons_append] at hsorted ⊢
    obtain ⟨hhead, htail⟩ := pairwise_cons.mp hsorted
    have hrest := ih (s := s + 1) (by omega) htail
    by_cases hover : hi < recs[s].1
    · -- everything from here on is above the range
      have hnone : itemsOf lo hi (recs[s] :: (recs.drop (s + 1) ++ rest)) = [] := by
        refine map_eq_nil_iff.mpr (filter_eq_nil_iff.mpr fun r hr hb => ?_)
        rcases mem_cons.mp hr with rfl | hr
        · exact absurd (between_iff.mp hb).2 (not_le.mpr hover)
        · exact absurd (between_iff.mp hb).2 (not_le.mpr (hover.trans (hhead r hr)))
      rw [if_pos hover] at hturn
      rw [hnone]
      exact Yields.stop hturn
    · rw [if_neg hover] at hturn
      split_ifs at hturn with hunder
      · have hskip : between lo hi recs[s] = false :=
          Bool.eq_false_iff.mpr fun hb => absurd (between_iff.mp hb).1 (not_le.mpr hunder)
        rw [itemsOf, filter_cons_of_neg (by rw [hskip]; exact Bool.false_ne_true)]
        exact Yields.again hturn hrest
      · have htake : between lo hi recs[s] = true := between_iff.mpr ⟨not_lt.mp hunder, not_lt.mp hover⟩
        rw [itemsOf, filter_cons_of_pos htake, map_cons]
        exact Yields.item hturn hrest

theorem yields_end (h : seg.Serves runs) {ix : Nat} (hle : runs.length ≤ ix) (slot : Nat) :
    seg.Yields ⟨ix, slot, lo, hi, none, false⟩ (itemsOf lo hi ((runs.drop ix).flatMap runElems)) := by
  rw [drop_eq_nil_of_le hle]
  refine Yields.stop ?_
  show (if ix ≥ seg.fences.length then _ else _) = _
  rw [if_pos (by rw [h.length_fences]; exact hle)]

theorem yields_pages (h : seg.Serves runs) (n : Nat) {ix : Nat} (hn : runs.length ≤ ix + n) (slot : Nat) :
    seg.Yields ⟨ix, slot, lo, hi, none, false⟩ (itemsOf lo hi ((runs.drop ix).flatMap runElems)) := by
  induction n generalizing ix slot with
  | zero => exact yields_end h hn slot
  | succ n ih =>
    rcases Nat.lt_or_ge ix runs.length with hlt | hge
    · obtain ⟨page, hread, hshows⟩ := h.page (getElem?_eq_getElem hlt)
      have hasc : Ascending Prod.fst ((runs.drop ix).flatMap runElems) := by
        have hall := h.ascending
        rw [← take_append_drop ix runs, flatMap_append] at hall
        exact (pairwise_append.mp hall).2.1
      rw [drop_eq_getElem_cons hlt, flatMap_cons] at hasc ⊢
      refine Yields.of_turn_eq ?_
        (yields_page hshows (fun slot => ih (by omega) slot) (runElems runs[ix]).length (Nat.zero_add _) hasc)
      show (if ix ≥ seg.fences.length then _ else _) = _
      rw [if_neg (by rw [h.length_fences]; omega), hread]
      rfl
    · exact yields_end h hge slot

theorem range_spec (h : seg.Serves runs) (lo hi : Bytes) :
    seg.Yields (seg.range lo hi) (itemsOf lo hi (runs.flatMap runElems)) := by
  obtain ⟨L, run, R, hruns, hlen, hbelow, -, -⟩ := h.split lo
  have hyields : seg.Yields (seg.range lo hi) (itemsOf lo hi ((runs.drop (seg.fencePage lo)).flatMap runElems)) :=
    yields_pages h runs.length (by omega) 0
  have hsame : itemsOf lo hi (runs.flatMap runElems) = itemsOf lo hi ((runs.drop (seg.fencePage lo)).flatMap runElems) := by
    have hnone : (L.flatMap runElems).filter (between lo hi) = [] := filter_eq_nil_iff.mpr fun r hr hb =>
      absurd (between_iff.mp hb).1 (not_le.mpr (hbelow r hr))
    rw [← hlen, hruns, drop_left, itemsOf, flatMap_append, filter_append, hnone]
    rfl
  rw [hsame]
  exact hyields

end Seg

end Kevy.Seg
