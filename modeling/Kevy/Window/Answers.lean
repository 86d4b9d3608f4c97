import Kevy.Window.Runs

/-!
# A window does not change the answers

Counts and pages of a windowed index, over every history. A row written again with the value it has, once that entry is
cold and the index stores no columns, is lost; and a slide that seals a value below the boundary puts it behind larger
ones, where a reader who follows the cursor misses it.
-/

namespace Kevy.Window

open Kevy.Lib Kevy.Resp Kevy.Index List Option
open Kevy.Seg (Rec between)

variable {spec : WindowSpec} {shape : WindowShape} {arity : Nat}

namespace Shard

variable {S : Shard} {min max : IndexValue}

/-! ## Rows -/

def rowHits (S : Shard) : List Hit := S.rows.items.map rowHit

/-- The rows whose value lies in a range, by value and key. -/
def answer (S : Shard) (min max : IndexValue) : List Hit :=
  (S.rowHits.filter (covers min max)).mergeSort fun a b => decide (a ≤ b)

/-- The tree and the live cold entries are the rows. -/
structure Holds (shape : WindowShape) (S : Shard) : Prop where
  sound : S.win.Sound shape
  typed : ∀ h ∈ S.seg.places, shape.admits (ofLex h).1 = true
  rows : (S.seg.places ++ S.win.live shape).Perm S.rowHits

/-- A write that leaves the value as it is finds the entry in the tree, unless columns are stored with it. -/
def Keeps (arity : Nat) (S : Shard) : Step shape → Prop
  | .write key row =>
    arity = 0 → ∀ v, S.rows.get key = some v → row.value = some v → toLex (v, key) ∈ S.seg.places
  | .slide => True

def InOrder (spec : WindowSpec) (S : Shard) : Step shape → Prop
  | .write _ _ => True
  | .slide => ∀ t, WindowRt.target spec shape S.seg = some t → S.win.w < t →
      ∀ e ∈ S.seg.scanBelow (windowBound t shape), windowBound S.win.w shape ≤ e.value

/-- Every step of a history meets a condition on the shard it meets. -/
def Along (spec : WindowSpec) (arity : Nat) (P : Shard → Step shape → Prop) : Shard → List (Step shape) → Prop
  | _, [] => True
  | S, x :: steps => P S x ∧ Along spec arity P (S.step spec arity x) steps

theorem Along.induction {P : Shard → Step shape → Prop} {Q : Shard → Prop}
    (hstep : ∀ S x, Q S → P S x → Q (S.step spec arity x)) {S : Shard} {steps : List (Step shape)} (hS : Q S)
    (h : Along spec arity P S steps) : Q (S.run spec arity steps) := by
  induction steps generalizing S with
  | nil => exact hS
  | cons x steps ih => exact ih (hstep S x hS h.1) h.2

theorem Along.and {P Q : Shard → Step shape → Prop} {S : Shard} {steps : List (Step shape)}
    (h : Along spec arity P S steps) (h' : Along spec arity Q S steps) :
    Along spec arity (fun S x => P S x ∧ Q S x) S steps := by
  induction steps generalizing S with
  | nil => trivial
  | cons x steps ih => exact ⟨⟨h.1, h'.1⟩, ih h.2 h'.2⟩

theorem slide_cases (spec : WindowSpec) (shape : WindowShape) (win : WindowRt) (seg : Segment) :
    (win.slide spec shape seg).1 = seg ∧ (win.slide spec shape seg).2.1 = win ∨
    ∃ t, WindowRt.target spec shape seg = some t ∧ win.w < t ∧
      ((win.slide spec shape seg).1 = seg ∧ (win.slide spec shape seg).2.1 = { win with w := t } ∨
        (win.slide spec shape seg).1 = seg.splitOffBelow (windowBound t shape) ∧
          (win.slide spec shape seg).2.1 = win.sealBatch t (seg.scanBelow (windowBound t shape))) := by
  rw [WindowRt.slide]
  cases htarget : WindowRt.target spec shape seg with
  | none => exact .inl ⟨rfl, rfl⟩
  | some t =>
    by_cases hle : t ≤ win.w
    · simp [hle]
    · right
      refine ⟨t, rfl, not_le.mp hle, ?_⟩
      by_cases hempty : (seg.scanBelow (windowBound t shape)).isEmpty = true
      · simp [hle, hempty]
      · right
        simp [hle, hempty]

theorem perm_split (seg : Segment) (bound : IndexValue) (live : List Hit) :
    ((seg.splitOffBelow bound).places ++ (live ++ (seg.scanBelow bound).map Entry.place)).Perm (seg.places ++ live) := by
  have hsplit := filter_append_perm (fun e : Entry => decide (e.value < bound)) seg.entries
  have hplaces : ((seg.scanBelow bound).map Entry.place ++ (seg.splitOffBelow bound).places).Perm seg.places := by
    rw [Segment.places, Segment.places, ← map_append]
    exact hsplit.map _
  calc (seg.splitOffBelow bound).places ++ (live ++ (seg.scanBelow bound).map Entry.place)
    _ = (seg.splitOffBelow bound).places ++ live ++ (seg.scanBelow bound).map Entry.place := (append_assoc ..).symm
    _ |>.Perm ((seg.scanBelow bound).map Entry.place ++ ((seg.splitOffBelow bound).places ++ live)) := perm_append_comm
    _ |>.Perm (seg.places ++ live) := by
      rw [← append_assoc]
      exact hplaces.append_right live

theorem mem_rowHits {h : Hit} : h ∈ S.rowHits ↔ S.rows.get (ofLex h).2 = some (ofLex h).1 := by
  rw [rowHits, List.mem_map, ← KeyedList.mem_items_iff]
  constructor
  · rintro ⟨p, hp, rfl⟩
    exact hp
  · intro hp
    exact ⟨_, hp, rfl⟩

theorem admits_value {row : Peek shape} {v : IndexValue} (h : row.value = some v) : shape.admits v = true := by
  cases row with
  | missing => cases h
  | row primary columns =>
    obtain ⟨u, -, rfl⟩ := map_eq_some_iff.mp h
    exact u.2

theorem Holds.get_of_mem (h : S.Holds shape) {p : Hit} (hp : p ∈ S.seg.places) :
    S.rows.get (ofLex p).2 = some (ofLex p).1 := mem_rowHits.mp (h.rows.subset (mem_append_left _ hp))

theorem Holds.write (h : S.Holds shape) {key : Bytes} {row : Peek shape}
    (hkept : S.Keeps arity (.write key row)) : (S.step spec arity (.write key row)).Holds shape := by
  have hseg := places_applyScalarRow row (fun p hp (hkey : (ofLex p).2 = key) => hkey ▸ h.get_of_mem hp) hkept
  refine ⟨h.sound.onRowWrite key, fun p hp => ?_, ?_⟩
  · rcases mem_append.mp (hseg.subset hp) with hnew | hrest
    · obtain ⟨v, hv, rfl⟩ := map_eq_some_iff.mp (mem_toList.mp hnew)
      exact admits_value hv
    · exact h.typed p (mem_filter.mp hrest).1
  · have hlive : (S.win.onRowWrite key).live shape = (S.win.live shape).filter (notRow key) :=
      WindowRt.live_onRowWrite h.sound key
    change ((applyScalarRow arity S.seg key (S.rows.get key) row).places ++ (S.win.onRowWrite key).live shape).Perm
      ((setRow S.rows key row.value).items.map rowHit)
    rw [hlive]
    refine (hseg.append_right _).trans ?_
    rw [append_assoc, ← filter_append]
    exact ((h.rows.filter _).append_left _).trans (items_setRow S.rows key row.value).symm

theorem Holds.batch_typed (h : S.Holds shape) {bound : IndexValue} :
    ∀ e ∈ S.seg.scanBelow bound, shape.admits e.value = true := fun e he =>
  h.typed e.place (List.mem_map_of_mem (mem_filter.mp he).1)

theorem Holds.slide (h : S.Holds shape) : (S.step spec arity (.slide : Step shape)).Holds shape := by
  rcases slide_cases spec shape S.win S.seg with ⟨hseg, hwin⟩ | ⟨t, -, -, ⟨hseg, hwin⟩ | ⟨hseg, hwin⟩⟩
  · rw [step, hseg, hwin]
    exact h
  · rw [step, hseg, hwin]
    exact ⟨⟨h.sound.records, h.sound.seqs, h.sound.reach, h.sound.known⟩, h.typed, h.rows⟩
  · rw [step, hseg, hwin]
    refine ⟨h.sound.sealBatch t h.batch_typed, fun p hp => ?_, ?_⟩
    · obtain ⟨e, he, rfl⟩ := List.mem_map.mp hp
      exact h.typed e.place (List.mem_map_of_mem (mem_filter.mp he).1)
    · dsimp only
      rw [WindowRt.live_sealBatch h.sound t h.batch_typed]
      exact (perm_split S.seg _ _).trans h.rows

theorem Holds.step (x : Step shape) (h : S.Holds shape) (hkept : S.Keeps arity x) :
    (S.step spec arity x).Holds shape := by
  cases x with
  | write key row => exact h.write hkept
  | slide => exact h.slide

theorem holds_new (shape : WindowShape) : Shard.new.Holds shape where
  sound := by
    refine ⟨fun s hs => ?_, fun s hs => ?_, fun row n hn => ?_, fun s hs => ?_⟩
    · cases hs
    · cases hs
    · cases hn
    · cases hs
  typed := fun h hh => by cases hh
  rows := List.Perm.nil

/-! ## Counts -/

theorem count_seg (seg : Segment) (min max : IndexValue) :
    seg.count min max = (seg.places.filter (covers min max)).length := by
  rw [Segment.count, Segment.rangeWalk, Segment.places, List.filter_map, length_map]
  rfl

theorem Holds.count (h : S.Holds shape) (hmin : shape.admits min = true) (hmax : shape.admits max = true) :
    S.count shape min max = (S.rowHits.filter (covers min max)).length := by
  have hcold : (if S.win.hasCold then S.win.coldCount shape min max else 0) =
      ((S.win.live shape).filter (covers min max)).length := by
    cases hcold : S.win.cold with
    | nil => simp [WindowRt.hasCold, WindowRt.live, hcold]
    | cons s cold =>
      rw [← WindowRt.coldCount_eq h.sound.records hmin hmax, if_pos]
      simp [WindowRt.hasCold, hcold]
  rw [Shard.count, count_seg, hcold, ← length_append, ← filter_append]
  exact (h.rows.filter _).length_eq

/-! ## Order -/

theorem wrapI64_mem (v : Int) : -2 ^ 63 ≤ wrapI64 v ∧ wrapI64 v < 2 ^ 63 := by
  rw [wrapI64]
  omega

theorem target_mem {seg : Segment} {t : Int} (h : WindowRt.target spec shape seg = some t) : -2 ^ 63 ≤ t ∧ t < 2 ^ 63 := by
  obtain ⟨m, -, rfl⟩ := map_eq_some_iff.mp h
  exact wrapI64_mem _

theorem windowBound_lt {a b : Int} (ha : -2 ^ 63 ≤ a) (hab : a < b) (hb : b < 2 ^ 63) (shape : WindowShape) :
    windowBound a shape < windowBound b shape := by
  cases shape with
  | plainI64 => exact IndexValue.i64_lt_i64.mpr hab
  | compositeLed => exact IndexValue.str_lt_str.mpr (beBytes_lt (by omega) (by omega))

/-- Everything that was ever sealed, in the order it was. -/
def coldHits (shape : WindowShape) (S : Shard) : List Hit :=
  S.win.cold.flatMap fun s => s.2.filterMap fun r => decodeSegKey shape.ty r.1

structure Ascends (shape : WindowShape) (S : Shard) : Prop where
  ascending : (S.coldHits shape).Pairwise (· < ·)
  below : ∀ h ∈ S.coldHits shape, (ofLex h).1 < windowBound S.win.w shape
  lower : -2 ^ 63 ≤ S.win.w

theorem live_sublist (shape : WindowShape) (S : Shard) : (S.win.live shape).Sublist (S.coldHits shape) := by
  rw [WindowRt.live, coldHits]
  induction S.win.cold with
  | nil => exact List.Sublist.slnil
  | cons s cold ih =>
    rw [flatMap_cons, flatMap_cons]
    exact filter_sublist.append ih

theorem coldHits_of_cold {S' : Shard} (h : S'.win.cold = S.win.cold) : S'.coldHits shape = S.coldHits shape := by
  rw [coldHits, coldHits, h]

theorem Ascends.step (x : Step shape) (hS : S.Holds shape) (h : S.Ascends shape) (horder : S.InOrder spec x) :
    (S.step spec arity x).Ascends shape := by
  cases x with
  | write key row =>
    have hcold : (S.step spec arity (.write key row)).coldHits shape = S.coldHits shape :=
      coldHits_of_cold (WindowRt.cold_onRowWrite S.win key)
    have hw : (S.step spec arity (.write key row)).win.w = S.win.w := WindowRt.w_onRowWrite S.win key
    exact ⟨hcold ▸ h.ascending, by rw [hcold, hw]; exact h.below, hw ▸ h.lower⟩
  | slide =>
    rcases slide_cases spec shape S.win S.seg with ⟨hseg, hwin⟩ | ⟨t, ht, hlt, hslid⟩
    · rw [Shard.step, hseg, hwin]
      exact h
    · have hmem := target_mem ht
      have hbound := windowBound_lt h.lower hlt hmem.2 shape
      rcases hslid with ⟨hseg, hwin⟩ | ⟨hseg, hwin⟩
      · rw [Shard.step, hseg, hwin]
        exact ⟨h.ascending, fun p hp => (h.below p hp).trans hbound, hmem.1⟩
      · -- what is sealed lies between the two boundaries
        obtain ⟨batch, hbatch⟩ : ∃ batch, batch = S.seg.scanBelow (windowBound t shape) := ⟨_, rfl⟩
        have hcold : (S.step spec arity (.slide : Step shape)).coldHits shape = S.coldHits shape ++ batch.map Entry.place := by
          rw [Shard.step, coldHits, coldHits, hwin, WindowRt.sealBatch, flatMap_append, flatMap_singleton]
          congr 1
          rw [hbatch, filterMap_map, ← filterMap_eq_map]
          exact filterMap_congr fun e he => decodeSegKey_segKey (hS.batch_typed e he) e.key
        have hw : (S.step spec arity (.slide : Step shape)).win.w = t := by
          rw [Shard.step, hwin]
          rfl
        have hlow : ∀ e ∈ batch, windowBound S.win.w shape ≤ e.value := by
          rw [hbatch]
          exact horder t ht hlt
        have hhigh : ∀ e ∈ batch, e.value < windowBound t shape := fun e he => by
          rw [hbatch] at he
          simpa using (mem_filter.mp he).2
        have hsorted : (batch.map Entry.place).Pairwise (· < ·) := by
          rw [hbatch]
          exact pairwise_map.mpr (S.seg.sorted.filter _)
        refine ⟨?_, ?_, hw ▸ hmem.1⟩
        · rw [hcold]
          refine pairwise_append.mpr ⟨h.ascending, hsorted, fun p hp q hq => ?_⟩
          obtain ⟨e, he, rfl⟩ := List.mem_map.mp hq
          exact Prod.Lex.lt_iff.mpr (.inl ((h.below p hp).trans_le (hlow e he)))
        · rw [hcold, hw]
          intro p hp
          rcases mem_append.mp hp with hp | hp
          · exact (h.below p hp).trans hbound
          · obtain ⟨e, he, rfl⟩ := List.mem_map.mp hp
            exact hhigh e he

theorem ascends_new (shape : WindowShape) : Shard.new.Ascends shape where
  ascending := List.Pairwise.nil
  below := fun h hh => by cases hh
  lower := le_refl _

/-! ## Pages -/

theorem nodup_rowHits (S : Shard) : S.rowHits.Nodup := by
  refine Nodup.of_map (fun h : Hit => (ofLex h).2) ?_
  rw [rowHits, List.map_map]
  exact S.rows.nodup

theorem answer_perm (S : Shard) (min max : IndexValue) : (S.answer min max).Perm (S.rowHits.filter (covers min max)) :=
  mergeSort_perm ..

theorem pairwise_answer (S : Shard) (min max : IndexValue) : (S.answer min max).Pairwise (· < ·) := by
  have hle : (S.answer min max).Pairwise (fun a b : Hit => decide (a ≤ b) = true) :=
    List.pairwise_mergeSort (fun a b c hab hbc => by simp at *; exact hab.trans hbc)
      (fun a b => by simpa using le_total a b) _
  have hnodup : (S.answer min max).Nodup := (S.answer_perm min max).nodup_iff.mpr (S.nodup_rowHits.filter _)
  exact (hle.and hnodup).imp fun ⟨hab, hne⟩ => lt_of_le_of_ne (of_decide_eq_true hab) hne

theorem range_eq (seg : Segment) (max : IndexValue) {cursor : Option Hit} (hcursor : ∀ c ∈ cursor, min ≤ (ofLex c).1)
    (limit : Nat) : seg.range min max (cursor.map fun h => ⟨(ofLex h).1, (ofLex h).2⟩) limit =
      ((seg.places.filter (covers min max)).filter (resumed cursor)).take limit := by
  have hwalk : (seg.rangeWalk min max (cursor.map fun h => ⟨(ofLex h).1, (ofLex h).2⟩)).map Entry.place =
      (seg.places.filter (covers min max)).filter (resumed cursor) := by
    rw [Segment.rangeWalk, Segment.places, List.filter_map, List.filter_map, List.filter_filter]
    refine congrArg _ (filter_congr fun e _ => Bool.eq_iff_iff.mpr ?_)
    cases cursor with
    | none =>
      have hstart : (inRange min max none e = true) ↔ min ≤ e.value ∧ e.value ≤ max := by simp [inRange]
      have hwhole : (resumed none e.place && covers min max e.place) = true ↔ min ≤ e.value ∧ e.value ≤ max := by
        rw [resumed, all_none, Bool.true_and]
        exact covers_iff
      exact hstart.trans hwhole.symm
    | some c =>
      -- the tree looks at the cursor alone, which is not below the range
      have hle : c < e.place → min ≤ e.value := fun hlt => (hcursor c rfl).trans (Prod.Lex.monotone_fst _ _ hlt.le)
      have hstart : (inRange min max (some ⟨(ofLex c).1, (ofLex c).2⟩) e = true) ↔ c < e.place ∧ e.value ≤ max := by
        simp [inRange]
      have hwhole : (resumed (some c) e.place && covers min max e.place) = true ↔
          c < e.place ∧ min ≤ e.value ∧ e.value ≤ max := by
        rw [Bool.and_eq_true, covers_iff]
        exact and_congr_left fun _ => decide_eq_true_iff
      exact hstart.trans (Iff.trans (and_congr_right fun hlt => ⟨fun h => ⟨hle hlt, h⟩, And.right⟩) hwhole.symm)
  rw [Segment.range, map_take, hwalk]

theorem Holds.page (h : S.Holds shape) (ha : S.Ascends shape) (hmin : shape.admits min = true)
    (hmax : shape.admits max = true) {limit : Nat} (hlimit : 0 < limit) (cursor : Option Hit)
    (hcursor : ∀ c ∈ cursor, c ∈ S.answer min max) :
    S.page shape min max limit cursor = (behind cursor (S.answer min max)).take limit := by
  have hin : ∀ c ∈ cursor, min ≤ (ofLex c).1 := fun c hc => by
    have hcov := (mem_filter.mp ((S.answer_perm min max).subset (hcursor c hc))).2
    exact (covers_iff.mp hcov).1
  have hperm : (behind cursor (S.answer min max)).Perm
      (((S.seg.places.filter (covers min max)).filter (resumed cursor)) ++
        ((S.win.live shape).filter (covers min max)).filter (resumed cursor)) := by
    rw [← filter_append, ← filter_append]
    exact (((S.answer_perm min max).trans (h.rows.filter _).symm).filter _)
  have hhot : ((S.seg.places.filter (covers min max)).filter (resumed cursor)).Pairwise (· < ·) :=
    (S.seg.pairwise_places.filter _).filter _
  have hcold : (((S.win.live shape).filter (covers min max)).filter (resumed cursor)).Pairwise (· < ·) :=
    ((ha.ascending.sublist (live_sublist shape S)).filter _).filter _
  have hanswer : (behind cursor (S.answer min max)).Pairwise (· < ·) := (S.pairwise_answer min max).filter _
  have hmerge := mergeTake_eq_take hhot hcold hanswer hperm limit
  rw [Shard.page, range_eq S.seg max hin, ← hmerge]
  split
  · rw [WindowRt.coldHits_eq h.sound.records hmin hmax _ _ (by simp; omega), mergeCold, cut, elim_some,
      mergeTake_take (le_refl _) (le_refl _)]
  · rename_i hnone
    have hempty : S.win.cold = [] := by simpa [WindowRt.hasCold] using hnone
    rw [WindowRt.live, hempty, flatMap_nil, filter_nil, filter_nil, mergeTake_nil_right]

theorem Holds.pages (h : S.Holds shape) (ha : S.Ascends shape) (hmin : shape.admits min = true)
    (hmax : shape.admits max = true) {limit fuel : Nat} (hlimit : 0 < limit) (hfuel : S.rows.items.length < fuel) :
    (S.pages shape min max limit fuel).flatten = S.answer min max := by
  have hread := flatten_follow (S.pairwise_answer min max) hlimit (fun c hc => h.page ha hmin hmax hlimit c hc) fuel none
    (fun c hc => by cases hc)
  rw [behind_none] at hread
  refine hread (Nat.lt_of_le_of_lt ?_ hfuel)
  rw [(S.answer_perm min max).length_eq]
  exact (length_filter_le _ _).trans (by rw [rowHits, length_map])

/-- **A window does not change the answers.** Over every history along which a write that leaves a value as it is finds
the entry in the tree (or the index stores columns), a count is the number of rows in the range; and where no slide
seals a value below its boundary, following the cursor in pages of any size reads the rows of the range once each, by
value and key. -/
theorem window_keeps_answers (spec : WindowSpec) (shape : WindowShape) (arity : Nat) (steps : List (Step shape))
    (hkept : Along spec arity (Keeps arity) Shard.new steps) (min max : shape.Value) :
    (Shard.new.run spec arity steps).count shape min.1 max.1 =
        ((Shard.new.run spec arity steps).rowHits.filter (covers min.1 max.1)).length ∧
      (Along spec arity (InOrder spec) Shard.new steps → ∀ limit fuel, 0 < limit →
        (Shard.new.run spec arity steps).rows.items.length < fuel →
        ((Shard.new.run spec arity steps).pages shape min.1 max.1 limit fuel).flatten =
          (Shard.new.run spec arity steps).answer min.1 max.1) := by
  have hholds := hkept.induction (Q := Holds shape) (fun S x hS hx => hS.step x hx) (holds_new shape)
  refine ⟨hholds.count min.2 max.2, fun horder limit fuel hlimit hfuel => ?_⟩
  have hboth := (hkept.and horder).induction (Q := fun S => S.Holds shape ∧ S.Ascends shape)
    (fun S x hS hx => ⟨hS.1.step x hx.1, hS.2.step x hS.1 hx.2⟩) ⟨holds_new shape, ascends_new shape⟩
  exact hholds.pages hboth.2 min.2 max.2 hlimit hfuel

/-! ## Three histories -/

/-- The last hundred units stay in the tree, in steps of fifty. -/
def hundred : WindowSpec := ⟨100, 50, by decide, by decide, by decide⟩

def ofInt (v : Int) (h : WindowShape.admits .plainI64 (.i64 v) = true) : WindowShape.Value .plainI64 := ⟨.i64 v, h⟩

def plain (v : WindowShape.Value .plainI64) : Peek .plainI64 := .row (some v) []

/-- A row goes cold, and comes back with a new value. -/
def revived : List (Step .plainI64) :=
  [.write [1] (plain (ofInt 10 (by decide))), .write [2] (plain (ofInt 300 (by decide))), .slide,
    .write [1] (plain (ofInt 250 (by decide)))]

theorem window_keeps_answers_revived : (Shard.new.run hundred 0 revived).count .plainI64 (.i64 0) (.i64 1000) =
        ((Shard.new.run hundred 0 revived).rowHits.filter (covers (.i64 0) (.i64 1000))).length ∧
      ((Shard.new.run hundred 0 revived).pages .plainI64 (.i64 0) (.i64 1000) 1 3).flatten =
        (Shard.new.run hundred 0 revived).answer (.i64 0) (.i64 1000) := by
  have hfirst : (Shard.new.rows).get [1] = none := by decide
  have hsecond : (Shard.new.run hundred 0 (revived.take 1)).rows.get [2] = none := by decide +kernel
  have hmoved : (Shard.new.run hundred 0 (revived.take 3)).rows.get [1] = some (.i64 10) := by decide +kernel
  have hkept : Along hundred 0 (Keeps 0) Shard.new revived := by
    refine ⟨fun _ v hget => ?_, fun _ v hget => ?_, trivial, fun _ v hget hnew => ?_, trivial⟩
    · cases hfirst.symm.trans hget
    · cases hsecond.symm.trans hget
    · cases hmoved.symm.trans hget
      exact absurd hnew (by decide)
  have htarget : WindowRt.target hundred .plainI64 (Shard.new.run hundred 0 (revived.take 2)).seg = some 200 := by
    decide +kernel
  have hsealed : ∀ e ∈ (Shard.new.run hundred 0 (revived.take 2)).seg.scanBelow (windowBound 200 .plainI64),
      windowBound (Shard.new.run hundred 0 (revived.take 2)).win.w .plainI64 ≤ e.value := by decide +kernel
  have horder : Along hundred 0 (InOrder hundred) Shard.new revived := by
    refine ⟨trivial, trivial, fun t ht _ => ?_, trivial, trivial⟩
    cases htarget.symm.trans ht
    exact hsealed
  have h := window_keeps_answers hundred .plainI64 0 revived hkept (ofInt 0 (by decide)) (ofInt 1000 (by decide))
  exact ⟨h.1, h.2 horder 1 3 (by decide) (by decide +kernel)⟩

/-- A row goes cold and is then written again with the value it has. -/
def rewritten : List (Step .plainI64) :=
  [.write [1] (plain (ofInt 10 (by decide))), .write [2] (plain (ofInt 300 (by decide))), .slide,
    .write [1] (plain (ofInt 10 (by decide)))]

/-- A row comes in below the boundary and the next slide seals it. -/
def late : List (Step .plainI64) :=
  [.write [1] (plain (ofInt 10 (by decide))), .write [2] (plain (ofInt 300 (by decide))), .slide,
    .write [3] (plain (ofInt 5 (by decide))), .write [4] (plain (ofInt 400 (by decide))), .slide]

/-- The row written again is not counted any more, and the late row is on no page of a reader that follows the cursor. -/
theorem rows_are_missed : ((Shard.new.run hundred 0 rewritten).count .plainI64 (.i64 0) (.i64 1000) = 1 ∧
      ((Shard.new.run hundred 0 rewritten).rowHits.filter (covers (.i64 0) (.i64 1000))).length = 2) ∧
    (toLex (.i64 5, [3]) ∈ (Shard.new.run hundred 0 late).rowHits.filter (covers (.i64 0) (.i64 1000)) ∧
      ((Shard.new.run hundred 0 late).pages .plainI64 (.i64 0) (.i64 1000) 1 5).flatten =
        [toLex (.i64 10, [1]), toLex (.i64 300, [2]), toLex (.i64 400, [4])]) := by
  decide +kernel

end Shard

end Kevy.Window
