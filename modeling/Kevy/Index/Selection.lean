import Kevy.Index.PageOrder

/-!
# Selecting a page

What the walk over one segment selects: in driving order the first hit of each `DISTINCT` group, under `SORT` the best
one. Either way the page is the first of each group in the order of the query, cut to its length.
-/

namespace Kevy.Index

open Kevy.Lib Kevy.Resp List Option

variable {sort : Option SortOrder} {a b d : ScalarHit} {hits hits' : List ScalarHit}

/-! ## The walk -/

variable {T : Texts} {c : ScalarClauses} {l : List ScalarHit} {s : Selection} {e : Entry}

def candidates (T : Texts) (c : ScalarClauses) (es : List Entry) : List ScalarHit :=
  (es.filter (passes T · c.filters)).map (hitOf T c)

variable {f : Nat} {ty : ValType}

section Select

variable {id : Bytes} {i : Nat}

theorem selectHit_single (hd : (hitOf T c e).dkey = none) :
    selectHit T c e s = { s with hits := s.hits ++ [hitOf T c e] } := by
  simp only [selectHit, hd]

theorem selectHit_new (hd : (hitOf T c e).dkey = some id) (hget : s.groups.get id = none) :
    selectHit T c e s = ⟨s.hits ++ [hitOf T c e], s.groups.insert id s.hits.length⟩ := by
  simp only [selectHit, hd, hget]

theorem selectHit_again (hsort : c.sort = none) (hd : (hitOf T c e).dkey = some id) (hget : s.groups.get id = some i) :
    selectHit T c e s = s := by
  simp only [selectHit, hd, hget, hsort]

theorem selectHit_sorted {order : SortOrder} {prev : ScalarHit}
    (hsort : c.sort = some (f, order, ty)) (hd : (hitOf T c e).dkey = some id) (hget : s.groups.get id = some i)
    (hprev : s.hits[i]? = some prev) : selectHit T c e s =
      if sortedOrder ((hitOf T c e).okey, (hitOf T c e).key) (prev.okey, prev.key) order = .lt then
        { s with hits := s.hits.set i (hitOf T c e) }
      else s := by
  simp only [selectHit, hd, hget, hsort, hprev]

end Select

/-- The selection of the candidates `l` in driving order: the first of each group. -/
structure Walked (l : List ScalarHit) (s : Selection) : Prop where
  hits : s.hits = firsts ScalarHit.dkey [] l
  groups : ∀ d, (s.groups.get d).isSome = true ↔ d ∈ marks ScalarHit.dkey [] l

theorem Walked.selectHit (hsort : c.sort = none) (h : Walked l s) : Walked (l ++ [hitOf T c e]) (selectHit T c e s) := by
  cases hd : (hitOf T c e).dkey with
  | none =>
    rw [selectHit_single hd]
    refine ⟨?_, fun d => ?_⟩
    · rw [firsts_append, firsts_cons_fresh (fun d h => nomatch hd.symm.trans h), ← h.hits]
      rfl
    · rw [show marks ScalarHit.dkey [] (l ++ [hitOf T c e]) = marks ScalarHit.dkey [] l by simp [marks, hd]]
      exact h.groups d
  | some id =>
    have hmarks : ∀ d, d ∈ marks ScalarHit.dkey [] (l ++ [hitOf T c e]) ↔ d = id ∨ d ∈ marks ScalarHit.dkey [] l := by
      intro d
      simp [marks, hd]
    have hid := h.groups id
    cases hget : s.groups.get id with
    | none =>
      rw [hget] at hid
      have hnew : id ∉ marks ScalarHit.dkey [] l := fun hmem => by cases hid.mpr hmem
      rw [selectHit_new hd hget]
      refine ⟨?_, fun d => ?_⟩
      · rw [firsts_append, firsts_cons_fresh (fun d h => some.inj (hd.symm.trans h) ▸ hnew), ← h.hits]
        rfl
      · rw [hmarks, KeyedList.get_insert]
        split_ifs with hdid
        · simp [hdid]
        · rw [h.groups d]
          simp [hdid]
    | some i =>
      rw [hget] at hid
      have hseen : id ∈ marks ScalarHit.dkey [] l := hid.mp rfl
      rw [selectHit_again hsort hd hget]
      refine ⟨?_, fun d => ?_⟩
      · rw [firsts_append, firsts_cons_seen hd hseen, ← h.hits]
        exact (append_nil _).symm
      · rw [hmarks, h.groups d]
        refine ⟨.inr, ?_⟩
        rintro (rfl | hmem)
        · exact hseen
        · exact hmem

theorem queryLoop_driving (hsort : c.sort = none) (es : List Entry) {l : List ScalarHit} {s : Selection}
    (facets : List FacetCounts) (h : Walked l s) :
    (queryLoop T c es facets s).2.hits.take c.fetch = (firsts ScalarHit.dkey [] (l ++ candidates T c es)).take c.fetch := by
  induction es generalizing l s facets with
  | nil =>
    rw [queryLoop, h.hits]
    simp [candidates]
  | cons e es ih =>
    unfold queryLoop
    cases hp : passes T e c.filters with
    | false =>
      rw [show candidates T c (e :: es) = candidates T c es by simp [candidates, hp]]
      exact ih facets h
    | true =>
      have hcons : l ++ candidates T c (e :: es) = (l ++ [hitOf T c e]) ++ candidates T c es := by
        simp [candidates, hp]
      simp only [Bool.not_true, Bool.false_eq_true, if_false]
      split_ifs with hfull
      · -- the page is full: what comes later is cut off
        have hlen : s.hits.length = c.fetch := by
          simp only [Bool.and_eq_true, beq_iff_eq] at hfull
          exact hfull.2
        rw [firsts_append, ← h.hits, take_append_of_le_length (le_of_eq hlen.symm)]
      · rw [hcons]
        exact ih _ (h.selectHit hsort)

def Best (order : SortOrder) (l : List ScalarHit) (h : ScalarHit) : Prop :=
  h ∈ l ∧ ∀ d, h.dkey = some d → ∀ z ∈ l, z.dkey = some d → z = h ∨ Before (some order) h z

theorem Best.unique {order : SortOrder} {h h' : ScalarHit} {d : Bytes} (hbest : Best order l h) (hbest' : Best order l h')
    (hd : h.dkey = some d) (hd' : h'.dkey = some d) : h = h' := by
  rcases hbest.2 d hd h' hbest'.1 hd' with heq | hlt
  · exact heq.symm
  · rcases hbest'.2 d hd' h hbest.1 hd with heq | hlt'
    · exact heq
    · exact absurd hlt' hlt.asymm

theorem Best.of_append {order : SortOrder} {h x : ScalarHit} (hbest : Best order (l ++ [x]) h) (hmem : h ∈ l) :
    Best order l h :=
  ⟨hmem, fun d hd z hz => hbest.2 d hd z (mem_append_left _ hz)⟩

theorem Best.append {order : SortOrder} {h x : ScalarHit} (hbest : Best order l h)
    (hx : ∀ d, h.dkey = some d → x.dkey = some d → Before (some order) h x) : Best order (l ++ [x]) h := by
  refine ⟨mem_append_left _ hbest.1, fun d hd z hz hgz => ?_⟩
  rcases mem_append.mp hz with hz | hz
  · exact hbest.2 d hd z hz hgz
  · obtain rfl := mem_singleton.mp hz
    exact .inr (hx d hd hgz)

/-- The selection of the candidates `l` under `SORT`: the best of each group, wherever it stands. -/
structure Chosen (order : SortOrder) (l : List ScalarHit) (s : Selection) : Prop where
  nodup : s.hits.Nodup
  mem : ∀ h, h ∈ s.hits ↔ Best order l h
  groups : ∀ d i, s.groups.get d = some i ↔ ∃ h, s.hits[i]? = some h ∧ h.dkey = some d
  cover : ∀ z ∈ l, ∀ d, z.dkey = some d → (s.groups.get d).isSome = true

namespace Chosen

variable {order : SortOrder} {x prev : ScalarHit} {id : Bytes} {i : Nat}

theorem notMem (h : Chosen order l s) (hkey : x.key ∉ l.map ScalarHit.key) : x ∉ s.hits := fun hx =>
  hkey (List.mem_map_of_mem ((h.mem x).mp hx).1)

theorem push (h : Chosen order l s) (hkey : x.key ∉ l.map ScalarHit.key) {groups : KeyedList Bytes Nat}
    (hfresh : ∀ z ∈ l, ∀ d, z.dkey = some d → x.dkey ≠ some d)
    (hgroups : ∀ d, groups.get d = if x.dkey = some d then some s.hits.length else s.groups.get d) :
    Chosen order (l ++ [x]) ⟨s.hits ++ [x], groups⟩ := by
  refine ⟨?_, fun y => ?_, fun d i => ?_, fun z hz d hd => ?_⟩
  · rw [nodup_append]
    refine ⟨h.nodup, nodup_singleton x, fun a ha b hb => ?_⟩
    rintro rfl
    exact h.notMem hkey (mem_singleton.mp hb ▸ ha)
  · rw [mem_append, h.mem, mem_singleton]
    constructor
    · rintro (hbest | rfl)
      · exact hbest.append fun d hd hx => absurd hx (hfresh y hbest.1 d hd)
      · refine ⟨by simp, fun d hd z hz hgz => ?_⟩
        rcases mem_append.mp hz with hz | hz
        · exact absurd hd (hfresh z hz d hgz)
        · exact .inl (mem_singleton.mp hz)
    · intro hbest
      rcases mem_append.mp hbest.1 with hy | hy
      · exact .inl (hbest.of_append hy)
      · exact .inr (mem_singleton.mp hy)
  · rw [hgroups]
    dsimp only
    rcases Nat.lt_trichotomy i s.hits.length with hi | hi | hi
    · rw [getElem?_append_left hi]
      split_ifs with hx
      · constructor
        · intro heq
          have := some_inj.mp heq
          omega
        · rintro ⟨y, hy, hgy⟩
          have hbest := (h.mem y).mp (mem_of_getElem? hy)
          exact absurd hx (hfresh y hbest.1 d hgy)
      · exact h.groups d i
    · subst hi
      rw [getElem?_concat_length]
      split_ifs with hx
      · exact ⟨fun _ => ⟨x, rfl, hx⟩, fun _ => rfl⟩
      · rw [h.groups]
        constructor
        · rintro ⟨y, hy, -⟩
          rw [List.getElem?_eq_none (le_refl _)] at hy
          cases hy
        · rintro ⟨y, hy, hgy⟩
          obtain rfl := some_inj.mp hy
          exact absurd hgy hx
    · rw [List.getElem?_eq_none (by rw [length_append, length_singleton]; omega)]
      split_ifs with hx
      · constructor
        · intro heq
          have := some_inj.mp heq
          omega
        · rintro ⟨y, hy, -⟩
          cases hy
      · rw [h.groups, List.getElem?_eq_none (Nat.le_of_lt hi)]
        simp
  · rw [hgroups]
    split_ifs with hx
    · rfl
    · rcases mem_append.mp hz with hz | hz
      · exact h.cover z hz d hd
      · exact absurd (mem_singleton.mp hz ▸ hd) hx

theorem mem_set (hnodup : s.hits.Nodup) (hi : s.hits[i]? = some prev) (y : ScalarHit) :
    y ∈ s.hits.set i x ↔ y = x ∨ y ∈ s.hits ∧ y ≠ prev := by
  have hlt : i < s.hits.length := (List.getElem?_eq_some_iff.mp hi).1
  rw [mem_iff_getElem?]
  constructor
  · rintro ⟨j, hj⟩
    rw [List.getElem?_set] at hj
    split_ifs at hj with hij
    · exact .inl (some_inj.mp hj).symm
    · refine .inr ⟨mem_of_getElem? hj, ?_⟩
      rintro rfl
      exact hij ((getElem?_inj hlt hnodup).mp (hi.trans hj.symm))
  · rintro (rfl | ⟨hy, hne⟩)
    · exact ⟨i, getElem?_set_self hlt⟩
    · obtain ⟨j, hj⟩ := mem_iff_getElem?.mp hy
      refine ⟨j, ?_⟩
      rw [getElem?_set_ne]
      · exact hj
      · rintro rfl
        exact hne (some_inj.mp (hj.symm.trans hi))

theorem replace (h : Chosen order l s) (hkey : x.key ∉ l.map ScalarHit.key) (hd : x.dkey = some id)
    (hi : s.hits[i]? = some prev) (hprev : prev.dkey = some id) (hbefore : Before (some order) x prev) :
    Chosen order (l ++ [x]) { s with hits := s.hits.set i x } := by
  have hbest : Best order l prev := (h.mem prev).mp (mem_of_getElem? hi)
  have hlt : i < s.hits.length := (List.getElem?_eq_some_iff.mp hi).1
  refine ⟨h.nodup.set (h.notMem hkey), fun y => ?_, fun d j => ?_, fun z hz d hgz => ?_⟩
  · rw [mem_set h.nodup hi]
    constructor
    · rintro (rfl | ⟨hy, hne⟩)
      · refine ⟨by simp, fun d hgy z hz hgz => ?_⟩
        rw [hd] at hgy
        obtain rfl := some_inj.mp hgy
        rcases mem_append.mp hz with hz | hz
        · rcases hbest.2 id hprev z hz hgz with rfl | hlater
          · exact .inr hbefore
          · exact .inr (hbefore.trans hlater)
        · exact .inl (mem_singleton.mp hz)
      · have hybest := (h.mem y).mp hy
        refine hybest.append fun d hgy hx => ?_
        rw [hd] at hx
        obtain rfl := some_inj.mp hx
        exact absurd (hybest.unique hbest hgy hprev) hne
    · intro hy
      rcases mem_append.mp hy.1 with hmem | hmem
      · refine .inr ⟨(h.mem y).mpr (hy.of_append hmem), ?_⟩
        rintro rfl
        rcases hy.2 id hprev x (by simp) hd with rfl | hlater
        · exact hkey (List.mem_map_of_mem hmem)
        · exact hlater.asymm hbefore
      · exact .inl (mem_singleton.mp hmem)
  · rw [h.groups]
    dsimp only
    rw [List.getElem?_set]
    split_ifs with hij
    · subst hij
      rw [hi]
      constructor
      · rintro ⟨y, hy, hgy⟩
        obtain rfl := some_inj.mp hy
        exact ⟨x, rfl, by rw [hd, ← hprev, hgy]⟩
      · rintro ⟨y, hy, hgy⟩
        obtain rfl := some_inj.mp hy
        exact ⟨prev, rfl, by rw [hprev, ← hd, hgy]⟩
    · rfl
  · rcases mem_append.mp hz with hz | hz
    · exact h.cover z hz d hgz
    · obtain rfl := mem_singleton.mp hz
      rw [hd] at hgz
      obtain rfl := some_inj.mp hgz
      exact isSome_iff_exists.mpr ⟨i, (h.groups id i).mpr ⟨prev, hi, hprev⟩⟩

theorem pass (h : Chosen order l s) (hd : x.dkey = some id) (hi : s.hits[i]? = some prev)
    (hprev : prev.dkey = some id) (hbefore : Before (some order) prev x) : Chosen order (l ++ [x]) s := by
  have hbest : Best order l prev := (h.mem prev).mp (mem_of_getElem? hi)
  refine ⟨h.nodup, fun y => ?_, h.groups, fun z hz d hgz => ?_⟩
  · rw [h.mem]
    constructor
    · intro hy
      refine hy.append fun d hgy hx => ?_
      rw [hd] at hx
      obtain rfl := some_inj.mp hx
      rw [hy.unique hbest hgy hprev]
      exact hbefore
    · intro hy
      rcases mem_append.mp hy.1 with hmem | hmem
      · exact hy.of_append hmem
      · obtain rfl := mem_singleton.mp hmem
        rcases hy.2 id hd prev (mem_append_left _ hbest.1) hprev with rfl | hlater
        · exact hbest
        · exact absurd hlater hbefore.asymm
  · rcases mem_append.mp hz with hz | hz
    · exact h.cover z hz d hgz
    · obtain rfl := mem_singleton.mp hz
      rw [hd] at hgz
      obtain rfl := some_inj.mp hgz
      exact isSome_iff_exists.mpr ⟨i, (h.groups id i).mpr ⟨prev, hi, hprev⟩⟩

theorem selectHit (hsort : c.sort = some (f, order, ty)) (h : Chosen order l s)
    (hkey : (hitOf T c e).key ∉ l.map ScalarHit.key) : Chosen order (l ++ [hitOf T c e]) (selectHit T c e s) := by
  cases hd : (hitOf T c e).dkey with
  | none =>
    rw [selectHit_single hd]
    refine h.push hkey (fun z _ d _ => by rw [hd]; exact (some_ne_none d).symm) fun d => ?_
    rw [hd, if_neg (some_ne_none d).symm]
  | some id =>
    cases hget : s.groups.get id with
    | none =>
      rw [selectHit_new hd hget]
      refine h.push hkey (fun z hz d hgz hx => ?_) fun d => ?_
      · have hcover := h.cover z hz d hgz
        rw [hd] at hx
        rw [← some_inj.mp hx, hget] at hcover
        cases hcover
      · rw [hd, KeyedList.get_insert]
        by_cases hdid : d = id
        · rw [if_pos hdid, if_pos (by rw [hdid])]
        · rw [if_neg hdid, if_neg (fun heq => hdid (some_inj.mp heq).symm)]
    | some i =>
      obtain ⟨prev, hi, hprev⟩ := (h.groups id i).mp hget
      rw [selectHit_sorted hsort hd hget hi]
      split_ifs with hlt
      · exact h.replace hkey hd hi hprev (sortedOrder_eq_lt_iff.mp hlt)
      · refine h.pass hd hi hprev ?_
        have hne : (hitOf T c e).key ≠ prev.key := fun heq =>
          hkey (heq ▸ List.mem_map_of_mem ((h.mem prev).mp (mem_of_getElem? hi)).1)
        exact (before_or_before (some order) hne).resolve_left fun hb => hlt (sortedOrder_eq_lt_iff.mpr hb)

end Chosen

theorem queryLoop_sorted {order : SortOrder} (hsort : c.sort = some (f, order, ty))
    (es : List Entry) {l : List ScalarHit} {s : Selection} (facets : List FacetCounts) (h : Chosen order l s)
    (hkeys : ((l ++ candidates T c es).map ScalarHit.key).Nodup) :
    Chosen order (l ++ candidates T c es) (queryLoop T c es facets s).2 := by
  induction es generalizing l s facets with
  | nil =>
    rw [queryLoop]
    simpa [candidates] using h
  | cons e es ih =>
    unfold queryLoop
    cases hp : passes T e c.filters with
    | false =>
      rw [show candidates T c (e :: es) = candidates T c es by simp [candidates, hp]] at hkeys ⊢
      exact ih facets h hkeys
    | true =>
      have hcons : l ++ candidates T c (e :: es) = (l ++ [hitOf T c e]) ++ candidates T c es := by
        simp [candidates, hp]
      have hkey : (hitOf T c e).key ∉ l.map ScalarHit.key := by
        rw [hcons, map_append, map_append, nodup_append] at hkeys
        have hleft := nodup_append.mp hkeys.1
        exact fun hmem => hleft.2.2 _ hmem _ (by simp) rfl
      rw [hcons] at hkeys ⊢
      simp only [Bool.not_true, Bool.false_eq_true, if_false, hsort, isSome_some, Bool.true_or, Bool.false_and]
      exact ih _ (h.selectHit hsort hkey) hkeys

theorem before_none_iff : Before none a b ↔ toLex (a.value, a.key) < toLex (b.value, b.key) := by
  unfold Before hitLe
  rw [bne_iff_ne, ordCmp_ne_gt_iff, bne_eq_false_iff_eq]
  constructor
  · rintro ⟨-, hgt⟩
    exact (cmp_eq_gt_iff _ _).mp hgt
  · intro hlt
    exact ⟨le_of_lt hlt, (cmp_eq_gt_iff _ _).mpr hlt⟩

theorem pairwise_candidates (T : Texts) (c : ScalarClauses) (seg : Segment) (min max : IndexValue)
    (cursor : Option Cursor) : (candidates T c (seg.rangeWalk min max cursor)).Pairwise (Before none) := by
  refine pairwise_map.mpr ?_
  have hsub : ((seg.rangeWalk min max cursor).filter (passes T · c.filters)).Sublist seg.entries :=
    filter_sublist.trans filter_sublist
  exact (seg.sorted.sublist hsub).imp fun h => before_none_iff.mpr h

theorem nodup_candidates (T : Texts) (c : ScalarClauses) {seg : Segment} (min max : IndexValue)
    (cursor : Option Cursor) (hkeys : (seg.entries.map Entry.key).Nodup) :
    ((candidates T c (seg.rangeWalk min max cursor)).map ScalarHit.key).Nodup := by
  have hsub : (seg.rangeWalk min max cursor).Sublist seg.entries := filter_sublist
  have hmap : (candidates T c (seg.rangeWalk min max cursor)).map ScalarHit.key =
      ((seg.rangeWalk min max cursor).filter (passes T · c.filters)).map Entry.key := by
    rw [candidates, List.map_map]
    rfl
  rw [hmap]
  exact hkeys.sublist ((filter_sublist.trans hsub).map Entry.key)

theorem queryClaused_hits (T : Texts) (seg : Segment) (min max : IndexValue) (cursor : Option Cursor) (c : ScalarClauses)
    (hkeys : (seg.entries.map Entry.key).Nodup) : (seg.queryClaused T min max cursor c).hits =
      (firsts ScalarHit.dkey [] ((candidates T c (seg.rangeWalk min max cursor)).mergeSort
        (hitLe (c.sort.map fun s => s.2.1)))).take c.fetch := by
  have hnodup := nodup_candidates T c min max cursor hkeys
  have hwalked : Walked [] ⟨[], .empty⟩ := ⟨rfl, fun d => by simp [marks]⟩
  unfold Segment.queryClaused
  cases hsort : c.sort with
  | none =>
    have hloop := queryLoop_driving (T := T) hsort (seg.rangeWalk min max cursor) (c.facets.map fun _ => .empty) hwalked
    rw [nil_append] at hloop
    have hsorted := pairwise_candidates T c seg min max cursor
    rw [map_none, mergeSort_of_pairwise (hsorted.imp fun h => h.1)]
    exact hloop
  | some o =>
    obtain ⟨f, order, ty⟩ := o
    have hempty : Chosen order [] ⟨[], .empty⟩ :=
      ⟨nodup_nil, fun h => by simp [Best], fun d i => by simp, fun z hz => by cases hz⟩
    have hchosen := queryLoop_sorted (T := T) hsort (seg.rangeWalk min max cursor) (c.facets.map fun _ => .empty)
      hempty hnodup
    rw [nil_append] at hchosen
    have hsorted : ((candidates T c (seg.rangeWalk min max cursor)).mergeSort (hitLe (some order))).Pairwise
        (Before (some order)) := pairwise_mergeSort hnodup
    have hperm := mergeSort_perm (candidates T c (seg.rangeWalk min max cursor)) (hitLe (some order))
    refine congrArg (List.take c.fetch) (@eq_of_pairwise_before (some order) _ _ (pairwise_mergeSort ?_) ?_ ?_)
    · refine Nodup.map_on (fun x hx y hy heq => ?_) hchosen.nodup
      exact inj_on_of_nodup_map hnodup ((hchosen.mem x).mp hx).1 ((hchosen.mem y).mp hy).1 heq
    · exact hsorted.sublist (firsts_sublist [] _)
    · refine (mergeSort_perm _ _).trans ?_
      have hfirsts : (firsts ScalarHit.dkey [] ((candidates T c (seg.rangeWalk min max cursor)).mergeSort
          (hitLe (some order)))).Nodup :=
        ((hperm.nodup_iff).mpr (Nodup.of_map ScalarHit.key hnodup)).sublist (firsts_sublist [] _)
      refine (perm_ext_iff_of_nodup hchosen.nodup hfirsts).mpr fun h => ?_
      rw [hchosen.mem, mem_firsts_iff_least Before.asymm hsorted, hperm.mem_iff]
      exact and_congr_right fun _ => forall₂_congr fun d _ => forall_congr' fun z => by rw [hperm.mem_iff]

end Kevy.Index
