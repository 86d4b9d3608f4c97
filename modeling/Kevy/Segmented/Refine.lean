import Kevy.Segmented.Split

/-!
# Every value is its own finite map

The values over one heap are finite maps that know nothing of each other: a call on one of them is that call on its
map, and no other map changes, whatever buckets the values share.
-/

namespace Kevy.Segmented

open Kevy.Lib Kevy.Map List Option

variable {K V : Type} {ops : KeyOps K}

variable {vals : List (Bucket K V)} {h' : Heap (Bucket K V)} {m' : SegMap}

section Calls

variable {h : Heap (Bucket K V)} {m : SegMap} {dict : Dict K V} {others : List Nat}

/-! ## One value -/

theorem Holds.bucket_entries (hm : Holds ops m vals dict) {bi : Nat} {b : Bucket K V}
    (hb : vals[bi]? = some b) : dict.entries.Perm (b.map.entries ++ allEntries (vals.eraseIdx bi)) :=
  hm.perm.trans (Holds.perm_bucket hb)

theorem get_spec (hm : Holds ops m (h.values m.buckets) dict) (key : K) : get ops h m key = some (dict.get ops key) := by
  obtain ⟨bi, b, hslot, hb, -⟩ := hm.bucket key
  have hlook := (hm.sound b (mem_of_getElem? hb)).refines.get_eq key
  obtain ⟨hlt, rfl⟩ := Heap.exists_cell hb
  unfold get bucketOf
  rw [hslot, bind_eq_bind, bind_some, getElem?_eq_getElem hlt, bind_some, hlook,
    get_part hm.distinct (hm.bucket_entries hb) (hm.others_lack hslot), hm.noAux]

theorem iter_spec (hm : Holds ops m (h.values m.buckets) dict) :
    (iter h m).Perm (dict.entries.map fun e => (e.1, e.2.1)) := by
  refine List.Perm.trans ?_ (hm.perm.map _).symm
  unfold iter allEntries
  rw [map_flatMap]
  exact Perm.flatMap_left _ fun b hb => (hm.sound b hb).refines.iter_perm

/-- What a call does to a value, its map and the heap. -/
structure Called (ops : KeyOps K) (h : Heap (Bucket K V)) (others : List Nat) (dict : Dict K V)
    (h' : Heap (Bucket K V)) (m' : SegMap) : Prop where
  owner : ∃ vals, Heap.Owner h h' m'.buckets others vals
  holds : Holds ops m' (h'.values m'.buckets) dict

theorem Called.of_owner
    (howner : Heap.Owner h h' m'.buckets others vals) (hm : Holds ops m' vals dict) : Called ops h others dict h' m' :=
  ⟨⟨vals, howner⟩, howner.values_eq ▸ hm⟩

def SpreadWith (ops : KeyOps K) (h : Heap (Bucket K V)) (m : SegMap) (key : K) (value : V) : Prop :=
  ∀ bi b, m.dirs[route m.globalBits (ops.hash key)]? = some bi → (h.values m.buckets)[bi]? = some b →
    b.map.occupied = bucketSplit → Spread ops m.globalBits ((key, value, 0) :: b.map.entries)

def AllSmall (h : Heap (Bucket K V)) (m : SegMap) : Prop := ∀ b ∈ h.values m.buckets, b.Small

theorem AllSmall.write {bi : Nat} {b b' : Bucket K V}
    (howner : Heap.Owner h h' m'.buckets others ((h.values m.buckets).set bi b'))
    (hb : (h.values m.buckets)[bi]? = some b) (hset : b.Small → b'.Small) (hsmall : AllSmall h m) : AllSmall h' m' := by
  intro x hx
  rw [howner.values_eq] at hx
  rcases mem_or_eq_of_mem_set hx with hx | rfl
  · exact hsmall x hx
  · exact hset (hsmall b (mem_of_getElem? hb))

theorem enough_fuel {lb : Nat} : maxBits < maxBits + 1 + lb := by omega

theorem insert_spec (hc : h.Counted (m.buckets ++ others)) (hm : Holds ops m (h.values m.buckets) dict) (key : K)
    (value : V) : ∃ h' m', insert ops h m key value = some (h', m', (dict.insert ops key value).2) ∧
      Called ops h others (dict.insert ops key value).1 h' m' ∧
      (SpreadWith ops h m key value → AllSmall h m → AllSmall h' m') := by
  obtain ⟨bi, b, hslot, hb, hbi⟩ := hm.bucket key
  have hsound := hm.sound b (mem_of_getElem? hb)
  obtain ⟨map, slot, hinsert, href⟩ := hsound.refines.insertSlot key value
  obtain ⟨hreply, hperm⟩ := insert_part hm.distinct (hm.bucket_entries hb) (hm.others_lack hslot) value
  rw [hm.noAux] at hreply hperm
  rw [← hreply] at hinsert
  have hplain := plain_of_refines href (hasAux_insert _ key value)
  have hroute : ∀ e ∈ map.entries, m.dirs[route m.globalBits (ops.hash e.1)]? = some bi := by
    intro e he
    rcases key_of_mem_insert (href.perm.mem_iff.mp he) with hkey | ⟨e', he', hkey⟩
    · rw [hkey, hslot]
    · rw [← hkey]
      exact hm.routed hb e' he'
  have hset := fun refs => hm.setBucket hb hplain.wf hplain.aux hroute (hperm.trans (href.perm.symm.append_right _))
    ((hasAux_insert dict key value).trans hm.noAux) (hm.distinct.insert key value) refs
  have hcount := href.length_eq
  rw [length_insert, ← hreply, ← hsound.occupied_eq] at hcount
  obtain ⟨hlt, rfl⟩ := Heap.exists_cell hb
  have howner := Heap.Owner.write hc hlt ⟨(h.cell m.buckets[bi]).localBits, map⟩
  have hlen : (dict.insert ops key value).1.entries.length =
      if (dict.insert ops key value).2.isNone then dict.entries.length + 1 else dict.entries.length :=
    length_insert key value
  rw [← hm.len_eq] at hlen
  unfold insert
  simp only [hslot, getElem?_eq_getElem hlt, hinsert, bind_eq_bind, bind_some]
  cases hold : (dict.insert ops key value).2.isNone with
  | false =>
    rw [hold, if_neg Bool.false_ne_true] at hlen hcount
    rw [if_neg Bool.false_ne_true]
    refine ⟨_, _, rfl, Called.of_owner howner ?_, 
      fun _ => AllSmall.write howner hb (Or.imp_left (Nat.le_of_eq hcount).trans)⟩
    rw [← hlen]
    exact hset _
  | true =>
    rw [hold, if_pos rfl] at hlen hcount
    rw [if_pos rfl]
    split_ifs with hfull
    · have hm1 := hset (m.buckets.set bi (h.write m.buckets[bi] ⟨(h.cell m.buckets[bi]).localBits, map⟩).2)
      rw [hlen, ← howner.values_eq] at hm1
      have hb1 := getElem?_set_self (a := (⟨(h.cell m.buckets[bi]).localBits, map⟩ : Bucket K V)) hbi
      rw [← howner.values_eq] at hb1
      obtain ⟨h', m', vals, hsplit, howner', hm', hsmall'⟩ := split_spec howner.counted hm1 hslot hb1 enough_fuel
      rw [hsplit]
      refine ⟨h', m', rfl, Called.of_owner (howner.trans howner') hm', fun hspread hsmall => ?_⟩
      rw [AllSmall, (howner.trans howner').values_eq]
      refine hsmall' (fun _ hlow => ?_) fun j x hx hj => ?_
      · have hold' := (hsmall _ (mem_of_getElem? hb)).resolve_right (Nat.not_le_of_lt hlow)
        have hentries := href.perm
        rw [entries_insert_new (hreply ▸ hold)] at hentries
        refine ⟨hcount.trans_le (Nat.succ_le_succ hold'), fun _ => ⟨_, hentries.mem_iff.mpr (mem_cons_self ..), rfl⟩, ?_⟩
        exact (hspread bi _ hslot hb (by omega)).mono le_rfl fun x hx => hentries.mem_iff.mpr hx
      · rw [howner.values_eq, getElem?_set_ne (Ne.symm hj)] at hx
        exact hsmall x (mem_of_getElem? hx)
    · refine ⟨_, _, rfl, Called.of_owner howner ?_,
        fun _ => AllSmall.write howner hb fun _ => .inl (Nat.le_of_not_lt hfull)⟩
      rw [← hlen]
      exact hset _

theorem remove_spec (hc : h.Counted (m.buckets ++ others)) (hm : Holds ops m (h.values m.buckets) dict) (key : K) :
    ∃ h' m', remove ops h m key = some (h', m', (dict.remove ops key).2) ∧
      Called ops h others (dict.remove ops key).1 h' m' ∧ (AllSmall h m → AllSmall h' m') := by
  obtain ⟨bi, b, hslot, hb, hbi⟩ := hm.bucket key
  obtain ⟨map, hremove, href⟩ := (hm.sound b (mem_of_getElem? hb)).refines.remove key
  obtain ⟨hreply, hperm⟩ := remove_part hm.distinct (hm.bucket_entries hb) (hm.others_lack hslot)
  rw [hm.noAux] at hreply hperm
  rw [← hreply] at hremove
  have hplain := plain_of_refines href rfl
  have hroute : ∀ e ∈ map.entries, m.dirs[route m.globalBits (ops.hash e.1)]? = some bi :=
    fun e he => hm.routed hb e (mem_filter.mp (href.perm.mem_iff.mp he)).1
  have hset := fun refs => hm.setBucket hb hplain.wf hplain.aux hroute (hperm.trans (href.perm.symm.append_right _))
    hm.noAux (hm.distinct.remove key) refs
  obtain ⟨hlt, rfl⟩ := Heap.exists_cell hb
  have howner := Heap.Owner.write hc hlt ⟨(h.cell m.buckets[bi]).localBits, map⟩
  have hlen := length_remove hm.distinct key
  rw [← hm.len_eq] at hlen
  have hfewer : map.occupied ≤ (h.cell m.buckets[bi]).map.occupied := by
    rw [href.length_eq, (hm.sound _ (mem_of_getElem? hb)).occupied_eq]
    exact length_filter_le _ _
  unfold remove bucketOf
  simp only [hslot, getElem?_eq_getElem hlt, hremove, bind_eq_bind, bind_some]
  refine ⟨_, _, rfl, Called.of_owner howner ?_, AllSmall.write howner hb (Or.imp_left hfewer.trans)⟩
  rw [← hlen]
  exact hset _

end Calls

/-! ## Several values -/

section World

variable {w : World K V} {dicts : List (Dict K V)}

def Maps.step (ops : KeyOps K) (dicts : List (Dict K V)) : Op K V → List (Dict K V) × Option V
  | .insert i key value =>
    match dicts[i]? with
    | none => (dicts, none)
    | some d => (dicts.set i (d.insert ops key value).1, (d.insert ops key value).2)
  | .remove i key =>
    match dicts[i]? with
    | none => (dicts, none)
    | some d => (dicts.set i (d.remove ops key).1, (d.remove ops key).2)
  | .clone i =>
    match dicts[i]? with
    | none => (dicts, none)
    | some d => (dicts ++ [d], none)

def Maps.run (ops : KeyOps K) (dicts : List (Dict K V)) : List (Op K V) → List (Dict K V) × List (Option V)
  | [] => (dicts, [])
  | op :: rest =>
    let next := Maps.step ops dicts op
    ((Maps.run ops next.1 rest).1, next.2 :: (Maps.run ops next.1 rest).2)

/-- The values hold the maps, and the heap counts their references. -/
structure World.Holds (ops : KeyOps K) (w : World K V) (dicts : List (Dict K V)) : Prop where
  counted : w.heap.Counted (w.maps.flatMap SegMap.buckets)
  length_eq : w.maps.length = dicts.length
  maps : ∀ {i : Nat} {m : SegMap} {d : Dict K V}, w.maps[i]? = some m → dicts[i]? = some d →
    Segmented.Holds ops m (w.heap.values m.buckets) d

variable {i : Nat}

theorem perm_refs {maps : List SegMap} (hi : i < maps.length) (m : SegMap) :
    ((maps.set i m).flatMap SegMap.buckets).Perm (m.buckets ++ (maps.eraseIdx i).flatMap SegMap.buckets) := by
  have hperm : (maps.set i m).Perm (m :: maps.eraseIdx i) := by
    rw [set_eq_take_cons_drop _ hi, eraseIdx_eq_take_drop_succ]
    exact perm_middle
  exact hperm.flatMap_right _

theorem World.Holds.exists_dict (hw : w.Holds ops dicts) {m : SegMap} (hm : w.maps[i]? = some m) :
    ∃ d, dicts[i]? = some d ∧ w.heap.Counted (m.buckets ++ (w.maps.eraseIdx i).flatMap SegMap.buckets) := by
  obtain ⟨hi, rfl⟩ := List.getElem?_eq_some_iff.mp hm
  have hperm := perm_refs hi w.maps[i]
  rw [set_getElem_self] at hperm
  exact ⟨_, getElem?_eq_getElem (hw.length_eq ▸ hi), hw.counted.perm hperm⟩

theorem World.Holds.getElem?_eq_none (hw : w.Holds ops dicts) (hm : w.maps[i]? = none) : dicts[i]? = none :=
  List.getElem?_eq_none (hw.length_eq ▸ List.getElem?_eq_none_iff.mp hm)

theorem World.values_other {j : Nat} {refs : List Nat}
    (howner : Heap.Owner w.heap h' refs ((w.maps.eraseIdx i).flatMap SegMap.buckets) vals) (hj : j ≠ i) {x : SegMap}
    (hx : w.maps[j]? = some x) : h'.values x.buckets = w.heap.values x.buckets :=
  Heap.values_congr fun a ha => howner.frame a (mem_flatMap.mpr ⟨x, mem_eraseIdx_iff_getElem?.mpr ⟨j, hj, hx⟩, ha⟩)

theorem World.Holds.set (hw : w.Holds ops dicts) {m : SegMap} {d' : Dict K V}
    (hm : w.maps[i]? = some m) (hcall : Called ops w.heap ((w.maps.eraseIdx i).flatMap SegMap.buckets) d' h' m') :
    World.Holds ops ⟨h', w.maps.set i m'⟩ (dicts.set i d') := by
  obtain ⟨hi, -⟩ := List.getElem?_eq_some_iff.mp hm
  obtain ⟨vals, howner⟩ := hcall.owner
  refine ⟨howner.counted.perm (perm_refs hi m').symm, by simp [hw.length_eq], fun {j x d} hx hd => ?_⟩
  by_cases hj : j = i
  · subst hj
    rw [getElem?_set_self hi, some_inj] at hx
    rw [getElem?_set_self (hw.length_eq ▸ hi), some_inj] at hd
    exact hx ▸ hd ▸ hcall.holds
  · rw [getElem?_set_ne (Ne.symm hj)] at hx hd
    show Segmented.Holds ops x (h'.values x.buckets) d
    rw [World.values_other howner hj hx]
    exact hw.maps hx hd

theorem World.Holds.clone (hw : w.Holds ops dicts) {m : SegMap} {d : Dict K V} (hm : w.maps[i]? = some m)
    (hd : dicts[i]? = some d) : World.Holds ops ⟨w.heap.retain m.buckets, w.maps ++ [m]⟩ (dicts ++ [d]) := by
  obtain ⟨hi, rfl⟩ := List.getElem?_eq_some_iff.mp hm
  have hperm := perm_refs hi w.maps[i]
  rw [set_getElem_self] at hperm
  have hcount := (hw.counted.perm hperm).retain
  have hrefs : (w.maps[i].buckets ++ (w.maps[i].buckets ++ (w.maps.eraseIdx i).flatMap SegMap.buckets)).Perm
      ((w.maps ++ [w.maps[i]]).flatMap SegMap.buckets) := by
    rw [flatMap_append, flatMap_singleton]
    exact (hperm.symm.append_left _).trans perm_append_comm
  refine ⟨hcount.perm hrefs, by simp [hw.length_eq], fun {j x d'} hx hd' => ?_⟩
  · show Segmented.Holds ops x (w.heap.values x.buckets) d'
    rcases Nat.lt_or_ge j w.maps.length with hlt | hge
    · rw [getElem?_append_left hlt] at hx
      rw [getElem?_append_left (hw.length_eq ▸ hlt)] at hd'
      exact hw.maps hx hd'
    · have hj : j = w.maps.length := by
        have hbound := (List.getElem?_eq_some_iff.mp hx).1
        rw [length_append, length_singleton] at hbound
        omega
      subst hj
      rw [getElem?_append_right le_rfl, Nat.sub_self] at hx
      rw [hw.length_eq, getElem?_append_right le_rfl, Nat.sub_self] at hd'
      obtain rfl := some_inj.mp hx
      obtain rfl := some_inj.mp hd'
      exact hw.maps hm hd

theorem World.holds_new : (World.new : World K V).Holds ops [⟨[], false⟩] := by
  have hblank : Heap.Counted (⟨fun _ => ⟨0, Table.new⟩, fun _ => 0, 0⟩ : Heap (Bucket K V)) [] :=
    ⟨fun _ => rfl, fun _ ha => nomatch ha⟩
  have hplain : Plain ops (Table.new : Table K V) [] := plain_of_refines (Table.refines_withCapacity ops 0) rfl
  have hentries : (Table.new : Table K V).entries = [] := perm_nil.mp hplain.perm
  refine ⟨hblank.alloc _, rfl, fun {i m d} hm hd => ?_⟩
  cases i with
  | succ i => cases hm
  | zero =>
    obtain rfl := some_inj.mp hm
    obtain rfl := some_inj.mp hd
    refine ⟨Directory.single, Nat.zero_le _, fun b hb => ?_, fun {bi b} hb e he => ?_, ?_, rfl, rfl, List.Pairwise.nil⟩
    · rw [mem_singleton.mp hb]
      exact ⟨hplain.wf, hplain.aux, Nat.zero_le _⟩
    · rw [mem_singleton.mp (mem_of_getElem? hb)] at he
      have hnil : e ∈ (Table.new : Table K V).entries := he
      rw [hentries] at hnil
      cases hnil
    · show List.Perm [] ((Table.new : Table K V).entries ++ [])
      rw [hentries]
      exact List.Perm.nil

def World.Spreads (ops : KeyOps K) (w : World K V) : Op K V → Prop
  | .insert i key value => ∀ m, w.maps[i]? = some m → SpreadWith ops w.heap m key value
  | .remove .. | .clone _ => True

def World.Small (w : World K V) : Prop := ∀ m ∈ w.maps, AllSmall w.heap m

theorem World.Small.set (hsmall : w.Small) {d' : Dict K V}
    (hcall : Called ops w.heap ((w.maps.eraseIdx i).flatMap SegMap.buckets) d' h' m') (hm' : AllSmall h' m') :
    World.Small ⟨h', w.maps.set i m'⟩ := by
  intro x hx
  obtain ⟨vals, howner⟩ := hcall.owner
  obtain ⟨j, hj⟩ := mem_iff_getElem?.mp hx
  by_cases hji : j = i
  · have hlt : j < (w.maps.set i m').length := (List.getElem?_eq_some_iff.mp hj).1
    rw [length_set, hji] at hlt
    rw [hji, getElem?_set_self hlt, some_inj] at hj
    exact hj ▸ hm'
  · rw [getElem?_set_ne (Ne.symm hji)] at hj
    show ∀ b ∈ h'.values x.buckets, b.Small
    rw [World.values_other howner hji hj]
    exact hsmall x (mem_of_getElem? hj)

theorem World.step_spec (hw : w.Holds ops dicts) (op : Op K V) :
    ∃ w', w.step ops op = some (w', (Maps.step ops dicts op).2) ∧ w'.Holds ops (Maps.step ops dicts op).1 ∧
      (w.Spreads ops op → w.Small → w'.Small) := by
  unfold World.step Maps.step
  cases op with
  | insert i key value =>
    dsimp only
    cases hm : w.maps[i]? with
    | none =>
      rw [hw.getElem?_eq_none hm]
      exact ⟨w, rfl, hw, fun _ => id⟩
    | some m =>
      obtain ⟨d, hd, hc⟩ := hw.exists_dict hm
      obtain ⟨h', m', hcall, hcalled, hkeep⟩ := insert_spec hc (hw.maps hm hd) key value
      rw [hd]
      dsimp only
      rw [hcall]
      exact ⟨_, rfl, hw.set hm hcalled, fun hspread hsmall => hsmall.set hcalled (hkeep (hspread m hm) (hsmall m (mem_of_getElem? hm)))⟩
  | remove i key =>
    dsimp only
    cases hm : w.maps[i]? with
    | none =>
      rw [hw.getElem?_eq_none hm]
      exact ⟨w, rfl, hw, fun _ => id⟩
    | some m =>
      obtain ⟨d, hd, hc⟩ := hw.exists_dict hm
      obtain ⟨h', m', hcall, hcalled, hkeep⟩ := remove_spec hc (hw.maps hm hd) key
      rw [hd]
      dsimp only
      rw [hcall]
      exact ⟨_, rfl, hw.set hm hcalled, fun _ hsmall => hsmall.set hcalled (hkeep (hsmall m (mem_of_getElem? hm)))⟩
  | clone i =>
    dsimp only
    cases hm : w.maps[i]? with
    | none =>
      rw [hw.getElem?_eq_none hm]
      exact ⟨w, rfl, hw, fun _ => id⟩
    | some m =>
      obtain ⟨d, hd, -⟩ := hw.exists_dict hm
      rw [hd]
      refine ⟨_, rfl, hw.clone hm hd, fun _ hsmall x hx => ?_⟩
      rcases mem_append.mp hx with hx | hx
      · exact hsmall x hx
      · obtain rfl := mem_singleton.mp hx
        exact hsmall _ (mem_of_getElem? hm)

/-- Every insert into a full bucket finds it spread. -/
def World.SpreadsRun (ops : KeyOps K) : World K V → List (Op K V) → Prop
  | _, [] => True
  | w, op :: rest => w.Spreads ops op ∧ ∀ w' reply, w.step ops op = some (w', reply) → w'.SpreadsRun ops rest

theorem World.run_spec (hw : w.Holds ops dicts) (history : List (Op K V)) :
    ∃ w', w.run ops history = some (w', (Maps.run ops dicts history).2) ∧
      w'.Holds ops (Maps.run ops dicts history).1 ∧ (w.SpreadsRun ops history → w.Small → w'.Small) := by
  induction history generalizing w dicts with
  | nil => exact ⟨w, rfl, hw, fun _ => id⟩
  | cons op rest ih =>
    obtain ⟨w1, hstep, hw1, hsmall1⟩ := World.step_spec hw op
    obtain ⟨w2, hrun, hw2, hsmall2⟩ := ih hw1
    refine ⟨w2, ?_, hw2, fun hspreads hsmall => hsmall2 (hspreads.2 _ _ hstep) (hsmall1 hspreads.1 hsmall)⟩
    unfold World.run
    rw [hstep, bind_eq_bind, bind_some]
    dsimp only
    rw [hrun]
    rfl

/-- **Every history** of inserts, removes and clones, for every hash function: each value answers as its own finite
map, its buckets hold the keys with their prefixes, and the directory names a bucket at exactly the slots with its
prefix. -/
theorem clones_refine_finite_maps (ops : KeyOps K) (history : List (Op K V)) :
    ∃ w, World.new.run ops history = some (w, (Maps.run ops [⟨[], false⟩] history).2) ∧
      w.maps.length = (Maps.run ops [⟨[], false⟩] history).1.length ∧
      ∀ (i : Nat) (m : SegMap) (d : Dict K V), w.maps[i]? = some m → (Maps.run ops [⟨[], false⟩] history).1[i]? = some d →
        (∀ key, get ops w.heap m key = some (d.get ops key)) ∧ m.len = d.entries.length ∧
        (iter w.heap m).Perm (d.entries.map fun e => (e.1, e.2.1)) ∧ m.dirs.length = 2 ^ m.globalBits ∧
        ∀ bi b, (w.heap.values m.buckets)[bi]? = some b → ∃ p, p < 2 ^ b.localBits ∧
          (∀ kv ∈ b.map.iter, (ops.hash kv.1).toNat / 2 ^ (64 - b.localBits) = p) ∧
          ∀ s, s < 2 ^ m.globalBits → (m.dirs[s]? = some bi ↔ s / 2 ^ (m.globalBits - b.localBits) = p) := by
  have hnew : (World.new : World K V).Holds ops [⟨[], false⟩] := World.holds_new
  obtain ⟨w, hrun, hw, -⟩ := World.run_spec hnew history
  refine ⟨w, hrun, hw.length_eq, fun i m d hm hd => ?_⟩
  have hholds := hw.maps hm hd
  refine ⟨get_spec hholds, hholds.len_eq, iter_spec hholds, hholds.dir.length_eq, fun bi b hb => ?_⟩
  have hsound := hholds.sound b (mem_of_getElem? hb)
  obtain ⟨hle, p, hp, hcover⟩ := hholds.dir.covers (depths_getElem? hb)
  refine ⟨p, hp, fun kv hkv => ?_, hcover⟩
  have hmem : zeroWord kv ∈ b.map.entries := hsound.entries_perm.mem_iff.mpr (List.mem_map_of_mem hkv)
  have hroute := hholds.routed hb _ hmem
  rw [← route_div hholds.bits_le hle]
  exact (hcover _ (route_lt hholds.bits_le _)).mp hroute

end World

end Kevy.Segmented
