import Kevy.Window.Reads

/-!
# Histories of a windowed index

Along a history the entries of the tree and the live cold entries are together the rows of the shard, as long as no cold
row is written again with the value it has; and while no slide seals a value below its boundary, the segments ascend.
-/

namespace Kevy.Window

open Kevy.Lib Kevy.Resp Kevy.Index List
open Kevy.Seg (Rec between)

variable {spec : WindowSpec} {shape : WindowShape} {arity : Nat}

/-! ## The filter -/

variable {batch : List Entry}

namespace ColdBloom

variable {f : ColdBloom} {item other : Bytes}

theorem probes_insert (f : ColdBloom) (item other : Bytes) : (f.insert item).probes other = f.probes other := rfl

theorem contains_insert_self (f : ColdBloom) (item : Bytes) : (f.insert item).contains item = true := by
  rw [contains, probes_insert, List.all_eq_true]
  intro b hb
  simp [insert, hb]

theorem contains_insert (h : f.contains item = true) (other : Bytes) : (f.insert other).contains item = true := by
  rw [contains, List.all_eq_true] at h
  rw [contains, probes_insert, List.all_eq_true]
  intro b hb
  have := h b hb
  simp_all [insert]

theorem contains_foldl (batch : List Entry) (h : f.contains item = true) :
    (batch.foldl (fun f e => f.insert e.key) f).contains item = true := by
  induction batch generalizing f with
  | nil => exact h
  | cons e batch ih => exact ih (contains_insert h e.key)

theorem contains_foldl_mem {e : Entry} (he : e ∈ batch) (f : ColdBloom) :
    (batch.foldl (fun f e => f.insert e.key) f).contains e.key = true := by
  induction batch generalizing f with
  | nil => cases he
  | cons x batch ih =>
    rcases mem_cons.mp he with rfl | he
    · exact contains_foldl batch (contains_insert_self f e.key)
    · exact ih he _

end ColdBloom

/-! ## Marks -/

namespace WindowRt

variable {win : WindowRt} {key : Bytes}

/-- Marks reach no further than the next segment, segments come below it, and every sealed row is in the filter. -/
structure Sound (shape : WindowShape) (win : WindowRt) : Prop where
  records : win.Sealed shape
  seqs : ∀ s ∈ win.cold, s.1 < win.seq
  reach : ∀ row n, win.tombs.get row = some n → n ≤ win.seq
  known : ∀ s ∈ win.cold, ∀ r ∈ s.2, ∀ h, decodeSegKey shape.ty r.1 = some h → win.bloom.contains (ofLex h).2 = true

theorem shadowed_onRowWrite (hbloom : win.bloom.contains key = true) (row : Bytes) {seq : Nat} (hseq : seq < win.seq) :
    (win.onRowWrite key).shadowed row seq = (decide (row = key) || win.shadowed row seq) := by
  rw [onRowWrite, if_pos hbloom, shadowed, shadowed]
  by_cases hrow : row = key
  · subst hrow
    simp [hseq]
  · simp [hrow]

theorem cold_onRowWrite (win : WindowRt) (key : Bytes) : (win.onRowWrite key).cold = win.cold := by
  rw [onRowWrite]
  split <;> rfl

theorem seq_onRowWrite (win : WindowRt) (key : Bytes) : (win.onRowWrite key).seq = win.seq := by
  rw [onRowWrite]
  split <;> rfl

theorem bloom_onRowWrite (win : WindowRt) (key : Bytes) : (win.onRowWrite key).bloom = win.bloom := by
  rw [onRowWrite]
  split <;> rfl

theorem w_onRowWrite (win : WindowRt) (key : Bytes) : (win.onRowWrite key).w = win.w := by
  rw [onRowWrite]
  split <;> rfl

theorem Sound.onRowWrite (h : win.Sound shape) (key : Bytes) : (win.onRowWrite key).Sound shape where
  records := by
    rw [Sealed, cold_onRowWrite]
    exact h.records
  seqs := by
    rw [cold_onRowWrite, seq_onRowWrite]
    exact h.seqs
  known := by
    rw [cold_onRowWrite, bloom_onRowWrite]
    exact h.known
  reach := by
    rw [seq_onRowWrite, WindowRt.onRowWrite]
    split
    · intro row n hn
      rw [KeyedList.get_insert] at hn
      split at hn
      · exact (Option.some.inj hn).ge
      · exact h.reach row n hn
    · exact h.reach

theorem mem_liveIn {s : Nat × List Rec} {h : Hit} (hh : h ∈ win.liveIn shape s) :
    ∃ r ∈ s.2, decodeSegKey shape.ty r.1 = some h := mem_filterMap.mp (mem_filter.mp hh).1

theorem live_onRowWrite (hwin : win.Sound shape) (key : Bytes) :
    (win.onRowWrite key).live shape = (win.live shape).filter fun h => !decide ((ofLex h).2 = key) := by
  rw [live, live, cold_onRowWrite, filter_flatMap]
  refine flatMap_congr fun s hs => ?_
  cases hbloom : win.bloom.contains key with
  | true =>
    rw [liveIn, liveIn, List.filter_filter]
    refine filter_congr fun h _ => ?_
    rw [shadowed_onRowWrite hbloom _ (hwin.seqs s hs), Bool.not_or]
  | false =>
    have hsame : win.onRowWrite key = win := by simp [onRowWrite, hbloom]
    rw [hsame]
    refine (filter_eq_self.mpr fun h hh => ?_).symm
    obtain ⟨r, hr, hdec⟩ := mem_liveIn hh
    have hknown := hwin.known s hs r hr h hdec
    have hne : (ofLex h).2 ≠ key := fun heq => by
      rw [heq, hbloom] at hknown
      cases hknown
    simp [hne]

theorem liveIn_batch (win : WindowRt) {seq : Nat} (htyped : ∀ e ∈ batch, shape.admits e.value = true)
    (hfresh : ∀ row, win.shadowed row seq = false) :
    win.liveIn shape (seq, batch.map recordOf) = batch.map Entry.place := by
  have hdecode : (batch.map recordOf).filterMap (fun r => decodeSegKey shape.ty r.1) = batch.map Entry.place := by
    rw [filterMap_map, ← filterMap_eq_map]
    exact filterMap_congr fun e he => decodeSegKey_segKey (htyped e he) e.key
  rw [liveIn, hdecode]
  exact filter_eq_self.mpr fun h _ => by rw [hfresh]; rfl

theorem live_sealBatch (hwin : win.Sound shape) (target : Int) (htyped : ∀ e ∈ batch, shape.admits e.value = true) :
    (win.sealBatch target batch).live shape = win.live shape ++ batch.map Entry.place := by
  have hfresh (row : Bytes) : win.shadowed row win.seq = false := by
    rw [shadowed]
    cases hget : win.tombs.get row with
    | none => rfl
    | some n => simpa using hwin.reach row n hget
  rw [live, sealBatch, flatMap_append, flatMap_singleton]
  congr 1
  exact liveIn_batch (sealBatch win target batch) htyped hfresh

theorem Sound.sealBatch (h : win.Sound shape) (target : Int)
    (htyped : ∀ e ∈ batch, shape.admits e.value = true) : (win.sealBatch target batch).Sound shape where
  records := by
    intro s hs r hr
    rcases mem_append.mp hs with hs | hs
    · exact h.records s hs r hr
    · obtain rfl := mem_singleton.mp hs
      obtain ⟨e, he, rfl⟩ := List.mem_map.mp hr
      exact ⟨e, htyped e he, rfl⟩
  seqs := by
    intro s hs
    rcases mem_append.mp hs with hs | hs
    · exact Nat.lt_succ_of_lt (h.seqs s hs)
    · obtain rfl := mem_singleton.mp hs
      exact Nat.lt_succ_self _
  reach := fun row n hn => Nat.le_succ_of_le (h.reach row n hn)
  known := by
    intro s hs r hr hit hdec
    rcases mem_append.mp hs with hs | hs
    · exact ColdBloom.contains_foldl batch (h.known s hs r hr hit hdec)
    · obtain rfl := mem_singleton.mp hs
      obtain ⟨e, he, rfl⟩ := List.mem_map.mp hr
      obtain rfl := Option.some.inj ((decodeSegKey_segKey (htyped e he) e.key).symm.trans hdec)
      exact ColdBloom.contains_foldl_mem he win.bloom

end WindowRt

/-! ## The tree and the rows -/

def notRow (key : Bytes) (h : Hit) : Bool := !decide ((ofLex h).2 = key)

def rowHit (p : Bytes × IndexValue) : Hit := toLex (p.2, p.1)

def entryOf (key : Bytes) (v : Option IndexValue) : List Hit := (v.map fun v => toLex (v, key)).toList

theorem filter_notRow {places : List Hit} {key : Bytes} {o : IndexValue}
    (hold : ∀ h ∈ places, (ofLex h).2 = key → (ofLex h).1 = o) :
    (places.filter fun h => !decide (h = toLex (o, key))) = places.filter (notRow key) := by
  refine filter_congr fun h hh => ?_
  rw [notRow]
  congr 1
  refine decide_eq_decide.mpr ⟨fun heq => by rw [heq]; rfl, fun hkey => ?_⟩
  exact ofLex_inj.mp (Prod.ext (hold h hh hkey) hkey)

theorem places_applyWithValues {seg : Segment} {key : Bytes} {old : Option IndexValue} (new : Option IndexValue)
    (hold : ∀ h ∈ seg.places, (ofLex h).2 = key → old = some (ofLex h).1)
    (hkept : arity = 0 → ∀ v, old = some v → new = some v → toLex (v, key) ∈ seg.places) (columns : List (Option Bytes)) :
    (seg.applyWithValues arity key old new columns).places.Perm (entryOf key new ++ seg.places.filter (notRow key)) := by
  have hother (o : IndexValue) (ho : old = some o) : ∀ h ∈ seg.places, (ofLex h).2 = key → (ofLex h).1 = o :=
    fun h hh hkey => (Option.some.inj (ho.symm.trans (hold h hh hkey))).symm
  have hnone (ho : old = none) : seg.places.filter (notRow key) = seg.places := filter_eq_self.mpr fun h hh => by
    have hkey : (ofLex h).2 ≠ key := fun hkey => by
      have := hold h hh hkey
      rw [ho] at this
      cases this
    simp [notRow, hkey]
  have hagain (v : IndexValue) (l : List Hit) : (l.filter (notRow key)).filter (fun h => !decide (h = toLex (v, key))) =
      l.filter (notRow key) := filter_eq_self.mpr fun h hh => by
    have hkey : (ofLex h).2 ≠ key := by simpa [notRow] using (mem_filter.mp hh).2
    have hne : h ≠ toLex (v, key) := fun heq => hkey (by rw [heq]; rfl)
    simp [hne]
  cases new with
  | none =>
    cases hcase : old with
    | none => rw [hnone hcase]; exact Perm.refl _
    | some o =>
      change (seg.remove key o).places.Perm _
      rw [Segment.places_remove, filter_notRow (hother o hcase)]
      exact Perm.refl _
  | some v =>
    simp only [Segment.applyWithValues]
    by_cases hsame : old = some v ∧ arity = 0
    · -- left alone: the entry is in the tree already
      rw [if_pos hsame]
      have hmem := hkept hsame.2 v hsame.1 rfl
      have hnodup : seg.places.Nodup := seg.pairwise_places.imp fun h => h.ne
      rw [← filter_notRow (hother v hsame.1)]
      have herase := perm_cons_erase hmem
      rw [hnodup.erase_eq_filter] at herase
      refine herase.trans (List.Perm.cons _ (Perm.of_eq (filter_congr fun h _ => ?_)))
      exact Bool.eq_iff_iff.mpr (by simp)
    · rw [if_neg hsame]
      refine (Segment.places_insert _).trans (List.Perm.cons _ (Perm.of_eq ?_))
      change List.filter (fun h => !decide (h = toLex (v, key))) _ = seg.places.filter (notRow key)
      cases hcase : old with
      | none => exact (congrArg _ (hnone hcase).symm).trans (hagain v seg.places)
      | some o =>
        by_cases hov : o = v
        · subst hov
          simp only [ne_eq, not_true_eq_false, if_false]
          exact filter_notRow (hother o hcase)
        · simp only [ne_eq, hov, not_false_eq_true, if_true]
          rw [Segment.places_remove, filter_notRow (hother o hcase), hagain]

theorem places_applyScalarRow {seg : Segment} {key : Bytes} {old : Option IndexValue} (row : Peek shape)
    (hold : ∀ h ∈ seg.places, (ofLex h).2 = key → old = some (ofLex h).1)
    (hkept : arity = 0 → ∀ v, old = some v → row.value = some v → toLex (v, key) ∈ seg.places) :
    (applyScalarRow arity seg key old row).places.Perm (entryOf key row.value ++ seg.places.filter (notRow key)) := by
  cases row with
  | missing => exact places_applyWithValues none hold hkept []
  | row primary columns =>
    cases primary with
    | none => exact places_applyWithValues none hold hkept []
    | some v => exact places_applyWithValues (some v.1) hold hkept _

theorem items_setRow (rows : KeyedList Bytes IndexValue) (key : Bytes) (v : Option IndexValue) :
    ((Shard.setRow rows key v).items.map rowHit).Perm (entryOf key v ++ (rows.items.map rowHit).filter (notRow key)) := by
  have hfilter : (rows.items.map rowHit).filter (notRow key) = (rows.erase key).items.map rowHit := by
    rw [List.filter_map]
    rfl
  rw [hfilter]
  cases v with
  | none => exact Perm.refl _
  | some v =>
    have hperm : (rows.insert key v).items.Perm ((key, v) :: (rows.erase key).items) := by
      have hnew : (key, v) ∉ (rows.erase key).items := by
        rw [KeyedList.mem_items_iff, KeyedList.get_erase]
        simp
      refine (perm_ext_iff_of_nodup (rows.insert key v).nodup.of_map
        (nodup_cons.mpr ⟨hnew, (rows.erase key).nodup.of_map⟩)).mpr fun p => ?_
      obtain ⟨k, u⟩ := p
      rw [KeyedList.mem_items_iff, KeyedList.get_insert, mem_cons, KeyedList.mem_items_iff, KeyedList.get_erase]
      by_cases hk : k = key
      · simp [hk, eq_comm]
      · simp [hk]
    exact hperm.map rowHit

end Kevy.Window
