import Kevy.Window.Cold

/-!
# Reading the cold side

The keys of sealed entries sort as the entries do and decode to them, so that a read of the cold side is a read of the
live cold entries, in the order they were sealed.
-/

namespace Kevy.Window

open Kevy.Lib Kevy.Resp Kevy.Index List
open Kevy.Seg (Rec between)

variable {shape : WindowShape} {v v' min max : IndexValue} {row row' : Bytes}

/-! ## Keys -/

theorem length_beBytes (n : Nat) : (beBytes n).length = 8 := by
  rw [beBytes, length_reverse, length_leBytes]

theorem beBytes_lt {m n : Nat} (hn : n < 2 ^ 64) (h : m < n) : beBytes m < beBytes n :=
  reverse_leBytes_lt h (by simpa using hn)

theorem ofBe_beBytes {n : Nat} (hn : n < 2 ^ 64) : ofBe (beBytes n) = some n := by
  rw [ofBe, if_pos (length_beBytes n), beBytes, reverse_reverse, ofLe_leBytes_of_lt (by simpa using hn)]

section Admitted

variable (hv : shape.admits v = true)
include hv

theorem orderBytes_lt (hv' : shape.admits v' = true) (h : v < v') : orderBytes v < orderBytes v' := by
  cases shape with
  | plainI64 =>
    cases v <;> cases v' <;> simp only [WindowShape.admits, Bool.and_eq_true, decide_eq_true_eq, Bool.false_eq_true] at hv hv'
    rename_i a b
    have hab := IndexValue.i64_lt_i64.mp h
    exact beBytes_lt (by omega) (by omega)
  | compositeLed =>
    cases v <;> cases v' <;> simp only [WindowShape.admits, Bool.false_eq_true] at hv hv'
    exact IndexValue.str_lt_str.mp h

theorem orderBytes_lt_iff (hv' : shape.admits v' = true) : orderBytes v < orderBytes v' ↔ v < v' := by
  refine ⟨fun h => ?_, orderBytes_lt hv hv'⟩
  rcases lt_trichotomy v v' with hlt | rfl | hgt
  · exact hlt
  · exact absurd h (lt_irrefl _)
  · exact absurd (orderBytes_lt hv' hv hgt) h.asymm

theorem orderBytes_le_iff (hv' : shape.admits v' = true) : orderBytes v ≤ orderBytes v' ↔ v ≤ v' := by
  rw [← not_lt, ← not_lt, orderBytes_lt_iff hv' hv]

theorem valueOf_orderBytes : valueOf shape.ty (orderBytes v) = some v := by
  cases shape with
  | plainI64 =>
    cases v <;> simp only [WindowShape.admits, Bool.and_eq_true, decide_eq_true_eq, Bool.false_eq_true] at hv
    rename_i a
    have hn : (a + 2 ^ 63).toNat < 2 ^ 64 := by omega
    have hback : (((a + 2 ^ 63).toNat : Nat) : Int) - 2 ^ 63 = a := by omega
    rw [WindowShape.ty, valueOf, orderBytes, ofBe_beBytes hn, Option.map_some, hback]
  | compositeLed =>
    cases v <;> simp only [WindowShape.admits, Bool.false_eq_true] at hv
    rfl

theorem decodeSegKey_segKey (row : Bytes) : decodeSegKey shape.ty (segKey v row) = some (toLex (v, row)) := by
  have hrow := unframe_frame row []
  rw [append_nil] at hrow
  rw [decodeSegKey, segKey, unframe_frame, Option.bind_some, hrow, Option.bind_some]
  simp [valueOf_orderBytes hv]

theorem between_segKey (hmin : shape.admits min = true) (hmax : shape.admits max = true) (payload : Bytes) :
    between (segBounds min max).1 (segBounds min max).2 (segKey v row, payload) = (decide (min ≤ v) && decide (v ≤ max)) := by
  simp only [between, segBounds, segKey, frame_le_append, append_le_frameEnd, orderBytes_le_iff hmin hv,
    orderBytes_le_iff hv hmax]

end Admitted

/-! ## Live cold entries -/

def covers (min max : IndexValue) (h : Hit) : Bool := decide (min ≤ (ofLex h).1) && decide ((ofLex h).1 ≤ max)

theorem covers_iff {h : Hit} : covers min max h = true ↔ min ≤ (ofLex h).1 ∧ (ofLex h).1 ≤ max := by
  simp [covers]

def resumed (cursor : Option Hit) (h : Hit) : Bool := cursor.all fun c => decide (c < h)

def cut (limit : Option Nat) (l : List Hit) : List Hit := limit.elim l fun n => l.take n

def fills (limit : Option Nat) (l : List Hit) : Bool := limit.any fun n => decide (n ≤ l.length)

variable {l : List Hit}

theorem cut_of_not_fills {limit : Option Nat} (h : fills limit l = false) : cut limit l = l := by
  cases limit with
  | none => rfl
  | some n => exact take_of_length_le (Nat.le_of_lt (by simpa [fills] using h))

theorem cut_append {limit : Option Nat} (h : fills limit l = true) (l' : List Hit) :
    cut limit (l ++ l') = cut limit l := by
  cases limit with
  | none => cases h
  | some n => exact take_append_of_le_length (by simpa [fills] using h)

theorem cut_snoc {limit : Option Nat} (hout : fills limit l = false) {h : Hit}
    (hfull : fills limit (l ++ [h]) = true) : cut limit (l ++ [h]) = l ++ [h] := by
  cases limit with
  | none => cases hfull
  | some n =>
    refine take_of_length_le ?_
    have : l.length < n := by simpa [fills] using hout
    rw [length_append, length_singleton]
    exact this

theorem not_le_of_all {cursor : Option Hit} {h : Hit} : (cursor.any fun c => decide (h ≤ c)) = !resumed cursor h := by
  cases cursor with
  | none => rfl
  | some c => simp [resumed, ← not_lt]

namespace WindowRt

variable {win : WindowRt}

/-- The entries of one segment that no later write has made stale. -/
def liveIn (shape : WindowShape) (win : WindowRt) (s : Nat × List Rec) : List Hit :=
  (s.2.filterMap fun r => decodeSegKey shape.ty r.1).filter fun h => !win.shadowed (ofLex h).2 s.1

/-- The live cold entries, in the order they were sealed. -/
def live (shape : WindowShape) (win : WindowRt) : List Hit := win.cold.flatMap (win.liveIn shape)

def Sealed (shape : WindowShape) (win : WindowRt) : Prop :=
  ∀ s ∈ win.cold, ∀ r ∈ s.2, ∃ e : Entry, shape.admits e.value = true ∧ r = recordOf e

theorem fills_append {limit : Option Nat} (h : fills limit l = true) (l' : List Hit) :
    fills limit (l ++ l') = true := by
  cases limit with
  | none => cases h
  | some n =>
    have : n ≤ l.length := by simpa [fills] using h
    simpa [fills] using Nat.le_add_right_of_le this

section

variable (seq : Nat) (cursor : Option Hit) (limit : Option Nat) {r : Rec} {h : Hit} (recs : List Rec) (out : List Hit)

theorem hitRecords_skip (hskip : win.liveIn shape (seq, [r]) = []) :
    hitRecords shape win seq cursor limit (r :: recs) out = hitRecords shape win seq cursor limit recs out := by
  rw [hitRecords]
  cases hdec : decodeSegKey shape.ty r.1 with
  | none => rfl
  | some h => simp_all [liveIn]

theorem hitRecords_hit (hlive : win.liveIn shape (seq, [r]) = [h]) :
    hitRecords shape win seq cursor limit (r :: recs) out =
      if resumed cursor h = false then hitRecords shape win seq cursor limit recs out
      else if fills limit (out ++ [h]) then (out ++ [h], true)
      else hitRecords shape win seq cursor limit recs (out ++ [h]) := by
  rw [hitRecords]
  cases hdec : decodeSegKey shape.ty r.1 with
  | none => simp [liveIn, hdec] at hlive
  | some h' =>
    cases hshadow : win.shadowed (ofLex h').2 seq with
    | true => simp [liveIn, hdec, hshadow] at hlive
    | false =>
      obtain rfl : h' = h := by simpa [liveIn, hdec, hshadow] using hlive
      dsimp only
      rw [hshadow, if_neg Bool.false_ne_true, not_le_of_all]
      cases resumed cursor h' <;> rfl

end

theorem liveIn_cons (seq : Nat) (r : Rec) (recs : List Rec) :
    win.liveIn shape (seq, r :: recs) = win.liveIn shape (seq, [r]) ++ win.liveIn shape (seq, recs) := by
  rw [liveIn, liveIn, liveIn, ← filter_append, ← filterMap_append]
  rfl

theorem liveIn_singleton (seq : Nat) (r : Rec) :
    win.liveIn shape (seq, [r]) = [] ∨ ∃ h, win.liveIn shape (seq, [r]) = [h] := by
  rw [liveIn]
  cases hdec : decodeSegKey shape.ty r.1 with
  | none => simp [hdec]
  | some h => cases hshadow : win.shadowed (ofLex h).2 seq <;> simp [hdec, hshadow]

theorem hitRecords_eq (seq : Nat) (cursor : Option Hit) (limit : Option Nat) (recs : List Rec) (out : List Hit)
    (hout : fills limit out = false) : hitRecords shape win seq cursor limit recs out =
      (cut limit (out ++ (win.liveIn shape (seq, recs)).filter (resumed cursor)),
        fills limit (out ++ (win.liveIn shape (seq, recs)).filter (resumed cursor))) := by
  induction recs generalizing out with
  | nil => simp [hitRecords, liveIn, cut_of_not_fills hout, hout]
  | cons r recs ih =>
    rw [liveIn_cons]
    rcases liveIn_singleton seq r with hskip | ⟨h, hlive⟩
    · rw [hitRecords_skip _ _ _ _ _ hskip, hskip, nil_append, ih out hout]
    · rw [hitRecords_hit _ _ _ _ _ hlive, hlive, filter_append]
      cases hcur : resumed cursor h with
      | false => simp [hcur, ih out hout]
      | true =>
        have hone : [h].filter (resumed cursor) = [h] := by simp [hcur]
        rw [hone, ← append_assoc, if_neg (by simp)]
        cases hfull : fills limit (out ++ [h]) with
        | true => rw [if_pos rfl, cut_append hfull, cut_snoc hout hfull, fills_append hfull]
        | false => rw [if_neg (by simp), ih _ hfull]

theorem hitSegments_eq (lo hi : Bytes) (cursor : Option Hit) (limit : Option Nat) (cold : List (Nat × List Rec))
    (out : List Hit) (hout : fills limit out = false) : hitSegments shape win lo hi cursor limit cold out =
      cut limit (out ++ cold.flatMap fun s => (win.liveIn shape (s.1, s.2.filter (between lo hi))).filter (resumed cursor)) := by
  induction cold generalizing out with
  | nil => simp [hitSegments, cut_of_not_fills hout]
  | cons s cold ih =>
    rw [hitSegments, hitRecords_eq _ _ _ _ _ hout, flatMap_cons, ← append_assoc]
    cases hfull : fills limit (out ++ (win.liveIn shape (s.1, s.2.filter (between lo hi))).filter (resumed cursor)) with
    | true => exact (cut_append hfull _).symm
    | false =>
      rw [cut_of_not_fills hfull]
      exact ih _ hfull

theorem liveIn_between (hmin : shape.admits min = true) (hmax : shape.admits max = true) {s : Nat × List Rec}
    (hs : ∀ r ∈ s.2, ∃ e : Entry, shape.admits e.value = true ∧ r = recordOf e) :
    win.liveIn shape (s.1, s.2.filter (between (segBounds min max).1 (segBounds min max).2)) =
      (win.liveIn shape s).filter (covers min max) := by
  have hdecode : (s.2.filter (between (segBounds min max).1 (segBounds min max).2)).filterMap
      (fun r => decodeSegKey shape.ty r.1) = (s.2.filterMap fun r => decodeSegKey shape.ty r.1).filter (covers min max) := by
    rw [filter_filterMap, filterMap_filter]
    refine filterMap_congr fun r hr => ?_
    obtain ⟨e, he, rfl⟩ := hs r hr
    rw [recordOf, between_segKey he hmin hmax, decodeSegKey_segKey he]
    rfl
  rw [liveIn, liveIn, hdecode, List.filter_filter, List.filter_filter]
  exact filter_congr fun h _ => Bool.and_comm _ _

theorem coldHits_eq (hsealed : win.Sealed shape) (hmin : shape.admits min = true) (hmax : shape.admits max = true)
    (cursor : Option Hit) (limit : Option Nat) (hlimit : limit ≠ some 0) : win.coldHits shape min max cursor limit =
      cut limit (((win.live shape).filter (covers min max)).filter (resumed cursor)) := by
  have hnone : fills limit [] = false := by
    cases limit with
    | none => rfl
    | some n => simpa [fills, Nat.pos_iff_ne_zero] using hlimit
  rw [coldHits, hitSegments_eq _ _ _ _ _ _ hnone, nil_append, live, filter_flatMap, filter_flatMap]
  congr 1
  exact flatMap_congr fun s hs => by rw [liveIn_between hmin hmax (hsealed s hs)]

theorem coldCount_eq (hsealed : win.Sealed shape) (hmin : shape.admits min = true) (hmax : shape.admits max = true) :
    win.coldCount shape min max = ((win.live shape).filter (covers min max)).length := by
  rw [coldCount]
  split
  · -- nothing is hidden, and every record counts
    rename_i hempty
    have hno (row : Bytes) (seq : Nat) : win.shadowed row seq = false := by
      rw [shadowed, KeyedList.get, List.isEmpty_iff.mp hempty]
      rfl
    rw [live, filter_flatMap, length_flatMap]
    congr 1
    refine map_congr_left fun s hs => ?_
    have hall : ∀ h ∈ (s.2.filter (between (segBounds min max).1 (segBounds min max).2)).filterMap
        (fun r => decodeSegKey shape.ty r.1), (!win.shadowed (ofLex h).2 s.1) = true := fun h _ => by rw [hno]; rfl
    rw [← liveIn_between hmin hmax (hsealed s hs), liveIn, filter_eq_self.mpr hall, length_filterMap_eq_countP]
    symm
    refine countP_eq_length.mpr fun r hr => ?_
    obtain ⟨e, he, rfl⟩ := hsealed s hs r (mem_filter.mp hr).1
    rw [recordOf, decodeSegKey_segKey he]
    rfl
  · rw [coldHits_eq hsealed hmin hmax _ _ (by simp), cut, Option.elim_none]
    exact congrArg List.length (filter_eq_self.mpr fun _ _ => rfl)

end WindowRt

end Kevy.Window
