import Mathlib.Data.Nat.Find
import Kevy.Map.Walk

/-!
# What a cursor promises

A client calls with a cursor, the table changes, the client calls with the cursor it was given, and so on until it is
given zero. `scan_step` and the store's walk promise the same: no key that stays is missed, nothing comes twice while
nothing changes, and without growth the sweep ends. `scan_buckets` by itself does not.
-/

namespace Kevy.Map

open Kevy.Lib
open List hiding iter

variable {K V : Type} {ops : KeyOps K} {t t' : Table K V}

def Table.Present (ops : KeyOps K) (t : Table K V) (key : K) : Prop := ∃ p kv, t.Holds ops key p kv

def Table.Stays (ops : KeyOps K) (key : K) : Table K V → List (Op K V) → Prop
  | t, [] => t.Present ops key
  | t, op :: rest => t.Present ops key ∧ ∀ t' r, t.apply ops op = some (t', r) → t'.Stays ops key rest

variable {key : K}

theorem Table.Stays.present {history : List (Op K V)} (h : t.Stays ops key history) : t.Present ops key := by
  cases history with
  | nil => exact h
  | cons op rest => exact h.1

theorem Table.Refines.wf_run {m : Dict K V} (h : t.Refines ops m) {history : List (Op K V)} {rs : List (Reply K V)}
    (hrun : t.run ops history = some (t', rs)) : t'.WF ops := by
  obtain ⟨t1, rs', ht, hrefines, -⟩ := h.run history
  rw [hrun] at ht
  cases ht
  exact hrefines.wf

/-- The tables that the calls of a sweep meet, and what happens to the table between two calls. -/
structure Timeline (ops : KeyOps K) (V : Type) where
  table : Nat → Table K V
  gap : Nat → List (Op K V)
  start : ∃ capHint history rs, (Table.withCapacity capHint).run ops history = some (table 0, rs)
  later : ∀ i, ∃ rs, (table i).run ops (gap i) = some (table (i + 1), rs)
  /-- A capacity is a `usize`. -/
  small : ∀ i, (table i).cap < 2 ^ 64

variable {T : Timeline ops V}

/-- What a client of cursors relies on: `back i` says that the cursor of call `i` is zero, `seen i` what call `i`
visits. -/
structure ScanContract (T : Timeline ops V) (back : Nat → Prop) (seen : Nat → List (K × V)) : Prop where
  /-- A key that is stored from the first call to the last is visited. -/
  complete : ∀ n, back (n + 1) → ∀ key, (∀ i, i < n → (T.table i).Stays ops key (T.gap i)) →
    (T.table n).Present ops key → ∃ i, i ≤ n ∧ ∃ kv ∈ seen i, ops.eq kv.1 key = true
  /-- While the table does not change, the calls visit what an iteration does. -/
  once : (∀ i, T.table i = T.table 0) → ∀ n, back (n + 1) → (∀ i, 0 < i → i ≤ n → ¬ back i) →
    ((range (n + 1)).flatMap seen).Perm (T.table 0).iter
  /-- Without growth the sweep ends. -/
  ends : (∀ i, (T.table i).cap = (T.table 0).cap) → ∃ n, back (n + 1) ∧ ∀ i, 0 < i → i ≤ n → ¬ back i

theorem exists_first (back : Nat → Prop) (h : ∃ n, back (n + 1)) :
    ∃ n, back (n + 1) ∧ ∀ i, 0 < i → i ≤ n → ¬ back i := by
  classical
  refine ⟨Nat.find h, Nat.find_spec h, fun i hpos hi hback => ?_⟩
  have hmin := Nat.find_min h (m := i - 1) (by omega)
  rw [Nat.sub_add_cancel hpos] at hmin
  exact hmin hback

variable {n i : Nat}

namespace Timeline

theorem wf (T : Timeline ops V) (i : Nat) : (T.table i).WF ops := by
  induction i with
  | zero =>
    obtain ⟨capHint, history, rs, hrun⟩ := T.start
    exact (Table.refines_withCapacity ops capHint).wf_run hrun
  | succ i ih =>
    obtain ⟨rs, hrun⟩ := T.later i
    exact ih.refines_self.wf_run hrun

theorem present (T : Timeline ops V) (hstays : ∀ i, i < n → (T.table i).Stays ops key (T.gap i))
    (hlast : (T.table n).Present ops key) (hi : i ≤ n) : (T.table i).Present ops key := by
  rcases Nat.lt_or_eq_of_le hi with hlt | rfl
  · exact (hstays i hlt).present
  · exact hlast

end Timeline

variable {p : Nat} {kv : K × V}

namespace Table

/-! ## Entries between two calls -/

theorem Keeps.holds (hkeeps : Keeps ops t t') (hh : t.Holds ops key p kv)
    (hpresent : t'.Present ops key) : ∃ kv', t'.Holds ops key p kv' := by
  rcases hkeeps.stays p kv hh.inside hh.slot with ⟨v, hv⟩ | hlacks
  · exact ⟨(kv.1, v), hkeeps.cap_eq ▸ hh.inside, hv, hh.key_eq⟩
  · obtain ⟨q, kv', hq⟩ := hpresent
    have hfalse := hlacks q kv' hq.inside hq.slot
    rw [ops.trans hq.key_eq (ops.symm hh.key_eq)] at hfalse
    cases hfalse

theorem Stays.holds (history : List (Op K V)) : ∀ {t : Table K V}, t.WF ops → ∀ {p kv t' rs},
    t.run ops history = some (t', rs) → t.Stays ops key history → t'.Present ops key → t.Holds ops key p kv →
      t.cap < t'.cap ∨ t'.cap = t.cap ∧ ∃ kv', t'.Holds ops key p kv' := by
  induction history with
  | nil =>
    intro t _ p kv t' rs hrun _ _ hh
    cases hrun
    exact .inr ⟨rfl, kv, hh⟩
  | cons op rest ih =>
    intro t hwf p kv t' rs hrun hstays hpresent hh
    obtain ⟨⟨t1, r⟩, hop, hrest⟩ := Option.bind_eq_some_iff.mp hrun
    obtain ⟨⟨t2, rs'⟩, hrun', heq⟩ := Option.map_eq_some_iff.mp hrest
    cases heq
    have hstays' := hstays.2 t1 r hop
    obtain ⟨t3, r', hop', hrefines, -⟩ := hwf.refines_self.apply op
    rw [hop] at hop'
    cases hop'
    have hwf' := hrefines.wf
    -- whatever slot the key is in after the first operation, the rest does not make the table smaller
    obtain ⟨q, kv1, hq⟩ := hstays'.present
    rcases apply_cases hwf hop with hlt | hkeeps
    · rcases ih hwf' hrun' hstays' hpresent hq with hlt' | ⟨hcap, -⟩
      · exact .inl (hlt.trans hlt')
      · exact .inl (hcap ▸ hlt)
    · obtain ⟨kv', hh'⟩ := hkeeps.holds hh hstays'.present
      rcases ih hwf' hrun' hstays' hpresent hh' with hlt' | ⟨hcap, hh''⟩
      · exact .inl (hkeeps.cap_eq ▸ hlt')
      · exact .inr ⟨hcap.trans hkeeps.cap_eq, hh''⟩

end Table

/-! ## `scan_step` -/

/-- The cursor of each call of `scan_step`. -/
def scanCursor (T : Timeline ops V) : Nat → BitVec 64
  | 0 => 0
  | i + 1 => ((T.table i).scanStep ops (scanCursor T i)).1

/-- What each call of `scan_step` visits. -/
def scanSeen (T : Timeline ops V) (i : Nat) : List (K × V) := ((T.table i).scanStep ops (scanCursor T i)).2

open Table

theorem mem_iter (h : t.WF ops) (hh : t.Holds ops key p kv) : kv ∈ t.iter :=
  mem_filterMap.mpr ⟨p, mem_range.mpr hh.inside, (h.fullSlot_eq hh.inside).trans hh.slot⟩

theorem iter_of_cap_zero (h : t.cap = 0) : t.iter = [] := by
  unfold iter
  rw [h]
  rfl

theorem scan_complete (T : Timeline ops V) (hback : scanCursor T (n + 1) = 0)
    (hpresent : ∀ i, i ≤ n → (T.table i).Present ops key) :
    ∃ i, i ≤ n ∧ ∃ kv ∈ scanSeen T i, ops.eq kv.1 key = true := by
  have hpos : ∀ i, i ≤ n → 0 < (T.table i).cap := by
    intro i hi
    obtain ⟨p, kv, hh⟩ := hpresent i hi
    exact Nat.lt_of_le_of_lt (Nat.zero_le p) hh.inside
  have hgroups : ∀ i, ∃ b, i ≤ n → b ≤ 64 ∧ (T.table i).cap = groupWidth * 2 ^ b ∧
      (T.table i).groupMask.toNat = 2 ^ b - 1 := by
    intro i
    by_cases hi : i ≤ n
    · obtain ⟨b, hb⟩ := ((T.wf i).shaped_of_lt (hpos i hi)).groups (T.small i)
      exact ⟨b, fun _ => hb⟩
    · exact ⟨0, fun h => absurd h hi⟩
  choose b hb using hgroups
  obtain ⟨i, hi, hgroup⟩ := ReverseCursor.exists_visit (fun i hi => ⟨(hb i hi).1, (hb i hi).2.2⟩)
    (show scanCursor T 0 = 0 from rfl) (fun i hi => by rw [scanCursor, scanStep_of_pos (hpos i hi)]) hback
    (BitVec.ofNat 64 ((ops.hash key).toNat / groupWidth))
  obtain ⟨p, kv, hh⟩ := hpresent i hi
  have hs := (T.wf i).shaped_of_lt (hpos i hi)
  refine ⟨i, hi, kv, ?_, hh.key_eq⟩
  unfold scanSeen
  rw [scanStep_of_pos (hpos i hi), toNat_and_groupMask (hb i hi).2.2]
  refine (visitHomeGroup_perm (T.wf i) (hpos i hi) _).mem_iff.mpr (mem_filter.mpr ⟨mem_iter (T.wf i) hh, ?_⟩)
  rw [beq_iff_eq, home_congr hh.key_eq, home_group hs (hb i hi).2.1, hgroup]

theorem scan_const (T : Timeline ops V) (hcap : ∀ i, (T.table i).cap = (T.table 0).cap) (hpos : 0 < (T.table 0).cap) :
    ∃ b, b ≤ 64 ∧ (T.table 0).cap = groupWidth * 2 ^ b ∧ (T.table 0).groupMask.toNat = 2 ^ b - 1 ∧
      ∀ i, scanCursor T (i + 1) = ReverseCursor.advance (T.table 0).groupMask (scanCursor T i) := by
  obtain ⟨b, hb, hgroups, hmask⟩ := ((T.wf 0).shaped_of_lt hpos).groups (T.small 0)
  refine ⟨b, hb, hgroups, hmask, fun i => ?_⟩
  have hsame : (T.table i).groupMask = (T.table 0).groupMask := by
    unfold groupMask
    rw [hcap i]
  rw [scanCursor, scanStep_of_pos (by rw [hcap i]; exact hpos), hsame]

theorem scan_ends (T : Timeline ops V) (hcap : ∀ i, (T.table i).cap = (T.table 0).cap) :
    ∃ n, scanCursor T (n + 1) = 0 ∧ ∀ i, 0 < i → i ≤ n → ¬ scanCursor T i = 0 := by
  refine exists_first (fun i => scanCursor T i = 0) ?_
  rcases Nat.eq_zero_or_pos (T.table 0).cap with hzero | hpos
  · exact ⟨0, congrArg Prod.fst (if_pos hzero)⟩
  · obtain ⟨b, hb, -, hmask, hstep⟩ := scan_const T hcap hpos
    refine ⟨2 ^ b - 1, ?_⟩
    rw [Nat.sub_add_cancel (Nat.two_pow_pos b), ReverseCursor.eq_zero_iff_of_const hb hmask rfl hstep]

theorem scan_once (T : Timeline ops V) (hconst : ∀ i, T.table i = T.table 0)
    (hback : scanCursor T (n + 1) = 0) (hfirst : ∀ i, 0 < i → i ≤ n → ¬ scanCursor T i = 0) :
    ((range (n + 1)).flatMap (scanSeen T)).Perm (T.table 0).iter := by
  have hseen : ∀ i, scanSeen T i = ((T.table 0).scanStep ops (scanCursor T i)).2 := by
    intro i
    unfold scanSeen
    rw [hconst i]
  rcases Nat.eq_zero_or_pos (T.table 0).cap with hzero | hpos
  · have hnil : (range (n + 1)).flatMap (scanSeen T) = [] :=
      flatMap_eq_nil_iff.mpr fun i _ => (hseen i).trans (congrArg Prod.snd (if_pos hzero))
    rw [hnil, iter_of_cap_zero hzero]
  · obtain ⟨b, hb, hgroups, hmask, hstep⟩ := scan_const T (fun i => by rw [hconst i]) hpos
    have hs := (T.wf 0).shaped_of_lt hpos
    have hzero_iff := ReverseCursor.eq_zero_iff_of_const hb hmask (c := scanCursor T) rfl hstep
    have hlen : n + 1 = 2 ^ b := by
      refine Nat.le_antisymm ?_ (Nat.le_of_dvd (Nat.succ_pos n) ((hzero_iff _).mp hback))
      by_contra hlt
      exact hfirst (2 ^ b) (Nat.two_pow_pos b) (by omega) ((hzero_iff _).mpr (Nat.dvd_refl _))
    have hvisit : ∀ i, (scanSeen T i).Perm ((T.table 0).iter.filter fun kv =>
        (T.table 0).home ops kv.1 / groupWidth == (scanCursor T i).toNat % 2 ^ b) := by
      intro i
      rw [hseen, scanStep_of_pos hpos, toNat_and_groupMask hmask]
      exact visitHomeGroup_perm (T.wf 0) hpos _
    have hperm := flatMap_filter_perm (fun kv : K × V => (T.table 0).home ops kv.1 / groupWidth)
      ((range (n + 1)).map fun i => (scanCursor T i).toNat % 2 ^ b) ?_ (T.table 0).iter ?_
    · rw [flatMap_map] at hperm
      exact (List.Perm.flatMap_left _ fun i _ => hvisit i).trans hperm
    · refine List.Nodup.map_on (fun i hi j hj hij => ?_) nodup_range
      rw [mem_range, hlen] at hi hj
      exact ReverseCursor.group_inj_of_const hb hmask rfl hstep hi hj hij
    · intro kv _
      obtain ⟨i, hi, hgroup⟩ := ReverseCursor.exists_visit (fun _ _ => ⟨hb, hmask⟩)
        (show scanCursor T 0 = 0 from rfl) (fun i _ => hstep i) hback
        (BitVec.ofNat 64 ((ops.hash kv.1).toNat / groupWidth))
      rw [home_group hs hgroups, ← hgroup]
      exact mem_map.mpr ⟨i, mem_range.mpr (by omega), rfl⟩

theorem scan_contract (T : Timeline ops V) : ScanContract T (fun i => scanCursor T i = 0) (scanSeen T) where
  complete _ hback _ hstays hlast := scan_complete T hback fun _ hi => T.present hstays hlast hi
  once hconst _ hback hfirst := scan_once T hconst hback hfirst
  ends hcap := scan_ends T hcap

/-! ## The store's walk -/

/-- The cursor of each call of `walk_page`, with the number of buckets that each call asks for. -/
def walkCursor (T : Timeline ops V) (buckets : Nat → Nat) : Nat → Nat
  | 0 => 0
  | i + 1 => ((T.table i).walkPage (walkCursor T buckets i) (buckets i)).1

/-- What each call of `walk_page` visits. -/
def walkSeen (T : Timeline ops V) (buckets : Nat → Nat) (i : Nat) : List (K × V) :=
  ((T.table i).walkPage (walkCursor T buckets i) (buckets i)).2

def walkFrom (T : Timeline ops V) (buckets : Nat → Nat) (i : Nat) : Nat :=
  (T.table i).walkStart (walkCursor T buckets i)

def walkStop (T : Timeline ops V) (buckets : Nat → Nat) (i : Nat) : Nat :=
  min (walkFrom T buckets i + max (buckets i) 1) (T.table i).cap

theorem Table.Shaped.log2 (hs : t.Shaped) : 0 < t.cap.log2 ∧ 1 <<< t.cap.log2 = t.cap := by
  obtain ⟨k, hk4, hk⟩ := hs
  rw [hk, Nat.log2_two_pow, Nat.one_shiftLeft]
  exact ⟨by omega, rfl⟩

theorem shift_parts {a b s : Nat} (hb : b < 2 ^ s) :
    (a <<< s ||| b) >>> s = a ∧ (a <<< s ||| b) % 2 ^ s = b ∧ (0 < a → a <<< s ||| b ≠ 0) := by
  have hpow : 0 < 2 ^ s := Nat.two_pow_pos s
  rw [← Nat.shiftLeft_add_eq_or_of_lt hb, Nat.shiftLeft_eq, Nat.shiftRight_eq_div_pow, Nat.mul_comm]
  refine ⟨?_, ?_, fun ha => ?_⟩
  · rw [Nat.mul_add_div hpow, Nat.div_eq_of_lt hb, Nat.add_zero]
  · rw [Nat.mul_add_mod, Nat.mod_eq_of_lt hb]
  · have := Nat.mul_pos hpow ha
    omega

theorem walkStart_of_cursor (hs : t.Shaped) (hsmall : t.cap ≤ 2 ^ walkCapShift) {next : Nat} (hnext : next < t.cap)
    (t' : Table K V) : t.cap.log2 <<< walkCapShift ||| next ≠ 0 ∧
      t'.walkStart (t.cap.log2 <<< walkCapShift ||| next) = if t.cap = t'.cap then next else 0 := by
  obtain ⟨hlog, hshift⟩ := hs.log2
  obtain ⟨hhigh, hlow, hne⟩ := shift_parts (a := t.cap.log2) (Nat.lt_of_lt_of_le hnext hsmall)
  have hlog64 : t.cap.log2 < 64 := by
    rw [← hshift, Nat.one_shiftLeft] at hsmall
    exact Nat.lt_of_le_of_lt ((Nat.pow_le_pow_iff_right (by decide)).mp hsmall) (by decide)
  refine ⟨hne hlog, ?_⟩
  unfold walkStart walkCursorParts
  rw [if_neg (hne hlog), hhigh, if_pos hlog64, hshift, hlow]

theorem walkPage_of_pos (hpos : 0 < t.cap) (cursor buckets : Nat) : t.walkPage cursor buckets =
    (if min (t.walkStart cursor + max buckets 1) t.cap ≥ t.cap then 0
      else t.cap.log2 <<< walkCapShift ||| min (t.walkStart cursor + max buckets 1) t.cap,
      (range' (t.walkStart cursor)
        (min (t.walkStart cursor + max buckets 1) t.cap - t.walkStart cursor)).filterMap t.fullSlot) := by
  unfold walkPage scanBuckets
  rw [if_neg (by omega)]
  dsimp only
  split_ifs <;> rfl

section Walk

variable (T) (hsmall : ∀ i, (T.table i).cap ≤ 2 ^ walkCapShift) (buckets : Nat → Nat)

theorem walkSeen_eq (hpos : 0 < (T.table i).cap) : walkSeen T buckets i =
    (range' (walkFrom T buckets i) (walkStop T buckets i - walkFrom T buckets i)).filterMap
      (T.table i).fullSlot := by
  unfold walkSeen
  rw [walkPage_of_pos hpos]
  rfl

include hsmall in
theorem walk_next (hpos : 0 < (T.table i).cap) :
    walkCursor T buckets (i + 1) = 0 ∧ walkStop T buckets i = (T.table i).cap ∨
      walkCursor T buckets (i + 1) ≠ 0 ∧ walkStop T buckets i < (T.table i).cap ∧ walkFrom T buckets (i + 1) =
          if (T.table i).cap = (T.table (i + 1)).cap then walkStop T buckets i else 0 := by
  have hs := (T.wf i).shaped_of_lt hpos
  have hcursor : walkCursor T buckets (i + 1) = if walkStop T buckets i ≥ (T.table i).cap then 0
      else (T.table i).cap.log2 <<< walkCapShift ||| walkStop T buckets i := by
    rw [walkCursor, walkPage_of_pos hpos]
    rfl
  have hle : walkStop T buckets i ≤ (T.table i).cap := Nat.min_le_right _ _
  split_ifs at hcursor with hstop
  · exact .inl ⟨hcursor, by omega⟩
  · obtain ⟨hne, hstart⟩ := walkStart_of_cursor hs (hsmall i) (Nat.lt_of_not_le hstop) (T.table (i + 1))
    refine .inr ⟨hcursor ▸ hne, by omega, ?_⟩
    unfold walkFrom
    rw [hcursor]
    exact hstart

theorem walkFrom_lt_walkStop (h : walkFrom T buckets i < (T.table i).cap) :
    walkFrom T buckets i < walkStop T buckets i := by
  unfold walkStop
  omega

theorem mem_walkSeen (hh : (T.table i).Holds ops key p kv)
    (hfrom : walkFrom T buckets i ≤ p) (hstop : p < walkStop T buckets i) : kv ∈ walkSeen T buckets i := by
  rw [walkSeen_eq T buckets (Nat.lt_of_le_of_lt (Nat.zero_le p) hh.inside)]
  refine mem_filterMap.mpr ⟨p, mem_range'_1.mpr ⟨hfrom, by omega⟩, ?_⟩
  rw [(T.wf i).fullSlot_eq hh.inside]
  exact hh.slot

include hsmall in
theorem walk_on (hcap : ∀ i, (T.table i).cap = (T.table 0).cap) (hpos : 0 < (T.table 0).cap) (i : Nat) :
    walkCursor T buckets (i + 1) = 0 ∧ walkStop T buckets i = (T.table 0).cap ∨
      walkCursor T buckets (i + 1) ≠ 0 ∧ walkStop T buckets i < (T.table 0).cap ∧
        walkFrom T buckets (i + 1) = walkStop T buckets i := by
  have h := walk_next T hsmall buckets (i := i) (by rw [hcap i]; exact hpos)
  rwa [hcap i, hcap (i + 1), if_pos rfl] at h

include hsmall in
theorem walk_complete (hback : walkCursor T buckets (n + 1) = 0)
    (hstays : ∀ i, i < n → (T.table i).Stays ops key (T.gap i)) (hlast : (T.table n).Present ops key) :
    ∃ i, i ≤ n ∧ ∃ kv ∈ walkSeen T buckets i, ops.eq kv.1 key = true := by
  by_contra hnone
  push Not at hnone
  -- the walk is never past a key that it has not visited
  have hbehind : ∀ i, i ≤ n → ∀ p kv, (T.table i).Holds ops key p kv → walkFrom T buckets i ≤ p := by
    intro i hi
    induction i with
    | zero => exact fun p kv _ => Nat.zero_le p
    | succ i ih =>
      intro p kv hh
      obtain ⟨q, kv', hq⟩ := T.present hstays hlast (show i ≤ n by omega)
      have hstop : walkStop T buckets i ≤ q := by
        by_contra hlt
        exact hnone i (by omega) kv' (mem_walkSeen T buckets hq (ih (by omega) q kv' hq) (by omega)) hq.key_eq
      rcases walk_next T hsmall buckets (Nat.lt_of_le_of_lt (Nat.zero_le q) hq.inside) with ⟨-, hend⟩ | ⟨-, -, hnext⟩
      · have := hq.inside
        omega
      · rw [hnext]
        split_ifs with hcap
        · obtain ⟨rs, hrun⟩ := T.later i
          rcases Stays.holds (T.gap i) (T.wf i) hrun (hstays i (by omega)) ⟨p, kv, hh⟩ hq with hlt | ⟨-, kv1, hq'⟩
          · omega
          · rw [(T.wf (i + 1)).distinct p q kv kv1 hh.inside hq'.inside hh.slot hq'.slot
              (ops.trans hh.key_eq (ops.symm hq'.key_eq))]
            exact hstop
        · exact Nat.zero_le p
  obtain ⟨p, kv, hh⟩ := hlast
  rcases walk_next T hsmall buckets (Nat.lt_of_le_of_lt (Nat.zero_le p) hh.inside) with ⟨-, hend⟩ | ⟨hne, -⟩
  · exact hnone n le_rfl kv (mem_walkSeen T buckets hh (hbehind n le_rfl p kv hh) (hend ▸ hh.inside)) hh.key_eq
  · exact hne hback

include hsmall in
theorem walk_once (hconst : ∀ i, T.table i = T.table 0) (hback : walkCursor T buckets (n + 1) = 0)
    (hfirst : ∀ i, 0 < i → i ≤ n → ¬ walkCursor T buckets i = 0) :
    ((range (n + 1)).flatMap (walkSeen T buckets)).Perm (T.table 0).iter := by
  rcases Nat.eq_zero_or_pos (T.table 0).cap with hzero | hpos
  · have hnil : (range (n + 1)).flatMap (walkSeen T buckets) = [] := by
      refine flatMap_eq_nil_iff.mpr fun i _ => ?_
      unfold walkSeen
      rw [hconst i]
      exact congrArg Prod.snd (if_pos hzero)
    rw [hnil, iter_of_cap_zero hzero]
  · have hcap : ∀ i, (T.table i).cap = (T.table 0).cap := fun i => by rw [hconst i]
    have hseen : ∀ i, walkSeen T buckets i = (range' (walkFrom T buckets i)
        (walkStop T buckets i - walkFrom T buckets i)).filterMap (T.table 0).fullSlot := by
      intro i
      rw [walkSeen_eq T buckets (by rw [hcap i]; exact hpos), hconst i]
    have hjoin : ∀ i, walkFrom T buckets i < (T.table 0).cap →
        (range' 0 (walkFrom T buckets i)).filterMap (T.table 0).fullSlot ++ walkSeen T buckets i =
          (range' 0 (walkStop T buckets i)).filterMap (T.table 0).fullSlot := by
      intro i hlt
      have hle := walkFrom_lt_walkStop T buckets (i := i) (by rw [hcap i]; exact hlt)
      have hrange := range'_append_1 (s := 0) (m := walkFrom T buckets i)
        (n := walkStop T buckets i - walkFrom T buckets i)
      rw [Nat.zero_add, Nat.add_sub_cancel' (Nat.le_of_lt hle)] at hrange
      rw [hseen i, ← filterMap_append, hrange]
    have hrun : ∀ i, i ≤ n → walkFrom T buckets i < (T.table 0).cap ∧ (range i).flatMap (walkSeen T buckets) =
        (range' 0 (walkFrom T buckets i)).filterMap (T.table 0).fullSlot := by
      intro i hi
      induction i with
      | zero => exact ⟨hpos, rfl⟩
      | succ i ih =>
        obtain ⟨hlt, hpre⟩ := ih (by omega)
        rcases walk_on T hsmall buckets hcap hpos i with ⟨hz, -⟩ | ⟨-, hstop, hnext⟩
        · exact absurd hz (hfirst (i + 1) (Nat.succ_pos i) hi)
        · rw [hnext]
          refine ⟨hstop, ?_⟩
          rw [range_succ, flatMap_append, flatMap_singleton, hpre, hjoin i hlt]
    obtain ⟨hlt, hpre⟩ := hrun n le_rfl
    rcases walk_on T hsmall buckets hcap hpos n with ⟨-, hstop⟩ | ⟨hne, -⟩
    · rw [range_succ, flatMap_append, flatMap_singleton, hpre, hjoin n hlt, hstop, ← range_eq_range']
      exact List.Perm.refl _
    · exact absurd hback hne

include hsmall in
theorem walk_ends (hcap : ∀ i, (T.table i).cap = (T.table 0).cap) :
    ∃ n, walkCursor T buckets (n + 1) = 0 ∧ ∀ i, 0 < i → i ≤ n → ¬ walkCursor T buckets i = 0 := by
  refine exists_first (fun i => walkCursor T buckets i = 0) ?_
  rcases Nat.eq_zero_or_pos (T.table 0).cap with hzero | hpos
  · exact ⟨0, congrArg Prod.fst (if_pos hzero)⟩
  · by_contra hnever
    push Not at hnever
    -- every call gets on by a slot
    have hrun : ∀ i, i ≤ walkFrom T buckets i ∧ walkFrom T buckets i < (T.table 0).cap := by
      intro i
      induction i with
      | zero => exact ⟨Nat.zero_le _, hpos⟩
      | succ i ih =>
        have hlt := walkFrom_lt_walkStop T buckets (i := i) (by rw [hcap i]; exact ih.2)
        rcases walk_on T hsmall buckets hcap hpos i with ⟨hz, -⟩ | ⟨-, hstop, hnext⟩
        · exact absurd hz (hnever i)
        · rw [hnext]
          exact ⟨by omega, hstop⟩
    have := hrun (T.table 0).cap
    omega

include hsmall in
theorem walk_contract : ScanContract T (fun i => walkCursor T buckets i = 0) (walkSeen T buckets) where
  complete _ hback _ hstays hlast := walk_complete T hsmall buckets hback hstays hlast
  once hconst _ hback hfirst := walk_once T hsmall buckets hconst hback hfirst
  ends hcap := walk_ends T hsmall buckets hcap

end Walk

/-- **The guarantee of a scan.** A sweep by `scan_step` from cursor zero until it returns zero, with any operations
between the calls, visits every key that is stored from the first call to the last; it visits every entry once while the
table does not change; and it ends when the table does not grow. So does the store's walk over `scan_buckets`, which
starts over when the capacity has changed. -/
theorem sweep_visits_stored_keys (T : Timeline ops V) : ScanContract T (fun i => scanCursor T i = 0) (scanSeen T) ∧
      ∀ buckets, (∀ i, (T.table i).cap ≤ 2 ^ walkCapShift) →
        ScanContract T (fun i => walkCursor T buckets i = 0) (walkSeen T buckets) :=
  ⟨scan_contract T, fun buckets hsmall => walk_contract T hsmall buckets⟩

/-! ## Small tables -/

def natOps : KeyOps Nat where
  hash n := UInt64.ofNat n
  eq a b := a == b
  refl a := beq_self_eq_true a
  symm h := by
    rw [beq_iff_eq] at h ⊢
    exact h.symm
  trans h h' := by
    rw [beq_iff_eq] at h h' ⊢
    exact h.trans h'
  hash_eq h := by
    rw [beq_iff_eq] at h
    rw [h]

/-- Two keys with one home in a table of sixteen slots. -/
def fewKeys : List (Op Nat Nat) := [.insert 21 1, .insert 5 2]

def moreKeys : List (Op Nat Nat) :=
  [40, 41, 42, 43, 44, 46, 47, 48, 49, 50, 51, 52, 54].map fun key => .insert key 0

def smallTable : Table Nat Nat := ((withCapacity 0).run natOps fewKeys).elim new Prod.fst

def grownTable : Table Nat Nat := (smallTable.run natOps moreKeys).elim new Prod.fst

/-- `scan_buckets` from bucket zero and then from where it stopped, up to the capacity: key 5 is stored all the time
and is not visited, since the growth moves it from slot 6 to slot 5. And no call returns zero. -/
theorem scan_buckets_skips_key : smallTable.scanBuckets 0 6 = (6, [(21, 1)]) ∧ (∀ k, k ≤ moreKeys.length →
        ((smallTable.run natOps (moreKeys.take k)).bind fun r => r.1.get natOps 5) = some (some 2)) ∧
      (grownTable.scanBuckets 6 26).1 = grownTable.cap ∧ (∀ kv ∈ (grownTable.scanBuckets 6 26).2, kv.1 ≠ 5) ∧
      ∀ start count, 0 < count → (grownTable.scanBuckets start count).1 ≠ 0 := by
  refine ⟨by decide +kernel, by decide +kernel, by decide +kernel, by decide +kernel, fun start count hcount => ?_⟩
  have hcap : grownTable.cap = 32 := by decide +kernel
  show min (start + count) grownTable.cap ≠ 0
  omega

theorem run_smallTable : ∃ rs, (withCapacity 0).run natOps fewKeys = some (smallTable, rs) := by
  obtain ⟨t, rs, hrun, -⟩ := (refines_withCapacity natOps 0).run fewKeys
  refine ⟨rs, ?_⟩
  unfold smallTable
  rw [hrun]
  rfl

def steady : Timeline natOps Nat where
  table _ := smallTable
  gap _ := []
  start := ⟨0, fewKeys, run_smallTable⟩
  later _ := ⟨[], rfl⟩
  small _ := by decide +kernel

theorem smallTable_holds : smallTable.Holds natOps 5 6 (5, 2) := ⟨by decide +kernel, by decide +kernel, rfl⟩

theorem smallTable_cap_le : smallTable.cap ≤ 2 ^ walkCapShift := by
  decide +kernel

theorem sweep_visits_stored_keys_steady : (∃ i, i ≤ 0 ∧ ∃ kv ∈ scanSeen steady i, natOps.eq kv.1 5 = true) ∧
      ∃ i, i ≤ 1 ∧ ∃ kv ∈ walkSeen steady (fun _ => 8) i, natOps.eq kv.1 5 = true :=
  ⟨(sweep_visits_stored_keys steady).1.complete 0 (by decide +kernel) 5 nofun ⟨6, (5, 2), smallTable_holds⟩,
    ((sweep_visits_stored_keys steady).2 (fun _ => 8) fun _ => smallTable_cap_le).complete 1 (by decide +kernel) 5
      (fun _ _ => ⟨6, (5, 2), smallTable_holds⟩) ⟨6, (5, 2), smallTable_holds⟩⟩

end Kevy.Map
