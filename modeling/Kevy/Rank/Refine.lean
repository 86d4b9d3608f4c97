import Kevy.Rank.Insert
import Kevy.Rank.Iterate
import Kevy.Rank.Remove
import Mathlib.Algebra.Group.Action.Defs
import Mathlib.Algebra.Order.BigOperators.Group.List

/-!
# The tree is a sorted list

Every history of inserts and removes leaves a sound tree whose keys are those of the sorted list that takes the same
history. Every read of the tree is then that read of the list.
-/

namespace Kevy.Rank

open Kevy.Lib List Option

variable {K : Type}

/-! ## How high a tree is -/

theorem pow_le_length {h : Nat} {n : Node K} (hn : Sound h minKeys maxKeys n) :
    8 ^ (h + 1) ≤ (flat h n).length + 1 := by
  induction h generalizing n with
  | zero =>
    have hkeys : 7 ≤ (flat 0 n).length := hn.le_keys
    omega
  | succ h ih =>
    have hkeys : 7 ≤ n.keys.length := hn.le_keys
    have hcount : (flat (h + 1) n).length = n.keys.length + ((n.children.map (flat h)).map List.length).sum :=
      length_weave hn.length_map_flat
    have hsum := card_nsmul_le_sum ((n.children.map (flat h)).map List.length) (8 ^ (h + 1) - 1) (by
      intro m hm
      rw [List.map_map] at hm
      obtain ⟨c, hc, rfl⟩ := List.mem_map.mp hm
      exact Nat.sub_le_of_le_add (ih (hn.1 c hc)))
    rw [length_map, length_map, hn.2.1, smul_eq_mul] at hsum
    have hmul : 8 * (8 ^ (h + 1) - 1) ≤ (n.keys.length + 1) * (8 ^ (h + 1) - 1) := Nat.mul_le_mul_right _ (by omega)
    rw [Nat.pow_succ]
    omega

variable {h : Nat} {n : Node K}

theorem height_lt (hn : Sound h (min h 1) maxKeys n) (hlen : (flat h n).length < 2 ^ 64) : h < maxHeight := by
  cases h with
  | zero => decide
  | succ h =>
    obtain ⟨L, c, R, v, hc⟩ := hn.view [] n.keys rfl
    have hchild : (flat h c).length ≤ (flat (h + 1) n).length := by
      rw [v.flat_eq, length_append, length_append]
      omega
    have hpow := pow_le_length hc
    by_contra hge
    have hmono : 8 ^ 23 ≤ 8 ^ (h + 1) := Nat.pow_le_pow_right (by decide) (by unfold maxHeight at hge; omega)
    omega

/-! ## A tree that holds a list -/

structure Holds [LT K] (t : RankTree K) (l : List K) : Prop where
  sorted : l.Pairwise (· < ·)
  shape : ∃ h, Sound h (min h 1) maxKeys t.root ∧ flat h t.root = l

def Bound.precedes [LinearOrder K] (start : Bound K) (x : K) : Bool :=
  match start with
  | .unbounded => false
  | .included k => x < k
  | .excluded k => x ≤ k

def Bound.admits [LinearOrder K] (stop : Bound K) (x : K) : Bool :=
  match stop with
  | .unbounded => true
  | .included k => x ≤ k
  | .excluded k => x < k

def inside [LinearOrder K] (start stop : Bound K) (x : K) : Bool := !start.precedes x && stop.admits x

/-- What can be read of the tree is what can be read of the list. -/
structure Reads [LinearOrder K] (t : RankTree K) (l : List K) : Prop where
  len : t.len = l.length
  select : ∀ rank, t.select rank = some l[rank]?
  rankOf : ∀ key, t.rankOf key = some (l.idxOf? key)
  partitionPoint : ∀ pred, Downward pred l → t.partitionPoint pred = some (l.takeWhile pred).length
  countIn : ∀ start stop, t.countIn start stop = some (l.filter (inside start stop)).length
  iterFrom : l.length < 2 ^ 64 → ∀ rank, t.iterFrom rank = some (l.drop rank)
  iterRevFrom : l.length < 2 ^ 64 → ∀ rank, t.iterRevFrom rank = some (l.take rank).reverse
  range : l.length < 2 ^ 64 → ∀ start stop, t.range start stop = some (l.filter (inside start stop))

section Reads

variable {t : RankTree K} {l : List K}

theorem len_spec [LT K] (ht : Holds t l) : t.len = l.length := by
  obtain ⟨h, hroot, rfl⟩ := ht.shape
  exact hroot.total_eq

theorem select_spec [LT K] (ht : Holds t l) (rank : Nat) : t.select rank = some l[rank]? := by
  obtain ⟨h, hroot, rfl⟩ := ht.shape
  unfold RankTree.select
  rw [hroot.total_eq, hroot.levels_eq]
  by_cases hge : rank ≥ (flat h t.root).length
  · rw [if_pos hge, List.getElem?_eq_none hge]
  · obtain ⟨path, node, idx, hwalk, hland⟩ := descendToRank_spec hroot (Nat.lt_of_not_le hge)
    have hget := hland.getElem?_eq
    rw [getElem?_eq_getElem (Nat.lt_of_not_le hge)] at hget ⊢
    rw [if_neg hge, hwalk]
    simp only [bind_eq_bind, bind_some, hget]

theorem Sound.root_one (hn : Sound h (min h 1) maxKeys n) (hpos : 0 < (flat h n).length) : Sound h 1 maxKeys n := by
  refine hn.mono ?_ hn.keys_le
  cases h with
  | zero => exact hpos
  | succ h => exact le_trans (by omega) hn.le_keys

theorem newFrom_spec {H : Nat} (hn : Sound h (min h 1) maxKeys n) (hH : h ≤ H) (hroom : H < maxHeight)
    (rank : Nat) : ∃ stack, Iter.newFrom n rank = some ⟨stack, (flat h n).length - rank⟩ ∧
      Owes ahead H 0 stack ((flat h n).drop rank) := by
  unfold Iter.newFrom
  rw [hn.total_eq, hn.levels_eq]
  by_cases hzero : (flat h n).length - rank = 0
  · refine ⟨[], by dsimp only; rw [if_pos hzero, hzero], ?_⟩
    rw [drop_eq_nil_of_le (by omega)]
    exact .nil
  · obtain ⟨path, node, idx, hwalk, hland⟩ := descendToRank_spec hn (show rank < (flat h n).length by omega)
    obtain ⟨stack, hstack, hs⟩ := hland.stack_ahead hroom (hn.root_one (by omega)) hH .nil
    rw [append_nil] at hs
    obtain ⟨stack0, hfold, hpush⟩ := bind_eq_some_iff.mp hstack
    refine ⟨stack, ?_, hs⟩
    dsimp only
    rw [if_neg hzero, hwalk]
    simp only [bind_eq_bind, bind_some, hfold, hpush]

theorem newThrough_spec {H : Nat} (hn : Sound h (min h 1) maxKeys n) (hH : h ≤ H) (hroom : H < maxHeight)
    (rank : Nat) : ∃ stack, Iter.newThrough n rank = some ⟨stack, min rank (flat h n).length⟩ ∧
      Owes behind H 0 stack ((flat h n).take rank).reverse := by
  unfold Iter.newThrough
  rw [hn.total_eq, hn.levels_eq]
  by_cases hzero : min rank (flat h n).length = 0
  · refine ⟨[], by dsimp only; rw [if_pos hzero, hzero], ?_⟩
    rw [length_eq_zero_iff.mp (by rw [length_take, hzero] : ((flat h n).take rank).length = 0)]
    exact .nil
  · obtain ⟨path, node, idx, hwalk, hland⟩ :=
      descendToRank_spec hn (show min rank (flat h n).length - 1 < (flat h n).length by omega)
    obtain ⟨stack, hstack, hs⟩ := hland.stack_behind hroom (hn.root_one (by omega)) hH .nil
    rw [append_nil, Nat.sub_add_cancel (Nat.pos_of_ne_zero hzero), ← take_eq_take_min] at hs
    obtain ⟨stack0, hfold, hpush⟩ := bind_eq_some_iff.mp hstack
    refine ⟨stack, ?_, hs⟩
    dsimp only
    rw [if_neg hzero, hwalk]
    simp only [bind_eq_bind, bind_some, hfold, hpush]

theorem drain_next {H lo remaining : Nat} {stack : List (Node K × Nat)} (hroom : H < maxHeight)
    (hs : Owes ahead H lo stack l) (hlen : remaining ≤ l.length) :
    drain Iter.next (remaining + 1) ⟨stack, remaining⟩ = some (l.take remaining) :=
  drain_spec next_stop (fun remaining hs hl => next_spec hroom remaining hs hl) hs hlen

theorem drain_nextRev {H lo remaining : Nat} {stack : List (Node K × Nat)} (hroom : H < maxHeight)
    (hs : Owes behind H lo stack l) (hlen : remaining ≤ l.length) :
    drain Iter.nextRev (remaining + 1) ⟨stack, remaining⟩ = some (l.take remaining) :=
  drain_spec nextRev_stop (fun remaining hs hl => nextRev_spec hroom remaining hs hl) hs hlen

theorem iterFrom_spec [LT K] (ht : Holds t l) (hlen : l.length < 2 ^ 64) (rank : Nat) :
    t.iterFrom rank = some (l.drop rank) := by
  obtain ⟨h, hroot, rfl⟩ := ht.shape
  have hroom := height_lt hroot hlen
  obtain ⟨stack, hnew, hs⟩ := newFrom_spec hroot le_rfl hroom rank
  unfold RankTree.iterFrom
  rw [hnew, bind_eq_bind, bind_some, ← length_drop, drain_next hroom hs le_rfl, take_length]

theorem iterRevFrom_spec [LT K] (ht : Holds t l) (hlen : l.length < 2 ^ 64) (rank : Nat) :
    t.iterRevFrom rank = some (l.take rank).reverse := by
  obtain ⟨h, hroot, rfl⟩ := ht.shape
  have hroom := height_lt hroot hlen
  obtain ⟨stack, hnew, hs⟩ := newThrough_spec hroot le_rfl hroom rank
  unfold RankTree.iterRevFrom
  rw [hnew, bind_eq_bind, bind_some, ← length_take, ← length_reverse, drain_nextRev hroom hs le_rfl, take_length]

section Order

variable [LinearOrder K]

theorem rankOf_spec (ht : Holds t l) (key : K) : t.rankOf key = some (l.idxOf? key) := by
  obtain ⟨h, hroot, rfl⟩ := ht.shape
  unfold RankTree.rankOf
  rw [hroot.levels_eq, rankLoop_spec key 0 hroot ht.sorted]
  simp

theorem partitionPoint_spec (ht : Holds t l) {pred : K → Bool} (hdown : Downward pred l) :
    t.partitionPoint pred = some (l.takeWhile pred).length := by
  obtain ⟨h, hroot, rfl⟩ := ht.shape
  unfold RankTree.partitionPoint
  rw [hroot.levels_eq, partitionLoop_spec 0 hroot hdown, Nat.zero_add]

theorem downward_precedes (hsorted : l.Pairwise (· < ·)) (start : Bound K) : Downward start.precedes l := by
  cases start with
  | unbounded => exact pairwise_of_forall fun _ _ hfalse => nomatch hfalse
  | included k => exact downward_lt hsorted k
  | excluded k => exact downward_le hsorted k

theorem downward_admits (hsorted : l.Pairwise (· < ·)) (stop : Bound K) : Downward stop.admits l := by
  cases stop with
  | unbounded => exact pairwise_of_forall fun _ _ _ => rfl
  | included k => exact downward_le hsorted k
  | excluded k => exact downward_lt hsorted k

theorem boundRanks_spec (ht : Holds t l) (start stop : Bound K) :
    t.boundRanks start stop = some ((l.takeWhile start.precedes).length, (l.takeWhile stop.admits).length) := by
  have hlen : t.len = l.length := len_spec ht
  have hlt := fun k => partitionPoint_spec ht (downward_lt ht.sorted k)
  have hle := fun k => partitionPoint_spec ht (downward_le ht.sorted k)
  have hnone : l.takeWhile (Bound.precedes .unbounded) = [] := takeWhile_eq_nil_of_all_false fun _ _ => rfl
  have hall : l.takeWhile (Bound.admits .unbounded) = l := takeWhile_eq_self_iff.mpr fun _ _ => rfl
  unfold RankTree.boundRanks
  cases start <;> cases stop <;>
    simp only [hlen, hlt, hle, hnone, hall, length_nil, bind_eq_bind, bind_some] <;> rfl

theorem countIn_spec (ht : Holds t l) (start stop : Bound K) :
    t.countIn start stop = some (l.filter (inside start stop)).length := by
  have hcut := take_drop_takeWhile (downward_precedes ht.sorted start) (downward_admits ht.sorted stop)
  have hle : (l.takeWhile stop.admits).length ≤ l.length := (takeWhile_sublist _).length_le
  unfold RankTree.countIn inside
  rw [boundRanks_spec ht, ← hcut, length_take, length_drop, map_some, Nat.min_eq_left (by omega)]

theorem range_spec (ht : Holds t l) (hlen : l.length < 2 ^ 64) (start stop : Bound K) :
    t.range start stop = some (l.filter (inside start stop)) := by
  have hcut := take_drop_takeWhile (downward_precedes ht.sorted start) (downward_admits ht.sorted stop)
  have hbounds := boundRanks_spec ht start stop
  have hle : (l.takeWhile stop.admits).length ≤ l.length := (takeWhile_sublist _).length_le
  obtain ⟨h, hroot, rfl⟩ := ht.shape
  have hroom := height_lt hroot hlen
  obtain ⟨stack, hnew, hs⟩ := newFrom_spec hroot le_rfl hroom ((flat h t.root).takeWhile start.precedes).length
  unfold RankTree.range inside
  rw [hbounds, ← hcut]
  simp only [bind_eq_bind, bind_some, hnew, Iter.capped]
  rw [Nat.min_eq_right (by omega)]
  exact drain_next hroom hs (by rw [length_drop]; omega)

theorem reads_of_holds (ht : Holds t l) : Reads t l where
  len := len_spec ht
  select := select_spec ht
  rankOf := rankOf_spec ht
  partitionPoint := fun _ hdown => partitionPoint_spec ht hdown
  countIn := countIn_spec ht
  iterFrom := iterFrom_spec ht
  iterRevFrom := iterRevFrom_spec ht
  range := range_spec ht

end Order

end Reads

/-! ## Histories -/

section History

variable [LinearOrder K] {t : RankTree K} {l : List K}

inductive TreeOp (K : Type)
  | insert (key : K)
  | remove (key : K)

def RankTree.step (t : RankTree K) : TreeOp K → Option (RankTree K × Bool)
  | .insert key => t.insert key
  | .remove key => t.remove key

def RankTree.run (t : RankTree K) : List (TreeOp K) → Option (RankTree K × List Bool)
  | [] => some (t, [])
  | op :: ops => do
    let (t, reply) ← t.step op
    let (t, replies) ← t.run ops
    some (t, reply :: replies)

def SortedList.step (l : List K) : TreeOp K → List K × Bool
  | .insert key => (insertKey l key, !l.contains key)
  | .remove key => (l.erase key, l.contains key)

def SortedList.run (l : List K) : List (TreeOp K) → List K × List Bool
  | [] => (l, [])
  | op :: ops => ((run (step l op).1 ops).1, (step l op).2 :: (run (step l op).1 ops).2)

theorem holds_new : Holds (RankTree.new : RankTree K) [] :=
  ⟨List.Pairwise.nil, 0, ⟨rfl, Nat.zero_le _, Nat.zero_le _, rfl⟩, rfl⟩

theorem insert_spec (ht : Holds t l) (key : K) :
    ∃ t', t.insert key = some (t', decide (key ∉ l)) ∧ Holds t' (insertKey l key) := by
  obtain ⟨h, hroot, rfl⟩ := ht.shape
  obtain ⟨root, split, hinsert, hgrown⟩ := insertRec_spec key hroot ht.sorted
  have hsorted := sorted_insertKey ht.sorted key
  unfold RankTree.insert
  rw [hroot.levels_eq, hinsert]
  cases hgrown with
  | whole hn hflat => exact ⟨⟨root⟩, rfl, hsorted, h, hn, hflat⟩
  | @split right median hn hright hflat =>
    have hfits : Fits (h + 1) [median] [root, right] :=
      ⟨forall_mem_cons.mpr ⟨hn, forall_mem_singleton.mpr hright⟩, rfl⟩
    exact ⟨_, rfl, hsorted, h + 1, hfits.sound (by simp) (show 1 ≤ maxKeys by decide) 0, hflat⟩

theorem remove_spec (ht : Holds t l) (key : K) :
    ∃ t', t.remove key = some (t', decide (key ∈ l)) ∧ Holds t' (l.erase key) := by
  obtain ⟨h, hroot, rfl⟩ := ht.shape
  obtain ⟨root, hremove, hsound, hflat⟩ := removeRec_spec key hroot (by omega) ht.sorted
  have hsorted : ((flat h t.root).erase key).Pairwise (· < ·) := ht.sorted.sublist erase_sublist
  unfold RankTree.remove
  rw [hroot.levels_eq, hremove]
  simp only [bind_eq_bind, bind_some]
  cases h with
  | zero =>
    rw [hsound.isLeaf_zero]
    exact ⟨⟨root⟩, by simp, hsorted, 0, hsound, hflat⟩
  | succ h =>
    rw [hsound.isLeaf_succ]
    cases hkeys : root.keys with
    | nil =>
      -- the root has lost its last key, and its only child takes its place
      have hlen := hsound.2.1
      rw [hkeys] at hlen
      obtain ⟨c, hchild⟩ := length_eq_one_iff.mp hlen
      have hc := hsound.1 c (by rw [hchild]; exact mem_singleton.mpr rfl)
      refine ⟨⟨c⟩, by simp [hchild], hsorted, h, hc.mono ?_ hc.keys_le, ?_⟩
      · exact le_trans (Nat.min_le_right _ _) hc.nonempty.le_keys
      · rw [← hflat]
        show flat h c = weave (root.children.map (flat h)) root.keys
        rw [hchild, hkeys]
        rfl
    | cons k ks =>
      refine ⟨⟨root⟩, by simp, hsorted, h + 1, hsound.mono ?_ hsound.keys_le, hflat⟩
      rw [hkeys, length_cons]
      omega

theorem step_spec (ht : Holds t l) (op : TreeOp K) :
    ∃ t', t.step op = some (t', (SortedList.step l op).2) ∧ Holds t' (SortedList.step l op).1 := by
  cases op with
  | insert key =>
    simp only [SortedList.step, contains_eq_mem, ← decide_not]
    exact insert_spec ht key
  | remove key =>
    simp only [SortedList.step, contains_eq_mem]
    exact remove_spec ht key

theorem run_spec (ht : Holds t l) (history : List (TreeOp K)) :
    ∃ t', t.run history = some (t', (SortedList.run l history).2) ∧ Holds t' (SortedList.run l history).1 := by
  induction history generalizing t l with
  | nil => exact ⟨t, rfl, ht⟩
  | cons op history ih =>
    obtain ⟨t1, hstep, ht1⟩ := step_spec ht op
    obtain ⟨t2, hrun, ht2⟩ := ih ht1
    refine ⟨t2, ?_, ht2⟩
    unfold RankTree.run
    rw [hstep, bind_eq_bind, bind_some]
    dsimp only
    rw [hrun]
    rfl

/-- **Every history** of inserts and removes is that of the sorted list: its replies, and every read after it. The tree
is sound throughout: its nodes below the root have seven to fifteen keys, its leaves are at one depth, its counts are
exact, and no iterator over fewer than `2 ^ 64` keys outgrows its path. -/
theorem rank_tree_refines_sorted_list (history : List (TreeOp K)) :
    ∃ t, RankTree.new.run history = some (t, (SortedList.run [] history).2) ∧
      (SortedList.run [] history).1.Pairwise (· < ·) ∧
      (∃ h, Sound h (min h 1) maxKeys t.root ∧ flat h t.root = (SortedList.run [] history).1) ∧
      Reads t (SortedList.run [] history).1 := by
  obtain ⟨t, hrun, ht⟩ := run_spec holds_new history
  exact ⟨t, hrun, ht.sorted, ht.shape, reads_of_holds ht⟩

end History

end Kevy.Rank
