import Kevy.Watch.System

/-!
# Versions count writes

A version that was collected has moved by as much as its key was announced since; a version that is found unmoved was
not announced, unless it went all the way round.
-/

namespace Kevy.Watch

open Kevy.Lib Kevy.Resp List

def bumpsOf (key : Bytes) (log : List Ran) : Nat := (log.map fun r => r.op.bumps key).sum

theorem bumpsOf_append (key : Bytes) (l l' : List Ran) : bumpsOf key (l ++ l') = bumpsOf key l + bumpsOf key l' := by
  rw [bumpsOf, map_append, sum_append]
  rfl

theorem bumpsOf_sublist {key : Bytes} {l l' : List Ran} (h : l.Sublist l') : bumpsOf key l ≤ bumpsOf key l' := by
  induction h with
  | slnil => exact le_rfl
  | cons r _ ih => exact Nat.le_trans ih (Nat.le_add_left _ _)
  | cons_cons r _ ih => exact Nat.add_le_add_left ih _

theorem bumps_le_of_mem {key : Bytes} {l : List Ran} {r : Ran} (h : r ∈ l) : r.op.bumps key ≤ bumpsOf key l := by
  rw [← Nat.add_zero (r.op.bumps key)]
  exact bumpsOf_sublist (singleton_sublist.mpr h)

namespace Shard

variable {s s' s'' : Shard}

/-! ## One shard -/

theorem get_bumpIfWatched (versions : KeyedList Bytes UInt64) (key k : Bytes) :
    (bumpIfWatched versions key).get k = (versions.get k).map (· + UInt64.ofNat (if k = key then 1 else 0)) := by
  rw [bumpIfWatched, KeyedList.get_modify]
  split
  · rfl
  · cases versions.get k <;> simp

theorem get_foldl_bump (keys : List Bytes) (versions : KeyedList Bytes UInt64) (k : Bytes) :
    (keys.foldl bumpIfWatched versions).get k = (versions.get k).map (· + UInt64.ofNat (keys.count k)) := by
  induction keys generalizing versions with
  | nil => cases hget : versions.get k <;> simp [hget]
  | cons key keys ih =>
    have hcount : (key :: keys).count k = (if k = key then 1 else 0) + keys.count k := by
      rw [count_cons, Nat.add_comm]
      by_cases hk : k = key
      · simp [hk]
      · simp [hk, Ne.symm hk]
    rw [foldl_cons, ih, get_bumpIfWatched, Option.map_map, hcount]
    congr 1
    funext v
    rw [Function.comp_apply, UInt64.add_assoc, ← UInt64.ofNat_add]

theorem get_run (s : Shard) (op : Op) (conn : Nat) (guards : List Guard) (k : Bytes) :
    (s.run op conn guards).versions.get k = (s.versions.get k).map (· + UInt64.ofNat (op.bumps k)) := by
  cases op with
  | dispatch key others => exact get_bumpIfWatched s.versions key k
  | keys ks => exact get_foldl_bump ks s.versions k
  | flush => exact KeyedList.get_mapValues s.versions _ k

/-- A later state: it has run more, and every tracked version has moved by what was announced. -/
def Later (s s' : Shard) : Prop :=
  ∃ more, s'.log = s.log ++ more ∧
    ∀ k v, s.versions.get k = some v → s'.versions.get k = some (v + UInt64.ofNat (bumpsOf k more))

theorem Later.refl (s : Shard) : s.Later s := ⟨[], (append_nil _).symm, fun k v hv => by simpa [bumpsOf] using hv⟩

theorem Later.trans (h : s.Later s') (h' : s'.Later s'') : s.Later s'' := by
  obtain ⟨more, hlog, hver⟩ := h
  obtain ⟨more', hlog', hver'⟩ := h'
  refine ⟨more ++ more', by rw [hlog', hlog, append_assoc], fun k v hv => ?_⟩
  rw [hver' k _ (hver k v hv), bumpsOf_append, UInt64.ofNat_add, UInt64.add_assoc]

theorem later_run (s : Shard) (op : Op) (conn : Nat) (guards : List Guard) : s.Later (s.run op conn guards) := by
  refine ⟨[⟨op, conn, guards⟩], rfl, fun k v hv => ?_⟩
  rw [get_run, hv]
  simp [bumpsOf]

theorem later_recordWatch (s : Shard) (key : Bytes) : s.Later (s.recordWatch key).1 := by
  rw [recordWatch]
  cases hget : s.versions.get key with
  | some v => exact Later.refl s
  | none =>
    refine ⟨[], (append_nil _).symm, fun k v hv => ?_⟩
    have hne : k ≠ key := fun heq => by
      rw [heq, hget] at hv
      cases hv
    simpa [bumpsOf, hne] using hv

theorem later_collect (s : Shard) (keys : List Bytes) : s.Later (s.collect keys).1 := by
  induction keys generalizing s with
  | nil => exact Later.refl s
  | cons key keys ih => exact (later_recordWatch s key).trans (ih _)

/-! ## Collected versions -/

def Valid (s : Shard) (w : Watched) : Prop :=
  w.since ≤ s.log.length ∧
    s.versions.get w.key = some (w.version + UInt64.ofNat (bumpsOf w.key (s.log.drop w.since)))

/-- The version was unmoved when the shard had run `upto` operations. -/
def Checked (s : Shard) (g : Guard) : Prop :=
  s.Valid g.watch ∧ g.watch.since ≤ g.upto ∧ g.upto ≤ s.log.length ∧
    UInt64.ofNat (bumpsOf g.watch.key ((s.log.take g.upto).drop g.watch.since)) = 0

theorem Valid.later {w : Watched} (h : s.Valid w) (hs : s.Later s') : s'.Valid w := by
  obtain ⟨more, hlog, hver⟩ := hs
  refine ⟨?_, ?_⟩
  · rw [hlog, length_append]
    exact Nat.le_add_right_of_le h.1
  · rw [hver _ _ h.2, hlog, drop_append_of_le_length h.1, bumpsOf_append, UInt64.ofNat_add, UInt64.add_assoc]

theorem Checked.later {g : Guard} (h : s.Checked g) (hs : s.Later s') : s'.Checked g := by
  refine ⟨h.1.later hs, h.2.1, ?_⟩
  obtain ⟨more, hlog, -⟩ := hs
  rw [hlog, take_append_of_le_length h.2.2.1, length_append]
  exact ⟨Nat.le_add_right_of_le h.2.2.1, h.2.2.2⟩

theorem valid_recordWatch (s : Shard) (key : Bytes) : (s.recordWatch key).1.Valid (s.recordWatch key).2 := by
  rw [recordWatch]
  cases hget : s.versions.get key with
  | some v => exact ⟨le_rfl, by simp [bumpsOf, hget]⟩
  | none => exact ⟨le_rfl, by simp [bumpsOf]⟩

theorem key_recordWatch (s : Shard) (key : Bytes) : (s.recordWatch key).2.key = key := by
  rw [recordWatch]
  split <;> rfl

theorem valid_collect (s : Shard) (keys : List Bytes) :
    ∀ w ∈ (s.collect keys).2, w.key ∈ keys ∧ (s.collect keys).1.Valid w := by
  induction keys generalizing s with
  | nil => intro w hw; cases hw
  | cons key keys ih =>
    intro w hw
    rcases mem_cons.mp hw with rfl | hw
    · refine ⟨?_, (valid_recordWatch s key).later (later_collect _ keys)⟩
      rw [key_recordWatch]
      exact mem_cons_self
    · exact ⟨mem_cons_of_mem _ (ih _ w hw).1, (ih _ w hw).2⟩

theorem checked_guards {pairs : List Watched} (hvalid : ∀ w ∈ pairs, s.Valid w) (hclean : s.check pairs = false) :
    ∀ g ∈ s.guards pairs, s.Checked g := by
  intro g hg
  obtain ⟨w, hw, rfl⟩ := List.mem_map.mp hg
  refine ⟨hvalid w hw, (hvalid w hw).1, le_rfl, ?_⟩
  have hsame : s.keyVersion w.key = w.version := by
    have := List.any_eq_false.mp hclean w hw
    simpa using this
  rw [keyVersion, (hvalid w hw).2, Option.getD_some] at hsame
  rw [take_length]
  simpa using hsame

end Shard

end Kevy.Watch
