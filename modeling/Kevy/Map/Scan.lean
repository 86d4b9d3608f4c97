import Mathlib.Data.List.Rotate
import Kevy.Lib.ReverseCursor
import Kevy.Map.Refine

/-!
# Scanning by home groups

A `scan_step` visits the entries whose home slot is in one group of sixteen slots. They may have been stored further
on, so the step walks on until sixteen slots after an empty one. The cursor counts groups in reversed bits, against the
size that the table has at each call.
-/

namespace Kevy.Map

open Kevy.Lib List

variable {K V : Type} {ops : KeyOps K} {t t' : Table K V} {m : Dict K V}

namespace Table

def fullSlot (t : Table K V) (p : Nat) : Option (K × V) := if isFull (t.ctrl p) then t.slots p else none

def groupEntry (ops : KeyOps K) (t : Table K V) (g off : Nat) : Option (K × V) :=
  (t.fullSlot (t.wrap (g * groupWidth + off))).filter fun kv => t.home ops kv.1 / groupWidth == g

/-- The loop of `visit_home_group`. -/
def visitLoop (ops : KeyOps K) (t : Table K V) (g : Nat) : (fuel off : Nat) → (pastEmpty : Option Nat) → List (K × V)
  | 0, _, _ => []
  | fuel + 1, off, pastEmpty =>
    let visited := (t.groupEntry ops g off).toList
    match pastEmpty with
    | some 0 => visited
    | some (n + 1) => visited ++ t.visitLoop ops g fuel (off + 1) (some n)
    | none =>
      if t.ctrl (t.wrap (g * groupWidth + off)) = emptyByte ∧ off + 1 ≥ groupWidth then
        visited ++ t.visitLoop ops g fuel (off + 1) (some (groupWidth - 1))
      else visited ++ t.visitLoop ops g fuel (off + 1) none

def visitHomeGroup (ops : KeyOps K) (t : Table K V) (g : Nat) : List (K × V) := t.visitLoop ops g t.cap 0 none

def groupMask (t : Table K V) : BitVec 64 := BitVec.ofNat 64 (t.cap / groupWidth) - 1

def scanStep (ops : KeyOps K) (t : Table K V) (cursor : BitVec 64) : BitVec 64 × List (K × V) :=
  if t.cap = 0 then (0, [])
  else (ReverseCursor.advance t.groupMask cursor, t.visitHomeGroup ops (cursor &&& t.groupMask).toNat)

/-! ## One group -/

theorem WF.fullSlot_eq (h : t.WF ops) {p : Nat} (hp : p < t.cap) : t.fullSlot p = t.slots p := by
  unfold fullSlot
  split_ifs with hfull
  · rfl
  · rw [h.isFull_iff hp, Option.isSome_iff_ne_none, not_not] at hfull
    exact hfull.symm

theorem WF.groupEntry_eq_none (h : t.WF ops) (hpos : 0 < t.cap) {g e o : Nat} (he : groupWidth ≤ e + 1)
    (hempty : t.ctrl (t.wrap (g * groupWidth + e)) = emptyByte) (ho : e + groupWidth < o) (hlt : o < t.cap) :
    t.groupEntry ops g o = none := by
  have hs := h.shaped_of_lt hpos
  by_contra hne
  obtain ⟨kv, hkv⟩ := Option.ne_none_iff_exists'.mp hne
  obtain ⟨hslot, hgroup⟩ := Option.filter_eq_some_iff.mp hkv
  have hp := hs.wrap_lt (g * groupWidth + o)
  rw [h.fullSlot_eq hp] at hslot
  have hreach := h.reach _ kv hp hslot
  have hhome := hs.home_lt ops kv.1
  set q := t.home ops kv.1 with hq
  -- the home is `δ` behind the first slot of the group
  obtain ⟨δ, hδ, hqδ⟩ : ∃ δ, δ < groupWidth ∧ q = g * groupWidth + δ := by
    refine ⟨q % groupWidth, Nat.mod_lt _ (by decide), ?_⟩
    have hdiv := Nat.div_add_mod q groupWidth
    rw [beq_iff_eq.mp hgroup, Nat.mul_comm] at hdiv
    exact hdiv.symm
  have hat : ∀ x, δ ≤ x → t.wrap (g * groupWidth + x) = t.at_ q (x - δ) := by
    intro x hx
    rw [hs.wrap_eq, at_, hqδ]
    congr 1
    omega
  rw [hat o (by omega), dist_at hhome (by omega)] at hreach
  rw [hat e (by omega)] at hempty
  refine hreach (e - δ) ?_ hempty
  have hdiv := Nat.div_add_mod (o - δ) groupWidth
  have hmod := Nat.mod_lt (o - δ) (show 0 < groupWidth by decide)
  omega

theorem visitLoop_eq {g : Nat} (hrest : ∀ e o, groupWidth ≤ e + 1 → t.ctrl (t.wrap (g * groupWidth + e)) = emptyByte →
      e + groupWidth < o → o < t.cap → t.groupEntry ops g o = none) (fuel : Nat) :
    ∀ off past, off + fuel = t.cap → (∀ n, past = some n → ∀ o, off + n < o → o < t.cap → t.groupEntry ops g o = none) →
      t.visitLoop ops g fuel off past = (List.range' off fuel).filterMap (t.groupEntry ops g) := by
  induction fuel with
  | zero =>
    intro off past _ _
    rfl
  | succ fuel ih =>
    intro off past hoff hpast
    have hcons : (List.range' off (fuel + 1)).filterMap (t.groupEntry ops g) =
        (t.groupEntry ops g off).toList ++ (List.range' (off + 1) fuel).filterMap (t.groupEntry ops g) := by
      rw [range'_succ, filterMap_cons]
      cases t.groupEntry ops g off <;> rfl
    rw [hcons]
    match past with
    | some 0 =>
      have hnil : (List.range' (off + 1) fuel).filterMap (t.groupEntry ops g) = [] := by
        refine filterMap_eq_nil_iff.mpr fun o ho => ?_
        obtain ⟨hle, hlt⟩ := mem_range'_1.mp ho
        exact hpast 0 rfl o (by omega) (by omega)
      rw [hnil, append_nil]
      rfl
    | some (n + 1) =>
      rw [← ih (off + 1) (some n) (by omega) fun n' hn' o ho => ?_]
      · rfl
      · cases hn'
        exact hpast (n + 1) rfl o (by omega)
    | none =>
      rw [visitLoop]
      split_ifs with hstop
      · rw [ih (off + 1) _ (by omega) fun n hn o ho => ?_]
        cases hn
        exact hrest off o hstop.2 hstop.1 (by simp only [groupWidth] at ho ⊢; omega)
      · rw [ih (off + 1) none (by omega) fun _ hn => nomatch hn]

theorem range_map_add_mod {n : Nat} (s : Nat) : ((List.range n).map fun i => (s + i) % n).Perm (List.range n) := by
  have hrotate : ((List.range n).map fun i => (s + i) % n) = (List.range n).rotate s := by
    refine ext_getElem (by simp) fun i h1 h2 => ?_
    rw [getElem_map, getElem_range, getElem_rotate, getElem_range, length_range, Nat.add_comm]
  rw [hrotate]
  exact rotate_perm _ _

theorem visitHomeGroup_perm (h : t.WF ops) (hpos : 0 < t.cap) (g : Nat) :
    (t.visitHomeGroup ops g).Perm (t.iter.filter fun kv => t.home ops kv.1 / groupWidth == g) := by
  have hs := h.shaped_of_lt hpos
  unfold visitHomeGroup
  rw [visitLoop_eq (fun e o he hempty ho hlt => h.groupEntry_eq_none hpos he hempty ho hlt) t.cap 0 none
    (Nat.zero_add _) (fun _ hn => nomatch hn), ← range_eq_range']
  have hrow : t.groupEntry ops g = fun off =>
      ((t.fullSlot ((g * groupWidth + off) % t.cap)).filter fun kv => t.home ops kv.1 / groupWidth == g) := by
    funext off
    unfold groupEntry
    rw [hs.wrap_eq]
  have hperm := (range_map_add_mod (n := t.cap) (g * groupWidth)).filterMap fun p =>
    (t.fullSlot p).filter fun kv => t.home ops kv.1 / groupWidth == g
  rw [filterMap_map] at hperm
  rw [hrow]
  refine hperm.trans ?_
  unfold iter
  rw [filter_filterMap]
  exact Perm.refl _

/-! ## The groups of a table -/

theorem Shaped.groups (hs : t.Shaped) (hsmall : t.cap < 2 ^ 64) :
    ∃ b, b ≤ 64 ∧ t.cap = groupWidth * 2 ^ b ∧ t.groupMask.toNat = 2 ^ b - 1 := by
  obtain ⟨k, hk4, hk⟩ := hs
  have hcap : t.cap = groupWidth * 2 ^ (k - 4) := by
    rw [hk, show groupWidth = 2 ^ 4 from rfl, ← pow_add, Nat.add_sub_cancel' hk4]
  have hk64 : k < 64 := by
    rw [hk] at hsmall
    exact (Nat.pow_lt_pow_iff_right (by decide)).mp hsmall
  have hlt : 2 ^ (k - 4) < 2 ^ 64 := Nat.pow_lt_pow_right (by decide) (by omega)
  have hge : 0 < 2 ^ (k - 4) := Nat.two_pow_pos _
  refine ⟨k - 4, by omega, hcap, ?_⟩
  unfold groupMask
  rw [hcap, Nat.mul_div_cancel_left _ (by decide), BitVec.toNat_sub, BitVec.toNat_ofNat, Nat.mod_eq_of_lt hlt]
  show (2 ^ 64 - 1 + 2 ^ (k - 4)) % 2 ^ 64 = 2 ^ (k - 4) - 1
  rw [show 2 ^ 64 - 1 + 2 ^ (k - 4) = 2 ^ (k - 4) - 1 + 2 ^ 64 by omega, Nat.add_mod_right, Nat.mod_eq_of_lt (by omega)]

theorem home_group (hs : t.Shaped) {b : Nat} (hcap : t.cap = groupWidth * 2 ^ b) (key : K) :
    t.home ops key / groupWidth = (BitVec.ofNat 64 ((ops.hash key).toNat / groupWidth)).toNat % 2 ^ b := by
  have hlt : (ops.hash key).toNat / groupWidth < 2 ^ 64 :=
    Nat.lt_of_le_of_lt (Nat.div_le_self _ _) (ops.hash key).toNat_lt
  unfold home
  rw [hs.wrap_eq, hcap, Nat.mod_mul_right_div_self, BitVec.toNat_ofNat, Nat.mod_eq_of_lt hlt]

theorem scanStep_of_pos (hpos : 0 < t.cap) (cursor : BitVec 64) : t.scanStep ops cursor =
    (ReverseCursor.advance t.groupMask cursor, t.visitHomeGroup ops (cursor &&& t.groupMask).toNat) :=
  if_neg (by omega)

theorem toNat_and_groupMask {b : Nat} (hmask : t.groupMask.toNat = 2 ^ b - 1) (cursor : BitVec 64) :
    (cursor &&& t.groupMask).toNat = cursor.toNat % 2 ^ b := by
  rw [BitVec.toNat_and, hmask, Nat.and_two_pow_sub_one_eq_mod]

end Table

end Kevy.Map
