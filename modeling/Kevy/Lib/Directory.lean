import Mathlib.Tactic.Ring

/-!
# Directories of extendible hashing

A directory of `2 ^ bits` slots names buckets. A bucket of depth `d` is named by exactly the slots that share one
prefix of `d` bits. The directory doubles without moving a bucket, and a bucket that is not at full depth splits into
the two halves of its slots.
-/

namespace Kevy.Lib

open List Option

variable {bits b d slot s n : Nat} {dirs depths : List Nat}

structure Directory (bits : Nat) (dirs depths : List Nat) : Prop where
  length_eq : dirs.length = 2 ^ bits
  inside : ∀ b ∈ dirs, b < depths.length
  covers : ∀ {b d : Nat}, depths[b]? = some d → d ≤ bits ∧ ∃ p, p < 2 ^ d ∧
    ∀ s, s < 2 ^ bits → (dirs[s]? = some b ↔ s / 2 ^ (bits - d) = p)

theorem Directory.single : Directory 0 [0] [0] := by
  refine ⟨rfl, by simp, fun {b d} hd => ?_⟩
  cases b with
  | succ b => cases hd
  | zero =>
    obtain rfl : 0 = d := some_inj.mp hd
    refine ⟨le_rfl, 0, by decide, fun s hs => ?_⟩
    obtain rfl : s = 0 := Nat.lt_one_iff.mp hs
    simp

theorem Directory.exists_slot (hd : Directory bits dirs depths) (hs : s < 2 ^ bits) :
    ∃ b, dirs[s]? = some b ∧ b < depths.length := by
  rw [← hd.length_eq] at hs
  exact ⟨dirs[s], getElem?_eq_getElem hs, hd.inside _ (getElem_mem hs)⟩

theorem lt_of_getElem?_eq_some {l : List Nat} (h : l[s]? = some b) : s < l.length :=
  (List.getElem?_eq_some_iff.mp h).1

/-! ## Doubling -/

def doubled (dirs : List Nat) : List Nat := dirs.flatMap fun d => [d, d]

theorem length_doubled (dirs : List Nat) : (doubled dirs).length = 2 * dirs.length := by
  induction dirs with
  | nil => rfl
  | cons d dirs ih =>
    show (doubled dirs).length + 2 = _
    rw [ih, length_cons]
    omega

theorem getElem?_doubled (dirs : List Nat) (s : Nat) : (doubled dirs)[s]? = dirs[s / 2]? := by
  induction dirs generalizing s with
  | nil => rfl
  | cons d dirs ih =>
    show (d :: d :: doubled dirs)[s]? = _
    match s with
    | 0 => rfl
    | 1 => rfl
    | s + 2 =>
      have hhalf : (s + 2) / 2 = s / 2 + 1 := by omega
      rw [getElem?_cons_succ, getElem?_cons_succ, ih, hhalf, getElem?_cons_succ]

theorem Directory.double (hd : Directory bits dirs depths) : Directory (bits + 1) (doubled dirs) depths := by
  refine ⟨?_, fun b hb => ?_, fun {b d} hdepth => ?_⟩
  · rw [length_doubled, hd.length_eq, Nat.pow_succ, Nat.mul_comm]
  · obtain ⟨b', hb', hmem⟩ := mem_flatMap.mp hb
    have heq : b = b' := by simpa using hmem
    exact heq ▸ hd.inside b' hb'
  · obtain ⟨hle, p, hp, hcover⟩ := hd.covers hdepth
    refine ⟨Nat.le_succ_of_le hle, p, hp, fun s hs => ?_⟩
    have hhalf : s / 2 < 2 ^ bits := by
      rw [Nat.pow_succ] at hs
      omega
    have hbits : bits + 1 - d = bits - d + 1 := by omega
    rw [getElem?_doubled, hcover _ hhalf, Nat.div_div_eq_div_mul, hbits, Nat.pow_succ, Nat.mul_comm 2]

/-! ## Splitting -/

/-- The upper half of the `2 ^ k` slots around `slot` is given to bucket `n`. -/
def repoint (dirs : List Nat) (k slot n : Nat) : List Nat :=
  dirs.mapIdx fun s b =>
    if slot / 2 ^ k * 2 ^ k + 2 ^ k / 2 ≤ s ∧ s < slot / 2 ^ k * 2 ^ k + 2 ^ k then n else b

theorem upper_half_iff (j p s : Nat) :
    (p * 2 ^ (j + 1) + 2 ^ (j + 1) / 2 ≤ s ∧ s < p * 2 ^ (j + 1) + 2 ^ (j + 1)) ↔ s / 2 ^ j = 2 * p + 1 := by
  have hpos : 0 < 2 ^ j := Nat.two_pow_pos j
  have hlow : p * 2 ^ (j + 1) + 2 ^ (j + 1) / 2 = (2 * p + 1) * 2 ^ j := by
    rw [Nat.pow_succ, Nat.mul_div_cancel _ (by decide)]
    ring
  have hhigh : p * 2 ^ (j + 1) + 2 ^ (j + 1) = (2 * p + 2) * 2 ^ j := by
    rw [Nat.pow_succ]
    ring
  rw [hlow, hhigh, ← Nat.le_div_iff_mul_le hpos, ← Nat.div_lt_iff_lt_mul hpos]
  omega

theorem div_two_pow_succ (s j : Nat) : s / 2 ^ (j + 1) = s / 2 ^ j / 2 := by
  rw [Nat.pow_succ, Nat.div_div_eq_div_mul]

section Split

variable (hd : Directory bits dirs depths) (hdepth : depths[b]? = some d) (hlt : d < bits)
  (hslot : dirs[slot]? = some b)

include hd hdepth hlt hslot

theorem Directory.getElem?_repoint {b' : Nat} (hs : dirs[s]? = some b') : (repoint dirs (bits - d) slot n)[s]? =
      some (if b' = b then if s / 2 ^ (bits - (d + 1)) % 2 = 0 then b else n else b') := by
  obtain ⟨-, p, -, hcover⟩ := hd.covers hdepth
  have hprefix := (hcover slot (hd.length_eq ▸ lt_of_getElem?_eq_some hslot)).mp hslot
  have hs' := hcover s (hd.length_eq ▸ lt_of_getElem?_eq_some hs)
  obtain ⟨j, hj⟩ : ∃ j, bits - d = j + 1 := ⟨bits - d - 1, by omega⟩
  have hj' : bits - (d + 1) = j := by omega
  unfold repoint
  rw [getElem?_mapIdx, hs, map_some, hprefix, hj, hj']
  simp only [upper_half_iff]
  rw [hs, hj, div_two_pow_succ] at hs'
  by_cases hb : b' = b
  · have hhalf := hs'.mp (congrArg some hb)
    rw [if_pos hb, hb]
    congr 1
    split_ifs <;> first | rfl | omega
  · have hhalf : ¬ s / 2 ^ j / 2 = p := fun h => hb (some_inj.mp (hs'.mpr h))
    rw [if_neg hb, if_neg (by omega)]

/-- **A split** of bucket `b` gives the lower half of its slots to `b` and the upper half to a new bucket. -/
theorem Directory.split :
    Directory bits (repoint dirs (bits - d) slot depths.length) (depths.set b (d + 1) ++ [d + 1]) := by
  have hrepoint := fun (s : Nat) {b' : Nat} (hs : dirs[s]? = some b') =>
    hd.getElem?_repoint (n := depths.length) hdepth hlt hslot hs
  have hb : b < depths.length := lt_of_getElem?_eq_some hdepth
  have hlen : (depths.set b (d + 1) ++ [d + 1]).length = depths.length + 1 := by
    rw [length_append, length_set, length_singleton]
  obtain ⟨-, p, hp, hcover⟩ := hd.covers hdepth
  obtain ⟨j, hj⟩ : ∃ j, bits - d = j + 1 := ⟨bits - d - 1, by omega⟩
  have hj' : bits - (d + 1) = j := by omega
  have hhalf : ∀ s, s < 2 ^ bits → (dirs[s]? = some b ↔ s / 2 ^ j / 2 = p) := by
    intro s hs
    rw [hcover s hs, hj, div_two_pow_succ]
  refine ⟨?_, fun x hx => ?_, fun {x e} hx => ?_⟩
  · unfold repoint
    rw [length_mapIdx, hd.length_eq]
  · obtain ⟨s, hs⟩ := mem_iff_getElem?.mp hx
    have hs' := lt_of_getElem?_eq_some hs
    unfold repoint at hs'
    rw [length_mapIdx, hd.length_eq] at hs'
    obtain ⟨b', hb', hin⟩ := hd.exists_slot hs'
    rw [hrepoint s hb', some_inj] at hs
    rw [hlen]
    split_ifs at hs <;> omega
  · -- the new bucket, the split bucket, and the others
    rcases Nat.lt_or_ge x depths.length with hxlt | hxge
    · rw [getElem?_append_left (by rwa [length_set])] at hx
      by_cases hxb : x = b
      · subst hxb
        rw [getElem?_set_self hb, some_inj] at hx
        subst hx
        refine ⟨hlt, 2 * p, by rw [Nat.pow_succ]; omega, fun s hs => ?_⟩
        obtain ⟨b', hb', hin⟩ := hd.exists_slot hs
        have hiff := hhalf s hs
        rw [hrepoint s hb', hj', some_inj]
        rw [hb', some_inj] at hiff
        split_ifs <;> omega
      · rw [getElem?_set_ne (Ne.symm hxb)] at hx
        obtain ⟨hle, q, hq, hcoverx⟩ := hd.covers hx
        refine ⟨hle, q, hq, fun s hs => ?_⟩
        obtain ⟨b', hb', hin⟩ := hd.exists_slot hs
        rw [← hcoverx s hs, hrepoint s hb', hb', some_inj, some_inj]
        split_ifs <;> omega
    · have hxeq : x = depths.length := by
        have hbound := lt_of_getElem?_eq_some hx
        omega
      subst hxeq
      rw [getElem?_append_right (by rw [length_set]), length_set, Nat.sub_self] at hx
      obtain rfl : d + 1 = e := some_inj.mp hx
      refine ⟨hlt, 2 * p + 1, by rw [Nat.pow_succ]; omega, fun s hs => ?_⟩
      obtain ⟨b', hb', hin⟩ := hd.exists_slot hs
      have hiff := hhalf s hs
      rw [hrepoint s hb', hj', some_inj]
      rw [hb', some_inj] at hiff
      split_ifs <;> omega

end Split

end Kevy.Lib
