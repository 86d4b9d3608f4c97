import Mathlib.Data.Nat.Bitwise

/-!
# Cursors that count in reversed bits

A cursor of `w` bits picks one of `2 ^ b` groups by its low bits, and is advanced by adding one to the reversed bits
above the others. Read backwards, a cursor is a position below `2 ^ w`, a group is an interval of positions, and an
advance goes to the end of the interval. However the number of groups changes between the steps, the intervals of a
sweep from zero to zero leave no position out.
-/

namespace Kevy.Lib.ReverseCursor

variable {w b : Nat}

/-- The position of a cursor: its bits, read backwards. -/
def pos (c : BitVec w) : Nat := c.reverse.toNat

def advance (mask c : BitVec w) : BitVec w := ((c ||| ~~~mask).reverse + 1).reverse

theorem testBit_pos (c : BitVec w) (i : Nat) : (pos c).testBit i = (decide (i < w) && c.getLsbD (w - 1 - i)) := by
  unfold pos
  rw [BitVec.testBit_toNat, BitVec.getLsbD_reverse, BitVec.getMsbD_eq_getLsbD]

theorem pos_lt (c : BitVec w) : pos c < 2 ^ w := c.reverse.isLt

theorem pos_eq_zero {c : BitVec w} : pos c = 0 ↔ c = 0 := by
  constructor
  · intro h
    have hrev : c.reverse = 0 := BitVec.eq_of_toNat_eq (h.trans (BitVec.toNat_zero).symm)
    rw [← BitVec.reverse_reverse_eq (x := c), hrev]
    simp
  · rintro rfl
    refine Nat.eq_of_testBit_eq fun i => ?_
    rw [testBit_pos]
    simp

theorem getLsbD_mask {mask : BitVec w} (hmask : mask.toNat = 2 ^ b - 1) (i : Nat) : mask.getLsbD i = decide (i < b) := by
  rw [← BitVec.testBit_toNat, hmask, Nat.testBit_two_pow_sub_one]

theorem pos_advance (hb : b ≤ w) {mask : BitVec w} (hmask : mask.toNat = 2 ^ b - 1) (c : BitVec w) :
    pos (advance mask c) = (pos c / 2 ^ (w - b) + 1) * 2 ^ (w - b) % 2 ^ w := by
  have hpow : 0 < 2 ^ (w - b) := Nat.two_pow_pos _
  have hfilled : (c ||| ~~~mask).reverse.toNat = 2 ^ (w - b) * (pos c / 2 ^ (w - b)) + (2 ^ (w - b) - 1) := by
    refine Nat.eq_of_testBit_eq fun i => ?_
    rw [Nat.testBit_two_pow_mul_add _ (by omega), BitVec.testBit_toNat, BitVec.getLsbD_reverse,
      BitVec.getMsbD_eq_getLsbD, BitVec.getLsbD_or, BitVec.getLsbD_not, getLsbD_mask hmask,
      Nat.testBit_two_pow_sub_one, Nat.testBit_div_two_pow, testBit_pos]
    by_cases hi : i < w
    · have hmirror : w - 1 - i < w := by omega
      split_ifs with hlow
      · simp only [hi, hmirror, hlow, show ¬ w - 1 - i < b by omega]
        simp
      · simp only [hi, hmirror, show i - (w - b) + (w - b) = i by omega, show w - 1 - i < b by omega]
        simp
    · rw [if_neg (by omega)]
      simp [hi, show ¬ i - (w - b) + (w - b) < w by omega]
  unfold advance
  rw [pos, BitVec.reverse_reverse_eq, BitVec.toNat_add, hfilled, show (1 : BitVec w) = BitVec.ofNat w 1 from rfl,
    BitVec.toNat_ofNat, Nat.add_mod_mod, Nat.add_one_mul, Nat.mul_comm]
  congr 1
  omega

theorem low_eq_iff (hb : b ≤ w) (c x : BitVec w) :
    c.toNat % 2 ^ b = x.toNat % 2 ^ b ↔ pos c / 2 ^ (w - b) = pos x / 2 ^ (w - b) := by
  have hbit : ∀ (y : BitVec w) i, (y.toNat % 2 ^ b).testBit i = (decide (i < b) && y.getLsbD i) := by
    intro y i
    rw [Nat.testBit_mod_two_pow, BitVec.testBit_toNat]
  have hpos : ∀ (y : BitVec w) i, (pos y / 2 ^ (w - b)).testBit i = (decide (i < b) && y.getLsbD (b - 1 - i)) := by
    intro y i
    rw [Nat.testBit_div_two_pow, testBit_pos]
    by_cases hi : i < b
    · rw [show w - 1 - (i + (w - b)) = b - 1 - i by omega]
      simp [hi, show i + (w - b) < w by omega]
    · simp [hi, show ¬ i + (w - b) < w by omega]
  constructor
  · intro h
    refine Nat.eq_of_testBit_eq fun i => ?_
    rw [hpos, hpos]
    by_cases hi : i < b
    · have hsame := congrArg (fun n => n.testBit (b - 1 - i)) h
      simp only [hbit, show b - 1 - i < b by omega] at hsame
      simpa [hi] using hsame
    · simp [hi]
  · intro h
    refine Nat.eq_of_testBit_eq fun i => ?_
    rw [hbit, hbit]
    by_cases hi : i < b
    · have hsame := congrArg (fun n => n.testBit (b - 1 - i)) h
      simp only [hpos, show b - 1 - i < b by omega, show b - 1 - (b - 1 - i) = i by omega] at hsame
      simpa [hi] using hsame
    · simp [hi]

/-! ## Sweeps -/

section Sweep

variable {bits : Nat → Nat} {mask c : Nat → BitVec w} {n : Nat}

/-- **No position is left out**: between a start at zero and a return to zero, every value shares its group with the
cursor at some step, whatever the numbers of groups. -/
theorem exists_visit (hbits : ∀ i, i ≤ n → bits i ≤ w ∧ (mask i).toNat = 2 ^ bits i - 1) (hstart : c 0 = 0)
    (hstep : ∀ i, i ≤ n → c (i + 1) = advance (mask i) (c i)) (hend : c (n + 1) = 0) (x : BitVec w) :
    ∃ i, i ≤ n ∧ (c i).toNat % 2 ^ bits i = x.toNat % 2 ^ bits i := by
  by_contra hnone
  push Not at hnone
  -- the cursor never gets past a position that was not visited
  have hbelow : ∀ i, i ≤ n → pos (c i) ≤ pos x → (pos (c i) / 2 ^ (w - bits i) + 1) * 2 ^ (w - bits i) ≤ pos x := by
    intro i hi hle
    obtain ⟨hb, -⟩ := hbits i hi
    by_contra hgt
    refine hnone i hi ((low_eq_iff hb _ _).mpr (Nat.div_eq_of_lt_le ?_ (by omega)).symm)
    exact (Nat.div_mul_le_self _ _).trans hle
  have hrun : ∀ i, i ≤ n + 1 → pos (c i) ≤ pos x ∧ (0 < i → 0 < pos (c i)) := by
    intro i hi
    induction i with
    | zero =>
      rw [hstart, pos_eq_zero.mpr rfl]
      exact ⟨Nat.zero_le _, fun h => absurd h (Nat.lt_irrefl 0)⟩
    | succ i ih =>
      have hend := hbelow i (by omega) (ih (by omega)).1
      obtain ⟨hb, hmask⟩ := hbits i (by omega)
      rw [hstep i (by omega), pos_advance hb hmask, Nat.mod_eq_of_lt (Nat.lt_of_le_of_lt hend (pos_lt x))]
      exact ⟨hend, fun _ => Nat.mul_pos (Nat.succ_pos _) (Nat.two_pow_pos _)⟩
  have hlast := (hrun (n + 1) le_rfl).2 (Nat.succ_pos n)
  rw [hend, pos_eq_zero.mpr rfl] at hlast
  exact Nat.lt_irrefl 0 hlast

section Const

variable {mask : BitVec w} (hb : b ≤ w) (hmask : mask.toNat = 2 ^ b - 1) (hstart : c 0 = 0)
  (hstep : ∀ i, c (i + 1) = advance mask (c i))
include hb hmask hstart hstep

theorem pos_of_const (i : Nat) : pos (c i) = 2 ^ (w - b) * (i % 2 ^ b) := by
  have hpow : 0 < 2 ^ (w - b) := Nat.two_pow_pos _
  induction i with
  | zero => rw [hstart, pos_eq_zero.mpr rfl, Nat.zero_mod, Nat.mul_zero]
  | succ i ih =>
    rw [hstep, pos_advance hb hmask, ih, Nat.mul_div_cancel_left _ hpow, Nat.mul_comm,
      show 2 ^ w = 2 ^ (w - b) * 2 ^ b by rw [← pow_add, Nat.sub_add_cancel hb], Nat.mul_mod_mul_left, Nat.mod_add_mod]

theorem eq_zero_iff_of_const (i : Nat) : c i = 0 ↔ 2 ^ b ∣ i := by
  have hpow : 0 < 2 ^ (w - b) := Nat.two_pow_pos _
  rw [← pos_eq_zero, pos_of_const hb hmask hstart hstep, Nat.mul_eq_zero, Nat.dvd_iff_mod_eq_zero]
  exact or_iff_right hpow.ne'

theorem group_inj_of_const {i j : Nat} (hi : i < 2 ^ b) (hj : j < 2 ^ b)
    (hij : (c i).toNat % 2 ^ b = (c j).toNat % 2 ^ b) : i = j := by
  have hplace : ∀ k, k < 2 ^ b → pos (c k) / 2 ^ (w - b) = k := by
    intro k hk
    rw [pos_of_const hb hmask hstart hstep, Nat.mul_div_cancel_left _ (Nat.two_pow_pos _), Nat.mod_eq_of_lt hk]
  rw [low_eq_iff hb, hplace i hi, hplace j hj] at hij
  exact hij

end Const

end Sweep

end Kevy.Lib.ReverseCursor
