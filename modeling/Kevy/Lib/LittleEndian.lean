import Mathlib.Algebra.Group.Nat.Defs
import Mathlib.Data.List.Basic

/-!
# Fixed-width little-endian numbers

`leBytes w n` is `n` in `w` bytes, low byte first (`to_le_bytes`, after the cut to `w` bytes), and `ofLe`
reads such bytes back (`from_le_bytes`).
-/

namespace Kevy.Lib

def leBytes : (w n : Nat) → List UInt8
  | 0, _ => []
  | w + 1, n => UInt8.ofNat (n % 256) :: leBytes w (n / 256)

/-- The number a little-endian byte string spells. -/
def ofLe : List UInt8 → Nat
  | [] => 0
  | b :: bs => b.toNat + 256 * ofLe bs

@[simp] theorem length_leBytes : ∀ w n : Nat, (leBytes w n).length = w
  | 0, _ => rfl
  | w + 1, n => by rw [leBytes, List.length_cons, length_leBytes w]

theorem ofLe_leBytes : ∀ w n : Nat, ofLe (leBytes w n) = n % 256 ^ w
  | 0, n => by rw [leBytes, ofLe, Nat.pow_zero, Nat.mod_one]
  | w + 1, n => by
    have hb : (UInt8.ofNat (n % 256)).toNat = n % 256 :=
      UInt8.toNat_ofNat_of_lt' (Nat.mod_lt _ (by decide))
    rw [leBytes, ofLe, ofLe_leBytes w, hb, Nat.pow_succ, Nat.mul_comm (256 ^ w) 256, Nat.mod_mul]

theorem ofLe_leBytes_of_lt {w n : Nat} (h : n < 256 ^ w) : ofLe (leBytes w n) = n := by
  rw [ofLe_leBytes, Nat.mod_eq_of_lt h]

theorem ofLe_eq_zero : ∀ {bs : List UInt8}, ofLe bs = 0 ↔ ∀ b ∈ bs, b = 0
  | [] => by simp [ofLe]
  | b :: bs => by
    have ih := @ofLe_eq_zero bs
    have hb : b.toNat = 0 ↔ b = 0 := by
      rw [← UInt8.toNat_inj]
      rfl
    rw [ofLe, List.forall_mem_cons, ← ih, ← hb]
    omega

end Kevy.Lib
