import Kevy.Lib.ByteOrder

/-!
# Framed byte strings

Byte strings one behind the other, each with its zero bytes escaped and ended by a mark that sorts below every
continuation: the whole compares as the tuple of its parts does.
-/

namespace Kevy.Lib

open List

/-- A zero byte becomes `00 ff`, and `00 00` ends the string. -/
def frame : List UInt8 → List UInt8
  | [] => [0, 0]
  | c :: b => if c = 0 then 0 :: 255 :: frame b else c :: frame b

/-- The first framed string, and what stands behind it. -/
def unframe : List UInt8 → Option (List UInt8 × List UInt8)
  | [] => none
  | c :: b =>
    if c ≠ 0 then (unframe b).map fun p => (c :: p.1, p.2)
    else
      match b with
      | [] => none
      | d :: b =>
        if d = 255 then (unframe b).map fun p => (0 :: p.1, p.2) else if d = 0 then some ([], b) else none

/-- Above everything that starts with the frame of `b`, and below the frame of everything larger. -/
def frameEnd (b : List UInt8) : List UInt8 := (frame b).dropLast ++ [1]

variable {c : UInt8} {x y p q : List UInt8}

theorem frame_cons_zero (b : List UInt8) : frame (0 :: b) = 0 :: 255 :: frame b := rfl

theorem frame_cons (h : c ≠ 0) (b : List UInt8) : frame (c :: b) = c :: frame b := by
  rw [frame, if_neg h]

theorem frame_ne_nil : ∀ b : List UInt8, frame b ≠ []
  | [] => by simp [frame]
  | c :: b => by
    rw [frame]
    split <;> simp

theorem frameEnd_cons_zero (b : List UInt8) : frameEnd (0 :: b) = 0 :: 255 :: frameEnd b := by
  rw [frameEnd, frame_cons_zero, dropLast_cons_of_ne_nil (by simp), dropLast_cons_of_ne_nil (frame_ne_nil b)]
  rfl

theorem frameEnd_cons (h : c ≠ 0) (b : List UInt8) : frameEnd (c :: b) = c :: frameEnd b := by
  rw [frameEnd, frame_cons h, dropLast_cons_of_ne_nil (frame_ne_nil b)]
  rfl

theorem unframe_frame (b rest : List UInt8) : unframe (frame b ++ rest) = some (b, rest) := by
  induction b with
  | nil => rfl
  | cons c b ih =>
    by_cases hc : c = 0
    · subst hc
      simp [frame_cons_zero, unframe, ih]
    · simp [frame_cons hc, unframe.eq_def (c :: _), hc, ih]

private theorem zero_lt (h : c ≠ 0) : 0 < c := by
  rw [UInt8.lt_iff_toNat_lt]
  exact Nat.pos_of_ne_zero fun h0 => h (UInt8.toNat_inj.mp h0)

/-- **Frames compare as what they hold**, and where they agree what stands behind them decides. -/
theorem frame_append_lt : frame x ++ p < frame y ++ q ↔ x < y ∨ x = y ∧ p < q := by
  induction x generalizing y with
  | nil =>
    cases y with
    | nil => simp [frame]
    | cons d y =>
      by_cases hd : d = 0
      · subst hd
        simp [frame, cons_lt_cons_iff, zero_lt]
      · simp [frame, hd, cons_lt_cons_iff, zero_lt hd]
  | cons c x ih =>
    cases y with
    | nil =>
      by_cases hc : c = 0
      · subst hc
        simp [frame, cons_lt_cons_iff, -not_lt]
      · simp [frame, cons_lt_cons_iff, hc, -not_lt]
    | cons d y =>
      by_cases hc : c = 0 <;> by_cases hd : d = 0
      · subst hc hd
        simp [frame, ih]
      · subst hc
        simp [frame_cons_zero, frame_cons hd, cons_lt_cons_iff, zero_lt hd]
      · subst hd
        simp [frame_cons_zero, frame_cons hc, cons_lt_cons_iff, hc]
      · simp only [frame_cons hc, frame_cons hd, cons_append, cons_lt_cons_iff, ih, List.cons.injEq]
        tauto

theorem frame_le_append : frame x ≤ frame y ++ q ↔ x ≤ y := by
  have h := @frame_append_lt y x q []
  rw [append_nil] at h
  rw [← not_lt, h, ← not_lt]
  simp

theorem append_le_frameEnd : frame x ++ p ≤ frameEnd y ↔ x ≤ y := by
  rw [← not_lt, ← not_lt, not_iff_not]
  induction x generalizing y with
  | nil =>
    cases y with
    | nil => simp [frame, frameEnd, cons_lt_cons_iff, -not_lt]
    | cons d y =>
      by_cases hd : d = 0
      · subst hd
        simp [frame, frameEnd_cons_zero, cons_lt_cons_iff, -not_lt]
      · simp [frame, frameEnd_cons hd, cons_lt_cons_iff, hd, -not_lt]
  | cons c x ih =>
    cases y with
    | nil =>
      by_cases hc : c = 0
      · subst hc
        simp [frame, frameEnd, cons_lt_cons_iff]
      · simp [frame, frameEnd, hc, cons_lt_cons_iff, zero_lt hc]
    | cons d y =>
      by_cases hc : c = 0 <;> by_cases hd : d = 0
      · subst hc hd
        simp [frame, frameEnd_cons_zero, ih]
      · subst hc
        simp [frame_cons_zero, frameEnd_cons hd, cons_lt_cons_iff, hd]
      · subst hd
        simp [frame_cons hc, frameEnd_cons_zero, cons_lt_cons_iff, zero_lt hc]
      · simp only [frame_cons hc, frameEnd_cons hd, cons_append, cons_lt_cons_iff, ih]

end Kevy.Lib
