import Kevy.Persist.Record

/-!
# The table-driven checksum

`crc32c_sw` takes eight bytes a step through eight tables. Each table entry is the one of the table
before it pushed through one more byte step, and a byte step is linear over exclusive or, so eight bytes
at once (`crcEight_eq`) and therefore the whole loop (`crc32cSw_eq`) come to the checksum taken a byte at
a time.
-/

namespace Kevy.Persist

open Kevy.Resp

/-! ## The code -/

def crcTables : (k : Nat) → (i : UInt32) → UInt32
  | 0, i => crcTable i
  | k + 1, i => (crcTables k i >>> 8) ^^^ crcTable (crcTables k i &&& 0xFF)

def fromLeBytes (b0 b1 b2 b3 : UInt8) : UInt32 :=
  b0.toUInt32 ^^^ (b1.toUInt32 <<< 8) ^^^ (b2.toUInt32 <<< 16) ^^^ (b3.toUInt32 <<< 24)

/-- One step of the chunk loop of `crc32c_sw`. -/
def crcEight (crc : UInt32) (b0 b1 b2 b3 b4 b5 b6 b7 : UInt8) : UInt32 :=
  let lo := fromLeBytes b0 b1 b2 b3 ^^^ crc
  let hi := fromLeBytes b4 b5 b6 b7
  crcTables 7 (lo &&& 0xFF) ^^^ crcTables 6 ((lo >>> 8) &&& 0xFF) ^^^
    crcTables 5 ((lo >>> 16) &&& 0xFF) ^^^ crcTables 4 (lo >>> 24) ^^^
    crcTables 3 (hi &&& 0xFF) ^^^ crcTables 2 ((hi >>> 8) &&& 0xFF) ^^^
    crcTables 1 ((hi >>> 16) &&& 0xFF) ^^^ crcTables 0 (hi >>> 24)

/-- The two loops of `crc32c_sw`: whole chunks of eight, then what is left a byte at a time. -/
def crcChunks : (crc : UInt32) → (data : Bytes) → UInt32
  | crc, b0 :: b1 :: b2 :: b3 :: b4 :: b5 :: b6 :: b7 :: rest =>
    crcChunks (crcEight crc b0 b1 b2 b3 b4 b5 b6 b7) rest
  | crc, tail => tail.foldl crcByte crc

def crc32cSw (crc : UInt32) (data : Bytes) : UInt32 := ~~~ crcChunks (~~~ crc) data

/-! ## A byte step is linear -/

def crcShift (crc : UInt32) : UInt32 :=
  if crc &&& 1 ≠ 0 then (crc >>> 1) ^^^ 0x82F63B78 else crc >>> 1

theorem crcTable_eq (i : UInt32) : crcTable i = crcShift (crcShift (crcShift (crcShift
    (crcShift (crcShift (crcShift (crcShift i))))))) := rfl

theorem low_bit (x : UInt32) : x &&& 1 = 0 ∨ x &&& 1 = 1 := by
  have h : (x &&& 1).toNat = x.toNat % 2 := by
    rw [UInt32.toNat_and]
    exact Nat.and_one_is_mod _
  rcases Nat.mod_two_eq_zero_or_one x.toNat with h0 | h1
  · left
    apply UInt32.toNat_inj.mp
    rw [h, h0]
    rfl
  · right
    apply UInt32.toNat_inj.mp
    rw [h, h1]
    rfl

theorem and_xor (x y m : UInt32) : (x ^^^ y) &&& m = (x &&& m) ^^^ (y &&& m) := by
  apply UInt32.toNat_inj.mp
  rw [UInt32.toNat_and, UInt32.toNat_xor, UInt32.toNat_xor, UInt32.toNat_and, UInt32.toNat_and]
  exact Nat.and_xor_distrib_right

theorem xor_left_comm (x y z : UInt32) : x ^^^ (y ^^^ z) = y ^^^ (x ^^^ z) := by
  rw [← UInt32.xor_assoc, UInt32.xor_comm x y, UInt32.xor_assoc]

theorem crcShift_xor (x y : UInt32) : crcShift (x ^^^ y) = crcShift x ^^^ crcShift y := by
  have hand : (x ^^^ y) &&& 1 = (x &&& 1) ^^^ (y &&& 1) := and_xor x y 1
  have hshift : (x ^^^ y) >>> 1 = (x >>> 1) ^^^ (y >>> 1) := UInt32.shiftRight_xor
  rw [crcShift, crcShift, crcShift, hand, hshift]
  rcases low_bit x with hx | hx <;> rcases low_bit y with hy | hy <;>
    simp [hx, hy, UInt32.xor_assoc, UInt32.xor_comm, xor_left_comm]

theorem crcTable_xor (x y : UInt32) : crcTable (x ^^^ y) = crcTable x ^^^ crcTable y := by
  rw [crcTable_eq, crcTable_eq x, crcTable_eq y]
  simp only [crcShift_xor]

/-- A byte step once the byte is in: the low byte through the table, the others down by one. -/
def crcPush (x : UInt32) : UInt32 := (x >>> 8) ^^^ crcTable (x &&& 0xFF)

theorem crcPush_xor (x y : UInt32) : crcPush (x ^^^ y) = crcPush x ^^^ crcPush y := by
  rw [crcPush, crcPush, crcPush, UInt32.shiftRight_xor, and_xor, crcTable_xor]
  simp [UInt32.xor_assoc, xor_left_comm]

theorem byte_shiftRight (b : UInt8) : b.toUInt32 >>> 8 = 0 := by
  apply UInt32.toNat_inj.mp
  rw [UInt32.toNat_shiftRight]
  simpa [Nat.shiftRight_eq_div_pow] using b.toNat_lt

theorem crcByte_eq (crc : UInt32) (b : UInt8) : crcByte crc b = crcPush (crc ^^^ b.toUInt32) := by
  rw [crcByte, crcPush, UInt32.shiftRight_xor, byte_shiftRight, UInt32.xor_zero]

theorem and_byte (n : Nat) : n &&& 255 = n % 256 := Nat.and_two_pow_sub_one_eq_mod n 8

theorem shiftLeft_low (x : UInt32) : (x <<< 8) &&& 0xFF = 0 := by
  apply UInt32.toNat_inj.mp
  simp [UInt32.toNat_and, UInt32.toNat_shiftLeft, Nat.shiftLeft_eq, and_byte]

theorem shiftLeft_shiftRight {x : UInt32} (h : x.toNat < 2 ^ 24) : (x <<< 8) >>> 8 = x := by
  apply UInt32.toNat_inj.mp
  simp [UInt32.toNat_shiftRight, UInt32.toNat_shiftLeft, Nat.shiftRight_eq_div_pow, Nat.shiftLeft_eq]
  omega

theorem shiftRight_top (x : UInt32) : (x >>> 24) &&& (0xFF : UInt32) = x >>> 24 := by
  apply UInt32.toNat_inj.mp
  have h := x.toNat_lt
  simp [UInt32.toNat_and, UInt32.toNat_shiftRight, Nat.shiftRight_eq_div_pow, and_byte]
  omega

theorem crcPush_shiftLeft {x : UInt32} (h : x.toNat < 2 ^ 24) : crcPush (x <<< 8) = x := by
  have hzero : crcTable 0 = 0 := by decide
  rw [crcPush, shiftLeft_low, shiftLeft_shiftRight h, hzero, UInt32.xor_zero]

/-! ## Eight bytes at once -/

theorem crcPush_byte (b : UInt8) : crcPush (b.toUInt32 <<< 8) = b.toUInt32 := by
  apply crcPush_shiftLeft
  have := b.toNat_lt
  rw [UInt8.toNat_toUInt32]
  omega

theorem crcPush_byte_two (b : UInt8) : crcPush (b.toUInt32 <<< 16) = b.toUInt32 <<< 8 := by
  have hb := b.toNat_lt
  have hshift : b.toUInt32 <<< 16 = (b.toUInt32 <<< 8) <<< 8 := by
    apply UInt32.toNat_inj.mp
    simp [UInt32.toNat_shiftLeft, Nat.shiftLeft_eq]
    omega
  rw [hshift]
  apply crcPush_shiftLeft
  simp [UInt32.toNat_shiftLeft, Nat.shiftLeft_eq]
  omega

theorem crcPush_byte_three (b : UInt8) : crcPush (b.toUInt32 <<< 24) = b.toUInt32 <<< 16 := by
  have hb := b.toNat_lt
  have hshift : b.toUInt32 <<< 24 = (b.toUInt32 <<< 16) <<< 8 := by
    apply UInt32.toNat_inj.mp
    simp [UInt32.toNat_shiftLeft, Nat.shiftLeft_eq]
    omega
  rw [hshift]
  apply crcPush_shiftLeft
  simp [UInt32.toNat_shiftLeft, Nat.shiftLeft_eq]
  omega

theorem crcByte_four (crc : UInt32) (b0 b1 b2 b3 : UInt8) : crcByte (crcByte (crcByte (crcByte crc b0) b1) b2) b3 =
      crcPush (crcPush (crcPush (crcPush (fromLeBytes b0 b1 b2 b3 ^^^ crc)))) := by
  simp only [crcByte_eq, fromLeBytes, crcPush_xor, crcPush_byte, crcPush_byte_two, crcPush_byte_three]
  simp only [UInt32.xor_comm, xor_left_comm]

theorem crcPush_four (x : UInt32) : crcPush (crcPush (crcPush (crcPush x))) =
    crcTables 3 (x &&& 0xFF) ^^^ crcTables 2 ((x >>> 8) &&& 0xFF) ^^^
      crcTables 1 ((x >>> 16) &&& 0xFF) ^^^ crcTables 0 (x >>> 24) := by
  have hstep (k : Nat) (i : UInt32) : crcPush (crcTables k i) = crcTables (k + 1) i := rfl
  have hpush (y : UInt32) : crcPush y = (y >>> 8) ^^^ crcTables 0 (y &&& 0xFF) := rfl
  have h16 : x >>> 8 >>> 8 = x >>> 16 := by
    apply UInt32.toNat_inj.mp
    simp [UInt32.toNat_shiftRight, Nat.shiftRight_eq_div_pow, Nat.div_div_eq_div_mul]
  have h24 : x >>> 16 >>> 8 = x >>> 24 := by
    apply UInt32.toNat_inj.mp
    simp [UInt32.toNat_shiftRight, Nat.shiftRight_eq_div_pow, Nat.div_div_eq_div_mul]
  have h32 : x >>> 24 >>> 8 = 0 := by
    apply UInt32.toNat_inj.mp
    simpa [UInt32.toNat_shiftRight, Nat.shiftRight_eq_div_pow, Nat.div_div_eq_div_mul] using x.toNat_lt
  rw [hpush x, crcPush_xor, hstep, hpush (x >>> 8), h16, crcPush_xor, crcPush_xor, crcPush_xor, hstep,
    hstep, hstep, hpush (x >>> 16), h24, crcPush_xor, crcPush_xor, hstep, hstep, hpush (x >>> 24), h32,
    shiftRight_top, UInt32.zero_xor]
  simp only [Nat.reduceAdd, UInt32.xor_assoc, UInt32.xor_comm]

theorem crcEight_eq (crc : UInt32) (b0 b1 b2 b3 b4 b5 b6 b7 : UInt8) :
    crcEight crc b0 b1 b2 b3 b4 b5 b6 b7 = [b0, b1, b2, b3, b4, b5, b6, b7].foldl crcByte crc := by
  have hstep (k : Nat) (i : UInt32) : crcPush (crcTables k i) = crcTables (k + 1) i := rfl
  simp only [List.foldl_cons, List.foldl_nil]
  rw [crcByte_four, crcByte_four, crcPush_xor, crcPush_xor, crcPush_xor, crcPush_xor,
    crcPush_four (fromLeBytes b4 b5 b6 b7), crcPush_four (fromLeBytes b0 b1 b2 b3 ^^^ crc)]
  simp only [crcPush_xor, hstep, Nat.reduceAdd]
  rw [crcEight]
  simp only [UInt32.xor_assoc, UInt32.xor_comm, xor_left_comm]

theorem crcChunks_eq (crc : UInt32) (data : Bytes) : crcChunks crc data = data.foldl crcByte crc := by
  induction crc, data using crcChunks.induct with
  | case1 crc b0 b1 b2 b3 b4 b5 b6 b7 rest ih =>
    rw [crcChunks, ih, crcEight_eq, ← List.foldl_append]
    rfl
  | case2 crc tail hshort => rw [crcChunks.eq_2 _ _ hshort]

theorem crc32cSw_eq (crc : UInt32) (data : Bytes) : crc32cSw crc data = crc32cAppend crc data := by
  rw [crc32cSw, crcChunks_eq, crc32cAppend]

theorem crc32cAppend_append (crc : UInt32) (xs ys : Bytes) :
    crc32cAppend crc (xs ++ ys) = crc32cAppend (crc32cAppend crc xs) ys := by
  simp [crc32cAppend]

/-! ## Damage -/

open List

variable {s t x y : UInt32} {xs ys post : Bytes}

theorem crcPush_inj (h : crcPush x = crcPush y) : x = y := by
  rw [← UInt32.xor_eq_zero_iff, ← crcPush_xor] at *
  generalize x ^^^ y = z at h ⊢
  -- no table entry but the first is below `2 ^ 24`
  have htop : ∀ n < 256, (crcTable (.ofNat n)).toNat < 2 ^ 24 → n = 0 := by decide +kernel
  have hlow : z &&& 0xFF = .ofNat (z.toNat % 256) := by
    apply UInt32.toNat_inj.mp
    simp [UInt32.toNat_and, and_byte]
    omega
  have hdiv : (z >>> 8).toNat = z.toNat / 256 := by
    simp [UInt32.toNat_shiftRight, Nat.shiftRight_eq_div_pow]
  have hrest := UInt32.xor_eq_zero_iff.mp h
  rw [hlow] at hrest
  have hmod := htop _ (Nat.mod_lt z.toNat (by decide)) (by rw [← hrest, hdiv]; have := z.toNat_lt; omega)
  rw [hrest, hmod, show (crcTable (.ofNat 0)).toNat = 0 by decide] at hdiv
  exact UInt32.toNat_inj.mp (by rw [UInt32.toNat_zero]; omega)

theorem foldl_crcByte_inj (h : post.foldl crcByte s = post.foldl crcByte t) : s = t := by
  induction post generalizing s t with
  | nil => exact h
  | cons b post ih =>
    have hstep := ih h
    rw [crcByte_eq, crcByte_eq] at hstep
    simpa using crcPush_inj hstep

/-- Over `n` bytes, four at most, registers come together only if they differ in their low `n` bytes alone. -/
theorem foldl_crcByte_short (hlen : xs.length = ys.length) (hshort : xs.length ≤ 4)
    (h : xs.foldl crcByte s = ys.foldl crcByte t) : (s ^^^ t).toNat < 2 ^ (8 * xs.length) ∧ (s = t → xs = ys) := by
  induction xs generalizing ys s t with
  | nil =>
    obtain rfl := length_eq_zero_iff.mp hlen.symm
    rw [show s = t from h, UInt32.xor_self]
    exact ⟨by decide, fun _ => rfl⟩
  | cons b xs ih =>
    obtain ⟨c, ys, rfl⟩ := exists_cons_of_length_eq_add_one hlen.symm
    rw [length_cons] at hshort ⊢
    obtain ⟨hlt, heq⟩ := ih (Nat.succ.inj hlen) (by omega) h
    have hpow : 2 ^ (8 * xs.length) ≤ 2 ^ 24 := Nat.pow_le_pow_right (by decide) (by omega)
    have hsucc : 2 ^ (8 * (xs.length + 1)) = 2 ^ (8 * xs.length) * 256 := by rw [Nat.mul_succ, Nat.pow_add]
    have hbyte := (b ^^^ c).toNat_lt
    generalize hd : crcByte s b ^^^ crcByte t c = d at hlt
    -- what is small behind the step came from one byte further up
    have hdiff : d <<< 8 = (s ^^^ t) ^^^ (b ^^^ c).toUInt32 := by
      apply crcPush_inj
      rw [crcPush_shiftLeft (by omega), ← hd, crcByte_eq, crcByte_eq, ← crcPush_xor, UInt8.toUInt32_xor]
      simp only [UInt32.xor_assoc, xor_left_comm]
    have hshift : (d <<< 8).toNat = d.toNat * 256 := by
      simp [UInt32.toNat_shiftLeft, Nat.shiftLeft_eq]
      omega
    constructor
    · have hst : s ^^^ t = d <<< 8 ^^^ (b ^^^ c).toUInt32 := by
        rw [hdiff, UInt32.xor_assoc, UInt32.xor_self, UInt32.xor_zero]
      rw [hst, UInt32.toNat_xor, hshift, UInt8.toNat_toUInt32]
      apply Nat.xor_lt_two_pow <;> omega
    · rintro rfl
      rw [hdiff, UInt32.xor_self, UInt32.zero_xor, UInt8.toNat_toUInt32] at hshift
      have hbc : b ^^^ c = 0 := UInt8.toNat_inj.mp (by rw [UInt8.toNat_zero]; omega)
      obtain rfl := UInt8.xor_eq_zero_iff.mp hbc
      rw [heq rfl]

/-- **Damage is seen**: a record is refused when up to four neighbouring bytes of its payload are not what they were. -/
theorem damaged_record_is_refused (file file' pre xs ys post payload : Bytes) (pos n n' : Nat)
    (hread : nextRecord file pos = .ok (pre ++ xs ++ post) n) (hlen : xs.length = ys.length) (hshort : xs.length ≤ 4)
    (hne : xs ≠ ys) (hhead : (file'.drop pos).take recordHeader = (file.drop pos).take recordHeader)
    (hpay : (file'.drop (pos + recordHeader)).take (pre ++ ys ++ post).length = pre ++ ys ++ post) :
    nextRecord file' pos ≠ .ok payload n' := by
  intro hread'
  obtain ⟨len, hl, -, -, -, hplen, -, -, hsum⟩ := nextRecord_ok hread
  obtain ⟨len', hl', -, -, hp, -, -, -, hsum'⟩ := nextRecord_ok hread'
  have hsize := congrArg (take 4) hhead
  have hstored := congrArg (drop 4) hhead
  simp only [take_take, drop_take, drop_drop, recordHeader, Nat.reduceSub, Nat.reduceLeDiff, Nat.min_eq_left]
    at hsize hstored
  rw [hl', hsize, ← hl, ← hplen, length_append, length_append, hlen, ← length_append, ← length_append, hpay] at hp
  rw [hstored, ← hsum, hp, UInt32.toNat_inj] at hsum'
  simp only [crc32c, crc32cAppend, foldl_append, UInt32.not_inj] at hsum'
  exact hne ((foldl_crcByte_short hlen hshort (foldl_crcByte_inj hsum'.symm)).2 rfl)

theorem damaged_record_is_refused_byte :
    nextRecord ((writeRecord [7]).take recordHeader ++ [8]) 0 ≠ .ok [8] 9 :=
  damaged_record_is_refused (writeRecord [7]) _ [] [7] [8] [] _ 0 9 _ (by decide +kernel) rfl (by decide) (by decide)
    (by decide +kernel) (by decide +kernel)

end Kevy.Persist
