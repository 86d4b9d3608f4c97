import Mathlib.Data.List.TakeWhile
import Kevy.Lib.Binary64
import Kevy.Persist.Record

/-!
# The scores of a rewritten log

A log rewrite prints each sorted-set score in decimal: a whole number below `10 ^ 17` by its digits, every
other score with seventeen digits after the point. Replay reads the text back as the nearest double.
Seventeen decimals resolve neighbouring doubles down to a sixteenth; below that the spacing shrinks and the
text does not, so a score comes back only if its own rounding error stays under half the spacing.
-/

namespace Kevy.Persist

open Lib Resp List Option

/-! ## The text -/

/-- `n / d` to the nearest whole number, ties to even. -/
def divRoundEven (n d : Nat) : Nat :=
  if 2 * (n % d) < d then n / d
  else if d < 2 * (n % d) then n / d + 1
  else if n / d % 2 = 0 then n / d else n / d + 1

def signText (neg : Bool) : Bytes := if neg then [45] else []

def paddedDecimal (width n : Nat) : Bytes := List.replicate (width - (decimal n).length) 48 ++ decimal n

def isIntegerValued (s : Finite64) : Bool := s.mag % 2 ^ Finite64.bias == 0

def fmtInteger (s : Finite64) : Bytes :=
  let n := s.mag / 2 ^ Finite64.bias
  signText (s.neg && n != 0) ++ decimal n

def decimals17 (s : Finite64) : Nat := divRoundEven (s.mag * 10 ^ 17) (2 ^ Finite64.bias)

def fmtFixed17 (s : Finite64) : Bytes :=
  signText s.neg ++ decimal (decimals17 s / 10 ^ 17) ++ 46 :: paddedDecimal 17 (decimals17 s % 10 ^ 17)

def fmtZsetScore (s : Finite64) : Bytes :=
  if isIntegerValued s && s.mag < 10 ^ 17 * 2 ^ Finite64.bias then fmtInteger s else fmtFixed17 s

/-! ## The number a text denotes -/

def unsignedValue (text : Bytes) : Option ℚ :=
  let whole := text.takeWhile isAsciiDigit
  if whole = [] then none else
    match text.dropWhile isAsciiDigit with
    | [] => some (digitsValue whole)
    | 46 :: frac => if frac.all isAsciiDigit then
        some (digitsValue whole + digitsValue frac / 10 ^ frac.length) else none
    | _ => none

def textValue (text : Bytes) : Option ℚ :=
  match text with
  | 45 :: rest => (unsignedValue rest).map (- ·)
  | _ => unsignedValue text

/-- A decimal text within the range of the doubles is read as a double nearest to it. -/
def RoundsToNearest (parse : Bytes → Option Finite64) : Prop :=
  ∀ text q, textValue text = some q → |q| ≤ Finite64.largest.value →
    ∃ y, parse text = some y ∧ Finite64.Nearest q y

def ReadsBack (parse : Bytes → Option Finite64) (s : Finite64) : Prop :=
  ∃ y, parse (fmtZsetScore s) = some y ∧ y.value = s.value

/-- The remainder nearest to zero of the significand, in multiples of `10 ^ -17`, by the score's own unit. -/
def decimalError (s : Finite64) : Int := Int.bmod (s.sig * 10 ^ 17) (2 ^ (Finite64.bias - s.exp))

/-- The score is whole, or the seventeen decimals nearest to it miss it by less than half the spacing. -/
def Resolved (s : Finite64) : Prop :=
  isIntegerValued s = true ∨
    2 * (decimalError s).natAbs < 10 ^ 17

/-! ## Reading the digits -/

theorem digitsValue_append (a b : Bytes) (h : ∀ c ∈ b, isAsciiDigit c = true) :
    digitsValue (a ++ b) = digitsValue a * 10 ^ b.length + digitsValue b := by
  induction b using List.reverseRecOn with
  | nil => simp [digitsValue]
  | append_singleton b c ih =>
    have hb := ih fun d hd => h d (mem_append_left _ hd)
    rw [← append_assoc, digitsValue, foldl_append, ← digitsValue, hb]
    simp only [digitsValue, foldl_append, foldl_cons, foldl_nil, length_append, length_cons, length_nil]
    ring

theorem digitsValue_zeros (k : Nat) : digitsValue (List.replicate k 48) = 0 := by
  induction k with
  | zero => rfl
  | succ k ih =>
    rw [replicate_succ', digitsValue, foldl_append, ← digitsValue, ih]
    rfl

theorem isAsciiDigit_paddedDecimal (width n : Nat) : ∀ b ∈ paddedDecimal width n, isAsciiDigit b = true := by
  intro b hb
  rcases mem_append.mp hb with hb | hb
  · rw [eq_of_mem_replicate hb]
    decide
  · exact isAsciiDigit_decimal n b hb

theorem digitsValue_paddedDecimal (width n : Nat) : digitsValue (paddedDecimal width n) = n := by
  rw [paddedDecimal, digitsValue_append _ _ (isAsciiDigit_decimal n), digitsValue_zeros, digitsValue_decimal]
  omega

theorem length_paddedDecimal {width n : Nat} (hw : 0 < width) (h : n < 10 ^ width) :
    (paddedDecimal width n).length = width := by
  have hlen : (decimal n).length ≤ width := by
    rw [decimal, length_map]
    exact (Nat.length_toDigits_le_iff (by decide) hw).mpr h
  rw [paddedDecimal, length_append, length_replicate]
  omega

theorem unsignedValue_decimal (n : Nat) : unsignedValue (decimal n) = some (n : ℚ) := by
  have hdigits := isAsciiDigit_decimal n
  rw [unsignedValue, takeWhile_eq_self_iff.mpr hdigits, dropWhile_eq_nil_iff.mpr hdigits,
    if_neg (decimal_ne_nil n), digitsValue_decimal]

theorem unsignedValue_fixed (n m : Nat) (hm : m < 10 ^ 17) :
    unsignedValue (decimal n ++ 46 :: paddedDecimal 17 m) = some ((n : ℚ) + m / 10 ^ 17) := by
  have hdigits := isAsciiDigit_decimal n
  have htake : (decimal n ++ 46 :: paddedDecimal 17 m).takeWhile isAsciiDigit = decimal n := by
    rw [takeWhile_append_of_pos hdigits, takeWhile_cons_of_neg (by decide), append_nil]
  have hdrop : (decimal n ++ 46 :: paddedDecimal 17 m).dropWhile isAsciiDigit = 46 :: paddedDecimal 17 m := by
    rw [dropWhile_append_of_pos hdigits, dropWhile_cons_of_neg (by decide)]
  have hfrac : (paddedDecimal 17 m).all isAsciiDigit = true :=
    List.all_eq_true.mpr (isAsciiDigit_paddedDecimal 17 m)
  rw [unsignedValue, htake, hdrop, if_neg (decimal_ne_nil n)]
  simp only [hfrac, if_true, digitsValue_decimal, digitsValue_paddedDecimal, length_paddedDecimal (by decide) hm]

theorem textValue_decimal_append (n : Nat) (rest : Bytes) :
    textValue (decimal n ++ rest) = unsignedValue (decimal n ++ rest) := by
  obtain ⟨d, ds, hcons⟩ := exists_cons_of_ne_nil (decimal_ne_nil n)
  have hd : isAsciiDigit d = true := isAsciiDigit_decimal n d (by rw [hcons]; exact mem_cons_self)
  rw [hcons, cons_append, textValue]
  intro rest' h
  rw [(List.cons.inj h).1] at hd
  revert hd
  decide

theorem textValue_signText (neg : Bool) (n : Nat) (rest : Bytes) : textValue (signText neg ++ (decimal n ++ rest)) =
      (unsignedValue (decimal n ++ rest)).map fun q => if neg then -q else q := by
  cases neg with
  | false =>
    change textValue (decimal n ++ rest) = _
    rw [textValue_decimal_append]
    simp
  | true => rfl

/-! ## The rounding error -/

theorem natAbs_sub_divRoundEven (n : Nat) {d : Nat} (hd : 0 < d) :
    ((n : Int) - divRoundEven n d * d).natAbs = (Int.bmod n d).natAbs := by
  have hr : n % d < d := Nat.mod_lt n hd
  have hn : (n : Int) = ((n / d : Nat) : Int) * d + (n % d : Nat) := by
    exact_mod_cast (Nat.div_add_mod' n d).symm
  have hmod : (n : Int) % (d : Int) = ((n % d : Nat) : Int) := (Int.natCast_emod n d).symm
  rw [Int.bmod_def, hmod]
  generalize hq : n / d = q at hn
  generalize hrem : n % d = r at hn hr
  have hup : ((q + 1 : Nat) : Int) * d = (q : Int) * d + d := by push_cast; ring
  rw [divRoundEven, hq, hrem]
  split_ifs <;> (try rw [hup]) <;> omega

theorem two_mul_natAbs_bmod_le (x : Int) {d : Nat} (hd : 0 < d) : 2 * (Int.bmod x d).natAbs ≤ d := by
  have hlow := @Int.le_bmod x d hd
  have hhigh := @Int.bmod_lt x d hd
  omega

theorem dvd_bmod {c x : Int} {d : Nat} (hd : c ∣ (d : Int)) (hx : c ∣ x) : c ∣ Int.bmod x d := by
  have hsub := Int.dvd_bmod_sub_self (x := x) (m := d)
  have := dvd_add (dvd_trans hd hsub) hx
  rwa [sub_add_cancel] at this

theorem divRoundEven_mul (n d c : Nat) (hc : 0 < c) : divRoundEven (n * c) (d * c) = divRoundEven n d := by
  have hdiv : n * c / (d * c) = n / d := Nat.mul_div_mul_right n d hc
  have hmod : n * c % (d * c) = n % d * c := Nat.mul_mod_mul_right c n d
  have hlt : 2 * (n % d * c) < d * c ↔ 2 * (n % d) < d := by
    rw [← Nat.mul_assoc]
    exact Nat.mul_lt_mul_right hc
  have hgt : d * c < 2 * (n % d * c) ↔ d < 2 * (n % d) := by
    rw [← Nat.mul_assoc]
    exact Nat.mul_lt_mul_right hc
  simp only [divRoundEven, hdiv, hmod, hlt, hgt]

theorem divRoundEven_of_dvd {n d : Nat} (hd : 0 < d) (h : n % d = 0) : divRoundEven n d = n / d := by
  rw [divRoundEven, h, if_pos (by omega)]

variable {s : Finite64}

theorem exp_lt_bias (h : isIntegerValued s = false) : s.exp < Finite64.bias := by
  by_contra hge
  have hdvd : 2 ^ Finite64.bias ∣ s.mag :=
    Dvd.dvd.mul_left (Nat.pow_dvd_pow 2 (Nat.le_of_not_lt hge)) _
  rw [isIntegerValued, Nat.mod_eq_zero_of_dvd hdvd] at h
  cases h

theorem two_pow_bias (h : s.exp < Finite64.bias) : 2 ^ Finite64.bias = 2 ^ (Finite64.bias - s.exp) * 2 ^ s.exp := by
  rw [← Nat.pow_add, Nat.sub_add_cancel (Nat.le_of_lt h)]

theorem decimals17_eq (h : s.exp < Finite64.bias) :
    decimals17 s = divRoundEven (s.sig * 10 ^ 17) (2 ^ (Finite64.bias - s.exp)) := by
  rw [decimals17, Finite64.mag, two_pow_bias h, Nat.mul_right_comm, divRoundEven_mul _ _ _ (Nat.two_pow_pos _)]

def fixed17Value (s : Finite64) : ℚ := s.sign * (decimals17 s / 10 ^ 17)

theorem value_eq_sig (h : s.exp < Finite64.bias) : s.value = s.sign * (s.sig / 2 ^ (Finite64.bias - s.exp)) := by
  have hbias : (2 : ℚ) ^ Finite64.bias = 2 ^ (Finite64.bias - s.exp) * 2 ^ s.exp := by
    exact_mod_cast two_pow_bias h
  rw [Finite64.value, Finite64.scaled_eq, Finite64.mag, hbias]
  push_cast
  field_simp

theorem ulp_eq (h : s.exp < Finite64.bias) : s.ulp = 1 / 2 ^ (Finite64.bias - s.exp) := by
  have hbias : (2 : ℚ) ^ Finite64.bias = 2 ^ (Finite64.bias - s.exp) * 2 ^ s.exp := by
    exact_mod_cast two_pow_bias h
  rw [Finite64.ulp, hbias]
  field_simp

theorem abs_div_sub_div (a b : ℚ) {c p : ℚ} (hc : 0 < c) (hp : 0 < p) :
    |a / c - b / p| = |a * p - b * c| / c * (1 / p) := by
  have hdiff : a / c - b / p = (a * p - b * c) / (c * p) := by
    field_simp
  rw [hdiff, abs_div, abs_of_pos (mul_pos hc hp)]
  field_simp

theorem abs_sign_mul (s : Finite64) (q : ℚ) : |(s.sign : ℚ) * q| = |q| := by
  rcases Finite64.sign_eq s with h | h <;> rw [h] <;> simp

theorem abs_fixed17Value_sub (h : s.exp < Finite64.bias) :
    |fixed17Value s - s.value| = (decimalError s).natAbs / 10 ^ 17 * s.ulp := by
  have herr := natAbs_sub_divRoundEven (s.sig * 10 ^ 17) (Nat.two_pow_pos (Finite64.bias - s.exp))
  rw [← decimals17_eq h] at herr
  have hcast : ((decimalError s).natAbs : ℚ) =
      |(decimals17 s : ℚ) * 2 ^ (Finite64.bias - s.exp) - s.sig * 10 ^ 17| := by
    rw [Nat.cast_mul, Nat.cast_pow, Nat.cast_ofNat] at herr
    rw [decimalError, abs_sub_comm, ← herr, Nat.cast_natAbs]
    push_cast
    rfl
  rw [fixed17Value, value_eq_sig h, ← mul_sub, abs_sign_mul, ulp_eq h, hcast]
  exact abs_div_sub_div _ _ (by positivity) (by positivity)

/-! ## What the texts denote -/

theorem sign_mul_eq_ite (s : Finite64) (q : ℚ) : (s.sign : ℚ) * q = if s.neg then -q else q := by
  rw [Finite64.sign]
  split_ifs <;> simp

theorem textValue_fmtFixed17 (s : Finite64) : textValue (fmtFixed17 s) = some (fixed17Value s) := by
  have hdigits := unsignedValue_fixed (decimals17 s / 10 ^ 17) (decimals17 s % 10 ^ 17) (Nat.mod_lt _ (by decide))
  have hsum : ((decimals17 s / 10 ^ 17 : Nat) : ℚ) + (decimals17 s % 10 ^ 17 : Nat) / 10 ^ 17 =
      decimals17 s / 10 ^ 17 := by
    rw [eq_div_iff (by positivity), add_mul, div_mul_cancel₀ _ (by positivity)]
    exact_mod_cast Nat.div_add_mod' (decimals17 s) (10 ^ 17)
  rw [fmtFixed17, append_assoc, textValue_signText, hdigits, hsum, map_some, fixed17Value, sign_mul_eq_ite]

theorem value_of_isIntegerValued (h : isIntegerValued s = true) :
    s.value = s.sign * ((s.mag / 2 ^ Finite64.bias : Nat) : ℚ) := by
  have hmod : s.mag % 2 ^ Finite64.bias = 0 := by rwa [isIntegerValued, beq_iff_eq] at h
  have hmag : ((s.mag / 2 ^ Finite64.bias : Nat) : ℚ) = s.mag / 2 ^ Finite64.bias := by
    rw [Nat.cast_div (Nat.dvd_of_mod_eq_zero hmod) (by positivity), Nat.cast_pow, Nat.cast_ofNat]
  rw [hmag, Finite64.value, Finite64.scaled_eq, Int.cast_mul, Int.cast_natCast, mul_div_assoc]

theorem textValue_fmtInteger (h : isIntegerValued s = true) : textValue (fmtInteger s) = some s.value := by
  have htext := textValue_signText (s.neg && s.mag / 2 ^ Finite64.bias != 0) (s.mag / 2 ^ Finite64.bias) []
  rw [append_nil, unsignedValue_decimal, map_some] at htext
  rw [fmtInteger, htext, value_of_isIntegerValued h, sign_mul_eq_ite]
  generalize s.mag / 2 ^ Finite64.bias = n
  cases s.neg with
  | false => rfl
  | true =>
    by_cases hn : n = 0
    · rw [hn]
      simp
    · simp [hn]

theorem fixed17Value_of_isIntegerValued (h : isIntegerValued s = true) : fixed17Value s = s.value := by
  have hmod : s.mag % 2 ^ Finite64.bias = 0 := by rwa [isIntegerValued, beq_iff_eq] at h
  have hpos : 0 < 2 ^ Finite64.bias := Nat.two_pow_pos _
  have hexact : decimals17 s = s.mag / 2 ^ Finite64.bias * 10 ^ 17 := by
    rw [decimals17, divRoundEven_of_dvd hpos, Nat.div_mul_right_comm (Nat.dvd_of_mod_eq_zero hmod)]
    exact Nat.mod_eq_zero_of_dvd (Dvd.dvd.mul_right (Nat.dvd_of_mod_eq_zero hmod) _)
  rw [fixed17Value, value_of_isIntegerValued h, hexact, Nat.cast_mul, Nat.cast_pow, Nat.cast_ofNat,
    mul_div_cancel_right₀ _ (by positivity)]

theorem textValue_fmtZsetScore (s : Finite64) : textValue (fmtZsetScore s) = some (fixed17Value s) := by
  rw [fmtZsetScore]
  split_ifs with h
  · have hint := (Bool.and_eq_true _ _ ▸ h).1
    rw [textValue_fmtInteger hint, fixed17Value_of_isIntegerValued hint]
  · exact textValue_fmtFixed17 s

/-! ## Which scores come back -/

theorem two_mul_decimalError_ne (s : Finite64) : 2 * (decimalError s).natAbs ≠ 10 ^ 17 := by
  intro h
  rw [decimalError] at h
  generalize hk : Finite64.bias - s.exp = k at h
  by_cases hsmall : k ≤ 16
  · -- the unit itself is too small
    have hle := two_mul_natAbs_bmod_le (s.sig * 10 ^ 17) (Nat.two_pow_pos k)
    have hpow : 2 ^ k ≤ 2 ^ 16 := Nat.pow_le_pow_right (by decide) hsmall
    omega
  · -- the error is a multiple of `2 ^ 17`, which half of `10 ^ 17` is not
    have hunit : ((2 ^ 17 : Int)) ∣ ((2 ^ k : Nat) : Int) := by
      rw [Nat.cast_pow]
      exact pow_dvd_pow 2 (by omega)
    have hdvd := dvd_bmod hunit (x := s.sig * 10 ^ 17) (Dvd.dvd.mul_left (by decide) _)
    omega

theorem decimalError_eq_zero (hsig : s.sig = 2 ^ 52)
    (h : 2 * (decimalError s).natAbs < 10 ^ 17) : decimalError s = 0 := by
  rw [decimalError] at h ⊢
  generalize Finite64.bias - s.exp = k at h ⊢
  by_cases hk : k ≤ 69
  · have hdvd : ((2 ^ k : Nat) : Int) ∣ (s.sig : Int) * 10 ^ 17 := by
      rw [hsig]
      have h69 : (2 ^ 69 : Int) ∣ ((2 ^ 52 : Nat) : Int) * 10 ^ 17 := by decide
      rw [Nat.cast_pow]
      exact dvd_trans (pow_dvd_pow 2 hk) h69
    exact Int.bmod_eq_zero_of_dvd hdvd
  · have hunit : ((2 ^ 69 : Int)) ∣ ((2 ^ k : Nat) : Int) := by
      rw [Nat.cast_pow]
      exact pow_dvd_pow 2 (by omega)
    have hdvd := dvd_bmod hunit (x := s.sig * 10 ^ 17) (by rw [hsig]; decide)
    omega

theorem two_mul_abs_fixed17Value_sub (h : s.exp < Finite64.bias) :
    2 * |fixed17Value s - s.value| = (2 * (decimalError s).natAbs : Nat) / 10 ^ 17 * s.ulp := by
  rw [abs_fixed17Value_sub h]
  push_cast
  ring

theorem abs_fixed17Value_le (s : Finite64) : |fixed17Value s| ≤ Finite64.largest.value := by
  cases hint : isIntegerValued s with
  | true =>
    rw [fixed17Value_of_isIntegerValued hint]
    exact Finite64.abs_value_le_largest s
  | false =>
    have hexp := exp_lt_bias hint
    have hunit : (1 : ℚ) ≤ 2 ^ (Finite64.bias - s.exp) := one_le_pow₀ (by norm_num)
    have herr : 2 * |fixed17Value s - s.value| ≤ 1 := by
      have hle : ((2 * (decimalError s).natAbs : Nat) : ℚ) ≤ 2 ^ (Finite64.bias - s.exp) := by
        exact_mod_cast two_mul_natAbs_bmod_le _ (Nat.two_pow_pos _)
      rw [two_mul_abs_fixed17Value_sub hexp, ulp_eq hexp, mul_one_div, div_div, div_le_one (by positivity)]
      linarith
    have hval : |s.value| ≤ 2 ^ 53 := by
      have hsig : (s.sig : ℚ) ≤ 2 ^ 53 := by exact_mod_cast Nat.le_of_lt s.sig_lt
      rw [value_eq_sig hexp, abs_sign_mul, abs_of_nonneg (by positivity)]
      exact (div_le_self (by positivity) hunit).trans hsig
    have hlarge : (2 ^ 53 + 1 : ℚ) ≤ Finite64.largest.value := by
      have hmag : (2 ^ 53 + 1) * 2 ^ Finite64.bias ≤ Finite64.largest.mag := by decide +kernel
      rw [Finite64.largest_value, le_div_iff₀ (by positivity)]
      exact_mod_cast hmag
    have htri := abs_sub_abs_le_abs_sub (fixed17Value s) s.value
    linarith

theorem eq_of_nearest_of_resolved {s y : Finite64} (h : Resolved s)
    (hy : Finite64.Nearest (fixed17Value s) y) : y.value = s.value := by
  cases hint : isIntegerValued s with
  | true =>
    have hexact := fixed17Value_of_isIntegerValued hint
    refine Finite64.eq_of_nearest (.inr (.inr hexact)) ?_ hy
    rw [hexact, sub_self, abs_zero, mul_zero]
    exact Finite64.ulp_pos s
  | false =>
    have hexp := exp_lt_bias hint
    have herr : 2 * (decimalError s).natAbs < 10 ^ 17 := by
      rcases h with h | h
      · rw [hint] at h
        cases h
      · exact h
    refine Finite64.eq_of_nearest ?_ ?_ hy
    · by_cases hsig : s.sig = 2 ^ 52
      · have hzero := abs_fixed17Value_sub hexp
        rw [decimalError_eq_zero hsig herr, Int.natAbs_zero, Nat.cast_zero, zero_div, zero_mul] at hzero
        exact .inr (.inr (sub_eq_zero.mp (abs_eq_zero.mp hzero)))
      · exact .inl hsig
    · have hlt : ((2 * (decimalError s).natAbs : Nat) : ℚ) < 10 ^ 17 := by exact_mod_cast herr
      rw [two_mul_abs_fixed17Value_sub hexp]
      exact mul_lt_of_lt_one_left (Finite64.ulp_pos s) ((div_lt_one (by positivity)).mpr hlt)

theorem not_nearest_of_not_resolved (h : ¬ Resolved s) : ¬ Finite64.Nearest (fixed17Value s) s := by
  rw [Resolved, not_or, Bool.not_eq_true, Nat.not_lt] at h
  obtain ⟨hint, herr⟩ := h
  have hexp := exp_lt_bias hint
  have hpos : 0 < s.sig := by
    rw [Nat.pos_iff_ne_zero]
    intro h0
    rw [isIntegerValued, Finite64.mag, h0, Nat.zero_mul, Nat.zero_mod] at hint
    cases hint
  have hgt : (10 ^ 17 : ℚ) < (2 * (decimalError s).natAbs : Nat) := by
    exact_mod_cast Nat.lt_of_le_of_ne herr (two_mul_decimalError_ne s).symm
  have hfar : s.ulp < 2 * |fixed17Value s - s.value| := by
    rw [two_mul_abs_fixed17Value_sub hexp]
    exact lt_mul_of_one_lt_left (Finite64.ulp_pos s) ((one_lt_div (by positivity)).mpr hgt)
  have hbias : Finite64.bias ≤ 2045 := by decide
  obtain ⟨y, hy⟩ := Finite64.exists_nearer hpos (Nat.lt_of_lt_of_le hexp hbias) hfar
  exact fun hnear => absurd (hnear y) (not_le.mpr hy)

theorem readsBack_iff {parse : Bytes → Option Finite64} (hparse : RoundsToNearest parse)
    (s : Finite64) : ReadsBack parse s ↔ Resolved s := by
  obtain ⟨y, hread, hnear⟩ := hparse _ _ (textValue_fmtZsetScore s) (abs_fixed17Value_le s)
  constructor
  · rintro ⟨y', hread', hval⟩
    obtain rfl : y = y' := some.inj (hread.symm.trans hread')
    by_contra hres
    refine not_nearest_of_not_resolved hres fun z => ?_
    rw [← hval]
    exact hnear z
  · intro hres
    exact ⟨y, hread, eq_of_nearest_of_resolved hres hnear⟩

theorem resolved_of_sixteenth_le (h : 1 / 16 ≤ |s.value|) : Resolved s := by
  cases hint : isIntegerValued s with
  | true => exact .inl hint
  | false =>
    have hexp := exp_lt_bias hint
    rw [value_eq_sig hexp, abs_sign_mul, abs_of_nonneg (by positivity),
      div_le_div_iff₀ (by positivity) (by positivity), one_mul] at h
    have hle : 2 ^ (Finite64.bias - s.exp) ≤ s.sig * 16 := by exact_mod_cast h
    have hk : Finite64.bias - s.exp ≤ 56 := by
      have := s.sig_lt
      exact Nat.lt_succ_iff.mp ((Nat.pow_lt_pow_iff_right (by decide : 1 < 2)).mp (by omega))
    have hpow : 2 ^ (Finite64.bias - s.exp) ≤ 2 ^ 56 := Nat.pow_le_pow_right (by decide) hk
    have herr := two_mul_natAbs_bmod_le (s.sig * 10 ^ 17) (Nat.two_pow_pos (Finite64.bias - s.exp))
    exact .inr (by rw [decimalError]; omega)

/-- **Which scores survive a rewrite.** A score comes back from its text exactly when the seventeen
decimals resolve it, and two such scores that differ still differ. -/
theorem scores_read_back_iff (parse : Bytes → Option Finite64) (hparse : RoundsToNearest parse) :
    (∀ s, ReadsBack parse s ↔ Resolved s) ∧
      ∀ s t, Resolved s → Resolved t → s.value ≠ t.value → parse (fmtZsetScore s) ≠ parse (fmtZsetScore t) := by
  refine ⟨readsBack_iff hparse, ?_⟩
  intro s t hs ht hne heq
  obtain ⟨y, hread, hy⟩ := (readsBack_iff hparse s).mpr hs
  obtain ⟨z, hread', hz⟩ := (readsBack_iff hparse t).mpr ht
  obtain rfl : y = z := some.inj (hread.symm.trans (heq.trans hread'))
  exact hne (hy.symm.trans hz)

noncomputable def parseNearest (text : Bytes) : Option Finite64 :=
  (textValue text).map fun q => (Finite64.exists_nearest q).choose

theorem roundsToNearest_parseNearest : RoundsToNearest parseNearest := by
  intro text q htext _
  exact ⟨_, by rw [parseNearest, htext, map_some], (Finite64.exists_nearest q).choose_spec⟩

def oneAndHalf : Finite64 where
  neg := false
  sig := 3 * 2 ^ 51
  exp := 1022
  sig_lt := by decide
  exp_le := by decide
  normal := .inl (by decide)

def powerOfTwo (e : Nat) (he : e ≤ 2045) : Finite64 where
  neg := false
  sig := 2 ^ 52
  exp := e
  sig_lt := by decide
  exp_le := he
  normal := .inl le_rfl

def tiny : Finite64 := powerOfTwo 962 (by decide)

def tinier : Finite64 := powerOfTwo 961 (by decide)

theorem scores_read_back_oneAndHalf :
    RoundsToNearest parseNearest ∧ ReadsBack parseNearest oneAndHalf ∧ ¬ ReadsBack parseNearest tiny := by
  have h := scores_read_back_iff parseNearest roundsToNearest_parseNearest
  exact ⟨roundsToNearest_parseNearest,
    (h.1 oneAndHalf).mpr (.inr (by decide +kernel)),
    fun hback => absurd ((h.1 tiny).mp hback) (by rw [Resolved]; decide +kernel)⟩

/-- **Every score from a sixteenth on survives a rewrite.** -/
theorem scores_from_a_sixteenth_read_back (parse : Bytes → Option Finite64) (hparse : RoundsToNearest parse) (s : Finite64)
    (h : 1 / 16 ≤ |s.value|) : ReadsBack parse s :=
  (readsBack_iff hparse s).mpr (resolved_of_sixteenth_le h)

theorem scores_from_a_sixteenth_read_back_half : ReadsBack parseNearest oneAndHalf := by
  have hmag : 1 * 2 ^ Finite64.bias ≤ oneAndHalf.mag * 16 := by decide +kernel
  refine scores_from_a_sixteenth_read_back _ roundsToNearest_parseNearest _ ?_
  rw [Finite64.abs_value, div_le_div_iff₀ (by norm_num) (by positivity)]
  exact_mod_cast hmag

/-- Both `2 ^ -60` and `2 ^ -61` print as `0.00000000000000000`. -/
theorem tiny_scores_become_equal : fmtZsetScore tiny = fmtZsetScore tinier ∧ tiny.value ≠ tinier.value := by
  refine ⟨by decide +kernel, ?_⟩
  rw [Ne, Finite64.value_eq_iff]
  decide +kernel

end Kevy.Persist
