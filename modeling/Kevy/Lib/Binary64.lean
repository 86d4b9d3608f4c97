import Mathlib.Tactic

/-!
# Finite binary64 numbers

A finite double is a sign, a significand below `2 ^ 53` and an exponent; every one is a whole multiple of
the least positive one, `2 ^ -1074`, and `scaled` is that multiple. A number closer to a double than half
the spacing at it has no other double as near (`eq_of_nearest`), and from one further away than that
another double is nearer (`exists_nearer`).
-/

namespace Kevy.Lib

/-- A finite double: `± sig * 2 ^ (exp - 1074)`. -/
structure Finite64 where
  neg : Bool
  sig : Nat
  exp : Nat
  sig_lt : sig < 2 ^ 53
  exp_le : exp ≤ 2045
  normal : 2 ^ 52 ≤ sig ∨ exp = 0
  deriving DecidableEq

namespace Finite64

def bias : Nat := 1074

def mag (x : Finite64) : Nat := x.sig * 2 ^ x.exp

def scaled (x : Finite64) : Int := if x.neg then -(x.mag : Int) else x.mag

def value (x : Finite64) : ℚ := (x.scaled : ℚ) / 2 ^ bias

def ulp (x : Finite64) : ℚ := (2 ^ x.exp : ℚ) / 2 ^ bias

def sign (x : Finite64) : Int := if x.neg then -1 else 1

theorem scaled_eq (x : Finite64) : x.scaled = x.sign * x.mag := by
  rw [scaled, sign]
  split_ifs <;> simp

theorem sign_eq (x : Finite64) : x.sign = 1 ∨ x.sign = -1 := by
  rw [sign]
  split_ifs
  · exact .inr rfl
  · exact .inl rfl

theorem natAbs_scaled (x : Finite64) : x.scaled.natAbs = x.mag := by
  rw [scaled]
  split_ifs <;> simp

/-! ## Spacing -/

variable {x y : Finite64}

theorem dvd_scaled (h : x.exp ≤ y.exp) : (2 ^ x.exp : Int) ∣ y.scaled := by
  have hmag : (2 ^ x.exp : Int) ∣ (y.mag : Int) := by
    rw [mag, Nat.cast_mul, Nat.cast_pow]
    exact Dvd.dvd.mul_left (pow_dvd_pow 2 h) _
  rw [scaled_eq]
  exact Dvd.dvd.mul_left hmag _

theorem spacing (hx : x.sig ≠ 2 ^ 52 ∨ x.exp = 0) (hne : y.scaled ≠ x.scaled) :
    (2 ^ x.exp : Int) ≤ |x.scaled - y.scaled| := by
  by_cases hexp : x.exp ≤ y.exp
  · -- both are multiples of the spacing
    have hdvd : (2 ^ x.exp : Int) ∣ x.scaled - y.scaled :=
      dvd_sub (dvd_scaled le_rfl) (dvd_scaled hexp)
    refine Int.le_of_dvd (abs_pos.mpr (sub_ne_zero.mpr hne.symm)) ?_
    exact (dvd_abs _ _).mpr hdvd
  · -- `y` lies in a finer range, all of it below `x`
    have hsig : 2 ^ 52 + 1 ≤ x.sig := by
      rcases x.normal with h | h
      · rcases hx with h' | h' <;> omega
      · omega
    have hy : y.mag < 2 ^ 52 * 2 ^ x.exp := by
      have hle : 2 ^ y.exp * 2 ≤ 2 ^ x.exp := by
        rw [← Nat.pow_succ]
        exact Nat.pow_le_pow_right (by decide) (by omega)
      have hlt : y.mag < 2 ^ 53 * 2 ^ y.exp :=
        (Nat.mul_lt_mul_right (Nat.two_pow_pos _)).mpr y.sig_lt
      omega
    have hxm : 2 ^ 52 * 2 ^ x.exp + 2 ^ x.exp ≤ x.mag := by
      have := Nat.mul_le_mul_right (2 ^ x.exp) hsig
      rwa [Nat.add_mul, Nat.one_mul] at this
    have habs : (x.mag : Int) - y.mag ≤ |x.scaled - y.scaled| := by
      have := abs_sub_abs_le_abs_sub x.scaled y.scaled
      rwa [Int.abs_eq_natAbs, Int.abs_eq_natAbs, natAbs_scaled, natAbs_scaled] at this
    have hcast : ((2 ^ x.exp : Nat) : Int) = 2 ^ x.exp := by push_cast; rfl
    omega

/-! ## Neighbours -/

theorem exists_outward (x : Finite64) (hexp : x.exp < 2045) :
    ∃ y : Finite64, y.scaled = x.scaled + x.sign * 2 ^ x.exp := by
  by_cases hsig : x.sig + 1 < 2 ^ 53
  · refine ⟨⟨x.neg, x.sig + 1, x.exp, hsig, x.exp_le, x.normal.imp (fun h => by omega) id⟩, ?_⟩
    rw [scaled_eq, scaled_eq]
    simp only [sign, mag]
    push_cast
    ring
  · have hlast : x.sig + 1 = 2 ^ 53 := by
      have := x.sig_lt
      omega
    refine ⟨⟨x.neg, 2 ^ 52, x.exp + 1, by decide, by omega, .inl le_rfl⟩, ?_⟩
    have hsig' : (x.sig : Int) = 2 ^ 53 - 1 := by omega
    rw [scaled_eq, scaled_eq]
    simp only [sign, mag]
    push_cast
    rw [hsig']
    ring

theorem exists_inward (x : Finite64) (hpos : 0 < x.sig) :
    ∃ (y : Finite64) (g : Int), 0 < g ∧ g ≤ 2 ^ x.exp ∧ y.scaled = x.scaled - x.sign * g := by
  by_cases hsig : x.sig = 2 ^ 52 ∧ x.exp ≠ 0
  · obtain ⟨e, he⟩ : ∃ e, x.exp = e + 1 := ⟨x.exp - 1, by omega⟩
    have hle := x.exp_le
    refine ⟨⟨x.neg, 2 ^ 53 - 1, e, by decide, by omega, .inl (by decide)⟩, 2 ^ e, by positivity, ?_, ?_⟩
    · rw [he, pow_succ]
      have : (0 : Int) < 2 ^ e := by positivity
      omega
    · rw [scaled_eq, scaled_eq]
      simp only [sign, mag, hsig.1, he]
      push_cast
      ring
  · have hnormal : 2 ^ 52 ≤ x.sig - 1 ∨ x.exp = 0 := by
      rcases x.normal with h | h
      · by_cases h0 : x.exp = 0
        · exact .inr h0
        · left
          have : x.sig ≠ 2 ^ 52 := fun h' => hsig ⟨h', h0⟩
          omega
      · exact .inr h
    have hlt := x.sig_lt
    refine ⟨⟨x.neg, x.sig - 1, x.exp, by omega, x.exp_le, hnormal⟩, 2 ^ x.exp, by positivity, le_refl _, ?_⟩
    have hsub : ((x.sig - 1 : Nat) : Int) = x.sig - 1 := by omega
    rw [scaled_eq, scaled_eq]
    simp only [sign, mag]
    push_cast [hsub]
    ring

/-! ## The range -/

def largest : Finite64 where
  neg := false
  sig := 2 ^ 53 - 1
  exp := 2045
  sig_lt := by decide
  exp_le := by decide
  normal := .inl (by decide)

theorem abs_value (x : Finite64) : |x.value| = (x.mag : ℚ) / 2 ^ bias := by
  rw [value, abs_div, abs_of_pos (a := (2 ^ bias : ℚ)) (by positivity), ← Int.cast_abs,
    Int.abs_eq_natAbs, natAbs_scaled, Int.cast_natCast]

theorem largest_value : largest.value = (largest.mag : ℚ) / 2 ^ bias := by
  have hpos : largest.scaled = largest.mag := if_neg Bool.false_ne_true
  rw [value, hpos, Int.cast_natCast]

theorem abs_value_le_largest (x : Finite64) : |x.value| ≤ largest.value := by
  have hmag : x.mag ≤ largest.mag :=
    Nat.mul_le_mul (Nat.le_sub_one_of_lt x.sig_lt) (Nat.pow_le_pow_right (by decide) x.exp_le)
  rw [abs_value, largest_value]
  have : (x.mag : ℚ) ≤ largest.mag := by exact_mod_cast hmag
  gcongr

/-! ## The nearest double -/

def Nearest (q : ℚ) (x : Finite64) : Prop := ∀ y : Finite64, |q - x.value| ≤ |q - y.value|

theorem value_eq_iff : x.value = y.value ↔ x.scaled = y.scaled := by
  rw [value, value, div_left_inj' (by positivity), Int.cast_inj]

theorem ulp_pos (x : Finite64) : 0 < x.ulp := by
  rw [ulp]
  positivity

theorem value_sub (x y : Finite64) : x.value - y.value = ((x.scaled - y.scaled : Int) : ℚ) / 2 ^ bias := by
  rw [value, value, ← sub_div, Int.cast_sub]

theorem ulp_le_of_ne (hx : x.sig ≠ 2 ^ 52 ∨ x.exp = 0) (hne : y.value ≠ x.value) : x.ulp ≤ |x.value - y.value| := by
  have hgap : ((2 ^ x.exp : Int) : ℚ) ≤ ((|x.scaled - y.scaled| : Int) : ℚ) :=
    Int.cast_le.mpr (spacing hx (mt value_eq_iff.mpr hne))
  rw [value_sub, ulp, abs_div, abs_of_pos (a := (2 ^ bias : ℚ)) (by positivity), ← Int.cast_abs]
  push_cast at hgap ⊢
  gcongr

theorem eq_of_nearest {q : ℚ} (hx : x.sig ≠ 2 ^ 52 ∨ x.exp = 0 ∨ q = x.value)
    (hclose : 2 * |q - x.value| < x.ulp) (hy : Nearest q y) : y.value = x.value := by
  by_contra hne
  have hle := hy x
  rcases or_assoc.mpr hx with hx | rfl
  · have hgap := ulp_le_of_ne hx hne
    have htri : |x.value - y.value| ≤ |q - x.value| + |q - y.value| := by
      have := abs_sub_le x.value q y.value
      rwa [abs_sub_comm x.value q] at this
    linarith
  · rw [sub_self, abs_zero] at hle
    exact hne (sub_eq_zero.mp (abs_nonpos_iff.mp hle)).symm

theorem exists_nearer {q : ℚ} (hpos : 0 < x.sig) (hexp : x.exp < 2045)
    (hfar : x.ulp < 2 * |q - x.value|) : ∃ y : Finite64, |q - y.value| < |q - x.value| := by
  -- a step of at most the spacing towards `q` comes closer
  have hstep : ∀ (y : Finite64) (g : Int), 0 < g → g ≤ 2 ^ x.exp →
      (0 ≤ q - x.value ∧ y.scaled = x.scaled + g ∨ q - x.value ≤ 0 ∧ y.scaled = x.scaled - g) →
      |q - y.value| < |q - x.value| := by
    intro y g hg hgle hside
    have hgq : (0 : ℚ) < (g : ℚ) / 2 ^ bias := by
      have : (0 : ℚ) < g := Int.cast_pos.mpr hg
      positivity
    have hgle' : (g : ℚ) / 2 ^ bias ≤ x.ulp := by
      have : (g : ℚ) ≤ 2 ^ x.exp := by exact_mod_cast hgle
      rw [ulp]
      gcongr
    rcases hside with ⟨hq, hy⟩ | ⟨hq, hy⟩
    · have hval : y.value = x.value + (g : ℚ) / 2 ^ bias := by
        rw [value, hy, Int.cast_add, add_div, value]
      rw [abs_of_nonneg hq] at hfar ⊢
      rw [hval, abs_lt]
      constructor <;> linarith
    · have hval : y.value = x.value - (g : ℚ) / 2 ^ bias := by
        rw [value, hy, Int.cast_sub, sub_div, value]
      rw [abs_of_nonpos hq] at hfar ⊢
      rw [hval, abs_lt]
      constructor <;> linarith
  obtain ⟨out, hout⟩ := exists_outward x hexp
  obtain ⟨inn, g, hg, hgle, hinn⟩ := exists_inward x hpos
  have hunit : (0 : Int) < 2 ^ x.exp := by positivity
  rcases sign_eq x with hsign | hsign <;> rw [hsign] at hout hinn <;>
    rcases le_total 0 (q - x.value) with hq | hq
  · exact ⟨out, hstep out _ hunit (le_refl _) (.inl ⟨hq, by omega⟩)⟩
  · exact ⟨inn, hstep inn g hg hgle (.inr ⟨hq, by omega⟩)⟩
  · exact ⟨inn, hstep inn g hg hgle (.inl ⟨hq, by omega⟩)⟩
  · exact ⟨out, hstep out _ hunit (le_refl _) (.inr ⟨hq, by omega⟩)⟩

/-- There are finitely many doubles. -/
instance : Finite Finite64 := by
  let code : Finite64 → Bool × Fin (2 ^ 53) × Fin 2046 := fun x =>
    (x.neg, ⟨x.sig, x.sig_lt⟩, ⟨x.exp, Nat.lt_succ_of_le x.exp_le⟩)
  refine Finite.of_injective code ?_
  rintro ⟨n, s, e, _, _, _⟩ ⟨n', s', e', _, _, _⟩ h
  simp only [code, Prod.mk.injEq, Fin.mk.injEq] at h
  obtain ⟨rfl, rfl, rfl⟩ := h
  rfl

instance : Nonempty Finite64 :=
  ⟨⟨false, 0, 0, Nat.two_pow_pos 53, Nat.zero_le 2045, .inr rfl⟩⟩

theorem exists_nearest (q : ℚ) : ∃ x, Nearest q x := by
  obtain ⟨x, hx⟩ := Finite.exists_min fun x : Finite64 => |q - x.value|
  exact ⟨x, fun y => hx y⟩

end Finite64

end Kevy.Lib
