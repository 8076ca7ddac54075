import Xhive.Support.Rounding
import Mathlib.Data.Nat.Size

/-!
# Scaling by one rounded reciprocal

Values up to `M` are scaled so that `M` becomes `W`: one rounded quotient
`W * 2 ^ s / M` serves all of them, each product is rounded back by `s` bits,
and what exceeds `W` is cut off.  Both roundings together stay within one unit.
-/

namespace Xhive.Support

/-- The multiplier that all values share; `s` is the bit length of `M`. -/
def sharedReciprocal (W M : ℕ) : ℕ :=
  roundedQuotient (W * 2 ^ M.size) M

/-- The scaled value of `p`. -/
def scaleByReciprocal (W M p : ℕ) : ℕ :=
  if p = M then W else min W (roundedQuotient (p * sharedReciprocal W M) (2 ^ M.size))

variable {W M p q : ℕ}

theorem two_pow_size_le (hM : 0 < M) : 2 ^ M.size ≤ 2 * M := by
  obtain ⟨k, hk⟩ := Nat.exists_eq_succ_of_ne_zero (Nat.size_pos.mpr hM).ne'
  have hlow : 2 ^ k ≤ M := Nat.lt_size.mp (by omega)
  rw [hk, pow_succ']
  omega

theorem sharedReciprocal_le (hM : 0 < M) : sharedReciprocal W M ≤ 2 * W := by
  rw [sharedReciprocal, roundedQuotient_le_iff hM]
  calc 2 * (W * 2 ^ M.size) ≤ 2 * (W * (2 * M)) :=
        Nat.mul_le_mul_left 2 (Nat.mul_le_mul_left W (two_pow_size_le hM))
    _ = 4 * W * M := by ring
    _ < 4 * W * M + M := Nat.lt_add_of_pos_right hM
    _ = (2 * (2 * W) + 1) * M := by ring

theorem scaleByReciprocal_self : scaleByReciprocal W M M = W :=
  if_pos rfl

theorem scaleByReciprocal_le : scaleByReciprocal W M p ≤ W := by
  rw [scaleByReciprocal]
  split
  · exact le_rfl
  · exact min_le_left _ _

theorem scaleByReciprocal_zero (hM : 0 < M) : scaleByReciprocal W M 0 = 0 := by
  have hzero : roundedQuotient (0 * sharedReciprocal W M) (2 ^ M.size) = 0 := by
    rw [Nat.zero_mul, ← Nat.le_zero, roundedQuotient_le_iff (Nat.two_pow_pos _)]
    positivity
  rw [scaleByReciprocal, if_neg hM.ne, hzero, min_eq_right (Nat.zero_le W)]

/-- A larger value is not scaled to a smaller one. -/
theorem scaleByReciprocal_mono (hpq : p ≤ q) (hq : q ≤ M) :
    scaleByReciprocal W M p ≤ scaleByReciprocal W M q := by
  by_cases hlast : q = M
  · rw [hlast, scaleByReciprocal_self]
    exact scaleByReciprocal_le
  · rw [scaleByReciprocal, scaleByReciprocal, if_neg hlast, if_neg (by omega)]
    exact min_le_min_left W (roundedQuotient_le (Nat.two_pow_pos _) (Nat.two_pow_pos _)
      (Nat.mul_le_mul_right _ (Nat.mul_le_mul_right _ hpq)))

/-- Both roundings move a value by less than one unit. -/
theorem abs_scaleByReciprocal_sub_lt (hM : 0 < M) (hp : p ≤ M) :
    |(scaleByReciprocal W M p : ℚ) - W * p / M| < 1 := by
  have hM' : (0 : ℚ) < M := by exact_mod_cast hM
  rcases hp.eq_or_lt with rfl | hlt
  · rw [scaleByReciprocal_self, mul_div_cancel_right₀ _ hM'.ne', sub_self, abs_zero]
    exact one_pos
  have hpow : (0 : ℚ) < 2 ^ M.size := by positivity
  have hpowM : (p : ℚ) < 2 ^ M.size := by
    exact_mod_cast hlt.trans (Nat.lt_size_self M)
  have hreciprocal := abs_roundedQuotient_sub_le (W * 2 ^ M.size) hM
  have hproduct := abs_roundedQuotient_sub_le (p * sharedReciprocal W M) (Nat.two_pow_pos M.size)
  rw [← sharedReciprocal, abs_le] at hreciprocal
  push_cast at hreciprocal hproduct
  rw [abs_le] at hproduct
  -- the error of the multiplier counts `p / 2 ^ s` times
  have hshare : |(p * sharedReciprocal W M : ℚ) / 2 ^ M.size - W * p / M| ≤
      p / 2 ^ M.size / 2 := by
    have hfactor : (p * sharedReciprocal W M : ℚ) / 2 ^ M.size - W * p / M =
        p / 2 ^ M.size * (sharedReciprocal W M - W * 2 ^ M.size / M) := by
      field_simp
    rw [hfactor, abs_mul, abs_of_nonneg (by positivity), div_eq_mul_one_div _ (2 : ℚ)]
    exact mul_le_mul_of_nonneg_left (abs_le.mpr hreciprocal) (by positivity)
  have hsmall : (p : ℚ) / 2 ^ M.size < 1 := by
    rwa [div_lt_one hpow]
  have hexact : (W * p / M : ℚ) ≤ W := by
    rw [div_le_iff₀ hM']
    exact mul_le_mul_of_nonneg_left (by exact_mod_cast hp) (Nat.cast_nonneg W)
  rw [abs_le] at hshare
  rw [scaleByReciprocal, if_neg hlt.ne, abs_lt, Nat.cast_min]
  have hupper := min_le_right (W : ℚ)
    (roundedQuotient (p * sharedReciprocal W M) (2 ^ M.size) : ℚ)
  constructor
  · rcases min_choice (W : ℚ)
      (roundedQuotient (p * sharedReciprocal W M) (2 ^ M.size) : ℚ) with hmin | hmin
    · rw [hmin]
      linarith
    · rw [hmin]
      linarith
  · linarith

end Xhive.Support
