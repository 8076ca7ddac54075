import Xhive.Fieldctrl.SincosAccuracy
import Xhive.Fieldctrl.VoltageLimit

/-!
# The length of the computed sine and cosine

The loop keeps the length of its vector but for the truncated bits, so that sine
and cosine are a vector one unit from the unit circle at most, however far its
direction is from the angle.
-/

namespace Xhive.Fieldctrl

open Xhive.Support Xhive.Linears Xhive.Filters
open Complex (I exp)

theorem sincosRoundExact_length (z : ℤ) :
    |‖(sincosRoundExact z 32).vec‖ - 2 ^ 60| ≤ 2 ^ 11 := by
  obtain ⟨ψ, hvec, -⟩ := turnedBy_iff.mp (sincosRoundExact_turned z (le_refl 32))
  have hgain := start_gain
  have hlength : ‖(700114967507363239 * gain 32 * exp (ψ * I) : ℂ)‖ =
      700114967507363239 * gain 32 := by
    have hreal : (700114967507363239 * gain 32 : ℂ) = ((700114967507363239 * gain 32 : ℝ) : ℂ) := by
      push_cast
      rfl
    rw [norm_mul, Complex.norm_exp_ofReal_mul_I, mul_one, hreal, Complex.norm_real,
      Real.norm_of_nonneg (mul_nonneg (by norm_num) (gain_nonneg 32))]
  have hclose := (abs_norm_sub_norm_le _ _).trans hvec
  rw [hlength] at hclose
  push_cast at hclose
  rw [abs_le] at hclose hgain ⊢
  constructor <;> linarith

/-- A sign and the last shift keep the length up to the roundings. -/
theorem stored_length {σ : ℤ} (hσ : σ = 1 ∨ σ = -1) {v : IntRotation}
    (hv : |‖v.vec‖ - 2 ^ 60| ≤ 2 ^ 11) :
    |‖((roundAway ((σ * v.x : ℤ) / 2 ^ 29 : ℚ) : ℝ) : ℂ) +
      ((roundAway ((σ * v.y : ℤ) / 2 ^ 29 : ℚ) : ℝ) : ℂ) * I‖ - 2 ^ 31| ≤ 1 := by
  have hsign : ‖((σ / 2 ^ 29 : ℝ) : ℂ)‖ = 1 / 2 ^ 29 := by
    rw [Complex.norm_real, Real.norm_eq_abs, abs_div, abs_of_pos (show (0 : ℝ) < 2 ^ 29 by norm_num)]
    rcases hσ with rfl | rfl <;> norm_num
  have hround : ∀ x : ℤ, |((roundAway ((σ * x : ℤ) / 2 ^ 29 : ℚ) : ℤ) : ℝ) - σ / 2 ^ 29 * x| ≤
      1 / 2 := by
    intro x
    have h := abs_ratCast_sub_le ((σ * x : ℤ) / 2 ^ 29 : ℚ)
    have hcast : (((σ * x : ℤ) / 2 ^ 29 : ℚ) : ℝ) = σ / 2 ^ 29 * x := by
      push_cast
      ring
    rwa [hcast] at h
  set stored : ℂ := ((roundAway ((σ * v.x : ℤ) / 2 ^ 29 : ℚ) : ℝ) : ℂ) +
    ((roundAway ((σ * v.y : ℤ) / 2 ^ 29 : ℚ) : ℝ) : ℂ) * I with hstored
  have hdistance : ‖stored - ((σ / 2 ^ 29 : ℝ) : ℂ) * v.vec‖ ≤ 3 / 4 := by
    have hx := hround v.x
    have hy := hround v.y
    apply norm_le_of_parts
    · rw [Complex.sub_re, Complex.re_ofReal_mul]
      simpa [hstored, IntRotation.vec] using hx
    · rw [Complex.sub_im, Complex.im_ofReal_mul]
      simpa [hstored, IntRotation.vec] using hy
  have hclose := (abs_norm_sub_norm_le _ _).trans hdistance
  rw [norm_mul, hsign] at hclose
  rw [abs_le] at hclose hv ⊢
  constructor <;> linarith

/-- The values of an angle are a vector one unit from the circle at most. -/
theorem sincosValue_length {z : ℤ} (hlow : 0 ≤ z) (hhigh : z < 2 ^ 62) :
    |‖(((sincosValue z).2 : ℝ) : ℂ) + (((sincosValue z).1 : ℝ) : ℂ) * I‖ - 2 ^ 31| ≤ 1 := by
  by_cases haxis : z = 0 ∨ z = 2 ^ 60 ∨ z = 2 * 2 ^ 60 ∨ z = 3 * 2 ^ 60
  · obtain ⟨hsin, hcos⟩ := sincosValue_axis haxis
    have hsquare : (2 ^ 31 * Real.cos (z * countAngle)) ^ 2 +
        (2 ^ 31 * Real.sin (z * countAngle)) ^ 2 = (2 ^ 31) ^ 2 := by
      have := Real.cos_sq_add_sin_sq (z * countAngle)
      linear_combination (2 ^ 31) ^ 2 * this
    rw [Complex.norm_add_mul_I, hsin, hcos, hsquare, Real.sqrt_sq (by norm_num), sub_self, abs_zero]
    norm_num
  · obtain ⟨-, hsign, -, -⟩ := foldAngle_spec hlow hhigh
    rw [sincosValue, if_neg haxis]
    exact stored_length hsign (sincosRoundExact_length _)

theorem fcqSincos_length {a s c : Int64} (h : fcqSincos a = .ok (s, c)) :
    |‖planar c s‖ - 2 ^ 31| ≤ 1 := by
  obtain ⟨s', c', hok, hvalue⟩ := fcqSincos_value a
  rw [h] at hok
  cases hok
  obtain ⟨hlow, hhigh⟩ := angleCounts_range a
  have hlength := sincosValue_length hlow hhigh
  rw [← hvalue] at hlength
  rw [planar]
  exact_mod_cast hlength

end Xhive.Fieldctrl
