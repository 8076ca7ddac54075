import Mathlib.Analysis.Normed.Module.Basic
import Mathlib.Tactic.Positivity

/-!
# Limiting the length of a vector

A vector longer than a radius is scaled back onto it.  The limiter moves the
results of close vectors little, and a limiter that works with an approximate
length and an approximate radius stays close to the exact one.
-/

namespace Xhive.Support

variable {E : Type*} [NormedAddCommGroup E] [NormedSpace ℝ E]

/-- The vector of length at most `R` in the direction of `v`. -/
noncomputable def radial (R : ℝ) (v : E) : E :=
  if ‖v‖ ≤ R then v else (R / ‖v‖) • v

theorem radial_of_le {R : ℝ} {v : E} (h : ‖v‖ ≤ R) : radial R v = v :=
  if_pos h

theorem radial_of_ge {R : ℝ} {v : E} (hR : 0 < R) (h : R ≤ ‖v‖) :
    radial R v = (R / ‖v‖) • v := by
  rcases h.lt_or_eq with hlt | heq
  · exact if_neg (not_le.mpr hlt)
  · rw [radial_of_le heq.ge, ← heq, div_self hR.ne', one_smul]

theorem norm_div_smul {r : ℝ} {v : E} (hr : 0 ≤ r) (hv : 0 < ‖v‖) : ‖(r / ‖v‖) • v‖ = r := by
  rw [norm_smul, Real.norm_of_nonneg (by positivity), div_mul_cancel₀ _ hv.ne']

theorem norm_radial_le {R : ℝ} (hR : 0 < R) (v : E) : ‖radial R v‖ ≤ R := by
  rcases le_total ‖v‖ R with h | h
  · rwa [radial_of_le h]
  · rw [radial_of_ge hR h, norm_div_smul hR.le (hR.trans_le h)]

/-- Beyond the radius only the direction counts. -/
theorem radial_smul {R t : ℝ} {v : E} (hR : 0 < R) (ht : 1 ≤ t) (h : R ≤ ‖v‖) :
    radial R (t • v) = radial R v := by
  have ht₀ : 0 < t := by linarith
  have hnorm : ‖t • v‖ = t * ‖v‖ := by rw [norm_smul, Real.norm_of_nonneg ht₀.le]
  have hlong : R ≤ ‖t • v‖ := by
    rw [hnorm]
    exact h.trans (le_mul_of_one_le_left (norm_nonneg v) ht)
  rw [radial_of_ge hR hlong, radial_of_ge hR h, hnorm, smul_smul]
  congr 1
  field_simp

/-- The limiter in other units. -/
theorem radial_units {c : ℝ} (hc : 0 < c) {R : ℝ} (v : E) :
    radial (c * R) (c • v) = c • radial R v := by
  have hnorm : ‖c • v‖ = c * ‖v‖ := by rw [norm_smul, Real.norm_of_nonneg hc.le]
  rcases le_or_gt ‖v‖ R with h | h
  · rw [radial_of_le h, radial_of_le]
    rw [hnorm]
    exact mul_le_mul_of_nonneg_left h hc.le
  · have hlong : ¬‖c • v‖ ≤ c * R := by
      rw [hnorm, not_le]
      exact mul_lt_mul_of_pos_left h hc
    rw [radial, if_neg hlong, radial, if_neg (not_le.mpr h), hnorm, smul_smul, smul_smul,
      mul_div_mul_left _ _ hc.ne', mul_comm]

/-- A vector within the radius against a limited one. -/
theorem norm_sub_radial_le {R : ℝ} {u v : E} (hR : 0 < R) (hu : ‖u‖ ≤ R) (hv : R ≤ ‖v‖) :
    ‖u - radial R v‖ ≤ 2 * ‖u - v‖ := by
  have hpos : 0 < ‖v‖ := hR.trans_le hv
  have hsplit : u - radial R v = (u - v) + ((‖v‖ - R) / ‖v‖) • v := by
    rw [radial_of_ge hR hv, sub_div, div_self hpos.ne', sub_smul, one_smul]
    abel
  have hback : ‖((‖v‖ - R) / ‖v‖) • v‖ = ‖v‖ - R := norm_div_smul (by linarith) hpos
  have hclose : ‖v‖ - ‖u‖ ≤ ‖u - v‖ := by
    rw [norm_sub_rev u]
    exact norm_sub_norm_le v u
  calc ‖u - radial R v‖ ≤ ‖u - v‖ + ‖((‖v‖ - R) / ‖v‖) • v‖ := by
        rw [hsplit]
        exact norm_add_le (u - v) _
    _ ≤ 2 * ‖u - v‖ := by
        rw [hback]
        linarith

/-- Close vectors have close limits. -/
theorem norm_radial_sub_radial_le {R : ℝ} (hR : 0 < R) (u v : E) :
    ‖radial R u - radial R v‖ ≤ 2 * ‖u - v‖ := by
  rcases le_total ‖u‖ R with hu | hu <;> rcases le_total ‖v‖ R with hv | hv
  · rw [radial_of_le hu, radial_of_le hv]
    linarith [norm_nonneg (u - v)]
  · rw [radial_of_le hu]
    exact norm_sub_radial_le hR hu hv
  · rw [radial_of_le hv, norm_sub_rev _ v, norm_sub_rev u]
    exact norm_sub_radial_le hR hv hu
  · have hupos : 0 < ‖u‖ := hR.trans_le hu
    have hvpos : 0 < ‖v‖ := hR.trans_le hv
    have hsplit : radial R u - radial R v =
        (R / ‖u‖) • ((u - v) + ((‖v‖ - ‖u‖) / ‖v‖) • v) := by
      rw [radial_of_ge hR hu, radial_of_ge hR hv, smul_add, smul_sub, smul_smul]
      rw [sub_add, ← sub_smul]
      congr 2
      field_simp
      ring
    have hturn : ‖((‖v‖ - ‖u‖) / ‖v‖) • v‖ ≤ ‖u - v‖ := by
      rw [norm_smul, Real.norm_eq_abs, abs_div, abs_norm, div_mul_cancel₀ _ hvpos.ne',
        norm_sub_rev]
      exact abs_norm_sub_norm_le v u
    have hratio : ‖R / ‖u‖‖ ≤ 1 := by
      rw [Real.norm_of_nonneg (by positivity)]
      exact (div_le_one hupos).mpr hu
    calc ‖radial R u - radial R v‖
        = ‖R / ‖u‖‖ * ‖(u - v) + ((‖v‖ - ‖u‖) / ‖v‖) • v‖ := by rw [hsplit, norm_smul]
      _ ≤ 1 * (‖u - v‖ + ‖u - v‖) := by
          gcongr
          exact (norm_add_le _ _).trans (add_le_add le_rfl hturn)
      _ = 2 * ‖u - v‖ := by ring

/-! ## Approximate lengths -/

section Approximate

variable {L M R δ ε : ℝ} {v : E}

/-- A vector scaled by its approximate length is hardly longer than the limit. -/
theorem norm_scaled_le (hL : 0 ≤ L) (hLM : L < M) (hδ : 0 ≤ δ) (hv : ‖v‖ ≤ M + δ) :
    ‖(L / M) • v‖ ≤ L + δ := by
  have hM : 0 < M := hL.trans_lt hLM
  rw [norm_smul, Real.norm_of_nonneg (by positivity), div_mul_eq_mul_div, div_le_iff₀ hM]
  nlinarith

/-- A vector whose approximate length does not exceed the approximate radius. -/
theorem norm_unlimited_sub_radial_le (hR : 0 < R) (hδ : 0 ≤ δ) (hε : |L - R| ≤ ε)
    (hlength : |M - ‖v‖| ≤ δ) (h : M ≤ L) : ‖v - radial R v‖ ≤ δ + ε := by
  rw [abs_le] at hlength hε
  rcases le_total ‖v‖ R with hv | hv
  · rw [radial_of_le hv, sub_self, norm_zero]
    linarith
  · have hpos : 0 < ‖v‖ := hR.trans_le hv
    have hsplit : v - radial R v = ((‖v‖ - R) / ‖v‖) • v := by
      rw [radial_of_ge hR hv, sub_div, div_self hpos.ne', sub_smul, one_smul]
    rw [hsplit, norm_div_smul (by linarith) hpos]
    linarith

/-- A vector scaled by the approximate radius over the approximate length. -/
theorem norm_scaled_sub_radial_le (hR : 0 < R) (hL : 0 ≤ L) (hδ : 0 ≤ δ) (hε : |L - R| ≤ ε)
    (hlength : |M - ‖v‖| ≤ δ) (h : L < M) : ‖(L / M) • v - radial R v‖ ≤ δ + ε := by
  have hM : 0 < M := hL.trans_lt h
  have hfraction : L / M ≤ 1 := (div_le_one hM).mpr h.le
  have hfraction₀ : 0 ≤ L / M := by positivity
  have hwhole : L / M * M = L := div_mul_cancel₀ L hM.ne'
  rw [abs_le] at hlength hε
  rcases le_total ‖v‖ R with hv | hv
  · have hsplit : (L / M) • v - v = (L / M - 1) • v := by rw [sub_smul, one_smul]
    rw [radial_of_le hv, hsplit, norm_smul, Real.norm_of_nonpos (by linarith)]
    nlinarith [norm_nonneg v]
  · have hpos : 0 < ‖v‖ := hR.trans_le hv
    have hsplit : (L / M) • v - radial R v = ((L / M * ‖v‖ - R) / ‖v‖) • v := by
      rw [radial_of_ge hR hv, ← sub_smul]
      congr 1
      field_simp
    rw [hsplit, norm_smul, Real.norm_eq_abs, abs_div, abs_norm, div_mul_cancel₀ _ hpos.ne', abs_le]
    constructor <;> nlinarith

end Approximate

end Xhive.Support
