import Xhive.Fieldctrl.Arith
import Mathlib.Analysis.SpecialFunctions.Pow.NNReal
import Mathlib.Analysis.Complex.Norm

/-!
# The computed length of a vector

`fcq_hypot` computes `h * sqrt (1 + (l/h)²)` of the greater and the lesser
component with five roundings.  The result is never below either component, and
within full scale it is two units from the exact length at most.
-/

namespace Xhive.Fieldctrl

open Xhive.Support Xhive.Linears Xhive.Filters

/-- A vector of working values in the plane. -/
noncomputable def planar (a b : Int64) : ℂ :=
  a.toInt + b.toInt * Complex.I

@[simp] theorem planar_re (a b : Int64) : (planar a b).re = a.toInt := by
  simp [planar]

@[simp] theorem planar_im (a b : Int64) : (planar a b).im = b.toInt := by
  simp [planar]

theorem norm_planar (a b : Int64) :
    ‖planar a b‖ = Real.sqrt ((a.toInt : ℝ) ^ 2 + (b.toInt : ℝ) ^ 2) := by
  have hcast : planar a b = ((a.toInt : ℝ) : ℂ) + ((b.toInt : ℝ) : ℂ) * Complex.I := by
    rw [planar]
    push_cast
    rfl
  rw [hcast, Complex.norm_add_mul_I]

/-! ## The five roundings -/

/-- A length computed as `h * sqrt (1 + (l/h)²)` in units of `1/N`, with each of
its five results within half a unit, falls short of the exact one by two at most. -/
theorem scaled_length_le {N h l r s t m : ℝ} (hN : 2 ≤ N) (hl : 0 ≤ l) (hlh : l ≤ h) (hpos : 0 < h)
    (hh : h ≤ N) (hr₀ : 0 ≤ r) (hr : l * N / h - 1 / 2 ≤ r) (hs : r * r / N - 1 / 2 ≤ s - N)
    (ht : Real.sqrt (s * N) - 1 / 2 ≤ t) (hm : h * t / N - 1 / 2 ≤ m) :
    Real.sqrt (h ^ 2 + l ^ 2) ≤ m + 2 := by
  have hNpos : 0 < N := by linarith
  obtain ⟨x, rfl⟩ : ∃ x, l = x * h := ⟨l / h, (div_mul_cancel₀ l hpos.ne').symm⟩
  have hx₀ : 0 ≤ x := nonneg_of_mul_nonneg_left hl hpos
  have hx₁ : x ≤ 1 := by
    by_contra hx
    nlinarith
  have hratio : x * N - 1 / 2 ≤ r := by
    have heq : x * h * N / h = x * N := by field_simp
    rwa [heq] at hr
  -- The exact length is `h * y`.
  have hy := Real.sq_sqrt (show 0 ≤ 1 + x ^ 2 by positivity)
  have hy₁ : 1 ≤ Real.sqrt (1 + x ^ 2) := Real.one_le_sqrt.mpr (by nlinarith)
  have hlength : Real.sqrt (h ^ 2 + (x * h) ^ 2) = h * Real.sqrt (1 + x ^ 2) := by
    rw [show h ^ 2 + (x * h) ^ 2 = h ^ 2 * (1 + x ^ 2) by ring, Real.sqrt_mul (sq_nonneg h),
      Real.sqrt_sq hpos.le]
  rw [hlength]
  generalize Real.sqrt (1 + x ^ 2) = y at hy hy₁
  have hsquare : (x * N) ^ 2 - x * N ≤ r * r := by
    have hxN : 0 ≤ x * N := by positivity
    rcases le_or_gt (1 / 2) (x * N) with hbig | hsmall
    · nlinarith
    · nlinarith
  have hradicand : (N * y - 1) ^ 2 ≤ s * N := by
    have hs' : r * r ≤ (s - N + 1 / 2) * N := by
      rw [← div_le_iff₀ hNpos]
      linarith
    nlinarith
  have hroot : N * y - 1 ≤ Real.sqrt (s * N) := Real.le_sqrt_of_sq_le hradicand
  have hscaled : h * y - 3 / 2 ≤ h * t / N := by
    rw [le_div_iff₀ hNpos]
    nlinarith
  linarith

/-- It exceeds the exact one by two at most. -/
theorem scaled_length_ge {N h l r s t m : ℝ} (hN : 2 ≤ N) (hl : 0 ≤ l) (hlh : l ≤ h) (hpos : 0 < h)
    (hh : h ≤ N) (hr₀ : 0 ≤ r) (hr : r ≤ l * N / h + 1 / 2) (hs : s - N ≤ r * r / N + 1 / 2)
    (ht : t ≤ Real.sqrt (s * N) + 1 / 2) (hm : m ≤ h * t / N + 1 / 2) :
    m ≤ Real.sqrt (h ^ 2 + l ^ 2) + 2 := by
  have hNpos : 0 < N := by linarith
  obtain ⟨x, rfl⟩ : ∃ x, l = x * h := ⟨l / h, (div_mul_cancel₀ l hpos.ne').symm⟩
  have hx₀ : 0 ≤ x := nonneg_of_mul_nonneg_left hl hpos
  have hx₁ : x ≤ 1 := by
    by_contra hx
    nlinarith
  have hratio : r ≤ x * N + 1 / 2 := by
    have heq : x * h * N / h = x * N := by field_simp
    rwa [heq] at hr
  have hy := Real.sq_sqrt (show 0 ≤ 1 + x ^ 2 by positivity)
  have hy₁ : 1 ≤ Real.sqrt (1 + x ^ 2) := Real.one_le_sqrt.mpr (by nlinarith)
  have hlength : Real.sqrt (h ^ 2 + (x * h) ^ 2) = h * Real.sqrt (1 + x ^ 2) := by
    rw [show h ^ 2 + (x * h) ^ 2 = h ^ 2 * (1 + x ^ 2) by ring, Real.sqrt_mul (sq_nonneg h),
      Real.sqrt_sq hpos.le]
  rw [hlength]
  generalize Real.sqrt (1 + x ^ 2) = y at hy hy₁
  have hsquare : r * r ≤ (x * N) ^ 2 + x * N + 1 / 4 := by nlinarith
  have hradicand : s * N ≤ (N * y + 1) ^ 2 := by
    have hs' : (s - N - 1 / 2) * N ≤ r * r := by
      rw [← le_div_iff₀ hNpos]
      linarith
    nlinarith
  have hroot : Real.sqrt (s * N) ≤ N * y + 1 := Real.sqrt_le_iff.mpr ⟨by positivity, hradicand⟩
  have hscaled : h * t / N ≤ h * y + 3 / 2 := by
    rw [div_le_iff₀ hNpos]
    nlinarith
  linarith

/-! ## The length -/

/-- The length from the greater and the lesser component. -/
def hypotWork (hi lo : Int64) : Except Status Int64 := do
  let ratio ← fcqDiv lo hi
  let sum ← fcqMul ratio ratio
  let sum ← fcqAdd fixedOne sum
  let root ← fcqSqrt sum
  fcqMul hi root

theorem fcqAbs_minValue : fcqAbs Int64.minValue = .error .errorRange := rfl

/-- A vector with a magnitude has magnitudes of its coordinates. -/
theorem fcqHypot_ok_ne {a b m : Int64} (h : fcqHypot a b = .ok m) :
    a ≠ Int64.minValue ∧ b ≠ Int64.minValue := by
  rw [fcqHypot] at h
  obtain ⟨aa, ha, h⟩ := ok_of_bind h
  obtain ⟨bb, hb, -⟩ := ok_of_bind h
  constructor <;> rintro rfl
  · simp [fcqAbs_minValue] at ha
  · simp [fcqAbs_minValue] at hb

/-- The magnitudes of the components in order. -/
theorem fcqHypot_eq {a b : Int64} (ha : a ≠ Int64.minValue) (hb : b ≠ Int64.minValue) :
    ∃ hi lo : Int64, hi.toInt = max |a.toInt| |b.toInt| ∧ lo.toInt = min |a.toInt| |b.toInt| ∧
      fcqHypot a b = if hi = 0 then .ok 0 else hypotWork hi lo := by
  obtain ⟨aa, haa, ha⟩ := fcqAbs_total ha
  obtain ⟨bb, hbb, hb⟩ := fcqAbs_total hb
  rw [fcqHypot, haa, hbb, ok_bind, ok_bind, ← ha, ← hb]
  by_cases hge : fcqCmp aa bb ≥ 0
  · have hle := (fcqCmp_ge aa bb).mp hge
    simp only [if_pos hge]
    exact ⟨aa, bb, (max_eq_left hle).symm, (min_eq_right hle).symm, rfl⟩
  · have hle : aa.toInt ≤ bb.toInt := (not_le.mp ((fcqCmp_ge aa bb).not.mp hge)).le
    simp only [if_neg hge]
    exact ⟨bb, aa, (max_eq_right hle).symm, (min_eq_left hle).symm, rfl⟩

/-- A rounded value is at most its argument plus one half. -/
theorem roundAway_le_add_half (x : ℝ) : roundAway x ≤ x + 1 / 2 := by
  have h := abs_le.mp (abs_sub_roundAway_le x)
  linarith [h.1]

theorem ratCast_le_add_half (x : ℚ) : ((roundAway x : ℤ) : ℝ) ≤ x + 1 / 2 := by
  have h := (abs_le.mp (abs_sub_roundAway_le x)).1
  have hcast : ((-(1 / 2) : ℚ) : ℝ) ≤ ((x - (roundAway x : ℚ) : ℚ) : ℝ) := Rat.cast_le.mpr h
  push_cast at hcast
  linarith

theorem abs_ratCast_sub_le (x : ℚ) : |((roundAway x : ℤ) : ℝ) - x| ≤ 1 / 2 := by
  have hlow := sub_half_le_ratCast x
  have hhigh := ratCast_le_add_half x
  rw [abs_le]
  constructor <;> linarith

theorem fcqMul_near {a b c : Int64} (h : fcqMul a b = .ok c) :
    |(c.toInt : ℝ) - a.toInt * b.toInt / 2 ^ 31| ≤ 1 / 2 := by
  have hnear := abs_ratCast_sub_le ((a.toInt : ℚ) * b.toInt / 2 ^ 31)
  rw [← fcqMul_ok h] at hnear
  exact_mod_cast hnear

theorem fcqDiv_near {a b c : Int64} (hb : b ≠ 0) (h : fcqDiv a b = .ok c) :
    |(c.toInt : ℝ) - a.toInt * 2 ^ 31 / b.toInt| ≤ 1 / 2 := by
  have hnear := abs_ratCast_sub_le ((a.toInt : ℚ) * 2 ^ 31 / b.toInt)
  rw [← fcqDiv_ok hb h] at hnear
  exact_mod_cast hnear

theorem hypotWork_ok {hi lo m : Int64} (hlo : 0 ≤ lo.toInt) (hle : lo.toInt ≤ hi.toInt)
    (hpos : 0 < hi.toInt) (h : hypotWork hi lo = .ok m) :
    hi.toInt ≤ m.toInt ∧ (hi.toInt ≤ 2 ^ 31 →
      |(m.toInt : ℝ) - Real.sqrt ((hi.toInt : ℝ) ^ 2 + (lo.toInt : ℝ) ^ 2)| ≤ 2) := by
  have hne : hi ≠ 0 := by
    rintro rfl
    exact absurd hpos (by decide)
  obtain ⟨ratio, hratio, h⟩ := ok_of_bind h
  obtain ⟨square, hsquare, h⟩ := ok_of_bind h
  obtain ⟨sum, hsumOk, h⟩ := ok_of_bind h
  obtain ⟨root, hroot, h⟩ := ok_of_bind h
  have hsquareValue := fcqMul_ok hsquare
  have hsumValue := fcqAdd_ok hsumOk
  rw [toInt_fixedOne] at hsumValue
  have hposQ : (0 : ℚ) < hi.toInt := by exact_mod_cast hpos
  have hposR : (0 : ℝ) < hi.toInt := by exact_mod_cast hpos
  have hsquare₀ : 0 ≤ square.toInt := by
    rw [hsquareValue]
    have := mul_self_nonneg (ratio.toInt : ℚ)
    exact roundAway_nonneg (by positivity)
  have hrootValue := fcqSqrt_ok (by omega) hroot
  -- The root is at least one.
  have hroot₁ : (2 ^ 31 : ℤ) ≤ root.toInt := by
    rw [hrootValue]
    apply le_roundAway
    apply Real.le_sqrt_of_sq_le
    have : (2 ^ 31 : ℝ) ≤ sum.toInt := by exact_mod_cast (by omega : (2 ^ 31 : ℤ) ≤ sum.toInt)
    push_cast
    nlinarith
  constructor
  · rw [fcqMul_ok h]
    apply le_roundAway
    rw [le_div_iff₀ (by norm_num)]
    have : (2 ^ 31 : ℚ) ≤ root.toInt := by exact_mod_cast hroot₁
    exact mul_le_mul_of_nonneg_left this hposQ.le
  · intro hfull
    have hratio₀ : 0 ≤ ratio.toInt := by
      rw [fcqDiv_ok hne hratio]
      have : (0 : ℚ) ≤ lo.toInt := by exact_mod_cast hlo
      exact roundAway_nonneg (by positivity)
    have hlowRatio := sub_half_le_ratCast ((lo.toInt : ℚ) * 2 ^ 31 / hi.toInt)
    have hlowSquare := sub_half_le_ratCast ((ratio.toInt : ℚ) * ratio.toInt / 2 ^ 31)
    have hlowRoot := sub_half_le_roundAway (Real.sqrt ((sum.toInt : ℝ) * 2 ^ 31))
    have hlowLength := sub_half_le_ratCast ((hi.toInt : ℚ) * root.toInt / 2 ^ 31)
    have hhighRatio := ratCast_le_add_half ((lo.toInt : ℚ) * 2 ^ 31 / hi.toInt)
    have hhighSquare := ratCast_le_add_half ((ratio.toInt : ℚ) * ratio.toInt / 2 ^ 31)
    have hhighRoot := roundAway_le_add_half (Real.sqrt ((sum.toInt : ℝ) * 2 ^ 31))
    have hhighLength := ratCast_le_add_half ((hi.toInt : ℚ) * root.toInt / 2 ^ 31)
    rw [← fcqDiv_ok hne hratio] at hlowRatio hhighRatio
    rw [← hsquareValue] at hlowSquare hhighSquare
    rw [← hrootValue] at hlowRoot hhighRoot
    rw [← fcqMul_ok h] at hlowLength hhighLength
    push_cast at hlowRatio hlowSquare hlowLength hhighRatio hhighSquare hhighLength
    have hsumReal : (sum.toInt : ℝ) = 2 ^ 31 + square.toInt := by exact_mod_cast hsumValue
    have hloR : (0 : ℝ) ≤ lo.toInt := by exact_mod_cast hlo
    have hleR : (lo.toInt : ℝ) ≤ hi.toInt := by exact_mod_cast hle
    have hfullR : (hi.toInt : ℝ) ≤ 2 ^ 31 := by exact_mod_cast hfull
    have hratioR : (0 : ℝ) ≤ ratio.toInt := by exact_mod_cast hratio₀
    rw [abs_le]
    constructor
    · have := scaled_length_le (N := 2 ^ 31) (by norm_num) hloR hleR hposR hfullR hratioR hlowRatio
        (by linarith) hlowRoot hlowLength
      linarith
    · have := scaled_length_ge (N := 2 ^ 31) (by norm_num) hloR hleR hposR hfullR hratioR hhighRatio
        (by linarith) hhighRoot hhighLength
      linarith

/-- The computed length is at least each component, and within full scale it is two
units from the exact length at most. -/
theorem fcqHypot_ok {a b m : Int64} (h : fcqHypot a b = .ok m) :
    |a.toInt| ≤ m.toInt ∧ |b.toInt| ≤ m.toInt ∧
      (|a.toInt| ≤ 2 ^ 31 → |b.toInt| ≤ 2 ^ 31 → |(m.toInt : ℝ) - ‖planar a b‖| ≤ 2) := by
  obtain ⟨hane, hbne⟩ := fcqHypot_ok_ne h
  obtain ⟨hi, lo, hhi, hlo, heq⟩ := fcqHypot_eq hane hbne
  have hlo₀ : 0 ≤ lo.toInt := hlo ▸ le_min (abs_nonneg _) (abs_nonneg _)
  have hle : lo.toInt ≤ hi.toInt := by
    rw [hlo, hhi]
    exact min_le_max
  have ha : |a.toInt| ≤ hi.toInt := hhi ▸ le_max_left _ _
  have hb : |b.toInt| ≤ hi.toInt := hhi ▸ le_max_right _ _
  have hlength : ‖planar a b‖ = Real.sqrt ((hi.toInt : ℝ) ^ 2 + (lo.toInt : ℝ) ^ 2) := by
    rw [norm_planar, hhi, hlo, ← sq_abs (a.toInt : ℝ), ← sq_abs (b.toInt : ℝ)]
    push_cast
    rcases le_total |(a.toInt : ℝ)| |(b.toInt : ℝ)| with hab | hab
    · rw [max_eq_right hab, min_eq_left hab, add_comm]
    · rw [max_eq_left hab, min_eq_right hab]
  rw [heq] at h
  split_ifs at h with hzero
  · cases h
    rw [hzero] at ha hb hle
    have hlozero : lo.toInt = 0 := le_antisymm hle hlo₀
    refine ⟨ha, hb, fun _ _ => ?_⟩
    rw [hlength, hzero, hlozero, Int64.toInt_zero]
    norm_num
  · have hpos : 0 < hi.toInt := by
      have hne : hi.toInt ≠ 0 := fun hz => hzero (Int64.toInt_inj.mp hz)
      omega
    obtain ⟨hlow, hclose⟩ := hypotWork_ok hlo₀ hle hpos h
    refine ⟨ha.trans hlow, hb.trans hlow, fun hafull hbfull => ?_⟩
    rw [hlength]
    exact hclose (hhi ▸ max_le hafull hbfull)

/-- Within full scale the length is computed. -/
theorem fcqHypot_total {a b : Int64} (ha : |a.toInt| ≤ 2 ^ 31) (hb : |b.toInt| ≤ 2 ^ 31) :
    ∃ m, fcqHypot a b = .ok m ∧ m.toInt ≤ 2 ^ 32 := by
  have hne : ∀ {x : Int64}, |x.toInt| ≤ 2 ^ 31 → x ≠ Int64.minValue := by
    rintro x hx rfl
    exact absurd hx (by decide)
  obtain ⟨hi, lo, hhi, hlo, heq⟩ := fcqHypot_eq (hne ha) (hne hb)
  rw [heq]
  split_ifs with hzero
  · exact ⟨0, rfl, by decide⟩
  · have hfull : |hi.toInt| ≤ 2 ^ 31 := by
      rw [hhi, abs_of_nonneg (le_max_of_le_left (abs_nonneg _))]
      exact max_le ha hb
    have hle : |lo.toInt| ≤ |hi.toInt| := by
      rw [hhi, hlo, abs_of_nonneg (le_min (abs_nonneg _) (abs_nonneg _)),
        abs_of_nonneg (le_max_of_le_left (abs_nonneg _))]
      exact min_le_max
    obtain ⟨ratio, hratio, hratioLe⟩ := fcqDiv_total (a := lo) (n := 2 ^ 31) hzero
      (by rw [mul_comm]; exact mul_le_mul_of_nonneg_left hle (by norm_num)) (by norm_num)
    obtain ⟨square, hsquare, hsquareLe⟩ := fcqMul_total (a := ratio) (b := ratio) (n := 2 ^ 31)
      (by rw [abs_mul]; exact mul_le_mul hratioLe hratioLe (abs_nonneg _) (by norm_num))
      (by norm_num)
    have hsquare₀ : 0 ≤ square.toInt := by
      rw [fcqMul_ok hsquare]
      have := mul_self_nonneg (ratio.toInt : ℚ)
      exact roundAway_nonneg (by positivity)
    rw [abs_of_nonneg hsquare₀] at hsquareLe
    obtain ⟨sum, hsum⟩ := fcqAdd_total (a := fixedOne) (b := square)
      (by rw [toInt_fixedOne, abs_lt]; omega)
    have hsumValue := fcqAdd_ok hsum
    rw [toInt_fixedOne] at hsumValue
    obtain ⟨root, hroot⟩ := fcqSqrt_total (show 0 ≤ sum.toInt by omega)
    have hrootLe : |root.toInt| ≤ 2 ^ 32 := by
      rw [fcqSqrt_ok (by omega) hroot, abs_of_nonneg (roundAway_nonneg (Real.sqrt_nonneg _))]
      apply roundAway_le
      rw [Real.sqrt_le_left (by norm_num)]
      have : (sum.toInt : ℝ) ≤ 2 ^ 32 := by exact_mod_cast (by omega : sum.toInt ≤ 2 ^ 32)
      push_cast
      nlinarith
    obtain ⟨m, hm, hmLe⟩ := fcqMul_total (a := hi) (b := root) (n := 2 ^ 32)
      (by rw [abs_mul, mul_comm]; exact mul_le_mul hrootLe hfull (abs_nonneg _) (by norm_num))
      (by norm_num)
    refine ⟨m, ?_, (le_abs_self _).trans hmLe⟩
    rw [hypotWork, hratio, ok_bind, hsquare, ok_bind, hsum, ok_bind, hroot, ok_bind, hm]

end Xhive.Fieldctrl
