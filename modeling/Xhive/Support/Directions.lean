import Mathlib.Analysis.SpecialFunctions.Complex.Arctan
import Mathlib.Analysis.SpecialFunctions.Complex.LogBounds
import Mathlib.Analysis.SpecialFunctions.Trigonometric.Bounds
import Mathlib.Analysis.SpecialFunctions.Trigonometric.Arctan
import Mathlib.Tactic.LinearCombination

/-!
# Directions of plane vectors

A vector of the plane is a complex number, and it points in every direction that
its argument gives modulo a turn.  A product by `1 + t i` turns it by the
arctangent of `t`, and a small error turns it by little.
-/

namespace Xhive.Support

open Complex Filter

/-- The vector points in the direction `θ`. -/
def Points (w : ℂ) (θ : ℝ) : Prop :=
  w = ‖w‖ * exp (θ * I)

theorem points_arg (w : ℂ) : Points w w.arg :=
  (norm_mul_exp_arg_mul_I w).symm

/-- The directions of a vector differ by whole turns. -/
theorem Points.exists_turns {w : ℂ} {θ φ : ℝ} (h : Points w θ) (h' : Points w φ) (hw : w ≠ 0) :
    ∃ k : ℤ, θ = φ + k * (2 * Real.pi) := by
  have hnorm : (‖w‖ : ℂ) ≠ 0 := by simpa using hw
  have hexp : exp (θ * I) = exp (φ * I) := mul_left_cancel₀ hnorm (h.symm.trans h')
  obtain ⟨k, hk⟩ := exp_eq_exp_iff_exists_int.mp hexp
  refine ⟨k, ?_⟩
  have hreal : (θ : ℂ) * I = ((φ + k * (2 * Real.pi) : ℝ) : ℂ) * I := by
    rw [hk]
    push_cast
    ring
  exact_mod_cast mul_right_cancel₀ I_ne_zero hreal

theorem one_add_mul_I (t : ℝ) :
    (1 + t * I : ℂ) = Real.sqrt (1 + t ^ 2) * exp (Real.arctan t * I) := by
  have hpos : 0 < Real.sqrt (1 + t ^ 2) := Real.sqrt_pos.mpr (by positivity)
  rw [exp_mul_I, ← ofReal_cos, ← ofReal_sin, Real.cos_arctan, Real.sin_arctan]
  have hne : (Real.sqrt (1 + t ^ 2) : ℂ) ≠ 0 := by exact_mod_cast hpos.ne'
  push_cast
  field_simp

theorem norm_one_add_mul_I (t : ℝ) : ‖(1 + t * I : ℂ)‖ = Real.sqrt (1 + t ^ 2) := by
  rw [one_add_mul_I, norm_mul, norm_exp_ofReal_mul_I, mul_one, norm_real, Real.norm_eq_abs,
    abs_of_nonneg (Real.sqrt_nonneg _)]

/-- A turn by the arctangent of `t`. -/
theorem Points.turn {w : ℂ} {θ : ℝ} (h : Points w θ) (t : ℝ) :
    Points (w * (1 + t * I)) (θ + Real.arctan t) := by
  rw [Points, norm_mul, norm_one_add_mul_I]
  conv_lhs => rw [h, one_add_mul_I]
  push_cast
  rw [add_mul, exp_add]
  ring

/-- A positive factor keeps the direction. -/
theorem Points.scale {w : ℂ} {θ : ℝ} (h : Points w θ) {r : ℝ} (hr : 0 ≤ r) :
    Points (w * r) θ := by
  rw [Points, norm_mul, norm_real, Real.norm_eq_abs, abs_of_nonneg hr]
  conv_lhs => rw [h]
  push_cast
  ring

/-- The opposite vector. -/
theorem Points.neg {w : ℂ} {θ : ℝ} (h : Points w θ) : Points (-w) (θ + Real.pi) := by
  rw [Points, norm_neg, ofReal_add, add_mul, exp_add, exp_pi_mul_I, mul_neg_one, mul_neg]
  exact congrArg Neg.neg h

/-- A small error turns a vector by little. -/
theorem Points.perturb {w e : ℂ} {θ ε : ℝ} (h : Points w θ) (hw : w ≠ 0)
    (he : ‖e‖ ≤ ε * ‖w‖) (hε : ε ≤ 1 / 2) :
    ∃ φ, Points (w + e) φ ∧ |φ - θ| ≤ 3 / 2 * ε := by
  have hnorm : 0 < ‖w‖ := norm_pos_iff.mpr hw
  have hratio : ‖e / w‖ ≤ ε := by
    rw [norm_div]
    exact (div_le_iff₀ hnorm).mpr he
  refine ⟨θ + (1 + e / w).arg, ?_, ?_⟩
  · have hproduct : w + e = w * (1 + e / w) := by field_simp
    rw [Points, hproduct, norm_mul]
    calc w * (1 + e / w)
        = ‖w‖ * exp (θ * I) * (‖1 + e / w‖ * exp ((1 + e / w).arg * I)) :=
          congrArg₂ (· * ·) h (points_arg (1 + e / w))
      _ = _ := by
          push_cast
          rw [add_mul, exp_add]
          ring
  · rw [add_sub_cancel_left, ← log_im]
    calc |(log (1 + e / w)).im| ≤ ‖log (1 + e / w)‖ := abs_im_le_norm _
      _ ≤ 3 / 2 * ‖e / w‖ := norm_log_one_add_half_le_self (hratio.trans hε)
      _ ≤ 3 / 2 * ε := by gcongr

/-- Unit vectors are no further apart than their directions. -/
theorem norm_exp_sub_exp_le (θ φ : ℝ) : ‖exp (θ * I) - exp (φ * I)‖ ≤ |θ - φ| := by
  have hfactor : exp (θ * I) - exp (φ * I) = exp (φ * I) * (exp (I * (θ - φ : ℝ)) - 1) := by
    rw [mul_sub, mul_one, ← exp_add]
    congr 2
    push_cast
    ring
  rw [hfactor, norm_mul, norm_exp_ofReal_mul_I, one_mul]
  exact Real.norm_exp_I_mul_ofReal_sub_one_le

/-! ## Partial sums of the arctangent -/

/-- The first `n` terms of the series of the arctangent. -/
def arctanSum (n : ℕ) (x : ℚ) : ℚ :=
  ∑ k ∈ Finset.range n, (-1) ^ k * (x ^ (2 * k + 1) / (2 * k + 1))

/-- The series is cut off with an error below the next term. -/
theorem abs_arctan_sub_le {x : ℚ} (h₀ : 0 ≤ x) (h₁ : x < 1) (n : ℕ) :
    |Real.arctan x - arctanSum (2 * n) x| ≤ (x : ℝ) ^ (4 * n + 1) / (4 * n + 1) := by
  have hx₀ : (0 : ℝ) ≤ x := by exact_mod_cast h₀
  have hx₁ : (x : ℝ) < 1 := by exact_mod_cast h₁
  have hsum := (Real.hasSum_arctan (x := (x : ℝ)) (by
    rwa [Real.norm_eq_abs, abs_of_nonneg hx₀])).tendsto_sum_nat
  have hterms : ∀ m : ℕ, ∑ k ∈ Finset.range m, (-1 : ℝ) ^ k * (x : ℝ) ^ (2 * k + 1) / ↑(2 * k + 1) =
      ∑ k ∈ Finset.range m, (-1) ^ k * ((x : ℝ) ^ (2 * k + 1) / (2 * k + 1)) := by
    intro m
    refine Finset.sum_congr rfl fun k _ => ?_
    push_cast
    rw [mul_div_assoc]
  simp only [hterms] at hsum
  have hanti : Antitone fun k : ℕ => (x : ℝ) ^ (2 * k + 1) / (2 * k + 1) := by
    refine antitone_nat_of_succ_le fun k => ?_
    have hpow : (x : ℝ) ^ (2 * (k + 1) + 1) ≤ (x : ℝ) ^ (2 * k + 1) :=
      pow_le_pow_of_le_one hx₀ hx₁.le (by omega)
    push_cast
    gcongr
    linarith
  have hlow := hanti.alternating_series_le_tendsto hsum n
  have hhigh := hanti.tendsto_le_alternating_series hsum n
  have hcast : ((arctanSum (2 * n) x : ℚ) : ℝ) =
      ∑ k ∈ Finset.range (2 * n), (-1) ^ k * ((x : ℝ) ^ (2 * k + 1) / (2 * k + 1)) := by
    rw [arctanSum]
    push_cast
    rfl
  rw [Finset.sum_range_succ, pow_mul, neg_one_sq, one_pow, one_mul] at hhigh
  rw [← hcast] at hlow hhigh
  rw [abs_of_nonneg (by linarith)]
  have hlast : (x : ℝ) ^ (2 * (2 * n) + 1) / (2 * ↑(2 * n) + 1) =
      (x : ℝ) ^ (4 * n + 1) / (4 * n + 1) := by
    push_cast
    ring_nf
  linarith

end Xhive.Support

/-!
## Sixths of a turn

A plane vector seen from a direction has a component along it and one across
it, its dot and cross product with the direction.  They decide whether the
vector lies in the half-open sixth of a turn about the direction, and how it
responds to a unit vector that leads or lags the direction.
-/

namespace Xhive.Support.Plane

def dot (u v : ℝ × ℝ) : ℝ := u.1 * v.1 + u.2 * v.2

def cross (u v : ℝ × ℝ) : ℝ := u.1 * v.2 - u.2 * v.1

noncomputable def length (u : ℝ × ℝ) : ℝ := Real.sqrt (dot u u)

/-- The unit vector at angle `θ`. -/
noncomputable def direction (θ : ℝ) : ℝ × ℝ := (Real.cos θ, Real.sin θ)

/-- The vector is not zero, and its angle lies in the half-open sixth of a turn
about `c`. -/
def InSixth (c : ℝ) (u : ℝ × ℝ) : Prop :=
  ∃ r θ, 0 < r ∧ c - Real.pi / 6 ≤ θ ∧ θ < c + Real.pi / 6 ∧
    u = (r * Real.cos θ, r * Real.sin θ)

theorem arctan_inv_sqrt_three : Real.arctan (1 / √3) = Real.pi / 6 := by
  rw [← Real.tan_pi_div_six]
  apply Real.arctan_tan <;> linarith [Real.pi_pos]

/-- The sixth about a direction is bounded by the slopes `±1/√3` against it. -/
theorem inSixth_of_slope {c : ℝ} {u : ℝ × ℝ} (hpos : 0 < dot (direction c) u)
    (hlow : -dot (direction c) u ≤ √3 * cross (direction c) u)
    (hhigh : √3 * cross (direction c) u < dot (direction c) u) : InSixth c u := by
  have hroot : (0 : ℝ) < √3 := by positivity
  have hone := Real.sin_sq_add_cos_sq c
  obtain ⟨x, hx⟩ : ∃ x, x = dot (direction c) u := ⟨_, rfl⟩
  obtain ⟨y, hy⟩ : ∃ y, y = cross (direction c) u := ⟨_, rfl⟩
  have hfst : u.1 = x * Real.cos c - y * Real.sin c := by
    rw [hx, hy, dot, cross, direction]
    linear_combination (-u.1) * hone
  have hsnd : u.2 = x * Real.sin c + y * Real.cos c := by
    rw [hx, hy, dot, cross, direction]
    linear_combination (-u.2) * hone
  rw [← hx] at hpos hlow hhigh
  rw [← hy] at hlow hhigh
  have hcos := Real.cos_arctan_pos (y / x)
  have hsin : Real.sin (Real.arctan (y / x)) = y / x * Real.cos (Real.arctan (y / x)) := by
    have htan := Real.tan_mul_cos hcos.ne'
    rw [Real.tan_arctan] at htan
    exact htan.symm
  refine ⟨x / Real.cos (Real.arctan (y / x)), c + Real.arctan (y / x), by positivity, ?_, ?_, ?_⟩
  · have hslope : -(1 / √3) ≤ y / x := by
      rw [← neg_div, div_le_div_iff₀ hroot hpos]
      linarith
    have harc := Real.arctan_mono hslope
    rw [Real.arctan_neg, arctan_inv_sqrt_three] at harc
    linarith
  · have hslope : y / x < 1 / √3 := by
      rw [div_lt_div_iff₀ hpos hroot]
      linarith
    have harc := Real.arctan_strictMono hslope
    rw [arctan_inv_sqrt_three] at harc
    linarith
  · rw [Real.cos_add, Real.sin_add, hsin]
    ext
    · rw [hfst]
      field_simp
    · rw [hsnd]
      field_simp

/-- The unit vector whose component along `d` is `f/2` and across it `t*√3/2`. -/
noncomputable def leading (d : ℝ × ℝ) (f t : ℝ) : ℝ × ℝ :=
  (f / (2 : ℕ) * d.1 - t * (√(3 : ℕ) / (2 : ℕ)) * d.2,
    f / (2 : ℕ) * d.2 + t * (√(3 : ℕ) / (2 : ℕ)) * d.1)

variable {d u : ℝ × ℝ} {f t : ℝ}

theorem cross_leading : cross u (leading d f t) =
    t * (√3 / 2) * dot d u - f / 2 * cross d u := by
  simp only [cross, leading, dot, Nat.cast_ofNat]
  ring

theorem dot_leading : dot u (leading d f t) =
    f / 2 * dot d u + t * (√3 / 2) * cross d u := by
  simp only [cross, leading, dot, Nat.cast_ofNat]
  ring

/-- A vector within a quarter turn and a bit of the leading vector turns the
way it leads. -/
theorem cross_leading_pos (hf : f = 1 ∨ f = -1) (ht : t = 1 ∨ t = -1)
    (hu : |cross d u| < √3 * dot d u) : 0 < t * cross u (leading d f t) := by
  obtain ⟨hlow, hhigh⟩ := abs_lt.mp hu
  rw [cross_leading]
  rcases hf with rfl | rfl <;> rcases ht with rfl | rfl <;> linarith

theorem dot_direction (θ : ℝ) : dot (direction θ) (direction θ) = 1 := by
  rw [dot, direction, ← pow_two, ← pow_two, Real.cos_sq_add_sin_sq]

theorem length_leading (hd : dot d d = 1) (hf : f = 1 ∨ f = -1) (ht : t = 1 ∨ t = -1) :
    length (leading d f t) = 1 := by
  have hroot : √3 * √3 = 3 := Real.mul_self_sqrt (by norm_num)
  have hunit : dot (leading d f t) (leading d f t) = 1 := by
    rw [dot] at hd
    simp only [dot, leading, Nat.cast_ofNat]
    rcases hf with rfl | rfl <;> rcases ht with rfl | rfl <;>
      linear_combination hd + (d.1 ^ 2 + d.2 ^ 2) / 4 * hroot
  rw [length, hunit, Real.sqrt_one]

/-- A component along a unit vector is at most the length. -/
theorem dot_le_length (hd : dot d d = 1) : dot d u ≤ length u := by
  apply Real.le_sqrt_of_sq_le
  have hsquares : dot d u ^ 2 + cross d u ^ 2 = dot d d * dot u u := by
    simp only [dot, cross]
    ring
  rw [hd, one_mul] at hsquares
  linarith [sq_nonneg (cross d u)]

/-- A vector whose slope exceeds `1/√3` by a factor of at most `1 + ε` is
opposed by the leading vector by at most `ε/2`. -/
theorem dot_leading_ge {ε : ℝ} (hε : 0 ≤ ε) (hd : dot d d = 1) (hf : f = 1 ∨ f = -1)
    (ht : t = 1 ∨ t = -1) (hu : √3 * |cross d u| ≤ (1 + ε) * dot d u) :
    -(ε / 2) * length u ≤ f * dot u (leading d f t) := by
  have hroot : (0 : ℝ) ≤ √3 := Real.sqrt_nonneg 3
  have hcross := mul_le_mul_of_nonneg_left (le_abs_self (cross d u)) hroot
  have hcross' := mul_le_mul_of_nonneg_left (neg_abs_le (cross d u)) hroot
  have hlength := mul_le_mul_of_nonneg_left (dot_le_length (u := u) hd) hε
  rw [dot_leading]
  rcases hf with rfl | rfl <;> rcases ht with rfl | rfl <;> linarith

end Xhive.Support.Plane
