import Mathlib.Algebra.Order.BigOperators.Ring.Finset
import Mathlib.Tactic.Linarith
import Mathlib.Tactic.Ring

/-!
# Weighted means and covariances without division

Sums over nonnegative weights: the mean is between the extremes, a variance is
not negative, and a covariance is at most a quarter of the squared range.
Every statement is multiplied out by the total weight.
-/

namespace Xhive.Support

open Finset

variable {ι R : Type} [CommRing R] (s : Finset ι) (w u v : ι → R)

/-- The sum of `u` under the weights. -/
def weightedSum : R :=
  ∑ i ∈ s, w i * u i

/-- The covariance of `u` and `v` times the squared total weight. -/
def scaledCovariance : R :=
  (∑ i ∈ s, w i) * weightedSum s w (fun i => u i * v i) -
    weightedSum s w u * weightedSum s w v

theorem weightedSum_add : weightedSum s w (fun i => u i + v i) =
    weightedSum s w u + weightedSum s w v := by
  simp only [weightedSum, mul_add, sum_add_distrib]

theorem weightedSum_sub : weightedSum s w (fun i => u i - v i) =
    weightedSum s w u - weightedSum s w v := by
  simp only [weightedSum, mul_sub, sum_sub_distrib]

theorem weightedSum_const (c : R) : weightedSum s w (fun _ => c) = (∑ i ∈ s, w i) * c := by
  rw [weightedSum, sum_mul]

theorem weightedSum_mul_left (c : R) :
    weightedSum s w (fun i => c * u i) = c * weightedSum s w u := by
  simp only [weightedSum, mul_sum, mul_left_comm]

/-- The covariance of a sum with itself. -/
theorem scaledCovariance_add_self :
    scaledCovariance s w (fun i => u i + v i) (fun i => u i + v i) =
      scaledCovariance s w u u + 2 * scaledCovariance s w u v + scaledCovariance s w v v := by
  have hexpand : (fun i => (u i + v i) * (u i + v i)) =
      fun i => (u i * u i + 2 * (u i * v i)) + v i * v i := by
    funext i
    ring
  simp only [scaledCovariance, hexpand, weightedSum_add, weightedSum_mul_left]
  ring

theorem scaledCovariance_sub_self :
    scaledCovariance s w (fun i => u i - v i) (fun i => u i - v i) =
      scaledCovariance s w u u - 2 * scaledCovariance s w u v + scaledCovariance s w v v := by
  have hexpand : (fun i => (u i - v i) * (u i - v i)) =
      fun i => (u i * u i - 2 * (u i * v i)) + v i * v i := by
    funext i
    ring
  simp only [scaledCovariance, hexpand, weightedSum_add, weightedSum_sub, weightedSum_mul_left]
  ring

/-- A covariance about means `a` and `b`, corrected by their remainders, from
products that stand for `unit` times the products of the residuals. -/
theorem corrected_covariance_eq (unit a b : R) (p : ι → R) :
    (∑ i ∈ s, w i) * (unit * weightedSum s w p) -
        (weightedSum s w u - (∑ i ∈ s, w i) * a) * (weightedSum s w v - (∑ i ∈ s, w i) * b) =
      scaledCovariance s w u v +
        (∑ i ∈ s, w i) * weightedSum s w fun i => unit * p i - (u i - a) * (v i - b) := by
  have hexpand : (fun i => unit * p i - (u i - a) * (v i - b)) =
      fun i => unit * p i - (u i * v i - b * u i - a * v i + a * b) := by
    funext i
    ring
  rw [hexpand, weightedSum_sub, weightedSum_add, weightedSum_sub, weightedSum_sub,
    weightedSum_const, weightedSum_mul_left, weightedSum_mul_left, weightedSum_mul_left,
    scaledCovariance]
  ring

section Order

variable {s w u v} [LinearOrder R] [IsStrictOrderedRing R] {lo hi range : R}

theorem weightedSum_le_weightedSum (hw : ∀ i ∈ s, 0 ≤ w i) (h : ∀ i ∈ s, u i ≤ v i) :
    weightedSum s w u ≤ weightedSum s w v :=
  sum_le_sum fun i hi => mul_le_mul_of_nonneg_left (h i hi) (hw i hi)

/-- The mean is between the extremes. -/
theorem weightedSum_bounds (hw : ∀ i ∈ s, 0 ≤ w i) (hlo : ∀ i ∈ s, lo ≤ u i)
    (hhi : ∀ i ∈ s, u i ≤ hi) :
    (∑ i ∈ s, w i) * lo ≤ weightedSum s w u ∧ weightedSum s w u ≤ (∑ i ∈ s, w i) * hi := by
  rw [← weightedSum_const, ← weightedSum_const]
  exact ⟨weightedSum_le_weightedSum hw hlo, weightedSum_le_weightedSum hw hhi⟩

/-- A variance is not negative. -/
theorem scaledCovariance_self_nonneg (hw : ∀ i ∈ s, 0 ≤ w i) : 0 ≤ scaledCovariance s w u u := by
  have hsquare := sum_sq_le_sum_mul_sum_of_sq_le_mul s (r := fun i => w i * u i)
    (g := fun i => w i * (u i * u i)) hw
    (fun i hi => mul_nonneg (hw i hi) (mul_self_nonneg _))
    (fun i _ => le_of_eq (by ring))
  rw [scaledCovariance, sub_nonneg, ← sq]
  exact hsquare

/-- A variance is at most a quarter of the squared range. -/
theorem four_mul_scaledCovariance_self_le (hw : ∀ i ∈ s, 0 ≤ w i) (hlo : ∀ i ∈ s, lo ≤ u i)
    (hhi : ∀ i ∈ s, u i ≤ hi) :
    4 * scaledCovariance s w u u ≤ ((∑ i ∈ s, w i) * (hi - lo)) ^ 2 := by
  have htotal : 0 ≤ ∑ i ∈ s, w i := sum_nonneg hw
  -- the product of the distances to both ends is not negative
  have hproduct : 0 ≤ weightedSum s w fun i => (hi + lo) * u i - u i * u i - hi * lo := by
    apply sum_nonneg
    intro i hmem
    apply mul_nonneg (hw i hmem)
    have hends := mul_nonneg (sub_nonneg.mpr (hhi i hmem)) (sub_nonneg.mpr (hlo i hmem))
    linarith
  rw [weightedSum_sub, weightedSum_sub, weightedSum_mul_left, weightedSum_const] at hproduct
  have hscaled := mul_nonneg htotal hproduct
  have hcenter := sq_nonneg ((∑ i ∈ s, w i) * (hi + lo) - 2 * weightedSum s w u)
  rw [scaledCovariance]
  linarith

/-- Twice a covariance is at most the sum of the variances. -/
theorem two_mul_abs_scaledCovariance_le (hw : ∀ i ∈ s, 0 ≤ w i) :
    2 * |scaledCovariance s w u v| ≤ scaledCovariance s w u u + scaledCovariance s w v v := by
  have hplus := scaledCovariance_self_nonneg (u := fun i => u i + v i) hw
  have hminus := scaledCovariance_self_nonneg (u := fun i => u i - v i) hw
  rw [scaledCovariance_add_self] at hplus
  rw [scaledCovariance_sub_self] at hminus
  rcases abs_cases (scaledCovariance s w u v) with ⟨habs, -⟩ | ⟨habs, -⟩ <;> rw [habs] <;> linarith

/-- A covariance is at most a quarter of the squared range. -/
theorem four_mul_abs_scaledCovariance_le {lo' hi' : R} (hw : ∀ i ∈ s, 0 ≤ w i)
    (hlo : ∀ i ∈ s, lo ≤ u i) (hhi : ∀ i ∈ s, u i ≤ hi) (hlo' : ∀ i ∈ s, lo' ≤ v i)
    (hhi' : ∀ i ∈ s, v i ≤ hi') (hrange : hi - lo = range) (hrange' : hi' - lo' = range) :
    4 * |scaledCovariance s w u v| ≤ ((∑ i ∈ s, w i) * range) ^ 2 := by
  have hcross := two_mul_abs_scaledCovariance_le (u := u) (v := v) hw
  have hfirst := four_mul_scaledCovariance_self_le hw hlo hhi
  have hsecond := four_mul_scaledCovariance_self_le hw hlo' hhi'
  rw [hrange] at hfirst
  rw [hrange'] at hsecond
  linarith

theorem abs_weightedSum_le {error : R} (hw : ∀ i ∈ s, 0 ≤ w i) (h : ∀ i ∈ s, |u i| ≤ error) :
    |weightedSum s w u| ≤ (∑ i ∈ s, w i) * error := by
  rw [abs_le, ← mul_neg]
  exact weightedSum_bounds hw (fun i hi => (abs_le.mp (h i hi)).1)
    fun i hi => (abs_le.mp (h i hi)).2

end Order

end Xhive.Support
