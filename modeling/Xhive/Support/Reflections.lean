import Mathlib.Data.Matrix.Mul
import Mathlib.Algebra.BigOperators.Field
import Mathlib.Analysis.Real.Sqrt
import Mathlib.LinearAlgebra.Matrix.ConjTranspose
import Mathlib.Tactic.LinearCombination
import Mathlib.Tactic.FieldSimp

/-!
# Householder reflections

The reflection `1 - 2 w wᵀ` along a unit vector, and the reflection that sends
a given unit vector to a multiple of a coordinate vector.
-/

namespace Xhive.Support

open Matrix

section Reflector

variable {R : Type} [CommRing R] {m n : ℕ}

def reflector (w : Fin m → R) : Matrix (Fin m) (Fin m) R :=
  Matrix.of fun i j => (if i = j then 1 else 0) - 2 • (w i * w j)

theorem reflector_mul_apply (w : Fin m → R) (M : Matrix (Fin m) (Fin n) R) (i : Fin m)
    (j : Fin n) :
    (reflector w * M) i j = M i j - w i * (2 * ∑ l, w l * M l j) := by
  rw [Matrix.mul_apply, Finset.mul_sum, Finset.mul_sum]
  have hterm : ∀ l, reflector w i l * M l j =
      (if i = l then M l j else 0) - w i * (2 * (w l * M l j)) := by
    intro l
    rw [reflector, Matrix.of_apply, two_nsmul]
    split <;> ring
  rw [Finset.sum_congr rfl fun l _ => hterm l, Finset.sum_sub_distrib, Finset.sum_ite_eq,
    if_pos (Finset.mem_univ i)]

theorem reflector_transpose (w : Fin m → R) : (reflector w)ᵀ = reflector w := by
  ext i j
  rw [Matrix.transpose_apply, reflector, Matrix.of_apply, Matrix.of_apply, mul_comm (w j)]
  simp only [eq_comm]

theorem mul_reflector_apply (w : Fin m → R) (M : Matrix (Fin n) (Fin m) R) (i : Fin n)
    (j : Fin m) :
    (M * reflector w) i j = M i j - (2 * ∑ l, M i l * w l) * w j := by
  have hflip : (M * reflector w) i j = (reflector w * Mᵀ) j i := by
    rw [← Matrix.transpose_apply (reflector w * Mᵀ), Matrix.transpose_mul, reflector_transpose,
      Matrix.transpose_transpose]
  rw [hflip, reflector_mul_apply, Matrix.transpose_apply]
  simp only [Matrix.transpose_apply, mul_comm (w _)]

/-- Reflecting twice is the identity. -/
theorem reflector_mul_self {w : Fin m → R} (hw : ∑ l, w l * w l = 1) :
    reflector w * reflector w = 1 := by
  ext i j
  rw [reflector_mul_apply]
  have hsum : ∑ l, w l * reflector w l j = -w j := by
    have hterm : ∀ l, w l * reflector w l j =
        (if l = j then w l else 0) - 2 * w j * (w l * w l) := by
      intro l
      rw [reflector, Matrix.of_apply]
      split <;> ring
    rw [Finset.sum_congr rfl fun l _ => hterm l, Finset.sum_sub_distrib, ← Finset.mul_sum, hw,
      Finset.sum_ite_eq', if_pos (Finset.mem_univ j)]
    ring
  rw [hsum, reflector, Matrix.of_apply, Matrix.one_apply]
  ring

end Reflector

/-! ## Reflections onto a coordinate -/

section Coordinate

variable {m : ℕ} {u : ℕ → ℝ} {sign : ℝ}

/-- A unit vector moved along coordinate `0` by `±1`. -/
theorem sum_shifted_sq (hm : 0 < m) (hu : ∑ l ∈ Finset.range m, u l * u l = 1)
    (hsign : sign * sign = 1) :
    ∑ l ∈ Finset.range m, (u l + if l = 0 then sign else 0) * (u l + if l = 0 then sign else 0) =
      2 * (1 + sign * u 0) := by
  have hterm : ∀ l, (u l + if l = 0 then sign else 0) * (u l + if l = 0 then sign else 0) =
      u l * u l + if l = 0 then 2 * sign * u l + 1 else 0 := by
    intro l
    split
    · linear_combination hsign
    · ring
  rw [Finset.sum_congr rfl fun l _ => hterm l, Finset.sum_add_distrib, hu, Finset.sum_ite_eq',
    if_pos (Finset.mem_range.mpr hm)]
  ring

/-- The normalised shifted vector reflects the unit vector onto the
coordinate. -/
theorem reflect_unit (hm : 0 < m) (hu : ∑ l ∈ Finset.range m, u l * u l = 1) {c : ℝ} (hc : c ≠ 0) (hcc : c * c = 2 * (1 + sign * u 0)) (i : ℕ) :
    u i - (u i + if i = 0 then sign else 0) / c *
        (2 * ∑ l ∈ Finset.range m, (u l + if l = 0 then sign else 0) / c * u l) =
      if i = 0 then -sign else 0 := by
  have hterm : ∀ l, (u l + if l = 0 then sign else 0) / c * u l =
      (u l * u l + if l = 0 then sign * u l else 0) / c := by
    intro l
    split <;> ring
  have hsum : ∑ l ∈ Finset.range m, (u l + if l = 0 then sign else 0) / c * u l =
      (1 + sign * u 0) / c := by
    rw [Finset.sum_congr rfl fun l _ => hterm l, ← Finset.sum_div, Finset.sum_add_distrib, hu,
      Finset.sum_ite_eq', if_pos (Finset.mem_range.mpr hm)]
  have hscale : (u i + if i = 0 then sign else 0) / c * (2 * ((1 + sign * u 0) / c)) =
      u i + if i = 0 then sign else 0 := by
    rw [div_mul_eq_mul_div, ← mul_div_assoc, ← mul_div_assoc, div_div, div_eq_iff (mul_ne_zero hc hc),
      hcc]
  rw [hsum, hscale]
  split <;> ring

end Coordinate

end Xhive.Support
