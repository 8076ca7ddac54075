import Mathlib
import Xhive.Support.Rounding

/-!
# Nested sums with rounded steps

`c i + x * (c (i + 1) + x * ...)` is a finite power series.  A fixed-point
evaluation at the scale `u` rounds every coefficient, every product and perhaps
the argument; its distance from the exact value, in units of the grid, is bounded
step by step.
-/

namespace Xhive.Support

open Finset

/-! ## The exact sums -/

section Nested

variable {K : Type*} [Field K]

/-- `n` terms of a nested sum, from the coefficient `i` on. -/
def nestedSum (c : ℕ → K) (x : K) : ℕ → ℕ → K
  | 0, _ => 0
  | n + 1, i => c i + x * nestedSum c x n (i + 1)

theorem nestedSum_eq (c : ℕ → K) (x : K) (n i : ℕ) :
    nestedSum c x n i = ∑ j ∈ range n, c (i + j) * x ^ j := by
  induction n generalizing i with
  | zero => rfl
  | succ n ih =>
      rw [nestedSum, ih, sum_range_succ', mul_sum, pow_zero, mul_one, Nat.add_zero, add_comm]
      refine congrArg (· + c i) (sum_congr rfl fun j _ => ?_)
      rw [Nat.add_assoc, Nat.add_comm 1 j, pow_succ]
      ring

variable [LinearOrder K] [IsStrictOrderedRing K]

/-- A geometric bound for every length. -/
theorem abs_nestedSum_le {c : ℕ → K} {x b M : K} (hc : ∀ i, |c i| ≤ 1) (hx : |x| ≤ b)
    (hM : 1 + b * M ≤ M) (hpos : 0 ≤ M) (n i : ℕ) : |nestedSum c x n i| ≤ M := by
  induction n generalizing i with
  | zero =>
      rw [nestedSum, abs_zero]
      exact hpos
  | succ n ih =>
      have hb : 0 ≤ b := (abs_nonneg x).trans hx
      calc |nestedSum c x (n + 1) i| ≤ |c i| + |x * nestedSum c x n (i + 1)| := abs_add_le _ _
        _ = |c i| + |x| * |nestedSum c x n (i + 1)| := by rw [abs_mul]
        _ ≤ 1 + b * M := add_le_add (hc i) (mul_le_mul hx (ih (i + 1)) (abs_nonneg _) hb)
        _ ≤ M := hM

/-! ## One rounded step -/

/-- What a scaled product inherits from its factors. -/
theorem abs_scaled_product {u S s p P e b d M : K} (hu : 0 < u) (hS : |S - u * s| ≤ d)
    (hSb : |S| ≤ u * b) (hp : |p - u * P| ≤ e) (hP : |P| ≤ M) :
    |p * S / u - u * (s * P)| ≤ b * e + M * d := by
  have hsplit : p * S / u - u * (s * P) = (p - u * P) * (S / u) + P * (S - u * s) := by
    field_simp
    ring
  have hratio : |S / u| ≤ b := by
    rw [abs_div, abs_of_pos hu, div_le_iff₀ hu, mul_comm]
    exact hSb
  rw [hsplit]
  calc |(p - u * P) * (S / u) + P * (S - u * s)| ≤
        |(p - u * P) * (S / u)| + |P * (S - u * s)| := abs_add_le _ _
    _ = |S / u| * |p - u * P| + |P| * |S - u * s| := by rw [abs_mul, abs_mul, mul_comm |S / u|]
    _ ≤ b * e + M * d :=
        add_le_add (mul_le_mul hratio hp (abs_nonneg _) ((abs_nonneg _).trans hratio))
          (mul_le_mul hP hS (abs_nonneg _) ((abs_nonneg _).trans hP))

/-- The error of a product with its own rounding. -/
theorem abs_rounded_product {u S s p P next e b d M : K} (hu : 0 < u)
    (hround : |next - p * S / u| ≤ 1 / 2) (hS : |S - u * s| ≤ d) (hSb : |S| ≤ u * b)
    (hp : |p - u * P| ≤ e) (hP : |P| ≤ M) :
    |next - u * (s * P)| ≤ 1 / 2 + (b * e + M * d) := by
  calc |next - u * (s * P)| ≤ |next - p * S / u| + |p * S / u - u * (s * P)| := abs_sub_le _ _ _
    _ ≤ 1 / 2 + (b * e + M * d) := add_le_add hround (abs_scaled_product hu hS hSb hp hP)

/-- The error of a step: half a unit for the coefficient, half for the product, and what the
argument and the inner sum carry. -/
theorem abs_nested_step {u c C S s p P next e b d M : K} (hu : 0 < u)
    (hc : |c - u * C| ≤ 1 / 2) (hround : |next - p * S / u| ≤ 1 / 2) (hS : |S - u * s| ≤ d)
    (hSb : |S| ≤ u * b) (hp : |p - u * P| ≤ e) (hP : |P| ≤ M) :
    |c + next - u * (C + s * P)| ≤ 1 + (b * e + M * d) := by
  have hsplit : c + next - u * (C + s * P) = (c - u * C) + (next - u * (s * P)) := by ring
  rw [hsplit]
  calc |(c - u * C) + (next - u * (s * P))| ≤ |c - u * C| + |next - u * (s * P)| :=
        abs_add_le _ _
    _ ≤ 1 / 2 + (1 / 2 + (b * e + M * d)) :=
        add_le_add hc (abs_rounded_product hu hround hS hSb hp hP)
    _ = 1 + (b * e + M * d) := by ring

end Nested

/-- The rounded quotient over the reals. -/
theorem abs_roundedQuotient_sub_real (n : ℕ) {d : ℕ} (hd : 0 < d) :
    |(roundedQuotient n d : ℝ) - n / d| ≤ 1 / 2 := by
  have hclose := (Rat.cast_le (K := ℝ)).mpr (abs_roundedQuotient_sub_le n hd)
  push_cast at hclose
  exact hclose

/-! ## The odd series of the logarithm -/

/-- The coefficients of the inverse hyperbolic tangent over its argument. -/
noncomputable def oddCoefficient (i : ℕ) : ℝ :=
  1 / (2 * i + 1 : ℕ)

theorem oddCoefficient_eq (i : ℕ) : oddCoefficient i = 1 / (2 * i + 1) := by
  rw [oddCoefficient, Nat.cast_add, Nat.cast_mul, Nat.cast_ofNat, Nat.cast_one]

theorem abs_oddCoefficient_le (i : ℕ) : |oddCoefficient i| ≤ 1 := by
  have hpos : (0 : ℝ) < 2 * i + 1 := by positivity
  rw [oddCoefficient_eq, abs_of_pos (by positivity), div_le_one hpos]
  have hi : (0 : ℝ) ≤ i := Nat.cast_nonneg i
  linarith

theorem mul_nestedSum_odd (x : ℝ) (n : ℕ) :
    x * nestedSum oddCoefficient (x ^ 2) n 0 = ∑ i ∈ range n, x ^ (2 * i + 1) / (2 * i + 1) := by
  rw [nestedSum_eq, mul_sum]
  refine sum_congr rfl fun i _ => ?_
  rw [Nat.zero_add, oddCoefficient_eq, ← pow_mul, pow_succ]
  ring

/-- What `n` terms of the series miss of the logarithm. -/
theorem log_sub_nestedSum_bounds {x : ℝ} (hx : 0 ≤ x) (hlt : x ≤ 1 / 3) (n : ℕ) :
    0 ≤ Real.log ((1 + x) / (1 - x)) - 2 * (x * nestedSum oddCoefficient (x ^ 2) n 0) ∧
      Real.log ((1 + x) / (1 - x)) - 2 * (x * nestedSum oddCoefficient (x ^ 2) n 0) ≤
        2 * ((1 / 3) ^ (2 * n + 1) / (2 * n + 1) + 9 / 8 * (1 / 3) ^ (2 * n + 3)) := by
  have hone : x < 1 := by linarith
  have hlow := Real.sum_range_le_log_div hx hone n
  have hhigh := Real.log_div_le_sum_range_add hx hone (n + 1)
  rw [sum_range_succ] at hhigh
  have hterm : x ^ (2 * n + 1) / (2 * n + 1) ≤ (1 / 3) ^ (2 * n + 1) / (2 * n + 1) :=
    div_le_div_of_nonneg_right (pow_le_pow_left₀ hx hlt _) (by positivity)
  have hsquare : x ^ 2 ≤ 1 / 9 := by nlinarith
  have hrest : x ^ (2 * (n + 1) + 1) / (1 - x ^ 2) ≤ 9 / 8 * (1 / 3) ^ (2 * n + 3) := by
    have hpow : x ^ (2 * (n + 1) + 1) ≤ (1 / 3) ^ (2 * n + 3) := pow_le_pow_left₀ hx hlt _
    have hthird : (0 : ℝ) ≤ (1 / 3) ^ (2 * n + 3) := by positivity
    rw [div_le_iff₀ (by linarith)]
    nlinarith
  rw [mul_nestedSum_odd]
  constructor <;> linarith

/-- An enclosure of the logarithm of two. -/
theorem log_two_bounds :
    (69314718055994530941 / 10 ^ 20 : ℝ) < Real.log 2 ∧
      Real.log 2 < 69314718055994530942 / 10 ^ 20 := by
  obtain ⟨hlow, hhigh⟩ := log_sub_nestedSum_bounds (x := 1 / 3) (by norm_num) le_rfl 24
  have hratio : (1 + 1 / 3 : ℝ) / (1 - 1 / 3) = 2 := by norm_num
  rw [hratio] at hlow hhigh
  simp only [nestedSum, oddCoefficient_eq] at hlow hhigh
  norm_num at hlow hhigh
  constructor <;> linarith

/-! ## The series of the exponential -/

/-- The coefficients of the exponential. -/
noncomputable def factorialCoefficient (i : ℕ) : ℝ :=
  1 / (i.factorial : ℝ)

theorem abs_factorialCoefficient_le (i : ℕ) : |factorialCoefficient i| ≤ 1 := by
  have hpos : (0 : ℝ) < i.factorial := by exact_mod_cast i.factorial_pos
  rw [factorialCoefficient, abs_of_pos (by positivity), div_le_one hpos]
  exact_mod_cast i.factorial_pos

/-- What `n` terms miss of the exponential of a small argument. -/
theorem abs_exp_sub_nestedSum_le {x b : ℝ} (hx : |x| ≤ b) (hb : b ≤ 1) {n : ℕ} (hn : 0 < n) :
    |Real.exp x - nestedSum factorialCoefficient x n 0| ≤
      b ^ n * ((n + 1) / (n.factorial * n)) := by
  have hsum : nestedSum factorialCoefficient x n 0 = ∑ m ∈ range n, x ^ m / m.factorial := by
    rw [nestedSum_eq]
    refine sum_congr rfl fun m _ => ?_
    rw [Nat.zero_add, factorialCoefficient, one_div_mul_eq_div]
  have hbound := Real.exp_bound (hx.trans hb) hn
  rw [hsum]
  rw [Nat.succ_eq_add_one, Nat.cast_add, Nat.cast_one] at hbound
  exact hbound.trans (mul_le_mul_of_nonneg_right (pow_le_pow_left₀ (abs_nonneg x) hx n)
    (by positivity))

/-- A shifted exponent, relative to the shifted exponential. -/
theorem abs_exp_sub_exp_le {x y k : ℝ} (hxy : |x - y| ≤ k) (hk : k ≤ 1) :
    |Real.exp x - Real.exp y| ≤ 2 * k * Real.exp y := by
  have hpos := Real.exp_pos y
  have hsplit : Real.exp x - Real.exp y = Real.exp y * (Real.exp (x - y) - 1) := by
    rw [mul_sub, mul_one, ← Real.exp_add]
    congr 2
    ring
  rw [hsplit, abs_mul, abs_of_pos hpos, mul_comm]
  exact mul_le_mul_of_nonneg_right ((Real.abs_exp_sub_one_le (hxy.trans hk)).trans
    (mul_le_mul_of_nonneg_left hxy two_pos.le)) hpos.le

end Xhive.Support
