import Mathlib.Algebra.BigOperators.Field
import Mathlib.Algebra.Order.BigOperators.Ring.Finset
import Mathlib.Analysis.Real.Sqrt
import Mathlib.Tactic.FieldSimp
import Mathlib.Tactic.LinearCombination

/-!
# Inner products of stored columns

The Gram entries of an array, how a plane rotation of two columns changes them,
and the coordinate vector that is longest after projection.
-/

namespace Xhive.Support

/-- The inner product of columns `j` and `k` of the first `rows` rows. -/
def columnDot {R : Type} [CommRing R] (rows : ℕ) (b : ℕ × ℕ → R) (j k : ℕ) : R :=
  ∑ row ∈ Finset.range rows, b (row, j) * b (row, k)

section Rotation

variable {R : Type} [CommRing R] {rows p q : ℕ} {c s : R} {b t : ℕ × ℕ → R}

theorem columnDot_comm (rows : ℕ) (b : ℕ × ℕ → R) (j k : ℕ) : columnDot rows b j k = columnDot rows b k j :=
  Finset.sum_congr rfl fun _ _ => mul_comm _ _

theorem columnDot_congr {j j' k k' : ℕ} (hj : ∀ row < rows, t (row, j) = b (row, j'))
    (hk : ∀ row < rows, t (row, k) = b (row, k')) : columnDot rows t j k = columnDot rows b j' k' :=
  Finset.sum_congr rfl fun row hrow => by
    rw [hj row (Finset.mem_range.mp hrow), hk row (Finset.mem_range.mp hrow)]

/-- Columns `p` and `q` of `b` rotated into `t`. -/
structure Rotated (rows p q : ℕ) (c s : R) (b t : ℕ × ℕ → R) : Prop where
  first : ∀ row < rows, t (row, p) = c * b (row, p) - s * b (row, q)
  second : ∀ row < rows, t (row, q) = s * b (row, p) + c * b (row, q)
  other : ∀ row j, j ≠ p → j ≠ q → t (row, j) = b (row, j)

namespace Rotated

theorem columnDot_first (h : Rotated rows p q c s b t) (f : ℕ → R) :
    ∑ row ∈ Finset.range rows, t (row, p) * f row =
      c * ∑ row ∈ Finset.range rows, b (row, p) * f row -
        s * ∑ row ∈ Finset.range rows, b (row, q) * f row := by
  rw [Finset.mul_sum, Finset.mul_sum, ← Finset.sum_sub_distrib]
  refine Finset.sum_congr rfl fun row hrow => ?_
  rw [h.first row (Finset.mem_range.mp hrow)]
  ring

theorem columnDot_second (h : Rotated rows p q c s b t) (f : ℕ → R) :
    ∑ row ∈ Finset.range rows, t (row, q) * f row =
      s * ∑ row ∈ Finset.range rows, b (row, p) * f row +
        c * ∑ row ∈ Finset.range rows, b (row, q) * f row := by
  rw [Finset.mul_sum, Finset.mul_sum, ← Finset.sum_add_distrib]
  refine Finset.sum_congr rfl fun row hrow => ?_
  rw [h.second row (Finset.mem_range.mp hrow)]
  ring

theorem columnDot_first_other (h : Rotated rows p q c s b t) {k : ℕ} (hp : k ≠ p) (hq : k ≠ q) :
    columnDot rows t p k = c * columnDot rows b p k - s * columnDot rows b q k := by
  have hsum := h.columnDot_first fun row => t (row, k)
  simp only [h.other _ k hp hq] at hsum
  exact (Finset.sum_congr rfl fun row _ => by rw [h.other row k hp hq]).trans hsum

theorem columnDot_second_other (h : Rotated rows p q c s b t) {k : ℕ} (hp : k ≠ p) (hq : k ≠ q) :
    columnDot rows t q k = s * columnDot rows b p k + c * columnDot rows b q k := by
  have hsum := h.columnDot_second fun row => t (row, k)
  simp only [h.other _ k hp hq] at hsum
  exact (Finset.sum_congr rfl fun row _ => by rw [h.other row k hp hq]).trans hsum

theorem columnDot_other_other (h : Rotated rows p q c s b t) {j k : ℕ} (hjp : j ≠ p) (hjq : j ≠ q)
    (hkp : k ≠ p) (hkq : k ≠ q) : columnDot rows t j k = columnDot rows b j k :=
  columnDot_congr (fun row _ => h.other row j hjp hjq) fun row _ => h.other row k hkp hkq

theorem columnDot_first_first (h : Rotated rows p q c s b t) :
    columnDot rows t p p =
      c * c * columnDot rows b p p - 2 * (c * s) * columnDot rows b p q + s * s * columnDot rows b q q := by
  rw [columnDot, h.columnDot_first]
  simp only [mul_comm (b _) (t _)]
  rw [h.columnDot_first, h.columnDot_first]
  change c * (c * columnDot rows b p p - s * columnDot rows b q p) -
    s * (c * columnDot rows b p q - s * columnDot rows b q q) = _
  rw [columnDot_comm rows b q p]
  ring

theorem columnDot_second_second (h : Rotated rows p q c s b t) :
    columnDot rows t q q =
      s * s * columnDot rows b p p + 2 * (c * s) * columnDot rows b p q + c * c * columnDot rows b q q := by
  rw [columnDot, h.columnDot_second]
  simp only [mul_comm (b _) (t _)]
  rw [h.columnDot_second, h.columnDot_second]
  change s * (s * columnDot rows b p p + c * columnDot rows b q p) +
    c * (s * columnDot rows b p q + c * columnDot rows b q q) = _
  rw [columnDot_comm rows b q p]
  ring

/-- The entry a Jacobi rotation annihilates. -/
theorem columnDot_first_second (h : Rotated rows p q c s b t) :
    columnDot rows t p q =
      c * s * (columnDot rows b p p - columnDot rows b q q) + (c * c - s * s) * columnDot rows b p q := by
  rw [columnDot, h.columnDot_first]
  simp only [mul_comm (b _) (t _)]
  rw [h.columnDot_second, h.columnDot_second]
  change c * (s * columnDot rows b p p + c * columnDot rows b q p) -
    s * (s * columnDot rows b p q + c * columnDot rows b q q) = _
  rw [columnDot_comm rows b q p]
  ring

/-- Rotating two columns of an orthonormal family. -/
theorem orthonormal (h : Rotated rows p q c s b t) (hpq : p ≠ q) (hcs : c * c + s * s = 1)
    {n : ℕ} (hp : p < n) (hq : q < n)
    (hb : ∀ j k, j < n → k < n → columnDot rows b j k = if j = k then 1 else 0) :
    ∀ j k, j < n → k < n → columnDot rows t j k = if j = k then 1 else 0 := by
  have hpp : columnDot rows b p p = 1 := (hb p p hp hp).trans (if_pos rfl)
  have hqq : columnDot rows b q q = 1 := (hb q q hq hq).trans (if_pos rfl)
  have hzero : ∀ j k, j < n → k < n → j ≠ k → columnDot rows b j k = 0 := fun j k hj hk hne =>
    (hb j k hj hk).trans (if_neg hne)
  have hpq' := hzero p q hp hq hpq
  have hfirst : ∀ k, k < n → columnDot rows t p k = if p = k then 1 else 0 := by
    intro k hk
    by_cases hkp : k = p
    · rw [hkp, if_pos rfl, h.columnDot_first_first, hpp, hqq, hpq']
      linear_combination hcs
    · rw [if_neg (Ne.symm hkp)]
      by_cases hkq : k = q
      · rw [hkq, h.columnDot_first_second, hpp, hqq, hpq']
        ring
      · rw [h.columnDot_first_other hkp hkq, hzero p k hp hk (Ne.symm hkp),
          hzero q k hq hk (Ne.symm hkq)]
        ring
  have hsecond : ∀ k, k < n → columnDot rows t q k = if q = k then 1 else 0 := by
    intro k hk
    by_cases hkp : k = p
    · rw [hkp, columnDot_comm, hfirst q hq, if_neg hpq, if_neg (Ne.symm hpq)]
    · by_cases hkq : k = q
      · rw [hkq, if_pos rfl, h.columnDot_second_second, hpp, hqq, hpq']
        linear_combination hcs
      · rw [if_neg (Ne.symm hkq), h.columnDot_second_other hkp hkq, hzero p k hp hk (Ne.symm hkp),
          hzero q k hq hk (Ne.symm hkq)]
        ring
  intro j k hj hk
  by_cases hjp : j = p
  · rw [hjp, hfirst k hk]
  by_cases hjq : j = q
  · rw [hjq, hsecond k hk]
  by_cases hkp : k = p
  · rw [hkp, columnDot_comm, hfirst j hj]
    simp only [eq_comm]
  by_cases hkq : k = q
  · rw [hkq, columnDot_comm, hsecond j hj]
    simp only [eq_comm]
  · rw [h.columnDot_other_other hjp hjq hkp hkq, hb j k hj hk]

end Rotated

end Rotation

/-! ## The angle of a Jacobi rotation -/

section Jacobi

/-- The smaller root of `gamma t² + 2 delta t - gamma = 0`. -/
theorem jacobi_root {delta gamma t : ℝ} (hgamma : gamma ≠ 0)
    (ht : t = |gamma| / (|delta| + Real.sqrt (delta * delta + gamma * gamma))) :
    |gamma| * (t * t) + 2 * |delta| * t - |gamma| = 0 := by
  have hsquares : 0 < delta * delta + gamma * gamma := by
    have hpos := mul_self_pos.mpr hgamma
    have hnonneg := mul_self_nonneg delta
    linarith
  have hroot : 0 < Real.sqrt (delta * delta + gamma * gamma) := Real.sqrt_pos.mpr hsquares
  have hsum : |delta| + Real.sqrt (delta * delta + gamma * gamma) ≠ 0 :=
    (add_pos_of_nonneg_of_pos (abs_nonneg _) hroot).ne'
  have hsq : Real.sqrt (delta * delta + gamma * gamma) *
      Real.sqrt (delta * delta + gamma * gamma) = |delta| * |delta| + |gamma| * |gamma| := by
    rw [Real.mul_self_sqrt hsquares.le, abs_mul_abs_self, abs_mul_abs_self]
  generalize Real.sqrt (delta * delta + gamma * gamma) = root at *
  rw [ht]
  field_simp
  linear_combination -|gamma| * hsq

/-- The root with the sign rule of the rotation solves the signed equation. -/
theorem jacobi_signed_root {delta gamma t : ℝ}
    (h : |gamma| * (t * t) + 2 * |delta| * t - |gamma| = 0) (negate : Prop) [Decidable negate]
    (hsign : negate ↔ ¬(delta < 0 ↔ gamma < 0)) :
    gamma * ((if negate then -t else t) * (if negate then -t else t)) +
      2 * delta * (if negate then -t else t) - gamma = 0 := by
  rcases lt_or_ge delta 0 with hd | hd <;> rcases lt_or_ge gamma 0 with hg | hg
  · rw [if_neg (by simp [hsign, hd, hg])]
    rw [abs_of_neg hd, abs_of_neg hg] at h
    linear_combination -h
  · rw [if_pos (by simp [hsign, hd, hg.not_gt])]
    rw [abs_of_neg hd, abs_of_nonneg hg] at h
    linear_combination h
  · rw [if_pos (by simp [hsign, hg, hd.not_gt])]
    rw [abs_of_nonneg hd, abs_of_neg hg] at h
    linear_combination -h
  · rw [if_neg (by simp [hsign, hd.not_gt, hg.not_gt])]
    rw [abs_of_nonneg hd, abs_of_nonneg hg] at h
    linear_combination h

/-- Cosine and sine of the angle with tangent `t`. -/
theorem cosine_sine (t : ℝ) :
    1 / Real.sqrt (1 + t * t) * (1 / Real.sqrt (1 + t * t)) +
      t * (1 / Real.sqrt (1 + t * t)) * (t * (1 / Real.sqrt (1 + t * t))) = 1 := by
  have hpos : 0 < 1 + t * t := by
    have := mul_self_nonneg t
    linarith
  have hroot : Real.sqrt (1 + t * t) ≠ 0 := (Real.sqrt_pos.mpr hpos).ne'
  have hsq : Real.sqrt (1 + t * t) * Real.sqrt (1 + t * t) = 1 + t * t :=
    Real.mul_self_sqrt hpos.le
  generalize Real.sqrt (1 + t * t) = root at *
  field_simp
  linear_combination -hsq

end Jacobi

/-! ## Residuals of coordinate vectors -/

section Residual

variable {rows k : ℕ} {u : ℕ × ℕ → ℝ}

/-- Coordinate vector `c` without its components along the first `k` columns. -/
def leftover (u : ℕ × ℕ → ℝ) (k c row : ℕ) : ℝ :=
  (if row = c then 1 else 0) - ∑ j ∈ Finset.range k, u (c, j) * u (row, j)

theorem leftover_succ (u : ℕ × ℕ → ℝ) (k c row : ℕ) :
    leftover u (k + 1) c row = leftover u k c row - u (c, k) * u (row, k) := by
  rw [leftover, leftover, Finset.sum_range_succ]
  ring

/-- The component of a residual along a column. -/
theorem sum_mul_leftover {c : ℕ} (hc : c < rows) (u : ℕ × ℕ → ℝ) (k j : ℕ) :
    ∑ row ∈ Finset.range rows, u (row, j) * leftover u k c row =
      u (c, j) - ∑ i ∈ Finset.range k, u (c, i) * columnDot rows u j i := by
  have hterm : ∀ row, u (row, j) * leftover u k c row =
      (if row = c then u (row, j) else 0) -
        ∑ i ∈ Finset.range k, u (c, i) * (u (row, j) * u (row, i)) := by
    intro row
    rw [leftover, mul_sub, Finset.mul_sum]
    congr 1
    · split <;> ring
    · exact Finset.sum_congr rfl fun i _ => by ring
  rw [Finset.sum_congr rfl fun row _ => hterm row, Finset.sum_sub_distrib, Finset.sum_ite_eq',
    if_pos (Finset.mem_range.mpr hc), Finset.sum_comm]
  congr 1
  exact Finset.sum_congr rfl fun i _ => by rw [columnDot, Finset.mul_sum]

variable (hu : ∀ i j, i < k → j < k → columnDot rows u i j = if i = j then 1 else 0)

include hu in
theorem sum_mul_leftover_of_lt {c k' j : ℕ} (hc : c < rows) (hk : k' ≤ k) (hj : j < k) :
    ∑ row ∈ Finset.range rows, u (row, j) * leftover u k' c row =
      if j < k' then 0 else u (c, j) := by
  rw [sum_mul_leftover hc]
  have hterm : ∀ i ∈ Finset.range k', u (c, i) * columnDot rows u j i =
      if j = i then u (c, i) else 0 := by
    intro i hi
    rw [Finset.mem_range] at hi
    rw [hu j i hj (hi.trans_le hk)]
    split <;> ring
  rw [Finset.sum_congr rfl hterm, Finset.sum_ite_eq]
  simp only [Finset.mem_range]
  split <;> ring

include hu in
/-- The squared length that a projection leaves. -/
theorem sum_leftover_sq {c : ℕ} (hc : c < rows) :
    ∑ row ∈ Finset.range rows, leftover u k c row * leftover u k c row =
      1 - ∑ j ∈ Finset.range k, u (c, j) * u (c, j) := by
  have hself : ∑ row ∈ Finset.range rows, (if row = c then 1 else 0) * leftover u k c row =
      1 - ∑ j ∈ Finset.range k, u (c, j) * u (c, j) := by
    have hterm : ∀ row, (if row = c then 1 else 0) * leftover u k c row =
        if row = c then leftover u k c row else 0 := by
      intro row
      split <;> ring
    rw [Finset.sum_congr rfl fun row _ => hterm row, Finset.sum_ite_eq',
      if_pos (Finset.mem_range.mpr hc), leftover, if_pos rfl]
  have hcross : ∑ row ∈ Finset.range rows,
      (∑ j ∈ Finset.range k, u (c, j) * u (row, j)) * leftover u k c row = 0 := by
    simp only [Finset.sum_mul]
    rw [Finset.sum_comm]
    refine Finset.sum_eq_zero fun j hj => ?_
    rw [Finset.mem_range] at hj
    simp only [mul_assoc]
    rw [← Finset.mul_sum, sum_mul_leftover_of_lt hu hc le_rfl hj, if_pos hj, mul_zero]
  have hsplit : ∀ row, leftover u k c row * leftover u k c row =
      (if row = c then 1 else 0) * leftover u k c row -
        (∑ j ∈ Finset.range k, u (c, j) * u (row, j)) * leftover u k c row := by
    intro row
    rw [← sub_mul, ← leftover]
  rw [Finset.sum_congr rfl fun row _ => hsplit row, Finset.sum_sub_distrib, hself, hcross,
    sub_zero]

include hu in
/-- Fewer orthonormal columns than coordinates leave some coordinate vector a
residual of squared length at least `1 / rows`. -/
theorem exists_long_leftover (hk : k < rows) :
    ∃ c < rows, 1 / (rows : ℝ) ≤
      ∑ row ∈ Finset.range rows, leftover u k c row * leftover u k c row := by
  have hrows : (0 : ℝ) < rows := by exact_mod_cast Nat.zero_lt_of_lt hk
  have htotal : ∑ c ∈ Finset.range rows,
      ∑ row ∈ Finset.range rows, leftover u k c row * leftover u k c row = (rows : ℝ) - k := by
    have hsquares : ∑ c ∈ Finset.range rows, ∑ j ∈ Finset.range k, u (c, j) * u (c, j) = k := by
      rw [Finset.sum_comm]
      have hunit : ∀ j ∈ Finset.range k, ∑ c ∈ Finset.range rows, u (c, j) * u (c, j) = 1 := by
        intro j hj
        rw [Finset.mem_range] at hj
        exact (hu j j hj hj).trans (if_pos rfl)
      rw [Finset.sum_congr rfl hunit, Finset.sum_const, Finset.card_range, nsmul_eq_mul, mul_one]
    rw [Finset.sum_congr rfl fun c hc => sum_leftover_sq hu (Finset.mem_range.mp hc),
      Finset.sum_sub_distrib, hsquares, Finset.sum_const, Finset.card_range, nsmul_eq_mul, mul_one]
  by_contra hnone
  have hshort : ∀ c ∈ Finset.range rows,
      ∑ row ∈ Finset.range rows, leftover u k c row * leftover u k c row < 1 / (rows : ℝ) := by
    intro c hc
    exact not_le.mp fun hle => hnone ⟨c, Finset.mem_range.mp hc, hle⟩
  have hlt := Finset.sum_lt_sum_of_nonempty
    (Finset.nonempty_range_iff.mpr (Nat.ne_zero_of_lt hk)) hshort
  rw [htotal, Finset.sum_const, Finset.card_range, nsmul_eq_mul, mul_one_div_cancel hrows.ne'] at hlt
  have hone : (k : ℝ) + 1 ≤ rows := by exact_mod_cast hk
  linarith

end Residual

end Xhive.Support
