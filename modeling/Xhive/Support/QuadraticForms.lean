import Mathlib.Algebra.BigOperators.Field
import Mathlib.Algebra.BigOperators.Ring.Finset
import Mathlib.Algebra.Order.BigOperators.Ring.Finset
import Mathlib.Tactic.FieldSimp
import Mathlib.Tactic.Ring
import Mathlib.LinearAlgebra.Matrix.Block
import Mathlib.LinearAlgebra.Matrix.NonsingularInverse
import Mathlib.LinearAlgebra.Matrix.Permutation
import Mathlib.Order.Interval.Finset.Fin

/-!
# Determinants and permutations of square matrices

Facts about matrices indexed by `Fin n` that eliminations rely on.
-/

namespace Xhive.Support

open Matrix

variable {R : Type} [CommRing R] {n : ℕ}

/-- A matrix whose columns up to `k` vanish from row `k` on is singular: those
`k + 1` columns live in `k` rows. -/
theorem det_eq_zero_of_zero_block {M : Matrix (Fin n) (Fin n) R} {k : Fin n}
    (h : ∀ i j, k ≤ i → j ≤ k → M i j = 0) : M.det = 0 := by
  rw [Matrix.det_apply]
  refine Finset.sum_eq_zero fun σ _ => ?_
  -- some column `j ≤ k` is sent to a row `k` or below
  obtain ⟨j, hj, hσ⟩ : ∃ j, j ≤ k ∧ k ≤ σ j := by
    by_contra hnone
    have hmaps : ∀ j ∈ Finset.Iic k, σ j ∈ Finset.Iio k := by
      intro j hj
      rw [Finset.mem_Iic] at hj
      rw [Finset.mem_Iio]
      exact not_le.mp fun hk => hnone ⟨j, hj, hk⟩
    have hcard := Finset.card_le_card_of_injOn σ hmaps σ.injective.injOn
    rw [Fin.card_Iic, Fin.card_Iio] at hcard
    omega
  have hprod : ∏ i, M (σ i) i = 0 := Finset.prod_eq_zero (Finset.mem_univ j) (h (σ j) j hσ hj)
  rw [hprod, smul_zero]

/-- Left multiplication by a permutation matrix reads rows through the
permutation. -/
theorem permMatrix_mul_apply {m : ℕ} (σ : Equiv.Perm (Fin n)) (M : Matrix (Fin n) (Fin m) R)
    (i : Fin n) (j : Fin m) : (σ.permMatrix R * M) i j = M (σ i) j := by
  rw [Equiv.Perm.permMatrix, PEquiv.toMatrix_toPEquiv_mul]
  rfl

end Xhive.Support

/-!
## Quadratic forms of arrays

Positive definiteness of an array over an ordered field, and its two sides for
a triangular factor: a product `L * Lᵀ` with nonzero diagonal is positive
definite, and an array whose last pivot is not positive takes a nonpositive
value at a vector found by back substitution.
-/

namespace Xhive.Support

variable {K : Type} [Field K]

/-- The value of the form of the leading `n`-by-`n` block. -/
def form (n : ℕ) (a : ℕ × ℕ → K) (x : ℕ → K) : K :=
  ∑ i ∈ Finset.range n, ∑ j ∈ Finset.range n, x i * a (i, j) * x j

/-- Entry `(i, j)` of `L * Lᵀ` over the first `m` columns of `L`. -/
def gram (l : ℕ × ℕ → K) (m : ℕ) (x : ℕ × ℕ) : K :=
  ∑ k ∈ Finset.range m, l (x.1, k) * l (x.2, k)

theorem gram_comm (l : ℕ × ℕ → K) (m i j : ℕ) : gram l m (i, j) = gram l m (j, i) :=
  Finset.sum_congr rfl fun _ _ => mul_comm _ _

theorem gram_succ (l : ℕ × ℕ → K) (m i j : ℕ) :
    gram l (m + 1) (i, j) = gram l m (i, j) + l (i, m) * l (j, m) :=
  Finset.sum_range_succ _ _

/-- A row whose later columns vanish adds nothing to the products behind them. -/
theorem gram_of_above {l : ℕ × ℕ → K} {m i j : ℕ} (hj : j < m)
    (h : ∀ c, j < c → c < m → l (j, c) = 0) :
    gram l m (i, j) = gram l (j + 1) (i, j) := by
  symm
  apply Finset.sum_subset (Finset.range_subset_range.mpr hj)
  intro c hc hout
  rw [Finset.mem_range] at hc hout
  dsimp only
  rw [h c (by omega) hc, mul_zero]

theorem form_congr {n : ℕ} {a b : ℕ × ℕ → K} (h : ∀ i < n, ∀ j < n, a (i, j) = b (i, j))
    (x : ℕ → K) : form n a x = form n b x := by
  apply Finset.sum_congr rfl
  intro i hi
  apply Finset.sum_congr rfl
  intro j hj
  rw [h i (Finset.mem_range.mp hi) j (Finset.mem_range.mp hj)]

/-- A vector that vanishes from `m` on sees only the leading `m`-by-`m` block. -/
theorem form_of_zero {m n : ℕ} (hmn : m ≤ n) (a : ℕ × ℕ → K) {x : ℕ → K}
    (hx : ∀ k, m ≤ k → x k = 0) : form n a x = form m a x := by
  have hsub : Finset.range m ⊆ Finset.range n := Finset.range_subset_range.mpr hmn
  have houtside : ∀ k ∉ Finset.range m, x k = 0 := fun k hk =>
    hx k (not_lt.mp (mt Finset.mem_range.mpr hk))
  rw [form, form, ← Finset.sum_subset hsub]
  · apply Finset.sum_congr rfl
    intro i _
    rw [← Finset.sum_subset hsub]
    intro j _ hj
    rw [houtside j hj, mul_zero]
  · intro i _ hi
    apply Finset.sum_eq_zero
    intro j _
    rw [houtside i hi, zero_mul, zero_mul]

/-- The form of a Gram array is a sum of squares. -/
theorem form_gram (n m : ℕ) (l : ℕ × ℕ → K) (x : ℕ → K) :
    form n (gram l m) x =
      ∑ k ∈ Finset.range m, (∑ i ∈ Finset.range n, l (i, k) * x i) *
        ∑ i ∈ Finset.range n, l (i, k) * x i := by
  have hterm : ∀ i j, x i * gram l m (i, j) * x j =
      ∑ k ∈ Finset.range m, (l (i, k) * x i) * (l (j, k) * x j) := by
    intro i j
    rw [gram, Finset.mul_sum, Finset.sum_mul]
    exact Finset.sum_congr rfl fun k _ => by ring
  simp only [form, hterm, Finset.sum_mul_sum]
  calc
    ∑ i ∈ Finset.range n, ∑ j ∈ Finset.range n, ∑ k ∈ Finset.range m,
        l (i, k) * x i * (l (j, k) * x j)
      = ∑ i ∈ Finset.range n, ∑ k ∈ Finset.range m, ∑ j ∈ Finset.range n,
          l (i, k) * x i * (l (j, k) * x j) :=
        Finset.sum_congr rfl fun i _ => Finset.sum_comm
    _ = ∑ k ∈ Finset.range m, ∑ i ∈ Finset.range n, ∑ j ∈ Finset.range n,
          l (i, k) * x i * (l (j, k) * x j) := Finset.sum_comm

/-! ## Triangular factors -/

/-- `L` is lower triangular with nonzero diagonal on the first `n` rows. -/
structure Triangular (n : ℕ) (l : ℕ × ℕ → K) : Prop where
  above : ∀ i < n, ∀ k < n, i < k → l (i, k) = 0
  diagonal_ne : ∀ i < n, l (i, i) ≠ 0

/-- Back substitution: the columns before `i` annihilate a vector that ends with
a one in row `i`. -/
theorem exists_annihilated {i : ℕ} {l : ℕ × ℕ → K} (h : Triangular i l) (p : ℕ) (hp : p ≤ i) :
    ∃ x : ℕ → K, x i = 1 ∧ (∀ k, i < k → x k = 0) ∧
      ∀ m, p ≤ m → m < i → ∑ k ∈ Finset.range (i + 1), l (k, m) * x k = 0 := by
  induction hp using Nat.decreasingInduction with
  | self =>
      refine ⟨fun k => if k = i then 1 else 0, if_pos rfl, fun k hk => if_neg hk.ne', ?_⟩
      exact fun m hm hmi => absurd hmi (not_lt.mpr hm)
  | of_succ p hp ih =>
      obtain ⟨x, hone, hzero, hsum⟩ := ih
      have hmem : p ∈ Finset.range (i + 1) := Finset.mem_range.mpr (by omega)
      let rest := ∑ k ∈ (Finset.range (i + 1)).erase p, l (k, p) * x k
      refine ⟨Function.update x p (-rest / l (p, p)), ?_, ?_, ?_⟩
      · rw [Function.update_of_ne hp.ne', hone]
      · intro k hk
        rw [Function.update_of_ne (by omega), hzero k hk]
      · intro m hm hmi
        have hothers : ∑ k ∈ (Finset.range (i + 1)).erase p,
            l (k, m) * Function.update x p (-rest / l (p, p)) k =
            ∑ k ∈ (Finset.range (i + 1)).erase p, l (k, m) * x k := by
          apply Finset.sum_congr rfl
          intro k hk
          rw [Function.update_of_ne (Finset.ne_of_mem_erase hk)]
        rw [← Finset.add_sum_erase _ _ hmem, hothers, Function.update_self]
        rcases Nat.eq_or_lt_of_le hm with rfl | hlt
        · rw [mul_div_cancel₀ _ (h.diagonal_ne p hp)]
          exact neg_add_cancel rest
        · have hbefore := hsum m hlt hmi
          rw [← Finset.add_sum_erase _ _ hmem] at hbefore
          rw [h.above p hp m hmi hlt, zero_mul] at hbefore ⊢
          exact hbefore

section Ordered

variable [LinearOrder K] [IsStrictOrderedRing K]

/-- The form is positive at every vector that is not zero on the block. -/
def PositiveDefinite (n : ℕ) (a : ℕ × ℕ → K) : Prop :=
  ∀ x : ℕ → K, (∃ i < n, x i ≠ 0) → 0 < form n a x

/-- At the last nonzero entry of a vector its column of `L` sees nothing else. -/
theorem positiveDefinite_gram {n : ℕ} {l : ℕ × ℕ → K} (h : Triangular n l) :
    PositiveDefinite n (gram l n) := by
  intro x hx
  classical
  have hnonempty : ((Finset.range n).filter fun i => x i ≠ 0).Nonempty := by
    obtain ⟨i, hi, hne⟩ := hx
    exact ⟨i, Finset.mem_filter.mpr ⟨Finset.mem_range.mpr hi, hne⟩⟩
  obtain ⟨last, hlast, hmax⟩ := Finset.exists_max_image _ id hnonempty
  rw [Finset.mem_filter, Finset.mem_range] at hlast
  have hcolumn : ∑ i ∈ Finset.range n, l (i, last) * x i = l (last, last) * x last := by
    apply Finset.sum_eq_single_of_mem last (Finset.mem_range.mpr hlast.1)
    intro i hi hne
    rw [Finset.mem_range] at hi
    rcases Nat.lt_or_ge i last with hlt | hge
    · rw [h.above i hi last hlast.1 hlt, zero_mul]
    · have hxi : x i = 0 := by
        by_contra hxi
        have hle := hmax i (Finset.mem_filter.mpr ⟨Finset.mem_range.mpr hi, hxi⟩)
        exact hne (le_antisymm hle hge)
      rw [hxi, mul_zero]
  have hne := mul_ne_zero (h.diagonal_ne last hlast.1) hlast.2
  rw [form_gram]
  apply Finset.sum_pos' fun k _ => mul_self_nonneg _
  refine ⟨last, Finset.mem_range.mpr hlast.1, ?_⟩
  rw [hcolumn]
  exact lt_of_le_of_ne (mul_self_nonneg _) (mul_self_ne_zero.mpr hne).symm

/-- A pivot that is not positive refutes positive definiteness. -/
theorem not_positiveDefinite_of_pivot {n i : ℕ} (hi : i < n) {a l : ℕ × ℕ → K}
    (hl : Triangular i l)
    (hrow : ∀ k ≤ i, ∀ m ≤ i, (k, m) ≠ (i, i) → a (k, m) = gram l i (k, m))
    (hpivot : a (i, i) ≤ gram l i (i, i)) : ¬PositiveDefinite n a := by
  intro hpositive
  obtain ⟨x, hone, hzero, hsum⟩ := exists_annihilated hl 0 (Nat.zero_le i)
  have hgram : form (i + 1) (gram l i) x = 0 := by
    rw [form_gram]
    apply Finset.sum_eq_zero
    intro m hm
    rw [hsum m (Nat.zero_le m) (Finset.mem_range.mp hm), zero_mul]
  have hle : form (i + 1) a x ≤ form (i + 1) (gram l i) x := by
    apply Finset.sum_le_sum
    intro k hk
    apply Finset.sum_le_sum
    intro m hm
    rw [Finset.mem_range] at hk hm
    by_cases heq : (k, m) = (i, i)
    · obtain ⟨rfl, rfl⟩ := Prod.mk.inj heq
      rw [hone, one_mul, mul_one, one_mul, mul_one]
      exact hpivot
    · rw [hrow k (by omega) m (by omega) heq]
  have hlt := hpositive x ⟨i, hi, by rw [hone]; exact one_ne_zero⟩
  rw [form_of_zero (show i + 1 ≤ n by omega) a fun k hk => hzero k (by omega)] at hlt
  exact absurd (hlt.trans_le (hle.trans_eq hgram)) (lt_irrefl 0)

end Ordered

end Xhive.Support
