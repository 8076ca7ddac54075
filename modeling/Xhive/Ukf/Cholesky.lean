import Xhive.Ukf.Arith

/-!
# The Cholesky factor of the unscented kernels

An entry of `ukf_cholesky` reads cells that are final when it is computed, so
the finished factor satisfies every entry equation, and an error is that of an
entry over such a partial factor.
-/

namespace Xhive.Ukf

open Xhive.Support Xhive.Linears

variable {W : Type} {A : WorkArith W} {a lower lower' : Grid W} {i j n : ℕ}

/-- An entry reads the two rows before its column and the pivot of the column. -/
theorem ukfCholeskyEntry_congr (hrow : ∀ k < j, lower' (i, k) = lower (i, k))
    (hcol : ∀ k < j, lower' (j, k) = lower (j, k))
    (hpivot : i ≠ j → lower' (j, j) = lower (j, j)) :
    ukfCholeskyEntry A a i j lower' = ukfCholeskyEntry A a i j lower := by
  have hsum : forRange 0 j (a (i, j)) (fun k value => do
      let product ← A.check (A.mul (lower' (i, k)) (lower' (j, k)))
      A.check (A.sub value product)) =
      forRange 0 j (a (i, j)) (fun k value => do
        let product ← A.check (A.mul (lower (i, k)) (lower (j, k)))
        A.check (A.sub value product)) := by
    apply forRange_congr
    intro k value _ hk
    rw [hrow k hk, hcol k hk]
  rw [ukfCholeskyEntry, ukfCholeskyEntry, hsum]
  congr 1
  funext value
  by_cases heq : i = j
  · rw [if_pos heq, if_pos heq]
  · rw [if_neg heq, if_neg heq, hpivot heq]

variable (A a i j) in
/-- The entries of the rows before `i` and of row `i` before column `j`. -/
structure FactorUpTo (lower : Grid W) : Prop where
  entry : ∀ r c, c ≤ r → r < i ∨ r = i ∧ c < j →
    ukfCholeskyEntry A a r c lower = .ok (lower (r, c))
  above : ∀ r c, r < c → lower (r, c) = A.zero

theorem FactorUpTo.next {value : W} (h : FactorUpTo A a i j lower) (hj : j ≤ i)
    (hvalue : ukfCholeskyEntry A a i j lower = .ok value) :
    FactorUpTo A a i (j + 1) (Function.update lower (i, j) value) := by
  have hkeep : ∀ r c, (r, c) ≠ (i, j) → Function.update lower (i, j) value (r, c) = lower (r, c) :=
    fun r c hne => Function.update_of_ne hne value lower
  have hsame : ∀ r c, c ≤ r → r < i ∨ r = i ∧ c ≤ j →
      ukfCholeskyEntry A a r c (Function.update lower (i, j) value) =
        ukfCholeskyEntry A a r c lower := by
    intro r c hcr hbefore
    apply ukfCholeskyEntry_congr
    · intro k hk
      apply hkeep
      rw [ne_eq, Prod.mk.injEq]
      omega
    · intro k hk
      apply hkeep
      rw [ne_eq, Prod.mk.injEq]
      omega
    · intro hne
      apply hkeep
      rw [ne_eq, Prod.mk.injEq]
      omega
  constructor
  · intro r c hcr hbefore
    rw [hsame r c hcr (by omega)]
    by_cases heq : (r, c) = (i, j)
    · obtain ⟨rfl, rfl⟩ := Prod.mk.inj heq
      rw [Function.update_self]
      exact hvalue
    · rw [hkeep r c heq]
      rw [Prod.mk.injEq] at heq
      exact h.entry r c hcr (by omega)
  · intro r c hrc
    rw [hkeep r c (by rw [ne_eq, Prod.mk.injEq]; omega)]
    exact h.above r c hrc

/-- The factor holds every entry; an error is that of an entry. -/
theorem Ensures.ukfCholesky (A : WorkArith W) (a : Grid W) (n : ℕ) :
    Ensures (Xhive.Ukf.ukfCholesky A n a) (FactorUpTo A a n 0) (fun e =>
      ∃ i < n, ∃ j ≤ i, ∃ lower, FactorUpTo A a i j lower ∧
        ukfCholeskyEntry A a i j lower = .error e) := by
  refine Ensures.forRange (fun i lower => FactorUpTo A a i 0 lower) (Nat.zero_le n) ?_ ?_
  · exact ⟨fun r c _ hbefore => by omega, fun _ _ _ => rfl⟩
  · intro i lower _ hi hrows
    have hrow : Ensures (fillRange 0 (i + 1) (fun j => (i, j)) lower (ukfCholeskyEntry A a i))
        (fun lower => FactorUpTo A a i (i + 1) lower) (fun e =>
          ∃ i < n, ∃ j ≤ i, ∃ lower, FactorUpTo A a i j lower ∧
            ukfCholeskyEntry A a i j lower = .error e) := by
      rw [fillRange]
      refine Ensures.forRange (fun j lower => FactorUpTo A a i j lower) (Nat.zero_le _) hrows ?_
      intro j lower _ hj hdone
      rcases hvalue : ukfCholeskyEntry A a i j lower with e | value
      · exact ⟨i, hi, j, Nat.lt_succ_iff.mp hj, lower, hdone, hvalue⟩
      · exact hdone.next (Nat.lt_succ_iff.mp hj) hvalue
    refine hrow.seq fun lower hdone => ?_
    have hzeros : (fun p : ℕ × ℕ =>
        if p.1 = i ∧ i < p.2 ∧ p.2 < n then A.zero else lower p) = lower := by
      funext p
      by_cases hp : p.1 = i ∧ i < p.2 ∧ p.2 < n
      · rw [if_pos hp]
        exact (hdone.above p.1 p.2 (hp.1 ▸ hp.2.1)).symm
      · rw [if_neg hp]
    rw [hzeros]
    exact ⟨fun r c hcr hbefore => hdone.entry r c hcr (by omega), hdone.above⟩

theorem ukfCholesky_ok (h : ukfCholesky A n a = .ok lower) : FactorUpTo A a n 0 lower :=
  (Ensures.ukfCholesky A a n).of_eq_ok h

/-- The pivot before its square root is positive. -/
theorem ukfCholesky_pivot (h : ukfCholesky A n a = .ok lower) (hi : i < n) :
    ∃ value, A.less A.zero value = true ∧ lower (i, i) = A.sqrt value ∧
      forRange 0 i (a (i, i)) (fun k value => do
        let product ← A.check (A.mul (lower (i, k)) (lower (i, k)))
        A.check (A.sub value product)) = .ok value := by
  have hentry := (ukfCholesky_ok h).entry i i le_rfl (Or.inl hi)
  rw [ukfCholeskyEntry] at hentry
  obtain ⟨value, hsum, hpivot⟩ := ok_of_bind hentry
  rw [if_pos rfl] at hpivot
  by_cases hpos : A.less A.zero value = true
  · rw [if_pos hpos] at hpivot
    exact ⟨value, hpos, (Except.ok.inj hpivot).symm, hsum⟩
  · rw [if_neg hpos] at hpivot
    cases hpivot

end Xhive.Ukf
