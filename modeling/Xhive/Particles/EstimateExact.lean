import Xhive.Particles.EstimateSafety

/-!
# The integer estimate is rounded once

A mean is the exact weighted mean, and a q15 covariance the exact weighted
covariance about the exact mean, each rounded once to the nearest raw value.  The
64-bit and the 128-bit accumulations of a sum are the same words.
-/

namespace Xhive.Particles

open Xhive.Support Xhive.Linears Xhive.Filters Finset

variable {Q : Type} [ParticleFormat Q] {weights : ℕ → Q} {particles : ℕ × ℕ → Q} {mean : ℕ → Q}
  {count : ℕ} {wide : Bool} {total : Accum}

/-! ## Exact moments -/

/-- The weighted mean of a coordinate in raw units. -/
def weightedMean (weights : ℕ → Q) (particles : ℕ × ℕ → Q) (count j : ℕ) : ℚ :=
  (∑ i ∈ range count, (rawWeight weights i : ℚ) * rawParticle particles i j) /
    ∑ i ∈ range count, (rawWeight weights i : ℚ)

/-- The weighted covariance about the exact means, in raw units of the signal. -/
def weightedCovariance (weights : ℕ → Q) (particles : ℕ × ℕ → Q) (count j k : ℕ) : ℚ :=
  (∑ i ∈ range count, (rawWeight weights i : ℚ) *
      ((rawParticle particles i j - weightedMean weights particles count j) *
        (rawParticle particles i k - weightedMean weights particles count k))) /
    (∑ i ∈ range count, (rawWeight weights i : ℚ)) / 2 ^ signalBits Q

namespace EstimateInputs

variable (h : EstimateInputs wide weights particles count total) {n : ℕ} {remainder : ℕ → Accum}

include h

theorem sum_rawWeight_cast : ∑ i ∈ range count, (rawWeight weights i : ℚ) = total.toNat := by
  exact_mod_cast h.sum_rawWeight

theorem weightedMean_eq (j : ℕ) :
    weightedMean weights particles count j =
      (exactMeanSum weights particles count j : ℚ) / total.toNat := by
  rw [weightedMean, h.sum_rawWeight_cast, exactMeanSum, weightedSum]
  push_cast
  rfl

/-- The covariance is the multiplied-out one over the squared total. -/
theorem weightedCovariance_eq (j k : ℕ) :
    weightedCovariance weights particles count j k =
      ((scaledCovariance (range count) (rawWeight weights) (fun i => rawParticle particles i j)
          (fun i => rawParticle particles i k) : ℤ) : ℚ) /
        (total.toNat * total.toNat * 2 ^ signalBits Q : ℕ) := by
  have hpos : (total.toNat : ℚ) ≠ 0 := by exact_mod_cast h.total_pos.ne'
  have hsum := h.sum_rawWeight_cast
  have hexpand := corrected_covariance_eq (range count) (fun i => (rawWeight weights i : ℚ))
    (fun i => (rawParticle particles i j : ℚ)) (fun i => (rawParticle particles i k : ℚ)) 1
    (weightedMean weights particles count j) (weightedMean weights particles count k)
    (fun i => (rawParticle particles i j - weightedMean weights particles count j) *
      (rawParticle particles i k - weightedMean weights particles count k))
  have hmean : ∀ l, weightedSum (range count) (fun i => (rawWeight weights i : ℚ))
      (fun i => (rawParticle particles i l : ℚ)) -
        total.toNat * weightedMean weights particles count l = 0 := by
    intro l
    rw [weightedMean, hsum, mul_div_cancel₀ _ hpos, weightedSum, sub_self]
  have hzero : (fun i => 1 * ((rawParticle particles i j - weightedMean weights particles count j) *
        (rawParticle particles i k - weightedMean weights particles count k)) -
      (rawParticle particles i j - weightedMean weights particles count j) *
        (rawParticle particles i k - weightedMean weights particles count k)) = fun _ => (0 : ℚ) := by
    funext i
    ring
  have hcast : ((scaledCovariance (range count) (rawWeight weights)
      (fun i => rawParticle particles i j) (fun i => rawParticle particles i k) : ℤ) : ℚ) =
        scaledCovariance (range count) (fun i => (rawWeight weights i : ℚ))
          (fun i => (rawParticle particles i j : ℚ)) fun i => (rawParticle particles i k : ℚ) := by
    rw [scaledCovariance, scaledCovariance, weightedSum, weightedSum, weightedSum, weightedSum,
      weightedSum, weightedSum]
    push_cast
    rfl
  rw [hzero, weightedSum_const, hsum, mul_zero, mul_zero, add_zero, hmean, hmean, mul_zero,
    sub_zero, one_mul] at hexpand
  rw [hcast, ← hexpand, weightedCovariance, hsum, ← weightedSum]
  push_cast
  field_simp

/-- In the q15 unit a product of residuals keeps all its bits. -/
theorem cellNumerator_q15 (hbits : QFormat.qBits Q = 15) (j k : ℕ) :
    cellNumerator weights particles mean count j k total.toNat =
      scaledCovariance (range count) (rawWeight weights) (fun i => rawParticle particles i j)
        (fun i => rawParticle particles i k) := by
  have hunit : productUnit Q = 1 := by
    rw [productUnit, hbits, if_neg (by decide)]
  have hproduct : ∀ a b : ℤ, (productUnit Q : ℤ) * residualProduct Q a b - a * b = 0 := by
    intro a b
    have herror := (@productUnit_mul_residualProduct Q _ a b).1
    rw [productError, hbits, if_neg (by decide)] at herror
    exact abs_eq_zero.mp (le_antisymm herror (abs_nonneg _))
  rw [h.cellNumerator_eq]
  simp only [hproduct]
  rw [weightedSum_const, mul_zero, mul_zero, add_zero]

/-- A q15 cell is the rounded covariance; it never reaches one. -/
theorem cellValue_q15 (hbits : QFormat.qBits Q = 15) {j k : ℕ}
    (hj : MeanStaged weights particles count total j (mean j) (remainder j))
    (hk : MeanStaged weights particles count total k (mean k) (remainder k)) :
    (QFormat.widen (cellValue weights particles mean remainder count total j k)).toInt =
      roundAway (weightedCovariance weights particles count j k) := by
  have hsignal : signalBits Q = 15 := by rw [signalBits, hbits]; rfl
  obtain ⟨hcell, -⟩ := covarianceCell_ok (h.meanRemainders hj hk) (h.natAbs_exactNumerator_le hj hk)
  have hpos : 0 < total.toNat * total.toNat * 2 ^ signalBits Q :=
    Nat.mul_pos (Nat.mul_pos h.total_pos h.total_pos) (Nat.two_pow_pos _)
  have hrange := h.natAbs_exactNumerator_le hj hk
  have hquotient := hcell.quotient
  have hsign := hcell.sign
  have hsmall := roundedQuotient_le_of_le_mul hpos hrange
  rw [← hquotient] at hsmall
  rw [h.exactNumerator_eq hj hk, h.cellNumerator_q15 hbits] at hquotient hsign
  have hspan : ((2 : ℤ) ^ signalBits Q - 1) - -2 ^ signalBits Q = 2 ^ (signalBits Q + 1) - 1 := by
    rw [pow_succ]
    ring
  have hcovariance := four_mul_abs_scaledCovariance_le (rawWeight_nonneg weights (range count))
    (u := fun i => rawParticle particles i j) (v := fun i => rawParticle particles i k)
    (fun i _ => (widen_bounds _).1) (fun i _ => (widen_bounds _).2)
    (fun i _ => (widen_bounds _).1) (fun i _ => (widen_bounds _).2) hspan hspan
  rw [h.sum_rawWeight] at hcovariance
  rw [h.weightedCovariance_eq, cellValue]
  have hT : (0 : ℚ) < total.toNat := by exact_mod_cast h.total_pos
  generalize (momentNumerator Q (covarianceSum weights particles mean count j k) total
    (remainder j) (remainder k)).2 = negative at *
  generalize momentDivideWide Q _ _ = quotient at *
  generalize scaledCovariance (range count) (rawWeight weights)
    (fun i => rawParticle particles i j) (fun i => rawParticle particles i k) = numerator at *
  have hround := roundAway_signed_natAbs hsign hpos
  rw [← hquotient] at hround
  have hbelow : |(numerator : ℚ) / (total.toNat * total.toNat * 2 ^ signalBits Q : ℕ)| <
      ((2 ^ 15 - 1 : ℤ) : ℚ) + 1 / 2 := by
    have hbound : (4 : ℚ) * |(numerator : ℚ)| ≤ (total.toNat * (2 ^ 16 - 1)) ^ 2 := by
      rw [hsignal] at hcovariance
      exact_mod_cast hcovariance
    have hsquare : ((total.toNat : ℚ) * (2 ^ 16 - 1)) ^ 2 =
        (2 ^ 16 - 1) ^ 2 * (total.toNat * total.toNat) := by ring
    have hproduct := mul_pos hT hT
    rw [abs_div, Nat.abs_cast, div_lt_iff₀ (Nat.cast_pos.mpr hpos), hsignal]
    push_cast
    linarith
  have hle := abs_le.mp (abs_roundAway_le_of_lt hbelow)
  rw [hround] at hle ⊢
  exact toInt_momentSignal hsmall (by rw [hsignal]; exact hle.2)

end EstimateInputs

/-! ## The whole estimate -/

/-- Both accumulations of a sum are the same two words. -/
structure PathsAgree (weights : ℕ → Q) (particles : ℕ × ℕ → Q) (count : ℕ) : Prop where
  mean : meanFitsNarrow Q count = true → ∀ j,
    momentExtend (meanSumNarrow weights particles count j) =
      meanSumWide weights particles count j
  covariance : covarianceFitsNarrow Q count = true → ∀ (mean : ℕ → Q) (j k : ℕ),
    momentExtend (covarianceSumNarrow weights particles mean count j k) =
      covarianceSumWide weights particles mean count j k

/-- Every moment of an estimate is its exact value, rounded once. -/
structure EstimateExact (weights : ℕ → Q) (particles : ℕ × ℕ → Q) (count n : ℕ) (mean : ℕ → Q)
    (covariance : ℕ × ℕ → Q) : Prop where
  mean : ∀ j < n, (QFormat.widen (mean j)).toInt =
    roundAway (weightedMean weights particles count j)
  covariance : QFormat.qBits Q = 15 → ∀ j < n, ∀ k < n,
    (QFormat.widen (covariance (j, k))).toInt =
      roundAway (weightedCovariance weights particles count j k)

theorem weightedCovariance_comm (weights : ℕ → Q) (particles : ℕ × ℕ → Q) (count j k : ℕ) :
    weightedCovariance weights particles count j k =
      weightedCovariance weights particles count k j := by
  rw [weightedCovariance, weightedCovariance]
  simp only [mul_comm (_ - weightedMean weights particles count j)]

theorem pathsAgree (h : WeightsAdmitted wide weights count) :
    PathsAgree weights particles count where
  mean hnarrow j := by
    rw [← Accum.toInt_inj, toInt_momentExtend, toInt_meanSumNarrow h hnarrow j count le_rfl,
      toInt_meanSumWide h j count le_rfl]
  covariance hnarrow mean j k := by
    rw [← Accum.toInt_inj, toInt_momentExtend, toInt_covarianceSumNarrow h hnarrow j k count le_rfl,
      toInt_covarianceSumWide h j k count le_rfl]

/-- The estimate of nonnegative weights is exact up to one rounding of every moment. -/
theorem estimate_rounded_once (h : EstimateInputs wide weights particles count total) (n : ℕ)
    (scratch : MomentScratch Q) :
    ∃ mean covariance,
      estimateInteger weights particles count n total scratch = .ok (mean, covariance) ∧
        EstimateExact weights particles count n mean covariance ∧
        PathsAgree weights particles count := by
  obtain ⟨mean, covariance, remainder, hok, hmeans, hcells⟩ := h.estimate_staged n scratch
  refine ⟨mean, covariance, hok, ⟨fun j hj => ?_, fun hbits j hj k hk => ?_⟩, pathsAgree h.admitted⟩
  · rw [h.weightedMean_eq]
    exact (hmeans j hj).2
  · rcases le_total k j with hle | hle
    · rw [(hcells j hj k hle).1]
      exact h.cellValue_q15 hbits (hmeans j hj).1 (hmeans k hk).1
    · rw [(hcells k hk j hle).2, weightedCovariance_comm]
      exact h.cellValue_q15 hbits (hmeans k hk).1 (hmeans j hj).1

theorem estimate_rounded_once_two :
    ∃ mean covariance,
      estimateInteger (Q := Int16) (fun i => if i = 0 then 1 else 2)
          (fun x => if x.1 = 0 then -32768 else 32767) 2 1 ⟨3, 0⟩ ⟨fun _ => 0, fun _ => 0,
            fun _ => ⟨0, 0⟩⟩ = .ok (mean, covariance) ∧
        EstimateExact (fun i => if i = 0 then (1 : Int16) else 2)
          (fun x => if x.1 = 0 then -32768 else 32767) 2 1 mean covariance := by
  obtain ⟨mean, covariance, hok, hexact, -⟩ := @estimate_rounded_once Int16 _
    (fun i => if i = 0 then 1 else 2) (fun x => if x.1 = 0 then -32768 else 32767) 2 false ⟨3, 0⟩
    ⟨⟨by decide, by decide, by decide⟩, by decide⟩ 1 ⟨fun _ => 0, fun _ => 0, fun _ => ⟨0, 0⟩⟩
  exact ⟨mean, covariance, hok, hexact⟩

end Xhive.Particles
