import Xhive.Particles.EstimateMeans

/-!
# The integer estimate stays in range

No covariance of raw signals leaves the signal range, with the rounding of the
q31 products as well, and no variance is negative.
-/

namespace Xhive.Particles

open Xhive.Support Xhive.Linears Xhive.Filters Finset

variable {Q : Type} [ParticleFormat Q] {weights : ℕ → Q} {particles : ℕ × ℕ → Q} {mean : ℕ → Q}
  {count : ℕ} {wide : Bool} {total first second sum : Accum}

/-! ## One cell -/

/-- The wide words subtract two magnitudes with signs. -/
theorem signed_correctedMagnitude (a b : Bool) (p c : ℕ) :
    signed (if (a != b) = true ∨ c ≤ p then a else !a) (correctedMagnitude p c (a != b) : ℤ) =
      signed a (p : ℤ) - signed b (c : ℤ) := by
  rw [correctedMagnitude]
  by_cases hle : c ≤ p
  · rw [if_pos (Or.inr hle), if_pos hle]
    cases a <;> cases b <;>
      simp only [Bool.true_bne, Bool.false_bne, Bool.not_true, Bool.not_false, if_true,
        Bool.false_eq_true, if_false, signed_true, signed_false] <;>
      push_cast [hle] <;> ring
  · have hle' := (not_le.mp hle).le
    rw [if_neg hle]
    cases a <;> cases b <;>
      simp only [Bool.true_bne, Bool.false_bne, Bool.not_true, Bool.not_false, if_true, hle,
        Bool.false_eq_true, or_false, if_false, signed_true, signed_false] <;>
      push_cast [hle'] <;> ring

/-- The numerator of a covariance. -/
def exactNumerator (Q : Type) [ParticleFormat Q] (sum total first second : Accum) : ℤ :=
  sum.toInt * covarianceScale Q total.toNat - first.toInt * second.toInt

/-- The wide words of a cell are the numbers that they stand for. -/
structure CellExact (Q : Type) [ParticleFormat Q] (sum total first second : Accum) : Prop where
  numerator : wideValue (momentWords Q) (momentNumerator Q sum total first second).1 =
    (exactNumerator Q sum total first second).natAbs
  sign : signed (momentNumerator Q sum total first second).2
    ((exactNumerator Q sum total first second).natAbs : ℤ) =
      exactNumerator Q sum total first second
  denominator : wideValue (momentWords Q) (momentDenominator Q total) =
    total.toNat * total.toNat * 2 ^ signalBits Q
  limit : wideValue (momentWords Q)
      (momentLeftWide (momentWords Q) (momentDenominator Q total) (signalBits Q)) =
    total.toNat * total.toNat * 2 ^ signalBits Q * 2 ^ signalBits Q
  quotient : (momentDivideWide Q (momentNumerator Q sum total first second).1
      (momentDenominator Q total)).toNat =
    roundedQuotient (exactNumerator Q sum total first second).natAbs
      (total.toNat * total.toNat * 2 ^ signalBits Q)

theorem exactNumerator_signed (sum first second : Accum) :
    exactNumerator Q sum total first second =
      signed (lnNegative sum) (covarianceProductOf Q sum total : ℤ) -
        signed (lnNegative first != lnNegative second)
          ((first.toInt.natAbs * second.toInt.natAbs : ℕ) : ℤ) := by
  have hvalue : ∀ value : Accum, value.toInt = signed (lnNegative value) (value.toInt.natAbs : ℤ) := by
    intro value
    have hmagnitude := signed_momentMagnitude value
    rwa [toNat_momentMagnitude] at hmagnitude
  rw [covarianceProductOf, Nat.cast_mul, Nat.cast_mul, ← signed_mul, ← signed_mul_signed,
    ← hvalue sum, ← hvalue first, ← hvalue second]
  rfl

/-- A numerator within the limit is divided, not refused. -/
theorem covarianceCell_ok (h : MeanRemainders Q total first second)
    (hrange : (exactNumerator Q sum total first second).natAbs ≤
      total.toNat * total.toNat * 2 ^ signalBits Q * 2 ^ signalBits Q) :
    CellExact Q sum total first second ∧
      momentCovariance (Q := Q) sum total first second =
        .ok (momentSignal (momentDivideWide Q (momentNumerator Q sum total first second).1
          (momentDenominator Q total)) (momentNumerator Q sum total first second).2) := by
  have hscaled := divisor_mul_scale Q total.toNat
  have hpos := Nat.mul_pos h.divisor_pos h.scale_pos
  have hquarter := h.correction_le
  have hsum : sum.toInt.natAbs ≤ covarianceDivisor Q total.toNat * 2 ^ (signalBits Q + 2) := by
    refine Nat.le_of_mul_le_mul_right ?_ h.scale_pos
    have hsplit : sum.toInt * covarianceScale Q total.toNat =
        exactNumerator Q sum total first second + first.toInt * second.toInt := by
      rw [exactNumerator]
      ring
    have habs := Int.natAbs_add_le (exactNumerator Q sum total first second)
      (first.toInt * second.toInt)
    rw [← hsplit, Int.natAbs_mul, Int.natAbs_mul, Int.natAbs_natCast] at habs
    have hpow : 0 < 2 ^ signalBits Q := Nat.two_pow_pos _
    have hgrow : total.toNat * total.toNat ≤
        total.toNat * total.toNat * 2 ^ signalBits Q * 2 ^ signalBits Q :=
      (Nat.le_mul_of_pos_right _ hpow).trans (Nat.le_mul_of_pos_right _ hpow)
    calc sum.toInt.natAbs * covarianceScale Q total.toNat
        ≤ 4 * (total.toNat * total.toNat * 2 ^ signalBits Q * 2 ^ signalBits Q) := by omega
      _ = covarianceDivisor Q total.toNat * covarianceScale Q total.toNat *
            2 ^ (signalBits Q + 2) := by
          rw [hscaled, pow_add]
          ring
      _ = _ := by ring
  obtain ⟨hnumerator, hsign⟩ := momentNumerator_spec h hsum
  obtain ⟨hroom, hlimit⟩ := momentLimit_spec h
  have hdenominator := momentDenominator_spec h
  have hsigned := signed_correctedMagnitude (lnNegative sum) (lnNegative first != lnNegative second)
    (covarianceProductOf Q sum total) (first.toInt.natAbs * second.toInt.natAbs)
  rw [← exactNumerator_signed] at hsigned
  rw [correctionOpposes] at hnumerator hsign
  rw [← hsign] at hsigned
  have hmagnitude := congrArg Int.natAbs hsigned
  rw [natAbs_signed, Int.natAbs_natCast] at hmagnitude
  rw [hmagnitude] at hnumerator hsigned
  rw [hscaled] at hdenominator hlimit hpos
  rw [← hnumerator] at hrange
  have hle := hrange
  rw [← hdenominator] at hle
  have hquotient := momentDivideWide_spec (by rw [hdenominator]; exact hpos) hroom hle
  rw [hdenominator, hnumerator] at hquotient
  have hcompare := (momentCompareWide_lt_iff (momentNumerator Q sum total first second).1
    (momentLeftWide (momentWords Q) (momentDenominator Q total) (signalBits Q))
    (momentWords Q)).2
  rw [hlimit] at hcompare
  refine ⟨⟨hnumerator, hsigned, hdenominator, hlimit, hquotient⟩, ?_⟩
  rw [momentCovariance_eq_wide h, momentCovarianceWide, if_neg]
  exact fun hgreater => absurd (hcompare.mp hgreater) (not_lt.mpr hrange)

/-! ## The rounded products -/

/-- What a stored product stands for. -/
def productUnit (Q : Type) [ParticleFormat Q] : ℕ :=
  if QFormat.qBits Q = 31 then 2 ^ 31 else 1

/-- How far a product of residuals is from its unit, and how far below it a square is. -/
def productError (Q : Type) [ParticleFormat Q] : ℤ :=
  if QFormat.qBits Q = 31 then 2 ^ 30 else 0

def squareError (Q : Type) [ParticleFormat Q] : ℤ :=
  if QFormat.qBits Q = 31 then 2 ^ 30 - 1 else 0

theorem covarianceScale_eq (Q : Type) [ParticleFormat Q] (total : ℕ) :
    covarianceScale Q total = total * productUnit Q := by
  rw [covarianceScale, productUnit]
  split
  · rfl
  · rw [Nat.mul_one]

/-- Half up: the rounded quotient is more than half a unit above, and at most half below. -/
theorem roundedQuotient_mul_bounds (n : ℕ) {half : ℕ} (hpos : 0 < half) :
    n < roundedQuotient n (2 * half) * (2 * half) + half ∧
      roundedQuotient n (2 * half) * (2 * half) ≤ n + half := by
  have hlow := (le_roundedQuotient_iff (n := n) (d := 2 * half) (by omega)).mp le_rfl
  have hhigh := (roundedQuotient_le_iff (n := n) (d := 2 * half) (by omega)).mp le_rfl
  generalize roundedQuotient n (2 * half) = r at *
  constructor
  · have hexpand : (2 * r + 1) * (2 * half) = 2 * (r * (2 * half) + half) := by ring
    omega
  · have hexpand : 2 * r * (2 * half) = 2 * (r * (2 * half)) := by ring
    omega

theorem productUnit_mul_residualProduct (a b : ℤ) :
    |productUnit Q * residualProduct Q a b - a * b| ≤ productError Q ∧
      -squareError Q ≤ productUnit Q * residualProduct Q a a - a * a := by
  have hsigned : ∀ a b : ℤ, a * b =
      signed (decide (a < 0) != decide (b < 0)) ((a.natAbs * b.natAbs : ℕ) : ℤ) := by
    intro a b
    rw [Nat.cast_mul, ← signed_mul_signed, signed_natAbs, signed_natAbs]
  have hcode : ∀ m n : ℕ, (m * n : ℤ) < productUnit Q * residualCode Q m n + squareError Q + 1 ∧
      (productUnit Q * residualCode Q m n : ℤ) ≤ m * n + productError Q := by
    intro m n
    rw [productUnit, squareError, productError, residualCode]
    split
    · obtain ⟨hlow, hhigh⟩ := roundedQuotient_mul_bounds (m * n) (show 0 < 2 ^ 30 by norm_num)
      have hunit : 2 * 2 ^ 30 = 2 ^ 31 := by norm_num
      rw [hunit] at hlow hhigh
      generalize roundedQuotient (m * n) (2 ^ 31) = r at *
      zify at hlow hhigh
      push_cast
      constructor <;> linarith
    · push_cast
      constructor <;> linarith
  have herror : squareError Q ≤ productError Q := by
    rw [squareError, productError]
    split <;> norm_num
  constructor
  · obtain ⟨hlow, hhigh⟩ := hcode a.natAbs b.natAbs
    rw [residualProduct, hsigned a b, Nat.cast_mul]
    generalize (decide (a < 0) != decide (b < 0)) = negative
    rw [abs_le]
    cases negative with
    | true =>
        rw [signed_true, signed_true]
        constructor <;> linarith
    | false =>
        rw [signed_false, signed_false]
        constructor <;> linarith
  · obtain ⟨hlow, -⟩ := hcode a.natAbs a.natAbs
    rw [residualProduct, hsigned a a, Nat.cast_mul, bne_self_eq_false, signed_false, signed_false]
    linarith

/-- The range of raw values and the rounding of their products leave room for the limit. -/
theorem covariance_room (Q : Type) [ParticleFormat Q] :
    ((2 : ℤ) ^ (signalBits Q + 1) - 1) ^ 2 + 4 * productError Q ≤
      4 * (2 ^ signalBits Q * 2 ^ signalBits Q) := by
  have hnext : (2 : ℤ) ^ (signalBits Q + 1) = 2 ^ signalBits Q * 2 := pow_succ _ _
  rw [productError, hnext]
  obtain ⟨hbits, hpow⟩ | ⟨hbits, hpow⟩ := pow_signalBits_cases Q <;> rw [hbits, hpow]
  · rw [if_neg (by decide)]
    norm_num
  · rw [if_pos rfl]
    norm_num

/-- The error of a square is less than half of what rounds to one. -/
theorem two_mul_squareError_lt (Q : Type) [ParticleFormat Q] :
    2 * squareError Q < 2 ^ signalBits Q := by
  rw [squareError]
  obtain ⟨hbits, hpow⟩ | ⟨hbits, hpow⟩ := pow_signalBits_cases Q <;> rw [hbits, hpow]
  · rw [if_neg (by decide)]
    norm_num
  · rw [if_pos rfl]
    norm_num

/-! ## The numerators of an estimate -/

/-- The numerator of a cell about a staged mean. -/
def cellNumerator (weights : ℕ → Q) (particles : ℕ × ℕ → Q) (mean : ℕ → Q) (count j k : ℕ)
    (total : ℕ) : ℤ :=
  exactCovarianceSum weights particles mean count j k * covarianceScale Q total -
    (exactMeanSum weights particles count j - total * (QFormat.widen (mean j)).toInt) *
      (exactMeanSum weights particles count k - total * (QFormat.widen (mean k)).toInt)

namespace EstimateInputs

variable (h : EstimateInputs wide weights particles count total) {n : ℕ} {remainder : ℕ → Accum}

include h

/-- A numerator is the covariance and what the rounding of the products adds. -/
theorem cellNumerator_eq (j k : ℕ) :
    cellNumerator weights particles mean count j k total.toNat =
      scaledCovariance (range count) (rawWeight weights) (fun i => rawParticle particles i j)
          (fun i => rawParticle particles i k) +
        total.toNat * weightedSum (range count) (rawWeight weights) fun i =>
          productUnit Q * residualProduct Q (rawResidual particles mean i j)
              (rawResidual particles mean i k) -
            rawResidual particles mean i j * rawResidual particles mean i k := by
  have hcorrected := corrected_covariance_eq (range count) (rawWeight weights)
    (fun i => rawParticle particles i j) (fun i => rawParticle particles i k)
    (productUnit Q : ℤ) (QFormat.widen (mean j)).toInt (QFormat.widen (mean k)).toInt
    (fun i => residualProduct Q (rawResidual particles mean i j) (rawResidual particles mean i k))
  rw [h.sum_rawWeight] at hcorrected
  rw [cellNumerator, covarianceScale_eq, exactCovarianceSum, exactMeanSum, exactMeanSum]
  refine Eq.trans ?_ hcorrected
  push_cast
  ring

/-- No covariance exceeds the limit of the wide quotient. -/
theorem abs_cellNumerator_le (j k : ℕ) :
    |cellNumerator weights particles mean count j k total.toNat| ≤
      total.toNat * total.toNat * (2 ^ signalBits Q * 2 ^ signalBits Q) := by
  have hrange : ((2 : ℤ) ^ signalBits Q - 1) - -2 ^ signalBits Q = 2 ^ (signalBits Q + 1) - 1 := by
    rw [pow_succ]
    ring
  have hcovariance := four_mul_abs_scaledCovariance_le (rawWeight_nonneg weights (range count))
    (u := fun i => rawParticle particles i j) (v := fun i => rawParticle particles i k)
    (fun i _ => (widen_bounds _).1) (fun i _ => (widen_bounds _).2)
    (fun i _ => (widen_bounds _).1) (fun i _ => (widen_bounds _).2) hrange hrange
  have herror := abs_weightedSum_le (rawWeight_nonneg weights (range count))
    (fun i _ => (@productUnit_mul_residualProduct Q _ (rawResidual particles mean i j)
      (rawResidual particles mean i k)).1)
  have hroom := covariance_room Q
  have hT : (0 : ℤ) ≤ total.toNat := Nat.cast_nonneg _
  rw [h.sum_rawWeight] at hcovariance herror
  rw [h.cellNumerator_eq]
  generalize scaledCovariance (range count) (rawWeight weights)
    (fun i => rawParticle particles i j) (fun i => rawParticle particles i k) = covariance at *
  generalize weightedSum (range count) (rawWeight weights) _ = error at *
  generalize (2 : ℤ) ^ signalBits Q * 2 ^ signalBits Q = limit at *
  generalize ((2 : ℤ) ^ (signalBits Q + 1) - 1) = range at *
  generalize (total.toNat : ℤ) = T at *
  have hscaled : T * |error| ≤ T * (T * productError Q) := mul_le_mul_of_nonneg_left herror hT
  have habs : |covariance + T * error| ≤ |covariance| + T * |error| := by
    refine (abs_add_le _ _).trans ?_
    rw [abs_mul, abs_of_nonneg hT]
  have hsquare : T * T * (range ^ 2 + 4 * productError Q) ≤ T * T * (4 * limit) :=
    mul_le_mul_of_nonneg_left hroom (mul_nonneg hT hT)
  linarith

/-- A variance is less than half a unit below zero. -/
theorem neg_cellNumerator_lt (j : ℕ) :
    -(2 * cellNumerator weights particles mean count j j total.toNat) <
      total.toNat * total.toNat * 2 ^ signalBits Q := by
  have hvariance := scaledCovariance_self_nonneg (rawWeight_nonneg weights (range count))
    (u := fun i => rawParticle particles i j)
  have herror : weightedSum (range count) (rawWeight weights) (fun _ => -squareError Q) ≤
      weightedSum (range count) (rawWeight weights) fun i =>
        productUnit Q * residualProduct Q (rawResidual particles mean i j)
            (rawResidual particles mean i j) -
          rawResidual particles mean i j * rawResidual particles mean i j :=
    weightedSum_le_weightedSum (rawWeight_nonneg weights (range count)) fun i _ =>
      (@productUnit_mul_residualProduct Q _ (rawResidual particles mean i j) 0).2
  have hhalf := two_mul_squareError_lt Q
  have hT : (0 : ℤ) < total.toNat := by exact_mod_cast h.total_pos
  rw [weightedSum_const, h.sum_rawWeight] at herror
  rw [h.cellNumerator_eq]
  generalize scaledCovariance (range count) (rawWeight weights)
    (fun i => rawParticle particles i j) (fun i => rawParticle particles i j) = variance at *
  generalize weightedSum (range count) (rawWeight weights) _ = error at *
  generalize (total.toNat : ℤ) = T at *
  have hscaled := mul_le_mul_of_nonneg_left herror hT.le
  have hlimit := mul_lt_mul_of_pos_left hhalf (mul_pos hT hT)
  linarith

theorem meanRemainders {j k : ℕ}
    (hj : MeanStaged weights particles count total j (mean j) (remainder j))
    (hk : MeanStaged weights particles count total k (mean k) (remainder k)) :
    MeanRemainders Q total (remainder j) (remainder k) :=
  ⟨h.total_pos, h.total_lt.trans_le (Nat.pow_le_pow_right (by norm_num) (by omega)),
    hj.remainder_le, hk.remainder_le⟩

theorem exactNumerator_eq {j k : ℕ}
    (hj : MeanStaged weights particles count total j (mean j) (remainder j))
    (hk : MeanStaged weights particles count total k (mean k) (remainder k)) :
    exactNumerator Q (covarianceSum weights particles mean count j k) total (remainder j)
        (remainder k) =
      cellNumerator weights particles mean count j k total.toNat := by
  rw [exactNumerator, cellNumerator, toInt_covarianceSum h.admitted, hj.remainder_eq,
    hk.remainder_eq]

theorem natAbs_exactNumerator_le {j k : ℕ}
    (hj : MeanStaged weights particles count total j (mean j) (remainder j))
    (hk : MeanStaged weights particles count total k (mean k) (remainder k)) :
    (exactNumerator Q (covarianceSum weights particles mean count j k) total (remainder j)
      (remainder k)).natAbs ≤
        total.toNat * total.toNat * 2 ^ signalBits Q * 2 ^ signalBits Q := by
  have hbound := @abs_cellNumerator_le Q _ weights particles mean count wide total h j k
  rw [h.exactNumerator_eq hj hk]
  zify
  rwa [mul_assoc (_ * _)]

end EstimateInputs

/-- The value of a cell. -/
def cellValue (weights : ℕ → Q) (particles : ℕ × ℕ → Q) (mean : ℕ → Q) (remainder : ℕ → Accum)
    (count : ℕ) (total : Accum) (j k : ℕ) : Q :=
  let numerator := momentNumerator Q (covarianceSum weights particles mean count j k) total
    (remainder j) (remainder k)
  momentSignal (momentDivideWide Q numerator.1 (momentDenominator Q total)) numerator.2

namespace EstimateInputs

variable (h : EstimateInputs wide weights particles count total) {n : ℕ} {remainder : ℕ → Accum}

include h

/-- A cell of the staged means is stored; it is never out of range. -/
theorem covarianceStep_ok {j k : ℕ} {s : MomentScratch Q}
    (hj : MeanStaged weights particles count total j (s.mean j) (s.remainder j))
    (hk : MeanStaged weights particles count total k (s.mean k) (s.remainder k)) :
    covarianceStep weights particles count total j k s =
      .ok { s with
        covariance := Function.update (Function.update s.covariance (j, k)
          (cellValue weights particles s.mean s.remainder count total j k)) (k, j)
          (cellValue weights particles s.mean s.remainder count total j k) } := by
  obtain ⟨-, hcell⟩ := covarianceCell_ok (h.meanRemainders hj hk) (h.natAbs_exactNumerator_le hj hk)
  rw [covarianceStep, hcell]
  rfl

/-- A variance is not negative: below zero it rounds to zero. -/
theorem cellValue_nonneg {j : ℕ}
    (hj : MeanStaged weights particles count total j (mean j) (remainder j)) :
    0 ≤ (QFormat.widen (cellValue weights particles mean remainder count total j j)).toInt := by
  have hremainders := h.meanRemainders hj hj
  have hrange := h.natAbs_exactNumerator_le hj hj
  have hvariance := @neg_cellNumerator_lt Q _ weights particles mean count wide total h j
  obtain ⟨hcell, -⟩ := covarianceCell_ok hremainders hrange
  have hpos : 0 < total.toNat * total.toNat * 2 ^ signalBits Q :=
    Nat.mul_pos (Nat.mul_pos h.total_pos h.total_pos) (Nat.two_pow_pos _)
  have hquotient := hcell.quotient
  have hsign := hcell.sign
  have hsmall := roundedQuotient_le_of_le_mul hpos hrange
  rw [← hquotient] at hsmall
  rw [h.exactNumerator_eq hj hj] at hquotient hsign
  rw [cellValue]
  generalize momentDivideWide Q _ _ = quotient at *
  have hpow : (0 : ℤ) ≤ 2 ^ signalBits Q - 1 := by
    have hone : (0 : ℤ) < 2 ^ signalBits Q := by positivity
    omega
  have hstored : ∀ {magnitude : UInt64}, magnitude.toNat ≤ 2 ^ signalBits Q →
      0 ≤ (QFormat.widen (momentSignal magnitude false : Q)).toInt := by
    intro magnitude hle
    rw [toInt_momentSignal_false hle]
    exact le_min (Nat.cast_nonneg _) hpow
  cases hnegative : (momentNumerator Q (covarianceSum weights particles mean count j j) total
      (remainder j) (remainder j)).2 with
  | false => exact hstored hsmall
  | true =>
      rw [hnegative, signed_true] at hsign
      rw [← hsign] at hvariance
      generalize (cellNumerator weights particles mean count j j total.toNat).natAbs = magnitude
        at hquotient hvariance
      have hlt : 2 * magnitude < total.toNat * total.toNat * 2 ^ signalBits Q := by
        zify
        linarith
      have hzero : quotient = 0 := by
        rw [← UInt64.toNat_inj, UInt64.toNat_zero, hquotient]
        apply Nat.le_zero.mp
        rw [roundedQuotient_le_iff hpos]
        omega
      rw [hzero, momentSignal_zero]
      exact hstored (Nat.zero_le _)

end EstimateInputs

/-! ## The whole estimate -/

/-- The cells that are stored before cell `(row, column)`, with their mirrors. -/
def CellsStored (value : ℕ → ℕ → Q) (row column : ℕ) (covariance : ℕ × ℕ → Q) : Prop :=
  ∀ j k, k ≤ j → (j < row ∨ (j = row ∧ k < column)) →
    covariance (j, k) = value j k ∧ covariance (k, j) = value j k

omit [ParticleFormat Q] in
theorem CellsStored.update {value : ℕ → ℕ → Q} {row column : ℕ} {covariance : ℕ × ℕ → Q}
    (h : CellsStored value row column covariance) :
    CellsStored value row (column + 1)
      (Function.update (Function.update covariance (row, column) (value row column)) (column, row)
        (value row column)) := by
  intro j k hle hbefore
  by_cases hcell : j = row ∧ k = column
  · obtain ⟨rfl, rfl⟩ := hcell
    refine ⟨?_, Function.update_self _ _ _⟩
    by_cases hdiagonal : k = j
    · rw [hdiagonal, Function.update_self]
    · rw [Function.update_of_ne (fun heq => hdiagonal (Prod.mk.inj heq).2), Function.update_self]
  · obtain ⟨hfirst, hsecond⟩ := h j k hle (by omega)
    have hne : ∀ a b : ℕ, (a = j ∧ b = k) ∨ (a = k ∧ b = j) →
        (a, b) ≠ (row, column) ∧ (a, b) ≠ (column, row) := by
      rintro a b hab
      constructor <;> intro heq <;> obtain ⟨ha, hb⟩ := Prod.mk.inj heq <;> omega
    obtain ⟨hne₁, hne₂⟩ := hne j k (Or.inl ⟨rfl, rfl⟩)
    obtain ⟨hne₃, hne₄⟩ := hne k j (Or.inr ⟨rfl, rfl⟩)
    rw [Function.update_of_ne hne₂, Function.update_of_ne hne₁, Function.update_of_ne hne₄,
      Function.update_of_ne hne₃]
    exact ⟨hfirst, hsecond⟩

/-- What holds of an estimate. -/
structure EstimateSafe (particles : ℕ × ℕ → Q) (count n : ℕ) (mean : ℕ → Q)
    (covariance : ℕ × ℕ → Q) : Prop where
  symmetric : ∀ j < n, ∀ k < n, covariance (j, k) = covariance (k, j)
  diagonal : ∀ j < n, 0 ≤ (QFormat.widen (covariance (j, j))).toInt
  least : ∀ j < n, ∃ i < count, rawParticle particles i j ≤ (QFormat.widen (mean j)).toInt
  greatest : ∀ j < n, ∃ i < count, (QFormat.widen (mean j)).toInt ≤ rawParticle particles i j

/-- Every partial sum and every wide word of an estimate is the number that it stands for. -/
structure AccumulationsExact (weights : ℕ → Q) (particles : ℕ × ℕ → Q) (count n : ℕ)
    (total : Accum) (mean : ℕ → Q) : Prop where
  mean_narrow : meanFitsNarrow Q count = true → ∀ j, ∀ i ≤ count,
    (meanSumNarrow weights particles i j).toInt = exactMeanSum weights particles i j
  mean_wide : ∀ j, ∀ i ≤ count,
    (meanSumWide weights particles i j).toInt = exactMeanSum weights particles i j
  limit : (momentLeft128 total (signalBits Q)).toNat = total.toNat * 2 ^ signalBits Q
  remainder : ∀ j < n,
    (momentMeanRemainder (meanSum weights particles count j) total (mean j)).toInt =
      exactMeanSum weights particles count j - total.toNat * (QFormat.widen (mean j)).toInt
  covariance_narrow : covarianceFitsNarrow Q count = true → ∀ j k, ∀ i ≤ count,
    (covarianceSumNarrow weights particles mean i j k).toInt =
      exactCovarianceSum weights particles mean i j k
  covariance_wide : ∀ j k, ∀ i ≤ count,
    (covarianceSumWide weights particles mean i j k).toInt =
      exactCovarianceSum weights particles mean i j k
  cells : ∀ j < n, ∀ k < n, CellExact Q (covarianceSum weights particles mean count j k) total
    (momentMeanRemainder (meanSum weights particles count j) total (mean j))
    (momentMeanRemainder (meanSum weights particles count k) total (mean k))

namespace EstimateInputs

variable (h : EstimateInputs wide weights particles count total) {n : ℕ} {remainder : ℕ → Accum}

include h

/-- The loops over the cells keep the staged means. -/
theorem covariances_stored {s : MomentScratch Q}
    (hstaged : ∀ j < n, MeanStaged weights particles count total j (s.mean j) (s.remainder j)) :
    Ensures
      (forRange 0 n s fun j s =>
        forRange 0 (j + 1) s fun k s => covarianceStep weights particles count total j k s)
      (fun t => t.mean = s.mean ∧
        CellsStored (cellValue weights particles s.mean s.remainder count total) n 0 t.covariance)
      (fun _ => False) := by
  refine (Ensures.forRange (fun j (t : MomentScratch Q) =>
    (t.mean = s.mean ∧ t.remainder = s.remainder) ∧
      CellsStored (cellValue weights particles s.mean s.remainder count total) j 0 t.covariance)
    (Nat.zero_le n) ⟨⟨rfl, rfl⟩, fun j k _ hbefore => by omega⟩ ?_).imp fun t ht => ⟨ht.1.1, ht.2⟩
  intro j t _ hj ht
  refine (Ensures.forRange (fun k (u : MomentScratch Q) =>
    (u.mean = s.mean ∧ u.remainder = s.remainder) ∧
      CellsStored (cellValue weights particles s.mean s.remainder count total) j k u.covariance)
    (Nat.zero_le (j + 1)) ht ?_).imp fun u hu => ⟨hu.1, fun a b hle hbefore =>
      hu.2 a b hle (by omega)⟩
  intro k u _ hk hu
  obtain ⟨⟨hmean, hremainder⟩, hcells⟩ := hu
  have hrow := hstaged j hj
  have hcolumn := hstaged k (by omega)
  rw [← hmean, ← hremainder] at hrow hcolumn
  rw [h.covarianceStep_ok hrow hcolumn, ensures_ok]
  refine ⟨⟨hmean, hremainder⟩, ?_⟩
  rw [hmean, hremainder]
  exact hcells.update

/-- An estimate succeeds with staged means and with the value of every cell. -/
theorem estimate_staged (n : ℕ) (scratch : MomentScratch Q) :
    ∃ mean covariance remainder,
      estimateInteger weights particles count n total scratch = .ok (mean, covariance) ∧
        (∀ j < n, MeanStaged weights particles count total j (mean j) (remainder j) ∧
          MeanRounded weights particles count total j (mean j)) ∧
        ∀ j < n, ∀ k ≤ j,
          covariance (j, k) = cellValue weights particles mean remainder count total j k ∧
            covariance (k, j) = cellValue weights particles mean remainder count total j k := by
  obtain ⟨s, hmeans, hstaged⟩ := (h.means_staged n scratch).exists_ok
  obtain ⟨t, hcells, hmean, hstored⟩ :=
    (h.covariances_stored fun j hj => (hstaged j hj).1).exists_ok
  refine ⟨s.mean, t.covariance, s.remainder, ?_, hstaged, fun j hj k hle =>
    hstored j k hle (Or.inl hj)⟩
  rw [estimateInteger, hmeans, ok_bind, hcells, ok_bind, hmean]

end EstimateInputs

/-- The estimate of nonnegative weights never fails: its covariance is
symmetric with a diagonal that is not negative, its means are between the
extremes of the particles, and no accumulation overflows. -/
theorem estimate_integer_safe (h : EstimateInputs wide weights particles count total) (n : ℕ)
    (scratch : MomentScratch Q) :
    ∃ mean covariance,
      estimateInteger weights particles count n total scratch = .ok (mean, covariance) ∧
        EstimateSafe particles count n mean covariance ∧
        AccumulationsExact weights particles count n total mean := by
  obtain ⟨mean, covariance, remainder, hok, hmeans, hpair⟩ := h.estimate_staged n scratch
  have hstaged : ∀ j < n,
      EstimateInputs.MeanStaged weights particles count total j (mean j) (remainder j) :=
    fun j hj => (hmeans j hj).1
  refine ⟨mean, covariance, hok, ?_, ?_⟩
  · constructor
    case symmetric =>
      intro j hj k hk
      rcases le_total k j with hle | hle
      · rw [(hpair j hj k hle).1, (hpair j hj k hle).2]
      · rw [(hpair k hk j hle).1, (hpair k hk j hle).2]
    case diagonal =>
      intro j hj
      rw [(hpair j hj j le_rfl).1]
      exact h.cellValue_nonneg (hstaged j hj)
    case least => exact fun j hj => (hstaged j hj).least
    case greatest => exact fun j hj => (hstaged j hj).greatest
  · constructor
    case mean_narrow => exact fun hnarrow j => toInt_meanSumNarrow h.admitted hnarrow j
    case mean_wide => exact fun j => toInt_meanSumWide h.admitted j
    case limit => exact h.toNat_limit
    case remainder =>
      intro j hj
      rw [← (hstaged j hj).staged]
      exact (hstaged j hj).remainder_eq
    case covariance_narrow =>
      exact fun hnarrow j k => toInt_covarianceSumNarrow h.admitted hnarrow j k
    case covariance_wide => exact fun j k => toInt_covarianceSumWide h.admitted j k
    case cells =>
      intro j hj k hk
      rw [← (hstaged j hj).staged, ← (hstaged k hk).staged]
      exact (covarianceCell_ok (h.meanRemainders (hstaged j hj) (hstaged k hk))
        (h.natAbs_exactNumerator_le (hstaged j hj) (hstaged k hk))).1

theorem estimate_integer_safe_two :
    ∃ mean covariance,
      estimateInteger (Q := Int16) (fun i => if i = 0 then 1 else 2)
          (fun x => if x.1 = 0 then -32768 else 32767) 2 1 ⟨3, 0⟩ ⟨fun _ => 0, fun _ => 0,
            fun _ => ⟨0, 0⟩⟩ = .ok (mean, covariance) ∧
        EstimateSafe (fun x => if x.1 = 0 then (-32768 : Int16) else 32767) 2 1 mean covariance := by
  obtain ⟨mean, covariance, hok, hsafe, -⟩ := @estimate_integer_safe Int16 _
    (fun i => if i = 0 then 1 else 2) (fun x => if x.1 = 0 then -32768 else 32767) 2 false ⟨3, 0⟩
    ⟨⟨by decide, by decide, by decide⟩, by decide⟩ 1 ⟨fun _ => 0, fun _ => 0, fun _ => ⟨0, 0⟩⟩
  exact ⟨mean, covariance, hok, hsafe⟩

end Xhive.Particles
