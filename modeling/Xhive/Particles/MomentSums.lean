import Xhive.Particles.CovarianceExit
import Xhive.Particles.ResampleExact
import Xhive.Support.WeightedMoments

/-!
# The sums of the integer estimate

The narrow and the wide sums hold every partial sum, so both are the exact
weighted sums of the raw values.
-/

namespace Xhive.Particles

open Xhive.Support Xhive.Linears Xhive.Filters Finset

/-! ## Accumulations -/

theorem abs_sum_range_le {term : ℕ → ℤ} {bound : ℤ} {i : ℕ} (h : ∀ k < i, |term k| ≤ bound) :
    |∑ k ∈ range i, term k| ≤ i * bound := by
  calc |∑ k ∈ range i, term k| ≤ ∑ k ∈ range i, |term k| := abs_sum_le_sum_abs _ _
    _ ≤ #(range i) • bound := sum_le_card_nsmul _ _ _ fun k hk => h k (mem_range.mp hk)
    _ = i * bound := by rw [card_range, nsmul_eq_mul]

/-- Words with signs are summed exactly over every array that fits in memory. -/
theorem toInt_pfQIadd_loop (magnitude : ℕ → UInt64) (negative : ℕ → Bool) {count : ℕ}
    (hcount : count ≤ 2 ^ 63) :
    ∀ i ≤ count, (foldRange 0 i ⟨0, 0⟩ fun k sum => pfQIadd sum (magnitude k) (negative k)).toInt =
      ∑ k ∈ range i, signed (negative k) ((magnitude k).toNat : ℤ) := by
  have hterm : ∀ k, |signed (negative k) ((magnitude k).toNat : ℤ)| ≤ 2 ^ 64 - 1 := by
    intro k
    have hword := (magnitude k).toNat_lt
    cases negative k <;> simp only [signed_true, signed_false, abs_neg, Nat.abs_cast] <;> omega
  intro i
  induction i with
  | zero => exact fun _ => Accum.toInt_zero
  | succ i ih =>
      intro hi
      have hsum := ih (by omega)
      have hprefix := abs_sum_range_le (i := i + 1) fun k _ => hterm k
      rw [sum_range_succ, abs_le] at hprefix
      rw [foldRange_succ (Nat.zero_le i), sum_range_succ, ← hsum]
      rw [← hsum] at hprefix
      apply toInt_pfQIadd
      constructor <;> push_cast at hprefix <;> nlinarith

/-- A sum in one word is exact when no partial sum can leave it. -/
theorem toInt_narrow_loop {term : ℕ → Int64} {bound : ℤ} {count : ℕ}
    (hterm : ∀ k < count, |(term k).toInt| ≤ bound) (hroom : count * bound < 2 ^ 63) :
    ∀ i ≤ count, (foldRange 0 i 0 fun k narrow => narrow + term k).toInt =
      ∑ k ∈ range i, (term k).toInt := by
  intro i
  induction i with
  | zero => exact fun _ => rfl
  | succ i ih =>
      intro hi
      have hsum := ih (by omega)
      have hprefix := abs_sum_range_le (i := i + 1) fun k hk => hterm k (by omega)
      have hbound : 0 ≤ bound := (abs_nonneg _).trans (hterm i hi)
      have hfull : ((i + 1 : ℕ) : ℤ) * bound ≤ count * bound :=
        mul_le_mul_of_nonneg_right (by exact_mod_cast hi) hbound
      rw [sum_range_succ, abs_le, ← hsum] at hprefix
      rw [foldRange_succ (Nat.zero_le i), sum_range_succ, ← hsum]
      apply toInt_add_of_fits
      constructor <;> linarith

theorem toInt_momentExtend (narrow : Int64) : (momentExtend narrow).toInt = narrow.toInt := by
  have hlow := narrow.le_toInt
  have hhigh := narrow.toInt_lt
  have hword := toNat_toUInt64 narrow
  have hmax : (0xffffffffffffffff : UInt64).toNat = 2 ^ 64 - 1 := rfl
  apply Accum.toInt_eq_of_emod
  · constructor <;> omega
  rw [momentExtend, Accum.toNat]
  simp only [lt_zero_iff_toInt]
  split at hword
  · rename_i hneg
    rw [if_pos hneg, hmax]
    omega
  · rename_i hneg
    rw [if_neg hneg, UInt64.toNat_zero]
    omega

variable {Q : Type} [ParticleFormat Q] {weights : ℕ → Q} {particles : ℕ × ℕ → Q} {mean : ℕ → Q}
  {count : ℕ} {wide : Bool}

/-! ## Raw values -/

theorem pow_signalBits_cases (Q : Type) [ParticleFormat Q] :
    (QFormat.qBits Q = 15 ∧ (2 : ℤ) ^ signalBits Q = 2 ^ 15) ∨
      (QFormat.qBits Q = 31 ∧ (2 : ℤ) ^ signalBits Q = 2 ^ 31) := by
  obtain ⟨hbits, hsignal, -⟩ | ⟨hbits, hsignal, -⟩ := moment_format_cases Q
  · exact Or.inl ⟨hbits, by rw [hsignal]⟩
  · exact Or.inr ⟨hbits, by rw [hsignal]⟩

theorem widen_bounds (x : Q) :
    -2 ^ signalBits Q ≤ (QFormat.widen x).toInt ∧ (QFormat.widen x).toInt ≤ 2 ^ signalBits Q - 1 :=
  ⟨QFormat.le_toInt_widen x, Int.le_sub_one_of_lt (QFormat.toInt_widen_lt x)⟩

theorem weightCode_le_signal (weight : Q) : (weightCode weight : ℤ) ≤ 2 ^ signalBits Q - 1 := by
  have hhigh := (widen_bounds weight).2
  have hpow : (0 : ℤ) < 2 ^ signalBits Q := by positivity
  rw [weightCode]
  omega

/-- The raw value of a coordinate. -/
def rawParticle (particles : ℕ × ℕ → Q) (i j : ℕ) : ℤ :=
  (QFormat.widen (particles (i, j))).toInt

/-- The weights as integers. -/
def rawWeight (weights : ℕ → Q) (i : ℕ) : ℤ :=
  weightCode (weights i)

theorem rawWeight_eq (h : WeightsAdmitted wide weights count) {i : ℕ} (hi : i < count) :
    (QFormat.widen (weights i)).toInt = rawWeight weights i := by
  have hnonneg := h.nonneg i hi
  rw [rawWeight, weightCode]
  omega

/-! ## The sums of the mean -/

/-- The exact sum of a coordinate over the first `i` particles. -/
def exactMeanSum (weights : ℕ → Q) (particles : ℕ × ℕ → Q) (i j : ℕ) : ℤ :=
  weightedSum (range i) (rawWeight weights) fun k => rawParticle particles k j

theorem toNat_pfQMagnitude (value : Int64) : (pfQMagnitude value).toNat = value.toInt.natAbs :=
  toNat_lnMagnitude value

theorem toInt_meanSumWide (h : WeightsAdmitted wide weights count) (j : ℕ) :
    ∀ i ≤ count, (meanSumWide weights particles i j).toInt = exactMeanSum weights particles i j := by
  intro i hi
  have hloop := toInt_pfQIadd_loop
    (fun k => pfQMagnitude (QFormat.widen (particles (k, j))) * weightWord (weights k))
    (fun k => decide (QFormat.widen (particles (k, j)) < 0)) h.count_lt.le i hi
  rw [meanSumWide, hloop, exactMeanSum, weightedSum]
  apply sum_congr rfl
  intro k hk
  have hk : k < count := (mem_range.mp hk).trans_le hi
  obtain ⟨hlow, hhigh⟩ := widen_bounds (particles (k, j))
  have hweight := weightCode_le_signal (weights k)
  have hword := toNat_weightWord (h.nonneg k hk)
  have hsigned := signed_natAbs_toInt (QFormat.widen (particles (k, j)))
  have hproduct : (pfQMagnitude (QFormat.widen (particles (k, j))) * weightWord (weights k)).toNat =
      (QFormat.widen (particles (k, j))).toInt.natAbs * weightCode (weights k) := by
    rw [UInt64.toNat_mul, toNat_pfQMagnitude, hword, Nat.mod_eq_of_lt]
    have hcode : weightCode (weights k) < 2 ^ 31 := by
      have := weightCode_le (weights k)
      omega
    have hmagnitude : (QFormat.widen (particles (k, j))).toInt.natAbs ≤ 2 ^ 31 := by
      obtain ⟨-, hpow⟩ | ⟨-, hpow⟩ := pow_signalBits_cases Q <;> rw [hpow] at hlow hhigh <;> omega
    calc (QFormat.widen (particles (k, j))).toInt.natAbs * weightCode (weights k)
        ≤ 2 ^ 31 * 2 ^ 31 := Nat.mul_le_mul hmagnitude hcode.le
      _ < 2 ^ 64 := by norm_num
  rw [hproduct, Nat.cast_mul, ← signed_mul, hsigned, mul_comm]
  rfl

/-- The product of a coordinate with its weight in one word. -/
theorem toInt_meanTerm (hbits : QFormat.qBits Q = 15) (h : WeightsAdmitted wide weights count)
    (j : ℕ) {k : ℕ} (hk : k < count) :
    (QFormat.widen (particles (k, j)) * QFormat.widen (weights k)).toInt =
        rawWeight weights k * rawParticle particles k j ∧
      |rawWeight weights k * rawParticle particles k j| ≤ 32768 * 32767 := by
  obtain ⟨hlow, hhigh⟩ := widen_bounds (particles (k, j))
  have hweight := weightCode_le_signal (weights k)
  have hpow : (2 : ℤ) ^ signalBits Q = 2 ^ 15 := by rw [signalBits, hbits]; rfl
  rw [hpow] at hlow hhigh hweight
  have hbound : |rawWeight weights k * rawParticle particles k j| ≤ 32768 * 32767 := by
    rw [abs_mul, mul_comm (32768 : ℤ)]
    refine mul_le_mul ?_ ?_ (abs_nonneg _) (by norm_num)
    · rw [rawWeight, Nat.abs_cast]
      omega
    · rw [rawParticle, abs_le]
      omega
  refine ⟨?_, hbound⟩
  rw [abs_le] at hbound
  have hvalue := rawWeight_eq h hk
  rw [toInt_mul_of_fits, hvalue, mul_comm]
  · rfl
  · rw [hvalue, mul_comm]
    change FitsInt64 (rawWeight weights k * rawParticle particles k j)
    constructor <;> omega

theorem toInt_meanSumNarrow (h : WeightsAdmitted wide weights count)
    (hnarrow : meanFitsNarrow Q count = true) (j : ℕ) :
    ∀ i ≤ count,
      (meanSumNarrow weights particles i j).toInt = exactMeanSum weights particles i j := by
  intro i hi
  rw [meanFitsNarrow, decide_eq_true_iff, UInt64.le_iff_toNat_le, h.toNat_count] at hnarrow
  obtain ⟨hbits, hcount⟩ := hnarrow
  have hlimit : (9223372036854775807 / (32768 * 32767) : UInt64).toNat = 8590196744 := by decide
  rw [hlimit] at hcount
  have hterm := fun k hk => @toInt_meanTerm Q _ weights particles _ _ hbits h j k hk
  have hloop := @toInt_narrow_loop
    (fun k => QFormat.widen (particles (k, j)) * QFormat.widen (weights k)) (32768 * 32767) _
    (fun k hk => by rw [(hterm k hk).1]; exact (hterm k hk).2) (by omega) i hi
  rw [meanSumNarrow, hloop, exactMeanSum, weightedSum]
  exact sum_congr rfl fun k hk => (hterm k ((mem_range.mp hk).trans_le hi)).1

/-- The sum of a coordinate is exact on both paths. -/
theorem toInt_meanSum (h : WeightsAdmitted wide weights count) (j : ℕ) :
    (meanSum weights particles count j).toInt = exactMeanSum weights particles count j := by
  rw [meanSum]
  split
  · rename_i hnarrow
    rw [toInt_momentExtend, toInt_meanSumNarrow h hnarrow j count le_rfl]
  · exact toInt_meanSumWide h j count le_rfl

/-! ## The sums of the covariance -/

/-- The magnitude of a product of residuals: the q31 build rounds it to 31 fractional bits. -/
def residualCode (Q : Type) [ParticleFormat Q] (a b : ℕ) : ℕ :=
  if QFormat.qBits Q = 31 then roundedQuotient (a * b) (2 ^ 31) else a * b

/-- The product of two residuals. -/
def residualProduct (Q : Type) [ParticleFormat Q] (a b : ℤ) : ℤ :=
  signed (decide (a < 0) != decide (b < 0)) (residualCode Q a.natAbs b.natAbs : ℤ)

/-- A residual about the staged mean. -/
def rawResidual (particles : ℕ × ℕ → Q) (mean : ℕ → Q) (i j : ℕ) : ℤ :=
  rawParticle particles i j - (QFormat.widen (mean j)).toInt

theorem abs_rawResidual_le (i j : ℕ) :
    |rawResidual particles mean i j| ≤ 2 ^ (signalBits Q + 1) - 1 := by
  obtain ⟨hlow, hhigh⟩ := widen_bounds (particles (i, j))
  obtain ⟨hlow', hhigh'⟩ := widen_bounds (mean j)
  rw [rawResidual, rawParticle, pow_succ, abs_le]
  omega

theorem toInt_residualRaw (i j : ℕ) :
    (residualRaw particles mean i j).toInt = rawResidual particles mean i j := by
  have hbound := @abs_rawResidual_le Q _ particles mean i j
  rw [pow_succ, abs_le] at hbound
  rw [residualRaw, toInt_sub_of_fits]
  · rfl
  change FitsInt64 (rawResidual particles mean i j)
  obtain ⟨-, hpow⟩ | ⟨-, hpow⟩ := pow_signalBits_cases Q <;> rw [hpow] at hbound <;>
    constructor <;> omega

/-- The exact sum of the first `i` products. -/
def exactCovarianceSum (weights : ℕ → Q) (particles : ℕ × ℕ → Q) (mean : ℕ → Q) (i j k : ℕ) : ℤ :=
  weightedSum (range i) (rawWeight weights) fun l =>
    residualProduct Q (rawResidual particles mean l j) (rawResidual particles mean l k)

/-- The product of the magnitudes fits a word, with its rounding bit and its weight. -/
theorem toNat_covarianceProduct {a b : Int64} {weight : Q}
    (ha : |a.toInt| ≤ 2 ^ (signalBits Q + 1) - 1) (hb : |b.toInt| ≤ 2 ^ (signalBits Q + 1) - 1)
    (hweight : 0 ≤ (QFormat.widen weight).toInt) :
    (covarianceProduct a b weight).toNat =
      residualCode Q a.toInt.natAbs b.toInt.natAbs * weightCode weight := by
  have hcode := weightCode_le_signal weight
  have hword := toNat_weightWord hweight
  rw [pow_succ, abs_le] at ha hb
  obtain ⟨hbits, hpow⟩ | ⟨hbits, hpow⟩ := pow_signalBits_cases Q <;> rw [hpow] at ha hb hcode
  · have hproduct : a.toInt.natAbs * b.toInt.natAbs ≤ 65535 * 65535 :=
      Nat.mul_le_mul (by omega) (by omega)
    have hweighted : a.toInt.natAbs * b.toInt.natAbs * weightCode weight < 2 ^ 64 :=
      (Nat.mul_le_mul hproduct (show weightCode weight ≤ 32767 by omega)).trans_lt (by norm_num)
    have hnot : ¬QFormat.qBits Q = 31 := by rw [hbits]; decide
    rw [covarianceProduct, residualCode, if_neg hnot, if_neg hnot, UInt64.toNat_mul,
      UInt64.toNat_mul, toNat_pfQMagnitude, toNat_pfQMagnitude, hword,
      Nat.mod_eq_of_lt (hproduct.trans_lt (by norm_num)), Nat.mod_eq_of_lt hweighted]
  · have hproduct : a.toInt.natAbs * b.toInt.natAbs ≤ 4294967295 * 4294967295 :=
      Nat.mul_le_mul (by omega) (by omega)
    have hrounded : roundedQuotient (a.toInt.natAbs * b.toInt.natAbs) (2 ^ 31) ≤ 2 ^ 33 := by
      rw [roundedQuotient_le_iff (by norm_num)]
      omega
    have hweighted : roundedQuotient (a.toInt.natAbs * b.toInt.natAbs) (2 ^ 31) *
        weightCode weight < 2 ^ 64 :=
      (Nat.mul_le_mul hrounded (show weightCode weight ≤ 2 ^ 31 - 1 by omega)).trans_lt
        (by norm_num)
    have hhalf : (1073741824 : UInt64).toNat = 2 ^ 31 / 2 := rfl
    have hsum : (pfQMagnitude a * pfQMagnitude b + 1073741824).toNat =
        a.toInt.natAbs * b.toInt.natAbs + 2 ^ 31 / 2 := by
      rw [UInt64.toNat_add, UInt64.toNat_mul, toNat_pfQMagnitude, toNat_pfQMagnitude, hhalf,
        Nat.mod_eq_of_lt (hproduct.trans_lt (by norm_num)), Nat.mod_eq_of_lt (by omega)]
    rw [covarianceProduct, residualCode, if_pos hbits, if_pos hbits, UInt64.toNat_mul,
      toNat_shiftRight_eq _ _ (by decide), hsum, show (31 : UInt64).toNat = 31 from rfl,
      div_add_half_eq _ (by norm_num), hword, Nat.mod_eq_of_lt hweighted]

theorem toInt_covarianceSumWide (h : WeightsAdmitted wide weights count) (j k : ℕ) :
    ∀ i ≤ count, (covarianceSumWide weights particles mean i j k).toInt =
      exactCovarianceSum weights particles mean i j k := by
  intro i hi
  have hloop := toInt_pfQIadd_loop
    (fun l => covarianceProduct (residualRaw particles mean l j) (residualRaw particles mean l k)
      (weights l))
    (fun l => decide (residualRaw particles mean l j < 0) !=
      decide (residualRaw particles mean l k < 0)) h.count_lt.le i hi
  rw [covarianceSumWide, hloop, exactCovarianceSum, weightedSum]
  apply sum_congr rfl
  intro l hl
  have hl : l < count := (mem_range.mp hl).trans_le hi
  have hj := @abs_rawResidual_le Q _ particles mean l j
  have hk := @abs_rawResidual_le Q _ particles mean l k
  rw [← toInt_residualRaw] at hj hk
  rw [toNat_covarianceProduct hj hk (h.nonneg l hl), Nat.cast_mul, ← signed_mul, mul_comm]
  simp only [lt_zero_iff_toInt, toInt_residualRaw]
  rfl

/-- The weighted product of two residuals in one word. -/
theorem toInt_covarianceTerm (hbits : QFormat.qBits Q = 15)
    (h : WeightsAdmitted wide weights count) (j k : ℕ) {l : ℕ} (hl : l < count) :
    (residualRaw particles mean l j * residualRaw particles mean l k *
        QFormat.widen (weights l)).toInt =
        rawWeight weights l *
          residualProduct Q (rawResidual particles mean l j) (rawResidual particles mean l k) ∧
      |rawWeight weights l *
          residualProduct Q (rawResidual particles mean l j) (rawResidual particles mean l k)| ≤
        65535 * 65535 * 32767 := by
  have hj := @abs_rawResidual_le Q _ particles mean l j
  have hk := @abs_rawResidual_le Q _ particles mean l k
  have hweight := weightCode_le_signal (weights l)
  have hpow : (2 : ℤ) ^ signalBits Q = 2 ^ 15 := by rw [signalBits, hbits]; rfl
  rw [pow_succ, hpow] at hj hk
  rw [hpow] at hweight
  have hnot : ¬QFormat.qBits Q = 31 := by rw [hbits]; decide
  have hexact : residualProduct Q (rawResidual particles mean l j)
      (rawResidual particles mean l k) =
        rawResidual particles mean l j * rawResidual particles mean l k := by
    rw [residualProduct, residualCode, if_neg hnot, Nat.cast_mul, ← signed_mul_signed,
      signed_natAbs, signed_natAbs]
  have hproduct : |rawResidual particles mean l j * rawResidual particles mean l k| ≤
      65535 * 65535 := by
    rw [abs_mul]
    exact mul_le_mul (by omega) (by omega) (abs_nonneg _) (by norm_num)
  have hcode : |rawWeight weights l| ≤ 32767 := by
    rw [rawWeight, Nat.abs_cast]
    omega
  have hbound : |rawWeight weights l *
      (rawResidual particles mean l j * rawResidual particles mean l k)| ≤
        65535 * 65535 * 32767 := by
    rw [abs_mul, mul_comm]
    exact mul_le_mul hproduct hcode (abs_nonneg _) (by norm_num)
  have hvalue := rawWeight_eq h hl
  have hnarrow : (residualRaw particles mean l j * residualRaw particles mean l k).toInt =
      rawResidual particles mean l j * rawResidual particles mean l k := by
    rw [toInt_mul_of_fits, toInt_residualRaw, toInt_residualRaw]
    rw [toInt_residualRaw, toInt_residualRaw]
    rw [abs_le] at hproduct
    constructor <;> omega
  rw [hexact]
  refine ⟨?_, hbound⟩
  rw [abs_le] at hbound
  rw [toInt_mul_of_fits, hnarrow, hvalue, mul_comm]
  rw [hnarrow, hvalue, mul_comm]
  constructor <;> omega

theorem toInt_covarianceSumNarrow (h : WeightsAdmitted wide weights count)
    (hnarrow : covarianceFitsNarrow Q count = true) (j k : ℕ) :
    ∀ i ≤ count, (covarianceSumNarrow weights particles mean i j k).toInt =
      exactCovarianceSum weights particles mean i j k := by
  intro i hi
  rw [covarianceFitsNarrow, decide_eq_true_iff, UInt64.le_iff_toNat_le, h.toNat_count] at hnarrow
  obtain ⟨hbits, hcount⟩ := hnarrow
  have hlimit : (9223372036854775807 / (65535 * 65535 * 32767) : UInt64).toNat = 65540 := by decide
  rw [hlimit] at hcount
  have hterm := fun l hl => @toInt_covarianceTerm Q _ weights particles mean _ _ hbits h
    j k l hl
  have hloop := @toInt_narrow_loop
    (fun l => residualRaw particles mean l j * residualRaw particles mean l k *
      QFormat.widen (weights l)) (65535 * 65535 * 32767) _
    (fun l hl => by rw [(hterm l hl).1]; exact (hterm l hl).2) (by omega) i hi
  rw [covarianceSumNarrow, hloop, exactCovarianceSum, weightedSum]
  exact sum_congr rfl fun l hl => (hterm l ((mem_range.mp hl).trans_le hi)).1

/-- The sum of the products is exact on both paths. -/
theorem toInt_covarianceSum (h : WeightsAdmitted wide weights count) (j k : ℕ) :
    (covarianceSum weights particles mean count j k).toInt =
      exactCovarianceSum weights particles mean count j k := by
  rw [covarianceSum]
  split
  · rename_i hnarrow
    rw [toInt_momentExtend, toInt_covarianceSumNarrow h hnarrow j k count le_rfl]
  · exact toInt_covarianceSumWide h j k count le_rfl

end Xhive.Particles
