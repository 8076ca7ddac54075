import Xhive.Particles.WideExact
import Xhive.Support.Rounding

/-!
# The fast exit of the covariance

Where the product of the mean remainders cannot move the rounding, the narrow
quotient is what the wide words would give.
-/

namespace Xhive.Particles

open Xhive.Support Xhive.Linears

variable {sum total first second : Accum}

theorem ite_eq_elim {α : Type} {c : Prop} [Decidable c] (value : α)
    (otherwise : Except Status α) :
    (if c then .ok value else otherwise) =
      (if c then some value else none).elim otherwise Except.ok := by
  split <;> rfl

variable {Q : Type} [ParticleFormat Q]

/-! ## Ranges -/

theorem moment_format_cases (Q : Type) [ParticleFormat Q] :
    (QFormat.qBits Q = 15 ∧ signalBits Q = 15 ∧ momentWords Q = 6) ∨
      (QFormat.qBits Q = 31 ∧ signalBits Q = 31 ∧ momentWords Q = 8) := by
  rcases QFormat.qBits_cases (Q := Q) with h | h
  · exact Or.inl ⟨h, by rw [signalBits, h]; rfl, by rw [momentWords, h]; rfl⟩
  · exact Or.inr ⟨h, by rw [signalBits, h]; rfl, by rw [momentWords, h]; rfl⟩

/-- A positive sum of weights, and mean remainders that are at most half of it. -/
structure MeanRemainders (Q : Type) [ParticleFormat Q] (total first second : Accum) : Prop where
  total_pos : 0 < total.toNat
  total_lt : total.toNat < 2 ^ (64 + signalBits Q)
  first_le : 2 * first.toInt.natAbs ≤ total.toNat
  second_le : 2 * second.toInt.natAbs ≤ total.toNat

/-- The divisor of the narrow quotient. -/
def covarianceDivisor (Q : Type) [ParticleFormat Q] (total : ℕ) : ℕ :=
  if QFormat.qBits Q = 15 then total * 2 ^ 15 else total

/-- What the wide quotient has above the narrow one, in numerator and denominator. -/
def covarianceScale (Q : Type) [ParticleFormat Q] (total : ℕ) : ℕ :=
  if QFormat.qBits Q = 31 then total * 2 ^ 31 else total

theorem divisor_mul_scale (Q : Type) [ParticleFormat Q] (total : ℕ) :
    covarianceDivisor Q total * covarianceScale Q total = total * total * 2 ^ signalBits Q := by
  rw [covarianceDivisor, covarianceScale]
  obtain ⟨hbits, hsignal, -⟩ | ⟨hbits, hsignal, -⟩ := moment_format_cases Q <;>
    rw [hbits, hsignal]
  · rw [if_pos rfl, if_neg (by decide)]
    ring
  · rw [if_neg (by decide), if_pos rfl]
    ring

section Ranges

variable (h : MeanRemainders Q total first second)

include h

theorem MeanRemainders.divisor_pos : 0 < covarianceDivisor Q total.toNat := by
  have hpos := h.total_pos
  rw [covarianceDivisor]
  split <;> omega

theorem MeanRemainders.scale_pos : 0 < covarianceScale Q total.toNat := by
  have hpos := h.total_pos
  rw [covarianceScale]
  split <;> omega

theorem MeanRemainders.divisor_lt : covarianceDivisor Q total.toNat < 2 ^ 95 := by
  have hlt := h.total_lt
  rw [covarianceDivisor]
  obtain ⟨hbits, hsignal, -⟩ | ⟨hbits, hsignal, -⟩ := moment_format_cases Q <;>
    rw [hsignal] at hlt <;> rw [hbits]
  · rw [if_pos rfl]
    omega
  · rw [if_neg (by decide)]
    exact hlt

/-- The product of the remainders is at most a quarter of the squared total. -/
theorem MeanRemainders.correction_le :
    4 * (first.toInt.natAbs * second.toInt.natAbs) ≤ total.toNat * total.toNat := by
  calc 4 * (first.toInt.natAbs * second.toInt.natAbs)
      = 2 * first.toInt.natAbs * (2 * second.toInt.natAbs) := by ring
    _ ≤ total.toNat * total.toNat := Nat.mul_le_mul h.first_le h.second_le

/-- The wide words hold every term. -/
theorem MeanRemainders.room :
    total.toNat * total.toNat * 2 ^ (2 * signalBits Q + 2) + total.toNat * total.toNat <
      2 ^ (32 * momentWords Q) := by
  have hlt := h.total_lt
  have hsquare := Nat.mul_lt_mul'' hlt hlt
  obtain ⟨-, hsignal, hwords⟩ | ⟨-, hsignal, hwords⟩ := moment_format_cases Q <;>
    rw [hsignal, ← pow_add] at hsquare <;> rw [hsignal, hwords] <;>
    generalize total.toNat * total.toNat = square at * <;> omega

end Ranges

/-! ## The wide quotient -/

/-- The numerator of the wide quotient without its correction. -/
def covarianceProductOf (Q : Type) [ParticleFormat Q] (sum total : Accum) : ℕ :=
  sum.toInt.natAbs * covarianceScale Q total.toNat

/-- Whether sum and correction have the same sign. -/
def correctionOpposes (sum first second : Accum) : Bool :=
  lnNegative sum != (lnNegative first != lnNegative second)

/-- The corrected magnitude. -/
def correctedMagnitude (product correction : ℕ) (opposes : Bool) : ℕ :=
  if opposes then product + correction
  else if correction ≤ product then product - correction else correction - product

/-- The numerator of the wide quotient, when the narrow quotient is at most four. -/
theorem momentNumerator_spec (h : MeanRemainders Q total first second)
    (hsum : sum.toInt.natAbs ≤ covarianceDivisor Q total.toNat * 2 ^ (signalBits Q + 2)) :
    let product := covarianceProductOf Q sum total
    let correction := first.toInt.natAbs * second.toInt.natAbs
    let opposes := correctionOpposes sum first second
    wideValue (momentWords Q) (momentNumerator Q sum total first second).1 =
        correctedMagnitude product correction opposes ∧
      (momentNumerator Q sum total first second).2 =
        if opposes = true ∨ correction ≤ product then lnNegative sum else !lnNegative sum := by
  dsimp only
  have hroom := h.room
  have hcorrection := h.correction_le
  have hwords : 4 ≤ momentWords Q := by
    obtain ⟨-, -, hwords⟩ | ⟨-, -, hwords⟩ := moment_format_cases Q <;> rw [hwords] <;> decide
  have hproductle : covarianceProductOf Q sum total ≤
      total.toNat * total.toNat * 2 ^ (2 * signalBits Q + 2) := by
    calc covarianceProductOf Q sum total
        ≤ covarianceDivisor Q total.toNat * 2 ^ (signalBits Q + 2) *
            covarianceScale Q total.toNat := Nat.mul_le_mul_right _ hsum
      _ = covarianceDivisor Q total.toNat * covarianceScale Q total.toNat *
            2 ^ (signalBits Q + 2) := by ring
      _ = total.toNat * total.toNat * 2 ^ (2 * signalBits Q + 2) := by
        rw [divisor_mul_scale]
        ring
  have hcorrectionvalue : wideValue (momentWords Q) (momentMultiplyWide (momentWords Q)
      (momentMagnitude first) (momentMagnitude second)) =
        first.toInt.natAbs * second.toInt.natAbs := by
    rw [wideValue_momentMultiplyWide hwords, toNat_momentMagnitude, toNat_momentMagnitude]
    rw [toNat_momentMagnitude, toNat_momentMagnitude]
    omega
  have hproductvalue : wideValue (momentWords Q)
      (if QFormat.qBits Q = 31 then momentLeftWide (momentWords Q)
        (momentMultiplyWide (momentWords Q) (momentMagnitude sum) total) 31
      else momentMultiplyWide (momentWords Q) (momentMagnitude sum) total) =
        covarianceProductOf Q sum total := by
    rw [covarianceProductOf, covarianceScale] at hproductle ⊢
    by_cases hbits : QFormat.qBits Q = 31
    · rw [if_pos hbits] at hproductle ⊢
      rw [if_pos hbits, ← Nat.mul_assoc] at *
      have hnarrow : wideValue (momentWords Q) (momentMultiplyWide (momentWords Q)
          (momentMagnitude sum) total) = sum.toInt.natAbs * total.toNat := by
        rw [wideValue_momentMultiplyWide hwords, toNat_momentMagnitude]
        rw [toNat_momentMagnitude]
        omega
      rw [wideValue_momentLeftWide (by decide), hnarrow]
      rw [hnarrow]
      omega
    · rw [if_neg hbits] at hproductle ⊢
      rw [if_neg hbits, wideValue_momentMultiplyWide hwords, toNat_momentMagnitude]
      rw [toNat_momentMagnitude]
      omega
  rw [momentNumerator]
  have hopposes : (lnNegative sum != (lnNegative first != lnNegative second)) =
      correctionOpposes sum first second := rfl
  have hcompare := momentCompareWide_lt_iff
    (if QFormat.qBits Q = 31 then momentLeftWide (momentWords Q)
        (momentMultiplyWide (momentWords Q) (momentMagnitude sum) total) 31
      else momentMultiplyWide (momentWords Q) (momentMagnitude sum) total)
    (momentMultiplyWide (momentWords Q) (momentMagnitude first) (momentMagnitude second))
    (momentWords Q)
  rw [hopposes]
  generalize (if QFormat.qBits Q = 31 then momentLeftWide (momentWords Q)
        (momentMultiplyWide (momentWords Q) (momentMagnitude sum) total) 31
      else momentMultiplyWide (momentWords Q) (momentMagnitude sum) total) = numerator at *
  generalize momentMultiplyWide (momentWords Q) (momentMagnitude first) (momentMagnitude second) =
    subtrahend at *
  rw [hproductvalue, hcorrectionvalue] at hcompare
  rw [correctedMagnitude]
  cases correctionOpposes sum first second with
  | true =>
      rw [if_pos rfl, if_pos rfl, if_pos (Or.inl rfl)]
      refine ⟨?_, rfl⟩
      rw [wideValue_momentAddWide, hproductvalue, hcorrectionvalue]
      rw [hproductvalue, hcorrectionvalue]
      omega
  | false =>
      rw [if_neg Bool.false_ne_true, if_neg Bool.false_ne_true]
      by_cases hle : first.toInt.natAbs * second.toInt.natAbs ≤ covarianceProductOf Q sum total
      · rw [if_pos (by omega), if_pos hle, if_pos (Or.inr hle)]
        refine ⟨?_, rfl⟩
        rw [wideValue_momentSubWide, hproductvalue, hcorrectionvalue]
        rw [hproductvalue, hcorrectionvalue]
        exact hle
      · rw [if_neg (by omega), if_neg hle, if_neg (by simpa using hle)]
        refine ⟨?_, rfl⟩
        rw [wideValue_momentSubWide, hproductvalue, hcorrectionvalue]
        rw [hproductvalue, hcorrectionvalue]
        omega

/-- The denominator of the wide quotient. -/
theorem momentDenominator_spec (h : MeanRemainders Q total first second) :
    wideValue (momentWords Q) (momentDenominator Q total) =
      covarianceDivisor Q total.toNat * covarianceScale Q total.toNat := by
  have hroom := h.room
  have hone : 1 ≤ 2 ^ signalBits Q := Nat.one_le_two_pow
  obtain ⟨hshift, hwords⟩ : signalBits Q < 32 ∧ 4 ≤ momentWords Q := by
    obtain ⟨-, hsignal, hwords⟩ | ⟨-, hsignal, hwords⟩ := moment_format_cases Q <;>
      rw [hsignal, hwords] <;> decide
  have hsquare : wideValue (momentWords Q) (momentMultiplyWide (momentWords Q) total total) =
      total.toNat * total.toNat := by
    rw [wideValue_momentMultiplyWide hwords]
    omega
  have hle : 2 ^ signalBits Q ≤ 2 ^ (2 * signalBits Q + 2) :=
    Nat.pow_le_pow_right (by norm_num) (by omega)
  have hscaled := Nat.mul_le_mul_left (total.toNat * total.toNat) hle
  rw [momentDenominator, divisor_mul_scale, ← hsquare]
  rw [← hsquare] at hroom hscaled
  exact wideValue_momentLeftWide hshift (by omega)

/-- The limit of the wide quotient. -/
theorem momentLimit_spec (h : MeanRemainders Q total first second) :
    wideValue (momentWords Q) (momentDenominator Q total) * 2 ^ signalBits Q <
        2 ^ (32 * momentWords Q) ∧
      wideValue (momentWords Q)
          (momentLeftWide (momentWords Q) (momentDenominator Q total) (signalBits Q)) =
        covarianceDivisor Q total.toNat * covarianceScale Q total.toNat * 2 ^ signalBits Q := by
  have hdenominator := momentDenominator_spec h
  have hroom := h.room
  have hshift : signalBits Q < 32 := by
    obtain ⟨-, hsignal, -⟩ | ⟨-, hsignal, -⟩ := moment_format_cases Q <;> rw [hsignal] <;> decide
  have hfits : wideValue (momentWords Q) (momentDenominator Q total) * 2 ^ signalBits Q <
      2 ^ (32 * momentWords Q) := by
    have hpow : (2 : ℕ) ^ signalBits Q * 2 ^ signalBits Q ≤ 2 ^ (2 * signalBits Q + 2) := by
      rw [← pow_add]
      exact Nat.pow_le_pow_right (by norm_num) (by omega)
    have hle := Nat.mul_le_mul_left (total.toNat * total.toNat) hpow
    rw [hdenominator, divisor_mul_scale, Nat.mul_assoc]
    omega
  exact ⟨hfits, by rw [wideValue_momentLeftWide hshift hfits, hdenominator]⟩

/-- The wide division is rounded to nearest. -/
theorem momentDivideWide_spec {numerator denominator : MomentWide}
    (hd : 0 < wideValue (momentWords Q) denominator)
    (hroom : wideValue (momentWords Q) denominator * 2 ^ signalBits Q <
      2 ^ (32 * momentWords Q))
    (hle : wideValue (momentWords Q) numerator ≤
      wideValue (momentWords Q) denominator * 2 ^ signalBits Q) :
    (momentDivideWide Q numerator denominator).toNat =
      roundedQuotient (wideValue (momentWords Q) numerator)
        (wideValue (momentWords Q) denominator) := by
  obtain ⟨hsignal, hpositive⟩ : signalBits Q < 32 ∧ 1 ≤ signalBits Q := by
    obtain ⟨-, hsignal, -⟩ | ⟨-, hsignal, -⟩ := moment_format_cases Q <;> rw [hsignal] <;> decide
  rw [momentDivideWide]
  dsimp only
  have hdivision : ∃ s : UInt64 × MomentWide,
      (if momentCompareWide numerator denominator (momentWords Q) ≥ 0 then
        let shift := momentBitsWide numerator (momentWords Q) -
          momentBitsWide denominator (momentWords Q)
        let s := (wideUnsigned (momentWords Q)).divideFrom shift
          { remainder := numerator
            divisor := momentLeftWide (momentWords Q) denominator shift
            quotient := 0 }
        (s.quotient, s.remainder)
      else (0, numerator)) = s ∧
      s.1.toNat = wideValue (momentWords Q) numerator / wideValue (momentWords Q) denominator ∧
      wideValue (momentWords Q) s.2 =
        wideValue (momentWords Q) numerator % wideValue (momentWords Q) denominator := by
    refine ⟨_, rfl, ?_⟩
    have hcompare := (momentCompareWide_lt_iff numerator denominator (momentWords Q)).1
    split
    · rename_i hge
      have hge : wideValue (momentWords Q) denominator ≤ wideValue (momentWords Q) numerator := by
        omega
      obtain ⟨hbelow, habove⟩ := aligned_bounds hd hge
      rw [← momentBitsWide_eq, ← momentBitsWide_eq] at hbelow habove
      have hshift : momentBitsWide numerator (momentWords Q) -
          momentBitsWide denominator (momentWords Q) ≤ signalBits Q := by
        have hsize : momentBitsWide numerator (momentWords Q) ≤
            momentBitsWide denominator (momentWords Q) + signalBits Q := by
          rw [momentBitsWide_eq, momentBitsWide_eq, Nat.size_le, pow_add]
          exact hle.trans_lt (Nat.mul_lt_mul_of_pos_right (Nat.lt_size_self _) (Nat.two_pow_pos _))
        omega
      have hfits := Nat.mul_le_mul_left (wideValue (momentWords Q) denominator)
        (Nat.pow_le_pow_right (show 0 < 2 by norm_num) hshift)
      have hshifted := @wideValue_momentLeftWide (momentWords Q) denominator _
        (hshift.trans_lt hsignal) (hfits.trans_lt hroom)
      have hpow : (2 : ℕ) ^ signalBits Q < 2 ^ 64 :=
        Nat.pow_lt_pow_right (by norm_num) (by omega)
      exact (wideUnsigned_exact (momentWords Q)).divideFrom_fits
        (s := ⟨numerator, momentLeftWide (momentWords Q) denominator _, 0⟩) hshifted rfl habove
        (hle.trans_lt (Nat.mul_lt_mul_of_pos_left hpow hd))
    · rename_i hless
      have hlt : wideValue (momentWords Q) numerator < wideValue (momentWords Q) denominator := by
        omega
      exact ⟨(Nat.div_eq_of_lt hlt).symm, (Nat.mod_eq_of_lt hlt).symm⟩
  obtain ⟨s, hs, hquotient, hremainder⟩ := hdivision
  dsimp only at hs
  rw [hs]
  have hlt := Nat.mod_lt (wideValue (momentWords Q) numerator) hd
  have htwo : wideValue (momentWords Q) denominator * 2 ^ 1 ≤
      wideValue (momentWords Q) denominator * 2 ^ signalBits Q :=
    Nat.mul_le_mul_left _ (Nat.pow_le_pow_right (by norm_num) hpositive)
  have htwice : wideValue (momentWords Q) (momentLeftWide (momentWords Q) s.2 1) =
      2 * (wideValue (momentWords Q) numerator % wideValue (momentWords Q) denominator) := by
    rw [wideValue_momentLeftWide (by decide), hremainder, pow_one, Nat.mul_comm]
    rw [hremainder]
    omega
  have hcompare := (momentCompareWide_lt_iff (momentLeftWide (momentWords Q) s.2 1) denominator
    (momentWords Q)).1
  rw [htwice] at hcompare
  have hbound : wideValue (momentWords Q) numerator / wideValue (momentWords Q) denominator ≤
      2 ^ signalBits Q := by
    rw [← Nat.lt_add_one_iff, Nat.div_lt_iff_lt_mul hd, Nat.add_mul, Nat.one_mul, Nat.mul_comm]
    omega
  have hpow : (2 : ℕ) ^ signalBits Q ≤ 2 ^ 31 := Nat.pow_le_pow_right (by norm_num) (by omega)
  rw [roundedQuotient, ← hquotient]
  rw [← hquotient] at hbound
  by_cases hup : momentCompareWide (momentLeftWide (momentWords Q) s.2 1) denominator
      (momentWords Q) ≥ 0
  · rw [if_pos hup, if_pos (by omega), UInt64.toNat_add, UInt64.toNat_one,
      Nat.mod_eq_of_lt (by omega)]
  · rw [if_neg hup, if_neg (by omega), Nat.add_zero]

/-! ## The narrow quotient -/

/-- The narrow quotient is rounded by its doubled remainder. -/
theorem toNat_momentRounded {numerator denominator : Accum} (hd : 0 < denominator.toNat)
    (hroom : denominator.toNat < 2 ^ 95) (hfits : numerator.toNat ≤ denominator.toNat * 2 ^ 31) :
    let division := momentDivide128 numerator denominator
    (momentLeft128 division.2 1).toNat = 2 * (numerator.toNat % denominator.toNat) ∧
      (division.1 + if pfQUcmp (momentLeft128 division.2 1) denominator ≥ 0 then 1 else 0).toNat =
        roundedQuotient numerator.toNat denominator.toNat := by
  dsimp only
  obtain ⟨hquotient, hremainder⟩ := @momentDivide128_spec numerator denominator hd (by omega)
  generalize momentDivide128 numerator denominator = division at *
  have hlt := Nat.mod_lt numerator.toNat hd
  have htwice : (momentLeft128 division.2 1).toNat =
      2 * (numerator.toNat % denominator.toNat) := by
    rw [toNat_momentLeft128 _ (by norm_num), hremainder, Nat.mod_eq_of_lt (by omega), pow_one,
      Nat.mul_comm]
  have hup : pfQUcmp (momentLeft128 division.2 1) denominator ≥ 0 ↔
      denominator.toNat ≤ 2 * (numerator.toNat % denominator.toNat) := by
    rw [← htwice, ge_iff_le, ← not_lt, pfQUcmp_neg_iff, not_lt]
  have hbound : numerator.toNat / denominator.toNat ≤ 2 ^ 31 := by
    rw [← Nat.lt_add_one_iff, Nat.div_lt_iff_lt_mul hd, Nat.add_mul, Nat.one_mul, Nat.mul_comm]
    omega
  have hcarry : (if pfQUcmp (momentLeft128 division.2 1) denominator ≥ 0 then (1 : UInt64)
      else 0).toNat = if pfQUcmp (momentLeft128 division.2 1) denominator ≥ 0 then 1 else 0 := by
    split <;> rfl
  refine ⟨htwice, ?_⟩
  rw [← roundedQuotient_of_divides hquotient hd _ hup, UInt64.toNat_add, hcarry, Nat.mod_eq_of_lt]
  rw [hquotient]
  split <;> omega

/-! ## The fast exit -/

/-- What the covariance stores on its fast exit; `none` where it goes to the wide words. -/
def momentFastExit (sum total first second : Accum) : Option Q :=
  let magnitude := momentMagnitude sum
  let denominator := if QFormat.qBits Q = 15 then momentLeft128 total 15 else total
  if pfQUcmp magnitude (momentLeft128 denominator (signalBits Q)) > 0 then none
  else
    let division := momentDivide128 magnitude denominator
    let twice := momentLeft128 division.2 1
    let rounded := division.1 + if pfQUcmp twice denominator ≥ 0 then 1 else 0
    if (first.low = 0 ∧ first.high = 0) ∨ (second.low = 0 ∧ second.high = 0) then
      some (momentSignal rounded (lnNegative sum))
    else
      let distance := if pfQUcmp twice denominator ≥ 0 then momentSub128 twice denominator
        else momentSub128 denominator twice
      let guard := momentLeft128 distance (signalBits Q + 1)
      if rounded < 1 <<< QFormat.qBits Q ∧ pfQUcmp guard denominator > 0 then
        some (momentSignal rounded (lnNegative sum))
      else none

/-- The covariance is its fast exit, or else the wide words. -/
theorem momentCovariance_eq (sum total first second : Accum) :
    momentCovariance (Q := Q) sum total first second =
      (momentFastExit sum total first second).elim
        (momentCovarianceWide sum total first second) Except.ok := by
  rw [momentCovariance, momentFastExit]
  dsimp only
  generalize (if QFormat.qBits Q = 15 then momentLeft128 total 15 else total) = denominator
  by_cases hlimit : pfQUcmp (momentMagnitude sum) (momentLeft128 denominator (signalBits Q)) > 0
  · rw [if_pos hlimit, if_pos hlimit]
    rfl
  rw [if_neg hlimit, if_neg hlimit]
  by_cases hzero : (first.low = 0 ∧ first.high = 0) ∨ (second.low = 0 ∧ second.high = 0)
  · rw [if_pos hzero, if_pos hzero]
    rfl
  rw [if_neg hzero, if_neg hzero]
  exact ite_eq_elim _ _

/-- What the fast exit has found out. -/
structure ExitTaken (Q : Type) [ParticleFormat Q] (sum total first second : Accum)
    (value : Q) : Prop where
  sum_le : sum.toInt.natAbs ≤ covarianceDivisor Q total.toNat * 2 ^ signalBits Q
  stored : ∃ rounded : UInt64,
    rounded.toNat = roundedQuotient sum.toInt.natAbs (covarianceDivisor Q total.toNat) ∧
      value = momentSignal rounded (lnNegative sum)
  correction : first.toInt.natAbs * second.toInt.natAbs = 0 ∨
    (roundedQuotient sum.toInt.natAbs (covarianceDivisor Q total.toNat) < 2 ^ signalBits Q ∧
      covarianceDivisor Q total.toNat <
        halfDistance sum.toInt.natAbs (covarianceDivisor Q total.toNat) * 2 ^ (signalBits Q + 1))

/-- The narrow denominator. -/
theorem toNat_covarianceDenominator (h : MeanRemainders Q total first second) :
    (if QFormat.qBits Q = 15 then momentLeft128 total 15 else total).toNat =
      covarianceDivisor Q total.toNat := by
  have hlt := h.divisor_lt
  rw [covarianceDivisor] at hlt ⊢
  split
  · rename_i hbits
    rw [if_pos hbits] at hlt
    rw [toNat_momentLeft128 _ (by norm_num), Nat.mod_eq_of_lt (by omega)]
  · rfl

theorem toInt_of_words {value : Accum} (hlow : value.low = 0) (hhigh : value.high = 0) :
    value.toInt = 0 := by
  have hvalue : value = ⟨0, 0⟩ := by
    rw [← Accum.toNat_inj, Accum.toNat, Accum.toNat, hlow, hhigh]
  rw [hvalue, Accum.toInt_zero]

theorem momentFastExit_spec (h : MeanRemainders Q total first second) {value : Q}
    (hexit : momentFastExit sum total first second = some value) :
    ExitTaken Q sum total first second value := by
  have hd := toNat_covarianceDenominator h
  have hpos := h.divisor_pos
  have hlt := h.divisor_lt
  obtain ⟨hshift, hbits⟩ : signalBits Q ≤ 31 ∧
      (1 <<< QFormat.qBits Q : UInt64).toNat = 2 ^ signalBits Q := by
    obtain ⟨hbits, hsignal, -⟩ | ⟨hbits, hsignal, -⟩ := moment_format_cases Q <;>
      rw [hsignal, hbits] <;> decide
  rw [momentFastExit] at hexit
  dsimp only at hexit
  generalize (if QFormat.qBits Q = 15 then momentLeft128 total 15 else total) = denominator at *
  rw [← hd] at hpos hlt
  have hscaled : ∀ {value : Accum} {shift : ℕ}, value.toNat ≤ denominator.toNat → shift ≤ 32 →
      (momentLeft128 value shift).toNat = value.toNat * 2 ^ shift := by
    intro value shift hle hshift
    rw [toNat_momentLeft128 _ (by omega), Nat.mod_eq_of_lt]
    calc value.toNat * 2 ^ shift ≤ denominator.toNat * 2 ^ 32 :=
          Nat.mul_le_mul hle (Nat.pow_le_pow_right (by norm_num) hshift)
      _ < 2 ^ 128 := by omega
  split at hexit
  · cases hexit
  rename_i hlimit
  have hsum : sum.toInt.natAbs ≤ denominator.toNat * 2 ^ signalBits Q := by
    rw [gt_iff_lt, pfQUcmp_pos_iff, toNat_momentMagnitude, hscaled le_rfl (by omega)] at hlimit
    exact not_lt.mp hlimit
  have hpow := Nat.pow_le_pow_right (show 0 < 2 by norm_num) hshift
  obtain ⟨htwice, hrounded⟩ := @toNat_momentRounded (momentMagnitude sum) _ hpos hlt (by
    rw [toNat_momentMagnitude]
    exact hsum.trans (Nat.mul_le_mul_left _ hpow))
  rw [toNat_momentMagnitude] at htwice hrounded
  generalize momentDivide128 (momentMagnitude sum) denominator = division at *
  have hremainderlt := Nat.mod_lt sum.toInt.natAbs hpos
  have hup : pfQUcmp (momentLeft128 division.2 1) denominator ≥ 0 ↔
      denominator.toNat ≤ 2 * (sum.toInt.natAbs % denominator.toNat) := by
    rw [← htwice, ge_iff_le, ← not_lt, pfQUcmp_neg_iff, not_lt]
  have hdistance : (if pfQUcmp (momentLeft128 division.2 1) denominator ≥ 0 then
      momentSub128 (momentLeft128 division.2 1) denominator
    else momentSub128 denominator (momentLeft128 division.2 1)).toNat =
      halfDistance sum.toInt.natAbs denominator.toNat := by
    rw [halfDistance]
    by_cases hhalf : pfQUcmp (momentLeft128 division.2 1) denominator ≥ 0
    · have hle := hup.mp hhalf
      rw [if_pos hhalf, if_pos hle, toNat_momentSub128 (by omega), htwice]
    · have hnot := mt hup.mpr hhalf
      rw [if_neg hhalf, if_neg hnot, toNat_momentSub128 (by omega), htwice]
  generalize (division.1 + if pfQUcmp (momentLeft128 division.2 1) denominator ≥ 0 then 1 else 0) =
    rounded at *
  generalize (if pfQUcmp (momentLeft128 division.2 1) denominator ≥ 0 then
      momentSub128 (momentLeft128 division.2 1) denominator
    else momentSub128 denominator (momentLeft128 division.2 1)) = distance at *
  rw [hd] at hsum hrounded hdistance
  split at hexit
  · rename_i hzero
    cases hexit
    refine ⟨hsum, ⟨rounded, hrounded, rfl⟩, Or.inl ?_⟩
    obtain ⟨hlow, hhigh⟩ | ⟨hlow, hhigh⟩ := hzero
    · rw [toInt_of_words hlow hhigh, Int.natAbs_zero, Nat.zero_mul]
    · rw [toInt_of_words hlow hhigh, Int.natAbs_zero, Nat.mul_zero]
  split at hexit
  · rename_i hguard
    cases hexit
    refine ⟨hsum, ⟨rounded, hrounded, rfl⟩, Or.inr ?_⟩
    obtain ⟨hsmall, hfar⟩ := hguard
    rw [UInt64.lt_iff_toNat_lt, hbits, hrounded] at hsmall
    have hdistancele : distance.toNat ≤ denominator.toNat := by
      rw [hdistance, hd]
      exact halfDistance_le h.divisor_pos
    rw [gt_iff_lt, pfQUcmp_pos_iff, hscaled hdistancele (by omega), hdistance, hd] at hfar
    exact ⟨hsmall, hfar⟩
  · cases hexit

/-- Zero is stored alike with both signs. -/
theorem momentSignal_zero (negative : Bool) :
    (momentSignal 0 negative : Q) = momentSignal 0 false := by
  cases negative with
  | false => rfl
  | true =>
      have hbits : (0 : UInt64) ≠ 1 <<< QFormat.qBits Q := by
        obtain ⟨hbits, -⟩ | ⟨hbits, -⟩ := moment_format_cases Q <;> rw [hbits] <;> decide
      rw [momentSignal, momentSignal, if_pos rfl, if_neg Bool.false_ne_true, if_neg hbits]
      rfl

/-- The correction neither moves the rounding nor the range, and a sign only at zero. -/
theorem correctedMagnitude_rounds {n d scale correction limit : ℕ} (opposes : Bool) (hd : 0 < d)
    (hscale : 0 < scale) (hlimit : n ≤ d * limit)
    (hsmall : correction = 0 ∨
      (roundedQuotient n d < limit ∧ 2 * correction < halfDistance n d * scale)) :
    correctedMagnitude (n * scale) correction opposes ≤ d * scale * limit ∧
      roundedQuotient (correctedMagnitude (n * scale) correction opposes) (d * scale) =
        roundedQuotient n d ∧
      (opposes = true ∨ correction ≤ n * scale ∨ roundedQuotient n d = 0) := by
  have hpos := Nat.mul_pos hd hscale
  obtain rfl | ⟨hbelow, hsmall⟩ := hsmall
  · have hvalue : correctedMagnitude (n * scale) 0 opposes = n * scale := by
      rw [correctedMagnitude, if_pos (Nat.zero_le _), Nat.add_zero, Nat.sub_zero, ite_self]
    rw [hvalue]
    refine ⟨?_, roundedQuotient_mul_right hd hscale, Or.inr (Or.inl (Nat.zero_le _))⟩
    rw [Nat.mul_right_comm]
    exact Nat.mul_le_mul_right scale hlimit
  have hrounds : roundedQuotient (correctedMagnitude (n * scale) correction opposes) (d * scale) =
        roundedQuotient n d ∧
      (opposes = true ∨ correction ≤ n * scale ∨ roundedQuotient n d = 0) := by
    rw [correctedMagnitude]
    cases opposes with
    | true =>
        rw [if_pos rfl]
        exact ⟨roundedQuotient_add_correction hd hscale hsmall, Or.inl rfl⟩
    | false =>
        rw [if_neg Bool.false_ne_true]
        by_cases hle : correction ≤ n * scale
        · rw [if_pos hle]
          exact ⟨roundedQuotient_sub_correction hd hscale hsmall hle, Or.inr (Or.inl hle)⟩
        · rw [if_neg hle]
          obtain ⟨hzero, hflipped⟩ :=
            roundedQuotient_of_correction_gt hd hscale hsmall (not_le.mp hle)
          exact ⟨hflipped.trans hzero.symm, Or.inr (Or.inr hzero)⟩
  refine ⟨?_, hrounds⟩
  -- a value that rounds below the limit is below it
  have hbound := (roundedQuotient_le_iff hpos).mp hrounds.1.le
  have hfull : (2 * roundedQuotient n d + 1) * (d * scale) ≤ 2 * (d * scale * limit) := by
    calc (2 * roundedQuotient n d + 1) * (d * scale) ≤ 2 * limit * (d * scale) :=
          Nat.mul_le_mul_right _ (by omega)
      _ = 2 * (d * scale * limit) := by ring
  omega

theorem momentFastExit_wide (h : MeanRemainders Q total first second) {value : Q}
    (hexit : momentFastExit sum total first second = some value) :
    momentCovarianceWide sum total first second = .ok value := by
  obtain ⟨hsum, ⟨rounded, hrounded, rfl⟩, hcorrection⟩ := momentFastExit_spec h hexit
  obtain ⟨hnumerator, hsign⟩ := momentNumerator_spec h (hsum.trans
    (Nat.mul_le_mul_left _ (Nat.pow_le_pow_right (by norm_num) (Nat.le_add_right _ 2))))
  have hdenominator := momentDenominator_spec h
  have hd := h.divisor_pos
  have hscale := h.scale_pos
  have hpos := Nat.mul_pos hd hscale
  have hquarter := h.correction_le
  have hscaled := divisor_mul_scale Q total.toNat
  obtain ⟨hroom, hlimit⟩ := momentLimit_spec h
  have hsmall : first.toInt.natAbs * second.toInt.natAbs = 0 ∨
      (roundedQuotient sum.toInt.natAbs (covarianceDivisor Q total.toNat) < 2 ^ signalBits Q ∧
        2 * (first.toInt.natAbs * second.toInt.natAbs) <
          halfDistance sum.toInt.natAbs (covarianceDivisor Q total.toNat) *
            covarianceScale Q total.toNat) := by
    refine hcorrection.imp_right fun ⟨hbelow, hfar⟩ => ⟨hbelow, ?_⟩
    have hpow := Nat.two_pow_pos (signalBits Q)
    refine Nat.lt_of_mul_lt_mul_right (a := 2 ^ (signalBits Q + 1)) ?_
    calc 2 * (first.toInt.natAbs * second.toInt.natAbs) * 2 ^ (signalBits Q + 1)
        = 4 * (first.toInt.natAbs * second.toInt.natAbs) * 2 ^ signalBits Q := by ring
      _ ≤ total.toNat * total.toNat * 2 ^ signalBits Q := Nat.mul_le_mul_right _ hquarter
      _ = covarianceDivisor Q total.toNat * covarianceScale Q total.toNat := hscaled.symm
      _ < halfDistance sum.toInt.natAbs (covarianceDivisor Q total.toNat) *
            2 ^ (signalBits Q + 1) * covarianceScale Q total.toNat :=
          Nat.mul_lt_mul_of_pos_right hfar hscale
      _ = _ := by ring
  obtain ⟨hrange, hrounds, hkeeps⟩ := correctedMagnitude_rounds
    (correctionOpposes sum first second) hd hscale hsum hsmall
  rw [covarianceProductOf] at hnumerator hsign
  rw [← hnumerator] at hrange hrounds
  have hcompare := (momentCompareWide_lt_iff (momentNumerator Q sum total first second).1
    (momentLeftWide (momentWords Q) (momentDenominator Q total) (signalBits Q))
    (momentWords Q)).2
  rw [hlimit] at hcompare
  have hle := hrange
  rw [← hdenominator] at hle
  have hquotient := momentDivideWide_spec (by rw [hdenominator]; exact hpos) hroom hle
  rw [hdenominator, hrounds, ← hrounded, UInt64.toNat_inj] at hquotient
  rw [momentCovarianceWide]
  rw [if_neg (by omega), hquotient, hsign]
  by_cases hsame : correctionOpposes sum first second = true ∨
      first.toInt.natAbs * second.toInt.natAbs ≤
        sum.toInt.natAbs * covarianceScale Q total.toNat
  · rw [if_pos hsame]
  · have hzero : rounded = 0 := by
      rw [← UInt64.toNat_inj, hrounded, UInt64.toNat_zero]
      rw [not_or] at hsame
      exact (hkeeps.resolve_left hsame.1).resolve_left hsame.2
    rw [if_neg hsame, hzero, momentSignal_zero, momentSignal_zero (lnNegative sum)]

/-- The value on the fast exit is the one that the wide words give, and they give one. -/
theorem moment_fast_exit_exact (h : MeanRemainders Q total first second) {value : Q}
    (hexit : momentFastExit sum total first second = some value) :
    momentCovariance sum total first second = .ok value ∧
      momentCovarianceWide sum total first second = .ok value :=
  ⟨by rw [momentCovariance_eq, hexit]; rfl, momentFastExit_wide h hexit⟩

theorem moment_fast_exit_exact_two :
    momentCovariance (Q := Int16) ⟨655361, 0⟩ ⟨10, 0⟩ ⟨1, 0⟩ ⟨3, 0⟩ = .ok 2 ∧
      momentCovarianceWide (Q := Int16) ⟨655361, 0⟩ ⟨10, 0⟩ ⟨1, 0⟩ ⟨3, 0⟩ = .ok 2 :=
  moment_fast_exit_exact ⟨by decide, by decide, by decide, by decide⟩ (by decide +kernel)

/-- The fast exit only saves the wide words. -/
theorem momentCovariance_eq_wide (h : MeanRemainders Q total first second) :
    momentCovariance (Q := Q) sum total first second =
      momentCovarianceWide sum total first second := by
  rw [momentCovariance_eq]
  cases hexit : momentFastExit (Q := Q) sum total first second with
  | none => rfl
  | some value => exact (momentFastExit_wide h hexit).symm

end Xhive.Particles
