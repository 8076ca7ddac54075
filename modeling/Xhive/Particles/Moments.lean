import Xhive.Particles.Resample
import Xhive.Particles.MomentWords

/-!
# Moments of the weighted particles

`pf_q_moments_impl.h`: the mean and the covariance of the default residual, as
rounded quotients of integer sums.  A `pf_q_i128_t` is the pair of limbs of an
`Accum`, read signed.
-/

namespace Xhive.Particles

open Xhive.Support Xhive.Linears Xhive.Filters

/-! ## Two-word helpers -/

def pfQMagnitude (value : Int64) : UInt64 :=
  if value < 0 then (-(value + 1)).toUInt64 + 1 else value.toUInt64

def pfQIadd (sum : Accum) (magnitude : UInt64) (negative : Bool) : Accum :=
  if negative then
    { low := sum.low - magnitude
      high := sum.high - if sum.low < magnitude then 1 else 0 }
  else
    let low := sum.low + magnitude
    { low
      high := sum.high + if low < sum.low then 1 else 0 }

/-- `sum.lo = (uint64_t)narrow; sum.hi = narrow < 0 ? -1 : 0`. -/
def momentExtend (narrow : Int64) : Accum :=
  { low := narrow.toUInt64
    high := if narrow < 0 then 0xffffffffffffffff else 0 }

def momentLeft128 (value : Accum) (shift : ℕ) : Accum :=
  if shift = 0 then value
  else
    { low := value.low <<< UInt64.ofNat shift
      high := (value.high <<< UInt64.ofNat shift) ||| (value.low >>> UInt64.ofNat (64 - shift)) }

def momentSub128 (a b : Accum) : Accum :=
  { low := a.low - b.low
    high := a.high - b.high - if a.low < b.low then 1 else 0 }

def momentHalf128 (value : Accum) : Accum :=
  { low := (value.low >>> 1) ||| (value.high <<< 63)
    high := value.high >>> 1 }

def momentMagnitude (value : Accum) : Accum :=
  if lnNegative value then
    let low := ~~~value.low + 1
    { low
      high := ~~~value.high + if low = 0 then 1 else 0 }
  else value

/-- The two-word scalars as numbers of the division. -/
def accumUnsigned : Unsigned Accum where
  toNat := Accum.toNat
  less a b := pfQUcmp a b < 0
  sub := momentSub128
  half := momentHalf128

/-- Quotient and remainder. -/
def momentDivide128 (numerator denominator : Accum) : UInt64 × Accum :=
  if pfQUcmp numerator denominator ≥ 0 then
    let shift := pfQUbits numerator - pfQUbits denominator
    let s := accumUnsigned.divideFrom shift
      { remainder := numerator
        divisor := momentLeft128 denominator shift
        quotient := 0 }
    (s.quotient, s.remainder)
  else (0, numerator)

variable {Q : Type} [ParticleFormat Q]

/-- The raw value of a rounded magnitude; one is stored as the largest signal. -/
def momentSignal (magnitude : UInt64) (negative : Bool) : Q :=
  if negative then QFormat.narrow (-magnitude.toInt64)
  else if magnitude = 1 <<< QFormat.qBits Q then ParticleFormat.signalMax
  else QFormat.narrow magnitude.toInt64

/-- `S - mu * T`. -/
def momentMeanRemainder (sum total : Accum) (mean : Q) : Accum :=
  let magnitude := momentMagnitude sum
  let raw := pfQMagnitude (QFormat.widen mean)
  let low := pfQUmul total.low raw
  let product : Accum := ⟨low.low, low.high + total.high * raw⟩
  let smaller : Bool := pfQUcmp magnitude product < 0
  let remainder := if smaller then momentSub128 product magnitude
    else momentSub128 magnitude product
  if lnNegative sum != smaller then
    { low := 0 - remainder.low
      high := -remainder.high - if remainder.low ≠ 0 then 1 else 0 }
  else remainder

/-! ## The rounded covariance -/

section Covariance

variable (Q)

/-- `PM_WORDS`. -/
def momentWords : ℕ :=
  if QFormat.qBits Q = 15 then 6 else 8

/-- `U_BITS` as a shift count. -/
def signalBits : ℕ :=
  (QFormat.qBits Q).toNat

/-- `|sum * T - first * second|`, the q31 sum scaled by `2 ^ 31`, and its sign. -/
def momentNumerator (sum total first second : Accum) : MomentWide × Bool :=
  let words := momentWords Q
  let product := momentMultiplyWide words (momentMagnitude sum) total
  let correction := momentMultiplyWide words (momentMagnitude first) (momentMagnitude second)
  let negative := lnNegative sum
  let correctionNegative := lnNegative first != lnNegative second
  let numerator := if QFormat.qBits Q = 31 then momentLeftWide words product 31 else product
  if negative != correctionNegative then (momentAddWide words numerator correction, negative)
  else if momentCompareWide numerator correction words ≥ 0 then
    (momentSubWide words numerator correction, negative)
  else (momentSubWide words correction numerator, !negative)

/-- `T * T * 2 ^ U_BITS`. -/
def momentDenominator (total : Accum) : MomentWide :=
  let words := momentWords Q
  momentLeftWide words (momentMultiplyWide words total total) (signalBits Q)

/-- The quotient of the wide words, rounded half up. -/
def momentDivideWide (numerator denominator : MomentWide) : UInt64 :=
  let words := momentWords Q
  let s : UInt64 × MomentWide :=
    if momentCompareWide numerator denominator words ≥ 0 then
      let shift := momentBitsWide numerator words - momentBitsWide denominator words
      let s := (wideUnsigned words).divideFrom shift
        { remainder := numerator
          divisor := momentLeftWide words denominator shift
          quotient := 0 }
      (s.quotient, s.remainder)
    else (0, numerator)
  let twice := momentLeftWide words s.2 1
  if momentCompareWide twice denominator words ≥ 0 then s.1 + 1 else s.1

variable {Q}

def momentCovarianceWide (sum total first second : Accum) : Except Status Q :=
  let numerator := momentNumerator Q sum total first second
  let denominator := momentDenominator Q total
  let limit := momentLeftWide (momentWords Q) denominator (signalBits Q)
  if momentCompareWide numerator.1 limit (momentWords Q) > 0 then .error .errorRange
  else .ok (momentSignal (momentDivideWide Q numerator.1 denominator) numerator.2)

/-- The narrow quotient decides unless the correction could move the rounding. -/
def momentCovariance (sum total first second : Accum) : Except Status Q :=
  let magnitude := momentMagnitude sum
  let denominator := if QFormat.qBits Q = 15 then momentLeft128 total 15 else total
  if pfQUcmp magnitude (momentLeft128 denominator (signalBits Q)) > 0 then
    momentCovarianceWide sum total first second
  else
    let division := momentDivide128 magnitude denominator
    let twice := momentLeft128 division.2 1
    let rounded := division.1 + if pfQUcmp twice denominator ≥ 0 then 1 else 0
    if (first.low = 0 ∧ first.high = 0) ∨ (second.low = 0 ∧ second.high = 0) then
      .ok (momentSignal rounded (lnNegative sum))
    else
      let distance := if pfQUcmp twice denominator ≥ 0 then momentSub128 twice denominator
        else momentSub128 denominator twice
      let guard := momentLeft128 distance (signalBits Q + 1)
      if rounded < 1 <<< QFormat.qBits Q ∧ pfQUcmp guard denominator > 0 then
        .ok (momentSignal rounded (lnNegative sum))
      else momentCovarianceWide sum total first second

end Covariance

/-! ## The sums -/

/-- The products of one column with the weights, in one 64-bit sum. -/
def meanSumNarrow (weights : ℕ → Q) (particles : ℕ × ℕ → Q) (count j : ℕ) : Int64 :=
  foldRange 0 count 0 fun i narrow =>
    narrow + QFormat.widen (particles (i, j)) * QFormat.widen (weights i)

def meanSumWide (weights : ℕ → Q) (particles : ℕ × ℕ → Q) (count j : ℕ) : Accum :=
  foldRange 0 count ⟨0, 0⟩ fun i sum =>
    let value := QFormat.widen (particles (i, j))
    pfQIadd sum (pfQMagnitude value * weightWord (weights i)) (value < 0)

/-- `count <= INT64_MAX / (32768 * 32767)` in the q15 unit. -/
def meanFitsNarrow (Q : Type) [ParticleFormat Q] (count : ℕ) : Bool :=
  QFormat.qBits Q = 15 ∧ UInt64.ofNat count ≤ 9223372036854775807 / (32768 * 32767)

def meanSum (weights : ℕ → Q) (particles : ℕ × ℕ → Q) (count j : ℕ) : Accum :=
  if meanFitsNarrow Q count then momentExtend (meanSumNarrow weights particles count j)
  else meanSumWide weights particles count j

/-- A raw residual about the staged mean. -/
def residualRaw (particles : ℕ × ℕ → Q) (mean : ℕ → Q) (i j : ℕ) : Int64 :=
  QFormat.widen (particles (i, j)) - QFormat.widen (mean j)

/-- The q31 product is rounded to 31 fractional bits before it is weighted. -/
def covarianceProduct (a b : Int64) (weight : Q) : UInt64 :=
  let product := pfQMagnitude a * pfQMagnitude b
  let product := if QFormat.qBits Q = 31 then (product + 1073741824) >>> 31 else product
  product * weightWord weight

def covarianceSumNarrow (weights : ℕ → Q) (particles : ℕ × ℕ → Q) (mean : ℕ → Q)
    (count j k : ℕ) : Int64 :=
  foldRange 0 count 0 fun i narrow =>
    narrow + residualRaw particles mean i j * residualRaw particles mean i k *
      QFormat.widen (weights i)

def covarianceSumWide (weights : ℕ → Q) (particles : ℕ × ℕ → Q) (mean : ℕ → Q)
    (count j k : ℕ) : Accum :=
  foldRange 0 count ⟨0, 0⟩ fun i sum =>
    let a := residualRaw particles mean i j
    let b := residualRaw particles mean i k
    pfQIadd sum (covarianceProduct a b (weights i)) (decide (a < 0) != decide (b < 0))

/-- `count <= INT64_MAX / (65535 * 65535 * 32767)` in the q15 unit. -/
def covarianceFitsNarrow (Q : Type) [ParticleFormat Q] (count : ℕ) : Bool :=
  QFormat.qBits Q = 15 ∧ UInt64.ofNat count ≤ 9223372036854775807 / (65535 * 65535 * 32767)

def covarianceSum (weights : ℕ → Q) (particles : ℕ × ℕ → Q) (mean : ℕ → Q)
    (count j k : ℕ) : Accum :=
  if covarianceFitsNarrow Q count then
    momentExtend (covarianceSumNarrow weights particles mean count j k)
  else covarianceSumWide weights particles mean count j k

/-! ## The estimate -/

/-- The scratch of the estimate: both stages and the exact mean remainders. -/
structure MomentScratch (Q : Type) where
  mean : ℕ → Q
  covariance : ℕ × ℕ → Q
  remainder : ℕ → Accum

/-- One coordinate of the mean. -/
def meanStep (weights : ℕ → Q) (particles : ℕ × ℕ → Q) (count : ℕ) (total : Accum) (j : ℕ)
    (s : MomentScratch Q) : Except Status (MomentScratch Q) :=
  let sum := meanSum weights particles count j
  let magnitude := momentMagnitude sum
  if pfQUcmp magnitude (momentLeft128 total (signalBits Q)) > 0 then .error .errorRange
  else
    let division := momentDivide128 magnitude total
    let rounded := division.1 +
      if pfQUcmp (momentLeft128 division.2 1) total ≥ 0 then 1 else 0
    let stored : Q := momentSignal rounded (lnNegative sum)
    .ok { s with
      mean := Function.update s.mean j stored
      remainder := Function.update s.remainder j (momentMeanRemainder sum total stored) }

/-- One cell of the covariance and its mirror. -/
def covarianceStep (weights : ℕ → Q) (particles : ℕ × ℕ → Q) (count : ℕ) (total : Accum)
    (j k : ℕ) (s : MomentScratch Q) : Except Status (MomentScratch Q) := do
  let sum := covarianceSum weights particles s.mean count j k
  let stored ← momentCovariance sum total (s.remainder j) (s.remainder k)
  .ok { s with
    covariance := Function.update (Function.update s.covariance (j, k) stored) (k, j) stored }

/-- The staged mean and covariance; the caller's arrays are written after every
cell has passed. -/
def estimateInteger (weights : ℕ → Q) (particles : ℕ × ℕ → Q) (count n : ℕ) (total : Accum)
    (scratch : MomentScratch Q) : Except Status ((ℕ → Q) × (ℕ × ℕ → Q)) := do
  let s ← forRange 0 n scratch (meanStep weights particles count total)
  let s ← forRange 0 n s fun j s =>
    forRange 0 (j + 1) s fun k s => covarianceStep weights particles count total j k s
  .ok (s.mean, s.covariance)

end Xhive.Particles
