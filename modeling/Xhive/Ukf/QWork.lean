import Xhive.Linears.Basic.QKernels
import Xhive.Particles.Likelihood
import Xhive.Ukf.Work

/-!
# The mixed-Q unscented kernels

The cores of `ukf_q_work_impl.h`, every intermediate in an array of its own.
Ordinary statistics accumulate raw integer products; a column pair whose
conversion error does not fit keeps the floating calculation.
-/

namespace Xhive.Ukf

open Xhive.Support Xhive.Linears Xhive.Filters Xhive.Particles

/-! ## Formats -/

/-- The accumulator and the constants of a mixed-Q instantiation. -/
class UkfFormat (Q : Type) extends LikelihoodFormat Q where
  /-- `accum_t`. -/
  Sum : Type
  sumZero : Sum
  mac : Sum → Int64 → Sum
  /-- The integer an accumulator holds, and the integers it can hold. -/
  sumInt : Sum → ℤ
  SumFits : ℤ → Prop
  accumValue : {W : Type} → WorkArith W → Sum → W
  /-- `Q_TAG_SATURATED`. -/
  saturatedBit : ℕ
  /-- `Q_EPSILON` is this power of two. -/
  epsilonExponent : ℤ
  /-- The working type carries values below this power of two with room for one
  more binade. -/
  topBinade : ℤ
  sumInt_zero : sumInt sumZero = 0
  sumInt_mac : ∀ sum product, SumFits (sumInt sum + product.toInt) →
    sumInt (mac sum product) = sumInt sum + product.toInt
  sumFits_of_abs_le : ∀ n : ℤ, |n| < 2 ^ (2 * qBits.toNat + 33) → SumFits n
  two_pow_lt_saturatedBit : 2 ^ (qBits.toNat + 2) < saturatedBit
  /-- One is a power of two, and a significand is longer than a code. -/
  two_pow_dvd_unity : 2 ^ mantissaBits ∣ unity
  qBits_lt_mantissaBits : qBits.toNat < mantissaBits

/-- The magnitude of a limb accumulator that is negative. -/
def negateLimbs (sum : Accum) : Accum :=
  let low := ~~~sum.low + 1
  { low := low
    high := ~~~sum.high + if low = 0 then 1 else 0 }

/-- `accum_value` of the limb accumulator. -/
def limbValue {W : Type} (A : WorkArith W) (sum : Accum) : W :=
  let negative := sum.high >>> 63 ≠ 0
  let sum := if negative then negateLimbs sum else sum
  let low := A.ofInt sum.low.toNat
  let value :=
    if sum.high = 0 then A.mul low (A.exp2 (-62))
    else A.mul (A.add (A.mul (A.ofInt sum.high.toNat) (A.exp2 64)) low) (A.exp2 (-62))
  if negative then A.sub A.zero value else value

instance : UkfFormat Int16 where
  Sum := Int64
  sumZero := 0
  mac sum product := sum + product
  sumInt sum := sum.toInt
  SumFits := FitsInt64
  accumValue A sum := A.mul (A.ofInt sum.toInt) (A.exp2 (-30))
  saturatedBit := 2 ^ 20
  epsilonExponent := -23
  topBinade := 127
  sumInt_zero := rfl
  sumInt_mac _ _ h := toInt_add_of_fits h
  sumFits_of_abs_le n hn := by
    have hpow : (2 : ℤ) ^ (2 * (15 : UInt64).toNat + 33) = 2 ^ 63 := rfl
    have hlt : |n| < 2 ^ 63 := hn.trans_eq hpow
    rw [abs_lt] at hlt
    constructor <;> omega
  two_pow_lt_saturatedBit := by decide
  two_pow_dvd_unity := by decide
  qBits_lt_mantissaBits := by decide

instance : UkfFormat Int32 where
  Sum := Accum
  sumZero := ⟨0, 0⟩
  mac := lnAddProduct64
  sumInt sum := sum.toInt
  SumFits := Accum.Fits
  accumValue := limbValue
  saturatedBit := 2 ^ 40
  epsilonExponent := -52
  topBinade := 1023
  sumInt_zero := Accum.toInt_zero
  sumInt_mac _ _ h := toInt_lnAddProduct64 h
  sumFits_of_abs_le n hn := by
    have hpow : (2 : ℤ) ^ (2 * (31 : UInt64).toNat + 33) = 2 ^ 95 := rfl
    have hlt : |n| < 2 ^ 95 := hn.trans_eq hpow
    rw [abs_lt] at hlt
    constructor <;> omega
  two_pow_lt_saturatedBit := by decide
  two_pow_dvd_unity := by decide
  qBits_lt_mantissaBits := by decide

/-- The working type with its conversions to and from the signal type. -/
structure SignalArith (Q W : Type) extends WorkArith W where
  /-- `ukf_widen_value`. -/
  widen : Q → W
  /-- `ukf_narrow_value`. -/
  store : W → Q
  /-- `ukf_in_unit`. -/
  inUnit : W → Bool
  /-- `ukf_quantization_error`. -/
  quantizationError : W → Q → W
  /-- `ukf_abs_greater`. -/
  absGreater : W → W → Bool
  /-- The conversion to an unsigned integer. -/
  truncate : W → ℕ

section Kernels

variable {Q W : Type} [UkfFormat Q] (A : SignalArith Q W)

/-- The raw code of a signal. -/
def rawCode (x : Q) : ℤ := (QFormat.widen x).toInt

/-- `U_LSB`. -/
def SignalArith.lsb : W := A.exp2 (-(QFormat.qBits Q).toNat)

/-- `dot`. -/
def rawDot (count : ℕ) (a b : ℕ → Q) : UkfFormat.Sum Q :=
  foldRange 0 count UkfFormat.sumZero fun i sum =>
    UkfFormat.mac sum (QFormat.widen (a i) * QFormat.widen (b i))

def dot (count : ℕ) (a b : ℕ → Q) : W :=
  UkfFormat.accumValue A.toWorkArith (rawDot count a b)

/-- `dot_difference`. -/
def rawDotDifference (count : ℕ) (a positive negative : ℕ → Q) : UkfFormat.Sum Q :=
  foldRange 0 count UkfFormat.sumZero fun i sum =>
    UkfFormat.mac sum
      (QFormat.widen (a i) * (QFormat.widen (positive i) - QFormat.widen (negative i)))

def dotDifference (count : ℕ) (a positive negative : ℕ → Q) : W :=
  UkfFormat.accumValue A.toWorkArith (rawDotDifference count a positive negative)

/-! ## Summaries -/

/-- A summary tag: `Q_TAG_SATURATED` beside the largest raw magnitude plus one,
or the tag zero. -/
structure Tag where
  saturated : Bool
  magnitude : ℕ
  deriving DecidableEq

/-- The tag that keeps floating products. -/
def Tag.floating : Tag := ⟨false, 0⟩

/-- The word that carries a tag. -/
def Tag.word (Q : Type) [UkfFormat Q] (tag : Tag) : ℕ :=
  (if tag.saturated then UkfFormat.saturatedBit Q else 0) + tag.magnitude

/-- `Q_TAG_ONE`. -/
def tagOne (Q : Type) [UkfFormat Q] : ℕ := 2 ^ (QFormat.qBits Q).toNat

/-- The metadata of a sample column or a factor row. -/
structure Summary (W : Type) where
  maximum : W
  error : W
  tag : Tag

/-- A raw sample and the running maximum and tag. -/
structure Quantized (Q W : Type) where
  raw : Q
  maximum : W
  tag : Tag

/-- The tag after a sample inside the interval. -/
def tagSample (value : W) (raw : Q) (tag : Tag) : Tag :=
  let tag := if rawCode raw = 0 ∧ A.equal value A.zero = false then Tag.floating else tag
  if tag = Tag.floating then tag
  else
    let magnitude := (rawCode raw).natAbs + 1
    let tag := if rawCode raw = rawCode (ParticleFormat.signalMax : Q) then
      { tag with saturated := true } else tag
    if magnitude > tag.magnitude then { tag with magnitude := magnitude } else tag

/-- `quantize`. -/
def quantize (value maximum : W) (tag : Tag) : Quantized Q W :=
  let maximum := if A.absGreater value maximum then A.abs value else maximum
  if A.inUnit value = false then ⟨FilterFormat.zero, maximum, Tag.floating⟩
  else ⟨A.store value, maximum, tagSample A value (A.store value) tag⟩

/-- `summarize`. -/
def summarize (maximum : W) (tag : Tag) : Summary W :=
  ⟨maximum, A.ofInt (-1), tag⟩

/-- The samples `value 0 .. value (count - 1)`: their codes and their summary. -/
def quantizeAll (count : ℕ) (value : ℕ → W) : (ℕ → Q) × Summary W :=
  let scan := foldRange 0 count ((fun _ => (FilterFormat.zero : Q)), A.zero, (⟨false, 1⟩ : Tag))
    fun i s =>
      let q := quantize A (value i) s.2.1 s.2.2
      (Function.update s.1 i q.raw, q.maximum, q.tag)
  (scan.1, summarize A scan.2.1 scan.2.2)

/-- The codes and the summaries of a family of columns or rows. -/
structure Signals (Q W : Type) where
  raw : ℕ → ℕ → Q
  metadata : ℕ → Summary W

/-- `columns`: the samples of column `j` are `raw j`. -/
def columns (rows : ℕ) (points : Grid W) : Signals Q W where
  raw j := (quantizeAll A rows fun i => points (i, j)).1
  metadata j := (quantizeAll A rows fun i => points (i, j)).2

/-- `factor_signals`: row `r` up to the diagonal, zeros above it. -/
def factorSignals (factor : Grid W) : Signals Q W where
  raw r := fun j =>
    if j ≤ r then (quantizeAll A (r + 1) fun j => factor (r, j)).1 j else FilterFormat.zero
  metadata r := (quantizeAll A (r + 1) fun j => factor (r, j)).2

/-- The weight of a covariance term. -/
def covarianceWeight (weights : UkfWeights W) (i : ℕ) : W :=
  if i = 0 then weights.covariance0 else weights.other

/-- `column_error`. -/
def columnError (weights : UkfWeights W) (rows : ℕ) (value : ℕ → W) (raw : ℕ → Q)
    (summary : Summary W) : Summary W :=
  if A.lessEq A.zero summary.error then summary
  else
    { summary with
      error := foldRange 0 rows A.zero fun i error =>
        A.add error (A.mul (A.abs (covarianceWeight weights i))
          (A.quantizationError (value i) (raw i))) }

/-- `row_error`: each entry stands for a pair of deviations. -/
def rowError (other : W) (r : ℕ) (value : ℕ → W) (raw : ℕ → Q) (summary : Summary W) :
    Summary W :=
  if A.lessEq A.zero summary.error then summary
  else
    { summary with
      error := A.mul (A.mul (A.ofInt 2) (A.abs other))
        (foldRange 0 (r + 1) A.zero fun j error =>
          A.add error (A.quantizationError (value j) (raw j))) }

/-- `column_units`. -/
def columnUnits (weights : UkfWeights W) (count : ℕ) : W :=
  A.mul (A.add (A.abs weights.covariance0)
    (A.mul (A.ofInt (count - 1 : ℕ)) (A.abs weights.other))) A.half

/-- `limit`. -/
def screenLimit (units : W) (terms : ℕ) : ℕ :=
  let scaled := A.mul units (A.add A.one
    (A.mul (A.ofInt (terms + 8 : ℕ)) (A.exp2 (UkfFormat.epsilonExponent Q))))
  if A.less (A.exp2 (-2)) scaled = false then tagOne Q * 4
  else A.truncate (A.div (A.ofInt (tagOne Q)) scaled)

/-- `screen`: one accepts, zero keeps floating products, minus one defers. -/
def screen (a b : Summary W) (limit : ℕ) : ℤ :=
  if a.tag.word Q = 0 ∨ b.tag.word Q = 0 then 0
  else
    let ra := a.tag.magnitude - 1
    let rb := b.tag.magnitude - 1
    if ra ≠ 0 ∧ rb ≠ 0 ∧ (ra - 1) * (rb - 1) < tagOne Q ∧
        ((ra + 1) * (rb + 1) ≤ tagOne Q ∨ A.less (A.mul a.maximum b.maximum) A.lsb = true) then 0
    else if a.tag.word Q + b.tag.word Q + 1 ≤ limit then 1 else -1

/-- `product_fits`. -/
def productFits (a b : Summary W) : Bool :=
  let least := if A.less a.error b.error then a.error else b.error
  let bound := A.add (A.add (A.mul a.maximum b.error) (A.mul b.maximum a.error))
    (A.mul A.lsb least)
  A.lessEq bound A.lsb

/-! ## Mean -/

/-- What the first pass over the offsets of a column finds. -/
structure OffsetScan (W : Type) where
  error : W
  valid : Bool
  finiteDifferences : Bool
  hasMaximum : Bool

def scanOffset (other : W) (boundedError : Bool) (delta : W) (scan : OffsetScan W) :
    OffsetScan W :=
  let scan := if A.finite delta = false then { scan with finiteDifferences := false } else scan
  if A.inUnit delta = false then { scan with valid := false }
  else
    let raw := A.store delta
    let scan := if rawCode raw = 0 ∧ A.equal delta A.zero = false then
      { scan with valid := false } else scan
    if boundedError then
      if rawCode raw = rawCode (ParticleFormat.signalMax : Q) then
        { scan with hasMaximum := true } else scan
    else
      { scan with
        error := A.add scan.error (A.mul (A.abs other) (A.quantizationError delta raw)) }

/-- The mean of one column without a residual: from raw offsets, from floating
offsets, or from the samples themselves. -/
def meanColumn (count : ℕ) (weights : UkfWeights W) (boundedError : Bool) (value : ℕ → W) : W :=
  let delta := fun i => A.sub (value i) (value 0)
  let scan := foldRange 1 count ⟨A.zero, true, true, false⟩ fun i scan =>
    scanOffset A weights.other boundedError (delta i) scan
  let error :=
    if boundedError ∧ scan.hasMaximum ∧ scan.valid then
      foldRange 1 count scan.error fun i error =>
        A.add error (A.mul (A.abs weights.other)
          (A.quantizationError (delta i) (A.store (delta i))))
    else scan.error
  if scan.valid ∧ A.lessEq error (A.mul A.lsb A.half) then
    let sum := foldRange 1 count (0 : Int64) fun i sum =>
      sum + QFormat.widen (A.store (delta i))
    A.add (value 0) (A.mul weights.other (A.mul (A.ofInt sum.toInt) A.lsb))
  else if scan.finiteDifferences then
    let sum := foldRange 1 count A.zero fun i sum => A.add sum (A.mul weights.other (delta i))
    A.add (value 0) sum
  else
    foldRange 1 count (A.mul weights.mean0 (value 0)) fun i sum =>
      A.add sum (A.mul weights.other (value i))

/-- Whether half an LSB a term cannot exceed half an LSB in all. -/
def boundedError (count : ℕ) (weights : UkfWeights W) : Bool :=
  let term := A.mul (A.abs weights.other) (A.mul A.lsb A.half)
  A.lessEq (foldRange 1 count A.zero fun _ bound => A.add bound term) (A.mul A.lsb A.half)

/-- `mean`. -/
def qMean (count k : ℕ) (points : Grid W) (weights : UkfWeights W)
    (residual : Option (UkfResidualFn W)) : Except Status (ℕ → W) :=
  match residual with
  | some residual => do
      let sum ← forRange 0 count (fun _ : ℕ => A.zero) fun i result => do
        let delta ← residual i (gridRow points i) (gridRow points 0)
        let delta ← A.finiteRow k delta
        let weight := if i = 0 then weights.mean0 else weights.other
        .ok fun j => A.add (result j) (A.mul weight (delta j))
      A.finiteRow k fun j => A.add (sum j) (points (0, j))
  | none =>
      A.finiteRow k fun j =>
        meanColumn A count weights (boundedError A count weights) fun i => points (i, j)

/-! ## Deviations and covariance -/

/-- `deviations`: one dead sample row is replaced at a time. -/
def qDeviations (count k : ℕ) (points : Grid W) (mean : ℕ → W)
    (residual : Option (UkfResidualFn W)) : Except Status (Grid W) :=
  forRange 0 count points fun i points => do
    let result ← deviationRow A.toWorkArith k residual i (gridRow points i) mean
    .ok (setRow k i result points)

/-- The verdict on a pair, and the summaries with the errors it asked for. -/
def pairFits (errorA errorB : Summary W → Summary W) (a b : Summary W) (limit : ℕ) :
    Bool × Summary W × Summary W :=
  let fits := screen A a b limit
  if fits < 0 then
    let a := errorA a
    let b := errorB b
    (productFits A a b, a, b)
  else (fits ≠ 0, a, b)

/-- A product sum in raw integers. -/
def rawSpread (count : ℕ) (weights : UkfWeights W) (a b : ℕ → Q) : W :=
  let first := dot A 1 a b
  let others := dot A (count - 1) (fun i => a (i + 1)) fun i => b (i + 1)
  A.add (A.mul weights.covariance0 first) (A.mul weights.other others)

/-- A product sum in the working type. -/
def floatingSpread (count : ℕ) (weights : UkfWeights W) (a b : ℕ → W) : W :=
  foldRange 0 count A.zero fun i value =>
    A.add value (A.mul (a i) (A.mul (covarianceWeight weights i) (b i)))

/-- The element of a pair of columns, and the updated metadata. -/
def spreadEntry (count : ℕ) (weights : UkfWeights W) (limit : ℕ) (values : Grid W)
    (raw : ℕ → ℕ → Q) (r c : ℕ) (metadata : ℕ → Summary W) : W × (ℕ → Summary W) :=
  let error := fun j => columnError A weights count (fun i => values (i, j)) (raw j)
  let fits := pairFits A (error r) (error c) (metadata r) (metadata c) limit
  let metadata := Function.update (Function.update metadata r fits.2.1) c fits.2.2
  if fits.1 then (rawSpread A count weights (raw r) (raw c), metadata)
  else
    (floatingSpread A count weights (fun i => values (i, r)) fun i => values (i, c), metadata)

/-- `covariance`: the lower triangle, mirrored. -/
def qCovariance (count k : ℕ) (weights : UkfWeights W) (limit : ℕ) (deviations : Grid W)
    (signals : Signals Q W) (noise : Grid W) : Except Status (Grid W × (ℕ → Summary W)) :=
  forRange 0 k (A.blank, signals.metadata) fun r s =>
    forRange 0 (r + 1) s fun c s => do
      let entry := spreadEntry A count weights limit deviations signals.raw r c s.2
      let value ← A.check (A.add entry.1 (noise (r, c)))
      .ok (Function.update (Function.update s.1 (c, r) value) (r, c) value, entry.2)

/-! ## Prediction -/

/-- `factor`. -/
def qFactor (n : ℕ) (covariance : Grid W) (scale : W) : Except Status (Grid W) := do
  let scaled ← A.finiteGrid n n fun p => A.mul scale (covariance p)
  ukfCholesky A.toWorkArith n scaled

/-- A sigma point of `propagate`. -/
def sigmaRow (n : ℕ) (mean : ℕ → W) (factor : Grid W) (i j : ℕ) : W :=
  let offset := if i = 0 then A.zero else factor (j, if i ≤ n then i - 1 else i - n - 1)
  if i ≤ n then A.add (mean j) offset else A.sub (mean j) offset

/-- `propagate`. -/
def qPropagate (n k : ℕ) (mean : ℕ → W) (factor : Grid W) (model : UkfFn W) :
    Except Status (Grid W) :=
  forRange 0 (sigmaCount n) A.blank fun i samples => do
    let row ← A.finiteRow n (sigmaRow A n mean factor i)
    let target ← model i row
    let target ← A.finiteRow k target
    .ok (setRow k i target samples)

/-- `predict_core` of the mixed kernel. -/
def qPredictCore (n : ℕ) (mean : ℕ → W) (covariance processNoise : Grid W)
    (weights : UkfWeights W) (transition : UkfFn W) (residual : UkfResidual W) :
    Except Status ((ℕ → W) × Grid W) := do
  let s := sigmaCount n
  let factor ← qFactor A n covariance weights.scale
  let samples ← qPropagate A n n mean factor transition
  let outMean ← qMean A s n samples weights (residual.map (· .mean))
  let deviations ← qDeviations A s n samples outMean (residual.map (· .deviation))
  let limit := screenLimit A (columnUnits A weights s) s
  let out ← qCovariance A s n weights limit deviations (columns A s deviations) processNoise
  .ok (outMean, out.1)

/-! ## Update -/

/-- The metadata a cross entry reads and writes. -/
structure CrossMetadata (W : Type) where
  factor : ℕ → Summary W
  columns : ℕ → Summary W

/-- An element of the cross covariance in the working type. -/
def floatingCross (n : ℕ) (other : W) (l d : ℕ → W) : W :=
  foldRange 0 n A.zero fun j value =>
    A.sub (A.add value (A.mul (l j) (A.mul other (d (j + 1)))))
      (A.mul (l j) (A.mul other (d (j + n + 1))))

/-- The element of a factor row and a deviation column. -/
def crossEntry (n : ℕ) (weights : UkfWeights W) (limit : ℕ) (factor deviations : Grid W)
    (rawFactor rawDeviations : ℕ → ℕ → Q) (r c : ℕ) (metadata : CrossMetadata W) :
    W × CrossMetadata W :=
  let fits := pairFits A
    (rowError A weights.other r (fun j => factor (r, j)) (rawFactor r))
    (columnError A weights (sigmaCount n) (fun i => deviations (i, c)) (rawDeviations c))
    (metadata.factor r) (metadata.columns c) limit
  let metadata : CrossMetadata W :=
    ⟨Function.update metadata.factor r fits.2.1, Function.update metadata.columns c fits.2.2⟩
  if fits.1 then
    (A.mul weights.other (dotDifference A (r + 1) (rawFactor r)
      (fun j => rawDeviations c (j + 1)) fun j => rawDeviations c (j + n + 1)), metadata)
  else
    (floatingCross A n weights.other (fun j => factor (r, j)) fun i => deviations (i, c), metadata)

/-- `cross`. -/
def qCross (n m : ℕ) (weights : UkfWeights W) (limit : ℕ) (factor deviations : Grid W)
    (factorSignals columnSignals : Signals Q W) :
    Except Status (Grid W × CrossMetadata W) :=
  forRange 0 n (A.blank, ⟨factorSignals.metadata, columnSignals.metadata⟩) fun r s =>
    forRange 0 m s fun c s => do
      let entry := crossEntry A n weights limit factor deviations factorSignals.raw
        columnSignals.raw r c s.2
      let value ← A.check entry.1
      .ok (Function.update s.1 (r, c) value, entry.2)

/-- `ukf_pivot_divide`. -/
def pivotDivide (value inverse pivot : W) : W :=
  let product := A.mul value inverse
  if A.less (A.abs product) (A.exp2 (UkfFormat.topBinade Q)) then product
  else A.div value pivot

/-- `gain_row`: two triangular solves with the factor of the innovation. -/
def gainRow (m : ℕ) (factor : Grid W) (inverse rhs : ℕ → W) : Except Status (ℕ → W) := do
  let forward ← forRange 0 m (fun _ : ℕ => A.zero) fun i gain => do
    let value := foldRange 0 i (rhs i) fun j value =>
      A.sub value (A.mul (factor (i, j)) (gain j))
    let quotient ← A.check (pivotDivide A value (inverse i) (factor (i, i)))
    .ok (Function.update gain i quotient)
  forRange 0 m forward fun step gain => do
    let i := m - 1 - step
    let value := foldRange (i + 1) m (gain i) fun j value =>
      A.sub value (A.mul (factor (j, i)) (gain j))
    let quotient ← A.check (pivotDivide A value (inverse i) (factor (i, i)))
    .ok (Function.update gain i quotient)

/-- The outputs of an update. -/
structure UpdateOutput (W : Type) where
  mean : ℕ → W
  covariance : Grid W

/-- One row of the corrected state and of the lower triangle of its covariance. -/
def updateRow (m : ℕ) (mean : ℕ → W) (covariance factor cross : Grid W)
    (inverse innovation : ℕ → W) (r : ℕ) (out : UpdateOutput W) :
    Except Status (UpdateOutput W) := do
  let gain ← gainRow A m factor inverse (gridRow cross r)
  let correction := foldRange 0 m A.zero fun j sum => A.add sum (A.mul (gain j) (innovation j))
  let value ← A.check (A.add (mean r) correction)
  let reduced ← forRange 0 (r + 1) out.covariance fun i pout => do
    let reduction := foldRange 0 m A.zero fun j sum => A.add sum (A.mul (gain j) (cross (i, j)))
    let value ← A.check (A.sub (covariance (r, i)) reduction)
    .ok (Function.update (Function.update pout (r, i) value) (i, r) value)
  .ok ⟨Function.update out.mean r value, reduced⟩

/-- The innovation `z - zbar`, or its residual. -/
def innovationRow (m : ℕ) (residual : Option (UkfResidualFn W)) (measurement zbar : ℕ → W) :
    Except Status (ℕ → W) :=
  deviationRow A.toWorkArith m residual 0 measurement zbar

/-- `update_core` of the mixed kernel. -/
def qUpdateCore (n m : ℕ) (mean : ℕ → W) (covariance measurementNoise : Grid W)
    (measurement : ℕ → W) (weights : UkfWeights W) (observation : UkfFn W)
    (residual : UkfResidual W) : Except Status ((ℕ → W) × Grid W) := do
  let s := sigmaCount n
  let factor ← qFactor A n covariance weights.scale
  let samples ← qPropagate A n m mean factor observation
  let zbar ← qMean A s m samples weights (residual.map (· .mean))
  let deviations ← qDeviations A s m samples zbar (residual.map (· .deviation))
  let columnSignals : Signals Q W := columns A s deviations
  let limit := screenLimit A (columnUnits A weights s) s
  let cross ← qCross A n m weights limit factor deviations (factorSignals A factor) columnSignals
  let innovationCovariance ← qCovariance A s m weights limit deviations
    ⟨columnSignals.raw, cross.2.columns⟩ measurementNoise
  let pivots ← ukfCholesky A.toWorkArith m innovationCovariance.1
  let inverse := fun j => A.div A.one (pivots (j, j))
  let innovation ← innovationRow A m (residual.map (· .innovation)) measurement zbar
  let out ← forRange 0 n ⟨fun _ => A.zero, A.blank⟩
    (updateRow A m mean covariance pivots cross.1 inverse innovation)
  .ok (out.mean, out.covariance)

end Kernels

end Xhive.Ukf
