import Xhive.Ukf.Arith

/-!
# The floating unscented kernels

The cores of `ukf_work_impl.h`, every intermediate in an array of its own.  A
core computes on operands its caller has validated.  Callbacks may fail, and
each call of one has an index, so that nothing is assumed of their answers.
-/

namespace Xhive.Ukf

open Xhive.Support Xhive.Linears

variable {W : Type}

/-- A model callback; the first argument counts its calls in one pass. -/
abbrev UkfFn (W : Type) : Type := ℕ → (ℕ → W) → Except Status (ℕ → W)

/-- A residual callback of one pass. -/
abbrev UkfResidualFn (W : Type) : Type := ℕ → (ℕ → W) → (ℕ → W) → Except Status (ℕ → W)

/-- The passes in which a kernel calls its residual. -/
inductive ResidualUse where
  | mean
  | deviation
  | innovation
  deriving DecidableEq

/-- The residual of each pass, or NULL. -/
abbrev UkfResidual (W : Type) : Type := Option (ResidualUse → UkfResidualFn W)

/-- `FILTERS_UKF_SIGMA_COUNT`. -/
def sigmaCount (n : ℕ) : ℕ := 2 * n + 1

variable (A : WorkArith W)

/-- `scale_core`. -/
def scaleCore (n : ℕ) (covariance : Grid W) (scale : W) : Except Status (Grid W) :=
  A.finiteGrid n n fun p => A.mul scale (covariance p)

/-- `sigma_core`: the mean, then the mean plus and minus each column. -/
def sigmaCore (n : ℕ) (mean : ℕ → W) (scaled : Grid W) : Except Status (Grid W) := do
  let factor ← ukfCholesky A n scaled
  forRange 0 n (setRow n 0 mean A.blank) fun i points => do
    let plus ← A.finiteRow n fun j => A.add (mean j) (factor (j, i))
    let minus ← A.finiteRow n fun j => A.sub (mean j) (factor (j, i))
    .ok (setRow n (1 + n + i) minus (setRow n (1 + i) plus points))

/-- `propagate_core`. -/
def propagateCore (rows k : ℕ) (points : Grid W) (fn : UkfFn W) : Except Status (Grid W) :=
  forRange 0 rows A.blank fun i out => do
    let result ← fn i (gridRow points i)
    let result ← A.finiteRow k result
    .ok (setRow k i result out)

/-- One row of `deviations_core`. -/
def deviationRow (k : ℕ) (residual : Option (UkfResidualFn W)) (i : ℕ) (point mean : ℕ → W) :
    Except Status (ℕ → W) :=
  match residual with
  | none => A.finiteRow k fun j => A.sub (point j) (mean j)
  | some residual => do
      let result ← residual i point mean
      A.finiteRow k result

/-- `deviations_core`. -/
def deviationsCore (rows k : ℕ) (points : Grid W) (mean : ℕ → W)
    (residual : Option (UkfResidualFn W)) : Except Status (Grid W) :=
  forRange 0 rows A.blank fun i out => do
    let result ← deviationRow A k residual i (gridRow points i) mean
    .ok (setRow k i result out)

/-- The weighted column sums. -/
def columnSums (s k : ℕ) (values : Grid W) (w : ℕ → W) : Except Status (ℕ → W) :=
  fillRange 0 k id (fun _ => A.zero) fun j _ =>
    A.runningSum s fun i => A.mul (values (i, j)) (w i)

/-- `mean_core`. -/
def meanCore (s k : ℕ) (points : Grid W) (w : ℕ → W) (residual : Option (UkfResidualFn W)) :
    Except Status (ℕ → W) :=
  match residual with
  | none => columnSums A s k points w
  | some residual => do
      let deviations ← deviationsCore A s k points (gridRow points 0) (some residual)
      let result ← columnSums A s k deviations w
      A.finiteRow k fun j => A.add (points (0, j)) (result j)

/-- `weighted_covariance_core`: `aᵀ * diag(w) * b`. -/
def weightedCovarianceCore (s p q : ℕ) (a b : Grid W) (w : ℕ → W) : Except Status (Grid W) := do
  let scaled ← A.finiteGrid s q fun x => A.add (A.mul (w x.1) (b x)) (A.mul A.zero (b x))
  fillBlock p q A.blank fun i j => A.runningSum s fun k => A.mul (a (k, i)) (scaled (k, j))

/-- `add_core`. -/
def addCore (rows cols : ℕ) (out addend : Grid W) : Except Status (Grid W) :=
  A.finiteGrid rows cols fun x => A.add (out x) (addend x)

/-- `symmetrize`: a pair of mirrored elements is read before it is written. -/
def symmetrize (matrix : Grid W) : Grid W :=
  fun x => A.add (A.mul A.half (matrix x)) (A.mul A.half (matrix (x.2, x.1)))

/-- `expand_weights`. -/
def expandWeights (first other : W) : ℕ → W :=
  fun i => if i = 0 then first else other

/-- `predict_core`. -/
def predictCore (n : ℕ) (mean : ℕ → W) (covariance processNoise : Grid W) (weights : UkfWeights W)
    (transition : UkfFn W) (residual : UkfResidual W) : Except Status ((ℕ → W) × Grid W) := do
  let s := sigmaCount n
  let wm := expandWeights weights.mean0 weights.other
  let wc := expandWeights weights.covariance0 weights.other
  let scaled ← scaleCore A n covariance weights.scale
  let points ← sigmaCore A n mean scaled
  let propagated ← propagateCore A s n points transition
  let outMean ← meanCore A s n propagated wm (residual.map (· .mean))
  let deviations ← deviationsCore A s n propagated outMean (residual.map (· .deviation))
  let spread ← weightedCovarianceCore A s n n deviations deviations wc
  let sum ← addCore A n n spread processNoise
  .ok (outMean, symmetrize A sum)

/-- `linears_solve` on the working type. -/
abbrev SolveFn (W : Type) : Type := ℕ → ℕ → Grid W → Grid W → Except Status (Grid W)

/-- The state moved along the gain: `kt` is the transposed gain. -/
def correctMean (n m : ℕ) (mean : ℕ → W) (kt : Grid W) (innovation : ℕ → W) :
    Except Status (ℕ → W) := do
  let correction ← fillRange 0 n id (fun _ => A.zero) fun i _ =>
    A.runningSum m fun j => A.mul (kt (j, i)) (innovation j)
  A.finiteRow n fun i => A.add (mean i) (correction i)

/-- `P - K*Cᵀ`, which is `P - K*S*Kᵀ` because `S*Kᵀ = Cᵀ`. -/
def reduceCovariance (n m : ℕ) (covariance kt ct : Grid W) : Except Status (Grid W) := do
  let reduction ← fillBlock n n A.blank fun i r =>
    A.runningSum m fun j => A.mul (kt (j, i)) (ct (j, r))
  let difference ← A.finiteGrid n n fun x => A.sub (covariance x) (reduction x)
  .ok (symmetrize A difference)

/-- `update_core`. -/
def updateCore (solve : SolveFn W) (n m : ℕ) (mean : ℕ → W) (covariance measurementNoise : Grid W)
    (measurement : ℕ → W) (weights : UkfWeights W) (observation : UkfFn W)
    (residual : UkfResidual W) : Except Status ((ℕ → W) × Grid W) := do
  let s := sigmaCount n
  let wm := expandWeights weights.mean0 weights.other
  let wc := expandWeights weights.covariance0 weights.other
  let scaled ← scaleCore A n covariance weights.scale
  let points ← sigmaCore A n mean scaled
  let measured ← propagateCore A s m points observation
  let zbar ← meanCore A s m measured wm (residual.map (· .mean))
  let dz ← deviationsCore A s m measured zbar (residual.map (· .deviation))
  -- regenerated sigma points differ from the mean by the columns themselves
  let dx ← deviationsCore A s n points mean none
  let spread ← weightedCovarianceCore A s m m dz dz wc
  let sum ← addCore A m m spread measurementNoise
  let innovationCovariance := symmetrize A sum
  let _ ← ukfCholesky A m innovationCovariance
  let cross ← weightedCovarianceCore A s n m dx dz wc
  let crossT : Grid W := fun x => cross (x.2, x.1)
  let gainT ← solve m n innovationCovariance crossT
  let innovation ← deviationsCore A 1 m (fun x => measurement x.2) zbar
    (residual.map (· .innovation))
  let outMean ← correctMean A n m mean gainT (gridRow innovation 0)
  let outCovariance ← reduceCovariance A n m covariance gainT crossT
  .ok (outMean, outCovariance)

end Xhive.Ukf
