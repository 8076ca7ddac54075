import Xhive.Particles.Filter
import Xhive.Ukf.Bits

/-!
# The Q unscented particle filter

`upf_q_filter_impl.h` over the shared particle calls and the mixed unscented
kernels.  One particle is stepped over any working type; a step stages all of
them before three copies commit it.  Callbacks and draws are indexed by the
particle and by the place of the call, so that nothing is assumed of them, and
the integer Gaussian helpers are parameters.
-/

namespace Xhive.Particles

open Xhive.Support Xhive.Linears Xhive.Filters Xhive.Ukf

/-! ## One particle -/

/-- The Gaussian helpers of `pf_q_internal.h` on the working type. -/
structure UpfKernels (W : Type) where
  /-- `dot`. -/
  dot : ℕ → (ℕ → W) → (ℕ → W) → W
  /-- `gaussian_prepare`, `vector_prepare` and `perturb_try`. -/
  perturbTry : ℕ → Grid W → (ℕ → W) → Option (ℕ → W)
  /-- `vector_prepare` and `dot_try` of a draw with itself. -/
  dotTry : ℕ → (ℕ → W) → Option W
  /-- `log_determinant_try`. -/
  logDeterminantTry : ℕ → Grid W → Option W
  /-- `gaussian_retry` or `gaussian_mixed`: half a squared norm. -/
  halfNorm : ℕ → Grid W → (ℕ → W) → Except Status W
  /-- `U_LOG`. -/
  log : W → W

/-- Whether a model callback runs inside a kernel or for the densities. -/
inductive ModelUse where
  | kernel
  | density
  deriving DecidableEq

/-- `filters_upf_q15_model_t` and `filters_upf_q31_model_t`, by particle. -/
structure UpfModel (W : Type) where
  transition : ℕ → ModelUse → UkfFn W
  observation : ℕ → ModelUse → UkfFn W
  stateResidual : Option (ℕ → ModelUse → ResidualUse → UkfResidualFn W)
  measurementResidual : Option (ℕ → ModelUse → ResidualUse → UkfResidualFn W)

/-- What a step computes once for all particles. -/
structure UpfOperands (W : Type) where
  n : ℕ
  m : ℕ
  processNoise : Grid W
  measurementNoise : Grid W
  measurement : ℕ → W
  processFactor : Grid W
  measurementFactor : Grid W
  weights : UkfWeights W

/-- What a step stages for a particle. -/
structure UpfRow (W : Type) where
  particle : ℕ → W
  covariance : Grid W
  exponent : W

section Row

variable {Q W : Type} [UkfFormat Q] (A : SignalArith Q W) (K : UpfKernels W)

/-- `ukf_symmetric` of the working type, with the diagonal. -/
def workSymmetric (n : ℕ) (matrix : Grid W) : Except Status Unit :=
  forRange 0 n () fun i _ => do
    if A.less (matrix (i, i)) A.zero = true then throw .errorDomain
    forRange 0 i () fun j _ =>
      if A.equal (matrix (i, j)) (matrix (j, i)) = false then .error .errorDomain else .ok ()

/-- `ukf_fits`. -/
def workFits (count : ℕ) (value : ℕ → W) : Except Status Unit :=
  forRange 0 count () fun i _ => if A.inUnit (value i) then .ok () else .error .errorRange

/-- The posterior mean plus the factor times the draw. -/
def drawParticle (n : ℕ) (mean : ℕ → W) (factor : Grid W) (draw : ℕ → W) : ℕ → W :=
  match K.perturbTry n factor draw with
  | some offset => fun j => A.add (mean j) (offset j)
  | none => fun j => A.add (mean j) (K.dot (j + 1) (gridRow factor j) draw)

/-- `-log N(x'; M, C)` up to a constant, with the sign of a divisor. -/
def proposalExponent (n : ℕ) (factor : Grid W) (draw : ℕ → W) : W :=
  let square := (K.dotTry n draw).getD (K.dot n draw draw)
  let logDeterminant := (K.logDeterminantTry n factor).getD
    (foldRange 0 n A.zero fun j sum => A.add sum (K.log (factor (j, j))))
  A.sub (A.mul (A.sub A.zero A.half) square) logDeterminant

/-- The prior and the posterior of a particle. -/
def upfProposal (o : UpfOperands W) (model : UpfModel W) (i : ℕ) (particle : ℕ → W)
    (covariance : Grid W) : Except Status ((ℕ → W) × Grid W) := do
  let prior ← qPredictCore A o.n particle covariance o.processNoise o.weights
    (model.transition i .kernel) (model.stateResidual.map (· i .kernel))
  workSymmetric A o.n prior.2
  qUpdateCore A o.n o.m prior.1 prior.2 o.measurementNoise o.measurement o.weights
    (model.observation i .kernel) (model.measurementResidual.map (· i .kernel))

/-- Half the squared norm of the deviation of the measurement at a particle. -/
def likelihoodTerm (o : UpfOperands W) (model : UpfModel W) (i : ℕ) (particle : ℕ → W) :
    Except Status W := do
  let measured ← model.observation i .density 0 particle
  let measured ← A.finiteRow o.m measured
  let innovation ← deviationRow A.toWorkArith o.m
    (model.measurementResidual.map (· i .density .innovation)) 0 measured o.measurement
  K.halfNorm o.m o.measurementFactor innovation

/-- Half the squared norm of the deviation of a particle from the model. -/
def transitionTerm (o : UpfOperands W) (model : UpfModel W) (i : ℕ) (old particle : ℕ → W) :
    Except Status W := do
  let propagated ← model.transition i .density 0 old
  let propagated ← A.finiteRow o.n propagated
  let deviation ← deviationRow A.toWorkArith o.n
    (model.stateResidual.map (· i .density .innovation)) 0 particle propagated
  K.halfNorm o.n o.processFactor deviation

/-- One round of the loop of `step`, from the widened particle and covariance. -/
def upfRow (o : UpfOperands W) (model : UpfModel W) (sample : ℕ → Except Status (ℕ → W)) (i : ℕ)
    (particle : ℕ → W) (covariance : Grid W) : Except Status (UpfRow W) := do
  let posterior ← upfProposal A o model i particle covariance
  let factor ← ukfCholesky A.toWorkArith o.n posterior.2
  let draw ← sample i
  let draw ← A.finiteRow o.n draw
  let moved ← A.finiteRow o.n (drawParticle A K o.n posterior.1 factor draw)
  let exponent := proposalExponent A K o.n factor draw
  let term ← likelihoodTerm A K o model i moved
  let exponent := A.add exponent term
  let term ← transitionTerm A K o model i particle moved
  let exponent ← A.check (A.add exponent term)
  workFits A o.n moved
  workFits A (o.n * o.n) fun a => posterior.2 (a / o.n, a % o.n)
  .ok ⟨moved, posterior.2, exponent⟩

end Row

/-! ## The object -/

/-- `filters_upf_q15_t` and `filters_upf_q31_t`; row `i` of the covariances is a
matrix in row-major order. -/
structure UpfState (Q : Type) [LikelihoodFormat Q] where
  base : PfState Q
  covariances : SignalMatrix Q
  sigmaWeights : UkfWeights (WorkBits Q)

section Object

variable {Q : Type} [UkfFormat Q]

/-- The covariance of particle `i`. -/
def UpfState.covariance (s : UpfState Q) (i : ℕ) : SignalMatrix Q :=
  ⟨s.base.dimension, s.base.dimension,
    fun p => s.covariances.data (i, p.1 * s.base.dimension + p.2)⟩

/-- What every call is given beside the object. -/
structure UpfEnvironment (Q : Type) [UkfFormat Q] where
  wide : Bool
  /-- The floating operations of the platform. -/
  ops : WorkArith (WorkBits Q)
  truncate : WorkBits Q → ℕ
  scaledExp : WorkBits Q → UInt64
  kernels : UpfKernels (WorkBits Q)
  /-- The decompositions and kernels of the shared init. -/
  initKernels : WorkKernels Q

/-- The working type of the kernels. -/
def UpfEnvironment.arith (env : UpfEnvironment Q) : SignalArith Q (WorkBits Q) :=
  bitArith env.ops env.truncate

/-- The environment of the shared particle calls. -/
def UpfEnvironment.base (env : UpfEnvironment Q) : PfEnvironment Q where
  wide := env.wide
  platform :=
    { add := env.arith.add
      sub := env.arith.sub
      scaledExp := env.scaledExp
      widen := env.arith.widen
      store := env.arith.store }
  kernels := env.initKernels

structure UpfViews where
  base : StateViews
  covariances : Except Status Unit

/-- `state`. -/
def upfCheckState (wide : Bool) (views : UpfViews) (s : UpfState Q) : Except Status Unit := do
  pfCheckState wide views.base s.base
  let square := linearsSizeMul wide s.base.dimension s.base.dimension
  if square = sizeMax wide then throw .errorSize
  ukfOwned wide s.covariances s.base.count square views.covariances

/-! ## Stores -/

def UpfState.setBase (base : PfState Q) (s : UpfState Q) : UpfState Q :=
  { s with base := base }

def UpfState.setParticles (data : ℕ × ℕ → Q) (s : UpfState Q) : UpfState Q :=
  { s with base := { s.base with particles := { s.base.particles with data := data } } }

def UpfState.setCovariances (data : ℕ × ℕ → Q) (s : UpfState Q) : UpfState Q :=
  { s with covariances := { s.covariances with data := data } }

def UpfState.setWeights (weights : SignalMatrix Q) (s : UpfState Q) : UpfState Q :=
  { s with base := { s.base with weights := weights } }

/-! ## Init -/

structure UpfInitCall (Q : Type) [LikelihoodFormat Q] where
  base : PfInitCall Q
  views : UpfViews
  alpha : WorkBits Q
  beta : WorkBits Q
  kappa : WorkBits Q

/-- The validation of `init`, in its order. -/
def upfInitChecks (env : UpfEnvironment Q) (call : UpfInitCall Q) (s : UpfState Q) :
    Except Status (RowSampler Q × UkfWeights (WorkBits Q)) :=
  match call.base.sample with
  | none => .error .errorArgument
  | some sample => do
      let n := s.base.dimension
      upfCheckState env.wide call.views s
      ukfMatrix env.wide call.base.mean n 1 call.base.meanView
      ukfMatrix env.wide call.base.covariance n n call.base.covarianceView
      ukfMatrix env.wide call.base.processNoise s.base.processNoise.rows s.base.processNoise.cols
        call.base.processView
      ukfMatrix env.wide call.base.measurementNoise s.base.measurementNoise.rows
        s.base.measurementNoise.cols call.base.measurementView
      call.base.workspace
      let weights ← ukfWeights env.arith.toWorkArith n call.alpha call.beta call.kappa
      ukfSymmetric call.base.covariance true
      ukfSymmetric call.base.processNoise true
      ukfSymmetric call.base.measurementNoise false
      .ok (sample, weights)

/-- `init_validated`: the new base object. -/
def initValidated (env : PfEnvironment Q) (call : PfInitCall Q) (sample : RowSampler Q)
    (s : PfState Q) : Except Status (PfState Q) := do
  let n := s.dimension
  let m := s.measurementNoise.rows
  let factor ← env.kernels.cholesky n fun p => env.platform.widen (call.covariance.data p)
  let signal ← forRange 0 s.count call.signal
    (initRow env sample n factor fun j => env.platform.widen (call.mean.data (j, 0)))
  .ok
    { particles := { s.particles with data := copyBlock s.count n signal s.particles.data }
      weights := resetWeights s.weights
      processNoise :=
        if call.sharesProcess then s.processNoise
        else
          { s.processNoise with
            data := copyBlock n n call.processNoise.data s.processNoise.data }
      measurementNoise :=
        if call.sharesMeasurement then s.measurementNoise
        else
          { s.measurementNoise with
            data := copyBlock m m call.measurementNoise.data s.measurementNoise.data } }

/-- The covariance argument in row-major order over every row. -/
def spreadCovariance (count n : ℕ) (covariance : SignalMatrix Q) (data : ℕ × ℕ → Q) :
    ℕ × ℕ → Q :=
  fun p => if p.1 < count ∧ p.2 < n * n then covariance.data (p.2 / n, p.2 % n) else data p

def upfInit (env : UpfEnvironment Q) (call : UpfInitCall Q) :
    Procedure Status (UpfState Q) Unit := do
  let s ← .read id
  let checked ← .attempt (upfInitChecks env call s)
  let base ← .attempt (initValidated env.base call.base checked.1 s.base)
  .write (UpfState.setBase base)
  .write (UpfState.setCovariances
    (spreadCovariance s.base.count s.base.dimension call.base.covariance s.covariances.data))
  .write fun s => { s with sigmaWeights := checked.2 }

/-! ## Step -/

structure UpfStepCall (Q : Type) [LikelihoodFormat Q] where
  views : UpfViews
  measurement : SignalMatrix Q
  measurementView : MatrixView
  workspace : Except Status Unit
  /-- The model with both callbacks, or NULL somewhere. -/
  model : Option (UpfModel (WorkBits Q))
  sample : Option (RowSampler Q)
  /-- The bytes the staging arrays hold before they are written. -/
  particles : ℕ × ℕ → Q
  covariances : ℕ × ℕ → Q
  weights : ℕ → Q

/-- The staging arrays of a step. -/
structure UpfStaged (Q : Type) [LikelihoodFormat Q] where
  particles : ℕ × ℕ → Q
  covariances : ℕ × ℕ → Q
  exponents : ℕ → WorkBits Q

def upfStepChecks (env : UpfEnvironment Q) (call : UpfStepCall Q) (s : UpfState Q) :
    Except Status (UpfModel (WorkBits Q) × RowSampler Q) :=
  match call.model, call.sample with
  | some model, some sample => do
      upfCheckState env.wide call.views s
      ukfMatrix env.wide call.measurement s.base.measurementNoise.rows 1 call.measurementView
      call.workspace
      ukfSymmetric s.base.processNoise true
      ukfSymmetric s.base.measurementNoise false
      .ok (model, sample)
  | _, _ => .error .errorArgument

/-- The widened noises, their factors and the sigma weights. -/
def upfOperands (env : UpfEnvironment Q) (call : UpfStepCall Q) (s : UpfState Q) :
    Except Status (UpfOperands (WorkBits Q)) := do
  let n := s.base.dimension
  let m := s.base.measurementNoise.rows
  let q : Grid (WorkBits Q) := fun p => env.arith.widen (s.base.processNoise.data p)
  let r : Grid (WorkBits Q) := fun p => env.arith.widen (s.base.measurementNoise.data p)
  let qFactor ← ukfCholesky env.arith.toWorkArith n q
  let rFactor ← ukfCholesky env.arith.toWorkArith m r
  ukfWeightsValid env.arith.toWorkArith s.sigmaWeights
  .ok ⟨n, m, q, r, fun j => env.arith.widen (call.measurement.data (j, 0)), qFactor, rFactor,
    s.sigmaWeights⟩

/-- Stage particle `i`. -/
def upfStage (env : UpfEnvironment Q) (s : UpfState Q) (o : UpfOperands (WorkBits Q))
    (model : UpfModel (WorkBits Q)) (sample : RowSampler Q) (i : ℕ) (staged : UpfStaged Q) :
    Except Status (UpfStaged Q) := do
  ukfSymmetric (s.covariance i) true
  let row ← upfRow env.arith env.kernels o model sample i
    (fun j => env.arith.widen (s.base.particle i j))
    fun p => env.arith.widen ((s.covariance i).data p)
  .ok
    { particles := stageRow env.base.platform o.n i row.particle staged.particles
      covariances := stageRow env.base.platform (o.n * o.n) i
        (fun a => row.covariance (a / o.n, a % o.n)) staged.covariances
      exponents := Function.update staged.exponents i row.exponent }

def upfStep (env : UpfEnvironment Q) (call : UpfStepCall Q) :
    Procedure Status (UpfState Q) Unit := do
  let s ← .read id
  let given ← .attempt (upfStepChecks env call s)
  let o ← .attempt (upfOperands env call s)
  let staged ← .attempt (forRange 0 s.base.count
    ⟨call.particles, call.covariances, fun _ => 0⟩ (upfStage env s o given.1 given.2))
  let weights ← .attempt
    (reweight env.base.platform s.base.weight staged.exponents s.base.count call.weights)
  .write (UpfState.setParticles
    (copyBlock s.base.count s.base.dimension staged.particles s.base.particles.data))
  .write (UpfState.setCovariances
    (copyBlock s.base.count (s.base.dimension * s.base.dimension) staged.covariances
      s.covariances.data))
  .write (UpfState.setWeights
    { s.base.weights with
      data := copyBlock s.base.count 1 (fun p => weights p.1) s.base.weights.data })

/-! ## Resample -/

structure UpfResampleCall where
  views : UpfViews
  uniform : Uniform
  indices : Option (ℕ → ℕ)
  capacity : ℕ
  /-- The verdict on the addresses of the indices. -/
  indicesView : Except Status Unit

/-- The indices of a resampling, from its checks on. -/
def upfResampleIndices (env : UpfEnvironment Q) (call : UpfResampleCall) (s : UpfState Q) :
    Except Status (ℕ → ℕ) := do
  upfCheckState env.wide call.views s
  match call.indices with
  | none => .error .errorArgument
  | some given => do
      if call.capacity < s.base.count then throw .errorWorkspace
      call.indicesView
      resampleIndices s.base.weight s.base.count call.uniform (some given) call.capacity

/-- The answer is the array of indices. -/
def upfResample (env : UpfEnvironment Q) (call : UpfResampleCall) :
    Procedure Status (UpfState Q) (ℕ → ℕ) := do
  let s ← .read id
  let indices ← .attempt (upfResampleIndices env call s)
  .write (UpfState.setParticles
    (ukfGatherRows s.base.dimension indices s.base.count s.base.particles.data))
  .write (UpfState.setCovariances
    (ukfGatherRows (s.base.dimension * s.base.dimension) indices s.base.count
      s.covariances.data))
  .write (UpfState.setWeights (resetWeights s.base.weights))
  return indices

/-! ## Runs -/

inductive UpfCall (Q : Type) [LikelihoodFormat Q] where
  | step (call : UpfStepCall Q)
  | resample (call : UpfResampleCall)

def UpfCall.perform (env : UpfEnvironment Q) : UpfCall Q → Procedure Status (UpfState Q) Unit
  | .step call => upfStep env call
  | .resample call => do
      let _ ← upfResample env call
      return ()

/-- The states after a successful init and any calls, failing or not. -/
inductive UpfReachable (env : UpfEnvironment Q) : UpfState Q → Prop
  | init (call : UpfInitCall Q) {s t : UpfState Q} (h : upfInit env call s = (.ok (), t)) :
      UpfReachable env t
  | call (call : UpfCall Q) {s : UpfState Q} (h : UpfReachable env s) :
      UpfReachable env (call.perform env s).2

end Object

end Xhive.Particles
