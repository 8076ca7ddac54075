import Xhive.Filters.Biquad
import Xhive.Particles.Likelihood
import Xhive.Support.Procedure

/-!
# The Q particle filter

`pf_q_filter_impl.h` with `reweight` of `pf_q_internal.h` and the checks and
row moves of `ukf_internal.h`.  A call runs on the arrays of the filter object.
Outcomes of address and capacity checks, callbacks and floating kernels are
inputs of the call; staging arrays are disjoint from the object and local here.
-/

namespace Xhive.Particles

open Xhive.Support Xhive.Linears Xhive.Filters

/-! ## The object -/

/-- `linears_matrix_t` with its elements. -/
structure SignalMatrix (Q : Type) where
  rows : ℕ
  cols : ℕ
  data : ℕ × ℕ → Q

/-- `filters_pf_q15_t` and `filters_pf_q31_t`. -/
structure PfState (Q : Type) where
  particles : SignalMatrix Q
  weights : SignalMatrix Q
  processNoise : SignalMatrix Q
  measurementNoise : SignalMatrix Q

namespace PfState

variable {Q : Type}

/-- The number of particles. -/
def count (s : PfState Q) : ℕ :=
  s.particles.rows

/-- The dimension of a particle. -/
def dimension (s : PfState Q) : ℕ :=
  s.particles.cols

def weight (s : PfState Q) (i : ℕ) : Q :=
  s.weights.data (i, 0)

def particle (s : PfState Q) (i j : ℕ) : Q :=
  s.particles.data (i, j)

end PfState

section Checks

variable {Q : Type} [ParticleFormat Q]

def ukfShape (wide : Bool) (matrix : SignalMatrix Q) (rows cols : ℕ) : Except Status Unit :=
  if matrix.rows = 0 ∨ matrix.cols = 0 ∨ (rows ≠ 0 ∧ matrix.rows ≠ rows) ∨
      (cols ≠ 0 ∧ matrix.cols ≠ cols) then .error .errorDimension
  else
    let count := linearsSizeMul wide matrix.rows matrix.cols
    let bytes := linearsSizeMul wide count (FilterFormat.scalarBytes Q)
    if count = sizeMax wide ∨ bytes = sizeMax wide then .error .errorSize else .ok ()

/-- `view` is the verdict on capacity and address. -/
def ukfOwned (wide : Bool) (matrix : SignalMatrix Q) (rows cols : ℕ) (view : Except Status Unit) :
    Except Status Unit := do
  ukfShape wide matrix rows cols
  view

/-- The verdicts on the addresses of a descriptor and of its elements. -/
structure MatrixView where
  descriptor : Except Status Unit
  elements : Except Status Unit

/-- `ukf_matrix` and `ukf_source`. -/
def ukfMatrix (wide : Bool) (matrix : SignalMatrix Q) (rows cols : ℕ) (view : MatrixView) :
    Except Status Unit := do
  view.descriptor
  ukfShape wide matrix rows cols
  view.elements

/-- The verdicts on the addresses and capacities of the object. -/
structure StateViews where
  object : Except Status Unit
  particles : Except Status Unit
  weights : Except Status Unit
  processNoise : Except Status Unit
  measurementNoise : Except Status Unit

/-- `state` and `arrays` of `pf_q_internal.h`. -/
def pfCheckState (wide : Bool) (views : StateViews) (s : PfState Q) : Except Status Unit := do
  views.object
  ukfOwned wide s.particles s.count s.dimension views.particles
  ukfOwned wide s.weights s.count 1 views.weights
  ukfOwned wide s.processNoise s.dimension s.dimension views.processNoise
  ukfOwned wide s.measurementNoise s.measurementNoise.rows s.measurementNoise.rows
    views.measurementNoise

/-- Exact stored symmetry, optionally with a nonnegative diagonal. -/
def ukfSymmetric (matrix : SignalMatrix Q) (checkDiagonal : Bool) : Except Status Unit :=
  forRange 0 matrix.rows () fun i _ => do
    if checkDiagonal = true ∧ QFormat.widen (matrix.data (i, i)) < 0 then throw .errorDomain
    forRange 0 i () fun j _ =>
      if QFormat.widen (matrix.data (i, j)) ≠ QFormat.widen (matrix.data (j, i)) then
        .error .errorDomain
      else .ok ()

/-- `memcpy` of the first `rows * cols` elements. -/
def copyBlock (rows cols : ℕ) (source target : ℕ × ℕ → Q) : ℕ × ℕ → Q :=
  fun p => if p.1 < rows ∧ p.2 < cols then source p else target p

def resetWeights (weights : SignalMatrix Q) : SignalMatrix Q :=
  { weights with
    data := foldRange 0 weights.rows weights.data fun i data =>
      Function.update data (i, 0) ParticleFormat.signalMax }

/-- Row `source` over row `target`. -/
def copyRow (n source target : ℕ) (data : ℕ × ℕ → Q) : ℕ × ℕ → Q :=
  fun p => if p.1 = target ∧ p.2 < n then data (source, p.2) else data p

/-- The second pass of `ukf_gather_rows`, from row `i - 1` down. -/
def gatherDown (n : ℕ) (indices : ℕ → ℕ) : ℕ → (ℕ × ℕ → Q) → ℕ × ℕ → Q
  | 0, data => data
  | i + 1, data =>
      gatherDown n indices i (if indices i < i then copyRow n (indices i) i data else data)

def ukfGatherRows (n : ℕ) (indices : ℕ → ℕ) (count : ℕ) (data : ℕ × ℕ → Q) : ℕ × ℕ → Q :=
  gatherDown n indices count
    (foldRange 0 count data fun i data =>
      if indices i > i then copyRow n (indices i) i data else data)

end Checks

/-! ## Floating rows -/

section Rows

variable {Q : Type} [LikelihoodFormat Q]

/-- The decompositions and kernels of the working type. -/
structure WorkKernels (Q : Type) [LikelihoodFormat Q] where
  cholesky : ℕ → (ℕ × ℕ → WorkBits Q) → Except Status (ℕ × ℕ → WorkBits Q)
  /-- A draw of unit covariance times the factor. -/
  perturb : ℕ → (ℕ × ℕ → WorkBits Q) → (ℕ → WorkBits Q) → ℕ → WorkBits Q
  /-- Half the squared norm of the solution of the triangular system. -/
  halfNorm : ℕ → (ℕ × ℕ → WorkBits Q) → (ℕ → WorkBits Q) → Except Status (WorkBits Q)

/-- A callback from row to row; the first argument counts its calls. -/
abbrev RowCallback (Q : Type) [LikelihoodFormat Q] : Type :=
  ℕ → (ℕ → WorkBits Q) → Except Status (ℕ → WorkBits Q)

/-- A sampler; the argument counts its calls. -/
abbrev RowSampler (Q : Type) [LikelihoodFormat Q] : Type :=
  ℕ → Except Status (ℕ → WorkBits Q)

def ukfFinite (count : ℕ) (row : ℕ → WorkBits Q) : Except Status Unit :=
  forRange 0 count () fun i _ => if workFinite (row i) then .ok () else .error .errorRange

def ukfFits (count : ℕ) (row : ℕ → WorkBits Q) : Except Status Unit :=
  forRange 0 count () fun i _ => if workInUnit (row i) then .ok () else .error .errorRange

/-- Stage `row` as row `i`. -/
def stageRow (platform : WorkPlatform Q) (n i : ℕ) (row : ℕ → WorkBits Q)
    (signal : ℕ × ℕ → Q) : ℕ × ℕ → Q :=
  fun p => if p.1 = i ∧ p.2 < n then platform.store (row p.2) else signal p

end Rows

/-! ## Reweighting -/

section Reweight

variable {Q : Type} [LikelihoodFormat Q]

/-- One round of the first loop: the least exponent of a positive weight. -/
def reweightLowest (weights : ℕ → Q) (exponents : ℕ → WorkBits Q) (i : ℕ)
    (lowest : Option (WorkBits Q)) : Except Status (Option (WorkBits Q)) :=
  if QFormat.widen (weights i) < 0 then .error .errorDomain
  else if workFinite (exponents i) = false then .error .errorRange
  else if QFormat.widen (weights i) = 0 then .ok lowest
  else
    match lowest with
    | none => .ok (some (exponents i))
    | some low => .ok (if exponentLess (exponents i) low then some (exponents i) else some low)

/-- The likelihood of one particle; a weight of zero needs none. -/
def reweightLikelihood (platform : WorkPlatform Q) (weights : ℕ → Q)
    (exponents : ℕ → WorkBits Q) (lowest : WorkBits Q) (i : ℕ) : UInt64 :=
  if QFormat.widen (weights i) = 0 then 0 else platform.likelihoodPair (exponents i) lowest

/-- One round of the second loop: the likelihood goes to its slot, the largest
product is kept. -/
def reweightScan (platform : WorkPlatform Q) (weights : ℕ → Q) (exponents : ℕ → WorkBits Q)
    (lowest : WorkBits Q) (i : ℕ) (s : (ℕ → UInt64) × Accum) : (ℕ → UInt64) × Accum :=
  let likelihood := reweightLikelihood platform weights exponents lowest i
  let product := pfQUmul likelihood (weightWord (weights i))
  (Function.update s.1 i likelihood, if pfQUcmp product s.2 > 0 then product else s.2)

/-- The new weight; the largest product becomes the largest signal. -/
def reweightValue (weights : ℕ → Q) (slots : ℕ → UInt64) (maximum : Accum) (multiplier : UInt32)
    (shift i : ℕ) : Q :=
  let product := pfQUmul (LikelihoodFormat.cached Q (slots i)) (weightWord (weights i))
  let largest : UInt64 := weightWord (ParticleFormat.signalMax : Q)
  let value := if pfQUcmp product maximum = 0 then largest
    else pfQUround (pfQUmul32 product multiplier) shift
  QFormat.narrow (if value > largest then largest else value).toInt64

def reweight (platform : WorkPlatform Q) (weights : ℕ → Q) (exponents : ℕ → WorkBits Q)
    (count : ℕ) (staged : ℕ → Q) : Except Status (ℕ → Q) := do
  let found ← forRange 0 count none (reweightLowest weights exponents)
  match found with
  | none => .error .errorDomain
  | some lowest =>
      let s := foldRange 0 count ((fun _ => 0), ⟨0, 0⟩)
        (reweightScan platform weights exponents lowest)
      let shift := pfQUbits s.2
      let numerator := expShl ⟨weightWord (ParticleFormat.signalMax : Q), 0⟩ shift
      let multiplier := (expRoundDiv numerator s.2).toUInt32
      .ok (foldRange 0 count staged fun i staged =>
        Function.update staged i (reweightValue weights s.1 s.2 multiplier shift i))

end Reweight

/-! ## The calls -/

section Calls

variable {Q : Type} [LikelihoodFormat Q]

/-- What every call is given beside the object. -/
structure PfEnvironment (Q : Type) [LikelihoodFormat Q] where
  wide : Bool
  platform : WorkPlatform Q
  kernels : WorkKernels Q

structure PfInitCall (Q : Type) [LikelihoodFormat Q] where
  views : StateViews
  mean : SignalMatrix Q
  covariance : SignalMatrix Q
  processNoise : SignalMatrix Q
  measurementNoise : SignalMatrix Q
  /-- The noise arguments use the arrays of the object itself. -/
  sharesProcess : Bool
  sharesMeasurement : Bool
  meanView : MatrixView
  covarianceView : MatrixView
  processView : MatrixView
  measurementView : MatrixView
  workspace : Except Status Unit
  sample : Option (RowSampler Q)
  signal : ℕ × ℕ → Q

/-- One drawn particle. -/
def initRow (env : PfEnvironment Q) (sample : RowSampler Q) (n : ℕ)
    (factor : ℕ × ℕ → WorkBits Q) (mean : ℕ → WorkBits Q) (i : ℕ) (signal : ℕ × ℕ → Q) :
    Except Status (ℕ × ℕ → Q) := do
  let draw ← sample i
  ukfFinite n draw
  let result := fun j => env.platform.add (env.kernels.perturb n factor draw j) (mean j)
  ukfFits n result
  .ok (stageRow env.platform n i result signal)

/-- The validation of `init`, in its order. -/
def pfInitChecks (env : PfEnvironment Q) (call : PfInitCall Q) (s : PfState Q) :
    Except Status (RowSampler Q) :=
  match call.sample with
  | none => .error .errorArgument
  | some sample => do
      pfCheckState env.wide call.views s
      ukfMatrix env.wide call.mean s.dimension 1 call.meanView
      ukfMatrix env.wide call.covariance s.dimension s.dimension call.covarianceView
      ukfMatrix env.wide call.processNoise s.processNoise.rows s.processNoise.cols call.processView
      ukfMatrix env.wide call.measurementNoise s.measurementNoise.rows s.measurementNoise.cols
        call.measurementView
      call.workspace
      ukfSymmetric call.covariance true
      ukfSymmetric call.processNoise true
      ukfSymmetric call.measurementNoise false
      .ok sample

def pfInit (env : PfEnvironment Q) (call : PfInitCall Q) :
    Procedure Status (PfState Q) Unit := do
  let s ← .read id
  let sample ← .attempt (pfInitChecks env call s)
  let n := s.dimension
  let m := s.measurementNoise.rows
  let factor ← .attempt
    (env.kernels.cholesky n fun p => env.platform.widen (call.covariance.data p))
  let signal ← .attempt (forRange 0 s.count call.signal
    (initRow env sample n factor fun j => env.platform.widen (call.mean.data (j, 0))))
  .write fun s =>
    { s with particles.data := copyBlock s.count n signal s.particles.data }
  .write fun s => { s with weights := resetWeights s.weights }
  .write fun s =>
    if call.sharesProcess then s
    else
      { s with processNoise.data := copyBlock n n call.processNoise.data s.processNoise.data }
  .write fun s =>
    if call.sharesMeasurement then s
    else
      { s with
        measurementNoise.data :=
          copyBlock m m call.measurementNoise.data s.measurementNoise.data }

structure PfPredictCall (Q : Type) [LikelihoodFormat Q] where
  views : StateViews
  workspace : Except Status Unit
  transition : Option (RowCallback Q)
  sample : Option (RowSampler Q)
  signal : ℕ × ℕ → Q

/-- One particle moved and perturbed. -/
def predictRow (env : PfEnvironment Q) (transition : RowCallback Q) (sample : RowSampler Q)
    (s : PfState Q) (factor : ℕ × ℕ → WorkBits Q) (i : ℕ) (signal : ℕ × ℕ → Q) :
    Except Status (ℕ × ℕ → Q) := do
  let n := s.dimension
  let predicted ← transition i fun j => env.platform.widen (s.particle i j)
  ukfFinite n predicted
  let draw ← sample i
  ukfFinite n draw
  let result := fun j => env.platform.add (predicted j) (env.kernels.perturb n factor draw j)
  ukfFits n result
  .ok (stageRow env.platform n i result signal)

def pfPredict (env : PfEnvironment Q) (call : PfPredictCall Q) :
    Procedure Status (PfState Q) Unit := do
  let s ← .read id
  match call.transition, call.sample with
  | some transition, some sample =>
      .attempt (pfCheckState env.wide call.views s)
      .attempt call.workspace
      .attempt (ukfSymmetric s.processNoise true)
      let n := s.dimension
      let factor ← .attempt
        (env.kernels.cholesky n fun p => env.platform.widen (s.processNoise.data p))
      let signal ← .attempt
        (forRange 0 s.count call.signal (predictRow env transition sample s factor))
      .write fun s =>
        { s with particles.data := copyBlock s.count n signal s.particles.data }
  | _, _ => .attempt (.error .errorArgument)

structure PfUpdateCall (Q : Type) [LikelihoodFormat Q] where
  views : StateViews
  measurement : SignalMatrix Q
  measurementView : MatrixView
  workspace : Except Status Unit
  observation : Option (RowCallback Q)
  /-- The measured and the actual observation to their deviation. -/
  residual : Option (ℕ → (ℕ → WorkBits Q) → (ℕ → WorkBits Q) → Except Status (ℕ → WorkBits Q))
  signal : ℕ → Q

/-- The exponent of one particle. -/
def updateExponent (env : PfEnvironment Q) (call : PfUpdateCall Q) (observation : RowCallback Q)
    (s : PfState Q) (factor : ℕ × ℕ → WorkBits Q) (i : ℕ) (exponents : ℕ → WorkBits Q) :
    Except Status (ℕ → WorkBits Q) := do
  let m := s.measurementNoise.rows
  let z := fun j => env.platform.widen (call.measurement.data (j, 0))
  let measured ← observation i fun j => env.platform.widen (s.particle i j)
  ukfFinite m measured
  let deviation ←
    match call.residual with
    | some residual => do
        let deviation ← residual i measured z
        ukfFinite m deviation
        .ok deviation
    | none => .ok fun j => env.platform.sub (measured j) (z j)
  let exponent ← env.kernels.halfNorm m factor deviation
  .ok (Function.update exponents i exponent)

def pfUpdate (env : PfEnvironment Q) (call : PfUpdateCall Q) :
    Procedure Status (PfState Q) Unit := do
  let s ← .read id
  match call.observation with
  | none => .attempt (.error .errorArgument)
  | some observation =>
      let m := s.measurementNoise.rows
      .attempt (pfCheckState env.wide call.views s)
      .attempt (ukfMatrix env.wide call.measurement m 1 call.measurementView)
      .attempt call.workspace
      .attempt (ukfSymmetric s.measurementNoise false)
      let _ ← .attempt (weightTotal s.weight s.count)
      let factor ← .attempt
        (env.kernels.cholesky m fun p => env.platform.widen (s.measurementNoise.data p))
      let exponents ← .attempt
        (forRange 0 s.count (fun _ => 0) (updateExponent env call observation s factor))
      let staged ← .attempt (reweight env.platform s.weight exponents s.count call.signal)
      .write fun s =>
        { s with
          weights.data := copyBlock s.count 1 (fun p => staged p.1) s.weights.data }

structure PfResampleCall where
  views : StateViews
  uniform : Uniform
  indices : Option (ℕ → ℕ)
  capacity : ℕ
  /-- The verdict on the addresses of the indices. -/
  indicesView : Except Status Unit

/-- The answer is the array of indices. -/
def pfResample (env : PfEnvironment Q) (call : PfResampleCall) :
    Procedure Status (PfState Q) (ℕ → ℕ) := do
  let s ← .read id
  .attempt (pfCheckState env.wide call.views s)
  match call.indices with
  | none => .attempt (.error .errorArgument)
  | some given => do
      .attempt (if call.capacity < s.count then .error .errorWorkspace else .ok ())
      .attempt call.indicesView
      let indices ← .attempt
        (resampleIndices s.weight s.count call.uniform (some given) call.capacity)
      .write fun s =>
        { s with particles.data := ukfGatherRows s.dimension indices s.count s.particles.data }
      .write fun s => { s with weights := resetWeights s.weights }
      return indices

structure PfEstimateCall (Q : Type) [LikelihoodFormat Q] where
  views : StateViews
  mean : SignalMatrix Q
  covariance : SignalMatrix Q
  meanView : MatrixView
  covarianceView : MatrixView
  workspace : Except Status Unit
  /-- The path of a residual callback, from the weight total on. -/
  residual : Option (Accum → Except Status ((ℕ → Q) × (ℕ × ℕ → Q)))
  scratch : MomentScratch Q

/-- The validation of `estimate`, in its order. -/
def pfEstimateChecks (env : PfEnvironment Q) (call : PfEstimateCall Q) (s : PfState Q) :
    Except Status Unit := do
  pfCheckState env.wide call.views s
  ukfMatrix env.wide call.mean s.dimension 1 call.meanView
  ukfMatrix env.wide call.covariance s.dimension s.dimension call.covarianceView
  call.workspace

/-- The new elements of the caller's mean and covariance. -/
def pfEstimate (env : PfEnvironment Q) (call : PfEstimateCall Q) (s : PfState Q) :
    Except Status ((ℕ → Q) × (ℕ × ℕ → Q)) := do
  pfEstimateChecks env call s
  let total ← weightTotal s.weight s.count
  match call.residual with
  | none => estimateInteger s.weight s.particles.data s.count s.dimension total call.scratch
  | some residual => residual total

/-- The calls of a run. -/
inductive PfCall (Q : Type) [LikelihoodFormat Q] where
  | predict (call : PfPredictCall Q)
  | update (call : PfUpdateCall Q)
  | resample (call : PfResampleCall)

def PfCall.perform (env : PfEnvironment Q) : PfCall Q → Procedure Status (PfState Q) Unit
  | .predict call => pfPredict env call
  | .update call => pfUpdate env call
  | .resample call => do
      let _ ← pfResample env call
      return ()

/-- The states after a successful init and any calls, failing or not. -/
inductive PfReachable (env : PfEnvironment Q) : PfState Q → Prop
  | init (call : PfInitCall Q) {s t : PfState Q} (h : pfInit env call s = (.ok (), t)) :
      PfReachable env t
  | call (call : PfCall Q) {s : PfState Q} (h : PfReachable env s) :
      PfReachable env (call.perform env s).2

end Calls

end Xhive.Particles
