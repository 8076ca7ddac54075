import Xhive.Linears.Basic.WorkKernels
import Xhive.Linears.Decomp.CholeskyFactor
import Xhive.Particles.Filter
import Xhive.Support.Traces

/-!
# The matrix Kalman filter

The Q instantiations of `kalman_matrix_impl.h`.  A call checks the descriptors,
imports its operands into F31 working matrices, computes there, and exports the
new state last.  Outcomes of address, alias and capacity checks are inputs of
the call; the working arrays are disjoint parts of the workspace.
-/

namespace Xhive.Kalman

open Xhive.Support Xhive.Linears Xhive.Filters Xhive.Particles

/-- `filters_kalman_matrix_t` with the elements behind its descriptors. -/
structure KalmanMatrix (Q : Type) where
  estimate : SignalMatrix Q
  covariance : SignalMatrix Q
  estimateCapacity : ℕ
  covarianceCapacity : ℕ

variable {Q : Type}

/-- The state dimension. -/
def KalmanMatrix.dimension (s : KalmanMatrix Q) : ℕ :=
  s.estimate.rows

variable [FilterFormat Q]

/-! ## Checks -/

/-- `shape`: no row count is asked for where `rows` is zero. -/
def kalmanShape (wide : Bool) (matrix : SignalMatrix Q) (rows cols : ℕ) (view : MatrixView) :
    Except Status Unit := do
  view.descriptor
  if matrix.rows = 0 ∨ matrix.cols = 0 ∨ (rows ≠ 0 ∧ matrix.rows ≠ rows) ∨ matrix.cols ≠ cols then
    throw .errorDimension
  let count := linearsSizeMul wide matrix.rows matrix.cols
  let bytes := linearsSizeMul wide count (FilterFormat.scalarBytes Q)
  if count = sizeMax wide ∨ bytes = sizeMax wide then throw .errorSize
  view.elements

/-- Exact symmetry, with a nonnegative diagonal where it is asked for. -/
def kalmanCovariance (matrix : SignalMatrix Q) (checkDiagonal : Bool) : Except Status Unit :=
  forRange 0 matrix.rows () fun i _ => do
    if checkDiagonal = true ∧ (QFormat.widen (matrix.data (i, i))).toInt < 0 then
      throw .errorDomain
    forRange 0 i () fun j _ =>
      if (QFormat.widen (matrix.data (i, j))).toInt ≠ (QFormat.widen (matrix.data (j, i))).toInt
      then .error .errorDomain
      else .ok ()

/-- The verdicts on the addresses of the object and its arrays. -/
structure KalmanViews where
  object : Except Status Unit
  estimate : MatrixView
  covariance : MatrixView
  apart : Except Status Unit

def kalmanState (wide : Bool) (views : KalmanViews) (s : KalmanMatrix Q) : Except Status Unit := do
  views.object
  let n := s.dimension
  let nn := linearsSizeMul wide n n
  if nn = sizeMax wide then throw .errorSize
  if n = 0 ∨ s.estimate.cols ≠ 1 ∨ s.covariance.rows ≠ n ∨ s.covariance.cols ≠ n then
    throw .errorDimension
  if s.estimateCapacity < n ∨ s.covarianceCapacity < nn then throw .errorWorkspace
  kalmanShape wide s.estimate n 1 views.estimate
  kalmanShape wide s.covariance n n views.covariance
  views.apart

/-! ## Working matrices -/

/-- `import`. -/
def importGrid (matrix : SignalMatrix Q) : Grid Int64 :=
  fun x => FilterFormat.load (matrix.data x)

/-- `LINEARS_FIXED_ONE / 2`. -/
def kalmanHalf : Int64 := fixedOne / 2

/-- `K_AVERAGE` of a matrix and its transpose. -/
def symmetrise (n : ℕ) (a : Grid Int64) : Except Status (Grid Int64) := do
  let transposed ← linearsTransposeFixed n n a
  linearsAxpbyFixed n n kalmanHalf a kalmanHalf transposed

/-- The staged export of a block; nothing is stored before its last element. -/
def exportBlock (rows cols : ℕ) (source : Grid Int64) (old : ℕ × ℕ → Q) :
    Except Status (ℕ × ℕ → Q) :=
  fillBlock rows cols old fun i j =>
    checked (FilterFormat.exportFixed (source (i, j)) (some FilterFormat.zero))

/-- A store to the elements of the estimate. -/
def KalmanMatrix.setEstimate (x : ℕ × ℕ → Q) (s : KalmanMatrix Q) : KalmanMatrix Q :=
  { s with estimate := { s.estimate with data := x } }

/-- A store to the elements of the covariance. -/
def KalmanMatrix.setCovariance (p : ℕ × ℕ → Q) (s : KalmanMatrix Q) : KalmanMatrix Q :=
  { s with covariance := { s.covariance with data := p } }

/-- `commit`: both blocks are exported before either is stored. -/
def kalmanCommit (estimate covariance : Grid Int64) :
    Procedure Status (KalmanMatrix Q) Unit := do
  let s ← .read id
  let x ← .attempt (exportBlock s.dimension 1 estimate s.estimate.data)
  let p ← .attempt (exportBlock s.dimension s.dimension covariance s.covariance.data)
  .write (KalmanMatrix.setEstimate x)
  .write (KalmanMatrix.setCovariance p)

/-! ## The calls -/

structure KalmanReset (Q : Type) where
  views : KalmanViews
  estimate : SignalMatrix Q
  covariance : SignalMatrix Q
  estimateView : MatrixView
  covarianceView : MatrixView
  apart : Except Status Unit

def resetChecks (wide : Bool) (call : KalmanReset Q) (s : KalmanMatrix Q) :
    Except Status Unit := do
  kalmanState wide call.views s
  kalmanShape wide call.estimate s.dimension 1 call.estimateView
  kalmanShape wide call.covariance s.dimension s.dimension call.covarianceView
  call.apart
  kalmanCovariance call.covariance true

def kalmanReset (wide : Bool) (call : KalmanReset Q) :
    Procedure Status (KalmanMatrix Q) Unit := do
  let s ← .read id
  .attempt (resetChecks wide call s)
  .write (KalmanMatrix.setEstimate (copyBlock s.dimension 1 call.estimate.data s.estimate.data))
  .write (KalmanMatrix.setCovariance
    (copyBlock s.dimension s.dimension call.covariance.data s.covariance.data))

structure KalmanPredict (Q : Type) where
  views : KalmanViews
  transition : SignalMatrix Q
  processNoise : SignalMatrix Q
  transitionView : MatrixView
  noiseView : MatrixView
  apart : Except Status Unit
  workspace : Except Status Unit

def predictChecks (wide : Bool) (call : KalmanPredict Q) (s : KalmanMatrix Q) :
    Except Status Unit := do
  kalmanState wide call.views s
  kalmanShape wide call.transition s.dimension s.dimension call.transitionView
  kalmanShape wide call.processNoise s.dimension s.dimension call.noiseView
  call.apart
  call.workspace
  kalmanCovariance s.covariance true
  kalmanCovariance call.processNoise true

/-- `F*x`, and `F*P*F^T + Q` averaged with its transpose. -/
def predictValues (n : ℕ) (x p f q : Grid Int64) : Except Status (Grid Int64 × Grid Int64) := do
  let nx ← linearsMulFixed n n 1 f x
  let a ← linearsTransposeFixed n n f
  let b ← linearsMulFixed n n n f p
  let c ← linearsMulFixed n n n b a
  let d ← linearsAddFixed n n c q
  let b ← symmetrise n d
  .ok (nx, b)

def kalmanPredict (wide : Bool) (call : KalmanPredict Q) :
    Procedure Status (KalmanMatrix Q) Unit := do
  let s ← .read id
  .attempt (predictChecks wide call s)
  let next ← .attempt (predictValues s.dimension (importGrid s.estimate) (importGrid s.covariance)
    (importGrid call.transition) (importGrid call.processNoise))
  kalmanCommit next.1 next.2

structure KalmanUpdate (Q : Type) where
  views : KalmanViews
  measurement : SignalMatrix Q
  observation : SignalMatrix Q
  measurementNoise : SignalMatrix Q
  measurementView : MatrixView
  observationView : MatrixView
  noiseView : MatrixView
  apart : Except Status Unit
  workspace : Except Status Unit

/-- The gain and its transpose, from `S*K^T = H*P` with the symmetrised `S`.
`R` is validated by itself: `S` can be positive definite when `R` is not. -/
def updateGain (n m : ℕ) (p h r : Grid Int64) : Except Status (Grid Int64 × Grid Int64) := do
  let _ ← choleskyValues fixedAdapter workingFormat m r
  let ht ← linearsTransposeFixed n m h
  let hp ← linearsMulFixed m n n h p
  let s ← linearsMulFixed m n m hp ht
  let s ← linearsAddFixed m m s r
  let s ← symmetrise m s
  let _ ← choleskyValues fixedAdapter workingFormat m s
  let kt ← solveValues fixedAdapter workingFormat m n s hp
  let k ← linearsTransposeFixed n m kt
  .ok (k, kt)

/-- `x + K*(z - H*x)`. -/
def updateEstimate (n m : ℕ) (x z h k : Grid Int64) : Except Status (Grid Int64) := do
  let hx ← linearsMulFixed m n 1 h x
  let residual ← linearsSubFixed m 1 z hx
  let dx ← linearsMulFixed n m 1 k residual
  linearsAddFixed n 1 x dx

/-- The Joseph form `J*P*J^T + K*R*K^T` with `J = I - K*H`, averaged with its
transpose. -/
def updateCovariance (n m : ℕ) (p h r k kt : Grid Int64) : Except Status (Grid Int64) := do
  let kh ← linearsMulFixed n m n k h
  let j ← linearsSubFixed n n linearsIdentityFixed kh
  let jt ← linearsTransposeFixed n n j
  let jp ← linearsMulFixed n n n j p
  let d ← linearsMulFixed n n n jp jt
  let kr ← linearsMulFixed n m m k r
  let krk ← linearsMulFixed n m n kr kt
  let b ← linearsAddFixed n n d krk
  symmetrise n b

def updateChecks (wide : Bool) (call : KalmanUpdate Q) (s : KalmanMatrix Q) :
    Except Status Unit := do
  kalmanState wide call.views s
  kalmanShape wide call.measurement 0 1 call.measurementView
  kalmanShape wide call.observation call.measurement.rows s.dimension call.observationView
  kalmanShape wide call.measurementNoise call.measurement.rows call.measurement.rows call.noiseView
  call.apart
  call.workspace
  kalmanCovariance s.covariance true
  kalmanCovariance call.measurementNoise false

/-- The new estimate and covariance of an update, from its operands. -/
def updateValues (n m : ℕ) (x p z h r : Grid Int64) :
    Except Status (Grid Int64 × Grid Int64) := do
  let gain ← updateGain n m p h r
  let nx ← updateEstimate n m x z h gain.1
  let a ← updateCovariance n m p h r gain.1 gain.2
  .ok (nx, a)

def kalmanUpdate (wide : Bool) (call : KalmanUpdate Q) :
    Procedure Status (KalmanMatrix Q) Unit := do
  let s ← .read id
  .attempt (updateChecks wide call s)
  let next ← .attempt (updateValues s.dimension call.measurement.rows (importGrid s.estimate)
    (importGrid s.covariance) (importGrid call.measurement) (importGrid call.observation)
    (importGrid call.measurementNoise))
  kalmanCommit next.1 next.2

/-! ## Runs -/

inductive KalmanCall (Q : Type) where
  | reset (call : KalmanReset Q)
  | predict (call : KalmanPredict Q)
  | update (call : KalmanUpdate Q)

def KalmanCall.perform (wide : Bool) : KalmanCall Q → Procedure Status (KalmanMatrix Q) Unit
  | .reset call => kalmanReset wide call
  | .predict call => kalmanPredict wide call
  | .update call => kalmanUpdate wide call

/-- The status of a call and the object after it. -/
def kalmanMachine (Q : Type) [FilterFormat Q] (wide : Bool) :
    Machine (KalmanCall Q) (Except Status Unit) (KalmanMatrix Q) where
  react call s := call.perform wide s

end Xhive.Kalman
