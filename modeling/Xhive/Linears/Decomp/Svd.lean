import Xhive.Linears.Decomp.Lu

/-!
# Column-cyclic one-sided Jacobi SVD

The kernels of `decomp_svd_template.inc` over any adapter.  `b` converges to the
scaled left factor while `w` accumulates the rotations; a wide input is
transposed first.
-/

namespace Xhive.Linears

open Xhive.Support

section Kernels

variable {S A Raw : Type} [LinearOrder S] (D : Adapter S A) (F : Format Raw S)

def svdCorrelation (rows p q : ℕ) (normP normQ : S) (b : Grid S) : Except Status S :=
  D.sumTerms (fun row => do
    let left ← D.div (b (row, p)) normP
    let right ← D.div (b (row, q)) normQ
    .ok (left, right)) rows

/-! ## Rotations -/

/-- `delta` and `gamma` of the rotation, at the scale of the larger norm. -/
def svdDeltas (normP normQ correlation : S) : Except Status (S × S) := do
  let scale := if normQ < normP then normP else normQ
  let p ← D.div normP scale
  let q ← D.div normQ scale
  let alpha ← D.mul p p
  let beta ← D.mul q q
  let delta ← D.sub beta alpha
  let gamma ← D.mul p q
  let two ← D.constant 2
  let gamma ← D.mul gamma correlation
  let gamma ← D.mul two gamma
  .ok (delta, gamma)

/-- The magnitude of the smaller root of the rotation's quadratic. -/
def svdTangent (delta gamma : S) : Except Status S := do
  let absDelta ← D.abs delta
  let absGamma ← D.abs gamma
  let h := if absGamma < absDelta then absDelta else absGamma
  let p ← D.div delta h
  let q ← D.div gamma h
  let alpha ← D.mul p p
  let beta ← D.mul q q
  let t ← D.add alpha beta
  let t ← D.sqrt t
  let t ← D.mul h t
  let t ← D.add absDelta t
  D.div absGamma t

def svdSigned (delta correlation t : S) : Except Status S :=
  if decide (delta < D.zero) ≠ decide (correlation < D.zero) then D.neg t else .ok t

def svdAngle (t : S) : Except Status (S × S) := do
  let c ← D.mul t t
  let c ← D.add D.one c
  let c ← D.sqrt c
  let c ← D.div D.one c
  let s ← D.mul t c
  .ok (c, s)

/-- Cosine and sine of the rotation. -/
def svdRotation (normP normQ correlation : S) : Except Status (S × S) := do
  let deltas ← svdDeltas D normP normQ correlation
  let t ← svdTangent D deltas.1 deltas.2
  let t ← svdSigned D deltas.1 correlation t
  svdAngle D t

/-- One row of a rotation, with one rounding per entry in the fixed formats. -/
def svdRotatePair (cosine sine oldP oldQ : S) : Except Status (S × S) :=
  if D.fixed then do
    let first ← D.mac D.empty cosine oldP
    let first ← D.msu first sine oldQ
    let second ← D.mac D.empty sine oldP
    let second ← D.mac second cosine oldQ
    let newP ← D.accumToFixed first
    let newQ ← D.accumToFixed second
    .ok (newP, newQ)
  else do
    let cp ← D.mul cosine oldP
    let sq ← D.mul sine oldQ
    let sp ← D.mul sine oldP
    let cq ← D.mul cosine oldQ
    let newP ← D.sub cp sq
    let newQ ← D.add sp cq
    .ok (newP, newQ)

/-- The rotated array and whether any entry changed. -/
def svdRotateColumns (rows p q : ℕ) (cosine sine : S) (b : Grid S) :
    Except Status (Grid S × Bool) :=
  forRange 0 rows (b, false) fun row state => do
    let pair ← svdRotatePair D cosine sine (state.1 (row, p)) (state.1 (row, q))
    .ok (Function.update (Function.update state.1 (row, p) pair.1) (row, q) pair.2,
      state.2 || decide (pair.1 ≠ state.1 (row, p) ∨ pair.2 ≠ state.1 (row, q)))

/-! ## Completion of zero columns -/

/-- Remove the component of column `column` along column `previous`. -/
def svdProject (rows column previous : ℕ) (b : Grid S) : Except Status (Grid S) := do
  let projection ← D.dot (fun row => b (row, previous)) (fun row => b (row, column)) rows
  fillRange 0 rows (fun row => (row, column)) b fun row b =>
    D.subProduct (b (row, column)) projection (b (row, previous))

/-- Coordinate vector `coordinate`, after two passes of modified Gram--Schmidt. -/
def svdResidual (rows column coordinate : ℕ) (b : Grid S) : Except Status (Grid S) :=
  forRange 0 2 (fun x => if x.2 = column then
      (if x.1 = coordinate then D.one else D.zero) else b x) fun _ b =>
    forRange 0 column b fun previous b => svdProject D rows column previous b

/-- Accept the first coordinate whose residual is long enough. -/
def svdTryCoordinate (rows column : ℕ) (minimumNorm : S) (coordinate : ℕ)
    (state : Grid S × Bool) : Except Status (Grid S × Bool) :=
  if state.2 then .ok state
  else do
    let b ← svdResidual D rows column coordinate state.1
    let norm ← D.norm (fun row => b (row, column)) rows
    if minimumNorm ≤ norm then do
      let b ← fillRange 0 rows (fun row => (row, column)) b fun row b =>
        D.div (b (row, column)) norm
      .ok (b, true)
    else .ok (b, false)

/-- `1 / (2 * sqrt(rows))`. -/
def svdMinimumNorm (rows : ℕ) : Except Status S := do
  let dimension ← D.constant rows
  let two ← D.constant 2
  let dimension ← D.sqrt dimension
  let dimension ← D.mul two dimension
  D.div D.one dimension

def svdCompleteColumn (rows column : ℕ) (b : Grid S) : Except Status (Grid S) := do
  let minimumNorm ← svdMinimumNorm D rows
  let state ← forRange 0 rows (b, false) (svdTryCoordinate D rows column minimumNorm)
  if state.2 then .ok state.1 else .error .errorNoConvergence

/-! ## Sweeps -/

/-- The arrays of `svd_factor`.  `pending` is its sticky status: `D_ABS` of a
correlation is the one operation whose failure is not returned at once. -/
structure SvdState (S : Type) where
  b : Grid S
  w : Grid S
  norms : ℕ → S
  pending : Status
  rotated : Bool

/-- The column norms and the largest of them.  `norm` does nothing but return
the status when one is pending. -/
def svdNorms (rows columns : ℕ) (s : SvdState S) : Except Status ((ℕ → S) × S) :=
  forRange 0 columns (s.norms, D.zero) fun p state =>
    if s.pending ≠ .ok then .error s.pending
    else do
      let norm ← D.norm (fun row => s.b (row, p)) rows
      .ok (Function.update state.1 p norm, if state.2 < norm then norm else state.2)

/-- Columns whose norm is at most `cutoff` become zero. -/
def svdCutoff (columns : ℕ) (cutoff : S) (s : SvdState S) : SvdState S :=
  { s with
    b := fun x => if x.2 < columns ∧ s.norms x.2 ≤ cutoff then D.zero else s.b x
    norms := fun p => if p < columns ∧ s.norms p ≤ cutoff then D.zero else s.norms p }

/-- Rotate columns `p` and `q` and refresh their norms.  Fixed rounding can
erase a required rotation. -/
def svdRotateStep (rows columns p q : ℕ) (correlation : S) (s : SvdState S) :
    Except Status (SvdState S) := do
  let angle ← svdRotation D (s.norms p) (s.norms q) correlation
  if D.fixed = true ∧ angle.2 = D.zero then .error .errorNoConvergence
  else do
    let b ← svdRotateColumns D rows p q angle.1 angle.2 s.b
    if D.fixed = true ∧ b.2 = false then .error .errorNoConvergence
    else do
      let w ← svdRotateColumns D columns p q angle.1 angle.2 s.w
      let normP ← D.norm (fun row => b.1 (row, p)) rows
      let normQ ← D.norm (fun row => b.1 (row, q)) rows
      .ok
        { b := b.1
          w := w.1
          norms := Function.update (Function.update s.norms p normP) q normQ
          pending := .ok
          rotated := true }

/-- The pair `(p, q)` of a sweep. -/
def svdPair (rows columns : ℕ) (tolerance : S) (last : Bool) (p q : ℕ) (s : SvdState S) :
    Except Status (SvdState S) :=
  if s.norms p = D.zero ∨ s.norms q = D.zero then .ok s
  else do
    let correlation ← svdCorrelation D rows p q (s.norms p) (s.norms q) s.b
    let magnitude : S × Status := match D.abs correlation with
      | .ok magnitude => (magnitude, .ok)
      | .error status => (D.zero, status)
    if magnitude.1 ≤ tolerance then .ok { s with pending := magnitude.2 }
    else if last then .error .errorNoConvergence
    else svdRotateStep D rows columns p q correlation s

/-- One sweep over the columns; `last` is `sweep == max_sweeps`. -/
def svdSweep (rows columns : ℕ) (tolerance : S) (last : Bool) (s : SvdState S) :
    Except Status (SvdState S) := do
  let norms ← svdNorms D rows columns s
  let cutoff ← D.mul norms.2 tolerance
  forRange 0 columns (svdCutoff D columns cutoff { s with norms := norms.1, rotated := false })
    fun p s => forRange (p + 1) columns s fun q s => svdPair D rows columns tolerance last p q s

/-- Sweeps until one makes no rotation.  The last sweep makes none, so the inner
test is always passed. -/
def svdSweeps (rows columns : ℕ) (tolerance : S) (maxSweeps sweep : ℕ) (s : SvdState S) :
    Except Status (SvdState S) := do
  let s ← svdSweep D rows columns tolerance (sweep == maxSweeps) s
  if s.rotated then
    if sweep < maxSweeps then svdSweeps rows columns tolerance maxSweeps (sweep + 1) s
    else .error .errorNoConvergence
  else .ok s
termination_by maxSweeps - sweep

/-! ## Sorting and normalisation -/

def svdLargest (columns p : ℕ) (norms : ℕ → S) : ℕ :=
  foldRange (p + 1) columns p fun q largest => if norms largest < norms q then q else largest

/-- Bring the largest remaining norm to position `p`, with its columns. -/
def svdSortStep (columns p : ℕ) (s : SvdState S) : SvdState S :=
  let largest := svdLargest columns p s.norms
  if largest ≠ p then
    { s with
      norms := fun j => s.norms (Equiv.swap p largest j)
      b := fun x => s.b (x.1, Equiv.swap p largest x.2)
      w := fun x => s.w (x.1, Equiv.swap p largest x.2) }
  else s

def svdSort (columns : ℕ) (s : SvdState S) : SvdState S :=
  foldRange 0 columns s (svdSortStep columns)

/-- Column `p` of the left factor.  Completing a zero column overwrites a
pending status; dividing a column returns it. -/
def svdFinishColumn (rows p : ℕ) (s : SvdState S) : Except Status (SvdState S) :=
  if s.norms p = D.zero then do
    let b ← svdCompleteColumn D rows p s.b
    .ok { s with b := b, pending := .ok }
  else if s.pending ≠ .ok then .error s.pending
  else do
    let b ← fillRange 0 rows (fun row => (row, p)) s.b fun row b =>
      D.div (b (row, p)) (s.norms p)
    .ok { s with b := b }

def svdFactor (rows columns maxSweeps : ℕ) (tolerance : S) (b w : Grid S) :
    Except Status (SvdState S) := do
  let s ← svdSweeps D rows columns tolerance maxSweeps 0
    { b := b, w := w, norms := fun _ => D.zero, pending := .ok, rotated := false }
  forRange 0 columns (svdSort columns s) fun p s => svdFinishColumn D rows p s

/-! ## The public operation -/

/-- The largest magnitude of the input. -/
def svdScale (rows columns : ℕ) (b : Grid S) : Except Status S :=
  forRange 0 rows D.zero fun row scale => forRange 0 columns scale fun column scale => do
    let magnitude ← D.abs (b (row, column))
    .ok (if scale < magnitude then magnitude else scale)

def svdScaled (rows columns : ℕ) (scale : S) (b : Grid S) : Except Status (Grid S) :=
  if scale = D.zero then .ok b
  else forRange 0 rows b fun row b =>
    fillRange 0 columns (fun column => (row, column)) b fun column b =>
      D.div (b (row, column)) scale

/-- `8 * rows * epsilon`. -/
def svdTolerance (rows : ℕ) : Except Status S := do
  let tolerance ← D.constant rows
  let tolerance ← D.mul tolerance D.epsilon
  let eight ← D.constant 8
  D.mul eight tolerance

/-- What `svd` writes on success. -/
structure SvdOutput (Raw : Type) where
  u : Grid Raw
  singularValues : ℕ → Raw
  v : Grid Raw

/-- The factors of a `rows`-by-`columns` input with `columns ≤ rows`. -/
def svdTall (rows columns maxSweeps : ℕ) (b : Grid S) : Except Status (SvdState S) := do
  let scale ← svdScale D rows columns b
  let b ← svdScaled D rows columns scale b
  let tolerance ← svdTolerance D rows
  if D.one ≤ tolerance then .error .errorNoConvergence
  else do
    let s ← svdFactor D rows columns maxSweeps tolerance b (identityGrid D)
    let norms ← fillRange 0 columns id s.norms fun p norms => D.mul (norms p) scale
    .ok { s with norms := norms }

/-- Preflight every output block before writing any output. -/
def svdStore (m n columns : ℕ) (left right : Grid S) (norms : ℕ → S) :
    Except Status (SvdOutput Raw) := do
  F.checkBlock D.zero left m columns
  F.checkBlock D.zero (fun x => norms x.1) columns 1
  F.checkBlock D.zero right n columns
  .ok
    { u := fun x => F.store (left x)
      singularValues := fun p => F.store (norms p)
      v := fun x => F.store (right x) }

/-- `svd` after its validation.  An empty matrix has no element to write. -/
def svdValues (m n maxSweeps : ℕ) (a : Grid Raw) : Except Status (SvdOutput Raw) :=
  if m = 0 ∨ n = 0 then
    .ok
      { u := fun _ => F.store D.zero
        singularValues := fun _ => F.store D.zero
        v := fun _ => F.store D.zero }
  else if m < n then do
    let s ← svdTall D n m maxSweeps fun x => F.load (a (x.2, x.1))
    svdStore D F m n m s.w s.b s.norms
  else do
    let s ← svdTall D m n maxSweeps fun x => F.load (a x)
    svdStore D F m n n s.b s.w s.norms

end Kernels

end Xhive.Linears
