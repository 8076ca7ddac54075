import Xhive.Linears.Decomp.Adapter
import Xhive.Support.Blocks

/-!
# The working type of the unscented kernels

`U_WORK` is a parameter: an arithmetic with an order, a finiteness test and the
conversions the kernels use.  A computed value is checked where the source
checks it.  Rows and blocks are staged whole, so a check that fails leaves no
partial row behind.
-/

namespace Xhive.Ukf

open Xhive.Support Xhive.Linears

/-- The operations of `U_WORK`. -/
structure WorkArith (W : Type) where
  ofInt : ℤ → W
  /-- A power of two as a literal. -/
  exp2 : ℤ → W
  add : W → W → W
  sub : W → W → W
  mul : W → W → W
  div : W → W → W
  abs : W → W
  sqrt : W → W
  less : W → W → Bool
  lessEq : W → W → Bool
  equal : W → W → Bool
  /-- `ukf_isfinite`. -/
  finite : W → Bool

variable {W : Type} (A : WorkArith W)

namespace WorkArith

def zero : W := A.ofInt 0

def one : W := A.ofInt 1

def half : W := A.exp2 (-1)

/-- A value that must be finite. -/
def check (value : W) : Except Status W :=
  if A.finite value then .ok value else .error .errorRange

theorem check_spec (value : W) :
    Ensures (A.check value) (fun checked => checked = value ∧ A.finite value = true)
      fun e => e = .errorRange :=
  Ensures.ite (fun hfinite => ⟨rfl, hfinite⟩) fun _ => rfl

/-- A row that must be finite. -/
def finiteRow (count : ℕ) (value : ℕ → W) : Except Status (ℕ → W) := do
  forRange 0 count () fun j _ =>
    if A.finite (value j) then .ok () else .error .errorRange
  .ok value

/-- A block that must be finite. -/
def finiteGrid (rows cols : ℕ) (value : Grid W) : Except Status (Grid W) := do
  forRange 0 rows () fun i _ => forRange 0 cols () fun j _ =>
    if A.finite (value (i, j)) then .ok () else .error .errorRange
  .ok value

/-- A sum whose partial sums must be finite. -/
def runningSum (count : ℕ) (term : ℕ → W) : Except Status W :=
  forRange 0 count A.zero fun i sum => A.check (A.add sum (term i))

/-- An array that is written before it is read. -/
def blank : Grid W := fun _ => A.zero

end WorkArith

/-! ## Rows -/

def gridRow (grid : Grid W) (i : ℕ) : ℕ → W := fun j => grid (i, j)

/-- `commit`: the first `k` values of a row. -/
def setRow (k i : ℕ) (row : ℕ → W) (grid : Grid W) : Grid W :=
  fun p => if p.1 = i ∧ p.2 < k then row p.2 else grid p

/-! ## Sigma weights -/

/-- `filters_ukf_f32_weights_t` and `filters_ukf_f64_weights_t`. -/
structure UkfWeights (W : Type) where
  scale : W
  mean0 : W
  covariance0 : W
  other : W

/-- `weights`. -/
def ukfWeights (states : ℕ) (alpha beta kappa : W) : Except Status (UkfWeights W) :=
  if states = 0 then .error .errorDimension
  else if ¬(A.finite alpha ∧ A.finite beta ∧ A.finite kappa) then .error .errorRange
  else if ¬A.less A.zero alpha then .error .errorDomain
  else
    let n := A.ofInt states
    let alphaSquared := A.mul alpha alpha
    let scale := A.mul alphaSquared (A.add n kappa)
    if ¬A.finite scale then .error .errorRange
    else if ¬A.less A.zero scale then .error .errorDomain
    else
      let mean0 := A.div (A.sub scale n) scale
      let covariance0 := A.add (A.sub (A.add mean0 A.one) alphaSquared) beta
      let other := A.div A.half scale
      if ¬(A.finite mean0 ∧ A.finite covariance0 ∧ A.finite other) then .error .errorRange
      else .ok ⟨scale, mean0, covariance0, other⟩

/-- `ukf_weights_valid`. -/
def ukfWeightsValid (weights : UkfWeights W) : Except Status Unit :=
  if ¬(A.finite weights.scale ∧ A.finite weights.mean0 ∧ A.finite weights.covariance0 ∧
      A.finite weights.other) then .error .errorRange
  else if A.less A.zero weights.scale then .ok () else .error .errorDomain

/-! ## Cholesky -/

/-- One element of the factor, from the elements before it. -/
def ukfCholeskyEntry (a : Grid W) (i j : ℕ) (lower : Grid W) : Except Status W := do
  let value ← forRange 0 j (a (i, j)) fun k value => do
    let product ← A.check (A.mul (lower (i, k)) (lower (j, k)))
    A.check (A.sub value product)
  if i = j then
    if A.less A.zero value then .ok (A.sqrt value) else .error .errorNotPositiveDefinite
  else A.check (A.div value (lower (j, j)))

/-- The row up to the diagonal; exact zeros above it. -/
def ukfCholeskyRow (n : ℕ) (a : Grid W) (i : ℕ) (lower : Grid W) : Except Status (Grid W) := do
  let lower ← fillRange 0 (i + 1) (fun j => (i, j)) lower (ukfCholeskyEntry A a i)
  .ok fun p => if p.1 = i ∧ i < p.2 ∧ p.2 < n then A.zero else lower p

/-- `ukf_cholesky`. -/
def ukfCholesky (n : ℕ) (a : Grid W) : Except Status (Grid W) :=
  forRange 0 n A.blank (ukfCholeskyRow A n a)

end Xhive.Ukf
