import Xhive.Particles.Gaussian

/-!
# Perturbation and triangular solution on raw integers

The rest of `pf_q_gaussian_impl.h`: the conversion of a vector and of a factor
to raw integers, the dot products, and the solution of a triangular system with
its error bounds, its norm and its variance.  A result is an integer with its
exponent; its conversion to the working type is left out.

The q15 build takes native 64-bit sums where a bound allows it and 128-bit sums
elsewhere; the q31 build has the 128-bit sums alone.  `SolverPaths` holds what
the two differ in.
-/

namespace Xhive.Particles

open Xhive.Support Xhive.Linears

/-- Why a computation ends early: it returns zero, or it tries a smaller scale. -/
inductive SolverExit where
  | refused
  | reducePrecision
  deriving DecidableEq

def orStop {α : Type} (exit : SolverExit) : Option α → Except SolverExit α
  | some value => .ok value
  | none => .error exit

/-- `if (c && !add_unsigned(sum, from_u64(value)))`. -/
def addWhen (exit : SolverExit) (c : Bool) (sum : Accum) (value : UInt64) :
    Except SolverExit Accum :=
  if c then orStop exit (addUnsigned sum ⟨value, 0⟩) else .ok sum

/-! ## Conversion of the q15 build -/

/-- `ieee_t`. -/
structure IeeeParts where
  absolute : UInt64
  mantissa : UInt64
  exponent : ℤ
  negative : Bool

def ieeeRead (bits : UInt32) : Option IeeeParts :=
  let encoded := (bits >>> 23) &&& 0xff
  if encoded = 0xff then none
  else
    let fraction := bits &&& 0x007fffff
    some
      { absolute := (bits &&& 0x7fffffff).toUInt64
        mantissa := (if encoded ≠ 0 then fraction ||| 0x00800000 else fraction).toUInt64
        exponent := if encoded ≠ 0 then (encoded.toNat : ℤ) - 127 else -126
        negative := bits >>> 31 != 0 }

def ieeeFloor (absolute : UInt64) : ℤ :=
  let encoded := absolute >>> 23
  if encoded ≠ 0 then (encoded.toNat : ℤ) - 127 else -150 + filtersQBitLength absolute

/-- The range of a raw value. -/
def signRaw (negative : Bool) (magnitude : UInt64) : Option Int64 :=
  if (!negative ∧ magnitude > 0x7fffffff) ∨ magnitude > 0x80000000 then none
  else if negative then some (if magnitude = 0x80000000 then -0x80000000 else -magnitude.toInt64)
  else some magnitude.toInt64

/-- The raw value at a scale, and whether it is exact. -/
def convertIeee (value : UInt32) (exponent : ℤ) : Option (Bool × Int64) := do
  let parts ← ieeeRead value
  if parts.mantissa = 0 then some (true, 0)
  else
    let shift := 30 - exponent + parts.exponent - 23
    if shift ≥ 0 then
      if shift ≥ 64 ∨ parts.mantissa > 0x80000000 >>> UInt64.ofNat shift.toNat then none
      else
        let raw ← signRaw parts.negative (parts.mantissa <<< UInt64.ofNat shift.toNat)
        some (true, raw)
    else
      let right := (-shift).toNat
      if right ≥ 64 then
        let raw ← signRaw parts.negative 0
        some (false, raw)
      else
        let raw ← signRaw parts.negative ((parts.mantissa >>> UInt64.ofNat right) +
          ((parts.mantissa >>> UInt64.ofNat (right - 1)) &&& 1))
        some (parts.mantissa &&& ((1 <<< UInt64.ofNat right) - 1) = 0, raw)

/-- One raw value goes to its slot; the largest magnitude is kept. -/
def storeRaw (s : (ℕ → UInt64) × GaussianScale) (slot : ℕ) (exact : Bool) (value : Int64) :
    (ℕ → UInt64) × GaussianScale :=
  let magnitude := (pfQMagnitude value).toUInt32
  (Function.update s.1 slot (GaussianFormat.rawStore Int16 value),
    { s.2 with
      exact := s.2.exact && exact
      maximum := if magnitude > s.2.maximum then magnitude else s.2.maximum })

def vectorPrepare (values : ℕ → UInt32) (count : ℕ) (raw : ℕ → UInt64) :
    Except SolverExit ((ℕ → UInt64) × GaussianScale) := do
  let maximum ← forRange 0 count (0 : UInt64) fun i maximum => do
    let parts ← orStop .refused (ieeeRead (values i))
    .ok (if parts.absolute > maximum then parts.absolute else maximum)
  let exponent := if maximum ≠ 0 then ieeeFloor maximum else 0
  forRange 0 count (raw, { exponent, exact := true, diagonal := false, maximum := 0 })
    fun i s => do
      let converted ← orStop .refused (convertIeee (values i) exponent)
      .ok (storeRaw s i converted.1 converted.2)

/-- The largest magnitude of a factor, and whether the factor is diagonal. -/
def gaussianScan (lower : ℕ → UInt32) (k : ℕ) : Except SolverExit (UInt64 × Bool) :=
  forRange 0 k (0, true) fun i s =>
    forRange 0 (i + 1) s fun j s => do
      let parts ← orStop .refused (ieeeRead (lower (i * k + j)))
      if i = j ∧ (parts.negative ∨ parts.absolute = 0) then .error .refused
      else
        .ok (if parts.absolute > s.1 then parts.absolute else s.1,
          if i ≠ j ∧ parts.absolute ≠ 0 then false else s.2)

/-- The raw value of a cell; the upper triangle is zero. -/
def convertCell (lower : ℕ → UInt32) (k : ℕ) (exponent : ℤ) (i j : ℕ) :
    Except SolverExit (Bool × Int64) :=
  if j ≤ i then orStop .refused (convertIeee (lower (i * k + j)) exponent) else .ok (true, 0)

def gaussianPrepare (lower : ℕ → UInt32) (k : ℕ) (raw : ℕ → UInt64) :
    Except SolverExit ((ℕ → UInt64) × GaussianScale) := do
  let scan ← gaussianScan lower k
  if scan.1 = 0 then .error .refused
  else
    let exponent := ieeeFloor scan.1
    forRange 0 k (raw, { exponent, exact := true, diagonal := scan.2, maximum := 0 }) fun i s =>
      forRange 0 k s fun j s => do
        let converted ← convertCell lower k exponent i j
        if i = j ∧ (!converted.1 ∨ converted.2 ≤ 0) then .error .refused
        else .ok (storeRaw s (i * k + j) converted.1 converted.2)

section Solver

variable (Q : Type) [GaussianFormat Q]

/-! ## Dot products -/

/-- One product, and what the rounding of its factors may have cost. -/
def dotTerm (a : ℕ → UInt64) (sa : GaussianScale) (b : ℕ → UInt64) (sb : GaussianScale) (i : ℕ)
    (s : GaussianWide × Accum) : Except SolverExit (GaussianWide × Accum) := do
  let av := GaussianFormat.rawLoad Q (a i)
  let bv := GaussianFormat.rawLoad Q (b i)
  let am := pfQMagnitude av
  let bm := pfQMagnitude bv
  let sum ← orStop .refused
    (addWide s.1 (GaussianFormat.rawProduct Q am bm) (decide (av < 0) != decide (bv < 0)))
  let error ← addWhen .refused (!sb.exact) s.2 am
  let error ← addWhen .refused (!sa.exact) error bm
  let error ← addWhen .refused (!sa.exact && !sb.exact) error 1
  .ok (sum, error)

/-- The exponent at which the certificate of a dot product is read. -/
def dotExponent (sa sb : GaussianScale) : ℤ :=
  sa.exponent + sb.exponent - 2 * GaussianFormat.gaussianF Q + GaussianFormat.gaussianK Q

def dotWide (a : ℕ → UInt64) (sa : GaussianScale) (b : ℕ → UInt64) (sb : GaussianScale)
    (count : ℕ) : Except SolverExit GaussianWide := do
  let s ← forRange 0 count (⟨⟨0, 0⟩, false⟩, ⟨0, 0⟩) (dotTerm Q a sa b sb)
  if scaledLeOne s.2 (dotExponent Q sa sb) then .ok s.1 else .error .refused

/-! ## A triangular system -/

/-- The arguments of a solution that no row changes. -/
structure SolverInput where
  a : ℕ → UInt64
  sa : GaussianScale
  b : ℕ → UInt64
  sb : GaussianScale
  k : ℕ

/-- What a pass has solved, with the largest magnitudes that the q15 build keeps. -/
structure SolverState where
  z : ℕ → UInt64
  error : ℕ → UInt64
  zmax : UInt64
  emax : UInt64

/-- The right side of a row with the solved unknowns subtracted. -/
def numeratorWide (input : SolverInput) (fractional i : ℕ) (s : SolverState) :
    Except SolverExit GaussianWide := do
  let bv := GaussianFormat.rawLoad Q (input.b i)
  let product ← orStop .reducePrecision (shiftLeftChecked ⟨pfQMagnitude bv, 0⟩ fractional)
  let numerator ← orStop .reducePrecision (addWide ⟨⟨0, 0⟩, false⟩ product (bv < 0))
  if input.sa.diagonal then .ok numerator
  else
    forRange 0 i numerator fun j numerator =>
      let av := GaussianFormat.rawLoad Q (input.a (i * input.k + j))
      let zv := GaussianFormat.rawLoad Q (s.z j)
      orStop .reducePrecision
        (addWide numerator (GaussianFormat.rawProduct Q (pfQMagnitude av) (pfQMagnitude zv))
          (av ≠ 0 ∧ zv ≠ 0 ∧ !(decide (av < 0) != decide (zv < 0))))

/-- The part of an inexact factor in the error of a row. -/
def addUnknown (exact : Bool) (propagated : Accum) (zv : Int64) (ev : UInt64) :
    Except SolverExit Accum :=
  if exact then .ok propagated
  else do
    let zbound ← orStop .reducePrecision (shiftLeftChecked ⟨pfQMagnitude zv, 0⟩ 32)
    let zbound ← orStop .reducePrecision (addUnsigned zbound ⟨ev, 0⟩)
    orStop .reducePrecision (addUnsigned propagated zbound)

/-- The error of a row before the division by its pivot. -/
def propagatedWide (input : SolverInput) (fractional i : ℕ) (s : SolverState) :
    Except SolverExit Accum :=
  let delta : Accum := if input.sb.exact then ⟨0, 0⟩ else expShl ⟨1, 0⟩ (fractional + 32)
  if input.sa.diagonal then .ok delta
  else
    forRange 0 i delta fun j propagated => do
      let av := GaussianFormat.rawLoad Q (input.a (i * input.k + j))
      let zv := GaussianFormat.rawLoad Q (s.z j)
      let ev := GaussianFormat.errorLoad Q (s.error j)
      let propagated ← addUnknown input.sa.exact propagated zv ev
      orStop .reducePrecision
        (addUnsigned propagated (GaussianFormat.rawProduct Q (pfQMagnitude av) ev))

/-- The sums of the squares and of the magnitudes, where the diagonal is exact. -/
def magnitudesWide (input : SolverInput) (s : SolverState) : Except SolverExit (Accum × Accum) :=
  forRange 0 input.k (⟨0, 0⟩, ⟨0, 0⟩) fun i sums => do
    let zm := pfQMagnitude (GaussianFormat.rawLoad Q (s.z i))
    let norm ← orStop .reducePrecision (addUnsigned sums.1 (GaussianFormat.rawProduct Q zm zm))
    let magnitudes ← orStop .reducePrecision (addUnsigned sums.2 ⟨zm, 0⟩)
    .ok (norm, magnitudes)

/-- The sums of the squares and of their error bounds. -/
def momentsWide (input : SolverInput) (s : SolverState) : Except SolverExit (Accum × Accum) :=
  forRange 0 input.k (⟨0, 0⟩, ⟨0, 0⟩) fun i sums => do
    let zm := pfQMagnitude (GaussianFormat.rawLoad Q (s.z i))
    let ev := GaussianFormat.errorLoad Q (s.error i)
    let errorSquare := GaussianFormat.rawProduct Q ev ev
    let norm ← orStop .reducePrecision (addUnsigned sums.1 (GaussianFormat.rawProduct Q zm zm))
    let cross ← orStop .reducePrecision
      (shiftLeftChecked (GaussianFormat.rawProduct Q zm ev) 1)
    let variance ← orStop .reducePrecision (addUnsigned sums.2 cross)
    let term ← addWhen .reducePrecision (errorSquare.low &&& 0xffffffff ≠ 0)
      (shiftRightWide errorSquare 32) 1
    let variance ← orStop .reducePrecision (addUnsigned variance term)
    .ok (norm, variance)

/-- The sums of a build. -/
structure SolverPaths where
  dot : (ℕ → UInt64) → GaussianScale → (ℕ → UInt64) → GaussianScale → ℕ →
    Except SolverExit GaussianWide
  numerator : SolverInput → ℕ → ℕ → SolverState → Except SolverExit GaussianWide
  propagated : SolverInput → ℕ → ℕ → SolverState → Except SolverExit Accum
  magnitudes : SolverInput → SolverState → Except SolverExit (Accum × Accum)
  moments : SolverInput → SolverState → Except SolverExit (Accum × Accum)

/-- The 128-bit sums. -/
def widePaths : SolverPaths where
  dot := dotWide Q
  numerator := numeratorWide Q
  propagated := propagatedWide Q
  magnitudes := magnitudesWide Q
  moments := momentsWide Q

/-- `perturb_try`: a factor is applied to a draw. -/
def perturbTry (paths : SolverPaths) (input : SolverInput) (out : ℕ → GaussianWide) :
    Except SolverExit (ℕ → GaussianWide) :=
  forRange 0 input.k out fun i out => do
    let row := fun j => input.a (i * input.k + if input.sa.diagonal then i + j else j)
    let vector := fun j => input.b (if input.sa.diagonal then i + j else j)
    let value ← paths.dot row input.sa vector input.sb (if input.sa.diagonal then 1 else i + 1)
    .ok (Function.update out i value)

/-- A quotient with its sign, in the range of a raw value. -/
def solvedRaw (negative : Bool) (quotient : UInt64) : Except SolverExit Int64 :=
  if !negative then
    if quotient > GaussianFormat.rawMax Q then .error .reducePrecision
    else .ok quotient.toInt64
  else if quotient > GaussianFormat.rawMax Q + 1 then .error .reducePrecision
  else
    .ok (if quotient = GaussianFormat.rawMax Q + 1 then -(GaussianFormat.rawMax Q).toInt64 - 1
      else -quotient.toInt64)

/-- The error of a row; an exact diagonal has none. -/
def solvedError (paths : SolverPaths) (input : SolverInput) (fractional i : ℕ) (s : SolverState) :
    Except SolverExit UInt64 :=
  if input.sa.diagonal && input.sb.exact then .ok 0
  else do
    let propagated ← paths.propagated input fractional i s
    let quotient ← orStop .reducePrecision
      (rowDivide Q propagated (GaussianFormat.rawLoad Q (input.a (i * input.k + i))) false
        (rowReciprocal Q input.a input.k i))
    if quotient > GaussianFormat.errorMax Q - 0x80000000 then .error .reducePrecision
    else .ok quotient

/-- The first half of a row: its unknown. -/
def rowUnknown (paths : SolverPaths) (input : SolverInput) (fractional i : ℕ)
    (s : SolverState) : Except SolverExit SolverState := do
  let pivot := GaussianFormat.rawLoad Q (input.a (i * input.k + i))
  if pivot ≤ 0 then .error .refused
  else
    let numerator ← paths.numerator input fractional i s
    let quotient ← orStop .reducePrecision
      (rowDivide Q numerator.magnitude pivot true (rowReciprocal Q input.a input.k i))
    let raw ← solvedRaw Q numerator.negative quotient
    let slot := GaussianFormat.rawStore Q raw
    let magnitude := pfQMagnitude (GaussianFormat.rawLoad Q slot)
    .ok { s with
      z := Function.update s.z i slot
      zmax := if magnitude > s.zmax then magnitude else s.zmax }

/-- The second half of a row: the error of its unknown. -/
def rowError (paths : SolverPaths) (input : SolverInput) (fractional i : ℕ)
    (s : SolverState) : Except SolverExit SolverState := do
  let quotient ← solvedError Q paths input fractional i s
  let bound := quotient + 0x80000000
  .ok { s with
    error := Function.update s.error i (GaussianFormat.errorStore Q bound)
    emax := if bound > s.emax then bound else s.emax }

def gaussianRow (paths : SolverPaths) (input : SolverInput) (fractional i : ℕ)
    (s : SolverState) : Except SolverExit SolverState := do
  let s ← rowUnknown Q paths input fractional i s
  rowError Q paths input fractional i s

/-- The norm and the variance of a solution. -/
def gaussianSums (paths : SolverPaths) (input : SolverInput) (s : SolverState) :
    Except SolverExit (Accum × Accum) :=
  if input.sa.diagonal && input.sb.exact then do
    let sums ← paths.magnitudes input s
    let scaled ← orStop .reducePrecision (shiftLeftChecked sums.2 32)
    let variance ← orStop .reducePrecision
      (addUnsigned scaled (expShl ⟨UInt64.ofNat input.k, 0⟩ 30))
    .ok (sums.1, variance)
  else paths.moments input s

/-- What a solution returns: its norm is read at the scale of its last pass. -/
structure GaussianSolution where
  state : SolverState
  norm : Accum
  fractional : ℕ

/-- One pass at a scale of `z`. -/
def gaussianPass (paths : SolverPaths) (input : SolverInput) (z error : ℕ → UInt64)
    (fractional : ℕ) : Except SolverExit GaussianSolution := do
  let s ← forRange 0 input.k { z, error, zmax := 0, emax := 0 }
    (gaussianRow Q paths input fractional)
  let sums ← gaussianSums paths input s
  if scaledLeOne sums.2
      (2 * (input.sb.exponent - input.sa.exponent - fractional) - 33 + GaussianFormat.gaussianK Q)
  then .ok ⟨s, sums.1, fractional⟩
  else .error .refused

/-- The passes from a scale down; each writes every slot before it reads it. -/
def gaussianFrom (paths : SolverPaths) (input : SolverInput) (z error : ℕ → UInt64) :
    ℕ → Except SolverExit GaussianSolution
  | 0 => gaussianPass Q paths input z error 0
  | fractional + 1 =>
      match gaussianPass Q paths input z error (fractional + 1) with
      | .error .reducePrecision => gaussianFrom paths input z error fractional
      | result => result

def gaussianTry (paths : SolverPaths) (input : SolverInput) (z error : ℕ → UInt64) :
    Except SolverExit GaussianSolution :=
  gaussianFrom Q paths input z error (GaussianFormat.gaussianF Q)

end Solver

/-! ## The native sums of the q15 build -/

/-- `(int32_t)raw_load`. -/
def nativeRaw (slot : UInt64) : Int64 :=
  (GaussianFormat.rawLoad Int16 slot).toInt32.toInt64

/-- `(uint32_t)pf_q_magnitude`. -/
def nativeMagnitude (slot : UInt64) : UInt64 :=
  (pfQMagnitude (nativeRaw slot)).toUInt32.toUInt64

/-- `(uint32_t)error_load`. -/
def nativeError (slot : UInt64) : UInt64 :=
  (GaussianFormat.errorLoad Int16 slot).toUInt32.toUInt64

/-- A native sum as a signed magnitude. -/
def nativeWide (sum : Int64) : GaussianWide :=
  ⟨⟨pfQMagnitude sum, 0⟩, sum < 0⟩

def dotMaximum (sa sb : GaussianScale) : UInt64 :=
  sa.maximum.toUInt64 * sb.maximum.toUInt64

def dotErrorTerm (sa sb : GaussianScale) : UInt64 :=
  let term := if !sb.exact then sa.maximum.toUInt64 else 0
  let term := if !sa.exact then term + sb.maximum.toUInt64 else term
  if !sa.exact && !sb.exact then term + 1 else term

def nativeDot (a b : ℕ → UInt64) (count : ℕ) : Int64 :=
  foldRange 0 count 0 fun i sum => sum + nativeRaw (a i) * nativeRaw (b i)

/-- What the bounds of a dot product must allow. -/
def dotFits (sa sb : GaussianScale) (count : ℕ) : Bool :=
  let bound := pfQUmul (dotMaximum sa sb) (UInt64.ofNat count)
  let error := pfQUmul (dotErrorTerm sa sb) (UInt64.ofNat count)
  bound.high = 0 ∧ bound.low ≤ 0x7fffffffffffffff ∧ error.high = 0 ∧
    scaledLeOne ⟨error.low, 0⟩ (dotExponent Int16 sa sb)

def dotTry (a : ℕ → UInt64) (sa : GaussianScale) (b : ℕ → UInt64) (sb : GaussianScale)
    (count : ℕ) : Except SolverExit GaussianWide :=
  if dotFits sa sb count then .ok (nativeWide (nativeDot a b count))
  else dotWide Int16 a sa b sb count

def numeratorInitial (input : SolverInput) (fractional : ℕ) : UInt64 :=
  input.sb.maximum.toUInt64 <<< UInt64.ofNat fractional

def numeratorProduct (input : SolverInput) (s : SolverState) : UInt64 :=
  input.sa.maximum.toUInt64 * s.zmax

def numeratorFits (input : SolverInput) (fractional i : ℕ) (s : SolverState) : Bool :=
  let bound := if input.sa.diagonal then ⟨0, 0⟩
    else pfQUmul (numeratorProduct input s) (UInt64.ofNat i)
  bound.high = 0 ∧ bound.low ≤ 0x7fffffffffffffff - numeratorInitial input fractional

/-- The first `count` steps of a native numerator. -/
def nativeNumerator (input : SolverInput) (fractional i : ℕ) (s : SolverState) (count : ℕ) :
    Int64 :=
  foldRange 0 count (nativeRaw (input.b i) * (1 <<< Int64.ofNat fractional)) fun j numerator =>
    numerator - nativeRaw (input.a (i * input.k + j)) * nativeRaw (s.z j)

def numeratorTry (input : SolverInput) (fractional i : ℕ) (s : SolverState) :
    Except SolverExit GaussianWide :=
  if numeratorFits input fractional i s then
    .ok (nativeWide (nativeNumerator input fractional i s (if input.sa.diagonal then 0 else i)))
  else numeratorWide Int16 input fractional i s

def propagatedDelta (input : SolverInput) (fractional : ℕ) : UInt64 :=
  if input.sb.exact then 0 else 1 <<< UInt64.ofNat (fractional + 32)

def propagatedUnknown (input : SolverInput) (s : SolverState) : UInt64 :=
  if !input.sa.exact then (s.zmax <<< 32) + s.emax else 0

def propagatedProduct (input : SolverInput) (s : SolverState) : UInt64 :=
  input.sa.maximum.toUInt64 * s.emax

def propagatedFits (input : SolverInput) (fractional i : ℕ) (s : SolverState) : Bool :=
  let unknown := propagatedUnknown input s
  let product := propagatedProduct input s
  let term := if input.sa.diagonal then 0 else unknown + product
  let bound := pfQUmul term (UInt64.ofNat i)
  (input.sa.diagonal ∨ unknown ≤ 0xffffffffffffffff - product) ∧
    (term = 0 ∨
      bound.high = 0 ∧ bound.low ≤ 0xffffffffffffffff - propagatedDelta input fractional)

/-- The first `count` steps of a native error sum. -/
def nativePropagated (input : SolverInput) (fractional i : ℕ) (s : SolverState) (count : ℕ) :
    UInt64 :=
  foldRange 0 count (propagatedDelta input fractional) fun j sum =>
    let ev := nativeError (s.error j)
    let sum := if !input.sa.exact then sum + ((nativeMagnitude (s.z j) <<< 32) + ev) else sum
    sum + nativeMagnitude (input.a (i * input.k + j)) * ev

def propagatedTry (input : SolverInput) (fractional i : ℕ) (s : SolverState) :
    Except SolverExit Accum :=
  if propagatedFits input fractional i s then
    .ok ⟨nativePropagated input fractional i s (if input.sa.diagonal then 0 else i), 0⟩
  else propagatedWide Int16 input fractional i s

def squareBound (s : SolverState) : UInt64 :=
  s.zmax * s.zmax

def nativeSquares (s : SolverState) (count : ℕ) : UInt64 :=
  foldRange 0 count 0 fun i norm => norm + nativeMagnitude (s.z i) * nativeMagnitude (s.z i)

def nativeMagnitudes (s : SolverState) (count : ℕ) : UInt64 :=
  foldRange 0 count 0 fun i magnitudes => magnitudes + nativeMagnitude (s.z i)

def magnitudesFits (input : SolverInput) (s : SolverState) : Bool :=
  (pfQUmul (squareBound s) (UInt64.ofNat input.k)).high = 0

def magnitudesTry (input : SolverInput) (s : SolverState) : Except SolverExit (Accum × Accum) :=
  if magnitudesFits input s then
    .ok (⟨nativeSquares s input.k, 0⟩, ⟨nativeMagnitudes s input.k, 0⟩)
  else magnitudesWide Int16 input s

def termBound (s : SolverState) : UInt64 :=
  let errorSquare : UInt64 := (s.emax * s.emax) >>> 32
  2 * s.zmax * s.emax + errorSquare + 1

/-- One term of a native variance. -/
def nativeVarianceTerm (s : SolverState) (i : ℕ) : UInt64 :=
  let ev := nativeError (s.error i)
  let errorSquare := ev * ev
  let high : UInt64 := errorSquare >>> 32
  2 * nativeMagnitude (s.z i) * ev + high + if errorSquare &&& 0xffffffff ≠ 0 then 1 else 0

def nativeVariance (s : SolverState) (count : ℕ) : UInt64 :=
  foldRange 0 count 0 fun i variance => variance + nativeVarianceTerm s i

def momentsFits (input : SolverInput) (s : SolverState) : Bool :=
  (pfQUmul (squareBound s) (UInt64.ofNat input.k)).high = 0 ∧
    (pfQUmul (termBound s) (UInt64.ofNat input.k)).high = 0

def momentsTry (input : SolverInput) (s : SolverState) : Except SolverExit (Accum × Accum) :=
  if momentsFits input s then
    .ok (⟨nativeSquares s input.k, 0⟩, ⟨nativeVariance s input.k, 0⟩)
  else momentsWide Int16 input s

/-- The sums of the q15 build. -/
def nativePaths : SolverPaths where
  dot := dotTry
  numerator := numeratorTry
  propagated := propagatedTry
  magnitudes := magnitudesTry
  moments := momentsTry

end Xhive.Particles
