import Xhive.Particles.Likelihood

/-!
# The Gaussian triangular solver

`pf_q_gaussian_impl.h`: the dot products, the divisions and the solution of a
triangular system with its error bounds, on raw integers.  The raw integers are
what the preparation has stored; a result is an integer with its exponent, and
its conversion to the working type is left out.  The native 64-bit paths of the
q15 build are switched by a flag.
-/

namespace Xhive.Particles

open Xhive.Support Xhive.Linears

/-! ## Wide helpers -/

/-- `scale_t`. -/
structure GaussianScale where
  exponent : ℤ
  exact : Bool
  diagonal : Bool
  /-- The largest raw magnitude; the q15 build keeps it. -/
  maximum : UInt32

/-- `wide_t`. -/
structure GaussianWide where
  magnitude : Accum
  negative : Bool
  deriving DecidableEq

def addUnsigned (sum value : Accum) : Option Accum :=
  let result := pfQUadd sum value
  if result.high < sum.high ∨ result.high < value.high then none else some result

def shiftLeftChecked (value : Accum) (shift : ℕ) : Option Accum :=
  if value.low = 0 ∧ value.high = 0 then some value
  else if shift ≥ 128 ∨ pfQUbits value + shift > 128 then none
  else some (expShl value shift)

def shiftRightWide (value : Accum) (shift : ℕ) : Accum :=
  if shift = 0 then value
  else if shift < 64 then
    { low := (value.low >>> UInt64.ofNat shift) ||| (value.high <<< UInt64.ofNat (64 - shift))
      high := value.high >>> UInt64.ofNat shift }
  else if shift < 128 then ⟨value.high >>> UInt64.ofNat (shift - 64), 0⟩
  else ⟨0, 0⟩

/-- A signed magnitude is added. -/
def addWide (sum : GaussianWide) (magnitude : Accum) (negative : Bool) : Option GaussianWide :=
  if magnitude.low = 0 ∧ magnitude.high = 0 then some sum
  else if sum.magnitude.low = 0 ∧ sum.magnitude.high = 0 then some ⟨magnitude, negative⟩
  else if sum.negative = negative then
    (addUnsigned sum.magnitude magnitude).map fun total => ⟨total, sum.negative⟩
  else
    let comparison := pfQUcmp sum.magnitude magnitude
    if comparison = 0 then some ⟨⟨0, 0⟩, false⟩
    else if comparison > 0 then some ⟨momentSub128 sum.magnitude magnitude, sum.negative⟩
    else some ⟨momentSub128 magnitude sum.magnitude, negative⟩

/-- `value * 2 ^ shift ≤ 1`. -/
def scaledLeOne (value : Accum) (shift : ℤ) : Bool :=
  if value.low = 0 ∧ value.high = 0 then true
  else if shift > 0 then false
  else if shift = 0 then value.high = 0 ∧ value.low ≤ 1
  else if shift ≤ -128 then true
  else pfQUcmp value (expShl ⟨1, 0⟩ (-shift).toNat) ≤ 0

/-! ## Division -/

/-- Shift and normalized divisor. -/
def normalizeDivisor (value : UInt64) : ℕ × UInt64 :=
  let shift := 64 - filtersQBitLength value
  (shift, value <<< UInt64.ofNat shift)

/-- The corrections of a quotient digit; the base is `2 ^ 32`. -/
def divideCorrect (v1 v0 c q r : UInt64) : UInt64 :=
  if q ≥ 0x100000000 ∨ q * v0 > (r <<< 32) + c then
    if r + v1 ≥ 0x100000000 then q - 1 else divideCorrect v1 v0 c (q - 1) (r + v1)
  else q
termination_by q.toNat
decreasing_by
  rename_i h _
  have hpos : 0 < q.toNat := by
    apply Nat.pos_of_ne_zero
    intro hzero
    rw [← UInt64.toNat_zero, UInt64.toNat_inj] at hzero
    rw [hzero, UInt64.zero_mul] at h
    simp [UInt64.le_iff_toNat_le, UInt64.lt_iff_toNat_lt] at h
  have hle : 1 ≤ q := UInt64.le_iff_toNat_le.mpr hpos
  rw [UInt64.toNat_sub_of_le _ _ hle, UInt64.toNat_one]
  omega

/-- One base-`2 ^ 32` digit; what is left and the digit. -/
def divideDigit (value : Accum) (divisor : UInt64) (upper : Bool) : Accum × UInt32 :=
  let limbs := momentLimbs value
  let a := if upper then limbs.word 3 else limbs.word 2
  let b := if upper then limbs.word 2 else limbs.word 1
  let c := if upper then limbs.word 1 else limbs.word 0
  let v1 := divisor >>> 32
  let v0 := divisor.toUInt32.toUInt64
  let numerator := (a.toUInt64 <<< 32) ||| b.toUInt64
  let q := divideCorrect v1 v0 c.toUInt64 (numerator / v1) (numerator % v1)
  let step : Accum := if upper then expShl ⟨divisor, 0⟩ 32 else ⟨divisor, 0⟩
  let product := if upper then expShl (pfQUmul q divisor) 32 else pfQUmul q divisor
  let s := if pfQUcmp product value > 0 then (q - 1, expUsub product step) else (q, product)
  (expUsub value s.2, s.1.toUInt32)

/-- Quotient and remainder. -/
def divideWide (numerator : Accum) (denominator : UInt64) : UInt64 × Accum :=
  let normalized := normalizeDivisor denominator
  let high := divideDigit (expShl numerator normalized.1) normalized.2 true
  let low := divideDigit high.1 normalized.2 false
  ((high.2.toUInt64 <<< 32) ||| low.2.toUInt64, ⟨low.1.low >>> UInt64.ofNat normalized.1, 0⟩)

/-- The rounding that ends a division: to nearest or up. -/
def roundQuotient (nearest : Bool) (quotient rest denominator : UInt64) : Option UInt64 :=
  if (if nearest then rest ≥ denominator - rest else rest ≠ 0) then
    if quotient = 0xffffffffffffffff then none else some (quotient + 1)
  else some quotient

def divide (numerator : Accum) (denominator : UInt64) (nearest : Bool) : Option UInt64 :=
  if numerator.high ≥ denominator then none
  else
    let division : UInt64 × UInt64 :=
      if denominator &&& (denominator - 1) = 0 then
        let shift := filtersQBitLength denominator - 1
        if shift = 0 then (numerator.low, 0)
        else
          ((numerator.low >>> UInt64.ofNat shift) ||| (numerator.high <<< UInt64.ofNat (64 - shift)),
            numerator.low &&& (denominator - 1))
      else if numerator.high = 0 then (numerator.low / denominator, numerator.low % denominator)
      else
        let s := divideWide numerator denominator
        (s.1, s.2.low)
    roundQuotient nearest division.1 division.2 denominator

/-! ### Division by a reciprocal -/

/-- The reciprocal that the q15 build stores for a pivot; zero for a power of two. -/
def preparedReciprocalQ15 (raw : Int64) : UInt64 :=
  let pivot := raw.toUInt64.toUInt32
  let shift := 32 - filtersQBitLength pivot.toUInt64
  let normalized := pivot <<< UInt32.ofNat shift
  if normalized = 0x80000000 then 0
  else ((0x100000000 - normalized.toUInt64) <<< 32) / normalized.toUInt64

/-- The reciprocal that the q31 build stores for a pivot. -/
def preparedReciprocalQ31 (raw : Int64) : UInt64 :=
  let pivot := raw.toUInt64
  let shift := 64 - filtersQBitLength pivot
  let normalized := pivot <<< UInt64.ofNat shift
  if normalized = 0x8000000000000000 then 0
  else (divideWide ⟨0, 0xffffffffffffffff - normalized + 1⟩ normalized).1

def divideSolveQ15 (numerator : Accum) (denominator : UInt64) (nearest : Bool)
    (reciprocal : UInt64) : Option UInt64 :=
  if numerator.high ≠ 0 ∨ numerator.low ≥ denominator <<< 32 then
    divide numerator denominator nearest
  else
    let shift := 32 - filtersQBitLength denominator.toUInt32.toUInt64
    let normalized := (denominator.toUInt32 <<< UInt32.ofNat shift).toUInt64
    let r := reciprocal.toUInt32.toUInt64
    let n := numerator.low <<< UInt64.ofNat shift
    let a := (n >>> 32).toUInt32.toUInt64
    let b := n.toUInt32.toUInt64
    let t := a * r + b + ((b * r) >>> 32)
    let q := (a + (t >>> 32)).toUInt32
    let remainder := n - q.toUInt64 * normalized
    let s := if remainder ≥ normalized then (q + 1, remainder - normalized) else (q, remainder)
    roundQuotient nearest s.1.toUInt64 (s.2 >>> UInt64.ofNat shift) denominator

def divideSolveQ31 (numerator : Accum) (denominator : UInt64) (nearest : Bool)
    (reciprocal : UInt64) : Option UInt64 :=
  if numerator.high ≥ denominator then divide numerator denominator nearest
  else
    let shift := 64 - filtersQBitLength denominator
    let normalized := denominator <<< UInt64.ofNat shift
    let n := expShl numerator shift
    let ar := pfQUmul n.high reciprocal
    let br := pfQUmul n.low reciprocal
    let t := pfQUadd (pfQUadd ar ⟨n.low, 0⟩) ⟨br.high, 0⟩
    let q := n.high + t.high
    let remainder := expUsub n (pfQUmul q normalized)
    let s := if pfQUcmp remainder ⟨normalized, 0⟩ ≥ 0 then
      (q + 1, expUsub remainder ⟨normalized, 0⟩) else (q, remainder)
    roundQuotient nearest s.1 (s.2.low >>> UInt64.ofNat shift) denominator

/-! ## Formats -/

/-- What the two builds of the solver differ in.  A slot of the working type is
given by its bits. -/
class GaussianFormat (Q : Type) where
  /-- `PQ_GAUSSIAN_F`. -/
  gaussianF : ℕ
  /-- `PQ_GAUSSIAN_K`. -/
  gaussianK : ℕ
  /-- `PQ_GAUSSIAN_ERROR_MAX`. -/
  errorMax : UInt64
  /-- The largest raw value. -/
  rawMax : UInt64
  rawStore : Int64 → UInt64
  rawLoad : UInt64 → Int64
  errorStore : UInt64 → UInt64
  errorLoad : UInt64 → UInt64
  rawProduct : UInt64 → UInt64 → Accum
  preparedReciprocal : Int64 → UInt64
  divideSolve : Accum → UInt64 → Bool → UInt64 → Option UInt64

instance gaussianFormatQ15 : GaussianFormat Int16 where
  gaussianF := 30
  gaussianK := 12
  errorMax := 0xffffffff
  rawMax := 0x7fffffff
  rawStore value := value.toUInt64.toUInt32.toUInt64
  rawLoad slot := slot.toUInt32.toInt32.toInt64
  errorStore value := value.toUInt32.toUInt64
  errorLoad slot := slot.toUInt32.toUInt64
  rawProduct a b := ⟨a * b, 0⟩
  preparedReciprocal := preparedReciprocalQ15
  divideSolve := divideSolveQ15

instance gaussianFormatQ31 : GaussianFormat Int32 where
  gaussianF := 62
  gaussianK := 30
  errorMax := 0xffffffffffffffff
  rawMax := 0x7fffffffffffffff
  rawStore value := value.toUInt64
  rawLoad slot := slot.toInt64
  errorStore value := value
  errorLoad slot := slot
  rawProduct a b := pfQUmul a b
  preparedReciprocal := preparedReciprocalQ31
  divideSolve := divideSolveQ31

section Solver

variable (Q : Type) [GaussianFormat Q]

/-! ## The cached reciprocals -/

def divisionSlot (k i : ℕ) : ℕ :=
  if i + 1 < k then i * k + i + 1 else 2

/-- The reciprocals go to dead slots above the diagonal. -/
def gaussianPrepareDivision (raw : ℕ → UInt64) (k : ℕ) : ℕ → UInt64 :=
  if k < 2 then raw
  else
    foldRange 0 (if k = 2 then 1 else k) raw fun i raw =>
      Function.update raw (if k = 2 then 1 else divisionSlot k i)
        (GaussianFormat.errorStore Q
          (GaussianFormat.preparedReciprocal Q (GaussianFormat.rawLoad Q (raw (i * k + i)))))

/-- The reciprocal of row `i`; zero selects the ordinary divider. -/
def rowReciprocal (a : ℕ → UInt64) (k i : ℕ) : UInt64 :=
  if k ≥ 3 then GaussianFormat.errorLoad Q (a (divisionSlot k i))
  else if k = 2 ∧ (i = 0 ∨
      GaussianFormat.rawLoad Q (a (i * k + i)) = GaussianFormat.rawLoad Q (a 0)) then
    GaussianFormat.errorLoad Q (a 1)
  else 0

/-- The division of a row. -/
def rowDivide (numerator : Accum) (pivot : Int64) (nearest : Bool) (reciprocal : UInt64) :
    Option UInt64 :=
  if reciprocal ≠ 0 then
    GaussianFormat.divideSolve Q numerator pivot.toUInt64 nearest reciprocal
  else divide numerator pivot.toUInt64 nearest

end Solver

end Xhive.Particles
