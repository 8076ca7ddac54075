import Xhive.Particles.Moments

/-!
# The integer exponential of the reweighting

`pf_q_exp_impl.h` and the rounding shift of `q_integer_wide.h`: wide quotients
and the kernels that evaluate `exp (-delta)` on a fixed grid.  A kernel that
declines, where the C functions return zero, gives `none`.
-/

namespace Xhive.Particles

open Xhive.Support Xhive.Linears

/-! ## Rounding shifts -/

/-- `filters_q_rounded_u64_t`. -/
structure FiltersQRounded where
  value : UInt64
  inexact : Bool

/-- The bit above `shift - 1` discarded ones rounds up. -/
def filtersQRoundU128 (value : Accum) (shift : ℕ) : FiltersQRounded :=
  if shift = 0 then ⟨value.low, false⟩
  else if shift ≥ 128 then
    { value := if shift = 128 then value.high >>> 63 else 0
      inexact := value.low ≠ 0 ∨ value.high ≠ 0 }
  else if shift < 64 then
    let amount := UInt64.ofNat shift
    { value := ((value.low >>> amount) ||| (value.high <<< UInt64.ofNat (64 - shift))) +
        ((value.low >>> UInt64.ofNat (shift - 1)) &&& 1)
      inexact := value.low &&& ((1 <<< amount) - 1) ≠ 0 }
  else if shift = 64 then
    { value := value.high + (value.low >>> 63)
      inexact := value.low ≠ 0 }
  else
    let tail := UInt64.ofNat (shift - 64)
    { value := (value.high >>> tail) + ((value.high >>> UInt64.ofNat (shift - 65)) &&& 1)
      inexact := value.high &&& ((1 <<< tail) - 1) ≠ 0 ∨ value.low ≠ 0 }

def pfQUround (a : Accum) (shift : ℕ) : UInt64 :=
  (filtersQRoundU128 a shift).value

/-- The callers prove that the product fits. -/
def pfQUmul32 (a : Accum) (b : UInt32) : Accum :=
  let r := pfQUmul a.low b.toUInt64
  ⟨r.low, r.high + a.high * b.toUInt64⟩

/-! ## Quotients -/

def expShl (a : Accum) (shift : ℕ) : Accum :=
  if shift = 0 then a
  else if shift < 64 then
    { low := a.low <<< UInt64.ofNat shift
      high := (a.high <<< UInt64.ofNat shift) ||| (a.low >>> UInt64.ofNat (64 - shift)) }
  else
    { low := 0
      high := (a.low <<< UInt64.ofNat (shift - 64)) |||
        if shift > 64 then a.high >>> UInt64.ofNat (128 - shift) else 0 }

def expUsub (a b : Accum) : Accum :=
  momentSub128 a b

/-- Quotient and remainder. -/
def expDiv (numerator denominator : Accum) : UInt64 × Accum :=
  if pfQUcmp numerator denominator < 0 then (0, numerator)
  else
    let shift := pfQUbits numerator - pfQUbits denominator
    let s := accumUnsigned.divideFrom shift
      { remainder := numerator
        divisor := expShl denominator shift
        quotient := 0 }
    (s.quotient, s.remainder)

/-- The words as numbers of the division. -/
def wordUnsigned : Unsigned UInt64 where
  toNat := UInt64.toNat
  less a b := a < b
  sub a b := a - b
  half a := a >>> 1

/-- Quotient and remainder. -/
def expDiv64 (numerator denominator : UInt64) : UInt64 × UInt64 :=
  if numerator < denominator then (0, numerator)
  else
    let shift := filtersQBitLength numerator - filtersQBitLength denominator
    let s := wordUnsigned.divideFrom shift
      { remainder := numerator
        divisor := denominator <<< UInt64.ofNat shift
        quotient := 0 }
    (s.quotient, s.remainder)

def expRoundDiv (numerator denominator : Accum) : UInt64 :=
  let division := expDiv numerator denominator
  division.1 + if pfQUcmp (expShl division.2 1) denominator ≥ 0 then 1 else 0

/-! ## Formats -/

/-- `pf_q_exp_format_t`. -/
structure ExpFormat where
  fractional : ℕ
  likelihoodFraction : ℕ
  degree : ℕ
  one : Accum
  likelihoodOne : UInt64
  step : UInt64
  table : List Accum
  coefficients : List UInt64

def expQ15 : ExpFormat where
  fractional := 40
  likelihoodFraction := 31
  degree := 4
  one := ⟨0x10000000000, 0⟩
  likelihoodOne := 2147483648
  step := 23816355775
  table := [
      ⟨0x10000000000, 0⟩, ⟨0xfa83b2db72, 0⟩, ⟨0xf5257d1525, 0⟩, ⟨0xefe4b99bdd, 0⟩,
      ⟨0xeac0c6e7dd, 0⟩, ⟨0xe5b906e77d, 0⟩, ⟨0xe0ccdeec2b, 0⟩, ⟨0xdbfbb797db, 0⟩,
      ⟨0xd744fccad7, 0⟩, ⟨0xd2a81d91f1, 0⟩, ⟨0xce248c1520, 0⟩, ⟨0xc9b9bd866e, 0⟩,
      ⟨0xc5672a1155, 0⟩, ⟨0xc12c4cca66, 0⟩, ⟨0xbd08a39f58, 0⟩, ⟨0xb8fbaf4763, 0⟩,
      ⟨0xb504f333fa, 0⟩, ⟨0xb123f581d3, 0⟩, ⟨0xad583eea43, 0⟩, ⟨0xa9a15ab4ea, 0⟩,
      ⟨0xa5fed6a9b1, 0⟩, ⟨0xa27043030c, 0⟩, ⟨0x9ef5326092, 0⟩, ⟨0x9b8d39b9d5, 0⟩,
      ⟨0x9837f0518e, 0⟩, ⟨0x94f4efa8ff, 0⟩, ⟨0x91c3d373ab, 0⟩, ⟨0x8ea4398b46, 0⟩,
      ⟨0x8b95c1e3eb, 0⟩, ⟨0x88980e8093, 0⟩, ⟨0x85aac367cc, 0⟩, ⟨0x82cd8698ac, 0⟩]
  coefficients := [
      0x10000000000, 0x10000000000, 0x8000000000, 0x2aaaaaaaab, 0xaaaaaaaab]

def expQ31 : ExpFormat where
  fractional := 64
  likelihoodFraction := 63
  degree := 7
  one := ⟨0, 1⟩
  likelihoodOne := 9223372036854775808
  step := 399572145162582989
  table := [
      ⟨0, 1⟩, ⟨0xfa83b2db722a033a, 0⟩, ⟨0xf5257d152486cc2c, 0⟩, ⟨0xefe4b99bdcdaf5cb, 0⟩,
      ⟨0xeac0c6e7dd24392f, 0⟩, ⟨0xe5b906e77c8348a8, 0⟩, ⟨0xe0ccdeec2a94e111, 0⟩,
      ⟨0xdbfbb797daf23755, 0⟩, ⟨0xd744fccad69d6af4, 0⟩, ⟨0xd2a81d91f12ae45a, 0⟩,
      ⟨0xce248c151f8480e4, 0⟩, ⟨0xc9b9bd866e2f27a3, 0⟩, ⟨0xc5672a115506dadd, 0⟩,
      ⟨0xc12c4cca66709456, 0⟩, ⟨0xbd08a39f580c36bf, 0⟩, ⟨0xb8fbaf4762fb9ee9, 0⟩,
      ⟨0xb504f333f9de6484, 0⟩, ⟨0xb123f581d2ac2590, 0⟩, ⟨0xad583eea42a14ac6, 0⟩,
      ⟨0xa9a15ab4ea7c0ef8, 0⟩, ⟨0xa5fed6a9b15138ea, 0⟩, ⟨0xa27043030c496819, 0⟩,
      ⟨0x9ef5326091a111ae, 0⟩, ⟨0x9b8d39b9d54e5539, 0⟩, ⟨0x9837f0518db8a96f, 0⟩,
      ⟨0x94f4efa8fef70961, 0⟩, ⟨0x91c3d373ab11c336, 0⟩, ⟨0x8ea4398b45cd53c0, 0⟩,
      ⟨0x8b95c1e3ea8bd6e7, 0⟩, ⟨0x88980e8092da8527, 0⟩, ⟨0x85aac367cc487b15, 0⟩,
      ⟨0x82cd8698ac2ba1d7, 0⟩]
  coefficients := [
      0, 0, 0x8000000000000000, 0x2aaaaaaaaaaaaaab, 0xaaaaaaaaaaaaaab, 0x222222222222222,
      0x5b05b05b05b05b, 0xd00d00d00d00d]

namespace ExpFormat

/-- `format->table[k & 31]`. -/
def entry (format : ExpFormat) (k : UInt64) : Accum :=
  format.table.getD (k &&& 31).toNat ⟨0, 0⟩

def coefficientWord (format : ExpFormat) (i : ℕ) : UInt64 :=
  format.coefficients.getD i 0

end ExpFormat

/-! ## The kernels -/

/-- `mantissa * 2 ^ shift`, rounded for a negative shift. -/
def expMantissa (mantissa : UInt64) (shift : ℤ) : Accum :=
  if mantissa = 0 then ⟨0, 0⟩
  else if shift ≥ 0 then
    let left := shift.toNat
    if left < 64 then
      { low := mantissa <<< UInt64.ofNat left
        high := if left ≠ 0 then mantissa >>> UInt64.ofNat (64 - left) else 0 }
    else ⟨0, mantissa <<< UInt64.ofNat (left - 64)⟩
  else
    let right := (-shift).toNat
    if right ≥ 64 then ⟨0, 0⟩
    else
      { low := (mantissa >>> UInt64.ofNat right) +
          if right ≠ 0 ∧ (mantissa >>> UInt64.ofNat (right - 1)) &&& 1 ≠ 0 then 1 else 0
        high := 0 }

/-- The coefficient of degree `i` with its alternating sign. -/
def expCoefficient (format : ExpFormat) (i : ℕ) : Accum :=
  let result : Accum := if i ≤ 1 then format.one else ⟨format.coefficientWord i, 0⟩
  if i % 2 ≠ 0 then
    let low := ~~~result.low + 1
    ⟨low, ~~~result.high + if low = 0 then 1 else 0⟩
  else result

/-- The rounded magnitude of the product and its sign. -/
def expSignedProduct (a : Accum) (b : UInt64) (fractional : ℕ) : UInt64 × Bool :=
  let magnitude := momentMagnitude a
  let product := if magnitude.high ≠ 0 then ⟨0, b⟩ else pfQUmul magnitude.low b
  let rounded := pfQUround product fractional
  (rounded, lnNegative a && rounded ≠ 0)

/-- The product of two values up to `2 ^ 64`; `none` is exactly `2 ^ 128`. -/
def expPositiveProduct (a b : Accum) : Option Accum :=
  if a.high ≠ 0 ∧ b.high ≠ 0 then none
  else if a.high ≠ 0 then some ⟨0, b.low⟩
  else if b.high ≠ 0 then some ⟨0, a.low⟩
  else some (pfQUmul a.low b.low)

/-- Horner's rule from the coefficient below `i` down to degree zero. -/
def expHorner (format : ExpFormat) (remainder : UInt64) : ℕ → Accum → Accum
  | 0, polynomial => polynomial
  | i + 1, polynomial =>
      let product := expSignedProduct polynomial remainder format.fractional
      expHorner format remainder i (pfQIadd (expCoefficient format i) product.1 product.2)

/-- Cells zero and one, and anything above one, are left to the library. -/
def expAccept (format : ExpFormat) (value : UInt64) : Option UInt64 :=
  if value ≤ 1 ∨ value > format.likelihoodOne then none else some value

def expFixed (format : ExpFormat) (delta : Accum) : Option UInt64 :=
  let division := expDiv delta ⟨format.step, 0⟩
  let k := division.1
  if k > UInt64.ofNat (32 * (format.likelihoodFraction + 1)) then none
  else
    let polynomial := expHorner format division.2.low format.degree
      (expCoefficient format format.degree)
    if lnNegative polynomial then none
    else
      match expPositiveProduct (format.entry k) polynomial with
      | none =>
          let shift := (k >>> 5).toNat
          if shift ≥ format.likelihoodFraction then none
          else expAccept format (format.likelihoodOne >>> UInt64.ofNat shift)
      | some numerator =>
          let shift := 2 * format.fractional - format.likelihoodFraction + (k >>> 5).toNat
          if shift ≥ 128 then none else expAccept format (pfQUround numerator shift)

/-- `polynomial = coefficient - product`, from the coefficient below `i` down. -/
def expHornerF40 (format : ExpFormat) (remainder : UInt64) : ℕ → UInt64 → UInt64
  | 0, polynomial => polynomial
  | i + 1, polynomial =>
      expHornerF40 format remainder i (format.coefficientWord i -
        pfQUround (pfQUmul polynomial remainder) format.fractional)

def expFixedF40 (delta : Accum) : Option UInt64 :=
  let format := expQ15
  if delta.high ≠ 0 ∨
      delta.low ≥ format.step * UInt64.ofNat (32 * (format.likelihoodFraction + 1) + 1) then none
  else
    let division := expDiv64 delta.low format.step
    let k := division.1
    let polynomial := expHornerF40 format division.2 format.degree
      (format.coefficientWord format.degree)
    let numerator := pfQUmul (format.entry k).low polynomial
    expAccept format
      (pfQUround numerator (2 * format.fractional - format.likelihoodFraction + (k >>> 5).toNat))

/-! ## Accepted values -/

theorem expAccept_le {format : ExpFormat} {value result : UInt64}
    (h : expAccept format value = some result) : result ≤ format.likelihoodOne := by
  rw [expAccept] at h
  split at h
  · cases h
  · rename_i hguard
    cases h
    exact UInt64.not_lt.mp fun hlt => hguard (Or.inr hlt)

theorem expFixed_le {format : ExpFormat} {delta : Accum} {result : UInt64}
    (h : expFixed format delta = some result) : result ≤ format.likelihoodOne := by
  rw [expFixed] at h
  split at h
  · cases h
  dsimp only at h
  split at h
  · cases h
  split at h
  all_goals
    split at h
    · cases h
    · exact expAccept_le h

theorem expFixedF40_le {delta : Accum} {result : UInt64} (h : expFixedF40 delta = some result) :
    result ≤ expQ15.likelihoodOne := by
  rw [expFixedF40] at h
  split at h
  · cases h
  · exact expAccept_le h

end Xhive.Particles
