import Xhive.Particles.Exponential

/-!
# Likelihoods from exponents

`pf_q_likelihood_impl.h` and `likelihood` of `pf_q_internal.h`.  A value of the
working type is its IEEE bit pattern; the floating operations of the platform
are parameters.
-/

namespace Xhive.Particles

open Xhive.Support Xhive.Linears Xhive.Filters

/-- The working type beside a particle format, and what its exponential uses. -/
class LikelihoodFormat (Q : Type) extends ParticleFormat Q where
  workBits : ℕ
  mantissaBits : ℕ
  /-- The encoded exponent whose last mantissa bit is one unit of the grid. -/
  gridExponent : ℤ
  /-- The magnitude bits of one. -/
  unity : ℕ
  /-- The magnitude bits of infinity. -/
  infinity : ℕ
  /-- The magnitude bits from which distinct values are too far apart. -/
  huge : ℕ
  /-- The magnitude bits above which `exp_neg_try` answers zero. -/
  cutoff : ℕ
  expFormat : ExpFormat
  expKernel : Accum → Option UInt64
  /-- What a scratch slot gives back. -/
  cached : UInt64 → UInt64
  expKernel_le : ∀ delta result, expKernel delta = some result →
    result ≤ expFormat.likelihoodOne
  likelihoodOne_pos : 0 < expFormat.likelihoodOne.toNat
  cached_of_le : ∀ x, x ≤ expFormat.likelihoodOne → cached x = x

instance likelihoodFormatQ15 : LikelihoodFormat Int16 where
  workBits := 32
  mantissaBits := 23
  gridExponent := 110
  unity := 0x3f800000
  infinity := 0x7f800000
  huge := 0x4e800000
  cutoff := 0x41b17219
  expFormat := expQ15
  expKernel := expFixedF40
  cached x := x.toUInt32.toUInt64
  expKernel_le _ _ h := expFixedF40_le h
  likelihoodOne_pos := by decide
  cached_of_le x hx := by
    rw [UInt64.le_iff_toNat_le] at hx
    have hone : expQ15.likelihoodOne.toNat = 2147483648 := rfl
    rw [← UInt64.toNat_inj, toNat_toUInt64_word, toNat_toUInt32_word]
    omega

instance likelihoodFormatQ31 : LikelihoodFormat Int32 where
  workBits := 64
  mantissaBits := 52
  gridExponent := 1011
  unity := 0x3ff0000000000000
  infinity := 0x7ff0000000000000
  huge := 0x43a0000000000000
  cutoff := 0x40462e42fefa39f0
  expFormat := expQ31
  expKernel := expFixed expQ31
  cached x := x
  expKernel_le _ _ h := expFixed_le h
  likelihoodOne_pos := by decide
  cached_of_le _ _ := rfl

/-- The bits of a value of the working type. -/
abbrev WorkBits (Q : Type) [LikelihoodFormat Q] : Type :=
  BitVec (LikelihoodFormat.workBits Q)

section Bits

variable {Q : Type} [LikelihoodFormat Q]

/-- The bits without the sign. -/
def workMagnitude (x : WorkBits Q) : ℕ :=
  x.toNat % 2 ^ (LikelihoodFormat.workBits Q - 1)

/-- `isfinite`. -/
def workFinite (x : WorkBits Q) : Bool :=
  workMagnitude x < LikelihoodFormat.infinity Q

/-- `ukf_in_unit`. -/
def workInUnit (x : WorkBits Q) : Bool :=
  workMagnitude x ≤ LikelihoodFormat.unity Q

/-- `x < 0`. -/
def workBelowZero (x : WorkBits Q) : Bool :=
  x.msb ∧ workMagnitude x ≠ 0 ∧ workMagnitude x ≤ LikelihoodFormat.infinity Q

/-- `isnan`. -/
def workNan (x : WorkBits Q) : Bool :=
  LikelihoodFormat.infinity Q < workMagnitude x

def exponentLess (a b : WorkBits Q) : Bool :=
  if a.msb ≠ b.msb then a.msb ∧ (workMagnitude a ≠ 0 ∨ workMagnitude b ≠ 0)
  else if a.msb then b.toNat < a.toNat
  else a.toNat < b.toNat

/-- The magnitude on the grid of the exponential. -/
def expGrid (x : WorkBits Q) : Accum :=
  let magnitude := workMagnitude x
  let encoded := magnitude / 2 ^ LikelihoodFormat.mantissaBits Q
  let mantissa := magnitude % 2 ^ LikelihoodFormat.mantissaBits Q
  if encoded = 0 then
    expMantissa (UInt64.ofNat mantissa) (1 - LikelihoodFormat.gridExponent Q)
  else
    expMantissa (UInt64.ofNat (mantissa + 2 ^ LikelihoodFormat.mantissaBits Q))
      (encoded - LikelihoodFormat.gridExponent Q)

/-- The distance of two values on the grid. -/
def likelihoodDelta (high low : WorkBits Q) : Accum :=
  let a := expGrid high
  let b := expGrid low
  if high.msb ≠ low.msb then pfQUadd a b
  else if high.msb then expUsub b a
  else expUsub a b

def likelihoodDeltaTry (high low : WorkBits Q) : Option UInt64 :=
  let format := LikelihoodFormat.expFormat Q
  if high = low then some format.likelihoodOne
  else if workMagnitude high ≥ LikelihoodFormat.huge Q ∨
      workMagnitude low ≥ LikelihoodFormat.huge Q then some 0
  else
    let delta := likelihoodDelta high low
    if delta.low = 0 ∧ delta.high = 0 then some format.likelihoodOne
    else if pfQUcmp delta (pfQUmul format.step
        (UInt64.ofNat (32 * (format.likelihoodFraction + 1) + 1))) ≥ 0 then some 0
    else LikelihoodFormat.expKernel Q delta

/-- `pf_q15_exp_neg_try` and `pf_q31_exp_neg_try`. -/
def expNegTry (delta : WorkBits Q) : Option UInt64 :=
  if workMagnitude delta = 0 then some (LikelihoodFormat.expFormat Q).likelihoodOne
  else if workNan delta ∨ workBelowZero delta then none
  else if workMagnitude delta = LikelihoodFormat.infinity Q then some 0
  else if workMagnitude delta > LikelihoodFormat.cutoff Q then some 0
  else LikelihoodFormat.expKernel Q (expGrid delta)

end Bits

/-- The floating operations of the platform and its library. -/
structure WorkPlatform (Q : Type) [LikelihoodFormat Q] where
  add : WorkBits Q → WorkBits Q → WorkBits Q
  sub : WorkBits Q → WorkBits Q → WorkBits Q
  /-- `(uint64_t)(U_EXP_NEG(delta) * U_LIKELIHOOD_SCALE + 0.5)`. -/
  scaledExp : WorkBits Q → UInt64
  /-- An exact signal value. -/
  widen : Q → WorkBits Q
  /-- A value of the unit interval as a signal. -/
  store : WorkBits Q → Q

section Platform

variable {Q : Type} [LikelihoodFormat Q]

namespace WorkPlatform

def likelihood (platform : WorkPlatform Q) (delta : WorkBits Q) : UInt64 :=
  match expNegTry delta with
  | some value => value
  | none => platform.scaledExp delta

def likelihoodPair (platform : WorkPlatform Q) (high low : WorkBits Q) : UInt64 :=
  match likelihoodDeltaTry high low with
  | some value => value
  | none => platform.likelihood (platform.sub high low)

/-- The standard behaviour that reweighting relies on: the difference of two
finite numbers in descending order is a number that is not negative, and the
exponential of the negative of such a number is at most one. -/
structure Standard (platform : WorkPlatform Q) : Prop where
  sub_nonneg : ∀ high low, workFinite high = true → workFinite low = true →
    exponentLess high low = false →
      workNan (platform.sub high low) = false ∧ workBelowZero (platform.sub high low) = false
  scaledExp_le : ∀ delta, workNan delta = false → workBelowZero delta = false →
    platform.scaledExp delta ≤ (LikelihoodFormat.expFormat Q).likelihoodOne

end WorkPlatform

/-! ## The order of the exponents -/

/-- The number line of the bit patterns; both zeros are one point. -/
def exponentKey (x : WorkBits Q) : ℤ :=
  if x.msb then -(workMagnitude x : ℤ) else workMagnitude x

theorem toNat_eq_magnitude (x : WorkBits Q) :
    x.toNat = workMagnitude x +
      if x.msb then 2 ^ (LikelihoodFormat.workBits Q - 1) else 0 := by
  have hlt := x.isLt
  have hmsb := BitVec.msb_eq_decide x
  have hpow : 2 ^ LikelihoodFormat.workBits Q ≤ 2 * 2 ^ (LikelihoodFormat.workBits Q - 1) := by
    rw [← pow_succ']
    exact Nat.pow_le_pow_right (by norm_num) (by omega)
  rw [workMagnitude, hmsb]
  simp only [decide_eq_true_eq]
  split
  · rw [Nat.mod_eq_sub_mod ‹_›, Nat.mod_eq_of_lt (by omega)]
    omega
  · rw [Nat.mod_eq_of_lt (by omega), Nat.add_zero]

theorem exponentLess_iff (a b : WorkBits Q) :
    exponentLess a b = true ↔ exponentKey a < exponentKey b := by
  have ha := toNat_eq_magnitude a
  have hb := toNat_eq_magnitude b
  rw [exponentLess, exponentKey, exponentKey]
  cases hsa : a.msb <;> cases hsb : b.msb <;> rw [hsa] at ha <;> rw [hsb] at hb <;>
    simp at ha hb ⊢ <;> omega

/-! ## Bounds -/

theorem likelihoodDeltaTry_self (x : WorkBits Q) :
    likelihoodDeltaTry x x = some (LikelihoodFormat.expFormat Q).likelihoodOne := by
  rw [likelihoodDeltaTry]
  exact if_pos rfl

theorem likelihoodDeltaTry_le {high low : WorkBits Q} {value : UInt64}
    (h : likelihoodDeltaTry high low = some value) :
    value ≤ (LikelihoodFormat.expFormat Q).likelihoodOne := by
  have hzero : (0 : UInt64) ≤ (LikelihoodFormat.expFormat Q).likelihoodOne :=
    UInt64.le_iff_toNat_le.mpr (Nat.zero_le _)
  rw [likelihoodDeltaTry] at h
  dsimp only at h
  split at h
  · cases h
    exact UInt64.le_refl _
  split at h
  · cases h
    exact hzero
  split at h
  · cases h
    exact UInt64.le_refl _
  split at h
  · cases h
    exact hzero
  · exact LikelihoodFormat.expKernel_le _ _ h

theorem expNegTry_le {delta : WorkBits Q} {value : UInt64} (h : expNegTry delta = some value) :
    value ≤ (LikelihoodFormat.expFormat Q).likelihoodOne := by
  have hzero : (0 : UInt64) ≤ (LikelihoodFormat.expFormat Q).likelihoodOne :=
    UInt64.le_iff_toNat_le.mpr (Nat.zero_le _)
  rw [expNegTry] at h
  split at h
  · cases h
    exact UInt64.le_refl _
  split at h
  · cases h
  split at h
  · cases h
    exact hzero
  split at h
  · cases h
    exact hzero
  · exact LikelihoodFormat.expKernel_le _ _ h

namespace WorkPlatform

variable {platform : WorkPlatform Q}

theorem likelihoodPair_self (platform : WorkPlatform Q) (x : WorkBits Q) :
    platform.likelihoodPair x x = (LikelihoodFormat.expFormat Q).likelihoodOne := by
  rw [likelihoodPair, likelihoodDeltaTry_self]

/-- A likelihood is at most one. -/
theorem Standard.likelihoodPair_le (h : platform.Standard) {high low : WorkBits Q}
    (hhigh : workFinite high = true) (hlow : workFinite low = true)
    (hle : exponentLess high low = false) :
    platform.likelihoodPair high low ≤ (LikelihoodFormat.expFormat Q).likelihoodOne := by
  rw [likelihoodPair]
  split
  · rename_i value htry
    exact likelihoodDeltaTry_le htry
  · rw [likelihood]
    split
    · rename_i value htry
      exact expNegTry_le htry
    · obtain ⟨hnan, hneg⟩ := h.sub_nonneg high low hhigh hlow hle
      exact h.scaledExp_le _ hnan hneg

end WorkPlatform

end Platform

end Xhive.Particles
