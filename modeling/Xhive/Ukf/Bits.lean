import Xhive.Ukf.QWork

/-!
# Signals as bit patterns

The conversions of `ukf_internal.h` between a signal and an IEEE value of the
working type, on the encoding that the build advertises.  They use no floating
operation; the arithmetic of the platform is given beside them.
-/

namespace Xhive.Ukf

open Xhive.Support Xhive.Linears Xhive.Filters Xhive.Particles

section Bits

variable {Q : Type} [UkfFormat Q]

/-- The bits of the fraction. -/
def fractionBits (Q : Type) [UkfFormat Q] : ℕ := LikelihoodFormat.mantissaBits Q

/-- The encoded exponent of one. -/
def exponentBias (Q : Type) [UkfFormat Q] : ℕ := LikelihoodFormat.unity Q / 2 ^ fractionBits Q

def encodedExponent (value : WorkBits Q) : ℕ := workMagnitude value / 2 ^ fractionBits Q

/-- The significand of a normal value. -/
def significand (value : WorkBits Q) : ℕ :=
  workMagnitude value % 2 ^ fractionBits Q + 2 ^ fractionBits Q

/-- The exponent at which a significand counts raw units. -/
def unitExponent (Q : Type) [UkfFormat Q] : ℕ :=
  exponentBias Q + fractionBits Q - (QFormat.qBits Q).toNat

/-- A value from its encoded exponent and an integer below the next power of two. -/
def encode (exponent top magnitude : ℕ) : ℕ :=
  exponent * 2 ^ fractionBits Q + magnitude * 2 ^ (fractionBits Q - top) % 2 ^ fractionBits Q

/-- `ukf_widen_value`. -/
def widenBits (x : Q) : WorkBits Q :=
  let magnitude := (rawCode x).natAbs
  if magnitude = 0 then 0
  else
    let top := Nat.log2 magnitude
    let sign := if rawCode x < 0 then 2 ^ (LikelihoodFormat.workBits Q - 1) else 0
    BitVec.ofNat _ (sign +
      encode (Q := Q) (exponentBias Q - (QFormat.qBits Q).toNat + top) top magnitude)

/-- The magnitude that narrowing rounds to, halves away from zero. -/
def narrowMagnitude (value : WorkBits Q) : ℕ :=
  if encodedExponent value + (fractionBits Q + 1) < unitExponent Q then 0
  else (significand value / 2 ^ (unitExponent Q - 1 - encodedExponent value) + 1) / 2

/-- `ukf_narrow_value`. -/
def narrowBits (value : WorkBits Q) : Q :=
  let raw := narrowMagnitude value
  if value.msb then QFormat.narrow (Int64.ofInt (-raw))
  else if raw = 2 ^ (QFormat.qBits Q).toNat then ParticleFormat.signalMax
  else QFormat.narrow (Int64.ofInt raw)

/-- `ukf_quantization_error`. -/
def errorBits (value : WorkBits Q) (raw : Q) : WorkBits Q :=
  let magnitude := (rawCode raw).natAbs
  if magnitude = 0 then BitVec.ofNat _ (workMagnitude value)
  else
    let aligned := magnitude * 2 ^ (unitExponent Q - encodedExponent value)
    let distance := (significand value - aligned) + (aligned - significand value)
    if distance = 0 then 0
    else
      let top := Nat.log2 distance
      BitVec.ofNat _
        (encode (Q := Q) (encodedExponent value - fractionBits Q + top) top distance)

/-- The platform's arithmetic with the conversions of the source. -/
def bitArith (ops : WorkArith (WorkBits Q)) (truncate : WorkBits Q → ℕ) :
    SignalArith Q (WorkBits Q) where
  toWorkArith := { ops with finite := workFinite }
  widen := widenBits
  store := narrowBits
  inUnit := workInUnit
  quantizationError := errorBits
  absGreater a b := decide (workMagnitude b < workMagnitude a)
  truncate := truncate

/-! ## Narrowing a value of the interval -/

theorem unity_eq (Q : Type) [UkfFormat Q] :
    LikelihoodFormat.unity Q = exponentBias Q * 2 ^ fractionBits Q :=
  (Nat.div_mul_cancel UkfFormat.two_pow_dvd_unity).symm

theorem significand_lt (value : WorkBits Q) : significand value < 2 ^ (fractionBits Q + 1) := by
  have hmod := Nat.mod_lt (workMagnitude value) (Nat.two_pow_pos (fractionBits Q))
  rw [significand, Nat.pow_succ, Nat.mul_two]
  exact Nat.add_lt_add_right hmod _

/-- A value of the interval rounds to at most one. -/
theorem narrowMagnitude_le {value : WorkBits Q} (h : workInUnit value = true) :
    narrowMagnitude value ≤ 2 ^ (QFormat.qBits Q).toNat := by
  have hbits : (QFormat.qBits Q).toNat < fractionBits Q := UkfFormat.qBits_lt_mantissaBits
  have hunit : workMagnitude value ≤ exponentBias Q * 2 ^ fractionBits Q := by
    rw [← unity_eq]
    exact of_decide_eq_true h
  rw [narrowMagnitude]
  by_cases hsmall : encodedExponent value + (fractionBits Q + 1) < unitExponent Q
  · rw [if_pos hsmall]
    exact Nat.zero_le _
  · rw [if_neg hsmall]
    suffices hquotient : significand value / 2 ^ (unitExponent Q - 1 - encodedExponent value) <
        2 ^ ((QFormat.qBits Q).toNat + 1) + 1 by
      rw [Nat.pow_succ] at hquotient
      omega
    have hle : encodedExponent value ≤ exponentBias Q := by
      rw [encodedExponent]
      exact (Nat.div_le_div_right hunit).trans_eq
        (Nat.mul_div_cancel _ (Nat.two_pow_pos _))
    rcases hle.lt_or_eq with hlt | heq
    · -- below one the quotient is shorter than a code
      have hshift : fractionBits Q + 1 ≤
          (QFormat.qBits Q).toNat + 1 + (unitExponent Q - 1 - encodedExponent value) := by
        rw [unitExponent]
        omega
      apply Nat.lt_succ_of_lt
      apply Nat.div_lt_of_lt_mul
      rw [← Nat.pow_add, Nat.add_comm (unitExponent Q - 1 - encodedExponent value)]
      exact (significand_lt value).trans_le (Nat.pow_le_pow_right (by decide) hshift)
    · -- at one the fraction is zero
      have hzero : workMagnitude value % 2 ^ fractionBits Q = 0 := by
        have hsplit := Nat.div_add_mod (workMagnitude value) (2 ^ fractionBits Q)
        rw [encodedExponent] at heq
        rw [heq, Nat.mul_comm] at hsplit
        omega
      have hshift : unitExponent Q - 1 - encodedExponent value + ((QFormat.qBits Q).toNat + 1) =
          fractionBits Q := by
        rw [unitExponent, heq]
        omega
      rw [significand, hzero, Nat.zero_add, Nat.lt_succ_iff]
      apply Nat.div_le_of_le_mul
      rw [← Nat.pow_add, hshift]

/-- A value of the interval with a clear sign has a code that is not negative. -/
theorem rawCode_narrowBits_nonneg {value : WorkBits Q} (h : workInUnit value = true)
    (hsign : value.msb = false) : 0 ≤ rawCode (narrowBits value : Q) := by
  have hle := narrowMagnitude_le h
  have hmax := ParticleFormat.toInt_signalMax (Q := Q)
  have hpow : 0 < 2 ^ (QFormat.qBits Q).toNat := Nat.two_pow_pos _
  rw [narrowBits, hsign, if_neg (by decide)]
  by_cases hone : narrowMagnitude value = 2 ^ (QFormat.qBits Q).toNat
  · rw [if_pos hone, rawCode, hmax]
    have hcast : (1 : ℤ) ≤ 2 ^ (QFormat.qBits Q).toNat := by exact_mod_cast hpow
    omega
  · rw [if_neg hone]
    have hlt : narrowMagnitude value < 2 ^ (QFormat.qBits Q).toNat := lt_of_le_of_ne hle hone
    have hbits := (qBits_bounds Q).2
    have hbound : 2 ^ (QFormat.qBits Q).toNat ≤ 2 ^ 31 := Nat.pow_le_pow_right (by decide) hbits
    have hword : (Int64.ofInt (narrowMagnitude value : ℤ)).toInt = narrowMagnitude value := by
      apply Int64.toInt_ofInt_of_le <;> omega
    have hcast : (narrowMagnitude value : ℤ) < 2 ^ (QFormat.qBits Q).toNat := by exact_mod_cast hlt
    rw [rawCode, QFormat.toInt_widen_narrow _ (by rw [hword]; omega) (by rw [hword]; exact hcast),
      hword]
    exact Int.natCast_nonneg _

end Bits

end Xhive.Ukf
