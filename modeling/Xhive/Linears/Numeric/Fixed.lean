import Xhive.Linears.Numeric.Limbs
import Xhive.Support.Rounding

/-!
# Checked F31 arithmetic

The scalar operations of `numeric.c` on `linears_fixed_t`, an `int64_t` raw
integer divided by `2 ^ 31`.  A checked operation with exact integer result `n`
either stores `n` or reports RANGE and leaves its cell alone; `checkedResult`
is that contract, and every operation is proved equal to it.
-/

namespace Xhive.Linears

open Xhive.Support

/-- `LINEARS_FIXED_ONE`. -/
def fixedOne : Int64 := 2147483648

theorem toInt_fixedOne : fixedOne.toInt = 2 ^ 31 := rfl

/-- What a checked operation with exact result `n` does to a cell. -/
def checkedResult (n : ℤ) (old : Int64) : Status × Int64 :=
  if FitsInt64 n then (.ok, Int64.ofInt n) else (.errorRange, old)

theorem checkedResult_of_fits {n : ℤ} (hn : FitsInt64 n) (old : Int64) :
    checkedResult n old = (.ok, Int64.ofInt n) :=
  if_pos hn

theorem checkedResult_of_not_fits {n : ℤ} (hn : ¬FitsInt64 n) (old : Int64) :
    checkedResult n old = (.errorRange, old) :=
  if_neg hn

/-! ## Storing a signed magnitude -/

def signedResult (magnitude : UInt64) (negative : Bool) (out : Int64) :
    Status × Int64 :=
  let limit : UInt64 := if negative then (1 : UInt64) <<< 63 else Int64.maxValue.toUInt64
  if magnitude > limit then
    (.errorRange, out)
  else
    (.ok,
      if negative then
        (if magnitude = (1 : UInt64) <<< 63 then Int64.minValue else -magnitude.toInt64)
      else magnitude.toInt64)

theorem signedResult_eq (magnitude : UInt64) (negative : Bool) (out : Int64) :
    signedResult magnitude negative out =
      checkedResult (signed negative (magnitude.toNat : ℤ)) out := by
  have hlimit : ((1 : UInt64) <<< 63).toNat = 2 ^ 63 := rfl
  have hmax : Int64.maxValue.toUInt64.toNat = 2 ^ 63 - 1 := rfl
  rw [signedResult]
  cases negative with
  | true =>
      simp only [if_true, gt_iff_lt, UInt64.lt_iff_toNat_lt, hlimit, signed_true]
      split
      · rw [checkedResult_of_not_fits (by rw [FitsInt64]; omega)]
      · have hfits : FitsInt64 (-(magnitude.toNat : ℤ)) := by
          constructor <;> omega
        rw [checkedResult_of_fits hfits]
        congr 1
        rw [← Int64.toInt_inj, toInt_ofInt_of_fits hfits]
        split
        · rename_i heq
          rw [heq, hlimit]
          rfl
        · rename_i hne
          rw [← UInt64.toNat_inj, hlimit] at hne
          have hword := toInt_toInt64_of_lt (x := magnitude) (by omega)
          rw [toInt_neg_of_fits (by rwa [hword]), hword]
  | false =>
      simp only [Bool.false_eq_true, if_false, gt_iff_lt, UInt64.lt_iff_toNat_lt, hmax,
        signed_false]
      split
      · rw [checkedResult_of_not_fits (by rw [FitsInt64]; omega)]
      · have hfits : FitsInt64 (magnitude.toNat : ℤ) := by
          constructor <;> omega
        rw [checkedResult_of_fits hfits]
        congr 1
        rw [← Int64.toInt_inj, toInt_ofInt_of_fits hfits, toInt_toInt64_of_lt (by omega)]

/-! ## Rounded shifts -/

/-- Discard the fractional bits of a magnitude, rounding once. -/
def roundShift (magnitude : Accum) (shift : UInt64) (negative : Bool) (out : Int64) :
    Status × Int64 :=
  if magnitude.high >>> shift ≠ 0 then
    (.errorRange, out)
  else
    let quotient := (magnitude.low >>> shift) ||| (magnitude.high <<< (64 - shift))
    let remainder := magnitude.low &&& (((1 : UInt64) <<< shift) - 1)
    if remainder ≥ (1 : UInt64) <<< (shift - 1) then
      if quotient = 0xffffffffffffffff then
        (.errorRange, out)
      else
        signedResult (quotient + 1) negative out
    else
      signedResult quotient negative out

/-- Both signs reject a magnitude of `2 ^ 64` or more. -/
theorem checkedResult_signed_of_le {n : ℕ} (hn : 2 ^ 64 ≤ n) (negative : Bool)
    (old : Int64) :
    checkedResult (signed negative (n : ℤ)) old = (.errorRange, old) := by
  apply checkedResult_of_not_fits
  cases negative <;> simp only [signed_true, signed_false, FitsInt64] <;> omega

/-- The last step of both rounding paths: a floor quotient and a round-up
decision give the checked rounded result. -/
theorem increment_signedResult (quotient : UInt64) (up : Prop) [Decidable up]
    (negative : Bool) (out : Int64) :
    (if up then
        if quotient = 0xffffffffffffffff then (Status.errorRange, out)
        else signedResult (quotient + 1) negative out
      else signedResult quotient negative out) =
      checkedResult (signed negative
        ((quotient.toNat + if up then 1 else 0 : ℕ) : ℤ)) out := by
  have hlt := quotient.toNat_lt
  have hmax : (0xffffffffffffffff : UInt64).toNat = 2 ^ 64 - 1 := rfl
  by_cases hup : up
  · have hlast : quotient = 0xffffffffffffffff → quotient.toNat = 2 ^ 64 - 1 := by
      rintro rfl
      exact hmax
    simp only [if_pos hup]
    by_cases hq : quotient = 0xffffffffffffffff
    · rw [if_pos hq, checkedResult_signed_of_le]
      have := hlast hq
      omega
    · rw [if_neg hq, signedResult_eq, UInt64.toNat_add, UInt64.toNat_one,
        Nat.mod_eq_of_lt]
      rw [← UInt64.toNat_inj, hmax] at hq
      omega
  · simp only [if_neg hup, signedResult_eq, add_zero]

theorem toNat_one_shiftLeft {shift : UInt64} (hlt : shift.toNat < 64) :
    ((1 : UInt64) <<< shift).toNat = 2 ^ shift.toNat := by
  rw [toNat_shiftLeft_eq _ _ hlt, UInt64.toNat_one, one_mul, Nat.mod_eq_of_lt]
  exact Nat.pow_lt_pow_right (by decide) hlt

theorem toNat_and_lowMask (x : UInt64) {shift : UInt64} (hlt : shift.toNat < 64) :
    (x &&& (((1 : UInt64) <<< shift) - 1)).toNat = x.toNat % 2 ^ shift.toNat := by
  have hone : ((1 : UInt64) <<< shift - 1).toNat = 2 ^ shift.toNat - 1 := by
    rw [UInt64.toNat_sub_of_le, toNat_one_shiftLeft hlt, UInt64.toNat_one]
    rw [UInt64.le_iff_toNat_le, toNat_one_shiftLeft hlt, UInt64.toNat_one]
    exact Nat.one_le_two_pow
  rw [UInt64.toNat_and, hone, Nat.and_two_pow_sub_one_eq_mod]

/-- The masked half test is the remainder test of `roundedQuotient`. -/
theorem lowMask_ge_half_iff (x : UInt64) {shift : UInt64}
    (hpos : 0 < shift.toNat) (hlt : shift.toNat < 64) :
    x &&& (((1 : UInt64) <<< shift) - 1) ≥ (1 : UInt64) <<< (shift - 1) ↔
      2 ^ shift.toNat - x.toNat % 2 ^ shift.toNat ≤ x.toNat % 2 ^ shift.toNat := by
  have hpred : (shift - 1).toNat = shift.toNat - 1 := by
    rw [UInt64.toNat_sub_of_le, UInt64.toNat_one]
    rw [UInt64.le_iff_toNat_le, UInt64.toNat_one]
    omega
  have hdouble : 2 ^ shift.toNat = 2 * 2 ^ (shift.toNat - 1) := by
    rw [← pow_succ']
    congr 1
    omega
  rw [ge_iff_le, UInt64.le_iff_toNat_le, toNat_and_lowMask x hlt,
    toNat_one_shiftLeft (by omega), hpred]
  omega

theorem roundShift_eq (magnitude : Accum) {shift : UInt64}
    (hpos : 0 < shift.toNat) (hlt : shift.toNat < 64) (negative : Bool) (out : Int64) :
    roundShift magnitude shift negative out =
      checkedResult (signed negative
        (roundedQuotient magnitude.toNat (2 ^ shift.toNat) : ℤ)) out := by
  have hlow := magnitude.low.toNat_lt
  have hpow : 2 ^ 64 = 2 ^ (64 - shift.toNat) * 2 ^ shift.toNat := by
    rw [← pow_add]
    congr 1
    omega
  have hguard : magnitude.high >>> shift ≠ 0 ↔
      2 ^ shift.toNat ≤ magnitude.high.toNat := by
    rw [ne_eq, ← UInt64.toNat_inj, toNat_shiftRight_eq _ _ hlt, UInt64.toNat_zero,
      Nat.div_eq_zero_iff_lt (Nat.two_pow_pos _), not_lt]
  rw [roundShift]
  by_cases hhigh : 2 ^ shift.toNat ≤ magnitude.high.toNat
  · rw [if_pos (hguard.mpr hhigh), checkedResult_signed_of_le]
    rw [roundedQuotient]
    apply le_add_right
    rw [Nat.le_div_iff_mul_le (Nat.two_pow_pos _), Accum.toNat, mul_comm]
    exact le_add_right (Nat.mul_le_mul_right _ hhigh)
  · rw [if_neg (fun h => hhigh (hguard.mp h))]
    rw [not_le] at hhigh
    -- The high limb supplies the upper quotient bits without truncation.
    have hquot : (magnitude.low >>> shift ||| magnitude.high <<< (64 - shift)).toNat =
        magnitude.toNat / 2 ^ shift.toNat := by
      rw [UInt64.toNat_or, toNat_shiftRight_eq _ _ hlt,
        toNat_shiftLeft_eq _ _ (by rw [toNat_sixtyFour_sub _ hlt.le]; omega),
        toNat_sixtyFour_sub _ hlt.le, Nat.mod_eq_of_lt, lor_mul_two_pow, Accum.toNat,
        hpow, ← mul_assoc, Nat.add_comm (_ * 2 ^ shift.toNat),
        Nat.add_mul_div_right _ _ (Nat.two_pow_pos _), Nat.add_comm]
      · rw [Nat.div_lt_iff_lt_mul (Nat.two_pow_pos _), ← hpow]
        exact hlow
      · rw [hpow, mul_comm]
        exact Nat.mul_lt_mul_of_pos_left hhigh (Nat.two_pow_pos _)
    have hrem : magnitude.toNat % 2 ^ shift.toNat =
        magnitude.low.toNat % 2 ^ shift.toNat := by
      rw [Accum.toNat, hpow, ← mul_assoc, Nat.add_mod, Nat.mul_mod_left, zero_add,
        Nat.mod_mod]
    have hhalf := lowMask_ge_half_iff magnitude.low hpos hlt
    rw [← hrem] at hhalf
    simp only [hhalf]
    rw [increment_signedResult, hquot, roundedQuotient]

/-! ## Restoring division -/

/-- The 64-step loop: one quotient bit per step, with the bit shifted out of
`rest` kept apart so that `2 * rest` never overflows.  Returns the quotient
and the remainder. -/
def divideLoop (low divisor : UInt64) : ℕ → UInt64 → UInt64 → UInt64 × UInt64
  | 0, quotient, rest => (quotient, rest)
  | i + 1, quotient, rest =>
      let carry := rest >>> 63
      let rest := (rest <<< 1) ||| ((low >>> UInt64.ofNat i) &&& 1)
      let quotient := quotient <<< 1
      if carry ≠ 0 ∨ rest ≥ divisor then
        divideLoop low divisor i (quotient ||| 1) (rest - divisor)
      else
        divideLoop low divisor i quotient rest

/-- Two-limb by one-limb division; `high < divisor` at every call. -/
def divideMagnitude (high low divisor : UInt64) : UInt64 × UInt64 :=
  if high = 0 then (low / divisor, low % divisor)
  else divideLoop low divisor 64 0 high

theorem toNat_bit (low : UInt64) {i : ℕ} (hi : i < 64) :
    ((low >>> UInt64.ofNat i) &&& 1).toNat = low.toNat / 2 ^ i % 2 := by
  have hnat : (UInt64.ofNat i).toNat = i := by
    rw [UInt64.toNat_ofNat', Nat.mod_eq_of_lt (by omega)]
  rw [UInt64.toNat_and, toNat_shiftRight_eq _ _ (by omega), hnat]
  exact Nat.and_two_pow_sub_one_eq_mod _ 1

theorem toNat_shiftLeft_one (x : UInt64) :
    (x <<< 1).toNat = 2 * x.toNat % 2 ^ 64 := by
  rw [toNat_shiftLeft_eq _ _ (by decide)]
  exact congrArg (· % 2 ^ 64) (Nat.mul_comm _ _)

theorem toNat_shiftLeft_one_or {x y : UInt64} (hy : y.toNat < 2) :
    ((x <<< 1) ||| y).toNat = 2 * x.toNat % 2 ^ 64 + y.toNat := by
  have hlor := mul_two_pow_lor (x.toNat % 2 ^ 63) (show y.toNat < 2 ^ 1 from hy)
  rw [UInt64.toNat_or, toNat_shiftLeft_one,
    show 2 * x.toNat % 2 ^ 64 = x.toNat % 2 ^ 63 * 2 ^ 1 by omega, hlor]

theorem toNat_shiftRight_63 (x : UInt64) : (x >>> 63).toNat = x.toNat / 2 ^ 63 := by
  rw [toNat_shiftRight_eq _ _ (by decide)]
  rfl

/-- The loop invariant: quotient and remainder always describe the bits
consumed so far, and each step brings down one more bit of `low`. -/
theorem divideLoop_spec (low divisor : UInt64) (i : ℕ) (quotient rest : UInt64)
    (hi : i ≤ 64) (hrest : rest.toNat < divisor.toNat)
    (hquot : quotient.toNat < 2 ^ (64 - i)) :
    (divideLoop low divisor i quotient rest).1.toNat * divisor.toNat +
        (divideLoop low divisor i quotient rest).2.toNat =
      (quotient.toNat * divisor.toNat + rest.toNat) * 2 ^ i + low.toNat % 2 ^ i ∧
    (divideLoop low divisor i quotient rest).2.toNat < divisor.toNat := by
  induction i generalizing quotient rest with
  | zero => simp [divideLoop, hrest, Nat.mod_one]
  | succ i ih =>
      have hdiv := divisor.toNat_lt
      have hrlt := rest.toNat_lt
      have hbit : ((low >>> UInt64.ofNat i) &&& 1).toNat < 2 := by
        rw [toNat_bit low (by omega)]
        omega
      have hnext := toNat_shiftLeft_one_or (x := rest) hbit
      have hpow : 2 ^ (64 - i) = 2 * 2 ^ (64 - (i + 1)) := by
        rw [← pow_succ']
        congr 1
        omega
      have hbound : 2 ^ (64 - (i + 1)) ≤ 2 ^ 63 :=
        Nat.pow_le_pow_right (by decide) (by omega)
      have hshift : (quotient <<< 1).toNat = 2 * quotient.toNat := by
        rw [toNat_shiftLeft_one]
        omega
      have hodd : (quotient <<< 1 ||| 1).toNat = 2 * quotient.toNat + 1 := by
        rw [toNat_shiftLeft_one_or (by decide), UInt64.toNat_one]
        omega
      have hlow : low.toNat % 2 ^ (i + 1) =
          low.toNat % 2 ^ i + 2 ^ i * (low.toNat / 2 ^ i % 2) :=
        Nat.mod_pow_succ
      rw [toNat_bit low (by omega)] at hnext hbit
      rw [divideLoop]
      simp only [ne_eq, ge_iff_le, ← UInt64.toNat_inj, UInt64.le_iff_toNat_le,
        toNat_shiftRight_63, hnext, UInt64.toNat_zero]
      split
      · -- The doubled remainder reaches the divisor: subtract and record a one.
        rename_i hge
        have hsub : ((rest <<< 1 ||| low >>> UInt64.ofNat i &&& 1) - divisor).toNat =
            2 * rest.toNat + low.toNat / 2 ^ i % 2 - divisor.toNat := by
          rw [UInt64.toNat_sub, hnext]
          omega
        have hrec := ih (quotient <<< 1 ||| 1)
          ((rest <<< 1 ||| low >>> UInt64.ofNat i &&& 1) - divisor) (by omega)
          (by rw [hsub]; omega) (by rw [hodd]; omega)
        rw [hsub, hodd] at hrec
        refine ⟨hrec.1.trans ?_, hrec.2⟩
        have hcons : (2 * quotient.toNat + 1) * divisor.toNat +
            (2 * rest.toNat + low.toNat / 2 ^ i % 2 - divisor.toNat) =
            2 * (quotient.toNat * divisor.toNat + rest.toNat) +
              low.toNat / 2 ^ i % 2 := by
          have hexp : (2 * quotient.toNat + 1) * divisor.toNat =
              2 * (quotient.toNat * divisor.toNat) + divisor.toNat := by ring
          omega
        rw [hcons, hlow]
        ring
      · rename_i hlt
        have hrest' : (rest <<< 1 ||| low >>> UInt64.ofNat i &&& 1).toNat =
            2 * rest.toNat + low.toNat / 2 ^ i % 2 := by
          rw [hnext]
          omega
        have hrec := ih (quotient <<< 1) (rest <<< 1 ||| low >>> UInt64.ofNat i &&& 1)
          (by omega) (by rw [hrest']; omega) (by rw [hshift]; omega)
        rw [hrest', hshift] at hrec
        refine ⟨hrec.1.trans ?_, hrec.2⟩
        rw [hlow]
        ring

/-- Quotient and remainder are exact for every numerator whose quotient fits. -/
theorem divideMagnitude_spec {high divisor : UInt64} (low : UInt64)
    (h : high.toNat < divisor.toNat) :
    (divideMagnitude high low divisor).1.toNat =
        (high.toNat * 2 ^ 64 + low.toNat) / divisor.toNat ∧
      (divideMagnitude high low divisor).2.toNat =
        (high.toNat * 2 ^ 64 + low.toNat) % divisor.toNat := by
  rw [divideMagnitude]
  split
  · rename_i hzero
    rw [hzero, UInt64.toNat_zero, zero_mul, zero_add]
    exact ⟨UInt64.toNat_div _ _, UInt64.toNat_mod _ _⟩
  · have hspec := divideLoop_spec low divisor 64 0 high le_rfl h (by decide)
    rw [UInt64.toNat_zero, zero_mul, zero_add, Nat.mod_eq_of_lt low.toNat_lt] at hspec
    rw [← hspec.1]
    constructor
    · rw [Nat.add_comm, Nat.add_mul_div_right _ _ (by omega),
        Nat.div_eq_of_lt hspec.2, zero_add]
    · rw [Nat.add_comm, Nat.add_mul_mod_self_right, Nat.mod_eq_of_lt hspec.2]

def roundedDivision (numerator : Accum) (divisor : UInt64) (negative : Bool)
    (out : Int64) : Status × Int64 :=
  if numerator.high ≥ divisor then
    (.errorRange, out)
  else
    let quotient := (divideMagnitude numerator.high numerator.low divisor).1
    let remainder := (divideMagnitude numerator.high numerator.low divisor).2
    -- `remainder * 2` could overflow for wide divisors.
    if remainder ≥ divisor - remainder then
      if quotient = 0xffffffffffffffff then
        (.errorRange, out)
      else
        signedResult (quotient + 1) negative out
    else
      signedResult quotient negative out

theorem roundedDivision_eq (numerator : Accum) {divisor : UInt64}
    (hpos : 0 < divisor.toNat) (negative : Bool) (out : Int64) :
    roundedDivision numerator divisor negative out =
      checkedResult (signed negative
        (roundedQuotient numerator.toNat divisor.toNat : ℤ)) out := by
  rw [roundedDivision]
  by_cases hhigh : divisor.toNat ≤ numerator.high.toNat
  · rw [if_pos (UInt64.le_iff_toNat_le.mpr hhigh), checkedResult_signed_of_le]
    rw [roundedQuotient]
    apply le_add_right
    rw [Nat.le_div_iff_mul_le hpos, Accum.toNat, mul_comm]
    exact le_add_right (Nat.mul_le_mul_right _ hhigh)
  · rw [if_neg (fun h => hhigh (UInt64.le_iff_toNat_le.mp h))]
    obtain ⟨hquot, hrem⟩ := divideMagnitude_spec numerator.low (not_le.mp hhigh)
    have hmod := Nat.mod_lt (numerator.high.toNat * 2 ^ 64 + numerator.low.toNat) hpos
    have hsub : (divisor -
        (divideMagnitude numerator.high numerator.low divisor).2).toNat =
        divisor.toNat -
          (divideMagnitude numerator.high numerator.low divisor).2.toNat := by
      apply UInt64.toNat_sub_of_le
      rw [UInt64.le_iff_toNat_le, hrem]
      exact hmod.le
    simp only [ge_iff_le, UInt64.le_iff_toNat_le, hsub]
    rw [increment_signedResult, hquot, hrem, roundedQuotient, Accum.toNat]

/-! ## Public scalar operations -/

def linearsFixedFromInt (integer : Int64) (out : Option Int64) :
    Status × Option Int64 :=
  withOut out fun old =>
    if integer < -4294967296 ∨ integer > 4294967295 then (.errorRange, old)
    else (.ok, integer * fixedOne)

def linearsFixedAdd (a b : Int64) (out : Option Int64) : Status × Option Int64 :=
  withOut out fun old =>
    if (b > 0 ∧ a > Int64.maxValue - b) ∨ (b < 0 ∧ a < Int64.minValue - b) then
      (.errorRange, old)
    else (.ok, a + b)

def linearsFixedSub (a b : Int64) (out : Option Int64) : Status × Option Int64 :=
  withOut out fun old =>
    if (b > 0 ∧ a < Int64.minValue + b) ∨ (b < 0 ∧ a > Int64.maxValue + b) then
      (.errorRange, old)
    else (.ok, a - b)

def linearsFixedMul (a b : Int64) (out : Option Int64) : Status × Option Int64 :=
  withOut out fun old =>
    roundShift (lnMultiplyUnsigned (lnMagnitude a) (lnMagnitude b)) 31
      (decide (a < 0) != decide (b < 0)) old

def linearsFixedDiv (a b : Int64) (out : Option Int64) : Status × Option Int64 :=
  withOut out fun old =>
    if b = 0 then (.errorDomain, old)
    else roundedDivision (lnShiftU64 (lnMagnitude a) 31) (lnMagnitude b)
      (decide (a < 0) != decide (b < 0)) old

def linearsFixedMuldiv (a b divisor : Int64) (out : Option Int64) :
    Status × Option Int64 :=
  withOut out fun old =>
    if divisor = 0 then (.errorDomain, old)
    else roundedDivision (lnMultiplyUnsigned (lnMagnitude a) (lnMagnitude b))
      (lnMagnitude divisor)
      ((decide (a < 0) != decide (b < 0)) != decide (divisor < 0)) old

def linearsFixedNeg (value : Int64) (out : Option Int64) : Status × Option Int64 :=
  withOut out fun old =>
    if value = Int64.minValue then (.errorRange, old) else (.ok, -value)

def linearsFixedAbs (value : Int64) (out : Option Int64) : Status × Option Int64 :=
  withOut out fun old =>
    if value = Int64.minValue then (.errorRange, old)
    else (.ok, if value < 0 then -value else value)

def linearsFixedCompare (a b : Int64) : ℤ :=
  (if a > b then 1 else 0) - (if a < b then 1 else 0)

def linearsFixedFromQ15 (value : Int16) : Int64 :=
  value.toInt64 * 65536

def linearsFixedFromQ31 (value : Int32) : Int64 :=
  value.toInt64

def linearsFixedToQ15 (value : Int64) (out : Option Int16) :
    Status × Option Int16 :=
  withOut out fun old =>
    if value < -fixedOne ∨ value > fixedOne then (.errorRange, old)
    else
      let magnitude := lnMagnitude value
      let rounded := (magnitude >>> 16) +
        (if magnitude &&& 65535 ≥ 32768 then 1 else 0)
      let raw : UInt64 := if value ≥ 0 ∧ rounded = 32768 then 32767 else rounded
      (.ok, (if value < 0 then -raw.toUInt32.toInt32 else raw.toUInt32.toInt32).toInt16)

def linearsFixedToQ31 (value : Int64) (out : Option Int32) :
    Status × Option Int32 :=
  withOut out fun old =>
    if value < -fixedOne ∨ value > fixedOne then (.errorRange, old)
    else (.ok, if value = fixedOne then Int32.maxValue else value.toInt32)

theorem toInt_linearsFixedFromQ15 (value : Int16) :
    (linearsFixedFromQ15 value).toInt = value.toInt * 2 ^ 16 := by
  have hlow := value.le_toInt
  have hhigh := value.toInt_lt
  rw [linearsFixedFromQ15, toInt_mul_of_fits] <;> rw [Int16.toInt_toInt64]
  · rfl
  · rw [show (65536 : Int64).toInt = 65536 from rfl, FitsInt64]
    omega

/-! ## What each operation stores -/

/-- A checked call that ends with exact integer result `n`. -/
def checkedCall (n : ℤ) (old : Int64) : Status × Option Int64 :=
  ((checkedResult n old).1, some (checkedResult n old).2)

theorem checkedCall_of_fits {n : ℤ} (hn : FitsInt64 n) (old : Int64) :
    checkedCall n old = (.ok, some (Int64.ofInt n)) := by
  rw [checkedCall, checkedResult_of_fits hn]

theorem checkedCall_of_not_fits {n : ℤ} (hn : ¬FitsInt64 n) (old : Int64) :
    checkedCall n old = (.errorRange, some old) := by
  rw [checkedCall, checkedResult_of_not_fits hn]

theorem linearsFixedAdd_eq (a b old : Int64) :
    linearsFixedAdd a b (some old) = checkedCall (a.toInt + b.toInt) old := by
  have hal := a.le_toInt
  have hau := a.toInt_lt
  have hbl := b.le_toInt
  have hbu := b.toInt_lt
  rw [linearsFixedAdd, withOut_some, checkedCall]
  have hguard : ((b > 0 ∧ a > Int64.maxValue - b) ∨ (b < 0 ∧ a < Int64.minValue - b)) ↔
      ¬FitsInt64 (a.toInt + b.toInt) := by
    simp only [gt_iff_lt, Int64.lt_iff_toInt_lt, Int64.toInt_zero, Int64.toInt_sub,
      Int64.toInt_maxValue, Int64.toInt_minValue, FitsInt64]
    constructor
    · rintro (⟨hb, hab⟩ | ⟨hb, hab⟩)
      · rw [bmod_of_fits (by constructor <;> omega)] at hab
        omega
      · rw [bmod_of_fits (by constructor <;> omega)] at hab
        omega
    · intro hfits
      rcases lt_trichotomy b.toInt 0 with hb | hb | hb
      · right
        rw [bmod_of_fits (by constructor <;> omega)]
        omega
      · omega
      · left
        rw [bmod_of_fits (by constructor <;> omega)]
        omega
  simp only [hguard]
  by_cases hfits : FitsInt64 (a.toInt + b.toInt)
  · rw [if_neg (not_not.mpr hfits), checkedResult_of_fits hfits, Int64.ofInt_add,
      Int64.ofInt_toInt, Int64.ofInt_toInt]
  · rw [if_pos hfits, checkedResult_of_not_fits hfits]

theorem linearsFixedSub_eq (a b old : Int64) :
    linearsFixedSub a b (some old) = checkedCall (a.toInt - b.toInt) old := by
  have hal := a.le_toInt
  have hau := a.toInt_lt
  have hbl := b.le_toInt
  have hbu := b.toInt_lt
  rw [linearsFixedSub, withOut_some, checkedCall]
  have hguard : ((b > 0 ∧ a < Int64.minValue + b) ∨ (b < 0 ∧ a > Int64.maxValue + b)) ↔
      ¬FitsInt64 (a.toInt - b.toInt) := by
    simp only [gt_iff_lt, Int64.lt_iff_toInt_lt, Int64.toInt_zero, Int64.toInt_add,
      Int64.toInt_maxValue, Int64.toInt_minValue, FitsInt64]
    constructor
    · rintro (⟨hb, hab⟩ | ⟨hb, hab⟩)
      · rw [bmod_of_fits (by constructor <;> omega)] at hab
        omega
      · rw [bmod_of_fits (by constructor <;> omega)] at hab
        omega
    · intro hfits
      rcases lt_trichotomy b.toInt 0 with hb | hb | hb
      · right
        rw [bmod_of_fits (by constructor <;> omega)]
        omega
      · omega
      · left
        rw [bmod_of_fits (by constructor <;> omega)]
        omega
  simp only [hguard]
  by_cases hfits : FitsInt64 (a.toInt - b.toInt)
  · rw [if_neg (not_not.mpr hfits), checkedResult_of_fits hfits, Int64.ofInt_sub,
      Int64.ofInt_toInt, Int64.ofInt_toInt]
  · rw [if_pos hfits, checkedResult_of_not_fits hfits]

theorem minValue_iff_not_fits_neg (value : Int64) :
    value = Int64.minValue ↔ ¬FitsInt64 (-value.toInt) := by
  have hl := value.le_toInt
  have hu := value.toInt_lt
  rw [← Int64.toInt_inj, Int64.toInt_minValue, FitsInt64]
  omega

theorem linearsFixedNeg_eq (value old : Int64) :
    linearsFixedNeg value (some old) = checkedCall (-value.toInt) old := by
  rw [linearsFixedNeg, withOut_some, checkedCall]
  simp only [minValue_iff_not_fits_neg]
  by_cases hfits : FitsInt64 (-value.toInt)
  · rw [if_neg (not_not.mpr hfits), checkedResult_of_fits hfits, Int64.ofInt_neg,
      Int64.ofInt_toInt]
  · rw [if_pos hfits, checkedResult_of_not_fits hfits]

theorem linearsFixedAbs_eq (value old : Int64) :
    linearsFixedAbs value (some old) = checkedCall |value.toInt| old := by
  have hl := value.le_toInt
  have hu := value.toInt_lt
  have hfits_abs : FitsInt64 |value.toInt| ↔ FitsInt64 (-value.toInt) := by
    rw [FitsInt64, FitsInt64, Int.abs_eq_natAbs]
    omega
  rw [linearsFixedAbs, withOut_some, checkedCall]
  simp only [minValue_iff_not_fits_neg, ← hfits_abs]
  by_cases hfits : FitsInt64 |value.toInt|
  · rw [if_neg (not_not.mpr hfits), checkedResult_of_fits hfits]
    simp only [lt_zero_iff_toInt]
    split
    · rename_i hneg
      rw [abs_of_neg hneg, Int64.ofInt_neg, Int64.ofInt_toInt]
    · rename_i hneg
      rw [abs_of_nonneg (not_lt.mp hneg), Int64.ofInt_toInt]
  · rw [if_pos hfits, checkedResult_of_not_fits hfits]

/-- Rounding a quotient of signed integers rounds the magnitudes. -/
theorem roundAway_div_of_signed {n d : ℤ} {s t : Bool} {magnitude divisor : ℕ}
    (hn : n = signed s (magnitude : ℤ)) (hd : d = signed t (divisor : ℤ))
    (hpos : 0 < divisor) :
    roundAway ((n : ℚ) / d) =
      signed (s != t) (roundedQuotient magnitude divisor : ℤ) := by
  rw [hn, hd, cast_signed, cast_signed, signed_div_signed, Int.cast_natCast,
    Int.cast_natCast, roundAway_signed_div _ _ hpos]

theorem toInt_eq_signed_magnitude (a : Int64) :
    a.toInt = signed (decide (a < 0)) ((lnMagnitude a).toNat : ℤ) := by
  rw [toNat_lnMagnitude, signed_natAbs_toInt]

theorem mul_eq_signed_magnitude (a b : Int64) :
    a.toInt * b.toInt = signed (decide (a < 0) != decide (b < 0))
      (((lnMagnitude a).toNat * (lnMagnitude b).toNat : ℕ) : ℤ) := by
  rw [Nat.cast_mul, ← signed_mul_signed, ← toInt_eq_signed_magnitude,
    ← toInt_eq_signed_magnitude]

theorem toNat_lnMagnitude_pos {b : Int64} (hb : b ≠ 0) :
    0 < (lnMagnitude b).toNat := by
  rw [toNat_lnMagnitude, Int.natAbs_pos, ne_eq, ← Int64.toInt_zero, Int64.toInt_inj]
  exact hb

theorem toNat_thirtyOne : (31 : UInt64).toNat = 31 := rfl

theorem linearsFixedMul_eq (a b old : Int64) :
    linearsFixedMul a b (some old) =
      checkedCall (roundAway ((a.toInt : ℚ) * b.toInt / 2 ^ 31)) old := by
  have hround := roundAway_div_of_signed (mul_eq_signed_magnitude a b)
    (show (2 ^ 31 : ℤ) = signed false ((2 ^ 31 : ℕ) : ℤ) by norm_num) (by norm_num)
  rw [Int.cast_mul, Bool.bne_false] at hround
  have hcast : ((2 ^ 31 : ℤ) : ℚ) = 2 ^ 31 := by norm_num
  rw [← hcast, hround, linearsFixedMul, withOut_some,
    roundShift_eq _ (by decide) (by decide), toNat_lnMultiplyUnsigned, toNat_thirtyOne,
    checkedCall]

theorem linearsFixedDiv_eq (a old : Int64) {b : Int64} (hb : b ≠ 0) :
    linearsFixedDiv a b (some old) =
      checkedCall (roundAway ((a.toInt : ℚ) * 2 ^ 31 / b.toInt)) old := by
  have hshift : a.toInt * 2 ^ 31 = signed (decide (a < 0))
      (((lnMagnitude a).toNat * 2 ^ 31 : ℕ) : ℤ) := by
    rw [Nat.cast_mul, ← signed_mul, ← toInt_eq_signed_magnitude]
    norm_num
  have hround := roundAway_div_of_signed hshift (toInt_eq_signed_magnitude b)
    (toNat_lnMagnitude_pos hb)
  rw [Int.cast_mul, Int.cast_pow, Int.cast_ofNat] at hround
  rw [hround, linearsFixedDiv, withOut_some, if_neg hb,
    roundedDivision_eq _ (toNat_lnMagnitude_pos hb),
    toNat_lnShiftU64 _ _ (by decide) (by decide), toNat_thirtyOne, checkedCall]

theorem linearsFixedMuldiv_eq (a b old : Int64) {divisor : Int64} (hd : divisor ≠ 0) :
    linearsFixedMuldiv a b divisor (some old) =
      checkedCall (roundAway ((a.toInt : ℚ) * b.toInt / divisor.toInt)) old := by
  have hround := roundAway_div_of_signed (mul_eq_signed_magnitude a b)
    (toInt_eq_signed_magnitude divisor) (toNat_lnMagnitude_pos hd)
  rw [Int.cast_mul] at hround
  rw [hround, linearsFixedMuldiv, withOut_some, if_neg hd,
    roundedDivision_eq _ (toNat_lnMagnitude_pos hd), toNat_lnMultiplyUnsigned,
    checkedCall]

/-- The contract of a rounded operation with exact rational value `q`: the
cell receives the rounded integer when it fits, and is left alone otherwise. -/
def StoresRounded (call : Option Int64 → Status × Option Int64) (q : ℚ) : Prop :=
  ∀ old : Int64,
    (FitsInt64 (roundAway q) →
      ∃ stored, call (some old) = (.ok, some stored) ∧ stored.toInt = roundAway q) ∧
    (¬FitsInt64 (roundAway q) → call (some old) = (.errorRange, some old))

theorem storesRounded_of_eq {call : Option Int64 → Status × Option Int64} {q : ℚ}
    (h : ∀ old, call (some old) = checkedCall (roundAway q) old) :
    StoresRounded call q := by
  intro old
  constructor
  · intro hfits
    refine ⟨Int64.ofInt (roundAway q), ?_, toInt_ofInt_of_fits hfits⟩
    rw [h, checkedCall_of_fits hfits]
  · intro hfits
    rw [h, checkedCall_of_not_fits hfits]

/-- Multiplication, division and fused multiply-divide are correctly rounded on
every operand, reject a zero divisor, and both multiplication paths agree. -/
theorem fixed_operations_correctly_rounded :
    (∀ a b : Int64,
      StoresRounded (linearsFixedMul a b) ((a.toInt : ℚ) * b.toInt / 2 ^ 31)) ∧
    (∀ a b : Int64, b ≠ 0 →
      StoresRounded (linearsFixedDiv a b) ((a.toInt : ℚ) * 2 ^ 31 / b.toInt)) ∧
    (∀ a b divisor : Int64, divisor ≠ 0 →
      StoresRounded (linearsFixedMuldiv a b divisor)
        ((a.toInt : ℚ) * b.toInt / divisor.toInt)) ∧
    (∀ a b old : Int64,
      linearsFixedDiv a 0 (some old) = (.errorDomain, some old) ∧
        linearsFixedMuldiv a b 0 (some old) = (.errorDomain, some old)) ∧
    (∀ a b : UInt64, lnMultiplyUnsigned a b = lnMultiplySchoolbook a b) := by
  refine ⟨?_, ?_, ?_, ?_, lnMultiplyUnsigned_eq_schoolbook⟩
  · intro a b
    exact storesRounded_of_eq (linearsFixedMul_eq a b)
  · intro a b hb
    exact storesRounded_of_eq fun old => linearsFixedDiv_eq a old hb
  · intro a b divisor hd
    exact storesRounded_of_eq fun old => linearsFixedMuldiv_eq a b old hd
  · intro a b old
    exact ⟨rfl, rfl⟩

end Xhive.Linears
