import Xhive.Linears.Status
import Xhive.Support.Words
import Mathlib.Algebra.Order.Ring.Abs
import Mathlib.Data.Int.ModEq

/-!
# Two-limb integers

The private bounded integer operations of `numeric_internal.h`.  All limbs are
unsigned words; signed values use two's complement.  Each operation is
followed by the lemma that says what it does to the integer it encodes.
-/

namespace Xhive.Linears

open Xhive.Support

/-- `linears_accum_t`: a 128-bit integer in two unsigned limbs. -/
structure Accum where
  low : UInt64
  high : UInt64
  deriving DecidableEq, Repr

namespace Accum

/-- The unsigned reading of both limbs. -/
def toNat (value : Accum) : ℕ :=
  value.high.toNat * 2 ^ 64 + value.low.toNat

/-- The two's-complement reading of both limbs. -/
def toInt (value : Accum) : ℤ :=
  if value.toNat < 2 ^ 127 then value.toNat else (value.toNat : ℤ) - 2 ^ 128

theorem toNat_lt (value : Accum) : value.toNat < 2 ^ 128 := by
  have hlow := value.low.toNat_lt
  have hhigh := value.high.toNat_lt
  rw [toNat]
  omega

theorem toNat_inj {x y : Accum} : x.toNat = y.toNat ↔ x = y := by
  constructor
  · intro h
    have hxl := x.low.toNat_lt
    have hyl := y.low.toNat_lt
    rw [toNat, toNat] at h
    have hlow : x.low = y.low := UInt64.toNat_inj.mp (by omega)
    have hhigh : x.high = y.high := UInt64.toNat_inj.mp (by omega)
    cases x
    cases y
    simp_all
  · rintro rfl
    rfl

/-- The signed values of two limbs. -/
def Fits (n : ℤ) : Prop :=
  -2 ^ 127 ≤ n ∧ n < 2 ^ 127

instance (n : ℤ) : Decidable (Fits n) :=
  inferInstanceAs (Decidable (_ ∧ _))

/-- The signed and unsigned readings agree modulo `2 ^ 128`. -/
theorem toInt_emod (value : Accum) :
    value.toInt % 2 ^ 128 = value.toNat := by
  have h := value.toNat_lt
  rw [toInt]
  split <;> omega

theorem toInt_inj {x y : Accum} : x.toInt = y.toInt ↔ x = y := by
  constructor
  · intro h
    have hx := x.toInt_emod
    rw [h, y.toInt_emod] at hx
    exact toNat_inj.mp (by exact_mod_cast hx.symm)
  · rintro rfl
    rfl

theorem toInt_of_lt {value : Accum} (h : value.toNat < 2 ^ 127) :
    value.toInt = value.toNat := by
  rw [toInt, if_pos h]

@[simp] theorem toInt_zero : toInt ⟨0, 0⟩ = 0 := by
  rw [toInt_of_lt (by decide)]
  decide

/-- A word pair encodes the one signed integer in range with its residue. -/
theorem toInt_eq_of_emod {value : Accum} {n : ℤ} (hn : Fits n)
    (h : n % 2 ^ 128 = value.toNat) : value.toInt = n := by
  have hlt := value.toNat_lt
  have h1 := hn.1
  have h2 := hn.2
  rw [toInt]
  split <;> omega

end Accum

/-! ## Magnitudes and signs -/

def lnMagnitude (value : Int64) : UInt64 :=
  if value < 0 then (-(value + 1)).toUInt64 + 1 else value.toUInt64

/-- The magnitude is exact for every word, `INT64_MIN` included. -/
theorem toNat_lnMagnitude (value : Int64) :
    (lnMagnitude value).toNat = value.toInt.natAbs := by
  have hle := value.le_toInt
  have hlt := value.toInt_lt
  rw [lnMagnitude]
  split
  · rename_i hneg
    rw [Int64.lt_iff_toInt_lt, Int64.toInt_zero] at hneg
    have hsucc : (value + 1).toInt = value.toInt + 1 := by
      rw [toInt_add_of_fits] <;> rw [Int64.toInt_one]
      constructor <;> omega
    have hcomp : (-(value + 1)).toInt = -(value.toInt + 1) := by
      rw [toInt_neg_of_fits] <;> rw [hsucc]
      constructor <;> omega
    have hword := toNat_toUInt64 (-(value + 1))
    rw [hcomp, if_neg (by omega)] at hword
    rw [UInt64.toNat_add, UInt64.toNat_one]
    omega
  · rename_i hneg
    rw [Int64.lt_iff_toInt_lt, Int64.toInt_zero] at hneg
    have hword := toNat_toUInt64 value
    rw [if_neg hneg] at hword
    omega

theorem toNat_lnMagnitude_le (value : Int64) :
    (lnMagnitude value).toNat ≤ 2 ^ 63 := by
  have hle := value.le_toInt
  have hlt := value.toInt_lt
  rw [toNat_lnMagnitude]
  omega

def lnNegate (value : Accum) : Accum :=
  let low := ~~~value.low + 1
  { low := low
    high := ~~~value.high + if low = 0 then 1 else 0 }

/-- Limbwise negation is negation modulo `2 ^ 128`. -/
theorem toNat_lnNegate (value : Accum) :
    (lnNegate value).toNat = (2 ^ 128 - value.toNat) % 2 ^ 128 := by
  have hlow := value.low.toNat_lt
  have hhigh := value.high.toNat_lt
  have hlow' : (~~~value.low + 1).toNat = (2 ^ 64 - value.low.toNat) % 2 ^ 64 := by
    rw [UInt64.toNat_add, UInt64.toNat_not, UInt64.toNat_one, UInt64.size]
    omega
  have hzero : ~~~value.low + 1 = 0 ↔ value.low.toNat = 0 := by
    rw [← UInt64.toNat_inj, hlow', UInt64.toNat_zero]
    omega
  rw [lnNegate, Accum.toNat, Accum.toNat]
  simp only [hlow', hzero, UInt64.toNat_add, UInt64.toNat_not, UInt64.size]
  split
  · rw [UInt64.toNat_one]
    omega
  · rw [UInt64.toNat_zero]
    omega

theorem toInt_lnNegate_of_le {value : Accum} (h : value.toNat ≤ 2 ^ 127) :
    (lnNegate value).toInt = -(value.toNat : ℤ) := by
  apply Accum.toInt_eq_of_emod
  · constructor <;> omega
  · rw [toNat_lnNegate]
    omega

/-- Limbwise negation is exact except at the most negative value. -/
theorem toInt_lnNegate {value : Accum} (h : Accum.Fits (-value.toInt)) :
    (lnNegate value).toInt = -value.toInt := by
  have hlt := value.toNat_lt
  apply Accum.toInt_eq_of_emod h
  rw [toNat_lnNegate, Accum.toInt]
  split <;> omega

def lnNegative (value : Accum) : Bool :=
  value.high >>> 63 ≠ 0

theorem lnNegative_iff (value : Accum) :
    lnNegative value = true ↔ value.toInt < 0 := by
  have hlow := value.low.toNat_lt
  have hhigh := value.high.toNat_lt
  have hshift : (value.high >>> 63).toNat = value.high.toNat / 2 ^ 63 := by
    rw [toNat_shiftRight_eq _ _ (by decide)]
    rfl
  rw [lnNegative, decide_eq_true_iff, ne_eq, ← UInt64.toNat_inj, hshift,
    UInt64.toNat_zero, Accum.toInt, Accum.toNat]
  split <;> omega

theorem lnNegative_iff_toNat (value : Accum) :
    lnNegative value = true ↔ 2 ^ 127 ≤ value.toNat := by
  have hlt := value.toNat_lt
  rw [lnNegative_iff, Accum.toInt]
  split <;> omega

def lnAbsolute (value : Accum) : Accum :=
  if lnNegative value then lnNegate value else value

theorem toNat_lnAbsolute (value : Accum) :
    (lnAbsolute value).toNat = value.toInt.natAbs := by
  have hlt := value.toNat_lt
  rw [lnAbsolute]
  split
  · rename_i hneg
    rw [lnNegative_iff] at hneg
    rw [toNat_lnNegate]
    rw [Accum.toInt] at hneg ⊢
    split at hneg <;> split <;> omega
  · rename_i hneg
    rw [lnNegative_iff] at hneg
    rw [Accum.toInt] at hneg ⊢
    split at hneg <;> split <;> omega

def lnCompareUnsigned (a b : Accum) : ℤ :=
  if a.high ≠ b.high then (if a.high > b.high then 1 else -1)
  else (if a.low > b.low then 1 else 0) - (if a.low < b.low then 1 else 0)

/-! ## Shifts -/

/-- `amount` is a format shift in `1..63` at every call site. -/
def lnShiftU64 (value amount : UInt64) : Accum :=
  { low := value <<< amount
    high := value >>> (64 - amount) }

theorem toNat_lnShiftU64 (value amount : UInt64)
    (hpos : 0 < amount.toNat) (hlt : amount.toNat < 64) :
    (lnShiftU64 value amount).toNat = value.toNat * 2 ^ amount.toNat := by
  have hsub := toNat_sixtyFour_sub amount hlt.le
  rw [lnShiftU64, Accum.toNat, toNat_shiftLeft_eq _ _ hlt,
    toNat_shiftRight_eq _ _ (by omega), hsub]
  have hpow : 2 ^ 64 = 2 ^ (64 - amount.toNat) * 2 ^ amount.toNat := by
    rw [← pow_add]
    congr 1
    omega
  have hdiv : value.toNat / 2 ^ (64 - amount.toNat) =
      value.toNat * 2 ^ amount.toNat / 2 ^ 64 := by
    rw [hpow, Nat.mul_div_mul_right _ _ (Nat.two_pow_pos _)]
  rw [hdiv]
  exact Nat.div_add_mod' _ _

def lnShiftI64 (value : Int64) (amount : UInt64) : Accum :=
  let result := lnShiftU64 (lnMagnitude value) amount
  if value < 0 then lnNegate result else result

theorem toInt_lnShiftI64 (value : Int64) (amount : UInt64)
    (hpos : 0 < amount.toNat) (hlt : amount.toNat < 64) :
    (lnShiftI64 value amount).toInt = value.toInt * 2 ^ amount.toNat := by
  have hmag := toNat_lnShiftU64 (lnMagnitude value) amount hpos hlt
  have hbound : (lnMagnitude value).toNat * 2 ^ amount.toNat ≤ 2 ^ 126 := by
    calc
      _ ≤ 2 ^ 63 * 2 ^ 63 := Nat.mul_le_mul (toNat_lnMagnitude_le value)
        (Nat.pow_le_pow_right (by decide) (by omega))
      _ = 2 ^ 126 := by norm_num
  rw [lnShiftI64]
  split
  · rename_i hneg
    rw [Int64.lt_iff_toInt_lt, Int64.toInt_zero] at hneg
    rw [toInt_lnNegate_of_le (by omega), hmag, toNat_lnMagnitude]
    push_cast
    rw [abs_of_neg hneg]
    ring
  · rename_i hneg
    rw [Int64.lt_iff_toInt_lt, Int64.toInt_zero, not_lt] at hneg
    rw [Accum.toInt_of_lt (by omega), hmag, toNat_lnMagnitude]
    push_cast
    rw [abs_of_nonneg hneg]

/-! ## Products -/

/-- Radix `2 ^ 32` schoolbook multiplication of two words. -/
def lnMultiplySchoolbook (a b : UInt64) : Accum :=
  let a0 := a &&& 0xffffffff
  let a1 := a >>> 32
  let b0 := b &&& 0xffffffff
  let b1 := b >>> 32
  let p00 := a0 * b0
  let t := a1 * b0 + (p00 >>> 32)
  let carry := t >>> 32
  let t' := (t &&& 0xffffffff) + a0 * b1
  { low := (t' <<< 32) ||| (p00 &&& 0xffffffff)
    high := a1 * b1 + carry + (t' >>> 32) }

/-- `64 x 64 -> 128` product.  Operands below `2 ^ 32` take one multiply. -/
def lnMultiplyUnsigned (a b : UInt64) : Accum :=
  if (a ||| b) ≤ 0xffffffff then
    { low := (a &&& 0xffffffff) * (b &&& 0xffffffff)
      high := 0 }
  else
    lnMultiplySchoolbook a b

theorem toNat_and_mask (a : UInt64) :
    (a &&& 0xffffffff).toNat = a.toNat % 2 ^ 32 := by
  rw [UInt64.toNat_and]
  exact Nat.and_two_pow_sub_one_eq_mod a.toNat 32

theorem toNat_shiftRight_32 (a : UInt64) :
    (a >>> 32).toNat = a.toNat / 2 ^ 32 := by
  rw [toNat_shiftRight_eq _ _ (by decide)]
  rfl

theorem mul_lt_of_lt_two_pow_32 {a b : ℕ} (ha : a < 2 ^ 32) (hb : b < 2 ^ 32) :
    a * b ≤ (2 ^ 32 - 1) * (2 ^ 32 - 1) :=
  Nat.mul_le_mul (by omega) (by omega)

/-- No partial sum of the schoolbook path overflows. -/
theorem toNat_lnMultiplySchoolbook (a b : UInt64) :
    (lnMultiplySchoolbook a b).toNat = a.toNat * b.toNat := by
  have ha := a.toNat_lt
  have hb := b.toNat_lt
  have h00 := mul_lt_of_lt_two_pow_32 (Nat.mod_lt a.toNat (by decide : 0 < 2 ^ 32))
    (Nat.mod_lt b.toNat (by decide : 0 < 2 ^ 32))
  have h10 := mul_lt_of_lt_two_pow_32 (show a.toNat / 2 ^ 32 < 2 ^ 32 by omega)
    (Nat.mod_lt b.toNat (by decide : 0 < 2 ^ 32))
  have h01 := mul_lt_of_lt_two_pow_32 (Nat.mod_lt a.toNat (by decide : 0 < 2 ^ 32))
    (show b.toNat / 2 ^ 32 < 2 ^ 32 by omega)
  have h11 := mul_lt_of_lt_two_pow_32 (show a.toNat / 2 ^ 32 < 2 ^ 32 by omega)
    (show b.toNat / 2 ^ 32 < 2 ^ 32 by omega)
  have hexact : a.toNat * b.toNat =
      a.toNat / 2 ^ 32 * (b.toNat / 2 ^ 32) * 2 ^ 64 +
        a.toNat / 2 ^ 32 * (b.toNat % 2 ^ 32) * 2 ^ 32 +
        a.toNat % 2 ^ 32 * (b.toNat / 2 ^ 32) * 2 ^ 32 +
        a.toNat % 2 ^ 32 * (b.toNat % 2 ^ 32) := by
    conv_lhs => rw [← Nat.div_add_mod a.toNat (2 ^ 32), ← Nat.div_add_mod b.toNat (2 ^ 32)]
    ring
  rw [hexact, lnMultiplySchoolbook, Accum.toNat]
  simp only [UInt64.toNat_or, toNat_shiftLeft_eq _ _ (show (32 : UInt64).toNat < 64 by decide),
    show (32 : UInt64).toNat = 32 from rfl, toNat_shiftRight_32, toNat_and_mask,
    UInt64.toNat_add, UInt64.toNat_mul]
  generalize a.toNat % 2 ^ 32 * (b.toNat % 2 ^ 32) = p00 at *
  generalize a.toNat / 2 ^ 32 * (b.toNat % 2 ^ 32) = p10 at *
  generalize a.toNat % 2 ^ 32 * (b.toNat / 2 ^ 32) = p01 at *
  generalize a.toNat / 2 ^ 32 * (b.toNat / 2 ^ 32) = p11 at *
  have hlow : ∀ t : ℕ, t * 2 ^ 32 % 2 ^ 64 = t % 2 ^ 32 * 2 ^ 32 := by
    intro t
    omega
  rw [hlow, mul_two_pow_lor _ (Nat.mod_lt _ (by decide))]
  omega

theorem toNat_lnMultiplyUnsigned (a b : UInt64) :
    (lnMultiplyUnsigned a b).toNat = a.toNat * b.toNat := by
  rw [lnMultiplyUnsigned]
  split
  · rename_i hsmall
    rw [UInt64.le_iff_toNat_le] at hsmall
    have hor : (a ||| b).toNat < 2 ^ 32 := by
      have : (0xffffffff : UInt64).toNat = 2 ^ 32 - 1 := rfl
      omega
    obtain ⟨ha, hb⟩ := (toNat_or_lt_iff a b 32).mp hor
    have hprod := mul_lt_of_lt_two_pow_32 ha hb
    rw [Accum.toNat, UInt64.toNat_mul, toNat_and_mask, toNat_and_mask,
      Nat.mod_eq_of_lt ha, Nat.mod_eq_of_lt hb, UInt64.toNat_zero]
    omega
  · exact toNat_lnMultiplySchoolbook a b

/-- Both multiplication paths compute the same limbs. -/
theorem lnMultiplyUnsigned_eq_schoolbook (a b : UInt64) :
    lnMultiplyUnsigned a b = lnMultiplySchoolbook a b := by
  rw [← Accum.toNat_inj, toNat_lnMultiplyUnsigned, toNat_lnMultiplySchoolbook]

def lnProduct (a b : Int64) : Accum :=
  let result := lnMultiplyUnsigned (lnMagnitude a) (lnMagnitude b)
  if decide (a < 0) != decide (b < 0) then lnNegate result else result

theorem magnitude_mul_le (a b : Int64) :
    (lnMagnitude a).toNat * (lnMagnitude b).toNat ≤ 2 ^ 126 := by
  calc
    _ ≤ 2 ^ 63 * 2 ^ 63 :=
      Nat.mul_le_mul (toNat_lnMagnitude_le a) (toNat_lnMagnitude_le b)
    _ = 2 ^ 126 := by norm_num

/-- The signed product is exact, `INT64_MIN * INT64_MIN` included. -/
theorem toInt_lnProduct (a b : Int64) :
    (lnProduct a b).toInt = a.toInt * b.toInt := by
  have hmag := toNat_lnMultiplyUnsigned (lnMagnitude a) (lnMagnitude b)
  have hbound := magnitude_mul_le a b
  have hexact : a.toInt * b.toInt =
      signed (decide (a < 0) != decide (b < 0))
        ((lnMagnitude a).toNat * (lnMagnitude b).toNat : ℤ) := by
    rw [toNat_lnMagnitude, toNat_lnMagnitude, ← signed_mul_signed,
      signed_natAbs_toInt, signed_natAbs_toInt]
  rw [hexact, lnProduct]
  cases decide (a < 0) != decide (b < 0) with
  | true =>
      rw [if_pos rfl, toInt_lnNegate_of_le (by omega), hmag, signed_true]
      push_cast
      rfl
  | false =>
      rw [if_neg (by decide), Accum.toInt_of_lt (by omega), hmag, signed_false]
      push_cast
      rfl

theorem abs_toInt_lnProduct_le (a b : Int64) :
    |(lnProduct a b).toInt| ≤ 2 ^ 126 := by
  have hbound := magnitude_mul_le a b
  rw [toNat_lnMagnitude, toNat_lnMagnitude, ← Int.natAbs_mul] at hbound
  rw [toInt_lnProduct, Int.abs_eq_natAbs]
  omega

/-! ## Sums -/

/-- The caller proves that the signed sum fits. -/
def lnAddUnchecked (a b : Accum) : Accum :=
  let low := a.low + b.low
  { low := low
    high := a.high + b.high + if low < a.low then 1 else 0 }

theorem toNat_lnAddUnchecked (a b : Accum) :
    (lnAddUnchecked a b).toNat = (a.toNat + b.toNat) % 2 ^ 128 := by
  have hal := a.low.toNat_lt
  have hbl := b.low.toNat_lt
  have hah := a.high.toNat_lt
  have hbh := b.high.toNat_lt
  simp only [lnAddUnchecked, Accum.toNat, toNat_add_lt_iff]
  split
  · rw [UInt64.toNat_add, UInt64.toNat_add, UInt64.toNat_add, UInt64.toNat_one]
    omega
  · rw [UInt64.toNat_add, UInt64.toNat_add, UInt64.toNat_add, UInt64.toNat_zero]
    omega

/-- A sum in range is exact. -/
theorem toInt_lnAddUnchecked {a b : Accum} (h : Accum.Fits (a.toInt + b.toInt)) :
    (lnAddUnchecked a b).toInt = a.toInt + b.toInt := by
  apply Accum.toInt_eq_of_emod h
  rw [toNat_lnAddUnchecked, Int.add_emod, Accum.toInt_emod, Accum.toInt_emod]
  norm_cast

/-- Fixed format alignment; the caller proves that the shifted value fits. -/
def lnShiftAccum (value : Accum) (amount : UInt64) : Accum :=
  { low := value.low <<< amount
    high := (value.high <<< amount) ||| (value.low >>> (64 - amount)) }

theorem toNat_lnShiftAccum (value : Accum) {amount : UInt64}
    (hpos : 0 < amount.toNat) (hlt : amount.toNat < 64) :
    (lnShiftAccum value amount).toNat =
      value.toNat * 2 ^ amount.toNat % 2 ^ 128 := by
  have hpow : 2 ^ 64 = 2 ^ (64 - amount.toNat) * 2 ^ amount.toNat := by
    rw [← pow_add]
    congr 1
    omega
  have hcross : value.low.toNat / 2 ^ (64 - amount.toNat) =
      value.low.toNat * 2 ^ amount.toNat / 2 ^ 64 := by
    rw [hpow, Nat.mul_div_mul_right _ _ (Nat.two_pow_pos _)]
  have hsmall : value.low.toNat / 2 ^ (64 - amount.toNat) < 2 ^ amount.toNat := by
    rw [Nat.div_lt_iff_lt_mul (Nat.two_pow_pos _), mul_comm, ← hpow]
    exact value.low.toNat_lt
  have hhigh : (value.high <<< amount ||| value.low >>> (64 - amount)).toNat =
      (value.high.toNat * 2 ^ amount.toNat +
        value.low.toNat * 2 ^ amount.toNat / 2 ^ 64) % 2 ^ 64 := by
    rw [UInt64.toNat_or, toNat_shiftLeft_eq _ _ hlt, toNat_shiftRight_eq _ _
      (by rw [toNat_sixtyFour_sub _ hlt.le]; omega), toNat_sixtyFour_sub _ hlt.le]
    have hmod : value.high.toNat * 2 ^ amount.toNat % 2 ^ 64 =
        value.high.toNat % 2 ^ (64 - amount.toNat) * 2 ^ amount.toNat := by
      conv_lhs => rw [hpow]
      exact Nat.mul_mod_mul_right _ _ _
    have hlor := mul_two_pow_lor
      (value.high.toNat % 2 ^ (64 - amount.toNat)) hsmall
    rw [hmod, hlor, ← hcross]
    have hlt' : value.high.toNat % 2 ^ (64 - amount.toNat) * 2 ^ amount.toNat +
        value.low.toNat / 2 ^ (64 - amount.toNat) < 2 ^ 64 := by
      rw [← hlor]
      apply Nat.or_lt_two_pow
      · rw [← hmod]
        exact Nat.mod_lt _ (by decide)
      · exact hsmall.trans (Nat.pow_lt_pow_right (by decide) hlt)
    rw [← Nat.mod_eq_of_lt hlt', ← hmod, Nat.mod_add_mod]
  rw [lnShiftAccum, Accum.toNat, hhigh, toNat_shiftLeft_eq _ _ hlt, Accum.toNat,
    Nat.add_mul, Nat.mul_right_comm]
  omega

theorem toInt_lnShiftAccum {value : Accum} {amount : UInt64}
    (hpos : 0 < amount.toNat) (hlt : amount.toNat < 64)
    (h : Accum.Fits (value.toInt * 2 ^ amount.toNat)) :
    (lnShiftAccum value amount).toInt = value.toInt * 2 ^ amount.toNat := by
  apply Accum.toInt_eq_of_emod h
  rw [toNat_lnShiftAccum value hpos hlt, Int.mul_emod, Accum.toInt_emod]
  push_cast
  exact (Int.ModEq.mul_left _ (Int.mod_modEq _ _))

def lnAddChecked (a b out : Accum) : Status × Accum :=
  let result := lnAddUnchecked a b
  if lnNegative a = lnNegative b ∧ lnNegative result ≠ lnNegative a then
    (.errorRange, out)
  else
    (.ok, result)

/-- The sign-bit test detects exactly the sums that leave the signed range. -/
theorem lnAddChecked_eq (a b out : Accum) :
    lnAddChecked a b out =
      if Accum.Fits (a.toInt + b.toInt) then (.ok, lnAddUnchecked a b)
      else (.errorRange, out) := by
  have ha := a.toNat_lt
  have hb := b.toNat_lt
  have hsum := toNat_lnAddUnchecked a b
  have hiff : (lnNegative a = lnNegative b ∧
      lnNegative (lnAddUnchecked a b) ≠ lnNegative a) ↔
        ¬Accum.Fits (a.toInt + b.toInt) := by
    have hsign : ∀ x y : Accum, lnNegative x = lnNegative y ↔
        (2 ^ 127 ≤ x.toNat ↔ 2 ^ 127 ≤ y.toNat) := by
      intro x y
      rw [Bool.eq_iff_iff, lnNegative_iff_toNat, lnNegative_iff_toNat]
    rw [ne_eq, hsign, hsign, hsum, Accum.Fits, Accum.toInt, Accum.toInt]
    split <;> split <;> omega
  simp only [lnAddChecked, hiff]
  split <;> simp_all

/-- One raw product of magnitude at most `2 ^ 62` added to a running sum. -/
def lnAddProduct64 (sum : Accum) (product : Int64) : Accum :=
  let low := sum.low + product.toUInt64
  { low := low
    high := sum.high + ((if product < 0 then 0xffffffffffffffff else 0) +
      if low < sum.low then 1 else 0) }

theorem toInt_lnAddProduct64 {sum : Accum} {product : Int64}
    (h : Accum.Fits (sum.toInt + product.toInt)) :
    (lnAddProduct64 sum product).toInt = sum.toInt + product.toInt := by
  have hsl := sum.low.toNat_lt
  have hsh := sum.high.toNat_lt
  have hpl := product.toUInt64.toNat_lt
  have hword := toNat_toUInt64 product
  have hle := product.le_toInt
  have hlt := product.toInt_lt
  apply Accum.toInt_eq_of_emod h
  rw [Int.add_emod, Accum.toInt_emod]
  simp only [lnAddProduct64, Accum.toNat, toNat_add_lt_iff, lt_zero_iff_toInt,
    UInt64.toNat_add]
  have hall : UInt64.toNat 0xffffffffffffffff = 2 ^ 64 - 1 := by decide
  have hone : UInt64.toNat 1 = 1 := rfl
  have hzero : UInt64.toNat 0 = 0 := rfl
  by_cases hneg : product.toInt < 0
  · rw [if_pos hneg] at hword
    rw [if_pos hneg, hall]
    split
    · rw [hone]
      omega
    · rw [hzero]
      omega
  · rw [if_neg hneg] at hword
    rw [if_neg hneg, hzero]
    split
    · rw [hone]
      omega
    · rw [hzero]
      omega

end Xhive.Linears
