import Xhive.Support.BinaryPatterns
import Xhive.Ukf.Bits

/-!
# The numbers that the bit patterns stand for

A pattern of the working type is read as an exact rational.  The conversions of
a signal work on its fields alone; here they are the exact value of a code, the
nearest code of a value, and the exact distance between the two.
-/

namespace Xhive.Ukf

open Xhive.Support Xhive.Linears Xhive.Filters Xhive.Particles

/-- The layout of the working type: an exponent field over the fraction, with
room below a code for one significand. -/
class WorkLayout (Q : Type) extends UkfFormat Q where
  workBits_pos : 0 < workBits
  infinity_add : infinity + 2 ^ mantissaBits = 2 ^ (workBits - 1)
  unity_add : 2 * unity + 2 * 2 ^ mantissaBits = 2 ^ (workBits - 1)
  room : (qBits.toNat + mantissaBits + 2) * 2 ^ mantissaBits ≤ unity

instance : WorkLayout Int16 where
  workBits_pos := by decide
  infinity_add := by decide
  unity_add := by decide
  room := by decide

instance : WorkLayout Int32 where
  workBits_pos := by decide
  infinity_add := by decide
  unity_add := by decide
  room := by decide

section Values

variable {Q : Type} [WorkLayout Q]

/-- The value of a finite pattern. -/
def workValue (x : WorkBits Q) : ℚ :=
  signed x.msb (patternValue (fractionBits Q) (exponentBias Q) (workMagnitude x))

/-- The magnitude in least subnormals. -/
def workUnits (x : WorkBits Q) : ℕ :=
  patternUnits (fractionBits Q) (workMagnitude x)

/-- The number of least subnormals in one raw unit is this power of two. -/
def unitShift (Q : Type) [WorkLayout Q] : ℕ :=
  unitExponent Q - 1

theorem qBits_add_lt_bias (Q : Type) [WorkLayout Q] :
    (QFormat.qBits Q).toNat + fractionBits Q + 2 ≤ exponentBias Q := by
  rw [exponentBias, Nat.le_div_iff_mul_le (Nat.two_pow_pos _)]
  exact WorkLayout.room

theorem qBits_lt_fractionBits (Q : Type) [WorkLayout Q] :
    (QFormat.qBits Q).toNat < fractionBits Q :=
  UkfFormat.qBits_lt_mantissaBits

theorem unitShift_eq (Q : Type) [WorkLayout Q] :
    unitShift Q + (QFormat.qBits Q).toNat + 1 = exponentBias Q + fractionBits Q := by
  have hlt := qBits_lt_fractionBits Q
  rw [unitShift, unitExponent]
  omega

/-- A value in raw units. -/
theorem workValue_mul (x : WorkBits Q) :
    workValue x * 2 ^ (QFormat.qBits Q).toNat =
      signed x.msb ((workUnits x : ℚ) / (2 ^ unitShift Q : ℕ)) := by
  have hshift := unitShift_eq Q
  have hcast : (1 - exponentBias Q - fractionBits Q : ℤ) + (QFormat.qBits Q).toNat =
      -(unitShift Q : ℤ) := by omega
  have hunits : patternValue (fractionBits Q) (exponentBias Q) (workMagnitude x) *
      2 ^ (QFormat.qBits Q).toNat = (workUnits x : ℚ) / (2 ^ unitShift Q : ℕ) := by
    rw [patternValue_eq, workUnits, mul_assoc, ← zpow_natCast (2 : ℚ) (QFormat.qBits Q).toNat,
      ← zpow_add₀ two_ne_zero, hcast, zpow_neg, zpow_natCast, Nat.cast_pow, Nat.cast_ofNat,
      div_eq_mul_inv]
  rw [workValue, ← hunits]
  cases x.msb with
  | false => rfl
  | true => exact neg_mul _ _

theorem abs_workValue (x : WorkBits Q) :
    |workValue x| * 2 ^ (QFormat.qBits Q).toNat = (workUnits x : ℚ) / (2 ^ unitShift Q : ℕ) := by
  have hpow : (0 : ℚ) < 2 ^ (QFormat.qBits Q).toNat := by positivity
  have hunits : (0 : ℚ) ≤ (workUnits x : ℚ) / (2 ^ unitShift Q : ℕ) := by positivity
  rw [← abs_of_pos hpow, ← abs_mul, workValue_mul]
  cases x.msb with
  | false => exact abs_of_nonneg hunits
  | true => exact (abs_neg _).trans (abs_of_nonneg hunits)

theorem patternUnits_unity (Q : Type) [WorkLayout Q] :
    patternUnits (fractionBits Q) (LikelihoodFormat.unity Q) =
      2 ^ (QFormat.qBits Q).toNat * 2 ^ unitShift Q := by
  have hbias := qBits_add_lt_bias Q
  have hshift := unitShift_eq Q
  have hnormal := @patternUnits_normal (fractionBits Q) (exponentBias Q) _
    (Nat.two_pow_pos _) (by omega)
  rw [Nat.add_zero, ← unity_eq, Nat.zero_add, ← pow_add] at hnormal
  rw [hnormal, ← pow_add]
  congr 1
  omega

/-- The interval test of the source is the one of the values. -/
theorem workInUnit_iff (x : WorkBits Q) : workInUnit x = true ↔ |workValue x| ≤ 1 := by
  have hpow : (0 : ℚ) < 2 ^ (QFormat.qBits Q).toNat := by positivity
  have hshift : (0 : ℚ) < (2 ^ unitShift Q : ℕ) := by positivity
  rw [workInUnit, decide_eq_true_iff, ← (patternUnits_strictMono (fractionBits Q)).le_iff_le,
    patternUnits_unity, ← workUnits, ← mul_le_mul_iff_left₀ hpow, one_mul, abs_workValue,
    div_le_iff₀ hshift]
  norm_cast

/-- The comparison of the source is the one of the values. -/
theorem exponentLess_iff_value (a b : WorkBits Q) :
    exponentLess a b = true ↔ workValue a < workValue b := by
  have hpow : (0 : ℚ) < 2 ^ (1 - exponentBias Q - fractionBits Q : ℤ) := by positivity
  have hunits : ∀ x : WorkBits Q, workValue x =
      signed x.msb (workUnits x : ℚ) * 2 ^ (1 - exponentBias Q - fractionBits Q : ℤ) := by
    intro x
    rw [workValue, patternValue_eq, workUnits]
    cases x.msb with
    | false => rfl
    | true => exact (neg_mul _ _).symm
  have hzero : ∀ m, patternUnits (fractionBits Q) m = 0 ↔ m = 0 := by
    intro m
    have hstart : patternUnits (fractionBits Q) 0 = 0 := by
      rw [patternUnits, Nat.zero_div, if_pos rfl, Nat.zero_mod]
    have hinj := (patternUnits_strictMono (fractionBits Q)).injective.eq_iff (a := m) (b := 0)
    rwa [hstart] at hinj
  have hle := (patternUnits_strictMono (fractionBits Q)).lt_iff_lt (a := workMagnitude a)
    (b := workMagnitude b)
  have hge := (patternUnits_strictMono (fractionBits Q)).lt_iff_lt (a := workMagnitude b)
    (b := workMagnitude a)
  have hza := hzero (workMagnitude a)
  have hzb := hzero (workMagnitude b)
  rw [hunits, hunits, mul_lt_mul_iff_left₀ hpow, exponentLess_iff, exponentKey, exponentKey,
    workUnits, workUnits]
  generalize patternUnits (fractionBits Q) (workMagnitude a) = unitsA at *
  generalize patternUnits (fractionBits Q) (workMagnitude b) = unitsB at *
  cases a.msb <;> cases b.msb <;>
    simp only [signed_true, signed_false, Bool.false_eq_true, if_true, if_false] <;>
    norm_cast <;> omega

/-! ## Narrowing -/

theorem encodedExponent_lt_unit {value : WorkBits Q} (h : workInUnit value = true) :
    encodedExponent value < unitExponent Q := by
  have hlt := qBits_lt_fractionBits Q
  have hle : encodedExponent value ≤ exponentBias Q := by
    rw [encodedExponent, exponentBias]
    exact Nat.div_le_div_right (of_decide_eq_true h)
  rw [unitExponent]
  omega

/-- A normal value counts its significand at its exponent. -/
theorem workUnits_normal {value : WorkBits Q} (h : 0 < encodedExponent value) :
    workUnits value = significand value * 2 ^ (encodedExponent value - 1) := by
  rw [workUnits, patternUnits, ← encodedExponent, if_neg h.ne', significand]

/-- Narrowing rounds the value in raw units. -/
theorem narrowMagnitude_eq {value : WorkBits Q} (h : workInUnit value = true) :
    narrowMagnitude value = roundedQuotient (workUnits value) (2 ^ unitShift Q) := by
  have hbelow := encodedExponent_lt_unit h
  have hbias := qBits_add_lt_bias Q
  have hshift := unitShift_eq Q
  have hunit : unitExponent Q = unitShift Q + 1 := by
    have := qBits_lt_fractionBits Q
    rw [unitShift, unitExponent]
    omega
  have hsmall : ∀ units, 2 * units < 2 ^ unitShift Q →
      0 = roundedQuotient units (2 ^ unitShift Q) := by
    intro units hlt
    symm
    rw [← Nat.le_zero, roundedQuotient_le_iff (Nat.two_pow_pos _)]
    omega
  rw [narrowMagnitude]
  split
  · rename_i hexponent
    apply hsmall
    rcases Nat.eq_zero_or_pos (encodedExponent value) with hzero | hpos
    · -- a subnormal value
      have hmod := Nat.mod_lt (workMagnitude value) (Nat.two_pow_pos (fractionBits Q))
      rw [workUnits, patternUnits, ← encodedExponent, if_pos hzero]
      calc 2 * (workMagnitude value % 2 ^ fractionBits Q) < 2 ^ (fractionBits Q + 1) := by
            rw [pow_succ]
            omega
        _ ≤ 2 ^ unitShift Q := Nat.pow_le_pow_right (by norm_num) (by omega)
    · have hlt := significand_lt value
      rw [workUnits_normal hpos]
      calc 2 * (significand value * 2 ^ (encodedExponent value - 1))
          = significand value * 2 ^ encodedExponent value := by
            obtain ⟨e, he⟩ := Nat.exists_eq_succ_of_ne_zero hpos.ne'
            rw [he, Nat.succ_sub_one, pow_succ]
            ring
        _ < 2 ^ (fractionBits Q + 1) * 2 ^ encodedExponent value :=
            Nat.mul_lt_mul_of_pos_right hlt (Nat.two_pow_pos _)
        _ = 2 ^ (fractionBits Q + 1 + encodedExponent value) := (pow_add _ _ _).symm
        _ ≤ 2 ^ unitShift Q := Nat.pow_le_pow_right (by norm_num) (by omega)
  · rename_i hexponent
    have hpos : 0 < encodedExponent value := by omega
    obtain ⟨s, hs⟩ : ∃ s, unitExponent Q - 1 - encodedExponent value = s := ⟨_, rfl⟩
    have hsplit : 2 ^ unitShift Q = 2 ^ (s + 1) * 2 ^ (encodedExponent value - 1) := by
      rw [← pow_add]
      congr 1
      omega
    have hcancel : roundedQuotient (significand value * 2 ^ (encodedExponent value - 1))
        (2 ^ (s + 1) * 2 ^ (encodedExponent value - 1)) =
          roundedQuotient (significand value) (2 ^ (s + 1)) := by
      have hleft := Nat.two_pow_pos (s + 1)
      have hright := Nat.two_pow_pos (encodedExponent value - 1)
      exact le_antisymm
        (Support.roundedQuotient_le (by positivity) hleft (le_of_eq (by ring)))
        (Support.roundedQuotient_le hleft (by positivity) (le_of_eq (by ring)))
    rw [workUnits_normal hpos, hsplit, hcancel, hs, roundedQuotient_two_pow_succ, pow_succ,
      ← Nat.div_div_eq_div_mul]
    omega

/-- The rounded value in raw units. -/
theorem roundAway_workValue {value : WorkBits Q} (h : workInUnit value = true) :
    roundAway (workValue value * 2 ^ (QFormat.qBits Q).toNat) =
      signed value.msb (narrowMagnitude value : ℤ) := by
  rw [workValue_mul, roundAway_signed_div _ _ (Nat.two_pow_pos _), narrowMagnitude_eq h]

/-- A code of at most the interval is stored as it is. -/
theorem rawCode_narrow {n : ℤ} (hlow : -2 ^ (QFormat.qBits Q).toNat ≤ n)
    (hhigh : n < 2 ^ (QFormat.qBits Q).toNat) :
    rawCode (QFormat.narrow (Int64.ofInt n) : Q) = n := by
  have hbits := (qBits_bounds Q).2
  have hbound : (2 : ℤ) ^ (QFormat.qBits Q).toNat ≤ 2 ^ 31 := pow_le_pow_right₀ (by norm_num) hbits
  have hword : (Int64.ofInt n).toInt = n := by
    apply Int64.toInt_ofInt_of_le <;> omega
  rw [rawCode, QFormat.toInt_widen_narrow _ (by rwa [hword]) (by rwa [hword]), hword]

/-- The stored code of a value: rounded once, with one as the largest code. -/
theorem rawCode_narrowBits {value : WorkBits Q} (h : workInUnit value = true) :
    rawCode (narrowBits value : Q) =
      min (roundAway (workValue value * 2 ^ (QFormat.qBits Q).toNat))
        (2 ^ (QFormat.qBits Q).toNat - 1) := by
  have hle : (narrowMagnitude value : ℤ) ≤ 2 ^ (QFormat.qBits Q).toNat := by
    exact_mod_cast narrowMagnitude_le h
  have hpow : (0 : ℤ) < 2 ^ (QFormat.qBits Q).toNat := by positivity
  have hmax := ParticleFormat.toInt_signalMax (Q := Q)
  rw [roundAway_workValue h, narrowBits]
  cases value.msb with
  | true =>
      rw [if_pos rfl, signed_true, rawCode_narrow (by omega) (by omega), min_eq_left (by omega)]
  | false =>
      rw [if_neg (by decide), signed_false]
      by_cases hone : narrowMagnitude value = 2 ^ (QFormat.qBits Q).toNat
      · have hcast : (narrowMagnitude value : ℤ) = 2 ^ (QFormat.qBits Q).toNat := by
          exact_mod_cast hone
        rw [if_pos hone, hcast, min_eq_right (by omega)]
        exact hmax
      · have hcast : (narrowMagnitude value : ℤ) ≠ 2 ^ (QFormat.qBits Q).toNat := by
          exact_mod_cast hone
        rw [if_neg hone, rawCode_narrow (by omega) (by omega), min_eq_left (by omega)]

/-! ## Patterns put together from their fields -/

theorem infinity_lt (Q : Type) [WorkLayout Q] :
    LikelihoodFormat.infinity Q < 2 ^ (LikelihoodFormat.workBits Q - 1) := by
  have hsum := WorkLayout.infinity_add (Q := Q)
  have hpos := Nat.two_pow_pos (LikelihoodFormat.mantissaBits Q)
  omega

/-- The fields of a finite pattern with a sign bit before it. -/
theorem pattern_fields {m : ℕ} (hm : m < LikelihoodFormat.infinity Q) (negative : Bool) :
    let x : WorkBits Q := BitVec.ofNat _
      ((if negative then 2 ^ (LikelihoodFormat.workBits Q - 1) else 0) + m)
    workMagnitude x = m ∧ x.msb = negative ∧ workFinite x = true := by
  have hlt := infinity_lt Q
  have hpos := WorkLayout.workBits_pos (Q := Q)
  have hdouble : 2 ^ LikelihoodFormat.workBits Q =
      2 * 2 ^ (LikelihoodFormat.workBits Q - 1) := by
    rw [← pow_succ']
    congr 1
    omega
  intro x
  have hword : x.toNat = (if negative then 2 ^ (LikelihoodFormat.workBits Q - 1) else 0) + m := by
    rw [BitVec.toNat_ofNat, Nat.mod_eq_of_lt]
    split <;> omega
  have hmagnitude : workMagnitude x = m := by
    rw [workMagnitude, hword]
    split
    · rw [Nat.add_mod_left, Nat.mod_eq_of_lt (by omega)]
    · rw [Nat.zero_add, Nat.mod_eq_of_lt (by omega)]
  refine ⟨hmagnitude, ?_, ?_⟩
  · rw [BitVec.msb_eq_decide, hword]
    cases negative with
    | true => exact decide_eq_true (Nat.le_add_right _ _)
    | false =>
        rw [if_neg (by decide), Nat.zero_add]
        exact decide_eq_false (by omega)
  · rw [workFinite, hmagnitude]
    exact decide_eq_true hm

/-- An integer aligned at an encoded exponent of the type is finite. -/
theorem encode_lt {exponent : ℕ} (h : exponent ≤ 2 * exponentBias Q) (top magnitude : ℕ) :
    encode (Q := Q) exponent top magnitude < LikelihoodFormat.infinity Q := by
  have hinfinity := WorkLayout.infinity_add (Q := Q)
  have hunity := WorkLayout.unity_add (Q := Q)
  have hbias := unity_eq Q
  have hmod := Nat.mod_lt (magnitude * 2 ^ (fractionBits Q - top))
    (Nat.two_pow_pos (fractionBits Q))
  have hfield : exponent * 2 ^ fractionBits Q ≤ 2 * (exponentBias Q * 2 ^ fractionBits Q) := by
    rw [← Nat.mul_assoc]
    exact Nat.mul_le_mul_right _ h
  rw [encode]
  rw [fractionBits] at *
  omega

/-- The value of an integer aligned at an encoded exponent. -/
theorem pattern_integer {n exponent : ℕ} (hn : n ≠ 0) (hlog : Nat.log2 n ≤ fractionBits Q)
    (hpos : 0 < exponent) (hle : exponent ≤ 2 * exponentBias Q) (negative : Bool) :
    let x : WorkBits Q := BitVec.ofNat _
      ((if negative then 2 ^ (LikelihoodFormat.workBits Q - 1) else 0) +
        encode (Q := Q) exponent (Nat.log2 n) n)
    workUnits x = n * 2 ^ (fractionBits Q - Nat.log2 n) * 2 ^ (exponent - 1) ∧
      x.msb = negative ∧ workFinite x = true := by
  obtain ⟨hmagnitude, hsign, hfinite⟩ := pattern_fields (encode_lt hle (Nat.log2 n) n) negative
  refine ⟨?_, hsign, hfinite⟩
  rw [workUnits, hmagnitude, encode]
  exact patternUnits_integer hn hlog hpos

/-! ## Widening -/

theorem natAbs_rawCode_le (x : Q) : (rawCode x).natAbs ≤ 2 ^ (QFormat.qBits Q).toNat := by
  have hlow := QFormat.le_toInt_widen x
  have hhigh := QFormat.toInt_widen_lt x
  have hcast : ((2 ^ (QFormat.qBits Q).toNat : ℕ) : ℤ) = 2 ^ (QFormat.qBits Q).toNat := by
    push_cast
    rfl
  rw [rawCode]
  omega

theorem log2_rawCode_le (x : Q) (h : (rawCode x).natAbs ≠ 0) :
    Nat.log2 (rawCode x).natAbs ≤ (QFormat.qBits Q).toNat := by
  by_contra hlt
  have hself := Nat.log2_self_le h
  have hpow := Nat.pow_lt_pow_right (a := 2) (by norm_num) (not_le.mp hlt)
  have hle := natAbs_rawCode_le x
  omega

/-- The pattern of a code that is not zero. -/
theorem widenBits_fields {x : Q} (h : (rawCode x).natAbs ≠ 0) :
    workUnits (widenBits x) = (rawCode x).natAbs * 2 ^ unitShift Q ∧
      (widenBits x).msb = decide (rawCode x < 0) ∧ workFinite (widenBits x) = true := by
  have hbias := qBits_add_lt_bias Q
  have hlt := qBits_lt_fractionBits Q
  have hshift := unitShift_eq Q
  have hlog := log2_rawCode_le x h
  have hpattern := @pattern_integer Q _ (rawCode x).natAbs
    (exponentBias Q - (QFormat.qBits Q).toNat + Nat.log2 (rawCode x).natAbs) h
    (by omega) (by omega) (by omega) (decide (rawCode x < 0))
  simp only [decide_eq_true_eq] at hpattern
  rw [widenBits]
  simp only [if_neg h]
  obtain ⟨hunits, hsign, hfinite⟩ := hpattern
  refine ⟨?_, hsign, hfinite⟩
  rw [hunits, mul_assoc, ← pow_add]
  congr 2
  omega

theorem infinity_pos (Q : Type) [WorkLayout Q] : 0 < LikelihoodFormat.infinity Q :=
  lt_of_le_of_lt (Nat.zero_le _) (encode_lt (Q := Q) (Nat.zero_le _) 0 0)

theorem workMagnitude_zero : workMagnitude (0 : WorkBits Q) = 0 := by
  rw [workMagnitude, show (0 : WorkBits Q).toNat = 0 from BitVec.toNat_zero, Nat.zero_mod]

/-- A pattern of magnitude zero has the value zero. -/
theorem workValue_of_magnitude_zero {x : WorkBits Q} (h : workMagnitude x = 0) :
    workValue x = 0 := by
  have hunits : patternUnits (fractionBits Q) 0 = 0 := by
    rw [patternUnits, Nat.zero_div, if_pos rfl, Nat.zero_mod]
  rw [workValue, patternValue_eq, h, hunits, Nat.cast_zero, zero_mul]
  cases x.msb with
  | false => rfl
  | true => exact neg_zero

/-- Widening is exact. -/
theorem workValue_widenBits (x : Q) :
    workFinite (widenBits x) = true ∧
      workValue (widenBits x) = rawCode x / 2 ^ (QFormat.qBits Q).toNat := by
  have hscale : (2 : ℚ) ^ (QFormat.qBits Q).toNat ≠ 0 := by positivity
  by_cases h : (rawCode x).natAbs = 0
  · have hzero : widenBits x = (0 : WorkBits Q) := by
      rw [widenBits]
      simp only [if_pos h]
    rw [hzero, workValue_of_magnitude_zero workMagnitude_zero, Int.natAbs_eq_zero.mp h,
      Int.cast_zero, zero_div, workFinite, workMagnitude_zero]
    exact ⟨decide_eq_true (infinity_pos Q), rfl⟩
  · obtain ⟨hunits, hsign, hfinite⟩ := widenBits_fields h
    have hpow : ((2 ^ unitShift Q : ℕ) : ℚ) ≠ 0 := by positivity
    have hcode := signed_natAbs (rawCode x)
    refine ⟨hfinite, ?_⟩
    rw [eq_div_iff hscale, workValue_mul, hunits, hsign, Nat.cast_mul,
      mul_div_cancel_right₀ _ hpow]
    conv_rhs => rw [← hcode, cast_signed]
    rw [Int.cast_natCast]

/-- A widened code is in the interval. -/
theorem workInUnit_widenBits (x : Q) : workInUnit (widenBits x) = true := by
  have hscale : (0 : ℚ) < 2 ^ (QFormat.qBits Q).toNat := by positivity
  have hle : ((rawCode x).natAbs : ℚ) ≤ 2 ^ (QFormat.qBits Q).toNat := by
    exact_mod_cast natAbs_rawCode_le x
  rw [workInUnit_iff, (workValue_widenBits x).2, abs_div, abs_of_pos hscale, div_le_one hscale]
  rwa [Nat.cast_natAbs, Int.cast_abs] at hle

/-- A code comes back from its value. -/
theorem narrowBits_widenBits (x : Q) : narrowBits (widenBits x) = x := by
  have hscale : (2 : ℚ) ^ (QFormat.qBits Q).toNat ≠ 0 := by positivity
  have hhigh := QFormat.toInt_widen_lt x
  apply FilterFormat.widen_injective
  have hcode := rawCode_narrowBits (workInUnit_widenBits x)
  rw [(workValue_widenBits x).2, div_mul_cancel₀ _ hscale, roundAway_intCast, min_eq_left] at hcode
  · exact hcode
  · rw [rawCode]
    omega

/-! ## The quantization error -/

/-- What a stored code leaves of a value, in raw units. -/
theorem natAbs_narrowBits_le {value : WorkBits Q} (h : workInUnit value = true) :
    (rawCode (narrowBits value : Q)).natAbs ≤ narrowMagnitude value ∧
      (rawCode (narrowBits value : Q) ≠ 0 →
        rawCode (narrowBits value : Q) =
          signed value.msb ((rawCode (narrowBits value : Q)).natAbs : ℤ)) := by
  have hle : (narrowMagnitude value : ℤ) ≤ 2 ^ (QFormat.qBits Q).toNat := by
    exact_mod_cast narrowMagnitude_le h
  have hpow : (0 : ℤ) < 2 ^ (QFormat.qBits Q).toNat := by positivity
  rw [rawCode_narrowBits h, roundAway_workValue h]
  cases value.msb with
  | true =>
      rw [signed_true, min_eq_left (by omega), signed_true]
      omega
  | false =>
      rw [signed_false, signed_false]
      omega

/-- The distance of the aligned significand and code fits a significand. -/
theorem distance_lt {value : WorkBits Q} (h : workInUnit value = true) {n : ℕ} (hn : n ≠ 0)
    (hle : n ≤ narrowMagnitude value) :
    0 < encodedExponent value ∧ fractionBits Q < encodedExponent value ∧
      (significand value - n * 2 ^ (unitExponent Q - encodedExponent value)) +
        (n * 2 ^ (unitExponent Q - encodedExponent value) - significand value) <
          2 ^ (fractionBits Q + 1) := by
  have hbelow := encodedExponent_lt_unit h
  have hbias := qBits_add_lt_bias Q
  have hshift := unitShift_eq Q
  have hlt := significand_lt value
  have hunit : unitExponent Q = unitShift Q + 1 := by
    have := qBits_lt_fractionBits Q
    rw [unitShift, unitExponent]
    omega
  have hexponent : unitExponent Q ≤ encodedExponent value + (fractionBits Q + 1) := by
    by_contra hsmall
    rw [narrowMagnitude, if_pos (by omega)] at hle
    omega
  have hpos : 0 < encodedExponent value := by omega
  refine ⟨hpos, by omega, ?_⟩
  -- a code is at most half a raw unit above its value
  have hrounded := narrowMagnitude_eq h
  rw [hrounded, le_roundedQuotient_iff (Nat.two_pow_pos _), workUnits_normal hpos] at hle
  obtain ⟨s, hs⟩ : ∃ s, unitExponent Q - encodedExponent value = s + 1 :=
    ⟨unitExponent Q - encodedExponent value - 1, by omega⟩
  have hsplit : 2 ^ unitShift Q = 2 ^ (s + 1) * 2 ^ (encodedExponent value - 1) := by
    rw [← pow_add]
    congr 1
    omega
  have hscaled : 2 * n * 2 ^ (s + 1) ≤ 2 * significand value + 2 ^ (s + 1) := by
    rw [hsplit] at hle
    refine Nat.le_of_mul_le_mul_right ?_ (Nat.two_pow_pos (encodedExponent value - 1))
    calc 2 * n * 2 ^ (s + 1) * 2 ^ (encodedExponent value - 1)
        = 2 * n * (2 ^ (s + 1) * 2 ^ (encodedExponent value - 1)) := by ring
      _ ≤ 2 * (significand value * 2 ^ (encodedExponent value - 1)) +
          2 ^ (s + 1) * 2 ^ (encodedExponent value - 1) := hle
      _ = (2 * significand value + 2 ^ (s + 1)) * 2 ^ (encodedExponent value - 1) := by ring
  have hhalf : 2 ^ (s + 1) ≤ 2 ^ (fractionBits Q + 1) :=
    Nat.pow_le_pow_right (by norm_num) (by omega)
  rw [hs]
  have hdouble : 2 * (n * 2 ^ (s + 1)) = 2 * n * 2 ^ (s + 1) := by ring
  have hroom : 0 < 2 ^ (fractionBits Q + 1) := Nat.two_pow_pos _
  omega

theorem cast_distance (a b : ℕ) : (((a - b) + (b - a) : ℕ) : ℚ) = |(a : ℚ) - b| := by
  rcases le_total a b with hle | hle
  · have hcast : (a : ℚ) ≤ b := by exact_mod_cast hle
    rw [Nat.sub_eq_zero_of_le hle, Nat.zero_add, Nat.cast_sub hle, abs_of_nonpos (by linarith),
      neg_sub]
  · have hcast : (b : ℚ) ≤ a := by exact_mod_cast hle
    rw [Nat.sub_eq_zero_of_le hle, Nat.add_zero, Nat.cast_sub hle, abs_of_nonneg (by linarith)]

/-- The distance of a value and its code in raw units. -/
theorem abs_sub_narrowBits {value : WorkBits Q} (h : workInUnit value = true)
    (hcode : rawCode (narrowBits value : Q) ≠ 0) :
    |workValue value - rawCode (narrowBits value : Q) / 2 ^ (QFormat.qBits Q).toNat| *
        2 ^ (QFormat.qBits Q).toNat =
      (((significand value - (rawCode (narrowBits value : Q)).natAbs *
          2 ^ (unitExponent Q - encodedExponent value)) +
        ((rawCode (narrowBits value : Q)).natAbs *
          2 ^ (unitExponent Q - encodedExponent value) - significand value)) *
            2 ^ (encodedExponent value - 1) : ℕ) / (2 ^ unitShift Q : ℕ) := by
  obtain ⟨hle, hsigned⟩ := natAbs_narrowBits_le h
  have hn : (rawCode (narrowBits value : Q)).natAbs ≠ 0 := Int.natAbs_ne_zero.mpr hcode
  have hsigned := hsigned hcode
  obtain ⟨hpos, -, -⟩ := distance_lt h hn hle
  have hbelow := encodedExponent_lt_unit h
  have hshift : unitShift Q = unitExponent Q - encodedExponent value + (encodedExponent value - 1) := by
    rw [unitShift]
    omega
  have hpow : (0 : ℚ) < 2 ^ (QFormat.qBits Q).toNat := by positivity
  have hunit : (0 : ℚ) < (2 ^ unitShift Q : ℕ) := by positivity
  generalize (rawCode (narrowBits value : Q)).natAbs = n at *
  have habs : |workValue value - rawCode (narrowBits value : Q) / 2 ^ (QFormat.qBits Q).toNat| *
      2 ^ (QFormat.qBits Q).toNat =
        |(workUnits value : ℚ) / (2 ^ unitShift Q : ℕ) - n| := by
    conv_lhs => rw [← abs_of_pos hpow]
    rw [← abs_mul, abs_of_pos hpow, sub_mul, div_mul_cancel₀ _ hpow.ne', workValue_mul, hsigned,
      cast_signed, Int.cast_natCast]
    cases value.msb with
    | false => rfl
    | true => rw [signed_true, signed_true, ← neg_sub', abs_neg]
  have hscale : (n : ℚ) = (n * 2 ^ (unitExponent Q - encodedExponent value) *
      2 ^ (encodedExponent value - 1) : ℕ) / (2 ^ unitShift Q : ℕ) := by
    rw [eq_div_iff hunit.ne', mul_assoc n, ← pow_add, ← hshift, Nat.cast_mul]
  rw [habs, hscale, workUnits_normal hpos, ← sub_div, abs_div, abs_of_pos hunit,
    Nat.cast_mul, Nat.cast_mul _ (2 ^ (encodedExponent value - 1)),
    Nat.cast_mul _ (2 ^ (encodedExponent value - 1)), cast_distance, ← sub_mul, abs_mul]
  congr 2
  exact abs_of_nonneg (Nat.cast_nonneg _)

/-- A pattern without a sign in raw units. -/
theorem workValue_eq_of_units {x : WorkBits Q} (hsign : x.msb = false) {y : ℚ}
    (hy : y * 2 ^ (QFormat.qBits Q).toNat = (workUnits x : ℚ) / (2 ^ unitShift Q : ℕ)) :
    workValue x = y := by
  have hpow : (2 : ℚ) ^ (QFormat.qBits Q).toNat ≠ 0 := by positivity
  have hvalue := workValue_mul x
  rw [hsign, signed_false, ← hy] at hvalue
  exact mul_right_cancel₀ hpow hvalue

/-- The error of a stored value is exact. -/
theorem workValue_errorBits {value : WorkBits Q} (hfinite : workFinite value = true)
    (h : workInUnit value = true) :
    workFinite (errorBits value (narrowBits value)) = true ∧
      workValue (errorBits value (narrowBits value)) =
        |workValue value - rawCode (narrowBits value : Q) / 2 ^ (QFormat.qBits Q).toNat| := by
  by_cases hcode : rawCode (narrowBits value : Q) = 0
  · obtain ⟨hmagnitude, hsign, hresult⟩ :=
      pattern_fields (Q := Q) (of_decide_eq_true hfinite) false
    rw [if_neg (by decide), Nat.zero_add] at hmagnitude hsign hresult
    rw [errorBits]
    simp only [hcode, Int.natAbs_zero, if_true, Int.cast_zero, zero_div, sub_zero]
    refine ⟨hresult, workValue_eq_of_units hsign ?_⟩
    rw [abs_workValue, workUnits, workUnits, hmagnitude]
  · have hn : (rawCode (narrowBits value : Q)).natAbs ≠ 0 := Int.natAbs_ne_zero.mpr hcode
    obtain ⟨hpos, hroom, hdistance⟩ := distance_lt h hn (natAbs_narrowBits_le h).1
    have hexact := abs_sub_narrowBits h hcode
    have hle := encodedExponent_lt_unit h
    rw [errorBits]
    simp only [if_neg hn]
    generalize significand value - (rawCode (narrowBits value : Q)).natAbs *
      2 ^ (unitExponent Q - encodedExponent value) +
        ((rawCode (narrowBits value : Q)).natAbs *
          2 ^ (unitExponent Q - encodedExponent value) - significand value) = distance at *
    split
    · rename_i hzero
      rw [workFinite, workMagnitude_zero, workValue_of_magnitude_zero workMagnitude_zero]
      refine ⟨decide_eq_true (infinity_pos Q), ?_⟩
      rw [hzero, Nat.zero_mul, Nat.cast_zero, zero_div] at hexact
      exact ((mul_eq_zero_iff_right (by positivity)).mp hexact).symm
    · rename_i hne
      have hlog : Nat.log2 distance ≤ fractionBits Q := by
        have := (Nat.log2_lt hne).mpr hdistance
        omega
      have hbias := qBits_add_lt_bias Q
      have hshift := unitShift_eq Q
      obtain ⟨hunits, hsign, hresult⟩ := @pattern_integer Q _ _
        (encodedExponent value - fractionBits Q + Nat.log2 distance) hne hlog (by omega)
        (by rw [unitShift] at hshift; omega) false
      rw [if_neg (by decide), Nat.zero_add] at hunits hsign hresult
      refine ⟨hresult, workValue_eq_of_units hsign ?_⟩
      rw [hexact, hunits, mul_assoc distance, ← pow_add]
      congr 4
      omega

/-! ## The conversions -/

/-- Narrowing rounds once, halves away from zero, and stores one as the largest
code; widening is exact and narrowing takes it back; the quantization error is
the exact distance of a value and its code; and the comparison of exponents is
the order of the values. -/
theorem bit_conversions_exact :
    (∀ value : WorkBits Q, workFinite value = true → |workValue value| ≤ 1 →
      rawCode (narrowBits value : Q) =
        let rounded := roundAway (workValue value * 2 ^ (QFormat.qBits Q).toNat)
        if rounded = 2 ^ (QFormat.qBits Q).toNat then rawCode (ParticleFormat.signalMax : Q)
        else rounded) ∧
    (∀ x : Q, workFinite (widenBits x) = true ∧
      workValue (widenBits x) = rawCode x / 2 ^ (QFormat.qBits Q).toNat ∧
      narrowBits (widenBits x) = x) ∧
    (∀ value : WorkBits Q, workFinite value = true → |workValue value| ≤ 1 →
      workFinite (errorBits value (narrowBits value)) = true ∧
      workValue (errorBits value (narrowBits value)) =
        |workValue value - rawCode (narrowBits value : Q) / 2 ^ (QFormat.qBits Q).toNat|) ∧
    ∀ a b : WorkBits Q, workFinite a = true → workFinite b = true →
      (exponentLess a b = true ↔ workValue a < workValue b) := by
  refine ⟨fun value _ hvalue => ?_, fun x => ⟨(workValue_widenBits x).1,
    (workValue_widenBits x).2, narrowBits_widenBits x⟩, fun value hfinite hvalue =>
      workValue_errorBits hfinite ((workInUnit_iff value).mpr hvalue), fun a b _ _ =>
        exponentLess_iff_value a b⟩
  have hunit := (workInUnit_iff value).mpr hvalue
  have hmax := ParticleFormat.toInt_signalMax (Q := Q)
  have hpow : (0 : ℤ) < 2 ^ (QFormat.qBits Q).toNat := by positivity
  have hle : roundAway (workValue value * 2 ^ (QFormat.qBits Q).toNat) ≤
      2 ^ (QFormat.qBits Q).toNat := by
    apply roundAway_le
    push_cast
    exact mul_le_of_le_one_left (by positivity) (abs_le.mp hvalue).2
  rw [rawCode_narrowBits hunit]
  dsimp only
  split
  · rename_i heq
    rw [heq, min_eq_right (by omega)]
    exact hmax.symm
  · rename_i hne
    exact min_eq_left (by omega)

end Values

end Xhive.Ukf
