import Xhive.Linears.Numeric.Accumulator

/-!
# Quantising an accumulator to a raw-Q signal

Both Q formats share one export path: the exact F62 value is checked against
`[-1, +1]`, rounded once, and the unavailable positive endpoint is stored as
the largest code.
-/

namespace Xhive.Linears

open Xhive.Support

/-- One raw-Q format: its storage type, `Q_BITS`, the widening conversion of a
load and the narrowing cast of a store. -/
class QFormat (Q : Type) where
  qBits : UInt64
  widen : Q → Int64
  narrow : Int64 → Q
  qBits_cases : qBits = 15 ∨ qBits = 31
  le_toInt_widen : ∀ x, -2 ^ qBits.toNat ≤ (widen x).toInt
  toInt_widen_lt : ∀ x, (widen x).toInt < 2 ^ qBits.toNat
  toInt_widen_narrow : ∀ y : Int64, -2 ^ qBits.toNat ≤ y.toInt →
    y.toInt < 2 ^ qBits.toNat → (widen (narrow y)).toInt = y.toInt

/-- The q15 format. -/
instance : QFormat Int16 where
  qBits := 15
  widen := Int16.toInt64
  narrow := Int64.toInt16
  qBits_cases := Or.inl rfl
  le_toInt_widen x := by
    rw [Int16.toInt_toInt64]
    exact x.le_toInt
  toInt_widen_lt x := by
    rw [Int16.toInt_toInt64]
    exact x.toInt_lt
  toInt_widen_narrow y hlow hhigh := by
    rw [Int16.toInt_toInt64, Int64.toInt_toInt16]
    exact Int.bmod_eq_of_le hlow hhigh

/-- The q31 format. -/
instance : QFormat Int32 where
  qBits := 31
  widen := Int32.toInt64
  narrow := Int64.toInt32
  qBits_cases := Or.inr rfl
  le_toInt_widen x := by
    rw [Int32.toInt_toInt64]
    exact x.le_toInt
  toInt_widen_lt x := by
    rw [Int32.toInt_toInt64]
    exact x.toInt_lt
  toInt_widen_narrow y hlow hhigh := by
    rw [Int32.toInt_toInt64, Int64.toInt_toInt32]
    exact Int.bmod_eq_of_le hlow hhigh

/-- The magnitude is already at most `2 ^ 62`. -/
def quantizeUnit (magnitude : UInt64) (negative : Bool) (bits : UInt64) : Int64 :=
  let shift := 62 - bits
  let raw := (magnitude >>> shift) +
    if magnitude &&& (((1 : UInt64) <<< shift) - 1) ≥ (1 : UInt64) <<< (shift - 1)
      then 1 else 0
  let raw := if negative = false ∧ raw = (1 : UInt64) <<< bits then raw - 1 else raw
  if negative then -raw.toInt64 else raw.toInt64

def quantizeAccumulator (value : Accum) (bits : UInt64) (out : Int64) :
    Status × Int64 :=
  let magnitude := lnAbsolute value
  if magnitude.high ≠ 0 ∨ magnitude.low > (1 : UInt64) <<< 62 then
    (.errorRange, out)
  else
    (.ok, quantizeUnit magnitude.low (lnNegative value) bits)

/-- The shape of `linears_accum_to_q15` and `linears_accum_to_q31`. -/
def linearsAccumToQ {Q : Type} [QFormat Q] (value : Accum) (out : Option Q) :
    Status × Option Q :=
  withOut out fun old =>
    let result := quantizeAccumulator value (QFormat.qBits Q) 0
    if result.1 = .ok then (result.1, QFormat.narrow result.2) else (result.1, old)

def linearsAccumToQ15 : Accum → Option Int16 → Status × Option Int16 :=
  linearsAccumToQ

def linearsAccumToQ31 : Accum → Option Int32 → Status × Option Int32 :=
  linearsAccumToQ

/-! ## The endpoint rule and the exact result -/

/-- `+2 ^ bits` has no code and is stored as the code below it. -/
def endpoint (bits : ℕ) (n : ℤ) : ℤ :=
  if n = 2 ^ bits then n - 1 else n

theorem endpoint_bounds {bits : ℕ} {n : ℤ} (hn : |n| ≤ 2 ^ bits) :
    -2 ^ bits ≤ endpoint bits n ∧ endpoint bits n < 2 ^ bits := by
  have hpos : (0 : ℤ) < 2 ^ bits := by positivity
  rw [abs_le] at hn
  rw [endpoint]
  split <;> omega

theorem roundedQuotient_le {n d m : ℕ} (hd : 0 < d) (h : n ≤ m * d) :
    roundedQuotient n d ≤ m := by
  rw [roundedQuotient_eq n hd, ← Nat.lt_succ_iff, Nat.div_lt_iff_lt_mul (by omega)]
  calc
    2 * n + d ≤ 2 * (m * d) + d := by omega
    _ < 2 * (m * d) + 2 * d := by omega
    _ = (m + 1) * (2 * d) := by ring

/-- Stepping down from the unavailable positive endpoint on an unsigned word. -/
theorem toInt_endpointWord {raw bits : UInt64} (hbits : bits.toNat < 62)
    (hraw : raw.toNat ≤ 2 ^ bits.toNat) :
    (if raw = (1 : UInt64) <<< bits then raw - 1 else raw).toInt64.toInt =
      endpoint bits.toNat raw.toNat := by
  have hpow : 2 ^ bits.toNat < 2 ^ 62 := Nat.pow_lt_pow_right (by decide) hbits
  have hone := toNat_one_shiftLeft (show bits.toNat < 64 by omega)
  by_cases hlast : raw = (1 : UInt64) <<< bits
  · have hrawNat : raw.toNat = 2 ^ bits.toNat := by rw [hlast, hone]
    have hrawpos : 1 ≤ raw.toNat := by
      rw [hrawNat]
      exact Nat.one_le_two_pow
    have hpred : (raw - 1).toNat = raw.toNat - 1 := by
      rw [UInt64.toNat_sub_of_le, UInt64.toNat_one]
      rw [UInt64.le_iff_toNat_le, UInt64.toNat_one]
      exact hrawpos
    rw [if_pos hlast, toInt_toInt64_of_lt (by omega), hpred, endpoint,
      if_pos (by rw [hrawNat]; push_cast; rfl)]
    omega
  · rw [if_neg hlast, toInt_toInt64_of_lt (by omega), endpoint, if_neg]
    rw [← UInt64.toNat_inj, hone] at hlast
    exact_mod_cast hlast

theorem toInt_quantizeUnit {magnitude : UInt64} (hmag : magnitude.toNat ≤ 2 ^ 62)
    (negative : Bool) {bits : UInt64} (hpos : 0 < bits.toNat) (hbits : bits.toNat < 62) :
    (quantizeUnit magnitude negative bits).toInt =
      endpoint bits.toNat (signed negative
        (roundedQuotient magnitude.toNat (2 ^ (62 - bits.toNat)) : ℤ)) := by
  have hshift : (62 - bits).toNat = 62 - bits.toNat := by
    rw [UInt64.toNat_sub_of_le]
    · rfl
    · rw [UInt64.le_iff_toNat_le]
      exact hbits.le
  have hspos : 0 < (62 - bits).toNat := by omega
  have hslt : (62 - bits).toNat < 64 := by omega
  have hsplit : 2 ^ 62 = 2 ^ bits.toNat * 2 ^ (62 - bits.toNat) := by
    rw [← pow_add]
    congr 1
    omega
  have hraw : roundedQuotient magnitude.toNat (2 ^ (62 - bits.toNat)) ≤ 2 ^ bits.toNat :=
    roundedQuotient_le (Nat.two_pow_pos _) (by rw [← hsplit]; exact hmag)
  have hpow : 2 ^ bits.toNat < 2 ^ 62 := Nat.pow_lt_pow_right (by decide) hbits
  have hhalf := lowMask_ge_half_iff magnitude hspos hslt
  have hword : (magnitude >>> (62 - bits) +
      if magnitude &&& (((1 : UInt64) <<< (62 - bits)) - 1) ≥
        (1 : UInt64) <<< (62 - bits - 1) then 1 else 0).toNat =
      roundedQuotient magnitude.toNat (2 ^ (62 - bits.toNat)) := by
    simp only [hhalf, hshift]
    rw [roundedQuotient] at hraw ⊢
    rw [UInt64.toNat_add, toNat_shiftRight_eq _ _ hslt, hshift, Nat.mod_eq_of_lt]
    · split <;> rfl
    · split
      · rw [UInt64.toNat_one]
        rename_i hup
        rw [if_pos hup] at hraw
        omega
      · rw [UInt64.toNat_zero]
        rename_i hup
        rw [if_neg hup] at hraw
        omega
  rw [quantizeUnit]
  generalize (magnitude >>> (62 - bits) +
      if magnitude &&& (((1 : UInt64) <<< (62 - bits)) - 1) ≥
        (1 : UInt64) <<< (62 - bits - 1) then 1 else 0) = raw at *
  rw [← hword] at hraw ⊢
  cases negative with
  | true =>
      simp only [Bool.true_eq_false, false_and, if_false, if_true, signed_true]
      rw [toInt_neg_of_fits] <;> rw [toInt_toInt64_of_lt (by omega)]
      · rw [endpoint, if_neg]
        have : (0 : ℤ) < 2 ^ bits.toNat := by positivity
        omega
      · constructor <;> omega
  | false =>
      simp only [true_and, Bool.false_eq_true, if_false, signed_false]
      exact toInt_endpointWord hbits hraw

/-- The exported code of the exact F62 value `n`. -/
def quantizedCode (bits : ℕ) (n : ℤ) : ℤ :=
  endpoint bits (roundAway ((n : ℚ) / 2 ^ (62 - bits)))

theorem quantizedCode_bounds {bits : ℕ} (hbits : bits < 62) {n : ℤ} (hn : |n| ≤ 2 ^ 62) :
    -2 ^ bits ≤ quantizedCode bits n ∧ quantizedCode bits n < 2 ^ bits := by
  have hscale : |(n : ℚ) / 2 ^ (62 - bits)| ≤ ((2 ^ bits : ℤ) : ℚ) := by
    rw [abs_div, abs_of_pos (show (0 : ℚ) < 2 ^ (62 - bits) by positivity),
      div_le_iff₀ (by positivity)]
    have hsplit : ((2 ^ bits : ℤ) : ℚ) * 2 ^ (62 - bits) = ((2 ^ 62 : ℤ) : ℚ) := by
      push_cast
      rw [← pow_add, Nat.add_sub_cancel' hbits.le]
      norm_num
    rw [hsplit]
    exact_mod_cast hn
  exact endpoint_bounds (abs_roundAway_le hscale)

theorem linearsAccumToQ_eq {Q : Type} [QFormat Q] (value : Accum) (old : Q) :
    (|value.toInt| ≤ 2 ^ 62 ∧
      ∃ stored : Q, linearsAccumToQ value (some old) = (.ok, some stored) ∧
        (QFormat.widen stored).toInt =
          quantizedCode (QFormat.qBits Q).toNat value.toInt) ∨
    (2 ^ 62 < |value.toInt| ∧
      linearsAccumToQ value (some old) = (.errorRange, some old)) := by
  have hbits : 0 < (QFormat.qBits Q).toNat ∧ (QFormat.qBits Q).toNat < 62 := by
    rcases QFormat.qBits_cases (Q := Q) with h | h <;> rw [h] <;> decide
  have habs := toNat_lnAbsolute value
  have hlow := (lnAbsolute value).low.toNat_lt
  have hcap : ((1 : UInt64) <<< 62).toNat = 2 ^ 62 := rfl
  have hguard : ((lnAbsolute value).high ≠ 0 ∨
      (lnAbsolute value).low > (1 : UInt64) <<< 62) ↔ 2 ^ 62 < |value.toInt| := by
    rw [ne_eq, ← UInt64.toNat_inj, UInt64.toNat_zero, gt_iff_lt, UInt64.lt_iff_toNat_lt,
      hcap, Int.abs_eq_natAbs, ← habs, Accum.toNat]
    omega
  rw [linearsAccumToQ, withOut_some, quantizeAccumulator]
  by_cases hrange : 2 ^ 62 < |value.toInt|
  · right
    refine ⟨hrange, ?_⟩
    simp only [if_pos (hguard.mpr hrange)]
    rfl
  · left
    refine ⟨not_lt.mp hrange, ?_⟩
    have hword : (lnAbsolute value).low.toNat = (lnAbsolute value).toNat := by
      have := not_or.mp (fun h => hrange (hguard.mp h))
      rw [Accum.toNat, not_not.mp this.1, UInt64.toNat_zero, zero_mul, zero_add]
    have hmag : (lnAbsolute value).low.toNat ≤ 2 ^ 62 := by
      rw [hword, habs]
      rw [Int.abs_eq_natAbs] at hrange
      omega
    have hunit := toInt_quantizeUnit hmag (lnNegative value) hbits.1 hbits.2
    have hround := roundAway_div_of_signed (toInt_eq_signed_absolute value)
      (show (2 ^ (62 - (QFormat.qBits Q).toNat) : ℤ) = signed false
        ((2 ^ (62 - (QFormat.qBits Q).toNat) : ℕ) : ℤ) by rw [signed_false]; push_cast; rfl)
      (Nat.two_pow_pos _)
    rw [Bool.bne_false] at hround
    have hcode : (quantizeUnit (lnAbsolute value).low (lnNegative value)
        (QFormat.qBits Q)).toInt = quantizedCode (QFormat.qBits Q).toNat value.toInt := by
      rw [hunit, hword, ← hround, quantizedCode]
      push_cast
      rfl
    have hbounds := quantizedCode_bounds hbits.2 (not_lt.mp hrange)
    simp only [if_neg (fun h => hrange (hguard.mp h)), if_true]
    refine ⟨_, rfl, ?_⟩
    rw [QFormat.toInt_widen_narrow, hcode] <;> rw [hcode]
    · exact hbounds.1
    · exact hbounds.2

end Xhive.Linears
