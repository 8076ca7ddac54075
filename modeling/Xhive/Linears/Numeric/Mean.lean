import Xhive.Linears.Numeric.Quantize

/-!
# Exporting a mean and a working value to a raw-Q signal

`quantize_mean` divides an accumulator by a count with floor division and lets
the final power-of-two shift do the only rounding.  The narrowing conversions
of a working value share the endpoint rule of the accumulator export.
-/

namespace Xhive.Linears

open Xhive.Support

/-- Discarding the fraction of a quotient cannot cross a halfway point of a
later rounding by an even divisor. -/
theorem roundedQuotient_div (n : ℕ) {d k : ℕ} (hd : 0 < d) (hk : 0 < k) :
    roundedQuotient (n / d) (2 ^ k) = roundedQuotient n (d * 2 ^ k) := by
  have hpow : 2 ^ k = 2 * 2 ^ (k - 1) := by
    rw [← pow_succ']
    congr 1
    omega
  have hhalf : 0 < 2 ^ (k - 1) := Nat.two_pow_pos _
  rw [roundedQuotient_eq _ (Nat.two_pow_pos k),
    roundedQuotient_eq _ (Nat.mul_pos hd (Nat.two_pow_pos k)), hpow]
  generalize 2 ^ (k - 1) = h at hhalf
  have hleft : (2 * (n / d) + 2 * h) / (2 * (2 * h)) = (n / d + h) / (2 * h) := by
    rw [← Nat.mul_add, Nat.mul_div_mul_left _ _ (by decide)]
  have hright : (2 * n + d * (2 * h)) / (2 * (d * (2 * h))) = (n + d * h) / (d * (2 * h)) := by
    rw [show 2 * n + d * (2 * h) = 2 * (n + d * h) by ring,
      Nat.mul_div_mul_left _ _ (by decide)]
  rw [hleft, hright, ← Nat.div_div_eq_div_mul (n + d * h), Nat.add_mul_div_left _ _ hd]

def quantizeMean (sum : Accum) (count bits : UInt64) (out : Int64) : Status × Int64 :=
  if count = 0 then (.errorDomain, out)
  else
    let magnitude := lnAbsolute sum
    let bound := lnShiftU64 count 62
    if lnCompareUnsigned magnitude bound > 0 then (.errorRange, out)
    else
      let quotient := (divideMagnitude magnitude.high magnitude.low count).1
      (.ok, quantizeUnit quotient (lnNegative sum) bits)

/-- The shape of `linears_accum_mean_q15` and `linears_accum_mean_q31`. -/
def linearsAccumMeanQ {Q : Type} [QFormat Q] (sum : Accum) (count : UInt64) (out : Option Q) :
    Status × Option Q :=
  withOut out fun old =>
    let result := quantizeMean sum count (QFormat.qBits Q) 0
    if result.1 = .ok then (result.1, QFormat.narrow result.2) else (result.1, old)

def linearsAccumMeanQ15 : Accum → UInt64 → Option Int16 → Status × Option Int16 :=
  linearsAccumMeanQ

def linearsAccumMeanQ31 : Accum → UInt64 → Option Int32 → Status × Option Int32 :=
  linearsAccumMeanQ

theorem lnCompareUnsigned_pos_iff (a b : Accum) :
    lnCompareUnsigned a b > 0 ↔ b.toNat < a.toNat := by
  have hal := a.low.toNat_lt
  have hbl := b.low.toNat_lt
  rw [lnCompareUnsigned, Accum.toNat, Accum.toNat]
  by_cases hhigh : a.high = b.high
  · rw [if_neg (not_not.mpr hhigh), hhigh]
    simp only [gt_iff_lt, UInt64.lt_iff_toNat_lt]
    split <;> split <;> omega
  · rw [if_pos hhigh]
    have hne : a.high.toNat ≠ b.high.toNat := fun h => hhigh (UInt64.toNat_inj.mp h)
    simp only [gt_iff_lt, UInt64.lt_iff_toNat_lt]
    split <;> omega

/-- The code of the exact mean `n / (count * 2 ^ 62)`. -/
def meanCode (bits count : ℕ) (n : ℤ) : ℤ :=
  endpoint bits (roundAway ((n : ℚ) / (count * 2 ^ (62 - bits))))

theorem meanCode_bounds {bits count : ℕ} (hbits : bits ≤ 62) (hcount : 0 < count) {n : ℤ}
    (hn : |n| ≤ count * 2 ^ 62) :
    -2 ^ bits ≤ meanCode bits count n ∧ meanCode bits count n < 2 ^ bits := by
  apply endpoint_bounds
  apply abs_roundAway_le
  have hcount' : (0 : ℚ) < count := by exact_mod_cast hcount
  have hsplit : (2 : ℚ) ^ bits * 2 ^ (62 - bits) = 2 ^ 62 := by
    rw [← pow_add, Nat.add_sub_cancel' hbits]
  have hn' : |(n : ℚ)| ≤ count * 2 ^ 62 := by exact_mod_cast hn
  rw [abs_div, abs_of_pos (show (0 : ℚ) < count * 2 ^ (62 - bits) by positivity),
    div_le_iff₀ (by positivity)]
  calc
    |(n : ℚ)| ≤ count * 2 ^ 62 := hn'
    _ = ((2 ^ bits : ℤ) : ℚ) * (count * 2 ^ (62 - bits)) := by
      push_cast
      rw [← hsplit]
      ring

theorem qBits_bounds (Q : Type) [QFormat Q] :
    0 < (QFormat.qBits Q).toNat ∧ (QFormat.qBits Q).toNat ≤ 31 := by
  rcases QFormat.qBits_cases (Q := Q) with h | h <;> rw [h] <;> decide

theorem quantizeMean_eq {sum : Accum} {count bits : UInt64} (hcount : count ≠ 0)
    (hbits : 0 < bits.toNat) (hbits' : bits.toNat ≤ 31) (old : Int64)
    (hrange : |sum.toInt| ≤ count.toNat * 2 ^ 62) :
    ∃ raw, quantizeMean sum count bits old = (.ok, raw) ∧
      raw.toInt = meanCode bits.toNat count.toNat sum.toInt := by
  have hpos : 0 < count.toNat := by
    rw [Nat.pos_iff_ne_zero, ne_eq, ← UInt64.toNat_zero, UInt64.toNat_inj]
    exact hcount
  have habs := toNat_lnAbsolute sum
  have hmag : (lnAbsolute sum).toNat ≤ count.toNat * 2 ^ 62 := by
    rw [Int.abs_eq_natAbs, ← habs] at hrange
    exact_mod_cast hrange
  have hbound : (lnShiftU64 count 62).toNat = count.toNat * 2 ^ 62 :=
    toNat_lnShiftU64 count 62 (by decide) (by decide)
  have hhigh : (lnAbsolute sum).high.toNat < count.toNat := by
    rw [Accum.toNat] at hmag
    omega
  have hdivide := (divideMagnitude_spec (lnAbsolute sum).low hhigh).1
  have hquot : ((divideMagnitude (lnAbsolute sum).high (lnAbsolute sum).low count).1).toNat =
      (lnAbsolute sum).toNat / count.toNat := by
    rw [hdivide, Accum.toNat]
  have hle : (lnAbsolute sum).toNat / count.toNat ≤ 2 ^ 62 :=
    Nat.div_le_of_le_mul hmag
  have hunit := toInt_quantizeUnit (hquot ▸ hle) (lnNegative sum) hbits
    (show bits.toNat < 62 by omega)
  have hround := roundAway_div_of_signed (toInt_eq_signed_absolute sum)
    (show ((count.toNat * 2 ^ (62 - bits.toNat) : ℕ) : ℤ) = signed false
      ((count.toNat * 2 ^ (62 - bits.toNat) : ℕ) : ℤ) by rw [signed_false])
    (Nat.mul_pos hpos (Nat.two_pow_pos _))
  rw [Bool.bne_false] at hround
  push_cast at hround
  refine ⟨quantizeUnit (divideMagnitude (lnAbsolute sum).high (lnAbsolute sum).low count).1
    (lnNegative sum) bits, ?_, ?_⟩
  · rw [quantizeMean, if_neg hcount]
    dsimp only
    rw [if_neg]
    rw [lnCompareUnsigned_pos_iff, hbound, not_lt]
    exact hmag
  · rw [hunit, hquot, roundedQuotient_div _ hpos (by omega), meanCode, hround]

/-- A mean whose sum is in range is exported with a single rounding. -/
theorem linearsAccumMeanQ_eq {Q : Type} [QFormat Q] {sum : Accum} {count : UInt64}
    (hcount : count ≠ 0) (old : Q) (hrange : |sum.toInt| ≤ count.toNat * 2 ^ 62) :
    ∃ stored : Q, linearsAccumMeanQ sum count (some old) = (.ok, some stored) ∧
      (QFormat.widen stored).toInt =
        meanCode (QFormat.qBits Q).toNat count.toNat sum.toInt := by
  have hbits := qBits_bounds Q
  obtain ⟨raw, hmean, hraw⟩ := quantizeMean_eq hcount hbits.1 hbits.2 0 hrange
  have hpos : 0 < count.toNat := by
    rw [Nat.pos_iff_ne_zero, ne_eq, ← UInt64.toNat_zero, UInt64.toNat_inj]
    exact hcount
  have hcode := meanCode_bounds (show (QFormat.qBits Q).toNat ≤ 62 by omega) hpos hrange
  refine ⟨QFormat.narrow raw, ?_, ?_⟩
  · rw [linearsAccumMeanQ, withOut_some, hmean]
    rfl
  · rw [QFormat.toInt_widen_narrow, hraw] <;> rw [hraw]
    · exact hcode.1
    · exact hcode.2

/-! ## The narrowing conversions -/

theorem export_guard_iff (value : Int64) :
    (value < -fixedOne ∨ value > fixedOne) ↔ 2 ^ 31 < |value.toInt| := by
  have hneg : (-fixedOne).toInt = -2 ^ 31 := rfl
  rw [gt_iff_lt, Int64.lt_iff_toInt_lt, Int64.lt_iff_toInt_lt, hneg, toInt_fixedOne, lt_abs]
  omega

/-- The rounded magnitude of the q15 export. -/
theorem toNat_q15_rounded (value : Int64) :
    ((lnMagnitude value >>> 16) +
      (if lnMagnitude value &&& 65535 ≥ 32768 then 1 else 0)).toNat =
      roundedQuotient (lnMagnitude value).toNat (2 ^ 16) := by
  have hhalf := lowMask_ge_half_iff (lnMagnitude value) (show 0 < (16 : UInt64).toNat by decide)
    (by decide)
  rw [show ((1 : UInt64) <<< 16) - 1 = 65535 from rfl,
    show (1 : UInt64) <<< (16 - 1) = 32768 from rfl,
    show (16 : UInt64).toNat = 16 from rfl] at hhalf
  have hlt := (lnMagnitude value).toNat_lt
  simp only [hhalf]
  rw [UInt64.toNat_add, toNat_shiftRight_eq _ _ (by decide), roundedQuotient,
    show (16 : UInt64).toNat = 16 from rfl]
  split
  · rw [UInt64.toNat_one]
    omega
  · rw [UInt64.toNat_zero]
    omega

theorem linearsFixedToQ15_ok {value : Int64} (old : Int16) (hvalue : |value.toInt| ≤ 2 ^ 31) :
    ∃ stored, linearsFixedToQ15 value (some old) = (.ok, some stored) ∧
      stored.toInt = endpoint 15 (roundAway ((value.toInt : ℚ) / 2 ^ 16)) := by
  have hround := roundAway_div_of_signed (toInt_eq_signed_magnitude value)
    (show (2 ^ 16 : ℤ) = signed false ((2 ^ 16 : ℕ) : ℤ) by norm_num) (by norm_num)
  rw [Bool.bne_false, show ((2 ^ 16 : ℤ) : ℚ) = 2 ^ 16 by norm_num] at hround
  have hmag : (lnMagnitude value).toNat ≤ 2 ^ 15 * 2 ^ 16 := by
    rw [toNat_lnMagnitude]
    rw [Int.abs_eq_natAbs] at hvalue
    omega
  have hle := roundedQuotient_le (by norm_num) hmag
  have hword := toNat_q15_rounded value
  rw [linearsFixedToQ15, withOut_some, if_neg (by rw [export_guard_iff]; omega)]
  dsimp only
  generalize (lnMagnitude value >>> 16) +
      (if lnMagnitude value &&& 65535 ≥ 32768 then 1 else 0) = rounded at hword ⊢
  refine ⟨_, rfl, ?_⟩
  rw [hround, ← hword]
  rw [← hword] at hle
  have hlast : rounded = 32768 ↔ rounded.toNat = 2 ^ 15 := by
    rw [← UInt64.toNat_inj]
    rfl
  have hcast : ∀ raw : UInt64, raw.toNat < 2 ^ 31 → raw.toUInt32.toInt32.toInt = raw.toNat := by
    intro raw hraw
    have h : raw.toUInt32.toInt32.toInt = raw.toUInt32.toBitVec.toInt := rfl
    have hnat : raw.toUInt32.toNat = raw.toNat := by
      rw [UInt64.toNat_toUInt32, Nat.mod_eq_of_lt (by omega)]
    rw [h, BitVec.toInt_eq_toNat_cond, UInt32.toNat_toBitVec, hnat, if_pos (by omega)]
  by_cases hneg : value < 0
  · have hnot : ¬(value ≥ 0 ∧ rounded = 32768) := by
      rintro ⟨hnonneg, -⟩
      rw [ge_iff_le, Int64.le_iff_toInt_le, Int64.toInt_zero] at hnonneg
      rw [lt_zero_iff_toInt] at hneg
      omega
    simp only [if_pos hneg, if_neg hnot, decide_eq_true hneg, signed_true]
    have hword32 : (-(rounded.toNat : ℤ)).bmod (2 ^ 32) = -rounded.toNat :=
      Int.bmod_eq_of_le (by omega) (by omega)
    rw [Int32.toInt_toInt16, Int32.toInt_neg, hcast _ (by omega), endpoint, if_neg (by omega),
      hword32, Int.bmod_eq_of_le (by omega) (by omega)]
  · have hnonneg : value ≥ 0 := by
      rw [ge_iff_le, Int64.le_iff_toInt_le, Int64.toInt_zero]
      rw [lt_zero_iff_toInt] at hneg
      omega
    simp only [if_neg hneg, hnonneg, true_and, decide_eq_false hneg, signed_false, endpoint]
    by_cases hend : rounded = 32768
    · rw [if_pos hend, if_pos (by rw [hlast.mp hend]; rfl), hlast.mp hend]
      rfl
    · have hne : ((rounded.toNat : ℤ)) ≠ 2 ^ 15 := by
        rw [hlast] at hend
        exact_mod_cast hend
      rw [if_neg hend, if_neg hne, Int32.toInt_toInt16, hcast _ (by omega)]
      rw [Int.bmod_eq_of_le (by omega) (by omega)]

theorem linearsFixedToQ31_ok {value : Int64} (old : Int32) (hvalue : |value.toInt| ≤ 2 ^ 31) :
    ∃ stored, linearsFixedToQ31 value (some old) = (.ok, some stored) ∧
      stored.toInt = endpoint 31 (roundAway ((value.toInt : ℚ) / 2 ^ 0)) := by
  rw [linearsFixedToQ31, withOut_some, if_neg (by rw [export_guard_iff]; omega)]
  refine ⟨_, rfl, ?_⟩
  rw [pow_zero, div_one, roundAway_intCast, endpoint]
  rw [abs_le] at hvalue
  by_cases hend : value = fixedOne
  · rw [if_pos hend, hend, toInt_fixedOne, if_pos rfl]
    rfl
  · have hne : value.toInt ≠ 2 ^ 31 := by
      rwa [← toInt_fixedOne, ne_eq, Int64.toInt_inj]
    rw [if_neg hend, if_neg hne, Int64.toInt_toInt32, Int.bmod_eq_of_le (by omega) (by omega)]

end Xhive.Linears
