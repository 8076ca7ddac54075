import Xhive.Particles.Gaussian
import Xhive.Particles.WideExact
import Xhive.Support.LongDivision

/-!
# The divisions of the Gaussian solver

Long division by digits of 32 bits gives quotient and remainder, and so does
the product with a prepared reciprocal after one correction.
-/

namespace Xhive.Particles

open Xhive.Support Xhive.Linears

/-! ## Digits -/

/-- The normalized divisor has its highest bit set. -/
theorem normalizeDivisor_spec {value : UInt64} (h : 0 < value.toNat) :
    (normalizeDivisor value).1 < 64 ∧
      (normalizeDivisor value).2.toNat = value.toNat * 2 ^ (normalizeDivisor value).1 ∧
      2 ^ 63 ≤ (normalizeDivisor value).2.toNat := by
  obtain ⟨hshift, hhigh, hfits⟩ := normalized_bounds h value.toNat_lt
  rw [← filtersQBitLength_eq] at hshift hhigh hfits
  have hvalue : (normalizeDivisor value).2.toNat = value.toNat * 2 ^ (normalizeDivisor value).1 := by
    have hamount := toNat_ofNat_shift hshift
    rw [normalizeDivisor]
    dsimp only
    rw [toNat_shiftLeft_eq _ _ (by omega), hamount, Nat.mod_eq_of_lt hfits]
  refine ⟨hshift, hvalue, ?_⟩
  rw [hvalue]
  exact hhigh

/-- The corrections stop at the digit. -/
theorem divideCorrect_spec {v1 v0 c q r : UInt64} {leading digit : ℕ} (hv1 : v1.toNat < 2 ^ 32)
    (hhalf : 2 ^ 31 ≤ v1.toNat) (hv0 : v0.toNat < 2 ^ 32) (hc : c.toNat < 2 ^ 32)
    (hquotient : (leading * 2 ^ 32 + c.toNat) / (v1.toNat * 2 ^ 32 + v0.toNat) = digit)
    (hdigit : digit < 2 ^ 32)
    (hestimate : DigitEstimate (2 ^ 32) leading v1.toNat q.toNat r.toNat)
    (hr : r.toNat < 2 ^ 32) (hle : digit ≤ q.toNat) :
    (divideCorrect v1 v0 c q r).toNat = digit := by
  have hpos : 0 < v1.toNat * 2 ^ 32 + v0.toNat := by omega
  have htop := hestimate.top
  have hexact : (q * v0).toNat = q.toNat * v0.toNat := by
    rw [UInt64.toNat_mul, Nat.mod_eq_of_lt]
    calc q.toNat * v0.toNat ≤ (2 ^ 32 + 1) * (2 ^ 32 - 1) := Nat.mul_le_mul htop (by omega)
      _ < 2 ^ 64 := by norm_num
  have hrest : ((r <<< 32) + c).toNat = r.toNat * 2 ^ 32 + c.toNat := by
    rw [UInt64.toNat_add, toNat_shiftLeft_eq _ _ (by decide),
      show (32 : UInt64).toNat = 32 from rfl]
    omega
  have hbase : (0x100000000 : UInt64).toNat = 2 ^ 32 := rfl
  have hiff := @hestimate.overestimates_iff _ _ _ v0.toNat c.toNat _ _ hpos
  rw [hquotient] at hiff
  rw [divideCorrect]
  simp only [ge_iff_le, gt_iff_lt, UInt64.le_iff_toNat_le, UInt64.lt_iff_toNat_lt, hexact, hrest,
    hbase]
  by_cases hover : 2 ^ 32 ≤ q.toNat ∨ r.toNat * 2 ^ 32 + c.toNat < q.toNat * v0.toNat
  · rw [if_pos hover]
    have hlt : digit < q.toNat := hover.elim (fun hbig => by omega) hiff.mp
    have hone : (1 : UInt64) ≤ q := UInt64.le_iff_toNat_le.mpr (by
      rw [UInt64.toNat_one]
      omega)
    have hpred : (q - 1).toNat = q.toNat - 1 := by
      rw [UInt64.toNat_sub_of_le _ _ hone, UInt64.toNat_one]
    have hsum : (r + v1).toNat = r.toNat + v1.toNat := by
      rw [UInt64.toNat_add, Nat.mod_eq_of_lt (by omega)]
    have hnext := hestimate.correct (by omega)
    rw [← hpred, ← hsum] at hnext
    split
    · rename_i hstop
      have hreached := @hnext.reached _ _ _ v0.toNat c.toNat _ _ hpos hv0 (by omega) hstop
      rw [hquotient] at hreached
      omega
    · rename_i hgo
      exact divideCorrect_spec hv1 hhalf hv0 hc hquotient hdigit hnext (by omega) (by omega)
  · rw [if_neg hover]
    have hge : ¬digit < q.toNat := fun hlt => hover (Or.inr (hiff.mpr hlt))
    omega
termination_by q.toNat
decreasing_by omega

/-- The digit of three limbs over a normalized divisor. -/
theorem quotientDigit_spec {a b c : UInt32} {divisor : UInt64} (hnormal : 2 ^ 63 ≤ divisor.toNat)
    (hfits : (a.toNat * 2 ^ 32 + b.toNat) * 2 ^ 32 + c.toNat < divisor.toNat * 2 ^ 32) :
    (divideCorrect (divisor >>> 32) divisor.toUInt32.toUInt64 c.toUInt64
      (((a.toUInt64 <<< 32) ||| b.toUInt64) / (divisor >>> 32))
      (((a.toUInt64 <<< 32) ||| b.toUInt64) % (divisor >>> 32))).toNat =
      ((a.toNat * 2 ^ 32 + b.toNat) * 2 ^ 32 + c.toNat) / divisor.toNat := by
  have ha := a.toNat_lt
  have hb := b.toNat_lt
  have hc := c.toNat_lt
  have hbelow : a.toNat * 2 ^ 32 + b.toNat < divisor.toNat :=
    Nat.lt_of_mul_lt_mul_right (lt_of_le_of_lt (Nat.le_add_right _ _) hfits)
  have hd := divisor.toNat_lt
  have hv1 : (divisor >>> 32).toNat = divisor.toNat / 2 ^ 32 := toNat_shiftRight_32 divisor
  have hv0 : divisor.toUInt32.toUInt64.toNat = divisor.toNat % 2 ^ 32 := by
    rw [toNat_toUInt64_word, toNat_toUInt32_word]
  have hdivisor : (divisor >>> 32).toNat * 2 ^ 32 + divisor.toUInt32.toUInt64.toNat =
      divisor.toNat := by
    rw [hv1, hv0]
    omega
  have hleading : ((a.toUInt64 <<< 32) ||| b.toUInt64).toNat = a.toNat * 2 ^ 32 + b.toNat := by
    have hshift : (a.toUInt64 <<< 32).toNat = a.toNat * 2 ^ 32 := by
      rw [toNat_shiftLeft_eq _ _ (by decide), show (32 : UInt64).toNat = 32 from rfl,
        toNat_toUInt64_word]
      omega
    rw [UInt64.toNat_or, hshift, toNat_toUInt64_word, mul_two_pow_lor _ hb]
  have hhalf : 2 ^ 31 ≤ (divisor >>> 32).toNat := by omega
  have hlt : (divisor >>> 32).toNat < 2 ^ 32 := by omega
  have hv0lt : divisor.toUInt32.toUInt64.toNat < 2 ^ 32 := by omega
  have hclt : c.toUInt64.toNat < 2 ^ 32 := (toNat_toUInt64_word c).trans_lt hc
  have hdigit : ((a.toNat * 2 ^ 32 + b.toNat) * 2 ^ 32 + c.toNat) / divisor.toNat < 2 ^ 32 := by
    rw [Nat.div_lt_iff_lt_mul (by omega)]
    exact hfits.trans_eq (Nat.mul_comm _ _)
  obtain ⟨leading, hsum⟩ : ∃ leading, a.toNat * 2 ^ 32 + b.toNat = leading := ⟨_, rfl⟩
  rw [hsum] at hbelow hdigit hleading ⊢
  generalize (divisor >>> 32) = v1 at *
  generalize divisor.toUInt32.toUInt64 = v0 at *
  have hpos : 0 < v1.toNat := by omega
  have htop : 2 ^ 32 ≤ 2 * v1.toNat := by omega
  have hfirst : leading < (v1.toNat + 1) * 2 ^ 32 := by omega
  have hstart := DigitEstimate.start htop hpos hfirst
  have hleast := @digit_le_leading _ leading _ v0.toNat _ hpos hclt
  rw [hdivisor, toNat_toUInt64_word] at hleast
  refine divideCorrect_spec hlt hhalf hv0lt hclt (by rw [hdivisor, toNat_toUInt64_word]) hdigit
    ?_ ?_ ?_
  · rw [UInt64.toNat_div, UInt64.toNat_mod, hleading]
    exact hstart
  · rw [UInt64.toNat_mod]
    exact (Nat.mod_lt _ hpos).trans hlt
  · rw [UInt64.toNat_div, hleading]
    exact hleast

/-- The unit of a digit. -/
def digitUnit (upper : Bool) : ℕ :=
  if upper then 2 ^ 32 else 1

/-- The limbs that a digit is divided from. -/
theorem digitLimbs (value : Accum) (upper : Bool) (hsmall : upper = false → value.toNat < 2 ^ 96) :
    let limbs := momentLimbs value
    ((if upper then limbs.word 3 else limbs.word 2).toNat * 2 ^ 32 +
        (if upper then limbs.word 2 else limbs.word 1).toNat) * 2 ^ 32 +
      (if upper then limbs.word 1 else limbs.word 0).toNat = value.toNat / digitUnit upper := by
  have hlimbs := wideValue_momentLimbs value
  have h0 := ((momentLimbs value).word 0).toNat_lt
  have h1 := ((momentLimbs value).word 1).toNat_lt
  have h2 := ((momentLimbs value).word 2).toNat_lt
  simp only [wideValue, digitSum_succ, digitSum_zero] at hlimbs
  cases upper with
  | true =>
      simp only [if_true, digitUnit]
      omega
  | false =>
      have hlt := hsmall rfl
      simp only [Bool.false_eq_true, if_false, digitUnit]
      omega

/-- A digit and what it leaves. -/
theorem divideDigit_spec {value : Accum} {divisor : UInt64} (hnormal : 2 ^ 63 ≤ divisor.toNat)
    (upper : Bool) (hfits : value.toNat < divisor.toNat * digitUnit upper * 2 ^ 32) :
    (divideDigit value divisor upper).2.toNat = value.toNat / (divisor.toNat * digitUnit upper) ∧
      (divideDigit value divisor upper).1.toNat =
        value.toNat % (divisor.toNat * digitUnit upper) := by
  have hd := divisor.toNat_lt
  have hvalue := value.toNat_lt
  have hunit : 0 < digitUnit upper := by cases upper <;> decide
  have hlimbs := digitLimbs value upper (by
    rintro rfl
    rw [digitUnit, if_neg (by decide), Nat.mul_one] at hfits
    omega)
  have hquotient : value.toNat / digitUnit upper / divisor.toNat =
      value.toNat / (divisor.toNat * digitUnit upper) := by
    rw [Nat.div_div_eq_div_mul, Nat.mul_comm divisor.toNat]
  have hsmall : value.toNat / digitUnit upper < divisor.toNat * 2 ^ 32 := by
    rw [Nat.div_lt_iff_lt_mul hunit]
    calc value.toNat < divisor.toNat * digitUnit upper * 2 ^ 32 := hfits
      _ = divisor.toNat * 2 ^ 32 * digitUnit upper := by ring
  have hdigit := quotientDigit_spec (c := if upper then (momentLimbs value).word 1
    else (momentLimbs value).word 0) hnormal (hlimbs.symm ▸ hsmall)
  rw [hlimbs, hquotient] at hdigit
  have hbound : value.toNat / (divisor.toNat * digitUnit upper) < 2 ^ 32 := by
    rw [Nat.div_lt_iff_lt_mul (Nat.mul_pos (by omega) hunit), Nat.mul_comm]
    exact hfits
  rw [divideDigit]
  dsimp only
  generalize divideCorrect (divisor >>> 32) divisor.toUInt32.toUInt64 _ _ _ = q at hdigit ⊢
  -- the product of the digit does not exceed the value
  have hdivmod := Nat.div_add_mod value.toNat (divisor.toNat * digitUnit upper)
  have hproduct : (if upper then expShl (pfQUmul q divisor) 32 else pfQUmul q divisor).toNat =
      divisor.toNat * digitUnit upper * (value.toNat / (divisor.toNat * digitUnit upper)) := by
    have hmul := toNat_pfQUmul q divisor
    rw [hdigit] at hmul
    cases upper with
    | true =>
        rw [digitUnit, if_pos rfl] at *
        rw [if_pos rfl, toNat_expShl _ (by norm_num), hmul]
        · ring
        · rw [hmul]
          calc value.toNat / (divisor.toNat * 2 ^ 32) * divisor.toNat * 2 ^ 32
              = divisor.toNat * 2 ^ 32 * (value.toNat / (divisor.toNat * 2 ^ 32)) := by ring
            _ ≤ value.toNat := by omega
            _ < 2 ^ 128 := hvalue
    | false =>
        rw [digitUnit, if_neg (by decide)] at *
        rw [if_neg (by decide), hmul]
        ring
  have hnot : ¬pfQUcmp (if upper then expShl (pfQUmul q divisor) 32 else pfQUmul q divisor) value >
      0 := by
    rw [gt_iff_lt, pfQUcmp_pos_iff, hproduct]
    omega
  rw [if_neg hnot]
  constructor
  · rw [toNat_toUInt32_word, hdigit, Nat.mod_eq_of_lt hbound]
  · rw [expUsub, toNat_momentSub128 (by rw [hproduct]; omega), hproduct]
    omega

/-! ## Quotient and remainder -/

/-- The remainder of the normalized division is shifted back. -/
theorem toNat_shifted_rest {rest : UInt64} {shift m : ℕ} (hshift : shift < 64)
    (h : rest.toNat = m * 2 ^ shift) : (rest >>> UInt64.ofNat shift).toNat = m := by
  have hamount := toNat_ofNat_shift hshift
  rw [toNat_shiftRight_eq _ _ (by omega), hamount, h, Nat.mul_div_cancel _ (Nat.two_pow_pos _)]

/-- The long division is exact. -/
theorem divideWide_spec {numerator : Accum} {denominator : UInt64} (hd : 0 < denominator.toNat)
    (hfits : numerator.toNat < denominator.toNat * 2 ^ 64) :
    (divideWide numerator denominator).1.toNat = numerator.toNat / denominator.toNat ∧
      (divideWide numerator denominator).2.toNat = numerator.toNat % denominator.toNat := by
  obtain ⟨hshift, hnormalized, hhigh⟩ := normalizeDivisor_spec hd
  rw [divideWide]
  dsimp only
  generalize (normalizeDivisor denominator).1 = s at *
  generalize (normalizeDivisor denominator).2 = v at *
  have hpow := Nat.two_pow_pos s
  have hv := v.toNat_lt
  have hscaled : numerator.toNat * 2 ^ s < v.toNat * 2 ^ 64 := by
    calc numerator.toNat * 2 ^ s < denominator.toNat * 2 ^ 64 * 2 ^ s :=
          Nat.mul_lt_mul_of_pos_right hfits hpow
      _ = v.toNat * 2 ^ 64 := by
        rw [hnormalized]
        ring
  have hn := @toNat_expShl numerator s (by omega) (by omega)
  have hpow64 : v.toNat * 2 ^ 64 = v.toNat * 2 ^ 32 * 2 ^ 32 := by rw [Nat.mul_assoc, ← pow_add]
  have hupper : (expShl numerator s).toNat < v.toNat * digitUnit true * 2 ^ 32 := by
    rw [hn, digitUnit, if_pos rfl, ← hpow64]
    exact hscaled
  obtain ⟨hdigit1, hrest1⟩ := divideDigit_spec hhigh true hupper
  rw [hn, digitUnit, if_pos rfl] at hdigit1 hrest1
  have hlt1 := Nat.mod_lt (numerator.toNat * 2 ^ s) (show 0 < v.toNat * 2 ^ 32 by omega)
  rw [← hrest1] at hlt1
  have hlower : (divideDigit (expShl numerator s) v true).1.toNat <
      v.toNat * digitUnit false * 2 ^ 32 := by
    rw [digitUnit, if_neg (by decide), Nat.mul_one]
    exact hlt1
  obtain ⟨hdigit0, hrest0⟩ := divideDigit_spec hhigh false hlower
  rw [digitUnit, if_neg (by decide), Nat.mul_one, hrest1] at hdigit0 hrest0
  have hdvd : v.toNat ∣ v.toNat * 2 ^ 32 := Nat.dvd_mul_right _ _
  rw [Nat.mod_mod_of_dvd _ hdvd] at hrest0
  have hrestlt := Nat.mod_lt (numerator.toNat * 2 ^ s) (show 0 < v.toNat by omega)
  generalize (divideDigit (expShl numerator s) v true).2 = high at *
  generalize divideDigit (divideDigit (expShl numerator s) v true).1 v false = low at *
  have hscale : numerator.toNat * 2 ^ s / v.toNat = numerator.toNat / denominator.toNat := by
    rw [hnormalized, Nat.mul_div_mul_right _ _ hpow]
  have hremainder : numerator.toNat * 2 ^ s % v.toNat =
      numerator.toNat % denominator.toNat * 2 ^ s := by
    rw [hnormalized, Nat.mul_mod_mul_right]
  constructor
  · have hlow := low.2.toNat_lt
    have hhighlt := high.toNat_lt
    have hword : (high.toUInt64 <<< 32).toNat = high.toNat * 2 ^ 32 := by
      rw [toNat_shiftLeft_eq _ _ (by decide), show (32 : UInt64).toNat = 32 from rfl,
        toNat_toUInt64_word]
      omega
    rw [UInt64.toNat_or, hword, toNat_toUInt64_word, mul_two_pow_lor _ hlow, ← hscale, hdigit1,
      hdigit0, ← Nat.div_div_eq_div_mul, Nat.mod_mul_right_div_self]
    have hsplit := Nat.div_add_mod (numerator.toNat * 2 ^ s / v.toNat) (2 ^ 32)
    rw [Nat.mul_comm]
    exact hsplit
  · have hword : low.1.low.toNat = numerator.toNat * 2 ^ s % v.toNat := by
      rw [← hrest0]
      rw [Accum.toNat] at hrest0 ⊢
      omega
    rw [toNat_word, toNat_shifted_rest hshift (hword.trans hremainder)]

/-! ## The rounded quotient -/

/-- The quotient that a division asks for: to nearest with halves up, or up. -/
def solverQuotient (nearest : Bool) (n d : ℕ) : ℕ :=
  if nearest then roundedQuotient n d else n / d + if n % d ≠ 0 then 1 else 0

theorem div_le_solverQuotient (nearest : Bool) (n d : ℕ) : n / d ≤ solverQuotient nearest n d := by
  rw [solverQuotient]
  split
  · exact Nat.le_add_right _ _
  · exact Nat.le_add_right _ _

/-- Rounding fails exactly when the rounded quotient has no word. -/
theorem roundQuotient_spec {nearest : Bool} {quotient rest denominator : UInt64} {n : ℕ}
    (hd : 0 < denominator.toNat) (hquotient : quotient.toNat = n / denominator.toNat)
    (hrest : rest.toNat = n % denominator.toNat) (result : UInt64) :
    roundQuotient nearest quotient rest denominator = some result ↔
      result.toNat = solverQuotient nearest n denominator.toNat := by
  have hlt := Nat.mod_lt n hd
  have hsub : (denominator - rest).toNat = denominator.toNat - n % denominator.toNat := by
    rw [UInt64.toNat_sub_of_le _ _ (UInt64.le_iff_toNat_le.mpr (by omega)), hrest]
  have hup : (if nearest then rest ≥ denominator - rest else rest ≠ 0) ↔
      if nearest then denominator.toNat - n % denominator.toNat ≤ n % denominator.toNat
        else n % denominator.toNat ≠ 0 := by
    cases nearest with
    | true => simp only [if_true, ge_iff_le, UInt64.le_iff_toNat_le, hsub, hrest]
    | false =>
        simp only [Bool.false_eq_true, if_false, ne_eq, ← UInt64.toNat_inj, hrest,
          UInt64.toNat_zero]
  have hvalue : solverQuotient nearest n denominator.toNat = quotient.toNat +
      if (if nearest then rest ≥ denominator - rest else rest ≠ 0) then 1 else 0 := by
    simp only [hup]
    rw [solverQuotient, roundedQuotient, hquotient]
    cases nearest <;> rfl
  have hword := result.toNat_lt
  have hmax : (0xffffffffffffffff : UInt64).toNat = 2 ^ 64 - 1 := rfl
  rw [hvalue, roundQuotient]
  by_cases hround : if nearest then rest ≥ denominator - rest else rest ≠ 0
  · rw [if_pos hround, if_pos hround]
    by_cases hfull : quotient = 0xffffffffffffffff
    · rw [if_pos hfull, hfull, hmax]
      simp only [reduceCtorEq, false_iff]
      omega
    · have hbelow := quotient.toNat_lt
      rw [← UInt64.toNat_inj, hmax] at hfull
      rw [if_neg (by rw [← UInt64.toNat_inj, hmax]; exact hfull), Option.some_inj,
        ← UInt64.toNat_inj, UInt64.toNat_add, UInt64.toNat_one, Nat.mod_eq_of_lt (by omega)]
      exact eq_comm
  · rw [if_neg hround, if_neg hround, Option.some_inj, ← UInt64.toNat_inj, Nat.add_zero]
    exact eq_comm

/-- A number without a bit in common with its predecessor is a power of two. -/
theorem eq_two_pow_of_and_pred {d : ℕ} (hd : 0 < d) (h : d &&& (d - 1) = 0) :
    d = 2 ^ (d.size - 1) := by
  obtain ⟨k, hk⟩ := Nat.exists_eq_succ_of_ne_zero (Nat.size_pos.mpr hd).ne'
  have hlow : 2 ^ k ≤ d := Nat.lt_size.mp (by omega)
  have hhigh := Nat.lt_size_self d
  rw [hk] at hhigh ⊢
  rw [Nat.succ_sub_one]
  by_contra hne
  -- otherwise both numbers have the highest bit
  have hbit : d.testBit k = true := Nat.testBit_of_two_pow_le_and_two_pow_add_one_gt hlow hhigh
  have hpred : (d - 1).testBit k = true :=
    Nat.testBit_of_two_pow_le_and_two_pow_add_one_gt (by omega) (by omega)
  have hand := congrArg (Nat.testBit · k) h
  simp [hbit, hpred] at hand

/-- The division answers with the rounded quotient, and fails when it has no word. -/
theorem divide_spec {numerator : Accum} {denominator : UInt64} (hd : 0 < denominator.toNat)
    (nearest : Bool) (result : UInt64) :
    divide numerator denominator nearest = some result ↔
      result.toNat = solverQuotient nearest numerator.toNat denominator.toNat := by
  have hlow := numerator.low.toNat_lt
  have hvalue : numerator.toNat = numerator.high.toNat * 2 ^ 64 + numerator.low.toNat := rfl
  have hdlt := denominator.toNat_lt
  rw [divide]
  by_cases hlarge : numerator.high ≥ denominator
  · rw [if_pos hlarge]
    rw [ge_iff_le, UInt64.le_iff_toNat_le] at hlarge
    have hquotient : 2 ^ 64 ≤ numerator.toNat / denominator.toNat := by
      rw [Nat.le_div_iff_mul_le hd, Nat.mul_comm, hvalue]
      exact (Nat.mul_le_mul_right _ hlarge).trans (Nat.le_add_right _ _)
    have hword := result.toNat_lt
    have hle := div_le_solverQuotient nearest numerator.toNat denominator.toNat
    simp only [reduceCtorEq, false_iff]
    omega
  rw [if_neg hlarge]
  rw [ge_iff_le, UInt64.le_iff_toNat_le, not_le] at hlarge
  have hfits : numerator.toNat < denominator.toNat * 2 ^ 64 := by omega
  have hquotient : numerator.toNat / denominator.toNat < 2 ^ 64 := by
    rw [Nat.div_lt_iff_lt_mul hd]
    exact hfits.trans_eq (Nat.mul_comm _ _)
  dsimp only
  split
  · rename_i hpower
    have hone : (1 : UInt64) ≤ denominator := UInt64.le_iff_toNat_le.mpr hd
    have hpred : (denominator - 1).toNat = denominator.toNat - 1 := by
      rw [UInt64.toNat_sub_of_le _ _ hone, UInt64.toNat_one]
    rw [← UInt64.toNat_inj, UInt64.toNat_and, hpred, UInt64.toNat_zero] at hpower
    have htwo := eq_two_pow_of_and_pred hd hpower
    rw [← filtersQBitLength_eq] at htwo
    have hsize : filtersQBitLength denominator - 1 < 64 := by
      rw [filtersQBitLength_eq]
      have := Nat.size_le.mpr hdlt
      have := Nat.size_pos.mpr hd
      omega
    generalize filtersQBitLength denominator - 1 = k at htwo hsize ⊢
    by_cases hzero : k = 0
    · rw [if_pos hzero]
      rw [hzero, pow_zero] at htwo
      apply roundQuotient_spec hd
      · show numerator.low.toNat = _
        rw [htwo, Nat.div_one]
        omega
      · rw [htwo, Nat.mod_one]
        rfl
    · rw [if_neg hzero]
      apply roundQuotient_spec hd
      · rw [toNat_shifted_low numerator (by omega) hsize, ← htwo, Nat.mod_eq_of_lt hquotient]
      · rw [UInt64.toNat_and, hpred, htwo, Nat.and_two_pow_sub_one_eq_mod, hvalue]
        have hsplit : (2 : ℕ) ^ 64 = 2 ^ k * 2 ^ (64 - k) := by
          rw [← pow_add, Nat.add_sub_cancel' hsize.le]
        rw [hsplit, Nat.mul_left_comm, Nat.mul_add_mod]
  · split
    · rename_i hhigh
      have hword : numerator.toNat = numerator.low.toNat := by
        rw [hvalue, hhigh, UInt64.toNat_zero, Nat.zero_mul, Nat.zero_add]
      apply roundQuotient_spec hd
      · rw [UInt64.toNat_div, hword]
      · rw [UInt64.toNat_mod, hword]
    · obtain ⟨hdiv, hmod⟩ := divideWide_spec hd hfits
      apply roundQuotient_spec hd hdiv
      have hlt := Nat.mod_lt numerator.toNat hd
      rw [← hmod] at hlt ⊢
      show (divideWide numerator denominator).2.low.toNat = _
      rw [Accum.toNat] at hlt ⊢
      omega

/-! ## Division by a reciprocal -/

/-- A division that finds quotient and remainder answers as `divide` does. -/
theorem roundQuotient_eq_divide {numerator : Accum} {denominator quotient rest : UInt64}
    {nearest : Bool} (hd : 0 < denominator.toNat)
    (hquotient : quotient.toNat = numerator.toNat / denominator.toNat)
    (hrest : rest.toNat = numerator.toNat % denominator.toNat) :
    roundQuotient nearest quotient rest denominator = divide numerator denominator nearest := by
  apply Option.ext
  intro result
  rw [roundQuotient_spec hd hquotient hrest, divide_spec hd]

/-- The reciprocal of a normalized divisor, without its leading one. -/
theorem normalized_reciprocal_lt {B v : ℕ} (hv : B < 2 * v) (hvB : v < B) : (B - v) * B / v < B := by
  rw [Nat.div_lt_iff_lt_mul (by omega), Nat.mul_comm B v]
  exact Nat.mul_lt_mul_of_pos_right (by omega) (by omega)

theorem toNat_shiftLeft_word {word : UInt32} {shift : ℕ} (hshift : shift < 32)
    (hfits : word.toNat * 2 ^ shift < 2 ^ 32) :
    (word <<< UInt32.ofNat shift).toNat = word.toNat * 2 ^ shift := by
  have hamount : (UInt32.ofNat shift).toNat = shift := by
    rw [UInt32.toNat_ofNat', Nat.mod_eq_of_lt (by omega)]
  rw [UInt32.toNat_shiftLeft, hamount, Nat.mod_eq_of_lt hshift, Nat.shiftLeft_eq,
    Nat.mod_eq_of_lt hfits]

/-- The reciprocal of a q15 pivot. -/
theorem preparedReciprocalQ15_spec {raw : Int64} (hpos : 0 < raw.toUInt64.toNat)
    (hraw : raw.toUInt64.toNat < 2 ^ 32) (hne : preparedReciprocalQ15 raw ≠ 0) :
    let v := raw.toUInt64.toNat * 2 ^ (32 - raw.toUInt64.toNat.size)
    2 ^ 31 < v ∧ (preparedReciprocalQ15 raw).toNat = (2 ^ 32 - v) * 2 ^ 32 / v := by
  obtain ⟨hshift, hhigh, hfits⟩ := normalized_bounds hpos hraw
  have hpivot : raw.toUInt64.toUInt32.toNat = raw.toUInt64.toNat := by
    rw [toNat_toUInt32_word, Nat.mod_eq_of_lt hraw]
  have hsize : filtersQBitLength raw.toUInt64.toUInt32.toUInt64 = raw.toUInt64.toNat.size := by
    rw [filtersQBitLength_eq, toNat_toUInt64_word, hpivot]
  have hnormalized : (raw.toUInt64.toUInt32 <<<
      UInt32.ofNat (32 - raw.toUInt64.toNat.size)).toNat =
        raw.toUInt64.toNat * 2 ^ (32 - raw.toUInt64.toNat.size) := by
    rw [toNat_shiftLeft_word hshift (by rw [hpivot]; exact hfits), hpivot]
  rw [preparedReciprocalQ15] at hne ⊢
  dsimp only at hne ⊢
  rw [hsize] at hne ⊢
  generalize raw.toUInt64.toUInt32 <<< UInt32.ofNat (32 - raw.toUInt64.toNat.size) = w at *
  by_cases hhalf : w = 0x80000000
  · rw [if_pos hhalf] at hne
    exact absurd rfl hne
  rw [if_neg hhalf]
  rw [← UInt32.toNat_inj, show (0x80000000 : UInt32).toNat = 2 ^ 31 from rfl] at hhalf
  generalize raw.toUInt64.toNat * 2 ^ (32 - raw.toUInt64.toNat.size) = v at *
  refine ⟨by omega, ?_⟩
  have hle : w.toUInt64 ≤ 0x100000000 := by
    rw [UInt64.le_iff_toNat_le, toNat_toUInt64_word, show (0x100000000 : UInt64).toNat = 2 ^ 32 from
      rfl]
    omega
  rw [UInt64.toNat_div, toNat_shiftLeft_eq _ _ (by decide), UInt64.toNat_sub_of_le _ _ hle,
    toNat_toUInt64_word, hnormalized, show (0x100000000 : UInt64).toNat = 2 ^ 32 from rfl,
    show (32 : UInt64).toNat = 32 from rfl, Nat.mod_eq_of_lt]
  omega

/-- The estimate of the q15 build is the product with the reciprocal. -/
theorem reciprocalEstimateQ15 {n r : UInt64} {v : ℕ} (hhalf : 2 ^ 31 < v) (hv : v < 2 ^ 32)
    (hn : n.toNat < v * 2 ^ 32) (hr : r.toNat = (2 ^ 32 - v) * 2 ^ 32 / v) :
    let a := (n >>> 32).toUInt32.toUInt64
    let b := n.toUInt32.toUInt64
    (a + ((a * r + b + ((b * r) >>> 32)) >>> 32)).toUInt32.toNat =
        n.toNat * (2 ^ 32 + r.toNat) / (2 ^ 32 * 2 ^ 32) ∧
      n.toNat * (2 ^ 32 + r.toNat) / (2 ^ 32 * 2 ^ 32) ≤ n.toNat / v ∧
      n.toNat / v ≤ n.toNat * (2 ^ 32 + r.toNat) / (2 ^ 32 * 2 ^ 32) + 1 := by
  dsimp only
  have hpos : 0 < v := by omega
  have hnlt := n.toNat_lt
  have ha : (n >>> 32).toUInt32.toUInt64.toNat = n.toNat / 2 ^ 32 := by
    rw [toNat_toUInt64_word, toNat_toUInt32_word, toNat_shiftRight_32]
    omega
  have hb : n.toUInt32.toUInt64.toNat = n.toNat % 2 ^ 32 := by
    rw [toNat_toUInt64_word, toNat_toUInt32_word]
  have hrlt : r.toNat < 2 ^ 32 := by
    rw [hr]
    exact normalized_reciprocal_lt (by omega) hv
  have hrv : r.toNat * v ≤ (2 ^ 32 - v) * 2 ^ 32 := by
    rw [hr]
    exact Nat.div_mul_le_self _ _
  have haltv : n.toNat / 2 ^ 32 < v := by
    rw [Nat.div_lt_iff_lt_mul (by norm_num)]
    exact hn
  have hblt : n.toNat % 2 ^ 32 < 2 ^ 32 := Nat.mod_lt _ (by norm_num)
  have hsumlt := reciprocal_sum_lt (show 2 ≤ v by omega) hv.le haltv hblt hrv
  have hestimate := reciprocal_estimate hpos hv.le hn (r := r.toNat) (by
    rw [hr]
    exact reciprocal_rest hpos hv.le)
  have hproduct := reciprocal_product (show 0 < 2 ^ 32 by norm_num) (n.toNat / 2 ^ 32)
    (n.toNat % 2 ^ 32) r.toNat
  rw [Nat.mul_comm (n.toNat / 2 ^ 32) (2 ^ 32), Nat.div_add_mod] at hproduct
  have hquotient : n.toNat / v < 2 ^ 32 := by
    rw [Nat.div_lt_iff_lt_mul hpos, Nat.mul_comm]
    exact hn
  have hcarry : (n.toUInt32.toUInt64 * r).toNat = n.toNat % 2 ^ 32 * r.toNat := by
    rw [UInt64.toNat_mul, hb, Nat.mod_eq_of_lt]
    calc n.toNat % 2 ^ 32 * r.toNat < 2 ^ 32 * 2 ^ 32 := Nat.mul_lt_mul'' hblt hrlt
      _ = 2 ^ 64 := by norm_num
  have hfirst : ((n >>> 32).toUInt32.toUInt64 * r).toNat = n.toNat / 2 ^ 32 * r.toNat := by
    rw [UInt64.toNat_mul, ha, Nat.mod_eq_of_lt (by omega)]
  have hsum : ((n >>> 32).toUInt32.toUInt64 * r + n.toUInt32.toUInt64 +
      ((n.toUInt32.toUInt64 * r) >>> 32)).toNat =
        n.toNat / 2 ^ 32 * r.toNat + n.toNat % 2 ^ 32 + n.toNat % 2 ^ 32 * r.toNat / 2 ^ 32 := by
    rw [UInt64.toNat_add, UInt64.toNat_add, hfirst, hb, toNat_shiftRight_32, hcarry]
    omega
  refine ⟨?_, hestimate⟩
  rw [toNat_toUInt32_word, UInt64.toNat_add, ha, toNat_shiftRight_32, hsum, hproduct,
    Nat.mod_eq_of_lt (by omega), Nat.mod_eq_of_lt (by omega)]

/-- The q15 division by a reciprocal. -/
theorem divideSolveQ15_spec {numerator : Accum} {raw : Int64} (nearest : Bool)
    (hpos : 0 < raw.toUInt64.toNat) (hraw : raw.toUInt64.toNat < 2 ^ 32)
    (hne : preparedReciprocalQ15 raw ≠ 0) :
    divideSolveQ15 numerator raw.toUInt64 nearest (preparedReciprocalQ15 raw) =
      divide numerator raw.toUInt64 nearest := by
  obtain ⟨hv, hreciprocal⟩ := preparedReciprocalQ15_spec hpos hraw hne
  obtain ⟨hshift, -, hfits⟩ := normalized_bounds hpos hraw
  rw [divideSolveQ15]
  split
  · rfl
  rename_i hsmall
  rw [not_or, not_not, ge_iff_le, UInt64.le_iff_toNat_le, not_le,
    toNat_shiftLeft_eq _ _ (by decide), show (32 : UInt64).toNat = 32 from rfl,
    Nat.mod_eq_of_lt (by omega)] at hsmall
  obtain ⟨hhigh, hlow⟩ := hsmall
  have hn : numerator.toNat = numerator.low.toNat := by
    rw [Accum.toNat, hhigh, UInt64.toNat_zero, Nat.zero_mul, Nat.zero_add]
  have hbound : numerator.low.toNat / raw.toUInt64.toNat < 2 ^ 32 := by
    rw [Nat.div_lt_iff_lt_mul hpos, Nat.mul_comm]
    exact hlow
  have hdivisor : raw.toUInt64.toUInt32.toNat = raw.toUInt64.toNat := by
    rw [toNat_toUInt32_word, Nat.mod_eq_of_lt hraw]
  have hsize : filtersQBitLength raw.toUInt64.toUInt32.toUInt64 = raw.toUInt64.toNat.size := by
    rw [filtersQBitLength_eq, toNat_toUInt64_word, hdivisor]
  have hnormalized := @toNat_shiftLeft_word raw.toUInt64.toUInt32 _ hshift
    (by rw [hdivisor]; exact hfits)
  rw [hdivisor] at hnormalized
  have hamount := @toNat_ofNat_shift (32 - raw.toUInt64.toNat.size) (by omega)
  have hscaled : numerator.low.toNat * 2 ^ (32 - raw.toUInt64.toNat.size) <
      raw.toUInt64.toNat * 2 ^ (32 - raw.toUInt64.toNat.size) * 2 ^ 32 := by
    rw [Nat.mul_right_comm]
    exact Nat.mul_lt_mul_of_pos_right hlow (Nat.two_pow_pos _)
  have hword : (numerator.low <<<
      UInt64.ofNat (32 - raw.toUInt64.toNat.size)).toNat =
        numerator.low.toNat * 2 ^ (32 - raw.toUInt64.toNat.size) := by
    rw [toNat_shiftLeft_eq _ _ (by omega), hamount, Nat.mod_eq_of_lt (by omega)]
  dsimp only
  rw [hsize]
  have hrest : numerator.low.toNat * 2 ^ (32 - raw.toUInt64.toNat.size) %
      (raw.toUInt64.toNat * 2 ^ (32 - raw.toUInt64.toNat.size)) =
        numerator.low.toNat % raw.toUInt64.toNat * 2 ^ (32 - raw.toUInt64.toNat.size) :=
    Nat.mul_mod_mul_right _ _ _
  have hdiv : numerator.low.toNat * 2 ^ (32 - raw.toUInt64.toNat.size) /
      (raw.toUInt64.toNat * 2 ^ (32 - raw.toUInt64.toNat.size)) =
        numerator.low.toNat / raw.toUInt64.toNat :=
    Nat.mul_div_mul_right _ _ (Nat.two_pow_pos _)
  rw [← hword] at hrest hdiv hscaled
  have hreciprocallt : (preparedReciprocalQ15 raw).toNat < 2 ^ 32 := by
    rw [hreciprocal]
    exact normalized_reciprocal_lt (by omega) hfits
  have hr : (preparedReciprocalQ15 raw).toUInt32.toUInt64.toNat =
      (preparedReciprocalQ15 raw).toNat := by
    rw [toNat_toUInt64_word, toNat_toUInt32_word, Nat.mod_eq_of_lt hreciprocallt]
  rw [← hr] at hreciprocal
  obtain ⟨hestimate, hle, hnext⟩ := reciprocalEstimateQ15 hv hfits hscaled hreciprocal
  rw [← hestimate] at hle hnext
  obtain ⟨hproductle, hcases⟩ := quotient_or_next (by omega) hle hnext
  rw [hdiv, hrest] at hcases
  generalize numerator.low <<< UInt64.ofNat (32 - raw.toUInt64.toNat.size) = n at *
  generalize raw.toUInt64.toUInt32 <<< UInt32.ofNat (32 - raw.toUInt64.toNat.size) = w at *
  generalize ((n >>> 32).toUInt32.toUInt64 + _).toUInt32 = q at *
  generalize raw.toUInt64.toNat * 2 ^ (32 - raw.toUInt64.toNat.size) = v at *
  have hproduct : (q.toUInt64 * w.toUInt64).toNat = q.toNat * v := by
    rw [UInt64.toNat_mul, toNat_toUInt64_word, toNat_toUInt64_word, hnormalized,
      Nat.mod_eq_of_lt (hproductle.trans_lt n.toNat_lt)]
  have hremainder : (n - q.toUInt64 * w.toUInt64).toNat = n.toNat - q.toNat * v := by
    rw [UInt64.toNat_sub_of_le _ _ (UInt64.le_iff_toNat_le.mpr (by rw [hproduct]; exact hproductle)),
      hproduct]
  have hnormal : w.toUInt64.toNat = v := by rw [toNat_toUInt64_word, hnormalized]
  have hlt := Nat.mod_lt n.toNat (show 0 < v by omega)
  rw [hrest] at hlt
  simp only [ge_iff_le, UInt64.le_iff_toNat_le, hnormal, hremainder]
  obtain ⟨hleft, hquotient⟩ | ⟨hleft, hquotient⟩ := hcases
  · rw [if_neg (by omega)]
    apply roundQuotient_eq_divide hpos
    · rw [toNat_toUInt64_word, ← hquotient, hn]
    · rw [hn]
      exact toNat_shifted_rest (by omega) (hremainder.trans hleft)
  · rw [if_pos (by omega)]
    apply roundQuotient_eq_divide hpos
    · rw [toNat_toUInt64_word, UInt32.toNat_add, UInt32.toNat_one, hn, hquotient,
        Nat.mod_eq_of_lt (by omega)]
    · rw [hn]
      apply toNat_shifted_rest (by omega)
      rw [UInt64.toNat_sub_of_le _ _ (UInt64.le_iff_toNat_le.mpr (by omega)), hremainder, hnormal,
        hleft, Nat.add_sub_cancel]

/-- The reciprocal of a q31 pivot. -/
theorem preparedReciprocalQ31_spec {raw : Int64} (hpos : 0 < raw.toUInt64.toNat)
    (hne : preparedReciprocalQ31 raw ≠ 0) :
    let v := raw.toUInt64.toNat * 2 ^ (64 - raw.toUInt64.toNat.size)
    2 ^ 63 < v ∧ (preparedReciprocalQ31 raw).toNat = (2 ^ 64 - v) * 2 ^ 64 / v := by
  obtain ⟨hshift, hnormalized, hhigh⟩ := normalizeDivisor_spec hpos
  rw [normalizeDivisor, filtersQBitLength_eq] at hshift hnormalized hhigh
  rw [preparedReciprocalQ31, filtersQBitLength_eq] at hne ⊢
  dsimp only at hshift hnormalized hhigh hne ⊢
  rw [← hnormalized]
  generalize raw.toUInt64 <<< UInt64.ofNat (64 - raw.toUInt64.toNat.size) = w at *
  by_cases hhalf : w = 0x8000000000000000
  · rw [if_pos hhalf] at hne
    exact absurd rfl hne
  rw [if_neg hhalf]
  rw [← UInt64.toNat_inj, show (0x8000000000000000 : UInt64).toNat = 2 ^ 63 from rfl] at hhalf
  have hw := w.toNat_lt
  have hle : w ≤ 0xffffffffffffffff := by
    rw [UInt64.le_iff_toNat_le, show (0xffffffffffffffff : UInt64).toNat = 2 ^ 64 - 1 from rfl]
    omega
  have hnumerator : (⟨0, 0xffffffffffffffff - w + 1⟩ : Accum).toNat =
      (2 ^ 64 - w.toNat) * 2 ^ 64 := by
    rw [Accum.toNat, UInt64.toNat_zero, Nat.add_zero, UInt64.toNat_add,
      UInt64.toNat_sub_of_le _ _ hle, UInt64.toNat_one,
      show (0xffffffffffffffff : UInt64).toNat = 2 ^ 64 - 1 from rfl]
    omega
  refine ⟨by omega, ?_⟩
  rw [(divideWide_spec (by omega) (by rw [hnumerator]; omega)).1, hnumerator]

/-- The estimate of the q31 build is the product with the reciprocal. -/
theorem reciprocalEstimateQ31 {n : Accum} {r : UInt64} {v : ℕ} (hhalf : 2 ^ 63 < v)
    (hv : v < 2 ^ 64) (hn : n.toNat < v * 2 ^ 64) (hr : r.toNat = (2 ^ 64 - v) * 2 ^ 64 / v) :
    (n.high + (pfQUadd (pfQUadd (pfQUmul n.high r) ⟨n.low, 0⟩)
        ⟨(pfQUmul n.low r).high, 0⟩).high).toNat =
        n.toNat * (2 ^ 64 + r.toNat) / (2 ^ 64 * 2 ^ 64) ∧
      n.toNat * (2 ^ 64 + r.toNat) / (2 ^ 64 * 2 ^ 64) ≤ n.toNat / v ∧
      n.toNat / v ≤ n.toNat * (2 ^ 64 + r.toNat) / (2 ^ 64 * 2 ^ 64) + 1 := by
  have hpos : 0 < v := by omega
  have hlow := n.low.toNat_lt
  have hvalue : n.toNat = n.high.toNat * 2 ^ 64 + n.low.toNat := rfl
  have hrv : r.toNat * v ≤ (2 ^ 64 - v) * 2 ^ 64 := by
    rw [hr]
    exact Nat.div_mul_le_self _ _
  have hhighlt : n.high.toNat < v := by omega
  have hsumlt := reciprocal_sum_lt (show 2 ≤ v by omega) hv.le hhighlt hlow hrv
  have hestimate := reciprocal_estimate hpos hv.le hn (r := r.toNat) (by
    rw [hr]
    exact reciprocal_rest hpos hv.le)
  have hproduct := reciprocal_product (show 0 < 2 ^ 64 by norm_num) n.high.toNat n.low.toNat r.toNat
  rw [← hvalue] at hproduct
  have hquotient : n.toNat / v < 2 ^ 64 := by
    rw [Nat.div_lt_iff_lt_mul hpos, Nat.mul_comm]
    exact hn
  have hhigh := toNat_pfQUmul n.high r
  have hcarry : (pfQUmul n.low r).high.toNat = n.low.toNat * r.toNat / 2 ^ 64 := by
    have hmul := toNat_pfQUmul n.low r
    have hword := (pfQUmul n.low r).low.toNat_lt
    rw [Accum.toNat] at hmul
    omega
  have hfirst : (pfQUadd (pfQUmul n.high r) ⟨n.low, 0⟩).toNat =
      n.high.toNat * r.toNat + n.low.toNat := by
    rw [toNat_pfQUadd, toNat_word, hhigh]
    rw [toNat_word, hhigh]
    omega
  have hsum : (pfQUadd (pfQUadd (pfQUmul n.high r) ⟨n.low, 0⟩)
      ⟨(pfQUmul n.low r).high, 0⟩).toNat =
        n.high.toNat * r.toNat + n.low.toNat + n.low.toNat * r.toNat / 2 ^ 64 := by
    rw [toNat_pfQUadd, toNat_word, hfirst, hcarry]
    rw [toNat_word, hfirst, hcarry]
    omega
  refine ⟨?_, hestimate⟩
  rw [← hsum] at hproduct
  generalize pfQUadd (pfQUadd (pfQUmul n.high r) ⟨n.low, 0⟩) _ = t at *
  have hthigh : t.high.toNat = t.toNat / 2 ^ 64 := by
    have hword := t.low.toNat_lt
    rw [Accum.toNat]
    omega
  rw [UInt64.toNat_add, hthigh, hproduct, Nat.mod_eq_of_lt (by omega)]

/-- The q31 division by a reciprocal. -/
theorem divideSolveQ31_spec {numerator : Accum} {raw : Int64} (nearest : Bool)
    (hpos : 0 < raw.toUInt64.toNat) (hne : preparedReciprocalQ31 raw ≠ 0) :
    divideSolveQ31 numerator raw.toUInt64 nearest (preparedReciprocalQ31 raw) =
      divide numerator raw.toUInt64 nearest := by
  obtain ⟨hv, hreciprocal⟩ := preparedReciprocalQ31_spec hpos hne
  obtain ⟨hshift, hnormalized, -⟩ := normalizeDivisor_spec hpos
  rw [normalizeDivisor, filtersQBitLength_eq] at hshift hnormalized
  dsimp only at hshift hnormalized
  rw [divideSolveQ31]
  split
  · rfl
  rename_i hsmall
  rw [ge_iff_le, UInt64.le_iff_toNat_le, not_le] at hsmall
  have hlow : numerator.toNat < raw.toUInt64.toNat * 2 ^ 64 := by
    have hword := numerator.low.toNat_lt
    rw [Accum.toNat]
    omega
  have hbound : numerator.toNat / raw.toUInt64.toNat < 2 ^ 64 := by
    rw [Nat.div_lt_iff_lt_mul hpos, Nat.mul_comm]
    exact hlow
  dsimp only
  rw [filtersQBitLength_eq]
  have hscaled : numerator.toNat * 2 ^ (64 - raw.toUInt64.toNat.size) <
      raw.toUInt64.toNat * 2 ^ (64 - raw.toUInt64.toNat.size) * 2 ^ 64 := by
    rw [Nat.mul_right_comm]
    exact Nat.mul_lt_mul_of_pos_right hlow (Nat.two_pow_pos _)
  have hrest : numerator.toNat * 2 ^ (64 - raw.toUInt64.toNat.size) %
      (raw.toUInt64.toNat * 2 ^ (64 - raw.toUInt64.toNat.size)) =
        numerator.toNat % raw.toUInt64.toNat * 2 ^ (64 - raw.toUInt64.toNat.size) :=
    Nat.mul_mod_mul_right _ _ _
  have hdiv : numerator.toNat * 2 ^ (64 - raw.toUInt64.toNat.size) /
      (raw.toUInt64.toNat * 2 ^ (64 - raw.toUInt64.toNat.size)) =
        numerator.toNat / raw.toUInt64.toNat :=
    Nat.mul_div_mul_right _ _ (Nat.two_pow_pos _)
  rw [← hnormalized] at hv hreciprocal hscaled hrest hdiv
  generalize raw.toUInt64 <<< UInt64.ofNat (64 - raw.toUInt64.toNat.size) = w at *
  have hfits := w.toNat_lt
  have hword := @toNat_expShl numerator (64 - raw.toUInt64.toNat.size) (by omega)
    (by omega)
  rw [← hword] at hscaled hrest hdiv
  obtain ⟨hestimate, hle, hnext⟩ := reciprocalEstimateQ31 hv hfits hscaled hreciprocal
  rw [← hestimate] at hle hnext
  obtain ⟨hproductle, hcases⟩ := quotient_or_next (by omega) hle hnext
  rw [hdiv, hrest] at hcases
  generalize expShl numerator (64 - raw.toUInt64.toNat.size) = n at *
  generalize n.high + _ = q at *
  have hremainder : (expUsub n (pfQUmul q w)).toNat = n.toNat - q.toNat * w.toNat := by
    rw [expUsub, toNat_momentSub128, toNat_pfQUmul]
    rw [toNat_pfQUmul]
    exact hproductle
  have hlt := Nat.mod_lt n.toNat (show 0 < w.toNat by omega)
  rw [hrest] at hlt
  have hcompare : pfQUcmp (expUsub n (pfQUmul q w)) ⟨w, 0⟩ ≥ 0 ↔
      w.toNat ≤ n.toNat - q.toNat * w.toNat := by
    have hneg := pfQUcmp_neg_iff (expUsub n (pfQUmul q w)) ⟨w, 0⟩
    rw [hremainder, toNat_word] at hneg
    omega
  generalize expUsub n (pfQUmul q w) = left at *
  obtain ⟨hleft, hquotient⟩ | ⟨hleft, hquotient⟩ := hcases
  · rw [if_neg (by omega)]
    apply roundQuotient_eq_divide hpos hquotient.symm
    apply toNat_shifted_rest hshift
    show left.low.toNat = _
    rw [Accum.toNat] at hremainder
    omega
  · rw [if_pos (by omega)]
    have hnextleft : (expUsub left ⟨w, 0⟩).toNat = left.toNat - w.toNat := by
      rw [expUsub, toNat_momentSub128, toNat_word]
      rw [toNat_word]
      omega
    apply roundQuotient_eq_divide hpos
    · rw [UInt64.toNat_add, UInt64.toNat_one, hquotient, Nat.mod_eq_of_lt (by omega)]
    · apply toNat_shifted_rest hshift
      show (expUsub left ⟨w, 0⟩).low.toNat = _
      rw [Accum.toNat] at hnextleft
      omega

end Xhive.Particles
