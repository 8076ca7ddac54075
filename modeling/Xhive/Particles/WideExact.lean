import Xhive.Particles.Exponential
import Xhive.Support.Rounding

/-!
# Exact two-word operations

What the helpers of the moments and of the integer exponential compute on
`pf_q_u128_t`: shifts, differences, the long divisions and the rounding shift.
Each lemma carries the bound that its callers prove.
-/

namespace Xhive.Particles

open Xhive.Support Xhive.Linears

/-! ## Shifts and differences -/

theorem toNat_ofNat_shift {shift : ℕ} (h : shift < 64) : (UInt64.ofNat shift).toNat = shift := by
  rw [UInt64.toNat_ofNat', Nat.mod_eq_of_lt (by omega)]

theorem ofNat_sixtyFour_sub {shift : ℕ} (hpos : 0 < shift) (h : shift < 64) :
    UInt64.ofNat (64 - shift) = 64 - UInt64.ofNat shift := by
  have hshift := toNat_ofNat_shift h
  rw [← UInt64.toNat_inj, toNat_sixtyFour_sub _ (by omega), hshift, toNat_ofNat_shift (by omega)]

theorem toNat_momentLeft128 (value : Accum) {shift : ℕ} (h : shift < 64) :
    (momentLeft128 value shift).toNat = value.toNat * 2 ^ shift % 2 ^ 128 := by
  rw [momentLeft128]
  split
  · rename_i hzero
    rw [hzero, pow_zero, Nat.mul_one, Nat.mod_eq_of_lt value.toNat_lt]
  · rename_i hne
    have hshift := toNat_ofNat_shift h
    have hleft := @toNat_lnShiftAccum value (UInt64.ofNat shift) (by omega) (by omega)
    rw [lnShiftAccum, ← ofNat_sixtyFour_sub (by omega) h, hshift] at hleft
    exact hleft

/-- A shift is exact when no bit is lost. -/
theorem toNat_expShl {a : Accum} {shift : ℕ} (h : a.toNat * 2 ^ shift < 2 ^ 128)
    (hshift : shift < 128) : (expShl a shift).toNat = a.toNat * 2 ^ shift := by
  rw [expShl]
  split
  · rename_i hzero
    rw [hzero, pow_zero, Nat.mul_one]
  rename_i hne
  split
  · rename_i hlt
    have hleft := toNat_momentLeft128 a hlt
    rw [momentLeft128, if_neg hne, Nat.mod_eq_of_lt h] at hleft
    exact hleft
  · rename_i hge
    have hamount := @toNat_ofNat_shift (shift - 64) (by omega)
    have hsplit : 2 ^ shift = 2 ^ 64 * 2 ^ (shift - 64) := by
      rw [← pow_add, Nat.add_sub_cancel' (by omega)]
    have hsmall : a.toNat * 2 ^ (shift - 64) < 2 ^ 64 := by
      rw [hsplit] at h
      refine Nat.lt_of_mul_lt_mul_left (a := 2 ^ 64) ?_
      calc 2 ^ 64 * (a.toNat * 2 ^ (shift - 64)) = a.toNat * (2 ^ 64 * 2 ^ (shift - 64)) := by ring
        _ < 2 ^ 64 * 2 ^ 64 := h
    -- the high word is empty
    have hword : a.toNat < 2 ^ 64 :=
      lt_of_le_of_lt (Nat.le_mul_of_pos_right _ (Nat.two_pow_pos _)) hsmall
    have hhigh : a.high = 0 := by
      rw [← UInt64.toNat_inj, UInt64.toNat_zero]
      rw [Accum.toNat] at hword
      omega
    have hlow : a.toNat = a.low.toNat := by
      rw [Accum.toNat, hhigh, UInt64.toNat_zero, Nat.zero_mul, Nat.zero_add]
    have hrest : (if shift > 64 then a.high >>> UInt64.ofNat (128 - shift) else 0) = 0 := by
      rw [hhigh, UInt64.zero_shiftRight, ite_self]
    rw [hrest, UInt64.or_zero, Accum.toNat, toNat_shiftLeft_eq _ _ (by omega), hamount, ← hlow,
      Nat.mod_eq_of_lt hsmall, UInt64.toNat_zero, Nat.add_zero, hsplit]
    ring

theorem toNat_momentSub128 {a b : Accum} (h : b.toNat ≤ a.toNat) :
    (momentSub128 a b).toNat = a.toNat - b.toNat := by
  have hal := a.low.toNat_lt
  have hbl := b.low.toNat_lt
  have hah := a.high.toNat_lt
  have hbh := b.high.toNat_lt
  rw [Accum.toNat, Accum.toNat] at h
  rw [momentSub128, Accum.toNat, Accum.toNat, Accum.toNat]
  simp only [UInt64.lt_iff_toNat_lt]
  split
  · rw [UInt64.toNat_sub, UInt64.toNat_sub, UInt64.toNat_sub, UInt64.toNat_one]
    omega
  · rw [UInt64.toNat_sub, UInt64.toNat_sub, UInt64.toNat_sub, UInt64.toNat_zero]
    omega

theorem toNat_momentHalf128 (value : Accum) :
    (momentHalf128 value).toNat = value.toNat / 2 := by
  have hlow := value.low.toNat_lt
  have hone : (1 : UInt64).toNat = 1 := rfl
  have hhigh : (value.high >>> 1).toNat = value.high.toNat / 2 := by
    rw [toNat_shiftRight_eq _ _ (by decide), hone, pow_one]
  have hcross : (value.high <<< 63).toNat = value.high.toNat % 2 * 2 ^ 63 := by
    rw [toNat_shiftLeft_eq _ _ (by decide), show (63 : UInt64).toNat = 63 from rfl]
    omega
  have hhalf : (value.low >>> 1).toNat = value.low.toNat / 2 := by
    rw [toNat_shiftRight_eq _ _ (by decide), hone, pow_one]
  have hor : ((value.low >>> 1) ||| (value.high <<< 63)).toNat =
      value.high.toNat % 2 * 2 ^ 63 + value.low.toNat / 2 := by
    rw [UInt64.toNat_or, hhalf, hcross, lor_mul_two_pow _ (by omega)]
  rw [momentHalf128, Accum.toNat, hor, hhigh, Accum.toNat]
  omega

theorem toNat_momentMagnitude (value : Accum) :
    (momentMagnitude value).toNat = value.toInt.natAbs :=
  toNat_lnAbsolute value

theorem toNat_pfQIadd_false (sum : Accum) (magnitude : UInt64) :
    (pfQIadd sum magnitude false).toNat = (sum.toNat + magnitude.toNat) % 2 ^ 128 := by
  have hlow := sum.low.toNat_lt
  have hhigh := sum.high.toNat_lt
  have hword := magnitude.toNat_lt
  simp only [pfQIadd, Bool.false_eq_true, if_false, Accum.toNat, toNat_add_lt_iff]
  split
  · rw [UInt64.toNat_add, UInt64.toNat_add, UInt64.toNat_one]
    omega
  · rw [UInt64.toNat_add, UInt64.toNat_add, UInt64.toNat_zero]
    omega

theorem toNat_pfQIadd_true (sum : Accum) (magnitude : UInt64) :
    (pfQIadd sum magnitude true).toNat = (sum.toNat + (2 ^ 128 - magnitude.toNat)) % 2 ^ 128 := by
  have hlow := sum.low.toNat_lt
  have hhigh := sum.high.toNat_lt
  have hword := magnitude.toNat_lt
  simp only [pfQIadd, if_true, Accum.toNat, UInt64.lt_iff_toNat_lt]
  split
  · rw [UInt64.toNat_sub, UInt64.toNat_sub, UInt64.toNat_one]
    omega
  · rw [UInt64.toNat_sub, UInt64.toNat_sub, UInt64.toNat_zero]
    omega

/-- Adding a signed magnitude is exact when the sum fits. -/
theorem toInt_pfQIadd {sum : Accum} {magnitude : UInt64} {negative : Bool}
    (hfits : Accum.Fits (sum.toInt + signed negative (magnitude.toNat : ℤ))) :
    (pfQIadd sum magnitude negative).toInt =
      sum.toInt + signed negative (magnitude.toNat : ℤ) := by
  have hsum := sum.toInt_emod
  have hword := magnitude.toNat_lt
  apply Accum.toInt_eq_of_emod hfits
  cases negative with
  | true =>
      rw [toNat_pfQIadd_true, signed_true]
      generalize sum.toInt = s at *
      omega
  | false =>
      rw [toNat_pfQIadd_false, signed_false]
      generalize sum.toInt = s at *
      omega

/-! ## Long divisions -/

theorem accumUnsigned_exact : accumUnsigned.Exact where
  less_iff a b := by
    rw [accumUnsigned, decide_eq_true_iff]
    exact pfQUcmp_neg_iff a b
  toNat_sub a b h := toNat_momentSub128 h
  toNat_half a := toNat_momentHalf128 a

theorem wordUnsigned_exact : wordUnsigned.Exact where
  less_iff a b := by
    rw [wordUnsigned, decide_eq_true_iff]
    exact UInt64.lt_iff_toNat_lt
  toNat_sub a b h := UInt64.toNat_sub_of_le a b (UInt64.le_iff_toNat_le.mpr h)
  toNat_half a := by
    show (a >>> 1).toNat = a.toNat / 2
    rw [toNat_shiftRight_eq _ _ (by decide), show (1 : UInt64).toNat = 1 from rfl, pow_one]

/-- A quotient and a remainder of two-word scalars. -/
def Divides (n d : ℕ) (division : UInt64 × Accum) : Prop :=
  division.1.toNat = n / d ∧ division.2.toNat = n % d

/-- Aligning a divisor moves it by less than the length of the numerator. -/
theorem aligned_shift_lt {n d room : ℕ} (hd : 0 < d) (hn : n < 2 ^ room) (hroom : 0 < room) :
    n.size - d.size < room := by
  have hsize : n.size ≤ room := Nat.size_le.mpr hn
  have hpos : 0 < d.size := Nat.size_pos.mpr hd
  omega

/-- A quotient of few bits bounds the shift by their number. -/
theorem aligned_shift_le {n d bits : ℕ} (hfits : n < d * 2 ^ bits) : n.size - d.size ≤ bits := by
  have hsize : n.size ≤ d.size + bits := by
    rw [Nat.size_le, pow_add]
    exact hfits.trans (Nat.mul_lt_mul_of_pos_right (Nat.lt_size_self _) (Nat.two_pow_pos _))
  omega

section Aligned

variable {numerator denominator : Accum}

/-- The aligned divisor loses no bit. -/
theorem toNat_expShl_aligned (hd : 0 < denominator.toNat)
    (hle : denominator.toNat ≤ numerator.toNat) :
    (expShl denominator (pfQUbits numerator - pfQUbits denominator)).toNat =
      denominator.toNat * 2 ^ (pfQUbits numerator - pfQUbits denominator) := by
  obtain ⟨hbelow, -⟩ := aligned_bounds hd hle
  have hroom := pfQUbits_le numerator
  have hshift := aligned_shift_lt hd numerator.toNat_lt (by norm_num)
  rw [← pfQUbits_eq, ← pfQUbits_eq] at hbelow hshift
  exact toNat_expShl (hbelow.trans_le (Nat.pow_le_pow_right (by norm_num) hroom)) hshift

theorem expDiv_spec (hd : 0 < denominator.toNat)
    (hfits : numerator.toNat / denominator.toNat < 2 ^ 64) :
    Divides numerator.toNat denominator.toNat (expDiv numerator denominator) := by
  rw [expDiv]
  split
  · rename_i hless
    rw [pfQUcmp_neg_iff] at hless
    exact ⟨(Nat.div_eq_of_lt hless).symm, (Nat.mod_eq_of_lt hless).symm⟩
  · rename_i hge
    rw [pfQUcmp_neg_iff, not_lt] at hge
    obtain ⟨-, habove⟩ := aligned_bounds hd hge
    rw [← pfQUbits_eq, ← pfQUbits_eq] at habove
    obtain ⟨hquotient, hremainder⟩ := accumUnsigned_exact.divideFrom_fits
      (s := ⟨numerator, expShl denominator (pfQUbits numerator - pfQUbits denominator), 0⟩)
      (toNat_expShl_aligned hd hge) rfl habove
      ((Nat.div_lt_iff_lt_mul hd).mp hfits |>.trans_eq (Nat.mul_comm _ _))
    exact ⟨hquotient, hremainder⟩

theorem toNat_momentLeft128_aligned (hd : 0 < denominator.toNat)
    (hle : denominator.toNat ≤ numerator.toNat)
    (hshift : pfQUbits numerator - pfQUbits denominator < 64) :
    (momentLeft128 denominator (pfQUbits numerator - pfQUbits denominator)).toNat =
      denominator.toNat * 2 ^ (pfQUbits numerator - pfQUbits denominator) := by
  obtain ⟨hbelow, -⟩ := aligned_bounds hd hle
  have hroom := pfQUbits_le numerator
  rw [← pfQUbits_eq, ← pfQUbits_eq] at hbelow
  rw [toNat_momentLeft128 denominator hshift, Nat.mod_eq_of_lt
    (hbelow.trans_le (Nat.pow_le_pow_right (by norm_num) hroom))]

theorem momentDivide128_spec (hd : 0 < denominator.toNat)
    (hfits : numerator.toNat < denominator.toNat * 2 ^ 63) :
    Divides numerator.toNat denominator.toNat (momentDivide128 numerator denominator) := by
  rw [momentDivide128]
  split
  · rename_i hge
    have hle : denominator.toNat ≤ numerator.toNat :=
      not_lt.mp fun hlt => absurd ((pfQUcmp_neg_iff _ _).mpr hlt) (by omega)
    obtain ⟨-, habove⟩ := aligned_bounds hd hle
    have hshift := aligned_shift_le hfits
    rw [← pfQUbits_eq, ← pfQUbits_eq] at habove hshift
    obtain ⟨hquotient, hremainder⟩ := accumUnsigned_exact.divideFrom_fits
      (s := ⟨numerator, momentLeft128 denominator (pfQUbits numerator - pfQUbits denominator), 0⟩)
      (toNat_momentLeft128_aligned hd hle (by omega)) rfl habove
      (hfits.trans (Nat.mul_lt_mul_of_pos_left (by norm_num) hd))
    exact ⟨hquotient, hremainder⟩
  · rename_i hless
    have hlt : numerator.toNat < denominator.toNat := (pfQUcmp_neg_iff _ _).mp (by omega)
    exact ⟨(Nat.div_eq_of_lt hlt).symm, (Nat.mod_eq_of_lt hlt).symm⟩

end Aligned

section AlignedWord

variable {numerator denominator : UInt64}

theorem toNat_shiftLeft_aligned (hd : 0 < denominator.toNat)
    (hle : denominator.toNat ≤ numerator.toNat) :
    (denominator <<< UInt64.ofNat
      (filtersQBitLength numerator - filtersQBitLength denominator)).toNat =
      denominator.toNat * 2 ^ (filtersQBitLength numerator - filtersQBitLength denominator) := by
  obtain ⟨hbelow, -⟩ := aligned_bounds hd hle
  have hshift := aligned_shift_lt hd numerator.toNat_lt (by norm_num)
  have hroom : numerator.toNat.size ≤ 64 := Nat.size_le.mpr numerator.toNat_lt
  rw [← filtersQBitLength_eq, ← filtersQBitLength_eq] at hbelow hshift
  rw [← filtersQBitLength_eq] at hroom
  have hamount := toNat_ofNat_shift hshift
  rw [toNat_shiftLeft_eq _ _ (by omega), hamount, Nat.mod_eq_of_lt
    (hbelow.trans_le (Nat.pow_le_pow_right (by norm_num) hroom))]

theorem expDiv64_spec (hd : 0 < denominator.toNat) :
    (expDiv64 numerator denominator).1.toNat = numerator.toNat / denominator.toNat ∧
      (expDiv64 numerator denominator).2.toNat = numerator.toNat % denominator.toNat := by
  rw [expDiv64]
  split
  · rename_i hless
    rw [UInt64.lt_iff_toNat_lt] at hless
    exact ⟨(Nat.div_eq_of_lt hless).symm, (Nat.mod_eq_of_lt hless).symm⟩
  · rename_i hge
    rw [UInt64.lt_iff_toNat_lt, not_lt] at hge
    obtain ⟨-, habove⟩ := aligned_bounds hd hge
    rw [← filtersQBitLength_eq, ← filtersQBitLength_eq] at habove
    exact wordUnsigned_exact.divideFrom_fits (s := ⟨numerator, _, 0⟩)
      (toNat_shiftLeft_aligned hd hge) rfl habove
      (numerator.toNat_lt.trans_le (Nat.le_mul_of_pos_left _ hd))

end AlignedWord

/-- The doubled remainder decides the rounding of a quotient. -/
theorem roundedQuotient_of_divides {n d q : ℕ} (hq : q = n / d) (hd : 0 < d) (up : Prop)
    [Decidable up] (hup : up ↔ d ≤ 2 * (n % d)) : q + (if up then 1 else 0) = roundedQuotient n d := by
  have hlt := Nat.mod_lt n hd
  rw [roundedQuotient, hq]
  congr 1
  exact if_congr (hup.trans (by omega)) rfl rfl

theorem toNat_expRoundDiv {numerator denominator : Accum} (hd : 0 < denominator.toNat)
    (hroom : denominator.toNat ≤ 2 ^ 127)
    (hfits : roundedQuotient numerator.toNat denominator.toNat < 2 ^ 64) :
    (expRoundDiv numerator denominator).toNat =
      roundedQuotient numerator.toNat denominator.toNat := by
  have hlt := Nat.mod_lt numerator.toNat hd
  have hquotient : numerator.toNat / denominator.toNat < 2 ^ 64 :=
    lt_of_le_of_lt (Nat.le_add_right _ _) hfits
  obtain ⟨hdiv, hmod⟩ := expDiv_spec hd hquotient
  have htwice := @toNat_expShl (expDiv numerator denominator).2 1
    (by rw [hmod]; omega) (by norm_num)
  have hup : pfQUcmp (expShl (expDiv numerator denominator).2 1) denominator ≥ 0 ↔
      denominator.toNat ≤ 2 * (numerator.toNat % denominator.toNat) := by
    have hneg := pfQUcmp_neg_iff (expShl (expDiv numerator denominator).2 1) denominator
    rw [htwice, hmod] at hneg
    omega
  have hrounded := roundedQuotient_of_divides hdiv hd _ hup
  rw [← hrounded] at hfits ⊢
  rw [expRoundDiv, UInt64.toNat_add]
  split at hfits <;> rename_i hcase
  · rw [if_pos hcase, if_pos hcase]
    exact Nat.mod_eq_of_lt hfits
  · rw [if_neg hcase, if_neg hcase]
    exact Nat.mod_eq_of_lt hfits

/-! ## The rounding shift and the narrow product -/

/-- The low word of a shifted pair. -/
theorem toNat_shifted_low (a : Accum) {shift : ℕ} (hpos : 0 < shift) (h : shift < 64) :
    ((a.low >>> UInt64.ofNat shift) ||| (a.high <<< UInt64.ofNat (64 - shift))).toNat =
      a.toNat / 2 ^ shift % 2 ^ 64 := by
  have hshift := toNat_ofNat_shift h
  have hrest := @toNat_ofNat_shift (64 - shift) (by omega)
  have hlow := a.low.toNat_lt
  have hpow : (2 : ℕ) ^ 64 = 2 ^ shift * 2 ^ (64 - shift) := by
    rw [← pow_add, Nat.add_sub_cancel' h.le]
  have hmod : a.toNat % 2 ^ 64 = a.low.toNat := by
    rw [Accum.toNat]
    omega
  have hdiv : a.toNat / 2 ^ 64 = a.high.toNat := by
    rw [Accum.toNat]
    omega
  have hbound : a.low.toNat / 2 ^ shift < 2 ^ (64 - shift) := by
    apply Nat.div_lt_of_lt_mul
    rwa [← hpow]
  rw [div_mod_of_words _ h.le, hmod, hdiv, UInt64.toNat_or, toNat_shiftRight_eq _ _ (by omega),
    toNat_shiftLeft_eq _ _ (by omega), hshift, hrest]
  conv_lhs => rw [hpow, Nat.mul_mod_mul_right]
  rw [lor_mul_two_pow _ hbound, Nat.add_comm]

/-- A bit of the low word. -/
theorem low_bit (a : Accum) {s : ℕ} (h : s < 64) :
    a.low.toNat / 2 ^ s % 2 = a.toNat / 2 ^ s % 2 := by
  have hpow : (2 : ℕ) ^ 64 = 2 ^ s * (2 * 2 ^ (63 - s)) := by
    rw [← pow_succ', ← pow_add]
    congr 1
    omega
  rw [Accum.toNat, hpow, Nat.mul_left_comm, Nat.mul_add_div (Nat.two_pow_pos s),
    Nat.mul_left_comm, Nat.mul_add_mod]

theorem toNat_pfQUround {a : Accum} {shift : ℕ}
    (hfits : roundedQuotient a.toNat (2 ^ shift) < 2 ^ 64) :
    (pfQUround a shift).toNat = roundedQuotient a.toNat (2 ^ shift) := by
  have hlt := a.toNat_lt
  have hlow := a.low.toNat_lt
  have hhigh := a.high.toNat_lt
  have hvalue : a.toNat = a.high.toNat * 2 ^ 64 + a.low.toNat := rfl
  rcases Nat.eq_zero_or_pos shift with rfl | hpos
  · rw [pow_zero, roundedQuotient_one] at hfits ⊢
    show a.low.toNat = a.toNat
    omega
  obtain ⟨s, rfl⟩ := Nat.exists_eq_succ_of_ne_zero hpos.ne'
  rw [Nat.succ_eq_add_one] at *
  rw [roundedQuotient_two_pow_succ] at hfits ⊢
  have hbit := Nat.mod_lt (a.toNat / 2 ^ s) (by norm_num : 0 < 2)
  rw [pfQUround, filtersQRoundU128, if_neg (Nat.succ_ne_zero s)]
  by_cases hlarge : s + 1 ≥ 128
  · -- at most the highest bit is left
    rw [if_pos hlarge]
    have hquotient : a.toNat / 2 ^ (s + 1) = 0 :=
      Nat.div_eq_of_lt (hlt.trans_le (Nat.pow_le_pow_right (by norm_num) hlarge))
    rw [hquotient, Nat.zero_add]
    dsimp only
    split
    · rename_i heq
      obtain rfl : s = 127 := by omega
      rw [toNat_shiftRight_eq _ _ (by decide), show (63 : UInt64).toNat = 63 from rfl]
      omega
    · rename_i hne
      rw [Nat.div_eq_of_lt (hlt.trans_le (Nat.pow_le_pow_right (by norm_num) (by omega)))]
      rfl
  rw [if_neg hlarge]
  by_cases hsmall : s + 1 < 64
  · rw [if_pos hsmall]
    dsimp only
    have hbits : s + 1 - 1 = s := rfl
    have hquotient : a.toNat / 2 ^ (s + 1) < 2 ^ 64 := lt_of_le_of_lt (Nat.le_add_right _ _) hfits
    rw [UInt64.toNat_add, toNat_shifted_low a (by omega) hsmall, hbits, toNat_bit _ (by omega),
      low_bit a (by omega), Nat.mod_eq_of_lt hquotient, Nat.mod_eq_of_lt hfits]
  rw [if_neg hsmall]
  by_cases hword : s + 1 = 64
  · rw [if_pos hword]
    obtain rfl : s = 63 := by omega
    dsimp only
    rw [UInt64.toNat_add, toNat_shiftRight_eq _ _ (by decide),
      show (63 : UInt64).toNat = 63 from rfl]
    omega
  · rw [if_neg hword]
    dsimp only
    have htail := @toNat_ofNat_shift (s + 1 - 64) (by omega)
    have hsplit : ∀ t, 64 ≤ t → a.toNat / 2 ^ t = a.high.toNat / 2 ^ (t - 64) := by
      intro t ht
      have hpow : 2 ^ t = 2 ^ 64 * 2 ^ (t - 64) := by rw [← pow_add, Nat.add_sub_cancel' ht]
      rw [hpow, ← Nat.div_div_eq_div_mul]
      congr 1
      omega
    rw [UInt64.toNat_add, toNat_shiftRight_eq _ _ (by omega), htail, toNat_bit _ (by omega),
      show s + 1 - 65 = s - 64 by omega, ← hsplit (s + 1) (by omega), ← hsplit s (by omega),
      Nat.mod_eq_of_lt hfits]

/-- A word that is shifted into a pair leaves its low bits to the other one. -/
theorem two_pow_dvd_toNat_iff (a : Accum) {s : ℕ} (h : s ≤ 64) :
    2 ^ s ∣ a.toNat ↔ a.low.toNat % 2 ^ s = 0 := by
  have hpow : (2 : ℕ) ^ 64 = 2 ^ s * 2 ^ (64 - s) := by
    rw [← pow_add, Nat.add_sub_cancel' h]
  rw [Accum.toNat, hpow, Nat.mul_left_comm, Nat.dvd_iff_mod_eq_zero, Nat.mul_add_mod]

/-- Beyond the low word a power of two divides both words in turn. -/
theorem two_pow_add_dvd_toNat_iff (a : Accum) (tail : ℕ) :
    2 ^ (64 + tail) ∣ a.toNat ↔ a.low.toNat = 0 ∧ a.high.toNat % 2 ^ tail = 0 := by
  have hlow := a.low.toNat_lt
  have hmod : a.toNat % 2 ^ 64 = a.low.toNat := by
    rw [Accum.toNat]
    omega
  have hdiv : a.toNat / 2 ^ 64 = a.high.toNat := by
    rw [Accum.toNat]
    omega
  rw [Nat.dvd_iff_mod_eq_zero, mod_pow_add, hmod, hdiv, Nat.add_eq_zero_iff, Nat.mul_eq_zero,
    or_iff_right (Nat.two_pow_pos 64).ne']

/-- The flag reports the bits below the shift, also when nothing of the value is left. -/
theorem filtersQRoundU128_inexact_iff (a : Accum) (shift : ℕ) :
    (filtersQRoundU128 a shift).inexact = true ↔ ¬2 ^ shift ∣ a.toNat := by
  have hlt := a.toNat_lt
  have hlow : a.low.toNat = 0 ↔ a.low = 0 := by rw [← UInt64.toNat_zero, UInt64.toNat_inj]
  have hhigh : a.high.toNat = 0 ↔ a.high = 0 := by rw [← UInt64.toNat_zero, UInt64.toNat_inj]
  rw [filtersQRoundU128]
  by_cases hzero : shift = 0
  · rw [if_pos hzero, hzero, pow_zero]
    exact ⟨fun h => absurd h Bool.false_ne_true, fun h => absurd (one_dvd _) h⟩
  rw [if_neg hzero]
  by_cases hlarge : shift ≥ 128
  · -- only zero is a multiple
    have hpow : a.toNat < 2 ^ shift := hlt.trans_le (Nat.pow_le_pow_right (by norm_num) hlarge)
    have hdvd : 2 ^ shift ∣ a.toNat ↔ a.low = 0 ∧ a.high = 0 := by
      rw [← hlow, ← hhigh]
      constructor
      · intro h
        have hvalue := Nat.eq_zero_of_dvd_of_lt h hpow
        rw [Accum.toNat] at hvalue
        omega
      · rintro ⟨hl, hh⟩
        rw [Accum.toNat, hl, hh, Nat.zero_mul, Nat.zero_add]
        exact dvd_zero _
    rw [if_pos hlarge, hdvd]
    dsimp only
    rw [decide_eq_true_iff, not_and_or]
  rw [if_neg hlarge]
  by_cases hsmall : shift < 64
  · have hamount := toNat_ofNat_shift hsmall
    rw [if_pos hsmall, two_pow_dvd_toNat_iff a hsmall.le]
    dsimp only
    rw [decide_eq_true_iff, ← toNat_ne_zero_iff, toNat_and_lowMask _ (by omega), hamount]
  rw [if_neg hsmall]
  by_cases hword : shift = 64
  · rw [if_pos hword, hword, two_pow_dvd_toNat_iff a le_rfl, Nat.mod_eq_of_lt a.low.toNat_lt]
    dsimp only
    rw [decide_eq_true_iff, ← toNat_ne_zero_iff]
  · obtain ⟨tail, rfl⟩ := Nat.exists_eq_add_of_le (not_lt.mp hsmall)
    have hamount := @toNat_ofNat_shift tail (by omega)
    rw [if_neg hword, two_pow_add_dvd_toNat_iff, not_and_or]
    dsimp only
    rw [decide_eq_true_iff, Nat.add_sub_cancel_left, ← toNat_ne_zero_iff, ← toNat_ne_zero_iff,
      toNat_and_lowMask _ (by omega), hamount]
    exact or_comm

theorem toNat_pfQUmul32 {a : Accum} {b : UInt32} (h : a.toNat * b.toNat < 2 ^ 128) :
    (pfQUmul32 a b).toNat = a.toNat * b.toNat := by
  have hproduct := toNat_pfQUmul a.low b.toUInt64
  rw [toNat_toUInt64_word] at hproduct
  have hsplit : a.toNat * b.toNat =
      a.high.toNat * b.toNat * 2 ^ 64 + (pfQUmul a.low b.toUInt64).toNat := by
    rw [hproduct, Accum.toNat]
    ring
  rw [hsplit] at h ⊢
  rw [pfQUmul32]
  generalize pfQUmul a.low b.toUInt64 = low at *
  have hlow := low.low.toNat_lt
  simp only [Accum.toNat, UInt64.toNat_add, UInt64.toNat_mul, toNat_toUInt64_word] at h ⊢
  generalize a.high.toNat * b.toNat = high at *
  omega

/-! ## The helpers together -/

theorem floor_add_half_eq (n s : ℕ) :
    ⌊(n : ℚ) / 2 ^ s + 1 / 2⌋₊ = roundedQuotient n (2 ^ s) := by
  have hrat : (n : ℚ) / 2 ^ s + 1 / 2 = ((2 * n + 2 ^ s : ℕ) : ℚ) / ((2 * 2 ^ s : ℕ) : ℚ) := by
    push_cast
    field_simp
  rw [roundedQuotient_eq n (Nat.two_pow_pos s), hrat, Rat.natFloor_natCast_div_natCast]

/-- Quotient and remainder as one equation. -/
theorem Divides.recompose {n d : ℕ} {division : UInt64 × Accum} (h : Divides n d division)
    (hd : 0 < d) :
    n = division.1.toNat * d + division.2.toNat ∧ division.2.toNat < d := by
  rw [h.1, h.2, Nat.mul_comm]
  exact ⟨(Nat.div_add_mod n d).symm, Nat.mod_lt n hd⟩

/-- The helpers are exact: the product keeps both words, the rounding shift
rounds half up and reports what it drops, and every division recomposes its
numerator after an alignment that neither loses a bit nor shifts too far. -/
theorem wide_helpers_exact :
    (∀ a b : UInt64, (filtersQMultiplyU64 a b).toNat = a.toNat * b.toNat) ∧
    (∀ (v : Accum) (s : ℕ), ⌊(v.toNat : ℚ) / 2 ^ s + 1 / 2⌋₊ < 2 ^ 64 →
      (filtersQRoundU128 v s).value.toNat = ⌊(v.toNat : ℚ) / 2 ^ s + 1 / 2⌋₊ ∧
      ((filtersQRoundU128 v s).inexact = true ↔ ¬2 ^ s ∣ v.toNat)) ∧
    (∀ n d : Accum, 0 < d.toNat → n.toNat < d.toNat * 2 ^ 64 →
      (n.toNat = (expDiv n d).1.toNat * d.toNat + (expDiv n d).2.toNat ∧
        (expDiv n d).2.toNat < d.toNat) ∧
      (d.toNat ≤ n.toNat → pfQUbits n - pfQUbits d ≤ 64 ∧
        (expShl d (pfQUbits n - pfQUbits d)).toNat =
          d.toNat * 2 ^ (pfQUbits n - pfQUbits d))) ∧
    (∀ n d : UInt64, 0 < d.toNat →
      (n.toNat = (expDiv64 n d).1.toNat * d.toNat + (expDiv64 n d).2.toNat ∧
        (expDiv64 n d).2.toNat < d.toNat) ∧
      (d.toNat ≤ n.toNat → filtersQBitLength n - filtersQBitLength d < 64 ∧
        (d <<< UInt64.ofNat (filtersQBitLength n - filtersQBitLength d)).toNat =
          d.toNat * 2 ^ (filtersQBitLength n - filtersQBitLength d))) ∧
    (∀ n d : Accum, 0 < d.toNat → n.toNat < d.toNat * 2 ^ 63 →
      (n.toNat = (momentDivide128 n d).1.toNat * d.toNat + (momentDivide128 n d).2.toNat ∧
        (momentDivide128 n d).2.toNat < d.toNat) ∧
      (d.toNat ≤ n.toNat → pfQUbits n - pfQUbits d < 64 ∧
        (momentLeft128 d (pfQUbits n - pfQUbits d)).toNat =
          d.toNat * 2 ^ (pfQUbits n - pfQUbits d))) := by
  refine ⟨toNat_pfQUmul, ?round, ?exponential, ?word, ?moments⟩
  case round =>
    intro v s hfits
    rw [floor_add_half_eq] at hfits ⊢
    exact ⟨toNat_pfQUround hfits, filtersQRoundU128_inexact_iff v s⟩
  case exponential =>
    intro n d hd hfits
    have hquotient : n.toNat / d.toNat < 2 ^ 64 :=
      (Nat.div_lt_iff_lt_mul hd).mpr (by rwa [Nat.mul_comm])
    refine ⟨(expDiv_spec hd hquotient).recompose hd, fun hle => ⟨?_, toNat_expShl_aligned hd hle⟩⟩
    rw [pfQUbits_eq, pfQUbits_eq]
    exact aligned_shift_le hfits
  case word =>
    intro n d hd
    obtain ⟨hquotient, hremainder⟩ := @expDiv64_spec n d hd
    rw [hquotient, hremainder, Nat.mul_comm]
    refine ⟨⟨(Nat.div_add_mod _ _).symm, Nat.mod_lt _ hd⟩,
      fun hle => ⟨?_, toNat_shiftLeft_aligned hd hle⟩⟩
    rw [filtersQBitLength_eq, filtersQBitLength_eq]
    exact aligned_shift_lt hd n.toNat_lt (by norm_num)
  case moments =>
    intro n d hd hfits
    have hshift := aligned_shift_le hfits
    rw [← pfQUbits_eq, ← pfQUbits_eq] at hshift
    exact ⟨(momentDivide128_spec hd hfits).recompose hd,
      fun hle => ⟨by omega, toNat_momentLeft128_aligned hd hle (by omega)⟩⟩

theorem wide_helpers_exact_seven :
    (filtersQRoundU128 ⟨7, 0⟩ 2).value.toNat = ⌊((⟨7, 0⟩ : Accum).toNat : ℚ) / 2 ^ 2 + 1 / 2⌋₊ ∧
      (⟨7, 0⟩ : Accum).toNat =
        (expDiv ⟨7, 0⟩ ⟨2, 0⟩).1.toNat * (⟨2, 0⟩ : Accum).toNat +
          (expDiv ⟨7, 0⟩ ⟨2, 0⟩).2.toNat ∧
      (7 : UInt64).toNat = (expDiv64 7 2).1.toNat * (2 : UInt64).toNat + (expDiv64 7 2).2.toNat ∧
      (⟨7, 0⟩ : Accum).toNat =
        (momentDivide128 ⟨7, 0⟩ ⟨2, 0⟩).1.toNat * (⟨2, 0⟩ : Accum).toNat +
          (momentDivide128 ⟨7, 0⟩ ⟨2, 0⟩).2.toNat :=
  ⟨(wide_helpers_exact.2.1 ⟨7, 0⟩ 2 (by rw [floor_add_half_eq]; decide)).1,
    (wide_helpers_exact.2.2.1 ⟨7, 0⟩ ⟨2, 0⟩ (by decide) (by decide)).1.1,
    (wide_helpers_exact.2.2.2.1 7 2 (by decide)).1.1,
    (wide_helpers_exact.2.2.2.2 ⟨7, 0⟩ ⟨2, 0⟩ (by decide) (by decide)).1.1⟩

end Xhive.Particles
