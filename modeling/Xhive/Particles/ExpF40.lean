import Xhive.Particles.ExpHorner
import Mathlib.Order.Monotone.Basic

/-!
# The 64-bit exponential kernel

`pf_q_exp_fixed_f40` and the signed kernel of the q15 format round one and the
same quotient, which only falls with the exponent.
-/

namespace Xhive.Particles

open Xhive.Support Xhive.Linears

/-! ## Horner steps that fall slowly -/

/-- A function that falls by at most one from one argument to the next, and stays above it. -/
structure FallsSlowly (f : ℕ → ℕ) (top B : ℕ) : Prop where
  antitone : ∀ r < top, f (r + 1) ≤ f r
  step : ∀ r < top, f r ≤ f (r + 1) + 1
  above : ∀ r ≤ top, top ≤ f r
  le : ∀ r ≤ top, f r ≤ B

theorem fallsSlowly_const {c top B : ℕ} (habove : top ≤ c) (hle : c ≤ B) :
    FallsSlowly (fun _ => c) top B where
  antitone _ _ := le_rfl
  step _ _ := Nat.le_succ c
  above _ _ := habove
  le _ _ := hle

theorem roundedQuotient_add_le {n m B : ℕ} (hB : 0 < B) (hm : m ≤ B) :
    roundedQuotient (n + m) B ≤ roundedQuotient n B + 1 := by
  have hself := (roundedQuotient_le_iff hB).mp (le_refl (roundedQuotient n B))
  rw [roundedQuotient_le_iff hB]
  calc 2 * (n + m) = 2 * n + 2 * m := Nat.mul_add _ _ _
    _ < (2 * roundedQuotient n B + 1) * B + 2 * B := by omega
    _ = (2 * (roundedQuotient n B + 1) + 1) * B := by ring

/-- A coefficient less the rounded product falls slowly too. -/
theorem FallsSlowly.horner {f : ℕ → ℕ} {top B c : ℕ} (hf : FallsSlowly f top B) (hB : 0 < B)
    (hc : c ≤ B) (habove : ∀ r ≤ top, top + roundedQuotient (f r * r) B ≤ c) :
    FallsSlowly (fun r => c - roundedQuotient (f r * r) B) top B where
  antitone r hr := by
    -- the product grows: what the factor loses is below the factor itself
    have hproduct : f r * r ≤ f (r + 1) * (r + 1) := by
      have hstep := hf.step r hr
      have hlarge := hf.above (r + 1) hr
      nlinarith
    have hrounded := Support.roundedQuotient_le hB hB (Nat.mul_le_mul_right B hproduct)
    exact Nat.sub_le_sub_left hrounded c
  step r hr := by
    have hproduct : f (r + 1) * (r + 1) ≤ f r * r + f r := by
      rw [← Nat.mul_succ]
      exact Nat.mul_le_mul_right _ (hf.antitone r hr)
    have hrounded := Support.roundedQuotient_le hB hB (Nat.mul_le_mul_right B hproduct)
    have hnext := roundedQuotient_add_le (n := f r * r) hB (hf.le r hr.le)
    omega
  above r hr := by
    have hroom := habove r hr
    omega
  le r _ := (Nat.sub_le _ _).trans hc

/-! ## The magnitudes of the q15 format -/

/-- The largest remainder. -/
def lastRemainder : ℕ :=
  expQ15.step.toNat - 1

/-- Every polynomial of the q15 kernel falls slowly over the remainders. -/
theorem hornerMagnitude_fallsSlowly :
    ∀ n ≤ 4, FallsSlowly (hornerMagnitude expQ15 · n) lastRemainder (2 ^ 40) := by
  have hroom : ∀ n < 4, lastRemainder +
      roundedQuotient (expQ15.magnitude (4 - n) * lastRemainder) (2 ^ 40) ≤
        expQ15.magnitude (4 - (n + 1)) := by decide
  intro n
  induction n with
  | zero => exact fun _ => fallsSlowly_const (by decide) (by decide)
  | succ n ih =>
      intro hn
      have hprevious := ih (by omega)
      have hcoefficient := expQ15_alternates.magnitude_le (4 - (n + 1)) (Nat.sub_le 4 _)
      refine hprevious.horner (Nat.two_pow_pos 40) hcoefficient ?_
      intro r hr
      have hle := (hornerMagnitude_bounds expQ15_alternates (hr.trans (Nat.sub_le _ _)) n
        (by show n ≤ 4; omega)).2
      have hrounded := Support.roundedQuotient_le (Nat.two_pow_pos 40) (Nat.two_pow_pos 40)
        (Nat.mul_le_mul_right (2 ^ 40) (Nat.mul_le_mul hle hr))
      exact (Nat.add_le_add_left hrounded _).trans (hroom n hn)

/-! ## The rounded quotient of both kernels -/

/-- A table entry as a number. -/
def entryQ15 (j : ℕ) : ℕ :=
  (expQ15.table.getD j ⟨0, 0⟩).toNat

/-- What both kernels round for `delta`. -/
def quotientQ15 (delta : ℕ) : ℕ :=
  roundedQuotient
    (entryQ15 (delta / expQ15.step.toNat % 32) *
      hornerMagnitude expQ15 (delta % expQ15.step.toNat) 4)
    (2 ^ (49 + delta / expQ15.step.toNat / 32))

/-- The end of an interval of the table is not below the start of the next one. -/
theorem entry_boundary :
    (∀ j < 31, entryQ15 (j + 1) * hornerMagnitude expQ15 0 4 ≤
      entryQ15 j * hornerMagnitude expQ15 lastRemainder 4) ∧
    entryQ15 0 * hornerMagnitude expQ15 0 4 ≤
      2 * (entryQ15 31 * hornerMagnitude expQ15 lastRemainder 4) := by
  decide +kernel

/-- The quotient falls with the exponent, from one interval to the next as well. -/
theorem quotientQ15_antitone : Antitone quotientQ15 := by
  apply antitone_nat_of_succ_le
  intro delta
  have hstep : 0 < expQ15.step.toNat := by decide
  have hlast : lastRemainder + 1 = expQ15.step.toNat := by decide
  have hdiv := Nat.div_add_mod delta expQ15.step.toNat
  have hmod := Nat.mod_lt delta hstep
  apply Support.roundedQuotient_le (Nat.two_pow_pos _) (Nat.two_pow_pos _)
  obtain ⟨k, hk⟩ : ∃ k, delta / expQ15.step.toNat = k := ⟨_, rfl⟩
  obtain ⟨r, hr⟩ : ∃ r, delta % expQ15.step.toNat = r := ⟨_, rfl⟩
  rw [hk, hr] at hdiv
  rw [hr] at hmod
  rw [hk, hr]
  by_cases hinside : r + 1 < expQ15.step.toNat
  · have hsame : (delta + 1) / expQ15.step.toNat = k ∧ (delta + 1) % expQ15.step.toNat = r + 1 := by
      rw [Nat.div_mod_unique hstep]
      omega
    rw [hsame.1, hsame.2]
    have hfalls := (hornerMagnitude_fallsSlowly 4 le_rfl).antitone r (by omega)
    exact Nat.mul_le_mul_right _ (Nat.mul_le_mul_left _ hfalls)
  · have hnext : (delta + 1) / expQ15.step.toNat = k + 1 ∧ (delta + 1) % expQ15.step.toNat = 0 := by
      rw [Nat.div_mod_unique hstep, Nat.mul_succ]
      omega
    rw [hnext.1, hnext.2, show r = lastRemainder by omega]
    obtain ⟨hinner, hwrap⟩ := entry_boundary
    by_cases hj : k % 32 = 31
    · -- the table starts again with the next power of two
      have hzero : (k + 1) % 32 = 0 := by omega
      have hpower : 49 + (k + 1) / 32 = 49 + k / 32 + 1 := by omega
      rw [hj, hzero, hpower, pow_succ]
      calc entryQ15 0 * hornerMagnitude expQ15 0 4 * 2 ^ (49 + k / 32)
          ≤ 2 * (entryQ15 31 * hornerMagnitude expQ15 lastRemainder 4) * 2 ^ (49 + k / 32) :=
            Nat.mul_le_mul_right _ hwrap
        _ = entryQ15 31 * hornerMagnitude expQ15 lastRemainder 4 * (2 ^ (49 + k / 32) * 2) := by
          ring
    · have hsucc : (k + 1) % 32 = k % 32 + 1 := by omega
      have hpower : (k + 1) / 32 = k / 32 := by omega
      rw [hsucc, hpower]
      exact Nat.mul_le_mul_right _ (hinner (k % 32) (by omega))

theorem quotientQ15_le (delta : ℕ) : quotientQ15 delta ≤ 2 ^ 31 := by
  have hzero : quotientQ15 0 = 2 ^ 31 := by decide
  rw [← hzero]
  exact quotientQ15_antitone (Nat.zero_le delta)

/-! ## The two kernels -/

/-- What both kernels return. -/
def kernelQ15 (delta : ℕ) : Option UInt64 :=
  if delta < 1025 * expQ15.step.toNat then
    expAccept expQ15 (UInt64.ofNat (quotientQ15 delta))
  else none

/-- An accepted value is the rounded quotient. -/
theorem toNat_of_kernelQ15 {delta : ℕ} {value : UInt64} (h : kernelQ15 delta = some value) :
    value.toNat = quotientQ15 delta := by
  have hle := quotientQ15_le delta
  rw [kernelQ15] at h
  split at h
  · rw [expAccept] at h
    split at h
    · cases h
    · cases h
      rw [UInt64.toNat_ofNat', Nat.mod_eq_of_lt (by omega)]
  · cases h

/-- A table entry has one word. -/
theorem entryQ15_word (k : UInt64) :
    (expQ15.entry k).high = 0 ∧ (expQ15.entry k).low.toNat = entryQ15 (k.toNat % 32) := by
  have hhigh : ∀ j < 32, (expQ15.table.getD j ⟨0, 0⟩).high = 0 := by decide
  have hindex : (k &&& 31).toNat = k.toNat % 32 := by
    rw [UInt64.toNat_and, show (31 : UInt64).toNat = 2 ^ 5 - 1 from rfl,
      Nat.and_two_pow_sub_one_eq_mod]
  have hzero := hhigh (k.toNat % 32) (Nat.mod_lt _ (by norm_num))
  rw [ExpFormat.entry, hindex, entryQ15, Accum.toNat]
  refine ⟨hzero, ?_⟩
  rw [hzero, UInt64.toNat_zero, Nat.zero_mul, Nat.zero_add]

/-- Entry and polynomial give the rounded quotient. -/
theorem pfQUround_quotientQ15 {k polynomial : UInt64} {delta : ℕ}
    (hk : k.toNat = delta / expQ15.step.toNat)
    (hpolynomial : polynomial.toNat = hornerMagnitude expQ15 (delta % expQ15.step.toNat) 4) :
    pfQUround (pfQUmul (expQ15.entry k).low polynomial)
        (2 * expQ15.fractional - expQ15.likelihoodFraction + (k >>> 5).toNat) =
      UInt64.ofNat (quotientQ15 delta) := by
  have hle := quotientQ15_le delta
  have hshift : 2 * expQ15.fractional - expQ15.likelihoodFraction + (k >>> 5).toNat =
      49 + delta / expQ15.step.toNat / 32 := by
    rw [toNat_shiftRight_eq _ _ (by decide), hk]
    rfl
  have hproduct : roundedQuotient (pfQUmul (expQ15.entry k).low polynomial).toNat
      (2 ^ (49 + delta / expQ15.step.toNat / 32)) = quotientQ15 delta := by
    rw [toNat_pfQUmul, (entryQ15_word k).2, hpolynomial, hk, quotientQ15]
  rw [hshift, ← UInt64.toNat_inj, toNat_pfQUround, hproduct, UInt64.toNat_ofNat',
    Nat.mod_eq_of_lt (by omega)]
  rw [hproduct]
  omega

/-- The 64-bit kernel. -/
theorem expFixedF40_eq_kernel (delta : Accum) : expFixedF40 delta = kernelQ15 delta.toNat := by
  have hlow := delta.low.toNat_lt
  have hvalue : delta.toNat = delta.high.toNat * 2 ^ 64 + delta.low.toNat := rfl
  have hlimit : (expQ15.step * UInt64.ofNat (32 * (expQ15.likelihoodFraction + 1) + 1)).toNat =
      1025 * expQ15.step.toNat := by decide
  have hfits : 1025 * expQ15.step.toNat < 2 ^ 64 := by decide
  have hguard : (delta.high ≠ 0 ∨ delta.low ≥
      expQ15.step * UInt64.ofNat (32 * (expQ15.likelihoodFraction + 1) + 1)) ↔
        ¬delta.toNat < 1025 * expQ15.step.toNat := by
    rw [ge_iff_le, UInt64.le_iff_toNat_le, hlimit, ne_eq, ← UInt64.toNat_inj, UInt64.toNat_zero]
    omega
  rw [expFixedF40, kernelQ15]
  dsimp only
  by_cases hsmall : delta.toNat < 1025 * expQ15.step.toNat
  · rw [if_neg (fun h => hguard.mp h hsmall), if_pos hsmall]
    have hword : delta.low.toNat = delta.toNat := by omega
    obtain ⟨hk, hr⟩ := @expDiv64_spec delta.low expQ15.step
      (by decide)
    rw [hword] at hk hr
    have hle : (expDiv64 delta.low expQ15.step).2.toNat ≤ expQ15.step.toNat := by
      rw [hr]
      exact (Nat.mod_lt _ (by decide)).le
    have hstage : expHornerF40 expQ15 (expDiv64 delta.low expQ15.step).2 expQ15.degree
        (expQ15.coefficientWord expQ15.degree) =
          hornerStage expQ15 (expDiv64 delta.low expQ15.step).2 4 :=
      expHornerF40_eq_hornerStage _ 4 0 rfl
    have hnat := toNat_hornerStage expQ15_alternates (by decide) hle 4 le_rfl
    rw [hr] at hnat
    rw [hstage, pfQUround_quotientQ15 hk hnat]
  · rw [if_pos (hguard.mpr hsmall), if_neg hsmall]

/-- A small nonnegative value is its low word. -/
theorem word_of_toInt {a : Accum} {m : ℕ} (h : a.toInt = m) (hm : m < 2 ^ 64) :
    lnNegative a = false ∧ a.high = 0 ∧ a.low.toNat = m := by
  have hlt := a.toNat_lt
  have hnat : a.toNat = m := by
    rw [Accum.toInt] at h
    split at h <;> omega
  have hsign : lnNegative a = false := by
    rw [← Bool.not_eq_true, lnNegative_iff, h]
    omega
  have hhigh : a.high = 0 := by
    rw [← UInt64.toNat_inj, UInt64.toNat_zero]
    rw [Accum.toNat] at hnat
    omega
  refine ⟨hsign, hhigh, ?_⟩
  rw [← hnat, Accum.toNat, hhigh, UInt64.toNat_zero, Nat.zero_mul, Nat.zero_add]

/-- The signed kernel. -/
theorem expFixed_eq_kernel {delta : Accum} (hfits : delta.toNat / expQ15.step.toNat < 2 ^ 64) :
    expFixed expQ15 delta = kernelQ15 delta.toNat := by
  have hstep : 0 < expQ15.step.toNat := by decide
  have hdenominator : (⟨expQ15.step, 0⟩ : Accum).toNat = expQ15.step.toNat := toNat_word _
  obtain ⟨hk, hr⟩ := @expDiv_spec delta ⟨expQ15.step, 0⟩
    (by rw [hdenominator]; exact hstep) (by rw [hdenominator]; exact hfits)
  rw [hdenominator] at hk hr
  have hmod := Nat.mod_lt delta.toNat hstep
  have hdiv := Nat.div_add_mod delta.toNat expQ15.step.toNat
  rw [expFixed, kernelQ15]
  dsimp only
  generalize expDiv delta ⟨expQ15.step, 0⟩ = division at *
  have hguard : division.1 > UInt64.ofNat (32 * (expQ15.likelihoodFraction + 1)) ↔
      ¬delta.toNat < 1025 * expQ15.step.toNat := by
    rw [gt_iff_lt, UInt64.lt_iff_toNat_lt, hk,
      show (UInt64.ofNat (32 * (expQ15.likelihoodFraction + 1))).toNat = 1024 by decide,
      ← Nat.div_lt_iff_lt_mul hstep]
    omega
  by_cases hsmall : delta.toNat < 1025 * expQ15.step.toNat
  · rw [if_neg (fun h => hguard.mp h hsmall), if_pos hsmall]
    have hremainder : division.2.low.toNat = delta.toNat % expQ15.step.toNat := by
      have hword := division.2.low.toNat_lt
      rw [← hr]
      have hlt : division.2.toNat < 2 ^ 64 := by
        rw [hr]
        exact hmod.trans expQ15.step.toNat_lt
      rw [Accum.toNat] at hlt ⊢
      omega
    have hle : division.2.low.toNat ≤ expQ15.step.toNat := by omega
    have hhorner := toInt_expHorner expQ15_alternates hle
    have hbounds := hornerMagnitude_bounds expQ15_alternates hle 4 le_rfl
    have htop : expQ15.magnitude (expQ15.degree - 4) ≤ 2 ^ 40 := by decide
    rw [hremainder] at hhorner hbounds
    have hpolynomial : (expHorner expQ15 division.2.low expQ15.degree
        (expCoefficient expQ15 expQ15.degree)).toInt =
          hornerMagnitude expQ15 (delta.toNat % expQ15.step.toNat) 4 := hhorner
    generalize expHorner expQ15 division.2.low expQ15.degree
      (expCoefficient expQ15 expQ15.degree) = polynomial at *
    have hsmallest : hornerMagnitude expQ15 (delta.toNat % expQ15.step.toNat) 4 ≤ 2 ^ 40 :=
      hbounds.2.trans htop
    obtain ⟨hsign, hhigh, hlow⟩ := word_of_toInt hpolynomial
      (hsmallest.trans_lt (by norm_num))
    have hproduct : expPositiveProduct (expQ15.entry division.1) polynomial =
        some (pfQUmul (expQ15.entry division.1).low polynomial.low) := by
      rw [expPositiveProduct, (entryQ15_word division.1).1, hhigh]
      rfl
    have hshift : ¬2 * expQ15.fractional - expQ15.likelihoodFraction + (division.1 >>> 5).toNat ≥
        128 := by
      rw [toNat_shiftRight_eq _ _ (by decide), hk]
      show ¬49 + delta.toNat / expQ15.step.toNat / 32 ≥ 128
      have hinterval : delta.toNat / expQ15.step.toNat < 1025 :=
        (Nat.div_lt_iff_lt_mul hstep).mpr hsmall
      omega
    rw [hsign, if_neg Bool.false_ne_true, hproduct]
    dsimp only
    rw [if_neg hshift, pfQUround_quotientQ15 hk hlow]
  · rw [if_pos (hguard.mpr hsmall), if_neg hsmall]

/-! ## Equality, signs and monotonicity -/

/-- The product that the 64-bit kernel takes from the coefficient of step `n`. -/
def f40Product (delta : Accum) (n : ℕ) : UInt64 :=
  let remainder := (expDiv64 delta.low expQ15.step).2
  pfQUround (pfQUmul (hornerStage expQ15 remainder n) remainder) expQ15.fractional

/-- A step takes a smaller product from its coefficient and leaves a positive polynomial. -/
structure F40Step (delta : Accum) (n : ℕ) : Prop where
  polynomial_pos : 0 < (hornerStage expQ15 (expDiv64 delta.low expQ15.step).2 n).toNat
  product_lt : (f40Product delta n).toNat <
    (expQ15.coefficientWord (expQ15.degree - (n + 1))).toNat
  difference : (hornerStage expQ15 (expDiv64 delta.low expQ15.step).2 (n + 1)).toNat =
    (expQ15.coefficientWord (expQ15.degree - (n + 1))).toNat - (f40Product delta n).toNat
  difference_pos : 0 < (hornerStage expQ15 (expDiv64 delta.low expQ15.step).2 (n + 1)).toNat

theorem f40Step (delta : Accum) {n : ℕ} (hn : n < expQ15.degree) : F40Step delta n := by
  have hwords : ∀ i ≤ expQ15.degree,
      (expQ15.coefficientWord i).toNat = expQ15.magnitude i := by decide
  have hr : (expDiv64 delta.low expQ15.step).2.toNat ≤ expQ15.step.toNat := by
    rw [(expDiv64_spec (by decide)).2]
    exact (Nat.mod_lt _ (by decide)).le
  have hnow := toNat_hornerStage expQ15_alternates hwords hr n hn.le
  have hnext := toNat_hornerStage expQ15_alternates hwords hr (n + 1) hn
  have hpos := (hornerMagnitude_bounds expQ15_alternates hr n hn.le).1
  have hposnext := (hornerMagnitude_bounds expQ15_alternates hr (n + 1) hn).1
  have hlt := hornerProduct_lt expQ15_alternates hr hn
  have hword := (expQ15.coefficientWord (expQ15.degree - (n + 1))).toNat_lt
  have hcoefficient := hwords (expQ15.degree - (n + 1)) (Nat.sub_le _ _)
  have hproduct : (f40Product delta n).toNat =
      roundedQuotient (hornerMagnitude expQ15 (expDiv64 delta.low expQ15.step).2.toNat n *
        (expDiv64 delta.low expQ15.step).2.toNat) (2 ^ expQ15.fractional) := by
    rw [f40Product, toNat_pfQUround, toNat_pfQUmul, hnow]
    rw [toNat_pfQUmul, hnow]
    exact (hlt.trans_eq hcoefficient.symm).trans hword
  rw [← hnow] at hpos
  rw [← hnext] at hposnext
  refine ⟨hpos, ?_, ?_, hposnext⟩
  · rw [hproduct, hcoefficient]
    exact hlt
  · rw [hnext, hornerMagnitude, hproduct, hcoefficient]

/-- The two kernels agree, every Horner step subtracts a smaller number, and the accepted
values fall with the exponent. -/
theorem f40_kernel_exact :
    (∀ delta : Accum, delta.toNat / expQ15.step.toNat < 2 ^ 64 →
      expFixedF40 delta = expFixed expQ15 delta) ∧
    (∀ delta : Accum,
      expHornerF40 expQ15 (expDiv64 delta.low expQ15.step).2 expQ15.degree
          (expQ15.coefficientWord expQ15.degree) =
        hornerStage expQ15 (expDiv64 delta.low expQ15.step).2 expQ15.degree ∧
      ∀ n < expQ15.degree, F40Step delta n) ∧
    ∀ (delta delta' : Accum) (value value' : UInt64), delta.toNat ≤ delta'.toNat →
      expFixedF40 delta = some value → expFixedF40 delta' = some value' → value' ≤ value := by
  refine ⟨fun delta hfits => ?_, fun delta => ⟨?_, fun n hn => f40Step delta hn⟩, ?_⟩
  · rw [expFixedF40_eq_kernel, expFixed_eq_kernel hfits]
  · exact expHornerF40_eq_hornerStage _ expQ15.degree 0 (Nat.add_zero _)
  · intro delta delta' value value' hle hvalue hvalue'
    rw [expFixedF40_eq_kernel] at hvalue hvalue'
    rw [UInt64.le_iff_toNat_le, toNat_of_kernelQ15 hvalue, toNat_of_kernelQ15 hvalue']
    exact quotientQ15_antitone hle

/-- Without a remainder nothing is taken from the coefficients. -/
theorem f40_product_zero :
    ¬∀ delta : Accum, (expFixedF40 delta).isSome → ∀ n < expQ15.degree, 0 < f40Product delta n := by
  intro h
  have hsome : (expFixedF40 ⟨0, 0⟩).isSome := by
    rw [expFixedF40_eq_kernel]
    decide
  exact absurd (h ⟨0, 0⟩ hsome 0 (by decide)) (by decide)

end Xhive.Particles
