import Xhive.Particles.ExpAccuracy
import Xhive.Particles.ExpF40

/-!
# The error budget of the exponential kernel

Every value that the generic kernel accepts is the rounded quotient of a table cell
and a polynomial, also where their product is one step too large for its word.  No
stage leaves the range that its helpers assume.
-/

namespace Xhive.Particles

open Xhive.Support Xhive.Linears

/-- The product of two values up to `2 ^ 64`. -/
theorem expPositiveProduct_none {a b : Accum} (ha : a.toNat ≤ 2 ^ 64) (hb : b.toNat ≤ 2 ^ 64)
    (h : expPositiveProduct a b = none) : a.toNat = 2 ^ 64 ∧ b.toNat = 2 ^ 64 := by
  have hfull : ∀ c : Accum, c.high ≠ 0 → c.toNat ≤ 2 ^ 64 → c.toNat = 2 ^ 64 := by
    intro c hhigh hle
    rw [ne_eq, ← UInt64.toNat_inj, UInt64.toNat_zero] at hhigh
    rw [Accum.toNat] at hle ⊢
    omega
  rw [expPositiveProduct] at h
  split at h
  · rename_i hhigh
    exact ⟨hfull a hhigh.1 ha, hfull b hhigh.2 hb⟩
  · split at h
    · cases h
    · split at h <;> cases h

theorem expPositiveProduct_some {a b product : Accum} (ha : a.toNat ≤ 2 ^ 64)
    (hb : b.toNat ≤ 2 ^ 64) (h : expPositiveProduct a b = some product) :
    product.toNat = a.toNat * b.toNat := by
  have hsplit : ∀ c : Accum, c.toNat ≤ 2 ^ 64 →
      (c.high = 0 ∧ c.toNat = c.low.toNat) ∨ (c.high ≠ 0 ∧ c.toNat = 2 ^ 64) := by
    intro c hle
    by_cases hhigh : c.high = 0
    · refine Or.inl ⟨hhigh, ?_⟩
      rw [Accum.toNat, hhigh, UInt64.toNat_zero, Nat.zero_mul, Nat.zero_add]
    · refine Or.inr ⟨hhigh, ?_⟩
      rw [← UInt64.toNat_inj, UInt64.toNat_zero] at hhigh
      rw [Accum.toNat] at hle ⊢
      omega
  have hword : ∀ c : UInt64, (⟨0, c⟩ : Accum).toNat = 2 ^ 64 * c.toNat := by
    intro c
    rw [Accum.toNat, UInt64.toNat_zero, Nat.add_zero, Nat.mul_comm]
  rw [expPositiveProduct] at h
  obtain ⟨hahigh, havalue⟩ | ⟨hahigh, havalue⟩ := hsplit a ha
  · obtain ⟨hbhigh, hbvalue⟩ | ⟨hbhigh, hbvalue⟩ := hsplit b hb
    · rw [if_neg (fun hboth => hboth.1 hahigh), if_neg (not_not_intro hahigh),
        if_neg (not_not_intro hbhigh)] at h
      cases h
      rw [toNat_pfQUmul, havalue, hbvalue]
    · rw [if_neg (fun hboth => hboth.1 hahigh), if_neg (not_not_intro hahigh),
        if_pos hbhigh] at h
      cases h
      rw [hword, havalue, hbvalue, Nat.mul_comm]
  · obtain ⟨hbhigh, hbvalue⟩ | ⟨hbhigh, hbvalue⟩ := hsplit b hb
    · rw [if_neg (fun hboth => hboth.2 hbhigh), if_pos hahigh] at h
      cases h
      rw [hword, havalue, hbvalue]
    · rw [if_pos ⟨hahigh, hbhigh⟩] at h
      cases h

/-! ## Ranges -/

section Kernel

variable {format : ExpFormat} {budget : ℚ} (hformat : format.Accurate budget)

/-- The shift of the last rounding. -/
def expShift (format : ExpFormat) (delta : ℕ) : ℕ :=
  2 * format.fractional - format.likelihoodFraction + delta / format.step.toNat / 32

/-- What the helpers assume of a run behind the first guard: an exact reduction, stages within
one, a table cell within one, an exact product or both factors one, and a quotient that has
a word. -/
structure ExpRanges (format : ExpFormat) (delta : Accum) : Prop where
  quotient : (expDiv delta ⟨format.step, 0⟩).1.toNat = delta.toNat / format.step.toNat
  remainder : (expDiv delta ⟨format.step, 0⟩).2.low.toNat = delta.toNat % format.step.toNat
  steps : ∀ n < format.degree, ExpStep format (expDiv delta ⟨format.step, 0⟩).2.low n
  polynomial : expHorner format (expDiv delta ⟨format.step, 0⟩).2.low format.degree
    (expCoefficient format format.degree) =
      expStage format (expDiv delta ⟨format.step, 0⟩).2.low format.degree
  polynomial_pos : 0 < (expStage format (expDiv delta ⟨format.step, 0⟩).2.low format.degree).toInt
  polynomial_le : (expStage format (expDiv delta ⟨format.step, 0⟩).2.low format.degree).toInt ≤
    2 ^ format.fractional
  entry_le : (format.entry (expDiv delta ⟨format.step, 0⟩).1).toNat ≤ 2 ^ format.fractional
  product_none : expPositiveProduct (format.entry (expDiv delta ⟨format.step, 0⟩).1)
      (expStage format (expDiv delta ⟨format.step, 0⟩).2.low format.degree) = none →
    (format.entry (expDiv delta ⟨format.step, 0⟩).1).toNat = 2 ^ 64 ∧
      (expStage format (expDiv delta ⟨format.step, 0⟩).2.low format.degree).toNat = 2 ^ 64
  product_some : ∀ product, expPositiveProduct (format.entry (expDiv delta ⟨format.step, 0⟩).1)
      (expStage format (expDiv delta ⟨format.step, 0⟩).2.low format.degree) = some product →
    product.toNat = (format.entry (expDiv delta ⟨format.step, 0⟩).1).toNat *
      (expStage format (expDiv delta ⟨format.step, 0⟩).2.low format.degree).toNat
  rounded_fits : roundedQuotient ((format.entry (expDiv delta ⟨format.step, 0⟩).1).toNat *
    (expStage format (expDiv delta ⟨format.step, 0⟩).2.low format.degree).toNat)
      (2 ^ expShift format delta.toNat) < 2 ^ 64

include hformat

/-- A table entry is a cell. -/
theorem entry_eq_cell (k : UInt64) : (format.entry k).toNat = format.cell (k.toNat % 32) ∧
    (format.entry k).toNat ≤ 2 ^ format.fractional := by
  have hindex : (k &&& 31).toNat = k.toNat % 32 := by
    rw [UInt64.toNat_and, show (31 : UInt64).toNat = 2 ^ 5 - 1 from rfl,
      Nat.and_two_pow_sub_one_eq_mod]
  have hcell : (format.entry k).toNat = format.cell (k.toNat % 32) := by
    rw [ExpFormat.entry, hindex, ExpFormat.cell]
  exact ⟨hcell, hcell.trans_le (hformat.cell_le _ (Nat.mod_lt _ (by norm_num)))⟩

/-- The quotient of a cell and a polynomial stays below one. -/
theorem rounded_le {T P q : ℕ} (hT : T ≤ 2 ^ format.fractional) (hP : P ≤ 2 ^ format.fractional) :
    roundedQuotient (T * P) (2 ^ (2 * format.fractional - format.likelihoodFraction + q)) ≤
      2 ^ format.likelihoodFraction := by
  have hlt := hformat.likelihood_lt_fractional
  refine roundedQuotient_le_of_le_mul (Nat.two_pow_pos _) ?_
  calc T * P ≤ 2 ^ format.fractional * 2 ^ format.fractional := Nat.mul_le_mul hT hP
    _ = 2 ^ (2 * format.fractional) := by rw [← pow_add, two_mul]
    _ ≤ 2 ^ (2 * format.fractional - format.likelihoodFraction + q + format.likelihoodFraction) :=
        Nat.pow_le_pow_right two_pos (by omega)
    _ = _ := pow_add _ _ _

section Delta

variable {delta : Accum} (hfits : delta.toNat / format.step.toNat < 2 ^ 64)
include hfits

theorem expDiv_step : (expDiv delta ⟨format.step, 0⟩).1.toNat =
      delta.toNat / format.step.toNat ∧
    (expDiv delta ⟨format.step, 0⟩).2.low.toNat = delta.toNat % format.step.toNat := by
  have hdenominator : (⟨format.step, 0⟩ : Accum).toNat = format.step.toNat := toNat_word _
  obtain ⟨hk, hr⟩ := @expDiv_spec delta ⟨format.step, 0⟩
    (by rw [hdenominator]; exact hformat.step_pos) (by rw [hdenominator]; exact hfits)
  rw [hdenominator] at hk hr
  have hmod := Nat.mod_lt delta.toNat hformat.step_pos
  refine ⟨hk, ?_⟩
  have hlt : (expDiv delta ⟨format.step, 0⟩).2.toNat < 2 ^ 64 := by
    rw [hr]
    exact hmod.trans format.step.toNat_lt
  rw [← hr]
  rw [Accum.toNat] at hlt ⊢
  omega

/-- The polynomial of a run. -/
theorem toNat_polynomial :
    (expStage format (expDiv delta ⟨format.step, 0⟩).2.low format.degree).toInt =
        hornerMagnitude format (delta.toNat % format.step.toNat) format.degree ∧
      (expStage format (expDiv delta ⟨format.step, 0⟩).2.low format.degree).toNat =
        hornerMagnitude format (delta.toNat % format.step.toNat) format.degree ∧
      0 < hornerMagnitude format (delta.toNat % format.step.toNat) format.degree ∧
      hornerMagnitude format (delta.toNat % format.step.toNat) format.degree ≤
        2 ^ format.fractional := by
  obtain ⟨-, hr⟩ := expDiv_step hformat hfits
  have hle : (expDiv delta ⟨format.step, 0⟩).2.low.toNat ≤ format.step.toNat := by
    rw [hr]
    exact (Nat.mod_lt _ hformat.step_pos).le
  have hstage := toInt_expStage hformat.alternates hle format.degree le_rfl
  obtain ⟨hpos, hbound⟩ := hornerMagnitude_bounds hformat.alternates hle format.degree le_rfl
  have hone := hformat.alternates.magnitude_le (format.degree - format.degree) (Nat.sub_le _ _)
  have hpow : 2 ^ format.fractional ≤ 2 ^ 64 :=
    Nat.pow_le_pow_right (by norm_num) hformat.alternates.fractional_le
  rw [Nat.sub_self, hr] at hstage
  rw [hr] at hpos hbound
  have hvalue : (expStage format (expDiv delta ⟨format.step, 0⟩).2.low format.degree).toInt =
      hornerMagnitude format (delta.toNat % format.step.toNat) format.degree := hstage
  refine ⟨hvalue, ?_, hpos, hbound.trans hone⟩
  have hlt := (expStage format (expDiv delta ⟨format.step, 0⟩).2.low format.degree).toNat_lt
  rw [Accum.toInt] at hvalue
  split at hvalue <;> omega

/-- No stage leaves its range. -/
theorem expRanges : ExpRanges format delta := by
  obtain ⟨hk, hr⟩ := expDiv_step hformat hfits
  obtain ⟨hint, hnat, hpos, hle⟩ := toNat_polynomial hformat hfits
  have hpow : 2 ^ format.fractional ≤ 2 ^ 64 :=
    Nat.pow_le_pow_right (by norm_num) hformat.alternates.fractional_le
  have hword : 2 ^ format.likelihoodFraction < 2 ^ 64 :=
    Nat.pow_lt_pow_right one_lt_two hformat.likelihood_lt
  obtain ⟨-, hentry⟩ := entry_eq_cell hformat (expDiv delta ⟨format.step, 0⟩).1
  have hremainder : (expDiv delta ⟨format.step, 0⟩).2.low.toNat ≤ format.step.toNat := by
    rw [hr]
    exact (Nat.mod_lt _ hformat.step_pos).le
  refine ⟨hk, hr, fun n hn => expStep hformat.alternates hremainder hn, ?_, ?_, ?_, hentry, ?_, ?_,
    ?_⟩
  · exact expHorner_eq_expStage _ format.degree 0 (Nat.add_zero _)
  · rw [hint]
    exact_mod_cast hpos
  · rw [hint]
    exact_mod_cast hle
  · exact expPositiveProduct_none (hentry.trans hpow) (by rw [hnat]; exact hle.trans hpow)
  · intro product
    exact expPositiveProduct_some (hentry.trans hpow) (by rw [hnat]; exact hle.trans hpow)
  · rw [hnat]
    exact (rounded_le hformat hentry hle).trans_lt hword

/-! ## Accepted values -/

omit hformat hfits in
theorem expAccept_some {value result : UInt64} (h : expAccept format value = some result) :
    result = value ∧ 1 < result.toNat ∧ result.toNat ≤ format.likelihoodOne.toNat := by
  rw [expAccept] at h
  split at h
  · cases h
  · rename_i hguard
    cases h
    rw [not_or, gt_iff_lt, UInt64.le_iff_toNat_le, UInt64.lt_iff_toNat_lt, not_le, not_lt] at hguard
    exact ⟨rfl, hguard⟩

omit hformat hfits in
theorem roundedQuotient_mul_left (m : ℕ) {d : ℕ} (hd : 0 < d) :
    roundedQuotient (d * m) d = m := by
  refine le_antisymm (roundedQuotient_le_of_le_mul hd le_rfl) ((le_roundedQuotient_iff hd).mpr ?_)
  rw [Nat.mul_assoc, Nat.mul_comm m d]
  exact Nat.le_add_right _ _

omit hfits in
/-- The exact product of two ones is shifted without a rounding. -/
theorem shifted_one {q : ℕ} (hfull : 2 ^ 64 ≤ 2 ^ format.fractional)
    (hq : q < format.likelihoodFraction) :
    (format.likelihoodOne >>> UInt64.ofNat q).toNat = roundedQuotient (2 ^ 64 * 2 ^ 64)
      (2 ^ (2 * format.fractional - format.likelihoodFraction + q)) := by
  have hlt := hformat.likelihood_lt
  have hle := hformat.alternates.fractional_le
  have hfractional : format.fractional = 64 :=
    le_antisymm hle ((Nat.pow_le_pow_iff_right one_lt_two).mp hfull)
  have hshift : (UInt64.ofNat q).toNat = q := UInt64.toNat_ofNat_of_lt' (show q < 2 ^ 64 by omega)
  have hleft : 2 ^ format.likelihoodFraction / 2 ^ q = 2 ^ (format.likelihoodFraction - q) :=
    Nat.pow_div hq.le two_pos
  have hproduct : 2 ^ 64 * 2 ^ 64 =
      2 ^ (2 * format.fractional - format.likelihoodFraction + q) *
        2 ^ (format.likelihoodFraction - q) := by
    rw [← pow_add, ← pow_add, hfractional]
    congr 1
    omega
  rw [toNat_shiftRight_eq _ _ (by rw [hshift]; omega), hshift, hformat.likelihoodOne_eq, hleft,
    hproduct, roundedQuotient_mul_left _ (Nat.two_pow_pos _)]

/-- An accepted value is the rounded quotient, and the reduction passed its guard. -/
theorem expFixed_value {value : UInt64} (h : expFixed format delta = some value) :
    delta.toNat / format.step.toNat ≤ 32 * (format.likelihoodFraction + 1) ∧
      1 < value.toNat ∧ value.toNat ≤ 2 ^ format.likelihoodFraction ∧
      value.toNat = roundedQuotient
        (format.cell (delta.toNat / format.step.toNat % 32) *
          hornerMagnitude format (delta.toNat % format.step.toNat) format.degree)
        (2 ^ expShift format delta.toNat) := by
  have hranges := expRanges hformat hfits
  obtain ⟨hint, hnat, hpos, hle⟩ := toNat_polynomial hformat hfits
  obtain ⟨hcell, hentry⟩ := entry_eq_cell hformat (expDiv delta ⟨format.step, 0⟩).1
  have hquotient := hranges.quotient
  have hlikelihood := hformat.likelihood_lt
  have hlimit : (UInt64.ofNat (32 * (format.likelihoodFraction + 1))).toNat =
      32 * (format.likelihoodFraction + 1) :=
    UInt64.toNat_ofNat_of_lt' (show 32 * (format.likelihoodFraction + 1) < 2 ^ 64 by omega)
  have hshift : ((expDiv delta ⟨format.step, 0⟩).1 >>> 5).toNat =
      delta.toNat / format.step.toNat / 32 := by
    rw [toNat_shiftRight_eq _ _ (by decide), hquotient]
    rfl
  have hsign : lnNegative
      (expStage format (expDiv delta ⟨format.step, 0⟩).2.low format.degree) = false := by
    rw [← Bool.not_eq_true, lnNegative_iff, hint]
    omega
  rw [hquotient] at hcell
  rw [expFixed] at h
  dsimp only at h
  rw [hranges.polynomial, hsign, hshift] at h
  split at h
  · cases h
  rename_i hguard
  rw [gt_iff_lt, UInt64.lt_iff_toNat_lt, hlimit, hquotient, not_lt] at hguard
  rw [if_neg Bool.false_ne_true] at h
  refine ⟨hguard, ?_⟩
  split at h
  · -- both factors are one
    rename_i hproduct
    obtain ⟨hone, hpolynomial⟩ := hranges.product_none hproduct
    split at h
    · cases h
    rename_i hroom
    obtain ⟨rfl, hlarge, hsmall⟩ := expAccept_some h
    rw [hformat.likelihoodOne_eq] at hsmall
    refine ⟨hlarge, hsmall, ?_⟩
    rw [← hcell, ← hnat, hone, hpolynomial, expShift]
    exact shifted_one hformat (hone.symm.trans_le hentry) (not_le.mp hroom)
  · rename_i product hproduct
    have hvalue := hranges.product_some product hproduct
    split at h
    · cases h
    obtain ⟨rfl, hlarge, hsmall⟩ := expAccept_some h
    rw [hformat.likelihoodOne_eq] at hsmall
    refine ⟨hlarge, hsmall, ?_⟩
    have hrounded := hranges.rounded_fits
    rw [← hvalue] at hrounded
    rw [← expShift, toNat_pfQUround hrounded, hvalue, hcell, hnat]

/-- The budget of an accepted value. -/
theorem expFixed_close {value : UInt64} (h : expFixed format delta = some value) :
    |(value.toNat : ℝ) - 2 ^ format.likelihoodFraction *
        Real.exp (-(delta.toNat / 2 ^ format.fractional))| ≤
      1 / 2 + budget * (2 ^ format.likelihoodFraction *
        Real.exp (-(delta.toNat / 2 ^ format.fractional))) := by
  obtain ⟨hk, -, -, hvalue⟩ := expFixed_value hformat hfits h
  have hclose := kernel_close hformat hk
  have hlt := hformat.likelihood_lt_fractional
  have hround := abs_roundedQuotient_sub_real
    (format.cell (delta.toNat / format.step.toNat % 32) *
      hornerMagnitude format (delta.toNat % format.step.toNat) format.degree)
    (Nat.two_pow_pos (expShift format delta.toNat))
  have hunit : (0 : ℝ) < 2 ^ format.likelihoodFraction := by positivity
  have hpower : ((2 ^ expShift format delta.toNat : ℕ) : ℝ) * 2 ^ format.likelihoodFraction =
      expScale format ^ 2 * 2 ^ (delta.toNat / format.step.toNat / 32) := by
    rw [Nat.cast_pow, Nat.cast_ofNat, expScale_eq, ← pow_mul, ← pow_add, ← pow_add, expShift]
    congr 1
    omega
  have hscaled : ((format.cell (delta.toNat / format.step.toNat % 32) *
        hornerMagnitude format (delta.toNat % format.step.toNat) format.degree : ℕ) : ℝ) /
        (2 ^ expShift format delta.toNat : ℕ) = 2 ^ format.likelihoodFraction *
      ((format.cell (delta.toNat / format.step.toNat % 32) : ℝ) *
        hornerMagnitude format (delta.toNat % format.step.toNat) format.degree /
          (expScale format ^ 2 * 2 ^ (delta.toNat / format.step.toNat / 32))) := by
    rw [← hpower, Nat.cast_mul]
    field_simp
  rw [← hvalue, hscaled] at hround
  rw [← expScale_eq]
  have hlifted := mul_le_mul_of_nonneg_left hclose hunit.le
  rw [← abs_of_pos hunit, ← abs_mul, abs_of_pos hunit, mul_sub, mul_left_comm] at hlifted
  exact (abs_sub_le _ _ _).trans (add_le_add hround hlifted)

end Delta

end Kernel

/-- What the header of the exponential promises of a format: every accepted value is within half
a cell and a relative budget of the exponential, and no run leaves the ranges of its helpers. -/
structure ExpBudget (format : ExpFormat) (budget : ℚ) : Prop where
  accepted : ∀ (delta : Accum) (value : UInt64), delta.toNat / format.step.toNat < 2 ^ 64 →
    expFixed format delta = some value →
      1 < value.toNat ∧ value.toNat ≤ 2 ^ format.likelihoodFraction ∧
      |(value.toNat : ℝ) - 2 ^ format.likelihoodFraction *
          Real.exp (-(delta.toNat / 2 ^ format.fractional))| ≤
        1 / 2 + budget * (2 ^ format.likelihoodFraction *
          Real.exp (-(delta.toNat / 2 ^ format.fractional)))
  ranges : ∀ delta : Accum, delta.toNat / format.step.toNat < 2 ^ 64 → ExpRanges format delta

theorem ExpFormat.Accurate.expBudget {format : ExpFormat} {budget : ℚ}
    (hformat : format.Accurate budget) : ExpBudget format budget where
  accepted _ _ hfits hvalue := by
    obtain ⟨-, hlarge, hsmall, -⟩ := expFixed_value hformat hfits hvalue
    exact ⟨hlarge, hsmall, expFixed_close hformat hfits hvalue⟩
  ranges _ hfits := expRanges hformat hfits

/-- Both formats keep their declared budgets. -/
theorem exp_budgets : ExpBudget expQ15 (1 / 2 ^ 27) ∧ ExpBudget expQ31 (1 / 2 ^ 52) :=
  ⟨expQ15_accurate.expBudget, expQ31_accurate.expBudget⟩

end Xhive.Particles
