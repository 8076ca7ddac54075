import Xhive.Particles.WeightRuns
import Xhive.Particles.WideExact
import Xhive.Support.Reciprocals

/-!
# What reweighting stages

The loops of `reweight` after the exponents, for any weights and likelihoods:
every operation is exact, and the staged weights are the products scaled by
one rounded reciprocal of the largest.
-/

namespace Xhive.Particles

open Xhive.Support Xhive.Linears Xhive.Filters

variable {Q : Type} [LikelihoodFormat Q]

/-! ## The loops at given likelihoods -/

/-- The second and the third loop of `reweight`. -/
def normaliseProducts (weights : ℕ → Q) (likelihoods : ℕ → UInt64) (count : ℕ) (staged : ℕ → Q) :
    ℕ → Q :=
  let s := foldRange 0 count ((fun _ => 0), ⟨0, 0⟩) (productScan weights likelihoods)
  let shift := pfQUbits s.2
  let numerator := expShl ⟨weightWord (ParticleFormat.signalMax : Q), 0⟩ shift
  let multiplier := (expRoundDiv numerator s.2).toUInt32
  foldRange 0 count staged fun i staged =>
    Function.update staged i (reweightValue weights s.1 s.2 multiplier shift i)

/-- Reweighting after the least exponent is found. -/
theorem reweight_of_lowest {platform : WorkPlatform Q} {weights : ℕ → Q}
    {exponents : ℕ → WorkBits Q} {count : ℕ} {lowest : WorkBits Q}
    (h : forRange 0 count none (reweightLowest weights exponents) = .ok (some lowest))
    (staged : ℕ → Q) :
    reweight platform weights exponents count staged =
      .ok (normaliseProducts weights (reweightLikelihood platform weights exponents lowest) count
        staged) := by
  rw [reweight, h]
  rfl

/-! ## Exact products -/

/-- `weight * likelihood` of one particle. -/
def particleProduct (weights : ℕ → Q) (likelihoods : ℕ → UInt64) (i : ℕ) : ℕ :=
  (likelihoods i).toNat * weightCode (weights i)

/-- The largest product of the particles. -/
def largestProduct (weights : ℕ → Q) (likelihoods : ℕ → UInt64) (count : ℕ) : ℕ :=
  (Finset.range count).sup (particleProduct weights likelihoods)

/-- The largest code of a weight. -/
def maxCode (Q : Type) [LikelihoodFormat Q] : ℕ :=
  weightCode (ParticleFormat.signalMax : Q)

variable {weights : ℕ → Q} {likelihoods : ℕ → UInt64} {count : ℕ}

/-- Weights and likelihoods in range, and a product of them that is not zero. -/
structure Normalisable (weights : ℕ → Q) (likelihoods : ℕ → UInt64) (count : ℕ) : Prop where
  nonneg : ∀ i < count, 0 ≤ (QFormat.widen (weights i)).toInt
  likelihood : ∀ i < count, likelihoods i ≤ (LikelihoodFormat.expFormat Q).likelihoodOne
  positive : ∃ i < count, 0 < particleProduct weights likelihoods i

namespace Normalisable

theorem toNat_product (h : Normalisable weights likelihoods count) {i : ℕ} (hi : i < count) :
    (pfQUmul (likelihoods i) (weightWord (weights i))).toNat =
      particleProduct weights likelihoods i := by
  rw [toNat_pfQUmul, toNat_weightWord (h.nonneg i hi), particleProduct]

theorem largest_pos (h : Normalisable weights likelihoods count) :
    0 < largestProduct weights likelihoods count := by
  obtain ⟨i, hi, hpos⟩ := h.positive
  exact hpos.trans_le (Finset.le_sup (f := particleProduct weights likelihoods)
    (Finset.mem_range.mpr hi))

/-- The loop finds the largest product. -/
theorem scan_spec (h : Normalisable weights likelihoods count) :
    let s := foldRange 0 count ((fun _ => 0), ⟨0, 0⟩) (productScan weights likelihoods)
    (∀ i < count, s.1 i = likelihoods i) ∧ s.2.toNat = largestProduct weights likelihoods count := by
  obtain ⟨hslots, hle, hattained⟩ := productScan_loop weights likelihoods count
  refine ⟨hslots, le_antisymm ?_ (Finset.sup_le fun i hi => ?_)⟩
  · rcases hattained with hzero | ⟨i, hi, heq⟩
    · rw [hzero]
      exact Nat.zero_le _
    · rw [← heq, h.toNat_product hi]
      exact Finset.le_sup (f := particleProduct weights likelihoods) (Finset.mem_range.mpr hi)
  · rw [← h.toNat_product (Finset.mem_range.mp hi)]
    exact hle i (Finset.mem_range.mp hi)

end Normalisable

theorem particleProduct_le (hi : i < count) :
    particleProduct weights likelihoods i ≤ largestProduct weights likelihoods count :=
  Finset.le_sup (f := particleProduct weights likelihoods) (Finset.mem_range.mpr hi)

theorem particleProduct_lt (weights : ℕ → Q) (likelihoods : ℕ → UInt64) (i : ℕ) :
    particleProduct weights likelihoods i < 2 ^ 95 := by
  have hcode := weightCode_le (weights i)
  have hlikelihood := (likelihoods i).toNat_lt
  calc (likelihoods i).toNat * weightCode (weights i)
      ≤ (likelihoods i).toNat * 2 ^ 31 := Nat.mul_le_mul_left _ (by omega)
    _ < 2 ^ 64 * 2 ^ 31 := Nat.mul_lt_mul_of_pos_right hlikelihood (by norm_num)
    _ = 2 ^ 95 := by norm_num

theorem largestProduct_lt (weights : ℕ → Q) (likelihoods : ℕ → UInt64) (count : ℕ) :
    largestProduct weights likelihoods count < 2 ^ 95 :=
  (Finset.sup_lt_iff (by norm_num)).mpr fun i _ => particleProduct_lt weights likelihoods i

/-! ## One weight -/

section Value

variable {maximum : Accum} {W M : ℕ}

/-- The numerator and the multiplier of the source are exact. -/
theorem toNat_multiplier (hM : maximum.toNat = M) (hpos : 0 < M) (hlt : M < 2 ^ 95) :
    let numerator := expShl ⟨weightWord (ParticleFormat.signalMax : Q), 0⟩ (pfQUbits maximum)
    numerator.toNat = maxCode Q * 2 ^ M.size ∧
      (expRoundDiv numerator maximum).toNat = sharedReciprocal (maxCode Q) M ∧
      (expRoundDiv numerator maximum).toUInt32.toNat = sharedReciprocal (maxCode Q) M := by
  have hcode : maxCode Q ≤ 2 ^ 31 - 1 := weightCode_le _
  have hsize : M.size ≤ 95 := Nat.size_le.mpr hlt
  have hword : (weightWord (ParticleFormat.signalMax : Q)).toNat = maxCode Q := toNat_weightWord_max
  have hroom : maxCode Q * 2 ^ M.size < 2 ^ 128 := by
    calc maxCode Q * 2 ^ M.size ≤ (2 ^ 31 - 1) * 2 ^ 95 :=
          Nat.mul_le_mul hcode (Nat.pow_le_pow_right (by norm_num) hsize)
      _ < 2 ^ 128 := by norm_num
  have hnumerator := @toNat_expShl ⟨weightWord (ParticleFormat.signalMax : Q), 0⟩
    (pfQUbits maximum) (by rwa [toNat_word, hword, pfQUbits_eq, hM])
    (by rw [pfQUbits_eq, hM]; omega)
  rw [toNat_word, hword, pfQUbits_eq, hM] at hnumerator
  have hreciprocal := sharedReciprocal_le (W := maxCode Q) hpos
  have hrounded := @toNat_expRoundDiv
    (expShl ⟨weightWord (ParticleFormat.signalMax : Q), 0⟩ (pfQUbits maximum)) maximum (by omega) (by omega) (by
      rw [pfQUbits_eq, hM, hnumerator, ← sharedReciprocal]
      omega)
  dsimp only
  rw [pfQUbits_eq, hM] at hrounded ⊢
  rw [hnumerator, ← sharedReciprocal] at hrounded
  refine ⟨hnumerator, hrounded, ?_⟩
  rw [toNat_toUInt32_word, hrounded, Nat.mod_eq_of_lt (by omega)]

/-- Every product of the last loop fits. -/
theorem toNat_scaledProduct {product : Accum} {multiplier : UInt32} {p : ℕ}
    (hproduct : product.toNat = p) (hp : p ≤ M) (hlt : M < 2 ^ 95)
    (hmultiplier : multiplier.toNat = sharedReciprocal W M) :
    (pfQUmul32 product multiplier).toNat = p * sharedReciprocal W M := by
  rw [← hproduct, ← hmultiplier]
  apply toNat_pfQUmul32
  calc product.toNat * multiplier.toNat ≤ 2 ^ 95 * 2 ^ 32 :=
        Nat.mul_le_mul (by omega) multiplier.toNat_lt.le
    _ < 2 ^ 128 := by norm_num

/-- A product below the largest is rounded within one word. -/
theorem toNat_scaledValue {product : Accum} {multiplier : UInt32} {p : ℕ}
    (hproduct : product.toNat = p) (hpos : 0 < M) (hp : p < M) (hlt : M < 2 ^ 95)
    (hmultiplier : multiplier.toNat = sharedReciprocal W M) (hW : W < 2 ^ 31) :
    (pfQUround (pfQUmul32 product multiplier) M.size).toNat =
      roundedQuotient (p * sharedReciprocal W M) (2 ^ M.size) := by
  have hscaled := toNat_scaledProduct hproduct hp.le hlt hmultiplier
  have hreciprocal := sharedReciprocal_le (W := W) hpos
  have hsize := Nat.lt_size_self M
  have hrounded : roundedQuotient (p * sharedReciprocal W M) (2 ^ M.size) ≤ 2 * W + 1 := by
    rw [roundedQuotient_le_iff (Nat.two_pow_pos _)]
    calc 2 * (p * sharedReciprocal W M) ≤ 2 * (2 ^ M.size * (2 * W)) :=
          Nat.mul_le_mul_left 2 (Nat.mul_le_mul (by omega) hreciprocal)
      _ < (2 * (2 * W + 1) + 1) * 2 ^ M.size := by
        have := Nat.two_pow_pos M.size
        nlinarith
  rw [toNat_pfQUround (by rw [hscaled]; omega), hscaled]

/-- The new weight is the scaled product. -/
theorem toInt_reweightValue {weights : ℕ → Q} {slots : ℕ → UInt64} {multiplier : UInt32} {i p : ℕ}
    (hslot : LikelihoodFormat.cached Q (slots i) = slots i)
    (hproduct : (pfQUmul (slots i) (weightWord (weights i))).toNat = p)
    (hM : maximum.toNat = M) (hpos : 0 < M) (hp : p ≤ M) (hlt : M < 2 ^ 95)
    (hmultiplier : multiplier.toNat = sharedReciprocal (maxCode Q) M) :
    (QFormat.widen (reweightValue weights slots maximum multiplier (pfQUbits maximum) i)).toInt =
      scaleByReciprocal (maxCode Q) M p := by
  have hcode : maxCode Q ≤ 2 ^ 31 - 1 := weightCode_le _
  have hword : (weightWord (ParticleFormat.signalMax : Q)).toNat = maxCode Q := toNat_weightWord_max
  have hcmp := pfQUcmp_eq_zero_iff (pfQUmul (slots i) (weightWord (weights i))) maximum
  have hclamped : ∀ value : UInt64, min (maxCode Q) value.toNat =
      (if value > weightWord (ParticleFormat.signalMax : Q) then
        weightWord (ParticleFormat.signalMax : Q) else value).toNat := by
    intro value
    split
    · rename_i hgt
      rw [gt_iff_lt, UInt64.lt_iff_toNat_lt, hword] at hgt
      rw [hword, min_eq_left hgt.le]
    · rename_i hle
      rw [gt_iff_lt, UInt64.lt_iff_toNat_lt, hword, not_lt] at hle
      exact min_eq_right hle
  rw [hproduct, hM] at hcmp
  rw [reweightValue, hslot]
  rw [toInt_narrow_word, ← hclamped]
  · norm_cast
    rw [scaleByReciprocal]
    by_cases heq : p = M
    · rw [if_pos (hcmp.mpr heq), if_pos heq, hword, min_self]
    · rw [if_neg (fun h => heq (hcmp.mp h)), if_neg heq, pfQUbits_eq, hM,
        toNat_scaledValue hproduct hpos (by omega) hlt hmultiplier (by omega)]
  · rw [← hclamped]
    exact min_le_left _ _

end Value

/-! ## The staged weights -/

theorem Normalisable.toInt_normaliseProducts (h : Normalisable weights likelihoods count)
    (staged : ℕ → Q) {i : ℕ} (hi : i < count) :
    (QFormat.widen (normaliseProducts weights likelihoods count staged i)).toInt =
      scaleByReciprocal (maxCode Q) (largestProduct weights likelihoods count)
        (particleProduct weights likelihoods i) := by
  obtain ⟨hslots, hlargest⟩ := h.scan_spec
  have hlt := largestProduct_lt weights likelihoods count
  rw [normaliseProducts, foldRange_fill (fun _ _ h => h) _ _ _ i hi]
  apply toInt_reweightValue
  · rw [hslots i hi]
    exact LikelihoodFormat.cached_of_le _ (h.likelihood i hi)
  · rw [hslots i hi]
    exact h.toNat_product hi
  · exact hlargest
  · exact h.largest_pos
  · exact particleProduct_le hi
  · exact hlt
  · exact (toNat_multiplier (Q := Q) hlargest h.largest_pos hlt).2.2

/-- For any weights and likelihoods in range with a product that is not zero: the
shared multiplier fits 32 bits and no operation overflows; the largest product
is staged as the largest signal, every weight is in range and within one unit
of its exact share, zero stays zero, and the order of the products is kept.
This is what `reweight` stages at the likelihoods of its particles. -/
theorem reweighting_scales_to_largest (h : Normalisable weights likelihoods count)
    (staged : ℕ → Q) :
    let product := particleProduct weights likelihoods
    let largest := largestProduct weights likelihoods count
    let maximum := (foldRange 0 count ((fun _ => 0), ⟨0, 0⟩) (productScan weights likelihoods)).2
    let numerator := expShl ⟨weightWord (ParticleFormat.signalMax : Q), 0⟩ (pfQUbits maximum)
    let multiplier := expRoundDiv numerator maximum
    let result := normaliseProducts weights likelihoods count staged
    let code := fun i => (QFormat.widen (result i)).toInt
    (maximum.toNat = largest ∧ numerator.toNat = maxCode Q * 2 ^ pfQUbits maximum ∧
      multiplier.toNat = roundedQuotient numerator.toNat largest ∧ multiplier.toNat < 2 ^ 32 ∧
      ∀ i < count, (pfQUmul (likelihoods i) (weightWord (weights i))).toNat = product i ∧
        ∀ scaled, scaled = pfQUmul32 (pfQUmul (likelihoods i) (weightWord (weights i)))
            multiplier.toUInt32 →
          scaled.toNat = product i * multiplier.toNat ∧
          (product i < largest → (pfQUround scaled (pfQUbits maximum)).toNat =
            roundedQuotient scaled.toNat (2 ^ pfQUbits maximum))) ∧
    (∀ i < count, (product i = largest → result i = ParticleFormat.signalMax) ∧
      0 ≤ code i ∧ code i ≤ maxCode Q ∧
      |(code i : ℚ) - maxCode Q * product i / largest| < 1 ∧
      (product i = 0 → code i = 0) ∧
      ∀ j < count, product i ≤ product j → code i ≤ code j) ∧
    ∀ (platform : WorkPlatform Q) (exponents : ℕ → WorkBits Q) (lowest : WorkBits Q),
      forRange 0 count none (reweightLowest weights exponents) = .ok (some lowest) →
      likelihoods = reweightLikelihood platform weights exponents lowest →
      reweight platform weights exponents count staged = .ok result := by
  intro product largest maximum numerator multiplier result code
  have hpos : 0 < largest := h.largest_pos
  have hlt : largest < 2 ^ 95 := largestProduct_lt weights likelihoods count
  have hmaximum : maximum.toNat = largest := h.scan_spec.2
  have hcode : maxCode Q ≤ 2 ^ 31 - 1 := weightCode_le _
  have hreciprocal := sharedReciprocal_le (W := maxCode Q) hpos
  have hvalue : ∀ i < count, code i = scaleByReciprocal (maxCode Q) largest (product i) :=
    fun i hi => h.toInt_normaliseProducts staged hi
  obtain ⟨hnumerator, hmultiplier, hword⟩ := toNat_multiplier (Q := Q) hmaximum hpos hlt
  have hbits : pfQUbits maximum = largest.size := by rw [pfQUbits_eq, hmaximum]
  refine ⟨⟨hmaximum, hbits ▸ hnumerator, ?_, ?_, fun i hi => ⟨h.toNat_product hi, ?_⟩⟩,
    fun i hi => ⟨fun hproduct => ?_, ?_, ?_, ?_, fun hzero => ?_, fun j hj hle => ?_⟩, ?_⟩
  · rw [hmultiplier, hnumerator, sharedReciprocal]
  · rw [hmultiplier]
    omega
  · rintro scaled rfl
    have hscaled := toNat_scaledProduct (h.toNat_product hi) (particleProduct_le hi) hlt hword
    refine ⟨hscaled.trans (congrArg _ hmultiplier.symm), fun hbelow => ?_⟩
    rw [hscaled, hbits]
    exact toNat_scaledValue (h.toNat_product hi) hpos hbelow hlt hword (by omega)
  · apply FilterFormat.widen_injective
    have hmax := toInt_signalMax_pos Q
    refine (hvalue i hi).trans ?_
    rw [hproduct, scaleByReciprocal_self]
    exact Int.toNat_of_nonneg hmax.le
  · rw [hvalue i hi]
    exact Int.natCast_nonneg _
  · rw [hvalue i hi]
    exact_mod_cast scaleByReciprocal_le
  · rw [hvalue i hi, Int.cast_natCast]
    exact abs_scaleByReciprocal_sub_lt hpos (particleProduct_le hi)
  · rw [hvalue i hi, hzero, scaleByReciprocal_zero hpos, Nat.cast_zero]
  · rw [hvalue i hi, hvalue j hj]
    exact_mod_cast scaleByReciprocal_mono hle (particleProduct_le hj)
  · intro platform exponents lowest hfound heq
    rw [reweight_of_lowest hfound, ← heq]

/-- Half of the likelihood on half of the weight. -/
theorem reweighting_scales_to_largest_two :
    normaliseProducts (fun i => if i = 0 then (32767 : Int16) else 16384)
      (fun i => if i = 0 then 2147483648 else 1073741824) 2 (fun _ => 0) 0 =
        ParticleFormat.signalMax := by
  have hnormalisable : Normalisable (fun i => if i = 0 then (32767 : Int16) else 16384)
      (fun i => if i = 0 then 2147483648 else 1073741824) 2 :=
    ⟨by decide, by decide, 0, by decide, by decide⟩
  have hlargest : particleProduct (fun i => if i = 0 then (32767 : Int16) else 16384)
      (fun i => if i = 0 then 2147483648 else 1073741824) 0 =
        largestProduct (fun i => if i = 0 then (32767 : Int16) else 16384)
          (fun i => if i = 0 then 2147483648 else 1073741824) 2 := by decide
  exact ((reweighting_scales_to_largest hnormalisable fun _ => 0).2.1 0 (by decide)).1 hlargest

end Xhive.Particles
