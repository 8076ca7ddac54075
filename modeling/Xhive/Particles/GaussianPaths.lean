import Xhive.Particles.GaussianSums

/-!
# The native paths of the q15 solver

A path is taken where running maxima show that its sum fits 64 bits.  The
bounds themselves never wrap; behind them every partial sum is exact, and the
128-bit sum returns the same integer.
-/

namespace Xhive.Particles

open Xhive.Support Xhive.Linears
open Finset hiding orderEmbOfFin

/-! ## Slots -/

/-- The raw integer in a slot. -/
def rawInt (slot : UInt64) : ℤ :=
  (GaussianFormat.rawLoad Int16 slot).toInt

/-- The error bound in a slot. -/
def errorNat (slot : UInt64) : ℕ :=
  (GaussianFormat.errorLoad Int16 slot).toNat

theorem rawInt_bounds (slot : UInt64) : -2 ^ 31 ≤ rawInt slot ∧ rawInt slot ≤ 2 ^ 31 - 1 := by
  have hvalue : rawInt slot = slot.toUInt32.toInt32.toInt := Int32.toInt_toInt64 _
  rw [hvalue]
  exact ⟨Int32.le_toInt _, Int32.toInt_le _⟩

theorem natAbs_rawInt_le (slot : UInt64) : (rawInt slot).natAbs ≤ 2 ^ 31 := by
  have hbounds := rawInt_bounds slot
  omega

theorem toNat_magnitude_rawLoad (slot : UInt64) :
    (pfQMagnitude (GaussianFormat.rawLoad Int16 slot)).toNat = (rawInt slot).natAbs :=
  toNat_pfQMagnitude _

theorem rawLoad_neg_iff (slot : UInt64) : GaussianFormat.rawLoad Int16 slot < 0 ↔ rawInt slot < 0 :=
  lt_zero_iff_toInt _

theorem rawLoad_eq_zero_iff (slot : UInt64) :
    GaussianFormat.rawLoad Int16 slot = 0 ↔ rawInt slot = 0 := by
  rw [← Int64.toInt_inj]
  rfl

/-- A narrowed raw value is the raw value. -/
theorem nativeRaw_eq (slot : UInt64) : nativeRaw slot = GaussianFormat.rawLoad Int16 slot :=
  congrArg Int32.toInt64 (Int32.toInt32_toInt64 _)

theorem toInt_nativeRaw (slot : UInt64) : (nativeRaw slot).toInt = rawInt slot := by
  rw [nativeRaw_eq, rawInt]

theorem toNat_nativeMagnitude (slot : UInt64) :
    (nativeMagnitude slot).toNat = (rawInt slot).natAbs := by
  have hle := natAbs_rawInt_le slot
  rw [nativeMagnitude, nativeRaw_eq, toNat_toUInt64_word, toNat_toUInt32_word,
    toNat_magnitude_rawLoad, Nat.mod_eq_of_lt (by omega)]

theorem nativeMagnitude_eq (slot : UInt64) :
    nativeMagnitude slot = pfQMagnitude (GaussianFormat.rawLoad Int16 slot) := by
  rw [← UInt64.toNat_inj, toNat_nativeMagnitude, toNat_magnitude_rawLoad]

theorem errorNat_lt (slot : UInt64) : errorNat slot < 2 ^ 32 := by
  have hword : errorNat slot = slot.toUInt32.toNat := toNat_toUInt64_word _
  rw [hword]
  exact slot.toUInt32.toNat_lt

theorem toNat_nativeError (slot : UInt64) : (nativeError slot).toNat = errorNat slot := by
  have hlt := errorNat_lt slot
  rw [nativeError, toNat_toUInt64_word, toNat_toUInt32_word, errorNat] at *
  exact Nat.mod_eq_of_lt hlt

theorem nativeError_eq (slot : UInt64) :
    nativeError slot = GaussianFormat.errorLoad Int16 slot := by
  rw [← UInt64.toNat_inj, toNat_nativeError, errorNat]

/-- A product of two raw values. -/
theorem toInt_nativeProduct (x y : UInt64) :
    (nativeRaw x * nativeRaw y).toInt = rawInt x * rawInt y := by
  have hx := natAbs_rawInt_le x
  have hy := natAbs_rawInt_le y
  have hproduct : (rawInt x * rawInt y).natAbs ≤ 2 ^ 31 * 2 ^ 31 := by
    rw [Int.natAbs_mul]
    exact Nat.mul_le_mul hx hy
  have hfits : FitsInt64 (rawInt x * rawInt y) := by
    constructor <;> omega
  rw [← toInt_nativeRaw x, ← toInt_nativeRaw y] at *
  exact toInt_mul_of_fits hfits

theorem rawProduct_eq (x y : UInt64) :
    GaussianFormat.rawProduct Int16 x y = ⟨x * y, 0⟩ :=
  rfl

/-- A product of two magnitudes. -/
theorem toNat_magnitudeProduct (x y : UInt64) :
    (pfQMagnitude (GaussianFormat.rawLoad Int16 x) *
      pfQMagnitude (GaussianFormat.rawLoad Int16 y)).toNat =
        (rawInt x * rawInt y).natAbs := by
  have hx := toNat_magnitude_rawLoad x
  have hy := toNat_magnitude_rawLoad y
  have hproduct := Nat.mul_le_mul (natAbs_rawInt_le x) (natAbs_rawInt_le y)
  rw [← hx, ← hy] at hproduct
  rw [toNat_mul_of_fits (by omega), hx, hy, Int.natAbs_mul]

/-- The sign of a product that is not zero. -/
theorem sign_rawProduct {x y : UInt64} (h : rawInt x * rawInt y ≠ 0) :
    (decide (GaussianFormat.rawLoad Int16 x < 0) != decide (GaussianFormat.rawLoad Int16 y < 0)) =
      decide (rawInt x * rawInt y < 0) := by
  obtain ⟨hx, hy⟩ := mul_ne_zero_iff.mp h
  rw [Bool.eq_iff_iff]
  simp only [bne_iff_ne, ne_eq, decide_eq_decide, decide_eq_true_iff, rawLoad_neg_iff, mul_neg_iff]
  omega

/-! ## Dot products -/

/-- What a conversion records of the raw values that it has stored. -/
structure Certified (raw : ℕ → UInt64) (scale : GaussianScale) (count : ℕ) : Prop where
  maximum_le : scale.maximum.toNat ≤ 2 ^ 31
  magnitude_le : ∀ i < count, (rawInt (raw i)).natAbs ≤ scale.maximum.toNat

/-- Every 64-bit value of a dot product and of its bounds is exact. -/
structure DotExact (a : ℕ → UInt64) (sa : GaussianScale) (b : ℕ → UInt64) (sb : GaussianScale)
    (count : ℕ) : Prop where
  maximum : (dotMaximum sa sb).toNat = sa.maximum.toNat * sb.maximum.toNat
  error_term : (dotErrorTerm sa sb).toNat =
    (if sb.exact then 0 else sa.maximum.toNat) + (if sa.exact then 0 else sb.maximum.toNat) +
      if sa.exact ∨ sb.exact then 0 else 1
  products : ∀ i < count, (nativeRaw (a i) * nativeRaw (b i)).toInt = rawInt (a i) * rawInt (b i)
  sums : dotFits sa sb count → ∀ n ≤ count,
    (nativeDot a b n).toInt = ∑ i ∈ range n, rawInt (a i) * rawInt (b i)

section Dot

variable {a b : ℕ → UInt64} {sa sb : GaussianScale} {count : ℕ}

theorem toNat_dotMaximum (ha : Certified a sa count) (hb : Certified b sb count) :
    (dotMaximum sa sb).toNat = sa.maximum.toNat * sb.maximum.toNat := by
  have hproduct := Nat.mul_le_mul ha.maximum_le hb.maximum_le
  have hsa := toNat_toUInt64_word sa.maximum
  have hsb := toNat_toUInt64_word sb.maximum
  rw [dotMaximum, toNat_mul_of_fits (by rw [hsa, hsb]; omega), hsa, hsb]

theorem toNat_dotErrorTerm (ha : Certified a sa count) (hb : Certified b sb count) :
    (dotErrorTerm sa sb).toNat =
      (if sb.exact then 0 else sa.maximum.toNat) + (if sa.exact then 0 else sb.maximum.toNat) +
        if sa.exact ∨ sb.exact then 0 else 1 := by
  have hsa := ha.maximum_le
  have hsb := hb.maximum_le
  have hone : (1 : UInt64).toNat = 1 := rfl
  rw [dotErrorTerm]
  cases sa.exact <;> cases sb.exact <;>
    simp only [Bool.not_true, Bool.not_false, Bool.and_true, Bool.true_and, Bool.and_self, if_true,
      if_false, Bool.false_eq_true, or_true, or_false, UInt64.toNat_add, UInt64.toNat_zero,
      toNat_toUInt64_word, hone] <;> omega

theorem dotFits_iff : dotFits sa sb count = true ↔
    (pfQUmul (dotMaximum sa sb) (UInt64.ofNat count)).high = 0 ∧
      (pfQUmul (dotMaximum sa sb) (UInt64.ofNat count)).low ≤ 0x7fffffffffffffff ∧
      (pfQUmul (dotErrorTerm sa sb) (UInt64.ofNat count)).high = 0 ∧
      scaledLeOne ⟨(pfQUmul (dotErrorTerm sa sb) (UInt64.ofNat count)).low, 0⟩
        (dotExponent Int16 sa sb) = true :=
  decide_eq_true_iff

theorem nativeDot_exact (ha : Certified a sa count) (hb : Certified b sb count)
    (hcount : count < 2 ^ 64) (hfits : dotFits sa sb count = true) :
    ∀ n ≤ count, (nativeDot a b n).toInt = ∑ i ∈ range n, rawInt (a i) * rawInt (b i) := by
  obtain ⟨hhigh, hlow, -, -⟩ := dotFits_iff.mp hfits
  have hmax : (0x7fffffffffffffff : UInt64).toNat = 2 ^ 63 - 1 := rfl
  rw [UInt64.le_iff_toNat_le, hmax, toNat_low_pfQUmul hhigh, toNat_dotMaximum ha hb,
    toNat_ofNat_count hcount] at hlow
  have hterm : ∀ i < count, |(nativeRaw (a i) * nativeRaw (b i)).toInt| ≤
      ((sa.maximum.toNat * sb.maximum.toNat : ℕ) : ℤ) := by
    intro i hi
    rw [toInt_nativeProduct, Int.abs_eq_natAbs, Int.natAbs_mul]
    exact_mod_cast Nat.mul_le_mul (ha.magnitude_le i hi) (hb.magnitude_le i hi)
  have hroom : (count : ℤ) * ((sa.maximum.toNat * sb.maximum.toNat : ℕ) : ℤ) < 2 ^ 63 := by
    rw [mul_comm]
    exact_mod_cast Nat.lt_of_le_sub_one (Nat.two_pow_pos 63) hlow
  intro n hn
  rw [nativeDot, toInt_narrow_loop hterm hroom n hn]
  exact sum_congr rfl fun i _ => toInt_nativeProduct (a i) (b i)

theorem dot_exact (ha : Certified a sa count) (hb : Certified b sb count)
    (hcount : count < 2 ^ 64) : DotExact a sa b sb count where
  maximum := toNat_dotMaximum ha hb
  error_term := toNat_dotErrorTerm ha hb
  products i _ := toInt_nativeProduct (a i) (b i)
  sums hfits := nativeDot_exact ha hb hcount hfits

/-! ### The 128-bit sum -/

/-- A certificate holds of every smaller value. -/
theorem scaledLeOne_mono {value value' : Accum} {shift : ℤ} (hle : value.toNat ≤ value'.toNat)
    (h : scaledLeOne value' shift = true) : scaledLeOne value shift = true := by
  have hzero : ∀ x : Accum, (x.low = 0 ∧ x.high = 0) ↔ x.toNat = 0 := by
    intro x
    rw [word_eq_zero_iff, word_eq_zero_iff, Accum.toNat]
    omega
  have hone : ∀ x : Accum, (x.high = 0 ∧ x.low ≤ 1) ↔ x.toNat ≤ 1 := by
    intro x
    rw [word_eq_zero_iff, UInt64.le_iff_toNat_le, Accum.toNat, UInt64.toNat_one]
    omega
  rw [scaledLeOne] at h ⊢
  by_cases hvalue : value.low = 0 ∧ value.high = 0
  · rw [if_pos hvalue]
  have hvalue' : ¬(value'.low = 0 ∧ value'.high = 0) := by
    rw [hzero] at hvalue ⊢
    omega
  rw [if_neg hvalue'] at h
  rw [if_neg hvalue]
  split_ifs at h ⊢ with hpositive hexact hsmall
  · rw [decide_eq_true_iff, hone] at h ⊢
    omega
  · rfl
  · rw [decide_eq_true_iff, ← not_lt, pfQUcmp_pos_iff] at h ⊢
    omega

/-- What one product adds to the error. -/
def dotErrorStep (a : ℕ → UInt64) (sa : GaussianScale) (b : ℕ → UInt64) (sb : GaussianScale)
    (i : ℕ) : UInt64 :=
  (if !sb.exact then pfQMagnitude (GaussianFormat.rawLoad Int16 (a i)) else 0) +
    (if !sa.exact then pfQMagnitude (GaussianFormat.rawLoad Int16 (b i)) else 0) +
    if !sa.exact && !sb.exact then 1 else 0

/-- The error after `n` products. -/
def dotError (a : ℕ → UInt64) (sa : GaussianScale) (b : ℕ → UInt64) (sb : GaussianScale)
    (n : ℕ) : UInt64 :=
  foldRange 0 n 0 fun i error => error + dotErrorStep a sa b sb i

theorem toNat_dotErrorStep (i : ℕ) : (dotErrorStep a sa b sb i).toNat =
    (if !sb.exact then pfQMagnitude (GaussianFormat.rawLoad Int16 (a i)) else 0).toNat +
      (if !sa.exact then pfQMagnitude (GaussianFormat.rawLoad Int16 (b i)) else 0).toNat +
        (if !sa.exact && !sb.exact then (1 : UInt64) else 0).toNat := by
  have hword : ∀ (c : Bool) (x : UInt64), x.toNat ≤ 2 ^ 31 →
      (if c then x else 0).toNat ≤ 2 ^ 31 := by
    intro c x hx
    cases c
    · exact Nat.zero_le _
    · exact hx
  have hx := hword (!sb.exact) _ ((toNat_magnitude_rawLoad (a i)).trans_le (natAbs_rawInt_le (a i)))
  have hy := hword (!sa.exact) _ ((toNat_magnitude_rawLoad (b i)).trans_le (natAbs_rawInt_le (b i)))
  have hz := hword (!sa.exact && !sb.exact) 1 (by decide)
  rw [dotErrorStep]
  generalize (if !sb.exact then pfQMagnitude (GaussianFormat.rawLoad Int16 (a i)) else 0) = x at *
  generalize (if !sa.exact then pfQMagnitude (GaussianFormat.rawLoad Int16 (b i)) else 0) = y at *
  generalize (if !sa.exact && !sb.exact then (1 : UInt64) else 0) = z at *
  have hxy : (x + y).toNat = x.toNat + y.toNat := toNat_add_of_fits (by omega)
  rw [toNat_add_of_fits (by omega), hxy]

theorem toNat_dotErrorStep_le (ha : Certified a sa count) (hb : Certified b sb count) {i : ℕ}
    (hi : i < count) : (dotErrorStep a sa b sb i).toNat ≤ (dotErrorTerm sa sb).toNat := by
  have hx := ha.magnitude_le i hi
  have hy := hb.magnitude_le i hi
  have hone : (1 : UInt64).toNat = 1 := rfl
  rw [toNat_dotErrorStep, toNat_dotErrorTerm ha hb]
  cases sa.exact <;> cases sb.exact <;>
    simp only [Bool.not_true, Bool.not_false, Bool.and_true, Bool.true_and, Bool.and_self, if_true,
      if_false, Bool.false_eq_true, or_true, or_false, UInt64.toNat_zero,
      toNat_magnitude_rawLoad, hone] <;> omega

theorem dotTerm_native {sum : Int64} {error : UInt64} {i : ℕ}
    (hsum : FitsInt64 (sum.toInt + rawInt (a i) * rawInt (b i)))
    (herror : error.toNat + (dotErrorStep a sa b sb i).toNat < 2 ^ 64) :
    dotTerm Int16 a sa b sb i (nativeWide sum, ⟨error, 0⟩) =
      .ok (nativeWide (sum + nativeRaw (a i) * nativeRaw (b i)),
        ⟨error + dotErrorStep a sa b sb i, 0⟩) := by
  have hproduct := toInt_nativeProduct (a i) (b i)
  rw [← hproduct] at hsum
  have hadd := addWide_native (by rw [toNat_magnitudeProduct, hproduct])
    (by rw [hproduct]; exact sign_rawProduct) hsum
  have hstep := @toNat_dotErrorStep a b sa sb i
  rw [hstep] at herror
  rw [dotErrorStep]
  generalize hx : (if !sb.exact then pfQMagnitude (GaussianFormat.rawLoad Int16 (a i)) else 0) = x
    at *
  generalize hy : (if !sa.exact then pfQMagnitude (GaussianFormat.rawLoad Int16 (b i)) else 0) = y
    at *
  generalize hz : (if !sa.exact && !sb.exact then (1 : UInt64) else 0) = z at *
  have hfirst : (error + x).toNat = error.toNat + x.toNat := toNat_add_of_fits (by omega)
  have hsecond : (error + x + y).toNat = error.toNat + x.toNat + y.toNat := by
    rw [toNat_add_of_fits (by omega), hfirst]
  rw [dotTerm, rawProduct_eq]
  dsimp only
  rw [hadd, orStop, ok_bind, addWhen_word (by rw [hx]; omega), hx, ok_bind,
    addWhen_word (by rw [hy]; omega), hy, ok_bind, addWhen_word (by rw [hz]; omega), hz, ok_bind,
    UInt64.add_assoc, UInt64.add_assoc, UInt64.add_assoc]

theorem sum_dotErrorStep_le (ha : Certified a sa count) (hb : Certified b sb count)
    (hcount : count < 2 ^ 64)
    (hhigh : (pfQUmul (dotErrorTerm sa sb) (UInt64.ofNat count)).high = 0) :
    ∑ i ∈ range count, (dotErrorStep a sa b sb i).toNat ≤
      (pfQUmul (dotErrorTerm sa sb) (UInt64.ofNat count)).low.toNat := by
  rw [toNat_low_pfQUmul hhigh, toNat_ofNat_count hcount]
  exact sum_le_mul_of_le fun i hi => toNat_dotErrorStep_le ha hb hi

/-- The two dot products return the same integer. -/
theorem dotTry_eq_dotWide (ha : Certified a sa count) (hb : Certified b sb count)
    (hcount : count < 2 ^ 64) : dotTry a sa b sb count = dotWide Int16 a sa b sb count := by
  rw [dotTry]
  by_cases hfits : dotFits sa sb count = true
  · have hdot := nativeDot_exact ha hb hcount hfits
    obtain ⟨-, -, hhigh, hcertified⟩ := dotFits_iff.mp hfits
    have hbound := sum_dotErrorStep_le ha hb hcount hhigh
    have hword := (pfQUmul (dotErrorTerm sa sb) (UInt64.ofNat count)).low.toNat_lt
    have herror := @toNat_sum_loop 0 (dotErrorStep a sa b sb) count
      (by rw [UInt64.toNat_zero]; omega)
    have hcourse : ∀ i < count,
        dotTerm Int16 a sa b sb i (nativeWide (nativeDot a b i), ⟨dotError a sa b sb i, 0⟩) =
          .ok (nativeWide (nativeDot a b (i + 1)), ⟨dotError a sa b sb (i + 1), 0⟩) := by
      intro i hi
      have hnext := hdot (i + 1) hi
      have herrors := herror (i + 1) hi
      rw [sum_range_succ, ← hdot i (by omega)] at hnext
      rw [sum_range_succ, ← add_assoc, ← herror i (by omega)] at herrors
      have hlt := (foldRange 0 (i + 1) 0 fun j sum => sum + dotErrorStep a sa b sb j).toNat_lt
      rw [dotTerm_native (by rw [← hnext]; exact fitsInt64_toInt _) (by rw [dotError]; omega)]
      rw [nativeDot, nativeDot, dotError, dotError, foldRange_succ (Nat.zero_le i),
        foldRange_succ (Nat.zero_le i)]
    have hrun := @forRange_along SolverExit _ _ _
      (fun i => (nativeWide (nativeDot a b i), (⟨dotError a sa b sb i, 0⟩ : Accum))) hcourse
    have hle : (⟨dotError a sa b sb count, 0⟩ : Accum).toNat ≤
        (⟨(pfQUmul (dotErrorTerm sa sb) (UInt64.ofNat count)).low, 0⟩ : Accum).toNat := by
      rw [toNat_word, toNat_word, dotError, herror count le_rfl, UInt64.toNat_zero, Nat.zero_add]
      exact hbound
    have hstart : forRange 0 count (⟨⟨0, 0⟩, false⟩, ⟨0, 0⟩) (dotTerm Int16 a sa b sb) =
        .ok (nativeWide (nativeDot a b count), ⟨dotError a sa b sb count, 0⟩) := hrun
    rw [if_pos hfits, dotWide, hstart, ok_bind, if_pos (scaledLeOne_mono hle hcertified)]
  · rw [if_neg hfits]

end Dot

/-! ## Rows -/

/-- What holds of the solved unknowns and of their errors. -/
structure Solved (s : SolverState) (unknowns errors : ℕ) : Prop where
  zmax_le : s.zmax.toNat ≤ 2 ^ 31
  emax_le : s.emax.toNat ≤ 2 ^ 32 - 1
  magnitude_le : ∀ j < unknowns, (rawInt (s.z j)).natAbs ≤ s.zmax.toNat
  error_le : ∀ j < errors, errorNat (s.error j) ≤ s.emax.toNat

/-- What the conversions record of a system: its lower triangle and its right side. -/
structure SystemCertified (input : SolverInput) : Prop where
  factor : ∀ i < input.k, Certified (fun j => input.a (i * input.k + j)) input.sa (i + 1)
  vector : Certified input.b input.sb input.k
  size : input.k < 2 ^ 64

/-- Every 64-bit value of a numerator and of its bound is exact. -/
structure NumeratorExact (input : SolverInput) (fractional i : ℕ) (s : SolverState) : Prop where
  initial : (numeratorInitial input fractional).toNat = input.sb.maximum.toNat * 2 ^ fractional
  room : numeratorInitial input fractional ≤ 0x7fffffffffffffff
  product : (numeratorProduct input s).toNat = input.sa.maximum.toNat * s.zmax.toNat
  right : (nativeRaw (input.b i) * (1 <<< Int64.ofNat fractional)).toInt =
    rawInt (input.b i) * 2 ^ fractional
  products : ∀ j < i, (nativeRaw (input.a (i * input.k + j)) * nativeRaw (s.z j)).toInt =
    rawInt (input.a (i * input.k + j)) * rawInt (s.z j)
  sums : numeratorFits input fractional i s → ∀ n ≤ (if input.sa.diagonal then 0 else i),
    (nativeNumerator input fractional i s n).toInt = rawInt (input.b i) * 2 ^ fractional -
      ∑ j ∈ range n, rawInt (input.a (i * input.k + j)) * rawInt (s.z j)

section Rows

variable {input : SolverInput} {fractional i : ℕ} {s : SolverState}

theorem toNat_numeratorInitial (h : SystemCertified input) (hf : fractional ≤ 30) :
    (numeratorInitial input fractional).toNat = input.sb.maximum.toNat * 2 ^ fractional ∧
      input.sb.maximum.toNat * 2 ^ fractional ≤ 2 ^ 61 := by
  have hle : input.sb.maximum.toNat * 2 ^ fractional ≤ 2 ^ 31 * 2 ^ 30 :=
    Nat.mul_le_mul h.vector.maximum_le (Nat.pow_le_pow_right two_pos hf)
  have hword := toNat_toUInt64_word input.sb.maximum
  refine ⟨?_, hle⟩
  rw [numeratorInitial, toNat_shiftLeft_of_fits (by omega) (by rw [hword]; omega), hword]

theorem toNat_numeratorProduct (hmax : input.sa.maximum.toNat ≤ 2 ^ 31)
    (hz : s.zmax.toNat ≤ 2 ^ 31) :
    (numeratorProduct input s).toNat = input.sa.maximum.toNat * s.zmax.toNat := by
  have hproduct := Nat.mul_le_mul hmax hz
  have hword := toNat_toUInt64_word input.sa.maximum
  rw [numeratorProduct, toNat_mul_of_fits (by rw [hword]; omega), hword]

theorem toInt_scaledRight (slot : UInt64) (hf : fractional ≤ 30) :
    (nativeRaw slot * (1 <<< Int64.ofNat fractional)).toInt = rawInt slot * 2 ^ fractional := by
  have hpower : ∀ f < 31, ((1 : Int64) <<< Int64.ofNat f).toInt = 2 ^ f := by decide
  have hshift := hpower fractional (by omega)
  have hle : (rawInt slot * 2 ^ fractional).natAbs ≤ 2 ^ 31 * 2 ^ 30 := by
    rw [Int.natAbs_mul, Int.natAbs_pow]
    exact Nat.mul_le_mul (natAbs_rawInt_le slot) (Nat.pow_le_pow_right two_pos hf)
  have hfits : FitsInt64 (rawInt slot * 2 ^ fractional) := by
    constructor <;> omega
  rw [← toInt_nativeRaw slot, ← hshift] at hfits ⊢
  exact toInt_mul_of_fits hfits

/-- What the bound of a numerator allows. -/
theorem numerator_room (h : SystemCertified input) (hf : fractional ≤ 30) (hi : i < input.k)
    (hz : s.zmax.toNat ≤ 2 ^ 31) (hfits : numeratorFits input fractional i s = true) :
    input.sb.maximum.toNat * 2 ^ fractional + (if input.sa.diagonal then 0 else i) *
      (input.sa.maximum.toNat * s.zmax.toNat) < 2 ^ 63 := by
  obtain ⟨hinitial, hle⟩ := toNat_numeratorInitial h hf
  have hproduct := toNat_numeratorProduct (h.factor i hi).maximum_le hz
  have hcount := toNat_ofNat_count (hi.trans h.size)
  have hmax : (0x7fffffffffffffff : UInt64).toNat = 2 ^ 63 - 1 := rfl
  have hroom : (0x7fffffffffffffff - numeratorInitial input fractional).toNat =
      2 ^ 63 - 1 - input.sb.maximum.toNat * 2 ^ fractional := by
    rw [UInt64.toNat_sub_of_le _ _ (UInt64.le_iff_toNat_le.mpr (by rw [hinitial, hmax]; omega)),
      hinitial, hmax]
  rw [numeratorFits, decide_eq_true_iff] at hfits
  cases hdiagonal : input.sa.diagonal with
  | true =>
      rw [if_pos rfl, Nat.zero_mul]
      omega
  | false =>
      rw [hdiagonal, if_neg Bool.false_ne_true] at hfits
      obtain ⟨hhigh, hlow⟩ := hfits
      rw [UInt64.le_iff_toNat_le, hroom, toNat_low_pfQUmul hhigh, hproduct, hcount] at hlow
      rw [if_neg Bool.false_ne_true, mul_comm i]
      omega

theorem nativeNumerator_exact (h : SystemCertified input) (hf : fractional ≤ 30) (hi : i < input.k)
    {errors : ℕ} (hs : Solved s i errors) (hfits : numeratorFits input fractional i s = true) :
    ∀ n ≤ (if input.sa.diagonal then 0 else i),
      (nativeNumerator input fractional i s n).toInt = rawInt (input.b i) * 2 ^ fractional -
        ∑ j ∈ range n, rawInt (input.a (i * input.k + j)) * rawInt (s.z j) := by
  have hroom := numerator_room h hf hi hs.zmax_le hfits
  have hright := @toInt_scaledRight fractional (input.b i) hf
  generalize hcount : (if input.sa.diagonal then 0 else i) = count at hroom ⊢
  have hle : count ≤ i := by
    rw [← hcount]
    split <;> omega
  have hterm : ∀ j < count,
      |(nativeRaw (input.a (i * input.k + j)) * nativeRaw (s.z j)).toInt| ≤
        ((input.sa.maximum.toNat * s.zmax.toNat : ℕ) : ℤ) := by
    intro j hj
    rw [toInt_nativeProduct, Int.abs_eq_natAbs, Int.natAbs_mul]
    exact_mod_cast Nat.mul_le_mul ((h.factor i hi).magnitude_le j (by omega))
      (hs.magnitude_le j (by omega))
  have hinit : |rawInt (input.b i) * 2 ^ fractional| ≤
      ((input.sb.maximum.toNat * 2 ^ fractional : ℕ) : ℤ) := by
    rw [Int.abs_eq_natAbs, Int.natAbs_mul, Int.natAbs_pow]
    exact_mod_cast Nat.mul_le_mul_right _ (h.vector.magnitude_le i hi)
  intro n hn
  rw [nativeNumerator, toInt_difference_loop hterm _ n hn, hright]
  · exact congrArg _ (sum_congr rfl fun j _ => toInt_nativeProduct _ _)
  · rw [hright]
    have hcast : ((input.sb.maximum.toNat * 2 ^ fractional : ℕ) : ℤ) +
        count * ((input.sa.maximum.toNat * s.zmax.toNat : ℕ) : ℤ) < 2 ^ 63 := by
      exact_mod_cast hroom
    linarith

theorem numerator_exact (h : SystemCertified input) (hf : fractional ≤ 30) (hi : i < input.k)
    {errors : ℕ} (hs : Solved s i errors) : NumeratorExact input fractional i s where
  initial := (toNat_numeratorInitial h hf).1
  room := by
    obtain ⟨hinitial, hle⟩ := toNat_numeratorInitial h hf
    have hmax : (0x7fffffffffffffff : UInt64).toNat = 2 ^ 63 - 1 := rfl
    rw [UInt64.le_iff_toNat_le, hinitial, hmax]
    omega
  product := toNat_numeratorProduct (h.factor i hi).maximum_le hs.zmax_le
  right := toInt_scaledRight (input.b i) hf
  products j _ := toInt_nativeProduct (input.a (i * input.k + j)) (s.z j)
  sums hfits := nativeNumerator_exact h hf hi hs hfits

/-- The sign of a product that is subtracted. -/
theorem sign_rawDifference {x y : UInt64} (h : rawInt x * rawInt y ≠ 0) :
    decide (GaussianFormat.rawLoad Int16 x ≠ 0 ∧ GaussianFormat.rawLoad Int16 y ≠ 0 ∧
      (!(decide (GaussianFormat.rawLoad Int16 x < 0) !=
        decide (GaussianFormat.rawLoad Int16 y < 0))) = true) =
      decide (-(rawInt x * rawInt y) < 0) := by
  obtain ⟨hx, hy⟩ := mul_ne_zero_iff.mp h
  rw [sign_rawProduct h]
  apply decide_eq_decide.mpr
  simp only [ne_eq, rawLoad_eq_zero_iff, hx, hy, not_false_eq_true, true_and, Bool.not_eq_true',
    decide_eq_false_iff_not]
  omega

/-- The 128-bit numerator of a right side alone. -/
theorem addWide_right (slot : UInt64) (hf : fractional ≤ 30) :
    ∃ product, shiftLeftChecked ⟨pfQMagnitude (GaussianFormat.rawLoad Int16 slot), 0⟩ fractional =
        some product ∧
      addWide ⟨⟨0, 0⟩, false⟩ product (GaussianFormat.rawLoad Int16 slot < 0) =
        some (nativeWide (nativeRaw slot * (1 <<< Int64.ofNat fractional))) := by
  have hvalue := toInt_scaledRight slot hf
  have hmagnitude := toNat_magnitude_rawLoad slot
  have hpos : (0 : ℤ) < 2 ^ fractional := by positivity
  have hle : (rawInt slot).natAbs * 2 ^ fractional ≤ 2 ^ 31 * 2 ^ 30 :=
    Nat.mul_le_mul (natAbs_rawInt_le slot) (Nat.pow_le_pow_right two_pos hf)
  have hadd := @addWide_native 0 (nativeRaw slot * (1 <<< Int64.ofNat fractional))
    (pfQMagnitude (GaussianFormat.rawLoad Int16 slot) <<< UInt64.ofNat fractional)
    (GaussianFormat.rawLoad Int16 slot < 0)
    (by
      rw [toNat_shiftLeft_of_fits (by omega) (by rw [hmagnitude]; omega), hmagnitude, hvalue,
        Int.natAbs_mul, Int.natAbs_pow]
      rfl)
    (by
      intro _
      rw [hvalue]
      apply decide_eq_decide.mpr
      rw [rawLoad_neg_iff, mul_neg_iff]
      constructor
      · exact fun hneg => Or.inr ⟨hneg, hpos⟩
      · rintro (⟨-, habsurd⟩ | ⟨hneg, -⟩)
        · exact absurd hpos habsurd.not_gt
        · exact hneg)
    (by rw [Int64.toInt_zero, zero_add]; exact fitsInt64_toInt _)
  refine ⟨_, shiftLeftChecked_word (by omega) (by rw [hmagnitude]; omega), ?_⟩
  rw [Int64.zero_add] at hadd
  exact hadd

theorem subtractWide_native {sum : Int64} {x y : UInt64}
    (hfits : FitsInt64 (sum.toInt - rawInt x * rawInt y)) :
    addWide (nativeWide sum)
      (GaussianFormat.rawProduct Int16 (pfQMagnitude (GaussianFormat.rawLoad Int16 x))
        (pfQMagnitude (GaussianFormat.rawLoad Int16 y)))
      (GaussianFormat.rawLoad Int16 x ≠ 0 ∧ GaussianFormat.rawLoad Int16 y ≠ 0 ∧
        !(decide (GaussianFormat.rawLoad Int16 x < 0) !=
          decide (GaussianFormat.rawLoad Int16 y < 0))) =
      some (nativeWide (sum - nativeRaw x * nativeRaw y)) := by
  have hproduct := toInt_nativeProduct x y
  have hmagnitude := Nat.mul_le_mul (natAbs_rawInt_le x) (natAbs_rawInt_le y)
  rw [← Int.natAbs_mul] at hmagnitude
  have hnegated : (-(nativeRaw x * nativeRaw y)).toInt = -(rawInt x * rawInt y) := by
    rw [toInt_neg_of_fits (by rw [hproduct]; constructor <;> omega), hproduct]
  have hadd := addWide_native (a := sum) (t := -(nativeRaw x * nativeRaw y))
    (by rw [toNat_magnitudeProduct, hnegated, Int.natAbs_neg])
    (by
      rw [hnegated, neg_ne_zero]
      exact sign_rawDifference)
    (by rwa [hnegated, ← sub_eq_add_neg])
  rw [rawProduct_eq, Int64.sub_eq_add_neg]
  exact hadd

/-- The two numerators are the same integer. -/
theorem numeratorTry_eq_numeratorWide (h : SystemCertified input) (hf : fractional ≤ 30)
    (hi : i < input.k) {errors : ℕ} (hs : Solved s i errors) :
    numeratorTry input fractional i s = numeratorWide Int16 input fractional i s := by
  rw [numeratorTry]
  by_cases hfits : numeratorFits input fractional i s = true
  · have hsums := nativeNumerator_exact h hf hi hs hfits
    obtain ⟨product, hshift, hright⟩ := @addWide_right fractional (input.b i) hf
    rw [if_pos hfits, numeratorWide]
    dsimp only
    rw [hshift, orStop, ok_bind, hright, orStop, ok_bind]
    cases hdiagonal : input.sa.diagonal with
    | true => rfl
    | false =>
        rw [hdiagonal, if_neg Bool.false_ne_true] at hsums
        rw [if_neg Bool.false_ne_true, if_neg Bool.false_ne_true]
        refine (forRange_along (fun n => nativeWide (nativeNumerator input fractional i s n))
          ?_).symm
        intro j hj
        have hnext := hsums (j + 1) hj
        rw [sum_range_succ, ← sub_sub, ← hsums j (by omega)] at hnext
        rw [subtractWide_native (by rw [← hnext]; exact fitsInt64_toInt _), orStop]
        rw [nativeNumerator, nativeNumerator, foldRange_succ (Nat.zero_le j)]
  · rw [if_neg hfits]

/-! ### Errors -/

/-- What an unknown adds to the error of a later row. -/
def errorShare (input : SolverInput) (i : ℕ) (s : SolverState) (j : ℕ) : ℕ :=
  (if input.sa.exact then 0 else (rawInt (s.z j)).natAbs * 2 ^ 32 + errorNat (s.error j)) +
    (rawInt (input.a (i * input.k + j))).natAbs * errorNat (s.error j)

/-- Every 64-bit value of an error sum and of its bounds is exact. -/
structure PropagatedExact (input : SolverInput) (fractional i : ℕ) (s : SolverState) : Prop where
  delta : (propagatedDelta input fractional).toNat =
    if input.sb.exact then 0 else 2 ^ (fractional + 32)
  unknown : (propagatedUnknown input s).toNat =
    if input.sa.exact then 0 else s.zmax.toNat * 2 ^ 32 + s.emax.toNat
  product : (propagatedProduct input s).toNat = input.sa.maximum.toNat * s.emax.toNat
  term : propagatedFits input fractional i s → input.sa.diagonal = false →
    (propagatedUnknown input s + propagatedProduct input s).toNat =
      (propagatedUnknown input s).toNat + (propagatedProduct input s).toNat
  unknowns : ∀ j < i, ((nativeMagnitude (s.z j) <<< 32) + nativeError (s.error j)).toNat =
    (rawInt (s.z j)).natAbs * 2 ^ 32 + errorNat (s.error j)
  products : ∀ j < i,
    (nativeMagnitude (input.a (i * input.k + j)) * nativeError (s.error j)).toNat =
      (rawInt (input.a (i * input.k + j))).natAbs * errorNat (s.error j)
  sums : propagatedFits input fractional i s → ∀ n ≤ (if input.sa.diagonal then 0 else i),
    (nativePropagated input fractional i s n).toNat =
      (if input.sb.exact then 0 else 2 ^ (fractional + 32)) + ∑ j ∈ range n, errorShare input i s j

theorem toNat_propagatedDelta (hf : fractional ≤ 30) : (propagatedDelta input fractional).toNat =
    if input.sb.exact then 0 else 2 ^ (fractional + 32) := by
  have hle : 2 ^ (fractional + 32) ≤ 2 ^ 62 := Nat.pow_le_pow_right two_pos (by omega)
  have hone : (1 : UInt64).toNat = 1 := rfl
  rw [propagatedDelta]
  split
  · rfl
  · rw [toNat_shiftLeft_of_fits (by omega) (by rw [hone]; omega), hone, Nat.one_mul]

theorem toNat_shiftLeft_add {x y : UInt64} (hx : x.toNat ≤ 2 ^ 31) (hy : y.toNat ≤ 2 ^ 32 - 1) :
    ((x <<< 32) + y).toNat = x.toNat * 2 ^ 32 + y.toNat := by
  have hshift : (x <<< 32).toNat = x.toNat * 2 ^ 32 :=
    @toNat_shiftLeft_of_fits _ 32 (by omega) (by omega)
  rw [toNat_add_of_fits (by omega), hshift]

theorem toNat_propagatedUnknown (hz : s.zmax.toNat ≤ 2 ^ 31) (he : s.emax.toNat ≤ 2 ^ 32 - 1) :
    (propagatedUnknown input s).toNat =
      if input.sa.exact then 0 else s.zmax.toNat * 2 ^ 32 + s.emax.toNat := by
  rw [propagatedUnknown]
  cases input.sa.exact with
  | true => rfl
  | false => exact toNat_shiftLeft_add hz he

theorem toNat_propagatedProduct (hmax : input.sa.maximum.toNat ≤ 2 ^ 31)
    (he : s.emax.toNat ≤ 2 ^ 32 - 1) :
    (propagatedProduct input s).toNat = input.sa.maximum.toNat * s.emax.toNat := by
  have hproduct := Nat.mul_le_mul hmax he
  have hword := toNat_toUInt64_word input.sa.maximum
  rw [propagatedProduct, toNat_mul_of_fits (by rw [hword]; omega), hword]

theorem toNat_errorProduct (x y : UInt64) :
    (nativeMagnitude x * nativeError y).toNat = (rawInt x).natAbs * errorNat y := by
  have hproduct := Nat.mul_le_mul (natAbs_rawInt_le x) (Nat.le_sub_one_of_lt (errorNat_lt y))
  have hx := toNat_nativeMagnitude x
  have hy := toNat_nativeError y
  rw [toNat_mul_of_fits (by rw [hx, hy]; omega), hx, hy]

theorem toNat_errorUnknown (x y : UInt64) :
    ((nativeMagnitude x <<< 32) + nativeError y).toNat =
      (rawInt x).natAbs * 2 ^ 32 + errorNat y := by
  have hx := toNat_nativeMagnitude x
  have hy := toNat_nativeError y
  have hzle := natAbs_rawInt_le x
  have hele := Nat.le_sub_one_of_lt (errorNat_lt y)
  rw [toNat_shiftLeft_add (by rw [hx]; exact hzle) (by rw [hy]; exact hele), hx, hy]

/-- The share of an unknown is at most the term that bounds it. -/
theorem errorShare_le (h : SystemCertified input) (hi : i < input.k) {unknowns : ℕ}
    (hs : Solved s unknowns i) (hle : i ≤ unknowns) {j : ℕ} (hj : j < i) :
    errorShare input i s j ≤
      (if input.sa.exact then 0 else s.zmax.toNat * 2 ^ 32 + s.emax.toNat) +
        input.sa.maximum.toNat * s.emax.toNat := by
  have hz := hs.magnitude_le j (by omega)
  have he := hs.error_le j hj
  have hproduct := Nat.mul_le_mul ((h.factor i hi).magnitude_le j (by omega)) he
  have hshifted := Nat.mul_le_mul_right (2 ^ 32) hz
  rw [errorShare]
  cases input.sa.exact with
  | true => exact Nat.add_le_add_left hproduct 0
  | false => exact Nat.add_le_add (Nat.add_le_add hshifted he) hproduct

/-- What the bounds of an error sum allow. -/
theorem propagated_room (h : SystemCertified input) (hi : i < input.k)
    (hfits : propagatedFits input fractional i s = true) (hdiagonal : input.sa.diagonal = false) :
    (propagatedUnknown input s + propagatedProduct input s).toNat =
        (propagatedUnknown input s).toNat + (propagatedProduct input s).toNat ∧
      (propagatedDelta input fractional).toNat +
        ((propagatedUnknown input s).toNat + (propagatedProduct input s).toNat) * i < 2 ^ 64 := by
  have hmax : (0xffffffffffffffff : UInt64).toNat = 2 ^ 64 - 1 := rfl
  have hcount := toNat_ofNat_count (hi.trans h.size)
  rw [propagatedFits, decide_eq_true_iff, hdiagonal] at hfits
  obtain ⟨hterm, hsum⟩ := hfits
  generalize propagatedUnknown input s = unknown at *
  generalize propagatedProduct input s = product at *
  generalize propagatedDelta input fractional = delta at *
  rw [if_neg Bool.false_ne_true] at hsum
  have hroom : unknown.toNat + product.toNat < 2 ^ 64 := by
    have hword := product.toNat_lt
    have hle := hterm.resolve_left Bool.false_ne_true
    rw [UInt64.le_iff_toNat_le, UInt64.toNat_sub_of_le _ _
      (UInt64.le_iff_toNat_le.mpr (by rw [hmax]; omega)), hmax] at hle
    omega
  have htotal := toNat_add_of_fits hroom
  refine ⟨htotal, ?_⟩
  have hdelta := delta.toNat_lt
  rw [← htotal]
  generalize unknown + product = term at *
  rcases hsum with hzero | ⟨hhigh, hlow⟩
  · rw [hzero, UInt64.toNat_zero, Nat.zero_mul]
    exact hdelta
  · rw [UInt64.le_iff_toNat_le, UInt64.toNat_sub_of_le _ _
      (UInt64.le_iff_toNat_le.mpr (by rw [hmax]; omega)), hmax, toNat_low_pfQUmul hhigh, hcount]
      at hlow
    omega

/-- One step of the native error sum as a single word. -/
def errorWord (input : SolverInput) (i : ℕ) (s : SolverState) (j : ℕ) : UInt64 :=
  (if !input.sa.exact then (nativeMagnitude (s.z j) <<< 32) + nativeError (s.error j) else 0) +
    nativeMagnitude (input.a (i * input.k + j)) * nativeError (s.error j)

theorem nativePropagated_eq (n : ℕ) : nativePropagated input fractional i s n =
    foldRange 0 n (propagatedDelta input fractional) fun j sum => sum + errorWord input i s j := by
  rw [nativePropagated]
  apply foldRange_congr
  intro j sum _ _
  rw [errorWord]
  cases input.sa.exact with
  | true =>
      simp only [Bool.not_true, Bool.false_eq_true, if_false, UInt64.zero_add]
  | false =>
      simp only [Bool.not_false, if_true, UInt64.add_assoc]

/-- The two parts of a step. -/
theorem toNat_errorParts (j : ℕ) :
    (if !input.sa.exact then (nativeMagnitude (s.z j) <<< 32) + nativeError (s.error j)
      else 0).toNat +
      (nativeMagnitude (input.a (i * input.k + j)) * nativeError (s.error j)).toNat =
        errorShare input i s j := by
  rw [errorShare, toNat_errorProduct]
  cases input.sa.exact with
  | true => rfl
  | false => exact congrArg (· + _) (toNat_errorUnknown (s.z j) (s.error j))

theorem toNat_errorWord {j : ℕ} (hroom : errorShare input i s j < 2 ^ 64) :
    (errorWord input i s j).toNat = errorShare input i s j := by
  have hparts := @toNat_errorParts input i s j
  rw [errorWord, toNat_add_of_fits (by rwa [hparts]), hparts]

/-- The shares of an accepted row fit one word together. -/
theorem sum_errorShare_lt (h : SystemCertified input) (hi : i < input.k) {unknowns : ℕ}
    (hs : Solved s unknowns i) (hle : i ≤ unknowns)
    (hfits : propagatedFits input fractional i s = true) (hdiagonal : input.sa.diagonal = false) :
    (propagatedDelta input fractional).toNat + ∑ j ∈ range i, errorShare input i s j < 2 ^ 64 := by
  obtain ⟨-, hroom⟩ := propagated_room h hi hfits hdiagonal
  rw [toNat_propagatedUnknown hs.zmax_le hs.emax_le,
    toNat_propagatedProduct (h.factor i hi).maximum_le hs.emax_le] at hroom
  have hsum := sum_le_mul_of_le fun j hj => errorShare_le h hi hs hle hj
  omega

theorem errorWord_sum (h : SystemCertified input) (hi : i < input.k) {unknowns : ℕ}
    (hs : Solved s unknowns i) (hle : i ≤ unknowns)
    (hfits : propagatedFits input fractional i s = true) :
    (∀ j < (if input.sa.diagonal then 0 else i),
      (errorWord input i s j).toNat = errorShare input i s j) ∧
    ∀ n ≤ (if input.sa.diagonal then 0 else i),
      (nativePropagated input fractional i s n).toNat =
        (propagatedDelta input fractional).toNat + ∑ j ∈ range n, errorShare input i s j := by
  cases hdiagonal : input.sa.diagonal with
  | true =>
      rw [if_pos rfl]
      refine ⟨fun j hj => absurd hj (Nat.not_lt_zero j), fun n hn => ?_⟩
      rw [Nat.le_zero.mp hn, range_zero, sum_empty, Nat.add_zero]
      rfl
  | false =>
      rw [if_neg Bool.false_ne_true]
      have hroom := sum_errorShare_lt h hi hs hle hfits hdiagonal
      have hword : ∀ j < i, (errorWord input i s j).toNat = errorShare input i s j := by
        intro j hj
        have hsingle := single_le_sum (f := errorShare input i s) (fun _ _ => Nat.zero_le _)
          (mem_range.mpr hj)
        exact toNat_errorWord (by omega)
      have hsums : ∀ n ≤ i, ∑ j ∈ range n, (errorWord input i s j).toNat =
          ∑ j ∈ range n, errorShare input i s j := fun n hn =>
        sum_congr rfl fun j hj => hword j ((mem_range.mp hj).trans_le hn)
      refine ⟨hword, fun n hn => ?_⟩
      rw [nativePropagated_eq, toNat_sum_loop (by rwa [hsums i le_rfl]) n hn, hsums n hn]

theorem propagated_exact (h : SystemCertified input) (hf : fractional ≤ 30) (hi : i < input.k)
    {unknowns : ℕ} (hs : Solved s unknowns i) (hle : i ≤ unknowns) :
    PropagatedExact input fractional i s where
  delta := toNat_propagatedDelta hf
  unknown := toNat_propagatedUnknown hs.zmax_le hs.emax_le
  product := toNat_propagatedProduct (h.factor i hi).maximum_le hs.emax_le
  term hfits hdiagonal := (propagated_room h hi hfits hdiagonal).1
  unknowns j _ := toNat_errorUnknown (s.z j) (s.error j)
  products j _ := toNat_errorProduct (input.a (i * input.k + j)) (s.error j)
  sums hfits n hn := by
    rw [(errorWord_sum h hi hs hle hfits).2 n hn, toNat_propagatedDelta hf]

theorem addUnknown_word {exact : Bool} {sum x y : UInt64}
    (h : sum.toNat + (if !exact then (nativeMagnitude x <<< 32) + nativeError y else 0).toNat <
      2 ^ 64) :
    addUnknown exact ⟨sum, 0⟩ (GaussianFormat.rawLoad Int16 x) (GaussianFormat.errorLoad Int16 y) =
      .ok ⟨sum + if !exact then (nativeMagnitude x <<< 32) + nativeError y else 0, 0⟩ := by
  rw [addUnknown, ← nativeMagnitude_eq, ← nativeError_eq]
  cases exact with
  | true => rw [if_pos rfl, Bool.not_true, if_neg Bool.false_ne_true, UInt64.add_zero]
  | false =>
      rw [Bool.not_false, if_pos rfl] at h
      have hx := toNat_nativeMagnitude x
      have hxle := natAbs_rawInt_le x
      have hy := toNat_nativeError y
      have hylt := errorNat_lt y
      have hshift : (nativeMagnitude x <<< 32).toNat = (nativeMagnitude x).toNat * 2 ^ 32 :=
        @toNat_shiftLeft_of_fits _ 32 (by omega) (by omega)
      have hword : shiftLeftChecked ⟨nativeMagnitude x, 0⟩ 32 =
          some ⟨nativeMagnitude x <<< 32, 0⟩ :=
        shiftLeftChecked_word (by omega) (by omega)
      rw [if_neg Bool.false_ne_true, hword, orStop, ok_bind, addUnsigned_word (by omega), orStop,
        ok_bind, addUnsigned_word h, orStop, Bool.not_false, if_pos rfl]

/-- The two error sums are the same integer. -/
theorem propagatedTry_eq_propagatedWide (h : SystemCertified input) (hf : fractional ≤ 30)
    (hi : i < input.k) {unknowns : ℕ} (hs : Solved s unknowns i) (hle : i ≤ unknowns) :
    propagatedTry input fractional i s = propagatedWide Int16 input fractional i s := by
  rw [propagatedTry]
  by_cases hfits : propagatedFits input fractional i s = true
  · obtain ⟨hwords, hsums⟩ := errorWord_sum h hi hs hle hfits
    have hdelta : (if input.sb.exact then (⟨0, 0⟩ : Accum) else expShl ⟨1, 0⟩ (fractional + 32)) =
        ⟨propagatedDelta input fractional, 0⟩ := by
      rw [← Accum.toNat_inj, toNat_word, toNat_propagatedDelta hf]
      have hle : 2 ^ (fractional + 32) ≤ 2 ^ 62 := Nat.pow_le_pow_right two_pos (by omega)
      have hone : (⟨1, 0⟩ : Accum).toNat = 1 := rfl
      split
      · rfl
      · rw [toNat_expShl (by rw [hone]; omega) (by omega), hone, Nat.one_mul]
    rw [if_pos hfits, propagatedWide, hdelta]
    cases hdiagonal : input.sa.diagonal with
    | true => rfl
    | false =>
        rw [hdiagonal, if_neg Bool.false_ne_true] at hwords hsums
        dsimp only
        rw [if_neg Bool.false_ne_true, if_neg Bool.false_ne_true]
        refine (forRange_along
          (fun n => (⟨nativePropagated input fractional i s n, 0⟩ : Accum)) ?_).symm
        intro j hj
        have hnext := hsums (j + 1) hj
        have hlt := (nativePropagated input fractional i s (j + 1)).toNat_lt
        rw [sum_range_succ, ← add_assoc, ← hsums j (by omega), ← hwords j hj] at hnext
        have hstep : nativePropagated input fractional i s (j + 1) =
            nativePropagated input fractional i s j + errorWord input i s j := by
          rw [nativePropagated_eq, nativePropagated_eq, foldRange_succ (Nat.zero_le j)]
        have hparts := @toNat_errorParts input i s j
        rw [hwords j hj, ← hparts] at hnext
        rw [hstep, errorWord, ← UInt64.add_assoc]
        rw [addUnknown_word (by omega), ok_bind, rawProduct_eq, ← nativeMagnitude_eq,
          ← nativeError_eq]
        rw [addUnsigned_word (by rw [toNat_add_of_fits (by omega)]; omega), orStop]
  · rw [if_neg hfits]

/-! ### Norm and variance -/

/-- What an unknown adds to the variance. -/
def varianceShare (s : SolverState) (i : ℕ) : ℕ :=
  2 * (rawInt (s.z i)).natAbs * errorNat (s.error i) + errorNat (s.error i) ^ 2 / 2 ^ 32 +
    if errorNat (s.error i) ^ 2 % 2 ^ 32 = 0 then 0 else 1

/-- Every 64-bit value of the norm, of the variance and of their bounds is exact. -/
structure MomentsExact (input : SolverInput) (s : SolverState) : Prop where
  square : (squareBound s).toNat = s.zmax.toNat ^ 2
  term : (termBound s).toNat =
    2 * s.zmax.toNat * s.emax.toNat + s.emax.toNat ^ 2 / 2 ^ 32 + 1
  terms : ∀ i < input.k, (nativeVarianceTerm s i).toNat = varianceShare s i
  norms : magnitudesFits input s → ∀ n ≤ input.k,
    (nativeSquares s n).toNat = ∑ i ∈ range n, (rawInt (s.z i)).natAbs ^ 2
  magnitudes : magnitudesFits input s → ∀ n ≤ input.k,
    (nativeMagnitudes s n).toNat = ∑ i ∈ range n, (rawInt (s.z i)).natAbs
  variances : momentsFits input s → ∀ n ≤ input.k,
    (nativeVariance s n).toNat = ∑ i ∈ range n, varianceShare s i

theorem toNat_square {x : UInt64} (h : x.toNat < 2 ^ 32) : (x * x).toNat = x.toNat ^ 2 := by
  have hsquare := Nat.mul_le_mul (Nat.le_sub_one_of_lt h) (Nat.le_sub_one_of_lt h)
  rw [toNat_mul_of_fits (by omega), sq]

/-- The term bound of the largest magnitudes is the largest word. -/
theorem term_le {z e : ℕ} (hz : z ≤ 2 ^ 31) (he : e ≤ 2 ^ 32 - 1) :
    2 * z * e + e ^ 2 / 2 ^ 32 + 1 ≤ 2 ^ 64 - 1 := by
  have hcross : 2 * z * e ≤ 2 ^ 32 * (2 ^ 32 - 1) := Nat.mul_le_mul (by omega) he
  have hsquare : e ^ 2 ≤ (2 ^ 32 - 1) ^ 2 := Nat.pow_le_pow_left he 2
  have hhigh := Nat.div_le_div_right (c := 2 ^ 32) hsquare
  omega

theorem toNat_squareHigh {e : UInt64} (h : e.toNat < 2 ^ 32) :
    UInt64.toNat ((e * e) >>> 32) = e.toNat ^ 2 / 2 ^ 32 := by
  rw [toNat_shiftRight_eq _ _ (by decide), toNat_square h]
  rfl

/-- One word of the variance. -/
theorem toNat_varianceWord {z e x c : UInt64} (hz : z.toNat ≤ 2 ^ 31) (he : e.toNat ≤ 2 ^ 32 - 1)
    (hx : x.toNat = e.toNat ^ 2 / 2 ^ 32) (hc : c.toNat ≤ 1) :
    (2 * z * e + x + c).toNat =
      2 * z.toNat * e.toNat + e.toNat ^ 2 / 2 ^ 32 + c.toNat := by
  have htwo : (2 : UInt64).toNat = 2 := rfl
  have hterm := term_le hz he
  have hcross : 2 * z.toNat * e.toNat ≤ 2 ^ 32 * (2 ^ 32 - 1) := Nat.mul_le_mul (by omega) he
  have hdouble : (2 * z).toNat = 2 * z.toNat := by
    rw [toNat_mul_of_fits (by rw [htwo]; omega), htwo]
  have hproduct : (2 * z * e).toNat = 2 * z.toNat * e.toNat := by
    rw [toNat_mul_of_fits (by rw [hdouble]; omega), hdouble]
  have hsum : (2 * z * e + x).toNat = 2 * z.toNat * e.toNat + e.toNat ^ 2 / 2 ^ 32 := by
    rw [toNat_add_of_fits (by rw [hproduct, hx]; omega), hproduct, hx]
  rw [toNat_add_of_fits (by rw [hsum]; omega), hsum]

theorem toNat_termBound (hz : s.zmax.toNat ≤ 2 ^ 31) (he : s.emax.toNat ≤ 2 ^ 32 - 1) :
    (termBound s).toNat = 2 * s.zmax.toNat * s.emax.toNat + s.emax.toNat ^ 2 / 2 ^ 32 + 1 :=
  toNat_varianceWord (c := 1) hz he (toNat_squareHigh (by omega)) le_rfl

/-- The carry of a square that is cut to its upper word. -/
theorem toNat_squareCarry {e : UInt64} (h : e.toNat < 2 ^ 32) :
    (if e * e &&& 0xffffffff ≠ 0 then (1 : UInt64) else 0).toNat =
      if e.toNat ^ 2 % 2 ^ 32 = 0 then 0 else 1 := by
  have hlow : (e * e &&& 0xffffffff).toNat = e.toNat ^ 2 % 2 ^ 32 := by
    rw [UInt64.toNat_and, toNat_square h]
    exact Nat.and_two_pow_sub_one_eq_mod _ 32
  by_cases hzero : e.toNat ^ 2 % 2 ^ 32 = 0
  · rw [if_pos hzero, if_neg (not_not.mpr ((word_eq_zero_iff _).mpr (hlow.trans hzero)))]
    rfl
  · rw [if_neg hzero, if_pos (by rw [ne_eq, word_eq_zero_iff, hlow]; exact hzero)]
    rfl

theorem toNat_nativeVarianceTerm (i : ℕ) : (nativeVarianceTerm s i).toNat = varianceShare s i := by
  have hz := toNat_nativeMagnitude (s.z i)
  have he := toNat_nativeError (s.error i)
  have hzle := natAbs_rawInt_le (s.z i)
  have helt := errorNat_lt (s.error i)
  have hcarry := toNat_squareCarry (e := nativeError (s.error i)) (by rw [he]; exact helt)
  have hword := toNat_varianceWord (z := nativeMagnitude (s.z i)) (e := nativeError (s.error i))
    (by rw [hz]; exact hzle) (by rw [he]; omega) (toNat_squareHigh (by omega))
    (hcarry.trans_le (by split <;> omega))
  rw [hcarry, hz, he] at hword
  exact hword

theorem varianceShare_le {n : ℕ} (hs : Solved s n n) {i : ℕ} (hi : i < n) :
    varianceShare s i ≤ 2 * s.zmax.toNat * s.emax.toNat + s.emax.toNat ^ 2 / 2 ^ 32 + 1 := by
  have he := hs.error_le i hi
  have hcross := Nat.mul_le_mul (Nat.mul_le_mul_left 2 (hs.magnitude_le i hi)) he
  have hhigh := Nat.div_le_div_right (c := 2 ^ 32) (Nat.pow_le_pow_left he 2)
  rw [varianceShare]
  split <;> omega

theorem toNat_squareBound (hz : s.zmax.toNat ≤ 2 ^ 31) :
    (squareBound s).toNat = s.zmax.toNat ^ 2 :=
  toNat_square (by omega)

/-- What the bound of the norm allows. -/
theorem squares_room (h : SystemCertified input) (hs : Solved s input.k input.k)
    (hfits : magnitudesFits input s = true) :
    ∑ i ∈ range input.k, (rawInt (s.z i)).natAbs ^ 2 < 2 ^ 64 := by
  rw [magnitudesFits, decide_eq_true_iff] at hfits
  have hlow := toNat_low_pfQUmul hfits
  rw [toNat_squareBound hs.zmax_le, toNat_ofNat_count h.size] at hlow
  have hword := (pfQUmul (squareBound s) (UInt64.ofNat input.k)).low.toNat_lt
  have hsum := sum_le_mul_of_le fun i hi => Nat.pow_le_pow_left (hs.magnitude_le i hi) 2
  omega

theorem sum_magnitudes_le (n : ℕ) : ∑ i ∈ range n, (rawInt (s.z i)).natAbs ≤
    ∑ i ∈ range n, (rawInt (s.z i)).natAbs ^ 2 :=
  sum_le_sum fun _ _ => Nat.le_self_pow two_ne_zero _

theorem nativeSquares_exact (h : SystemCertified input) (hs : Solved s input.k input.k)
    (hfits : magnitudesFits input s = true) :
    ∀ n ≤ input.k, (nativeSquares s n).toNat = ∑ i ∈ range n, (rawInt (s.z i)).natAbs ^ 2 := by
  have hterm : ∀ i, (nativeMagnitude (s.z i) * nativeMagnitude (s.z i)).toNat =
      (rawInt (s.z i)).natAbs ^ 2 := by
    intro i
    have hz := toNat_nativeMagnitude (s.z i)
    have hle := natAbs_rawInt_le (s.z i)
    rw [toNat_square (by omega), hz]
  have hroom := squares_room h hs hfits
  intro n hn
  rw [nativeSquares, toNat_sum_loop _ n hn, UInt64.toNat_zero, Nat.zero_add]
  · exact sum_congr rfl fun i _ => hterm i
  · rw [UInt64.toNat_zero, Nat.zero_add, sum_congr rfl fun i _ => hterm i]
    exact hroom

theorem nativeMagnitudes_exact (h : SystemCertified input) (hs : Solved s input.k input.k)
    (hfits : magnitudesFits input s = true) :
    ∀ n ≤ input.k, (nativeMagnitudes s n).toNat = ∑ i ∈ range n, (rawInt (s.z i)).natAbs := by
  have hroom := (sum_magnitudes_le input.k).trans_lt (squares_room h hs hfits)
  intro n hn
  rw [nativeMagnitudes, toNat_sum_loop _ n hn, UInt64.toNat_zero, Nat.zero_add]
  · exact sum_congr rfl fun i _ => toNat_nativeMagnitude (s.z i)
  · rw [UInt64.toNat_zero, Nat.zero_add, sum_congr rfl fun i _ => toNat_nativeMagnitude (s.z i)]
    exact hroom

theorem nativeVariance_exact (h : SystemCertified input) (hs : Solved s input.k input.k)
    (hfits : momentsFits input s = true) :
    ∀ n ≤ input.k, (nativeVariance s n).toNat = ∑ i ∈ range n, varianceShare s i := by
  rw [momentsFits, decide_eq_true_iff] at hfits
  have hlow := toNat_low_pfQUmul hfits.2
  rw [toNat_termBound hs.zmax_le hs.emax_le, toNat_ofNat_count h.size] at hlow
  have hword := (pfQUmul (termBound s) (UInt64.ofNat input.k)).low.toNat_lt
  have hsum := sum_le_mul_of_le fun i hi => varianceShare_le hs hi
  intro n hn
  rw [nativeVariance, toNat_sum_loop _ n hn, UInt64.toNat_zero, Nat.zero_add]
  · exact sum_congr rfl fun i _ => toNat_nativeVarianceTerm i
  · rw [UInt64.toNat_zero, Nat.zero_add, sum_congr rfl fun i _ => toNat_nativeVarianceTerm i]
    omega

theorem moments_exact (h : SystemCertified input) (hs : Solved s input.k input.k) :
    MomentsExact input s where
  square := toNat_squareBound hs.zmax_le
  term := toNat_termBound hs.zmax_le hs.emax_le
  terms i _ := toNat_nativeVarianceTerm i
  norms := nativeSquares_exact h hs
  magnitudes := nativeMagnitudes_exact h hs
  variances := nativeVariance_exact h hs

/-- The largest magnitudes reach the largest word. -/
example : termBound ⟨fun _ => 0, fun _ => 0, 0x80000000, 0xffffffff⟩ = 0xffffffffffffffff := by
  decide

theorem magnitudesFits_of_momentsFits (hfits : momentsFits input s = true) :
    magnitudesFits input s = true := by
  rw [momentsFits, decide_eq_true_iff] at hfits
  exact decide_eq_true hfits.1

/-- One step of a sum of words inside a sum that fits. -/
theorem addUnsigned_step {sum next x : UInt64} (hnext : next = sum + x)
    (hexact : next.toNat = sum.toNat + x.toNat) :
    addUnsigned ⟨sum, 0⟩ ⟨x, 0⟩ = some ⟨next, 0⟩ := by
  have hword := next.toNat_lt
  rw [hnext, addUnsigned_word (by omega)]

theorem nativeSquares_step (h : SystemCertified input) (hs : Solved s input.k input.k)
    (hfits : magnitudesFits input s = true) {i : ℕ} (hi : i < input.k) :
    addUnsigned ⟨nativeSquares s i, 0⟩
        (GaussianFormat.rawProduct Int16 (pfQMagnitude (GaussianFormat.rawLoad Int16 (s.z i)))
          (pfQMagnitude (GaussianFormat.rawLoad Int16 (s.z i)))) =
      some ⟨nativeSquares s (i + 1), 0⟩ := by
  have hexact := nativeSquares_exact h hs hfits
  have hz := toNat_magnitude_rawLoad (s.z i)
  have hle := natAbs_rawInt_le (s.z i)
  rw [rawProduct_eq]
  apply addUnsigned_step
  · rw [nativeSquares, nativeSquares, foldRange_succ (Nat.zero_le i), nativeMagnitude_eq]
  · rw [hexact (i + 1) hi, sum_range_succ, hexact i (by omega), toNat_square (by omega), hz]

/-- The two norms and sums of magnitudes are the same integers. -/
theorem magnitudesTry_eq_magnitudesWide (h : SystemCertified input)
    (hs : Solved s input.k input.k) : magnitudesTry input s = magnitudesWide Int16 input s := by
  rw [magnitudesTry]
  by_cases hfits : magnitudesFits input s = true
  · rw [if_pos hfits, magnitudesWide]
    refine (forRange_along (fun n => ((⟨nativeSquares s n, 0⟩ : Accum),
      (⟨nativeMagnitudes s n, 0⟩ : Accum))) ?_).symm
    intro i hi
    have hexact := nativeMagnitudes_exact h hs hfits
    have hmagnitude : addUnsigned ⟨nativeMagnitudes s i, 0⟩
        ⟨pfQMagnitude (GaussianFormat.rawLoad Int16 (s.z i)), 0⟩ =
          some ⟨nativeMagnitudes s (i + 1), 0⟩ := by
      apply addUnsigned_step
      · rw [nativeMagnitudes, nativeMagnitudes, foldRange_succ (Nat.zero_le i), nativeMagnitude_eq]
      · rw [hexact (i + 1) hi, sum_range_succ, hexact i (by omega), toNat_magnitude_rawLoad]
    dsimp only
    rw [nativeSquares_step h hs hfits hi, orStop, ok_bind, hmagnitude, orStop, ok_bind]
  · rw [if_neg hfits]

/-- The 128-bit variance term is the native one. -/
theorem varianceTerm_wide (i : ℕ) :
    ∃ cross high, shiftLeftChecked (GaussianFormat.rawProduct Int16
        (pfQMagnitude (GaussianFormat.rawLoad Int16 (s.z i)))
        (GaussianFormat.errorLoad Int16 (s.error i))) 1 = some ⟨cross, 0⟩ ∧
      addWhen .reducePrecision
        ((GaussianFormat.rawProduct Int16 (GaussianFormat.errorLoad Int16 (s.error i))
          (GaussianFormat.errorLoad Int16 (s.error i))).low &&& 0xffffffff ≠ 0)
        (shiftRightWide (GaussianFormat.rawProduct Int16
          (GaussianFormat.errorLoad Int16 (s.error i))
          (GaussianFormat.errorLoad Int16 (s.error i))) 32) 1 = .ok ⟨high, 0⟩ ∧
      cross.toNat + high.toNat = (nativeVarianceTerm s i).toNat ∧
      cross + high = nativeVarianceTerm s i := by
  have hz := toNat_magnitude_rawLoad (s.z i)
  have hzle := natAbs_rawInt_le (s.z i)
  have helt := errorNat_lt (s.error i)
  have hterm := toNat_nativeVarianceTerm (s := s) i
  rw [errorNat] at helt
  rw [varianceShare, errorNat, ← hz] at hterm
  rw [nativeVarianceTerm, nativeError_eq, nativeMagnitude_eq] at hterm ⊢
  rw [rawProduct_eq, rawProduct_eq]
  rw [← hz] at hzle
  generalize pfQMagnitude (GaussianFormat.rawLoad Int16 (s.z i)) = z at *
  generalize GaussianFormat.errorLoad Int16 (s.error i) = e at *
  dsimp only at hterm ⊢
  have hproduct := Nat.mul_le_mul hzle (Nat.le_sub_one_of_lt helt)
  have hcross : (z * e).toNat = z.toNat * e.toNat := toNat_mul_of_fits (by omega)
  have hdouble : ((z * e) <<< UInt64.ofNat 1).toNat = z.toNat * e.toNat * 2 ^ 1 := by
    rw [toNat_shiftLeft_of_fits (by omega) (by rw [hcross]; omega), hcross]
  have hhigh := toNat_squareHigh helt
  have hcarry := toNat_squareCarry helt
  have hsquare := Nat.div_le_div_right (c := 2 ^ 32)
    (Nat.pow_le_pow_left (Nat.le_sub_one_of_lt helt) 2)
  have hone : (if e * e &&& 0xffffffff ≠ 0 then (1 : UInt64) else 0).toNat ≤ 1 := by
    rw [hcarry]
    split <;> omega
  generalize hx : ((e * e) >>> 32 : UInt64) = x at *
  have hword : (x + if e * e &&& 0xffffffff ≠ 0 then 1 else 0).toNat =
      x.toNat + (if e * e &&& 0xffffffff ≠ 0 then (1 : UInt64) else 0).toNat :=
    toNat_add_of_fits (by omega)
  have htotal : ((z * e) <<< UInt64.ofNat 1).toNat +
      (x + if e * e &&& 0xffffffff ≠ 0 then 1 else 0).toNat =
        (2 * z * e + x + if e * e &&& 0xffffffff ≠ 0 then 1 else 0).toNat := by
    rw [hterm, hword, hdouble, hhigh, hcarry]
    ring
  refine ⟨(z * e) <<< UInt64.ofNat 1, x + if e * e &&& 0xffffffff ≠ 0 then 1 else 0,
    shiftLeftChecked_word (by omega) (by omega), ?_, htotal, ?_⟩
  · rw [shiftRightWide_word, hx, addWhen_word]
    · simp only [decide_eq_true_eq]
    · simp only [decide_eq_true_eq]
      omega
  · rw [← UInt64.toNat_inj, ← htotal]
    apply toNat_add_of_fits
    rw [htotal]
    exact UInt64.toNat_lt _

/-- The two norms and variances are the same integers. -/
theorem momentsTry_eq_momentsWide (h : SystemCertified input) (hs : Solved s input.k input.k) :
    momentsTry input s = momentsWide Int16 input s := by
  rw [momentsTry]
  by_cases hfits : momentsFits input s = true
  · rw [if_pos hfits, momentsWide]
    refine (forRange_along (fun n => ((⟨nativeSquares s n, 0⟩ : Accum),
      (⟨nativeVariance s n, 0⟩ : Accum))) ?_).symm
    intro i hi
    obtain ⟨cross, high, hcross, hhigh, htotal, hsum⟩ := varianceTerm_wide (s := s) i
    have hexact := nativeVariance_exact h hs hfits
    have hstep : nativeVariance s (i + 1) = nativeVariance s i + cross + high := by
      rw [nativeVariance, nativeVariance, foldRange_succ (Nat.zero_le i), ← hsum, UInt64.add_assoc]
    have hnext : (nativeVariance s (i + 1)).toNat =
        (nativeVariance s i).toNat + cross.toNat + high.toNat := by
      rw [hexact (i + 1) hi, sum_range_succ, hexact i (by omega), ← toNat_nativeVarianceTerm,
        ← htotal, add_assoc]
    have hword := (nativeVariance s (i + 1)).toNat_lt
    have hfirst : (nativeVariance s i + cross).toNat = (nativeVariance s i).toNat + cross.toNat :=
      toNat_add_of_fits (by omega)
    dsimp only
    rw [nativeSquares_step h hs (magnitudesFits_of_momentsFits hfits) hi, orStop, ok_bind, hcross,
      orStop, ok_bind, addUnsigned_word (by omega), orStop, ok_bind, hhigh, ok_bind,
      addUnsigned_step hstep (by rw [hnext, hfirst]), orStop, ok_bind]
  · rw [if_neg hfits]

end Rows

end Xhive.Particles
