import Xhive.Particles.WideExact

/-!
# Horner's rule in the exponential kernels

The polynomial alternates in sign, so a kernel only ever takes a smaller
magnitude from a coefficient.  The signed kernel and the unsigned one both
compute `hornerMagnitude`.
-/

namespace Xhive.Particles

open Xhive.Support Xhive.Linears

namespace ExpFormat

/-- The magnitude of the coefficient of degree `i`. -/
def magnitude (format : ExpFormat) (i : ℕ) : ℕ :=
  if i ≤ 1 then format.one.toNat else (format.coefficientWord i).toNat

/-- What a format promises: no product reaches the coefficient that it is taken from. -/
structure Alternates (format : ExpFormat) : Prop where
  fractional_pos : 0 < format.fractional
  fractional_le : format.fractional ≤ 64
  one_eq : format.one.toNat = 2 ^ format.fractional
  magnitude_pos : 0 < format.magnitude format.degree
  magnitude_le : ∀ i ≤ format.degree, format.magnitude i ≤ 2 ^ format.fractional
  product_lt : ∀ i < format.degree,
    roundedQuotient (format.magnitude (i + 1) * format.step.toNat) (2 ^ format.fractional) <
      format.magnitude i

end ExpFormat

theorem expQ15_alternates : expQ15.Alternates where
  fractional_pos := by decide
  fractional_le := by decide
  one_eq := by decide
  magnitude_pos := by decide
  magnitude_le := by decide
  product_lt := by decide

theorem expQ31_alternates : expQ31.Alternates where
  fractional_pos := by decide
  fractional_le := by decide
  one_eq := by decide
  magnitude_pos := by decide
  magnitude_le := by decide
  product_lt := by decide

/-! ## Magnitudes -/

variable {format : ExpFormat}

/-- The magnitude of the polynomial after `n` steps from the highest coefficient. -/
def hornerMagnitude (format : ExpFormat) (r : ℕ) : ℕ → ℕ
  | 0 => format.magnitude format.degree
  | n + 1 => format.magnitude (format.degree - (n + 1)) -
      roundedQuotient (hornerMagnitude format r n * r) (2 ^ format.fractional)

/-- The magnitude stays positive and below its coefficient. -/
theorem hornerMagnitude_bounds (hformat : format.Alternates) {r : ℕ} (hr : r ≤ format.step.toNat) :
    ∀ n ≤ format.degree, 0 < hornerMagnitude format r n ∧
      hornerMagnitude format r n ≤ format.magnitude (format.degree - n) := by
  have hpow := Nat.two_pow_pos format.fractional
  intro n
  induction n with
  | zero => exact fun _ => ⟨hformat.magnitude_pos, le_rfl⟩
  | succ n ih =>
      intro hn
      obtain ⟨-, hle⟩ := ih (by omega)
      have hlt := hformat.product_lt (format.degree - (n + 1)) (by omega)
      rw [show format.degree - (n + 1) + 1 = format.degree - n by omega] at hlt
      have hproduct := Support.roundedQuotient_le hpow hpow
        (Nat.mul_le_mul_right (2 ^ format.fractional) (Nat.mul_le_mul hle hr))
      rw [hornerMagnitude]
      omega

/-- What is taken from a coefficient is smaller. -/
theorem hornerProduct_lt (hformat : format.Alternates) {r : ℕ} (hr : r ≤ format.step.toNat) {n : ℕ}
    (hn : n < format.degree) :
    roundedQuotient (hornerMagnitude format r n * r) (2 ^ format.fractional) <
      format.magnitude (format.degree - (n + 1)) := by
  have hbounds := hornerMagnitude_bounds hformat hr (n + 1) hn
  rw [hornerMagnitude] at hbounds
  omega

/-! ## The signed kernel -/

theorem toInt_expCoefficient (hformat : format.Alternates) {i : ℕ} (hi : i ≤ format.degree) :
    (expCoefficient format i).toInt =
      signed (decide (i % 2 ≠ 0)) (format.magnitude i : ℤ) := by
  have hle := hformat.magnitude_le i hi
  have hpow : 2 ^ format.fractional ≤ 2 ^ 64 :=
    Nat.pow_le_pow_right (by norm_num) hformat.fractional_le
  have hvalue : (if i ≤ 1 then format.one else ⟨format.coefficientWord i, 0⟩ : Accum).toNat =
      format.magnitude i := by
    rw [ExpFormat.magnitude]
    split
    · rfl
    · exact toNat_word _
  rw [expCoefficient]
  generalize (if i ≤ 1 then format.one else ⟨format.coefficientWord i, 0⟩ : Accum) = c at *
  by_cases hodd : i % 2 ≠ 0
  · rw [decide_eq_true hodd, signed_true, ← hvalue]
    exact (if_pos hodd).symm ▸ toInt_lnNegate_of_le (by omega)
  · rw [decide_eq_false hodd, signed_false, ← hvalue]
    exact (if_neg hodd).symm ▸ Accum.toInt_of_lt (by omega)

/-- The product is rounded from the magnitude and keeps the sign. -/
theorem expSignedProduct_spec {a : Accum} {b : UInt64} {fractional m : ℕ} {negative : Bool}
    (ha : a.toInt = signed negative (m : ℤ)) (hm : 0 < m) (hle : m ≤ 2 ^ 64)
    (hfits : roundedQuotient (m * b.toNat) (2 ^ fractional) < 2 ^ 64) :
    (expSignedProduct a b fractional).1.toNat = roundedQuotient (m * b.toNat) (2 ^ fractional) ∧
      signed (expSignedProduct a b fractional).2 ((expSignedProduct a b fractional).1.toNat : ℤ) =
        signed negative (roundedQuotient (m * b.toNat) (2 ^ fractional) : ℤ) := by
  have hb := b.toNat_lt
  have hmagnitude : (momentMagnitude a).toNat = m := by
    rw [toNat_momentMagnitude, ha, natAbs_signed, Int.natAbs_natCast]
  have hproduct : (if (momentMagnitude a).high ≠ 0 then ⟨0, b⟩
      else pfQUmul (momentMagnitude a).low b : Accum).toNat = m * b.toNat := by
    have hlow := (momentMagnitude a).low.toNat_lt
    rw [Accum.toNat] at hmagnitude
    by_cases hhigh : (momentMagnitude a).high ≠ 0
    · rw [if_pos hhigh, Accum.toNat, UInt64.toNat_zero, Nat.add_zero]
      rw [ne_eq, ← UInt64.toNat_inj, UInt64.toNat_zero] at hhigh
      have hfull : m = 2 ^ 64 := by omega
      rw [hfull, Nat.mul_comm]
    · rw [if_neg hhigh, toNat_pfQUmul]
      rw [not_not] at hhigh
      rw [hhigh, UInt64.toNat_zero, Nat.zero_mul, Nat.zero_add] at hmagnitude
      rw [hmagnitude]
  have hnegative : lnNegative a = negative := by
    rw [Bool.eq_iff_iff, lnNegative_iff, ha]
    cases negative with
    | true => simp [hm]
    | false => simp
  rw [expSignedProduct]
  dsimp only
  rw [hnegative]
  have hrounded := @toNat_pfQUround _ fractional (hproduct.symm ▸ hfits)
  rw [hproduct] at hrounded
  refine ⟨hrounded, ?_⟩
  rw [← hrounded]
  generalize pfQUround _ fractional = rounded at *
  by_cases hzero : rounded = 0
  · rw [hzero, UInt64.toNat_zero]
    cases negative <;> rfl
  · rw [decide_eq_true hzero, Bool.and_true]

/-- The signed polynomial after `n` steps from the highest coefficient. -/
def expStage (format : ExpFormat) (remainder : UInt64) : ℕ → Accum
  | 0 => expCoefficient format format.degree
  | n + 1 =>
      let product := expSignedProduct (expStage format remainder n) remainder format.fractional
      pfQIadd (expCoefficient format (format.degree - (n + 1))) product.1 product.2

theorem expHorner_eq_expStage (remainder : UInt64) :
    ∀ i n, i + n = format.degree →
      expHorner format remainder i (expStage format remainder n) =
        expStage format remainder format.degree := by
  intro i
  induction i with
  | zero =>
      intro n hn
      rw [expHorner, ← hn, Nat.zero_add]
  | succ i ih =>
      intro n hn
      have hi : format.degree - (n + 1) = i := by omega
      have hnext := ih (n + 1) (by omega)
      rw [expStage, hi] at hnext
      rw [expHorner, hnext]

/-- What the helpers of the signed kernel assume of a step: a magnitude up to one, a product
that rounds to a word, and an exact sum. -/
structure ExpStep (format : ExpFormat) (remainder : UInt64) (n : ℕ) : Prop where
  magnitude_pos : 0 < (expStage format remainder n).toInt.natAbs
  magnitude_le : (expStage format remainder n).toInt.natAbs ≤ 2 ^ format.fractional
  product_fits : roundedQuotient ((expStage format remainder n).toInt.natAbs * remainder.toNat)
    (2 ^ format.fractional) < 2 ^ 64
  product : (expSignedProduct (expStage format remainder n) remainder format.fractional).1.toNat =
    roundedQuotient ((expStage format remainder n).toInt.natAbs * remainder.toNat)
      (2 ^ format.fractional)
  sum : (expStage format remainder (n + 1)).toInt =
    (expCoefficient format (format.degree - (n + 1))).toInt +
      signed (expSignedProduct (expStage format remainder n) remainder format.fractional).2
        ((expSignedProduct (expStage format remainder n) remainder
          format.fractional).1.toNat : ℤ)

/-- The signs alternate, so the product is taken from the coefficient. -/
theorem signed_sub {i c p : ℕ} (hle : p ≤ c) :
    signed (decide (i % 2 ≠ 0)) (c : ℤ) + signed (decide ((i + 1) % 2 ≠ 0)) (p : ℤ) =
      signed (decide (i % 2 ≠ 0)) ((c - p : ℕ) : ℤ) := by
  rw [Nat.cast_sub hle]
  rcases Nat.mod_two_eq_zero_or_one i with heven | hodd
  · have hnext : (i + 1) % 2 = 1 := by omega
    simp only [heven, hnext, ne_eq, not_true_eq_false, decide_false, signed_false,
      one_ne_zero, not_false_eq_true, decide_true, signed_true]
    ring
  · have hnext : (i + 1) % 2 = 0 := by omega
    simp only [hodd, hnext, ne_eq, not_true_eq_false, decide_false, signed_false,
      one_ne_zero, not_false_eq_true, decide_true, signed_true]
    ring

/-- One step of the signed kernel. -/
theorem expStage_next (hformat : format.Alternates) {remainder : UInt64}
    (hr : remainder.toNat ≤ format.step.toNat) {n : ℕ} (hn : n < format.degree)
    (hvalue : (expStage format remainder n).toInt = signed
      (decide ((format.degree - n) % 2 ≠ 0)) (hornerMagnitude format remainder.toNat n : ℤ)) :
    ExpStep format remainder n ∧ (expStage format remainder (n + 1)).toInt = signed
      (decide ((format.degree - (n + 1)) % 2 ≠ 0))
      (hornerMagnitude format remainder.toNat (n + 1) : ℤ) := by
  have hpow : 2 ^ format.fractional ≤ 2 ^ 64 :=
    Nat.pow_le_pow_right (by norm_num) hformat.fractional_le
  obtain ⟨hpos, hle⟩ := hornerMagnitude_bounds hformat hr n hn.le
  have hcoefficient := hformat.magnitude_le (format.degree - (n + 1)) (by omega)
  have hlt := hornerProduct_lt hformat hr hn
  have hfull := hformat.magnitude_le (format.degree - n) (by omega)
  have hfits := (hlt.trans_le hcoefficient).trans_le hpow
  obtain ⟨hrounded, hproduct⟩ := expSignedProduct_spec hvalue hpos (by omega) hfits
  have hstart := toInt_expCoefficient hformat (i := format.degree - (n + 1)) (by omega)
  have hnext := hornerMagnitude_bounds hformat hr (n + 1) hn
  have hindex : format.degree - n = format.degree - (n + 1) + 1 := by omega
  have habs : (expStage format remainder n).toInt.natAbs =
      hornerMagnitude format remainder.toNat n := by
    rw [hvalue, natAbs_signed, Int.natAbs_natCast]
  have hsum : (expCoefficient format (format.degree - (n + 1))).toInt +
      signed (expSignedProduct (expStage format remainder n) remainder format.fractional).2
        ((expSignedProduct (expStage format remainder n) remainder
          format.fractional).1.toNat : ℤ) =
      signed (decide ((format.degree - (n + 1)) % 2 ≠ 0))
        (hornerMagnitude format remainder.toNat (n + 1) : ℤ) := by
    rw [hstart, hproduct, hindex, signed_sub hlt.le, hornerMagnitude]
  have hadd : (expStage format remainder (n + 1)).toInt = _ := toInt_pfQIadd (by
    rw [hsum]
    constructor <;> cases decide ((format.degree - (n + 1)) % 2 ≠ 0) <;>
      simp only [signed_true, signed_false] <;> omega)
  refine ⟨⟨?_, ?_, ?_, ?_, hadd⟩, hadd.trans hsum⟩
  · rw [habs]
    exact hpos
  · rw [habs]
    exact hle.trans hfull
  · rw [habs]
    exact hfits
  · rw [habs]
    exact hrounded

/-- The signed kernel computes the magnitude at every stage. -/
theorem toInt_expStage (hformat : format.Alternates) {remainder : UInt64}
    (hr : remainder.toNat ≤ format.step.toNat) :
    ∀ n ≤ format.degree, (expStage format remainder n).toInt = signed
      (decide ((format.degree - n) % 2 ≠ 0)) (hornerMagnitude format remainder.toNat n : ℤ) := by
  intro n
  induction n with
  | zero => exact fun _ => toInt_expCoefficient hformat le_rfl
  | succ n ih => exact fun hn => (expStage_next hformat hr hn (ih (by omega))).2

theorem expStep (hformat : format.Alternates) {remainder : UInt64}
    (hr : remainder.toNat ≤ format.step.toNat) {n : ℕ} (hn : n < format.degree) :
    ExpStep format remainder n :=
  (expStage_next hformat hr hn (toInt_expStage hformat hr n hn.le)).1

theorem toInt_expHorner (hformat : format.Alternates) {remainder : UInt64}
    (hr : remainder.toNat ≤ format.step.toNat) :
    (expHorner format remainder format.degree (expCoefficient format format.degree)).toInt =
      hornerMagnitude format remainder.toNat format.degree := by
  have hstage := toInt_expStage hformat hr format.degree le_rfl
  have hrun : expHorner format remainder format.degree (expStage format remainder 0) =
      expStage format remainder format.degree :=
    expHorner_eq_expStage remainder format.degree 0 (Nat.add_zero _)
  rw [expStage] at hrun
  rw [hrun, hstage, Nat.sub_self]
  rfl

/-! ## The unsigned kernel -/

/-- The unsigned polynomial after `n` steps from the highest coefficient. -/
def hornerStage (format : ExpFormat) (remainder : UInt64) : ℕ → UInt64
  | 0 => format.coefficientWord format.degree
  | n + 1 => format.coefficientWord (format.degree - (n + 1)) -
      pfQUround (pfQUmul (hornerStage format remainder n) remainder) format.fractional

theorem expHornerF40_eq_hornerStage (remainder : UInt64) :
    ∀ i n, i + n = format.degree →
      expHornerF40 format remainder i (hornerStage format remainder n) =
        hornerStage format remainder format.degree := by
  intro i
  induction i with
  | zero =>
      intro n hn
      rw [expHornerF40, ← hn, Nat.zero_add]
  | succ i ih =>
      intro n hn
      have hi : format.degree - (n + 1) = i := by omega
      have hnext := ih (n + 1) (by omega)
      rw [hornerStage, hi] at hnext
      rw [expHornerF40, hnext]

/-- The unsigned kernel computes the magnitude when the coefficients have words. -/
theorem toNat_hornerStage (hformat : format.Alternates)
    (hwords : ∀ i ≤ format.degree, (format.coefficientWord i).toNat = format.magnitude i)
    {remainder : UInt64} (hr : remainder.toNat ≤ format.step.toNat) :
    ∀ n ≤ format.degree,
      (hornerStage format remainder n).toNat = hornerMagnitude format remainder.toNat n := by
  intro n
  induction n with
  | zero => exact fun _ => hwords _ le_rfl
  | succ n ih =>
      intro hn
      have hlt := hornerProduct_lt hformat hr hn
      have hword := (format.coefficientWord (format.degree - (n + 1))).toNat_lt
      have hcoefficient := hwords (format.degree - (n + 1)) (by omega)
      have hproduct : (pfQUmul (hornerStage format remainder n) remainder).toNat =
          hornerMagnitude format remainder.toNat n * remainder.toNat := by
        rw [toNat_pfQUmul, ih (by omega)]
      have hfits : roundedQuotient (pfQUmul (hornerStage format remainder n) remainder).toNat
          (2 ^ format.fractional) < 2 ^ 64 := by
        rw [hproduct]
        omega
      have hrounded := toNat_pfQUround hfits
      rw [hproduct] at hrounded
      rw [hornerStage, hornerMagnitude, UInt64.toNat_sub_of_le, hcoefficient, hrounded]
      rw [UInt64.le_iff_toNat_le, hcoefficient, hrounded]
      exact hlt.le

end Xhive.Particles
