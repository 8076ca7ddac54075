import Xhive.Particles.GaussianSums
import Xhive.Support.NestedSums
import Xhive.Particles.GaussianSolver
import Xhive.Particles.Moments
import Xhive.Ukf.BitValues

/-!
# Logarithms of a Cholesky diagonal

`pf_q_log_impl.h`: each diagonal is normalized to a mantissa and an exponent, the
mantissa goes through an odd series on one fixed grid, and the exact sum of all
logarithms returns to the working type once, which is left out here.
-/

namespace Xhive.Particles

open Xhive.Support Xhive.Linears Xhive.Ukf

/-- What the two builds of the logarithm differ in. -/
class LogFormat (Q : Type) extends WorkLayout Q where
  /-- `PQ_LOG_F`. -/
  logF : ℕ
  /-- `PQ_LOG_TERMS`. -/
  logTerms : ℕ
  /-- `PQ_LOG_LN2`. -/
  logLn2 : UInt64
  logCoefficients : List UInt64
  /-- The truncation tail that the source declares. -/
  logTail : ℚ
  /-- The shifted numerator of the quotient. -/
  logNumerator : UInt64 → Accum
  logProduct : UInt64 → UInt64 → UInt64

instance logFormatQ15 : LogFormat Int16 where
  logF := 30
  logTerms := 8
  logLn2 := 744261118
  logCoefficients :=
    [1073741824, 357913941, 214748365, 153391689, 119304647, 97612893, 82595525, 71582788]
  logTail := 1025 / 10 ^ 12
  logNumerator value := ⟨value <<< 30, 0⟩
  logProduct a b := (a * b + 0x20000000) >>> 30

instance logFormatQ31 : LogFormat Int32 where
  logF := 54
  logTerms := 17
  logLn2 := 12486629536330718
  logCoefficients :=
    [18014398509481984, 6004799503160661, 3602879701896397, 2573485501354569, 2001599834386887,
      1637672591771089, 1385722962267845, 1200959900632132, 1059670500557764, 948126237341157,
      857828500451523, 783234717803565, 720575940379279, 667199944795629, 621186155499379,
      581109629338129, 545890863923696]
  logTail := 1285 / 10 ^ 21
  logNumerator value := expShl ⟨value, 0⟩ 54
  logProduct a b := pfQUround (pfQUmul a b) 54

section Log

variable (Q : Type) [LogFormat Q]

def logCoefficient (i : ℕ) : UInt64 :=
  (LogFormat.logCoefficients Q).getD i 0

/-- The rounds that normalize a subnormal mantissa; each fraction bit allows one. -/
def logNormalize (unit : ℕ) : ℕ → ℕ × ℤ → ℕ × ℤ
  | 0, s => s
  | rounds + 1, s => if s.1 < unit then logNormalize unit rounds (s.1 * 2, s.2 - 1) else s

variable {Q} in
/-- The mantissa of a positive value on the grid, and its exponent. -/
def logInput (value : WorkBits Q) : UInt64 × ℤ :=
  let encoded := value.toNat / 2 ^ fractionBits Q
  let mantissa := value.toNat % 2 ^ fractionBits Q
  let s : ℕ × ℤ := if encoded = 0 then
      logNormalize (2 ^ fractionBits Q) (fractionBits Q) (mantissa, 1 - exponentBias Q)
    else (mantissa + 2 ^ fractionBits Q, encoded - exponentBias Q)
  (UInt64.ofNat s.1 <<< UInt64.ofNat (LogFormat.logF Q - fractionBits Q), s.2)

/-- The loop over the coefficients below the last one. -/
def logHorner (squared : UInt64) : ℕ → UInt64 → UInt64
  | 0, polynomial => polynomial
  | i + 1, polynomial =>
      logHorner squared i (logCoefficient Q i + LogFormat.logProduct Q polynomial squared)

def logOne : UInt64 :=
  1 <<< UInt64.ofNat (LogFormat.logF Q)

/-- `t = (m - 1) / (m + 1)`. -/
def logQuotient (mantissa : UInt64) : Option UInt64 :=
  divide (LogFormat.logNumerator Q (mantissa - logOne Q)) (mantissa + logOne Q) true

def logPolynomial (t : UInt64) : UInt64 :=
  let squared := LogFormat.logProduct Q t t
  logHorner Q squared (LogFormat.logTerms Q - 1) (logCoefficient Q (LogFormat.logTerms Q - 1))

/-- `log_mantissa`; without a quotient the source would read an unset word. -/
def logMantissa (mantissa : UInt64) : Option UInt64 :=
  if mantissa = logOne Q then some 0
  else do
    let t ← logQuotient Q mantissa
    some (2 * LogFormat.logProduct Q (logPolynomial Q t) t)

variable {Q}

/-- The logarithm of one diagonal is added. -/
def logStep (lower : ℕ → WorkBits Q) (k i : ℕ) (sum : Accum) : Except SolverExit Accum := do
  let input := logInput (lower (i * k + i))
  let log ← orStop .refused (logMantissa Q input.1)
  .ok (pfQIadd (pfQIadd sum log false)
    (UInt64.ofNat input.2.natAbs * LogFormat.logLn2 Q) (input.2 < 0))

/-- The sum of `log_determinant_try` after `count` diagonals. -/
def logDeterminant (lower : ℕ → WorkBits Q) (k count : ℕ) : Except SolverExit Accum :=
  forRange 0 count ⟨0, 0⟩ (logStep lower k)

end Log

end Xhive.Particles

/-!
## The error budget of the logarithm

The quotient, its square, every coefficient and every product are rounded once;
together with the truncated series they stay below the declared budget.  No
intermediate value leaves its words.
-/

namespace Xhive.Particles

open Xhive.Support Xhive.Linears Xhive.Ukf

/-! ## Formats -/

/-- What both builds promise of their constants and helpers. -/
class LawfulLogFormat (Q : Type) [LogFormat Q] : Prop where
  logF_bounds : 30 ≤ LogFormat.logF Q ∧ LogFormat.logF Q ≤ 54
  fractionBits_le : fractionBits Q ≤ LogFormat.logF Q
  logTerms_pos : 0 < LogFormat.logTerms Q
  coefficient_close : ∀ i < LogFormat.logTerms Q,
    2 * 2 ^ LogFormat.logF Q ≤ (2 * (logCoefficient Q i).toNat + 1) * (2 * i + 1) ∧
      2 * (logCoefficient Q i).toNat * (2 * i + 1) ≤ 2 * 2 ^ LogFormat.logF Q + (2 * i + 1)
  numerator_eq : ∀ x : UInt64, x.toNat < 2 ^ LogFormat.logF Q →
    (LogFormat.logNumerator Q x).toNat = x.toNat * 2 ^ LogFormat.logF Q
  product_eq : ∀ a b : UInt64,
    a.toNat * b.toNat + 2 ^ (LogFormat.logF Q - 1) < 2 ^ (2 * LogFormat.logF Q) →
      (LogFormat.logProduct Q a b).toNat =
        roundedQuotient (a.toNat * b.toNat) (2 ^ LogFormat.logF Q)
  ln2_pos : 0 < (LogFormat.logLn2 Q).toNat
  ln2_close : |((LogFormat.logLn2 Q).toNat : ℝ) - 2 ^ LogFormat.logF Q * Real.log 2| ≤ 1 / 2
  tail_lt : (31 / 8 : ℚ) + 2 ^ LogFormat.logF Q *
    (2 * ((1 / 3) ^ (2 * LogFormat.logTerms Q + 1) / (2 * LogFormat.logTerms Q + 1) +
      9 / 8 * (1 / 3) ^ (2 * LogFormat.logTerms Q + 3))) <
        8 + 2 ^ LogFormat.logF Q * LogFormat.logTail Q
  exponent_room : (exponentBias Q + fractionBits Q) * (LogFormat.logLn2 Q).toNat < 2 ^ 64 - 2 ^ 55
  infinity_eq : LikelihoodFormat.infinity Q = (2 * exponentBias Q + 1) * 2 ^ fractionBits Q

instance lawfulLogQ15 : LawfulLogFormat Int16 where
  logF_bounds := by decide
  fractionBits_le := by decide
  logTerms_pos := by decide
  coefficient_close := by decide
  numerator_eq x hx := by
    have hfits : x.toNat < 2 ^ 30 := hx
    have hnumerator : LogFormat.logNumerator Int16 x = ⟨x <<< UInt64.ofNat 30, 0⟩ := rfl
    rw [hnumerator, toNat_word]
    exact toNat_shiftLeft_of_fits (by omega) (by omega)
  product_eq a b h := by
    have hroom : a.toNat * b.toNat + 2 ^ 29 < 2 ^ 60 := h
    have hhalf : (0x20000000 : UInt64).toNat = 2 ^ 29 := rfl
    have hproduct : (a * b).toNat = a.toNat * b.toNat := toNat_mul_of_fits (by omega)
    have hsum : (a * b + 0x20000000).toNat = a.toNat * b.toNat + 2 ^ 29 := by
      rw [toNat_add_of_fits (by omega), hproduct, hhalf]
    have hshift : (LogFormat.logProduct Int16 a b).toNat = (a * b + 0x20000000).toNat / 2 ^ 30 :=
      toNat_shiftRight_eq _ 30 (by decide)
    rw [hshift, hsum]
    exact div_add_half_eq _ (Nat.two_pow_pos 30)
  ln2_pos := by decide
  ln2_close := by
    obtain ⟨hlow, hhigh⟩ := log_two_bounds
    have hln2 : (LogFormat.logLn2 Int16).toNat = 744261118 := rfl
    have hscale : LogFormat.logF Int16 = 30 := rfl
    rw [hln2, hscale, abs_le]
    push_cast
    constructor <;> linarith
  tail_lt := by
    have hscale : LogFormat.logF Int16 = 30 := rfl
    have hterms : LogFormat.logTerms Int16 = 8 := rfl
    have htail : LogFormat.logTail Int16 = 1025 / 10 ^ 12 := rfl
    rw [hscale, hterms, htail]
    norm_num
  exponent_room := by decide
  infinity_eq := by decide

instance lawfulLogQ31 : LawfulLogFormat Int32 where
  logF_bounds := by decide
  fractionBits_le := by decide
  logTerms_pos := by decide
  coefficient_close := by decide
  numerator_eq x hx := by
    have hfits : x.toNat < 2 ^ 54 := hx
    have hnumerator : LogFormat.logNumerator Int32 x = expShl ⟨x, 0⟩ 54 := rfl
    rw [hnumerator, toNat_expShl (by rw [toNat_word]; omega) (by omega), toNat_word]
    rfl
  product_eq a b h := by
    have hroom : a.toNat * b.toNat + 2 ^ 53 < 2 ^ 108 := h
    have hround : LogFormat.logProduct Int32 a b = pfQUround (pfQUmul a b) 54 := rfl
    have hle : roundedQuotient (a.toNat * b.toNat) (2 ^ 54) ≤ 2 ^ 54 :=
      roundedQuotient_le_of_le_mul (Nat.two_pow_pos 54) (by omega)
    rw [hround, toNat_pfQUround (by rw [toNat_pfQUmul]; omega), toNat_pfQUmul]
    rfl
  ln2_pos := by decide
  ln2_close := by
    obtain ⟨hlow, hhigh⟩ := log_two_bounds
    have hln2 : (LogFormat.logLn2 Int32).toNat = 12486629536330718 := rfl
    have hscale : LogFormat.logF Int32 = 54 := rfl
    rw [hln2, hscale, abs_le]
    push_cast
    constructor <;> linarith
  tail_lt := by
    have hscale : LogFormat.logF Int32 = 54 := rfl
    have hterms : LogFormat.logTerms Int32 = 17 := rfl
    have htail : LogFormat.logTail Int32 = 1285 / 10 ^ 21 := rfl
    rw [hscale, hterms, htail]
    norm_num
  exponent_room := by decide
  infinity_eq := by decide

section Log

variable {Q : Type} [LogFormat Q] [LawfulLogFormat Q]

/-- One on the grid. -/
noncomputable def logScale (Q : Type) [LogFormat Q] : ℝ :=
  (2 ^ LogFormat.logF Q : ℕ)

omit [LawfulLogFormat Q] in
theorem cast_logScale : ((2 ^ LogFormat.logF Q : ℕ) : ℝ) = logScale Q :=
  rfl

omit [LawfulLogFormat Q] in
theorem logScale_eq (Q : Type) [LogFormat Q] : logScale Q = 2 ^ LogFormat.logF Q := by
  rw [logScale, Nat.cast_pow, Nat.cast_ofNat]

theorem pow_logF_bounds (Q : Type) [LogFormat Q] [LawfulLogFormat Q] :
    2 ^ 30 ≤ 2 ^ LogFormat.logF Q ∧ 2 ^ LogFormat.logF Q ≤ 2 ^ 54 := by
  obtain ⟨hlow, hhigh⟩ := LawfulLogFormat.logF_bounds (Q := Q)
  exact ⟨Nat.pow_le_pow_right two_pos hlow, Nat.pow_le_pow_right two_pos hhigh⟩

theorem logScale_ge (Q : Type) [LogFormat Q] [LawfulLogFormat Q] : 2 ^ 30 ≤ logScale Q := by
  rw [← cast_logScale]
  exact_mod_cast (pow_logF_bounds Q).1

/-! ## Products -/

/-- A product that keeps its word and is rounded once. -/
structure ProductExact (Q : Type) [LogFormat Q] (a b : UInt64) : Prop where
  room : a.toNat * b.toNat + 2 ^ (LogFormat.logF Q - 1) < 2 ^ (2 * LogFormat.logF Q)
  value : (LogFormat.logProduct Q a b).toNat =
    roundedQuotient (a.toNat * b.toNat) (2 ^ LogFormat.logF Q)

/-- The products of the series fit. -/
theorem product_exact {a b : UInt64} (ha : (a.toNat : ℝ) ≤ logScale Q * (5 / 4))
    (hb : (b.toNat : ℝ) ≤ logScale Q * (7 / 20)) : ProductExact Q a b := by
  have hge := logScale_ge Q
  have hhalf : 2 ^ (LogFormat.logF Q - 1) * 2 = 2 ^ LogFormat.logF Q := by
    have hbounds := LawfulLogFormat.logF_bounds (Q := Q)
    rw [← pow_succ]
    congr 1
    omega
  have hreal : ((2 ^ (LogFormat.logF Q - 1) : ℕ) : ℝ) * 2 = logScale Q := by
    rw [← cast_logScale]
    exact_mod_cast hhalf
  have hsquare : ((2 ^ (2 * LogFormat.logF Q) : ℕ) : ℝ) = logScale Q * logScale Q := by
    rw [← cast_logScale, two_mul, pow_add]
    push_cast
    ring
  have hproduct : (a.toNat : ℝ) * b.toNat ≤ logScale Q * (5 / 4) * (logScale Q * (7 / 20)) :=
    mul_le_mul ha hb (Nat.cast_nonneg _) (by positivity)
  have hroom : a.toNat * b.toNat + 2 ^ (LogFormat.logF Q - 1) < 2 ^ (2 * LogFormat.logF Q) := by
    have hcast : ((a.toNat * b.toNat + 2 ^ (LogFormat.logF Q - 1) : ℕ) : ℝ) <
        ((2 ^ (2 * LogFormat.logF Q) : ℕ) : ℝ) := by
      rw [hsquare, Nat.cast_add, Nat.cast_mul]
      nlinarith
    exact_mod_cast hcast
  exact ⟨hroom, LawfulLogFormat.product_eq a b hroom⟩

omit [LawfulLogFormat Q] in
theorem ProductExact.abs_sub_le {a b : UInt64} (h : ProductExact Q a b) :
    |((LogFormat.logProduct Q a b).toNat : ℝ) - a.toNat * b.toNat / logScale Q| ≤ 1 / 2 := by
  have hclose := abs_roundedQuotient_sub_real (a.toNat * b.toNat)
    (Nat.two_pow_pos (LogFormat.logF Q))
  rwa [← h.value, cast_logScale, Nat.cast_mul] at hclose

theorem coefficient_close {i : ℕ} (hi : i < LogFormat.logTerms Q) :
    |((logCoefficient Q i).toNat : ℝ) - logScale Q * oddCoefficient i| ≤ 1 / 2 := by
  obtain ⟨hlow, hhigh⟩ := LawfulLogFormat.coefficient_close i hi
  have hpos : (0 : ℝ) < 2 * i + 1 := by positivity
  have hlow' : 2 * logScale Q ≤ (2 * ((logCoefficient Q i).toNat : ℝ) + 1) * (2 * i + 1) := by
    rw [← cast_logScale]
    exact_mod_cast hlow
  have hhigh' : 2 * ((logCoefficient Q i).toNat : ℝ) * (2 * i + 1) ≤
      2 * logScale Q + (2 * i + 1) := by
    rw [← cast_logScale]
    exact_mod_cast hhigh
  rw [oddCoefficient_eq, mul_one_div, abs_le]
  constructor
  · rw [neg_le_sub_iff_le_add, ← sub_le_iff_le_add, div_sub' hpos.ne', div_le_iff₀ hpos]
    linarith
  · rw [sub_le_iff_le_add, ← sub_le_iff_le_add', le_div_iff₀ hpos]
    linarith

/-! ## The nested sum -/

/-- Every step of the loop is exact but for the rounding of its product. -/
def HornerExact (Q : Type) [LogFormat Q] (squared : UInt64) : ℕ → UInt64 → Prop
  | 0, _ => True
  | i + 1, polynomial =>
      ProductExact Q polynomial squared ∧
        (logCoefficient Q i + LogFormat.logProduct Q polynomial squared).toNat =
          (logCoefficient Q i).toNat + (LogFormat.logProduct Q polynomial squared).toNat ∧
        HornerExact Q squared i
          (logCoefficient Q i + LogFormat.logProduct Q polynomial squared)

/-- A partial sum stays near one. -/
theorem polynomial_le {p : UInt64} {s : ℝ} {n i : ℕ} (hs : |s| ≤ 1 / 9)
    (hp : |(p.toNat : ℝ) - logScale Q * nestedSum oddCoefficient s n i| ≤ 5 / 2) :
    (p.toNat : ℝ) ≤ logScale Q * (5 / 4) := by
  have hge := logScale_ge Q
  have hsum := abs_nestedSum_le abs_oddCoefficient_le hs (M := 9 / 8) (by norm_num) (by norm_num)
    n i
  have hle := (abs_le.mp hsum).2
  have hscaled : logScale Q * nestedSum oddCoefficient s n i ≤ logScale Q * (9 / 8) :=
    mul_le_mul_of_nonneg_left hle (by linarith)
  have hclose := (abs_le.mp hp).2
  linarith

theorem horner_step {squared p : UInt64} {s : ℝ} {n i : ℕ} (hi : i < LogFormat.logTerms Q)
    (hs : |s| ≤ 1 / 9) (hS : |(squared.toNat : ℝ) - logScale Q * s| ≤ 9 / 10)
    (hSb : (squared.toNat : ℝ) ≤ logScale Q * (1 / 8))
    (hp : |(p.toNat : ℝ) - logScale Q * nestedSum oddCoefficient s n (i + 1)| ≤ 5 / 2) :
    ProductExact Q p squared ∧
      (logCoefficient Q i + LogFormat.logProduct Q p squared).toNat =
        (logCoefficient Q i).toNat + (LogFormat.logProduct Q p squared).toNat ∧
      |((logCoefficient Q i + LogFormat.logProduct Q p squared).toNat : ℝ) -
        logScale Q * nestedSum oddCoefficient s (n + 1) i| ≤ 5 / 2 := by
  have hge := logScale_ge Q
  have hpos : 0 < logScale Q := by linarith
  have hproduct := product_exact (polynomial_le hs hp) (by linarith : (squared.toNat : ℝ) ≤ _)
  have hsum := abs_nestedSum_le abs_oddCoefficient_le hs (M := 9 / 8) (by norm_num) (by norm_num) n
    (i + 1)
  have hstep := abs_nested_step hpos (coefficient_close hi) hproduct.abs_sub_le hS
    (by rwa [Nat.abs_cast]) hp hsum
  have hclose : |((logCoefficient Q i).toNat : ℝ) + (LogFormat.logProduct Q p squared).toNat -
      logScale Q * nestedSum oddCoefficient s (n + 1) i| ≤ 5 / 2 :=
    hstep.trans (by norm_num)
  have hfits : (logCoefficient Q i).toNat + (LogFormat.logProduct Q p squared).toNat < 2 ^ 64 := by
    have hlimit := (pow_logF_bounds Q).2
    have hlimit' : logScale Q ≤ 2 ^ 54 := by
      rw [← cast_logScale]
      exact_mod_cast hlimit
    have hnext := abs_nestedSum_le abs_oddCoefficient_le hs (M := 9 / 8) (by norm_num)
      (by norm_num) (n + 1) i
    have hscaled : logScale Q * nestedSum oddCoefficient s (n + 1) i ≤ logScale Q * (9 / 8) :=
      mul_le_mul_of_nonneg_left (abs_le.mp hnext).2 hpos.le
    have hreal : (((logCoefficient Q i).toNat + (LogFormat.logProduct Q p squared).toNat : ℕ) : ℝ) <
        ((2 ^ 64 : ℕ) : ℝ) := by
      rw [Nat.cast_add]
      have hbelow := (abs_le.mp hclose).2
      norm_num
      linarith
    exact_mod_cast hreal
  have hexact := toNat_add_of_fits hfits
  refine ⟨hproduct, hexact, ?_⟩
  rw [hexact, Nat.cast_add]
  exact hclose

theorem logHorner_spec {squared : UInt64} {s : ℝ} (hs : |s| ≤ 1 / 9)
    (hS : |(squared.toNat : ℝ) - logScale Q * s| ≤ 9 / 10)
    (hSb : (squared.toNat : ℝ) ≤ logScale Q * (1 / 8)) (i n : ℕ) (p : UInt64)
    (hi : i ≤ LogFormat.logTerms Q)
    (hp : |(p.toNat : ℝ) - logScale Q * nestedSum oddCoefficient s n i| ≤ 5 / 2) :
    HornerExact Q squared i p ∧
      |((logHorner Q squared i p).toNat : ℝ) -
        logScale Q * nestedSum oddCoefficient s (n + i) 0| ≤ 5 / 2 := by
  induction i generalizing n p with
  | zero => exact ⟨trivial, hp⟩
  | succ i ih =>
      obtain ⟨hproduct, hsum, hnext⟩ := horner_step hi hs hS hSb hp
      obtain ⟨hrest, hclose⟩ := ih (n + 1) _ (by omega) hnext
      refine ⟨⟨hproduct, hsum, hrest⟩, ?_⟩
      rwa [Nat.add_assoc, Nat.add_comm 1 i] at hclose

/-! ## A mantissa -/

/-- Every 64-bit and 128-bit value of the logarithm of a mantissa is exact. -/
structure MantissaExact (Q : Type) [LogFormat Q] (mantissa t : UInt64) : Prop where
  numerator : (LogFormat.logNumerator Q (mantissa - logOne Q)).toNat =
    (mantissa.toNat - 2 ^ LogFormat.logF Q) * 2 ^ LogFormat.logF Q
  denominator : (mantissa + logOne Q).toNat = mantissa.toNat + 2 ^ LogFormat.logF Q
  quotient : logQuotient Q mantissa = some t
  rounded : t.toNat = roundedQuotient
    ((mantissa.toNat - 2 ^ LogFormat.logF Q) * 2 ^ LogFormat.logF Q)
    (mantissa.toNat + 2 ^ LogFormat.logF Q)
  square : ProductExact Q t t
  horner : HornerExact Q (LogFormat.logProduct Q t t) (LogFormat.logTerms Q - 1)
    (logCoefficient Q (LogFormat.logTerms Q - 1))
  product : ProductExact Q (logPolynomial Q t) t
  double : (2 * LogFormat.logProduct Q (logPolynomial Q t) t).toNat =
    2 * (LogFormat.logProduct Q (logPolynomial Q t) t).toNat

theorem toNat_logOne (Q : Type) [LogFormat Q] [LawfulLogFormat Q] :
    (logOne Q).toNat = 2 ^ LogFormat.logF Q := by
  obtain ⟨-, hle⟩ := LawfulLogFormat.logF_bounds (Q := Q)
  have hpow := (pow_logF_bounds Q).2
  have hone : (1 : UInt64).toNat = 1 := rfl
  rw [logOne, toNat_shiftLeft_of_fits (by omega) (by rw [hone]; omega), hone, Nat.one_mul]

section Mantissa

variable {mantissa : UInt64} (hlow : 2 ^ LogFormat.logF Q ≤ mantissa.toNat)
  (hhigh : mantissa.toNat < 2 ^ (LogFormat.logF Q + 1))
include hlow hhigh

theorem mantissa_numerator : (LogFormat.logNumerator Q (mantissa - logOne Q)).toNat =
    (mantissa.toNat - 2 ^ LogFormat.logF Q) * 2 ^ LogFormat.logF Q := by
  have hone := toNat_logOne Q
  have hsub : (mantissa - logOne Q).toNat = mantissa.toNat - 2 ^ LogFormat.logF Q := by
    rw [UInt64.toNat_sub_of_le _ _ (UInt64.le_iff_toNat_le.mpr (by rw [hone]; exact hlow)), hone]
  rw [pow_succ] at hhigh
  rw [LawfulLogFormat.numerator_eq _ (by rw [hsub]; omega), hsub]

omit hlow in
theorem mantissa_denominator :
    (mantissa + logOne Q).toNat = mantissa.toNat + 2 ^ LogFormat.logF Q := by
  have hone := toNat_logOne Q
  have hpow := (pow_logF_bounds Q).2
  rw [pow_succ] at hhigh
  rw [toNat_add_of_fits (by rw [hone]; omega), hone]

/-- The quotient has a word. -/
theorem exists_logQuotient : ∃ t : UInt64, logQuotient Q mantissa = some t ∧
    t.toNat = roundedQuotient ((mantissa.toNat - 2 ^ LogFormat.logF Q) * 2 ^ LogFormat.logF Q)
      (mantissa.toNat + 2 ^ LogFormat.logF Q) := by
  have hnumerator := mantissa_numerator hlow hhigh
  have hdenominator := mantissa_denominator hhigh
  have hpow := (pow_logF_bounds Q).2
  have hpos := Nat.two_pow_pos (LogFormat.logF Q)
  have hle : roundedQuotient ((mantissa.toNat - 2 ^ LogFormat.logF Q) * 2 ^ LogFormat.logF Q)
      (mantissa.toNat + 2 ^ LogFormat.logF Q) ≤ 2 ^ LogFormat.logF Q :=
    roundedQuotient_le_of_le_mul (by omega) (Nat.mul_le_mul_right _ (by omega))
  rw [← hnumerator, ← hdenominator] at hle ⊢
  have hword := UInt64.toNat_ofNat_of_lt' (hle.trans_lt (hpow.trans_lt (by norm_num)))
  refine ⟨_, (divide_spec (by rw [hdenominator]; omega) true _).mpr hword, hword⟩

/-- The exact argument of the series. -/
theorem argument_bounds :
    0 ≤ ((mantissa.toNat : ℝ) - logScale Q) / (mantissa.toNat + logScale Q) ∧
      ((mantissa.toNat : ℝ) - logScale Q) / (mantissa.toNat + logScale Q) ≤ 1 / 3 := by
  have hge := logScale_ge Q
  have hlow' : logScale Q ≤ mantissa.toNat := by
    rw [← cast_logScale]
    exact_mod_cast hlow
  have hhigh' : (mantissa.toNat : ℝ) ≤ 2 * logScale Q := by
    rw [pow_succ, mul_comm] at hhigh
    rw [← cast_logScale]
    exact_mod_cast hhigh.le
  constructor
  · exact div_nonneg (by linarith) (by linarith)
  · rw [div_le_iff₀ (by linarith)]
    linarith

omit hhigh in
theorem argument_ratio :
    (1 + ((mantissa.toNat : ℝ) - logScale Q) / (mantissa.toNat + logScale Q)) /
      (1 - ((mantissa.toNat : ℝ) - logScale Q) / (mantissa.toNat + logScale Q)) =
        mantissa.toNat / logScale Q := by
  have hge := logScale_ge Q
  have hlow' : logScale Q ≤ mantissa.toNat := by
    rw [← cast_logScale]
    exact_mod_cast hlow
  have hpos : 0 < logScale Q := by linarith
  have hsum : 0 < (mantissa.toNat : ℝ) + logScale Q := by linarith
  have hnumerator : 1 + ((mantissa.toNat : ℝ) - logScale Q) / (mantissa.toNat + logScale Q) =
      2 * mantissa.toNat / (mantissa.toNat + logScale Q) := by
    field_simp
    ring
  have hdenominator : 1 - ((mantissa.toNat : ℝ) - logScale Q) / (mantissa.toNat + logScale Q) =
      2 * logScale Q / (mantissa.toNat + logScale Q) := by
    field_simp
    ring
  rw [hnumerator, hdenominator, div_div_div_cancel_right₀ hsum.ne',
    mul_div_mul_left _ _ two_ne_zero]

omit [LawfulLogFormat Q] hhigh in
theorem abs_quotient_sub_le {t : UInt64}
    (ht : t.toNat = roundedQuotient
      ((mantissa.toNat - 2 ^ LogFormat.logF Q) * 2 ^ LogFormat.logF Q)
      (mantissa.toNat + 2 ^ LogFormat.logF Q)) :
    |(t.toNat : ℝ) - logScale Q *
      (((mantissa.toNat : ℝ) - logScale Q) / (mantissa.toNat + logScale Q))| ≤ 1 / 2 := by
  have hpos := Nat.two_pow_pos (LogFormat.logF Q)
  have hclose := abs_roundedQuotient_sub_real
    ((mantissa.toNat - 2 ^ LogFormat.logF Q) * 2 ^ LogFormat.logF Q)
    (d := mantissa.toNat + 2 ^ LogFormat.logF Q) (by omega)
  rw [← ht, Nat.cast_mul, Nat.cast_sub hlow, Nat.cast_add, cast_logScale] at hclose
  rwa [mul_comm, mul_div_assoc] at hclose

end Mantissa

/-- The argument of the series and its square, rounded. -/
theorem square_close {t : UInt64} {x : ℝ} (hx : 0 ≤ x) (hthird : x ≤ 1 / 3)
    (ht : |(t.toNat : ℝ) - logScale Q * x| ≤ 1 / 2) :
    (t.toNat : ℝ) ≤ logScale Q * (7 / 20) ∧ ProductExact Q t t ∧
      |((LogFormat.logProduct Q t t).toNat : ℝ) - logScale Q * x ^ 2| ≤ 9 / 10 ∧
        ((LogFormat.logProduct Q t t).toNat : ℝ) ≤ logScale Q * (1 / 8) := by
  have hge := logScale_ge Q
  have hpos : 0 < logScale Q := by linarith
  have hscaled : logScale Q * x ≤ logScale Q * (1 / 3) := mul_le_mul_of_nonneg_left hthird hpos.le
  have hbelow := (abs_le.mp ht).2
  have hsmall : (t.toNat : ℝ) ≤ logScale Q * (7 / 20) := by linarith
  have hproduct : ProductExact Q t t := product_exact (by linarith) hsmall
  have hsquare := abs_rounded_product hpos hproduct.abs_sub_le ht (by rwa [Nat.abs_cast]) ht
    (abs_le.mpr ⟨by linarith, hthird⟩)
  rw [← pow_two] at hsquare
  have hclose : |((LogFormat.logProduct Q t t).toNat : ℝ) - logScale Q * x ^ 2| ≤ 9 / 10 :=
    hsquare.trans (by norm_num)
  have hninth : logScale Q * x ^ 2 ≤ logScale Q * (1 / 9) :=
    mul_le_mul_of_nonneg_left (by nlinarith) hpos.le
  have hupper := (abs_le.mp hclose).2
  exact ⟨hsmall, hproduct, hclose, by linarith⟩

/-- The whole sum, from its last coefficient. -/
theorem logPolynomial_spec {t : UInt64} {x : ℝ} (hx : 0 ≤ x) (hthird : x ≤ 1 / 3)
    (ht : |(t.toNat : ℝ) - logScale Q * x| ≤ 1 / 2) :
    HornerExact Q (LogFormat.logProduct Q t t) (LogFormat.logTerms Q - 1)
        (logCoefficient Q (LogFormat.logTerms Q - 1)) ∧
      |((logPolynomial Q t).toNat : ℝ) -
        logScale Q * nestedSum oddCoefficient (x ^ 2) (LogFormat.logTerms Q) 0| ≤ 5 / 2 := by
  obtain ⟨-, -, hclose, hsmall⟩ := square_close hx hthird ht
  have hterms := LawfulLogFormat.logTerms_pos (Q := Q)
  have hninth : |x ^ 2| ≤ 1 / 9 := by
    rw [abs_of_nonneg (by positivity)]
    nlinarith
  have hlast : |((logCoefficient Q (LogFormat.logTerms Q - 1)).toNat : ℝ) -
      logScale Q * nestedSum oddCoefficient (x ^ 2) 1 (LogFormat.logTerms Q - 1)| ≤ 5 / 2 := by
    rw [nestedSum, nestedSum, mul_zero, add_zero]
    exact (coefficient_close (by omega)).trans (by norm_num)
  obtain ⟨hexact, hpolynomial⟩ := logHorner_spec hninth hclose hsmall _ 1 _ (by omega) hlast
  rw [Nat.add_sub_cancel' (by omega : 1 ≤ LogFormat.logTerms Q)] at hpolynomial
  exact ⟨hexact, hpolynomial⟩

/-- The last product, and how far its double is from the truncated series. -/
theorem log_product_spec {t : UInt64} {x : ℝ} (hx : 0 ≤ x) (hthird : x ≤ 1 / 3)
    (ht : |(t.toNat : ℝ) - logScale Q * x| ≤ 1 / 2) :
    ProductExact Q (logPolynomial Q t) t ∧
      |((LogFormat.logProduct Q (logPolynomial Q t) t).toNat : ℝ) - logScale Q *
        (x * nestedSum oddCoefficient (x ^ 2) (LogFormat.logTerms Q) 0)| ≤ 31 / 16 ∧
      2 * ((LogFormat.logProduct Q (logPolynomial Q t) t).toNat : ℝ) ≤ logScale Q := by
  have hge := logScale_ge Q
  have hpos : 0 < logScale Q := by linarith
  have hninth : |x ^ 2| ≤ 1 / 9 := by
    rw [abs_of_nonneg (by positivity)]
    nlinarith
  have hsmall := (square_close hx hthird ht).1
  obtain ⟨-, hpolynomial⟩ := logPolynomial_spec hx hthird ht
  have hproduct := product_exact (polynomial_le hninth hpolynomial) hsmall
  have hsum := abs_nestedSum_le abs_oddCoefficient_le hninth (M := 9 / 8) (by norm_num)
    (by norm_num) (LogFormat.logTerms Q) 0
  have hrounded := abs_rounded_product hpos hproduct.abs_sub_le ht (by rwa [Nat.abs_cast])
    hpolynomial hsum
  have hclose : |((LogFormat.logProduct Q (logPolynomial Q t) t).toNat : ℝ) - logScale Q *
      (x * nestedSum oddCoefficient (x ^ 2) (LogFormat.logTerms Q) 0)| ≤ 31 / 16 :=
    hrounded.trans (by norm_num)
  have hseries : x * nestedSum oddCoefficient (x ^ 2) (LogFormat.logTerms Q) 0 ≤ 3 / 8 := by
    have hle := (abs_le.mp hsum).2
    nlinarith
  have hscaled := mul_le_mul_of_nonneg_left hseries hpos.le
  have hupper := (abs_le.mp hclose).2
  exact ⟨hproduct, hclose, by linarith⟩

/-- The tail of the series and every rounding stay within the declared budget. -/
theorem series_budget {t : UInt64} {x : ℝ} (hx : 0 ≤ x) (hthird : x ≤ 1 / 3)
    (ht : |(t.toNat : ℝ) - logScale Q * x| ≤ 1 / 2) :
    |2 * ((LogFormat.logProduct Q (logPolynomial Q t) t).toNat : ℝ) -
      logScale Q * Real.log ((1 + x) / (1 - x))| < 8 + logScale Q * LogFormat.logTail Q := by
  have hge := logScale_ge Q
  have hpos : 0 < logScale Q := by linarith
  obtain ⟨-, hclose, -⟩ := log_product_spec hx hthird ht
  obtain ⟨hlow, hhigh⟩ := log_sub_nestedSum_bounds hx hthird (LogFormat.logTerms Q)
  have htail : (31 / 8 : ℝ) + logScale Q *
      (2 * ((1 / 3) ^ (2 * LogFormat.logTerms Q + 1) / (2 * LogFormat.logTerms Q + 1) +
        9 / 8 * (1 / 3) ^ (2 * LogFormat.logTerms Q + 3))) <
          8 + logScale Q * LogFormat.logTail Q := by
    have hcast := (Rat.cast_lt (K := ℝ)).mpr (LawfulLogFormat.tail_lt (Q := Q))
    push_cast at hcast
    rwa [logScale_eq]
  have hscaledLow := mul_nonneg hpos.le hlow
  have hscaledHigh := mul_le_mul_of_nonneg_left hhigh hpos.le
  rw [mul_sub] at hscaledLow hscaledHigh
  obtain ⟨hbelow, habove⟩ := abs_le.mp hclose
  rw [abs_lt]
  constructor <;> linarith

/-- What is promised of the logarithm of a mantissa. -/
structure MantissaBudget (Q : Type) [LogFormat Q] (mantissa : UInt64) (log : UInt64) : Prop where
  value : logMantissa Q mantissa = some log
  steps : mantissa ≠ logOne Q → ∃ t, MantissaExact Q mantissa t
  small : log.toNat ≤ 2 ^ LogFormat.logF Q
  close : |(log.toNat : ℝ) - logScale Q * Real.log (mantissa.toNat / logScale Q)| <
    8 + logScale Q * LogFormat.logTail Q

theorem budget_pos : 0 < 8 + logScale Q * (LogFormat.logTail Q : ℝ) := by
  have hge := logScale_ge Q
  have hcast := (Rat.cast_lt (K := ℝ)).mpr (LawfulLogFormat.tail_lt (Q := Q))
  push_cast at hcast
  rw [logScale_eq]
  refine lt_trans ?_ hcast
  positivity

/-- Every mantissa meets the budget. -/
theorem logMantissa_budget {mantissa : UInt64} (hlow : 2 ^ LogFormat.logF Q ≤ mantissa.toNat)
    (hhigh : mantissa.toNat < 2 ^ (LogFormat.logF Q + 1)) :
    ∃ log, MantissaBudget Q mantissa log := by
  have hone := toNat_logOne Q
  by_cases hunit : mantissa = logOne Q
  · refine ⟨0, by rw [logMantissa, if_pos hunit], fun h => absurd hunit h, Nat.zero_le _, ?_⟩
    have hge := logScale_ge Q
    have hratio : (mantissa.toNat : ℝ) / logScale Q = 1 := by
      rw [hunit, hone, cast_logScale, div_self (by linarith)]
    rw [hratio, Real.log_one, mul_zero, sub_zero, UInt64.toNat_zero, Nat.cast_zero, abs_zero]
    exact budget_pos
  · obtain ⟨t, hquotient, hrounded⟩ := exists_logQuotient hlow hhigh
    obtain ⟨hnonneg, hthird⟩ := argument_bounds hlow hhigh
    have ht := abs_quotient_sub_le hlow hrounded
    obtain ⟨-, hsquare, -, -⟩ := square_close hnonneg hthird ht
    obtain ⟨hhorner, -⟩ := logPolynomial_spec hnonneg hthird ht
    obtain ⟨hproduct, -, hsmall⟩ := log_product_spec hnonneg hthird ht
    have hbudget := series_budget hnonneg hthird ht
    rw [argument_ratio hlow] at hbudget
    have hle : 2 * (LogFormat.logProduct Q (logPolynomial Q t) t).toNat ≤
        2 ^ LogFormat.logF Q := by
      rw [← cast_logScale] at hsmall
      exact_mod_cast hsmall
    have hlimit := (pow_logF_bounds Q).2
    have htwo : (2 : UInt64).toNat = 2 := rfl
    have hdouble : (2 * LogFormat.logProduct Q (logPolynomial Q t) t).toNat =
        2 * (LogFormat.logProduct Q (logPolynomial Q t) t).toNat := by
      rw [toNat_mul_of_fits (by rw [htwo]; omega), htwo]
    refine ⟨2 * LogFormat.logProduct Q (logPolynomial Q t) t, ?_, fun _ => ⟨t, ?_⟩, ?_, ?_⟩
    · rw [logMantissa, if_neg hunit, hquotient]
      rfl
    · exact ⟨mantissa_numerator hlow hhigh, mantissa_denominator hhigh, hquotient, hrounded,
        hsquare, hhorner, hproduct, hdouble⟩
    · rw [hdouble]
      exact hle
    · rw [hdouble, Nat.cast_mul, Nat.cast_ofNat]
      exact hbudget

end Log

end Xhive.Particles
