import Xhive.Particles.ExpHorner
import Xhive.Support.NestedSums

/-!
# How far the exponential kernel is from the exponential

The step of the range reduction, the table, the coefficients and every product are
rounded once.  The step is repeated up to the last interval; with the truncated
series the errors stay below the declared relative budget.
-/

namespace Xhive.Particles

open Xhive.Support Xhive.Linears

/-! ## Formats -/

namespace ExpFormat

/-- The table at an index below 32. -/
def cell (format : ExpFormat) (j : ℕ) : ℕ :=
  (format.table.getD j ⟨0, 0⟩).toNat

/-- What the series misses of the exponential of a reduced argument. -/
def tail (format : ExpFormat) : ℚ :=
  (1 / 40) ^ (format.degree + 1) *
    ((format.degree + 2) / ((format.degree + 1).factorial * (format.degree + 1)))

/-- What the constants of a format promise. -/
structure Accurate (format : ExpFormat) (budget : ℚ) : Prop where
  alternates : format.Alternates
  likelihood_lt : format.likelihoodFraction < 64
  likelihood_lt_fractional : format.likelihoodFraction < format.fractional
  likelihoodOne_eq : format.likelihoodOne.toNat = 2 ^ format.likelihoodFraction
  step_pos : 0 < format.step.toNat
  step_small : 40 * format.step.toNat ≤ 2 ^ format.fractional
  step_close : |(format.step.toNat : ℝ) - 2 ^ format.fractional * (Real.log 2 / 32)| ≤ 1 / 2
  cell_pos : ∀ j < 32, 0 < format.cell j
  cell_le : ∀ j < 32, format.cell j ≤ 2 ^ format.fractional
  cell_close : ∀ j < 32,
    (2 * format.cell j - 1) ^ 32 * 2 ^ j ≤ (2 * 2 ^ format.fractional) ^ 32 ∧
      (2 * 2 ^ format.fractional) ^ 32 ≤ (2 * format.cell j + 1) ^ 32 * 2 ^ j
  magnitude_close : ∀ i ≤ format.degree,
    2 * 2 ^ format.fractional ≤ (2 * format.magnitude i + 1) * i.factorial ∧
      2 * format.magnitude i * i.factorial ≤ 2 * 2 ^ format.fractional + i.factorial
  budget_le : budget ≤ 1
  errors_le : 32 * (format.likelihoodFraction + 1) +
    7 * (8 / 5 + 2 ^ format.fractional * format.tail) ≤ budget * 2 ^ format.fractional

end ExpFormat

theorem expQ15_accurate : expQ15.Accurate (1 / 2 ^ 27) where
  alternates := expQ15_alternates
  likelihood_lt := by decide
  likelihood_lt_fractional := by decide
  likelihoodOne_eq := by decide
  step_pos := by decide
  step_small := by decide
  step_close := by
    obtain ⟨hlow, hhigh⟩ := log_two_bounds
    have hstep : expQ15.step.toNat = 23816355775 := rfl
    have hscale : expQ15.fractional = 40 := rfl
    rw [hstep, hscale, abs_le]
    push_cast
    constructor <;> linarith
  cell_pos := by decide
  cell_le := by decide
  cell_close := by decide
  magnitude_close := by decide
  budget_le := by norm_num
  errors_le := by
    have hscale : expQ15.fractional = 40 := rfl
    have hfraction : expQ15.likelihoodFraction = 31 := rfl
    have hdegree : expQ15.degree = 4 := rfl
    rw [ExpFormat.tail, hscale, hfraction, hdegree]
    norm_num [Nat.factorial]

theorem expQ31_accurate : expQ31.Accurate (1 / 2 ^ 52) where
  alternates := expQ31_alternates
  likelihood_lt := by decide
  likelihood_lt_fractional := by decide
  likelihoodOne_eq := by decide
  step_pos := by decide
  step_small := by decide
  step_close := by
    obtain ⟨hlow, hhigh⟩ := log_two_bounds
    have hstep : expQ31.step.toNat = 399572145162582989 := rfl
    have hscale : expQ31.fractional = 64 := rfl
    rw [hstep, hscale, abs_le]
    push_cast
    constructor <;> linarith
  cell_pos := by decide
  cell_le := by decide
  cell_close := by decide
  magnitude_close := by decide
  budget_le := by norm_num
  errors_le := by
    have hscale : expQ31.fractional = 64 := rfl
    have hfraction : expQ31.likelihoodFraction = 63 := rfl
    have hdegree : expQ31.degree = 7 := rfl
    rw [ExpFormat.tail, hscale, hfraction, hdegree]
    norm_num [Nat.factorial]

/-- A scaled product and a shifted exponent, relative to the exact value. -/
theorem relative_budget {u product w exact steps errors budget : ℝ} {q : ℕ} (hu : 0 < u)
    (herrors : 0 ≤ errors) (hexact : 0 < exact) (hproduct : |product - u ^ 2 * w| ≤ u * errors)
    (hlarge : 3 / 10 ≤ w) (hshifted : |w / 2 ^ q - exact| ≤ steps / u * exact)
    (hbudget : steps + 7 * errors ≤ budget * u) (hone : budget ≤ 1) :
    |product / (u ^ 2 * 2 ^ q) - exact| ≤ budget * exact := by
  have hpow : (0 : ℝ) < 2 ^ q := by positivity
  have hsteps : steps / u ≤ 1 := by
    rw [div_le_one hu]
    have hle : budget * u ≤ 1 * u := mul_le_mul_of_nonneg_right hone hu.le
    linarith
  have hstepsExact : steps / u * exact ≤ 1 * exact := mul_le_mul_of_nonneg_right hsteps hexact.le
  have hunit : 1 / 2 ^ q ≤ 7 * exact := by
    have hratio : 3 / 10 / 2 ^ q ≤ w / 2 ^ q := div_le_div_of_nonneg_right hlarge hpow.le
    have hupper := (abs_le.mp hshifted).2
    have hsplit : (3 / 10 : ℝ) / 2 ^ q = 3 / 10 * (1 / 2 ^ q) := by ring
    rw [hsplit] at hratio
    linarith
  have hscaled : |product / (u ^ 2 * 2 ^ q) - w / 2 ^ q| ≤ errors / u * (7 * exact) := by
    have hsplit : product / (u ^ 2 * 2 ^ q) - w / 2 ^ q =
        (product - u ^ 2 * w) / (u ^ 2 * 2 ^ q) := by
      field_simp
    have hquotient : u * errors / (u ^ 2 * 2 ^ q) = errors / u * (1 / 2 ^ q) := by
      field_simp
    rw [hsplit, abs_div, abs_of_pos (by positivity : 0 < u ^ 2 * 2 ^ q)]
    calc |product - u ^ 2 * w| / (u ^ 2 * 2 ^ q) ≤ u * errors / (u ^ 2 * 2 ^ q) :=
          div_le_div_of_nonneg_right hproduct (by positivity)
      _ = errors / u * (1 / 2 ^ q) := hquotient
      _ ≤ errors / u * (7 * exact) := mul_le_mul_of_nonneg_left hunit (by positivity)
  have htotal : (errors / u * (7 * exact)) + steps / u * exact ≤ budget * exact := by
    have hsum : errors / u * (7 * exact) + steps / u * exact =
        (steps + 7 * errors) / u * exact := by ring
    rw [hsum]
    exact mul_le_mul_of_nonneg_right ((div_le_iff₀ hu).mpr hbudget) hexact.le
  exact (abs_sub_le _ _ _).trans ((add_le_add hscaled hshifted).trans htotal)

section Accuracy

variable {format : ExpFormat} {budget : ℚ} (hformat : format.Accurate budget)

/-- One on the grid. -/
noncomputable def expScale (format : ExpFormat) : ℝ :=
  (2 ^ format.fractional : ℕ)

theorem cast_expScale (format : ExpFormat) :
    ((2 ^ format.fractional : ℕ) : ℝ) = expScale format :=
  rfl

theorem expScale_eq (format : ExpFormat) : expScale format = 2 ^ format.fractional := by
  rw [expScale, Nat.cast_pow, Nat.cast_ofNat]

theorem expScale_pos (format : ExpFormat) : 0 < expScale format := by
  rw [expScale_eq]
  positivity

include hformat

/-! ## The polynomial -/

theorem magnitude_close {i : ℕ} (hi : i ≤ format.degree) :
    |(format.magnitude i : ℝ) - expScale format * factorialCoefficient i| ≤ 1 / 2 := by
  obtain ⟨hlow, hhigh⟩ := hformat.magnitude_close i hi
  have hpos : (0 : ℝ) < i.factorial := by exact_mod_cast i.factorial_pos
  have hlow' : 2 * expScale format ≤ (2 * (format.magnitude i : ℝ) + 1) * i.factorial := by
    rw [← cast_expScale]
    exact_mod_cast hlow
  have hhigh' : 2 * (format.magnitude i : ℝ) * i.factorial ≤
      2 * expScale format + i.factorial := by
    rw [← cast_expScale]
    exact_mod_cast hhigh
  rw [factorialCoefficient, mul_one_div, abs_le]
  constructor
  · rw [neg_le_sub_iff_le_add, ← sub_le_iff_le_add, div_sub' hpos.ne', div_le_iff₀ hpos]
    linarith
  · rw [sub_le_iff_le_add, ← sub_le_iff_le_add', le_div_iff₀ hpos]
    linarith

section Remainder

variable {r : ℕ} (hr : r ≤ format.step.toNat)
include hr

/-- A reduced argument is small. -/
theorem argument_small : (r : ℝ) ≤ expScale format * (1 / 40) := by
  have hsmall : 40 * r ≤ 2 ^ format.fractional := (Nat.mul_le_mul_left 40 hr).trans
    hformat.step_small
  have hreal : (40 : ℝ) * r ≤ expScale format := by
    rw [← cast_expScale]
    exact_mod_cast hsmall
  linarith

theorem abs_argument_le : |-((r : ℝ) / expScale format)| ≤ 1 / 40 := by
  rw [abs_neg, abs_of_nonneg (div_nonneg (Nat.cast_nonneg r) (expScale_pos format).le),
    div_le_iff₀ (expScale_pos format), mul_comm]
  exact argument_small hformat hr

/-- Each stage of the polynomial is close to its partial sum. -/
theorem hornerMagnitude_close {n : ℕ} (hn : n ≤ format.degree) :
    |(hornerMagnitude format r n : ℝ) - expScale format *
      nestedSum factorialCoefficient (-(r / expScale format)) (n + 1) (format.degree - n)| ≤
        11 / 10 := by
  have hscale := expScale_pos format
  induction n with
  | zero =>
      rw [nestedSum, nestedSum, mul_zero, add_zero, hornerMagnitude, Nat.sub_zero]
      exact (magnitude_close hformat le_rfl).trans (by norm_num)
  | succ n ih =>
      have hprevious := ih (by omega)
      have hindex : format.degree - (n + 1) + 1 = format.degree - n := by omega
      have hround := abs_roundedQuotient_sub_real (hornerMagnitude format r n * r)
        (Nat.two_pow_pos format.fractional)
      have hlt := hornerProduct_lt hformat.alternates hr hn
      rw [cast_expScale, Nat.cast_mul] at hround
      have hnegated : |-(roundedQuotient (hornerMagnitude format r n * r)
          (2 ^ format.fractional) : ℝ) - hornerMagnitude format r n * -(r : ℝ) / expScale format| ≤
            1 / 2 := by
        rw [← abs_neg]
        convert hround using 2
        ring
      have hargument : |-(r : ℝ) - expScale format * -(r / expScale format)| ≤ 0 := by
        rw [mul_neg, mul_div_cancel₀ _ hscale.ne', sub_self, abs_zero]
      have hsum := abs_nestedSum_le abs_factorialCoefficient_le (abs_argument_le hformat hr)
        (M := 11 / 10) (by norm_num) (by norm_num) (n + 1) (format.degree - n)
      have hstep := abs_nested_step hscale
        (magnitude_close hformat (i := format.degree - (n + 1)) (by omega)) hnegated hargument
        (b := 1 / 40) (by rw [abs_neg, Nat.abs_cast]; exact argument_small hformat hr)
        hprevious hsum
      rw [nestedSum, hindex, hornerMagnitude, Nat.cast_sub hlt.le, sub_eq_add_neg (_ : ℝ)]
      exact hstep.trans (by norm_num)

/-- The polynomial is close to the exponential. -/
theorem polynomial_close :
    |(hornerMagnitude format r format.degree : ℝ) -
      expScale format * Real.exp (-(r / expScale format))| ≤
        11 / 10 + expScale format * format.tail := by
  have hscale := expScale_pos format
  have hclose := hornerMagnitude_close hformat hr le_rfl
  have hseries := abs_exp_sub_nestedSum_le (abs_argument_le hformat hr) (by norm_num)
    (Nat.succ_pos format.degree)
  have htail : (1 / 40 : ℝ) ^ (format.degree + 1) * (((format.degree + 1 : ℕ) + 1) /
      ((format.degree + 1).factorial * (format.degree + 1 : ℕ))) = format.tail := by
    rw [ExpFormat.tail]
    push_cast
    ring
  rw [Nat.succ_eq_add_one, htail, abs_sub_comm] at hseries
  rw [Nat.sub_self] at hclose
  have hscaled := mul_le_mul_of_nonneg_left hseries hscale.le
  rw [← abs_of_pos hscale, ← abs_mul, abs_of_pos hscale, mul_sub] at hscaled
  exact (abs_sub_le _ _ _).trans (add_le_add hclose hscaled)

/-! ## The table -/

omit hr in
/-- A cell of the table is a rounded power of two. -/
theorem cell_close {j : ℕ} (hj : j < 32) :
    |(format.cell j : ℝ) - expScale format * Real.exp (-(j * (Real.log 2 / 32)))| ≤ 1 / 2 := by
  obtain ⟨hlow, hhigh⟩ := hformat.cell_close j hj
  have hpos := hformat.cell_pos j hj
  have hscale := expScale_pos format
  have hpow : (expScale format * Real.exp (-(j * (Real.log 2 / 32)))) ^ 32 * 2 ^ j =
      expScale format ^ 32 := by
    have hexponent : ((32 : ℕ) : ℝ) * -(j * (Real.log 2 / 32)) = -(j * Real.log 2) := by
      push_cast
      ring
    rw [mul_pow, ← Real.exp_nat_mul, hexponent, Real.exp_neg, Real.exp_nat_mul,
      Real.exp_log two_pos, mul_assoc, inv_mul_cancel₀ (by positivity), mul_one]
  have hlow' : (2 * (format.cell j : ℝ) - 1) ^ 32 * 2 ^ j ≤ (2 * expScale format) ^ 32 := by
    rw [← cast_expScale]
    have hcast : (((2 * format.cell j - 1) ^ 32 * 2 ^ j : ℕ) : ℝ) ≤
        ((2 * 2 ^ format.fractional) ^ 32 : ℕ) := by exact_mod_cast hlow
    rw [Nat.cast_mul, Nat.cast_pow, Nat.cast_sub (by omega)] at hcast
    push_cast at hcast ⊢
    exact hcast
  have hhigh' : (2 * expScale format) ^ 32 ≤ (2 * (format.cell j : ℝ) + 1) ^ 32 * 2 ^ j := by
    rw [← cast_expScale]
    exact_mod_cast hhigh
  have htwo : (0 : ℝ) < 2 ^ j := by positivity
  have hone : (1 : ℝ) ≤ format.cell j := by exact_mod_cast hpos
  rw [mul_pow, ← hpow, ← mul_assoc, mul_le_mul_iff_left₀ htwo, ← mul_pow] at hlow' hhigh'
  have hbelow := (pow_le_pow_iff_left₀ (by linarith) (by positivity) (by norm_num)).mp hlow'
  have habove := (pow_le_pow_iff_left₀ (by positivity) (by positivity) (by norm_num)).mp hhigh'
  rw [abs_le]
  constructor <;> linarith

/-! ## The product -/

/-- Cell and polynomial against the exact exponential of a reduced exponent. -/
theorem product_close {j : ℕ} (hj : j < 32) :
    |(format.cell j : ℝ) * hornerMagnitude format r format.degree - expScale format ^ 2 *
      Real.exp (-(j * (Real.log 2 / 32) + r / expScale format))| ≤
        expScale format * (8 / 5 + expScale format * format.tail) := by
  have hscale := expScale_pos format
  have hcell := cell_close hformat hj
  have hpolynomial := polynomial_close hformat hr
  have hle : (format.cell j : ℝ) ≤ expScale format := by
    rw [← cast_expScale]
    exact_mod_cast hformat.cell_le j hj
  have hratio : 0 ≤ (r : ℝ) / expScale format := div_nonneg (Nat.cast_nonneg r) hscale.le
  have hexp : Real.exp (-(r / expScale format)) ≤ 1 := Real.exp_le_one_iff.mpr (by linarith)
  have hsplit : (format.cell j : ℝ) * hornerMagnitude format r format.degree -
      expScale format ^ 2 * Real.exp (-(j * (Real.log 2 / 32) + r / expScale format)) =
        format.cell j * (hornerMagnitude format r format.degree -
          expScale format * Real.exp (-(r / expScale format))) +
        expScale format * Real.exp (-(r / expScale format)) *
          (format.cell j - expScale format * Real.exp (-(j * (Real.log 2 / 32)))) := by
    rw [neg_add, Real.exp_add]
    ring
  have hfirst : |(format.cell j : ℝ) * (hornerMagnitude format r format.degree -
      expScale format * Real.exp (-(r / expScale format)))| ≤
        expScale format * (11 / 10 + expScale format * format.tail) := by
    rw [abs_mul, Nat.abs_cast]
    exact mul_le_mul hle hpolynomial (abs_nonneg _) hscale.le
  have hsecond : |expScale format * Real.exp (-(r / expScale format)) *
      (format.cell j - expScale format * Real.exp (-(j * (Real.log 2 / 32))))| ≤
        expScale format * 1 * (1 / 2) := by
    rw [abs_mul, abs_of_pos (mul_pos hscale (Real.exp_pos _))]
    exact mul_le_mul (mul_le_mul_of_nonneg_left hexp hscale.le) hcell (abs_nonneg _) (by linarith)
  rw [hsplit]
  exact (abs_add_le _ _).trans (by linarith)

/-- The exponential of a reduced exponent. -/
theorem reduced_exp_ge {j : ℕ} (hj : j < 32) :
    3 / 10 ≤ Real.exp (-(j * (Real.log 2 / 32) + r / expScale format)) := by
  obtain ⟨hpositive, hlog⟩ := log_two_bounds
  have hsmall := argument_small hformat hr
  have hratio : (r : ℝ) / expScale format ≤ 1 / 40 := by
    rw [div_le_iff₀ (expScale_pos format), mul_comm]
    exact hsmall
  have hindex : (j : ℝ) ≤ 31 := by exact_mod_cast Nat.lt_succ_iff.mp hj
  have hscaled : (j : ℝ) * (Real.log 2 / 32) ≤ 31 * (Real.log 2 / 32) :=
    mul_le_mul_of_nonneg_right hindex (by linarith)
  have hexp := Real.add_one_le_exp (-(j * (Real.log 2 / 32) + r / expScale format))
  linarith

end Remainder

/-! ## The whole exponent -/

section Exponent

variable {delta : ℕ} (hk : delta / format.step.toNat ≤ 32 * (format.likelihoodFraction + 1))
include hk

/-- The repeated rounding of the step. -/
theorem reduction_close :
    |-((delta / format.step.toNat : ℕ) * (Real.log 2 / 32) +
        (delta % format.step.toNat : ℕ) / expScale format) - -(delta / expScale format)| ≤
      (32 * (format.likelihoodFraction + 1)) * (1 / 2) / expScale format := by
  have hscale := expScale_pos format
  have hdelta : (delta : ℝ) = (format.step.toNat : ℝ) * (delta / format.step.toNat : ℕ) +
      (delta % format.step.toNat : ℕ) := by
    exact_mod_cast (Nat.div_add_mod delta format.step.toNat).symm
  have hcount : ((delta / format.step.toNat : ℕ) : ℝ) ≤ 32 * (format.likelihoodFraction + 1) := by
    exact_mod_cast hk
  have hsplit : -((delta / format.step.toNat : ℕ) * (Real.log 2 / 32) +
        (delta % format.step.toNat : ℕ) / expScale format) - -(delta / expScale format) =
      (delta / format.step.toNat : ℕ) *
        (format.step.toNat - expScale format * (Real.log 2 / 32)) / expScale format := by
    rw [hdelta]
    field_simp
    ring
  have hclose := hformat.step_close
  rw [← expScale_eq] at hclose
  rw [hsplit, abs_div, abs_of_pos hscale, abs_mul, Nat.abs_cast]
  exact div_le_div_of_nonneg_right (mul_le_mul hcount hclose (abs_nonneg _) (by positivity))
    hscale.le

/-- The quotient and the remainder against the exponential of the whole exponent. -/
theorem kernel_close :
    |(format.cell (delta / format.step.toNat % 32) : ℝ) *
        hornerMagnitude format (delta % format.step.toNat) format.degree /
          (expScale format ^ 2 * 2 ^ (delta / format.step.toNat / 32)) -
      Real.exp (-(delta / expScale format))| ≤
        budget * Real.exp (-(delta / expScale format)) := by
  have hscale := expScale_pos format
  have hr : delta % format.step.toNat ≤ format.step.toNat := (Nat.mod_lt _ hformat.step_pos).le
  have hj : delta / format.step.toNat % 32 < 32 := Nat.mod_lt _ (by norm_num)
  have herrors : 32 * ((format.likelihoodFraction : ℝ) + 1) +
      7 * (8 / 5 + expScale format * format.tail) ≤ budget * expScale format := by
    have hcast := (Rat.cast_le (K := ℝ)).mpr hformat.errors_le
    push_cast at hcast
    rwa [expScale_eq]
  have hbudget : (budget : ℝ) ≤ 1 := by exact_mod_cast hformat.budget_le
  have htail : 0 ≤ expScale format * (format.tail : ℝ) := by
    have hnonneg : 0 ≤ format.tail := by
      rw [ExpFormat.tail]
      positivity
    exact mul_nonneg hscale.le (by exact_mod_cast hnonneg)
  have hproduct := product_close hformat hr hj
  have hlarge := reduced_exp_ge hformat hr hj
  have hreduction := reduction_close hformat hk
  generalize hindex : delta / format.step.toNat % 32 = j at *
  generalize hquotient : delta / format.step.toNat / 32 = q at *
  generalize hremainder : delta % format.step.toNat = r at *
  have hwhole : delta / format.step.toNat = 32 * q + j := by omega
  rw [hwhole] at hreduction
  -- the reduced exponential with its shift
  have hshift : Real.exp (-((32 * q + j : ℕ) * (Real.log 2 / 32) + r / expScale format)) =
      Real.exp (-(j * (Real.log 2 / 32) + r / expScale format)) / 2 ^ q := by
    have hsplit : -(((32 * q + j : ℕ) : ℝ) * (Real.log 2 / 32) + r / expScale format) =
        -(j * (Real.log 2 / 32) + r / expScale format) - q * Real.log 2 := by
      push_cast
      ring
    rw [hsplit, Real.exp_sub, Real.exp_nat_mul, Real.exp_log two_pos]
  have hroom : 32 * ((format.likelihoodFraction : ℝ) + 1) * (1 / 2) / expScale format ≤ 1 / 2 := by
    rw [div_le_iff₀ hscale]
    have hle : (budget : ℝ) * expScale format ≤ 1 * expScale format :=
      mul_le_mul_of_nonneg_right hbudget hscale.le
    linarith
  have hshifted := abs_exp_sub_exp_le hreduction (by linarith)
  have hsteps : 2 * (32 * ((format.likelihoodFraction : ℝ) + 1) * (1 / 2) / expScale format) =
      32 * ((format.likelihoodFraction : ℝ) + 1) / expScale format := by ring
  rw [hshift, hsteps] at hshifted
  exact relative_budget hscale (by linarith) (Real.exp_pos _) hproduct hlarge hshifted herrors
    hbudget

end Exponent

end Accuracy

end Xhive.Particles
