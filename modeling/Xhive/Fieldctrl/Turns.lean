import Mathlib
import Xhive.Fieldctrl.Cordic
import Xhive.Support.Directions

/-!
# The turns of the CORDIC loops

The two loops make the same turn, in integers that do not overflow.  The table
has the arctangents to a small fraction of a unit of the result, and its entries
add up so that the loops converge.
-/

namespace Xhive.Fieldctrl

open Xhive.Support Xhive.Linears Complex

/-! ## The table -/

/-- An entry of the table, in `2 ^ 62` counts a turn. -/
def turns (i : ℕ) : ℤ :=
  (fcAtanTurns.getD i 0).toInt

/-- The radians of a count. -/
noncomputable def countAngle : ℝ :=
  (2 : ℕ) * Real.pi / (2 : ℕ) ^ 62

theorem countAngle_eq : countAngle = 2 * Real.pi / 2 ^ 62 := by
  rw [countAngle, Nat.cast_ofNat]

theorem countAngle_pos : 0 < countAngle := by
  rw [countAngle_eq]
  positivity

/-- The angles that the loops can still turn by from a round on, and the last once
more. -/
def residual (i : ℕ) : ℤ :=
  turns 31 + ∑ j ∈ Finset.Ico i 32, turns j

theorem residual_succ {i : ℕ} (hi : i < 32) : residual i = turns i + residual (i + 1) := by
  rw [residual, residual, Finset.sum_eq_sum_Ico_succ_bot hi]
  ring

/-- No entry is larger than what follows it, with the last once more; several are
equal to it. -/
theorem turns_le_residual : ∀ i < 32, 0 ≤ turns i ∧ turns i ≤ residual (i + 1) := by
  decide +kernel

theorem residual_zero : 2 ^ 60 ≤ residual 0 ∧ residual 0 ≤ 2 ^ 61 := by
  decide +kernel

theorem residual_last : residual 32 = turns 31 := by
  simp [residual]

theorem residual_nonneg : ∀ i ≤ 32, 0 ≤ residual i := by
  decide +kernel

/-- An angle below the residual is below the next after a turn toward zero. -/
theorem abs_sub_turns_le {i : ℕ} (hi : i < 32) {z : ℤ} (hz : |z| ≤ residual i) :
    |z - (if 0 ≤ z then 1 else -1) * turns i| ≤ residual (i + 1) := by
  obtain ⟨hnonneg, hle⟩ := turns_le_residual i hi
  obtain ⟨hlow, hhigh⟩ := abs_le.mp hz
  have hsucc := residual_succ hi
  rw [abs_le]
  split <;> constructor <;> linarith

/-- Whether an entry is the arctangent to `2 ^ (-42)`, by twenty terms of the series. -/
def closeEntry (i : ℕ) : Bool :=
  let angle : ℚ := (turns i : ℚ) * (2 * (314159265358979323846 / 10 ^ 20) / 2 ^ 62)
  decide (angle - arctanSum 20 (1 / 2 ^ i) ≤ 1 / 2 ^ 42) &&
    decide (arctanSum 20 (1 / 2 ^ i) - angle ≤ 1 / 2 ^ 42)

theorem closeEntry_eq_true : ∀ i < 32, i ≠ 0 → closeEntry i = true := by
  decide +kernel

theorem turns_lt : ∀ i < 32, turns i ≤ 2 ^ 59 := by
  decide +kernel

theorem pi_enclosure :
    |countAngle - 2 * (314159265358979323846 / 10 ^ 20) / 2 ^ 62| ≤ 1 / 2 ^ 120 := by
  have hlow := Real.pi_gt_d20
  have hhigh := Real.pi_lt_d20
  rw [countAngle_eq, abs_le]
  constructor <;> norm_num at * <;> linarith

/-- The table has the arctangents of the powers of one half. -/
theorem turns_close {i : ℕ} (hi : i < 32) :
    |(turns i : ℝ) * countAngle - Real.arctan (1 / 2 ^ i)| ≤ 1 / 2 ^ 41 := by
  rcases Nat.eq_zero_or_pos i with rfl | hpos
  · have hfirst : (turns 0 : ℝ) = 2 ^ 59 := by
      rw [show turns 0 = 2 ^ 59 by decide]
      norm_num
    rw [hfirst, pow_zero, div_one, Real.arctan_one, countAngle_eq]
    have hzero : (2 : ℝ) ^ 59 * (2 * Real.pi / 2 ^ 62) - Real.pi / 4 = 0 := by
      ring
    rw [hzero, abs_zero]
    positivity
  · have hclose := closeEntry_eq_true i hi hpos.ne'
    rw [closeEntry, Bool.and_eq_true, decide_eq_true_eq, decide_eq_true_eq] at hclose
    obtain ⟨hhigh, hlow⟩ := hclose
    have hhalf : ((1 / 2 ^ i : ℚ) : ℝ) = 1 / 2 ^ i := by push_cast; rfl
    have hle : (1 : ℝ) / 2 ^ i ≤ 1 / 2 := by
      have hpow : (2 : ℝ) ^ 1 ≤ 2 ^ i := pow_le_pow_right₀ (by norm_num) hpos
      exact one_div_le_one_div_of_le (by norm_num) (by simpa using hpow)
    have hless : (1 / 2 ^ i : ℚ) < 1 := by
      have hreal : ((1 / 2 ^ i : ℚ) : ℝ) < 1 := by
        rw [hhalf]
        linarith
      exact_mod_cast hreal
    have hseries := abs_arctan_sub_le (by positivity) hless 10
    rw [hhalf, show 2 * 10 = 20 from rfl] at hseries
    have hterm : ((1 : ℝ) / 2 ^ i) ^ (4 * 10 + 1) / (4 * (10 : ℕ) + 1) ≤ 1 / 2 ^ 43 := by
      have hpow : ((1 : ℝ) / 2 ^ i) ^ (4 * 10 + 1) ≤ (1 / 2) ^ (4 * 10 + 1) :=
        pow_le_pow_left₀ (by positivity) hle _
      norm_num at hpow ⊢
      linarith
    obtain ⟨hserieslow, hserieshigh⟩ := abs_le.mp (hseries.trans hterm)
    have hhigh' := (Rat.cast_le (K := ℝ)).mpr hhigh
    have hlow' := (Rat.cast_le (K := ℝ)).mpr hlow
    push_cast at hhigh' hlow'
    have hpi := pi_enclosure
    have hnonneg : (0 : ℝ) ≤ turns i := by exact_mod_cast (turns_le_residual i hi).1
    have hlt : (turns i : ℝ) ≤ 2 ^ 59 := by exact_mod_cast turns_lt i hi
    have hangle : |(turns i : ℝ) * countAngle -
        (turns i : ℝ) * (2 * (314159265358979323846 / 10 ^ 20) / 2 ^ 62)| ≤ 1 / 2 ^ 43 := by
      rw [← mul_sub, abs_mul, abs_of_nonneg hnonneg]
      calc (turns i : ℝ) * |countAngle - 2 * (314159265358979323846 / 10 ^ 20) / 2 ^ 62|
          ≤ 2 ^ 59 * (1 / 2 ^ 120) := by gcongr
        _ ≤ 1 / 2 ^ 43 := by norm_num
    obtain ⟨hanglelow, hanglehigh⟩ := abs_le.mp hangle
    rw [abs_le]
    constructor <;> norm_num at * <;> linarith

/-! ## Turns without overflow -/

/-- The registers of a loop as integers of any size. -/
structure IntRotation where
  x : ℤ
  y : ℤ
  z : ℤ

def Rotation.toInts (v : Rotation) : IntRotation :=
  ⟨v.x.toInt, v.y.toInt, v.z.toInt⟩

/-- The turn of a round, forward where `σ` is one and backward where it is minus
one. -/
def IntRotation.turn (i : ℕ) (σ : ℤ) (v : IntRotation) : IntRotation :=
  ⟨v.x - σ * v.y.tdiv (2 ^ i), v.y + σ * v.x.tdiv (2 ^ i), v.z - σ * turns i⟩

/-- `rotate`, without overflow. -/
def rotateExact (i : ℕ) (v : IntRotation) : IntRotation :=
  v.turn i (if 0 ≤ v.z then 1 else -1)

/-- `vector`, without overflow. -/
def vectorExact (i : ℕ) (v : IntRotation) : IntRotation :=
  if v.y = 0 then v else v.turn i (if 0 < v.y then -1 else 1)

/-- Coordinates below half of the range, so that no turn overflows. -/
def Rotation.Small (v : Rotation) : Prop :=
  |v.x.toInt| < 2 ^ 62 ∧ |v.y.toInt| < 2 ^ 62

theorem abs_tdiv_le (a : ℤ) (i : ℕ) : |a.tdiv (2 ^ i)| ≤ |a| := by
  have hpos : (0 : ℤ) < 2 ^ i := by positivity
  have hle := (tdiv_spec a hpos).2
  rw [abs_mul, abs_of_pos hpos] at hle
  exact (le_mul_of_one_le_left (abs_nonneg _) hpos).trans hle

theorem toInt_shift_of_small {a : Int64} (ha : |a.toInt| < 2 ^ 62) {i : ℕ} (hi : i < 32) :
    (fcCoordShift a i).toInt = a.toInt.tdiv (2 ^ i) := by
  refine toInt_fcCoordShift ?_ (hi.trans (by decide))
  rintro rfl
  rw [Int64.toInt_minValue] at ha
  norm_num at ha

/-- A sum and a difference of registers that fit. -/
theorem toInt_small {a d : Int64} {c : ℤ} (ha : |a.toInt| < 2 ^ 62) (hc : |c| < 2 ^ 62)
    {i : ℕ} (hd : d.toInt = c.tdiv (2 ^ i)) :
    (a + d).toInt = a.toInt + c.tdiv (2 ^ i) ∧ (a - d).toInt = a.toInt - c.tdiv (2 ^ i) := by
  obtain ⟨halow, hahigh⟩ := abs_lt.mp ha
  obtain ⟨hclow, hchigh⟩ := abs_lt.mp ((abs_tdiv_le c i).trans_lt hc)
  rw [← hd] at hclow hchigh ⊢
  constructor
  · apply toInt_add_of_fits
    constructor <;> omega
  · apply toInt_sub_of_fits
    constructor <;> omega

theorem toInt_angle {i : ℕ} (hi : i < 32) {z : Int64} (hz : |z.toInt| ≤ 2 ^ 62) :
    (z - fcAtanTurns.getD i 0).toInt = z.toInt - turns i ∧
      (z + fcAtanTurns.getD i 0).toInt = z.toInt + turns i := by
  obtain ⟨hlow, hhigh⟩ := abs_le.mp hz
  have hnonneg := (turns_le_residual i hi).1
  have hlt := turns_lt i hi
  rw [turns] at hnonneg hlt ⊢
  constructor
  · apply toInt_sub_of_fits
    constructor <;> omega
  · apply toInt_add_of_fits
    constructor <;> omega

theorem rotate_toInts {i : ℕ} (hi : i < 32) {v : Rotation} (hv : v.Small)
    (hz : |v.z.toInt| ≤ 2 ^ 62) : (rotate i v).toInts = rotateExact i v.toInts := by
  obtain ⟨hx, hy⟩ := hv
  obtain ⟨hxadd, hxsub⟩ := toInt_small hx hy (toInt_shift_of_small hy hi)
  obtain ⟨hyadd, hysub⟩ := toInt_small hy hx (toInt_shift_of_small hx hi)
  obtain ⟨hzsub, hzadd⟩ := toInt_angle hi hz
  have hsign : v.z ≥ 0 ↔ 0 ≤ v.toInts.z := Int64.le_iff_toInt_le
  rw [rotate, rotateExact, IntRotation.turn]
  by_cases h : v.z ≥ 0
  · rw [if_pos (hsign.mp h)]
    simp only [if_pos h, Rotation.toInts, one_mul, hxsub, hyadd, hzsub]
  · rw [if_neg (mt hsign.mpr h)]
    simp only [if_neg h, Rotation.toInts, neg_mul, one_mul, sub_neg_eq_add, ← sub_eq_add_neg,
      hxadd, hysub, hzadd]

theorem vector_toInts {i : ℕ} (hi : i < 32) {v : Rotation} (hv : v.Small)
    (hz : |v.z.toInt| ≤ 2 ^ 62) : (vector i v).toInts = vectorExact i v.toInts := by
  obtain ⟨hx, hy⟩ := hv
  obtain ⟨hxadd, hxsub⟩ := toInt_small hx hy (toInt_shift_of_small hy hi)
  obtain ⟨hyadd, hysub⟩ := toInt_small hy hx (toInt_shift_of_small hx hi)
  obtain ⟨hzsub, hzadd⟩ := toInt_angle hi hz
  have hzero : v.y = 0 ↔ v.toInts.y = 0 := Int64.toInt_inj.symm
  have hsign : v.y > 0 ↔ 0 < v.toInts.y := Int64.lt_iff_toInt_lt
  rw [vector, vectorExact, IntRotation.turn]
  by_cases h : v.y = 0
  · simp only [if_pos h, if_pos (hzero.mp h)]
  · by_cases hpos : v.y > 0
    · rw [if_neg (mt hzero.mpr h), if_pos (hsign.mp hpos)]
      simp only [if_neg h, if_pos hpos, Rotation.toInts, neg_mul, one_mul, sub_neg_eq_add,
        ← sub_eq_add_neg, hxadd, hysub, hzadd]
    · rw [if_neg (mt hzero.mpr h), if_neg (mt hsign.mpr hpos)]
      simp only [if_neg h, if_neg hpos, Rotation.toInts, one_mul, hxsub, hyadd, hzsub]

/-! ## Turns of the plane -/

/-- The vector in the plane. -/
noncomputable def IntRotation.vec (v : IntRotation) : ℂ :=
  v.x + v.y * I

/-- A turn multiplies the vector, but for what the truncated shifts lose. -/
theorem vec_turn (i : ℕ) {σ : ℤ} (hσ : σ = 1 ∨ σ = -1) (v : IntRotation) :
    ∃ e : ℂ, (v.turn i σ).vec = v.vec * (1 + (σ / 2 ^ i : ℝ) * I) + e ∧ ‖e‖ ≤ 2 := by
  have hpos : (0 : ℝ) < 2 ^ i := by positivity
  -- what a truncated shift loses
  have hlost : ∀ a : ℤ, |(a : ℝ) / 2 ^ i - a.tdiv (2 ^ i)| ≤ 1 := by
    intro a
    have hrest : |a - 2 ^ i * a.tdiv (2 ^ i)| < 2 ^ i := (tdiv_spec a (by positivity)).1
    have hrest' : |(a : ℝ) - 2 ^ i * a.tdiv (2 ^ i)| < 2 ^ i := by exact_mod_cast hrest
    have hquotient : (a : ℝ) / 2 ^ i - a.tdiv (2 ^ i) =
        ((a : ℝ) - 2 ^ i * a.tdiv (2 ^ i)) / 2 ^ i := by field_simp
    rw [hquotient, abs_div, abs_of_pos hpos, div_le_one hpos]
    exact hrest'.le
  have hσ' : |(σ : ℝ)| = 1 := by
    rcases hσ with rfl | rfl <;> norm_num
  refine ⟨((σ * ((v.y : ℝ) / 2 ^ i - v.y.tdiv (2 ^ i)) : ℝ) : ℂ) +
    ((-σ * ((v.x : ℝ) / 2 ^ i - v.x.tdiv (2 ^ i)) : ℝ) : ℂ) * I, ?_, ?_⟩
  · rw [IntRotation.vec, IntRotation.vec, IntRotation.turn]
    push_cast
    linear_combination (-(v.y * σ / 2 ^ i) : ℂ) * I_sq
  · refine (norm_add_le _ _).trans ?_
    rw [norm_mul, norm_I, mul_one, norm_real, norm_real, Real.norm_eq_abs, Real.norm_eq_abs,
      abs_mul, abs_mul, abs_neg, hσ', one_mul, one_mul]
    linarith [hlost v.x, hlost v.y]

theorem arctan_sign {σ : ℤ} (hσ : σ = 1 ∨ σ = -1) (t : ℝ) :
    Real.arctan (σ * t) = σ * Real.arctan t := by
  rcases hσ with rfl | rfl
  · simp
  · simp

/-- The growth of a vector in the round. -/
theorem sqrt_growth_le (i : ℕ) : Real.sqrt (1 + (1 / 2 ^ i) ^ 2) ≤ 1 + 1 / (2 * 4 ^ i) := by
  have hquarter : ((1 : ℝ) / 2 ^ i) ^ 2 = 1 / 4 ^ i := by
    rw [div_pow, one_pow, ← pow_mul, mul_comm, pow_mul]
    norm_num
  rw [hquarter]
  apply Real.sqrt_le_iff.mpr
  constructor
  · positivity
  · have hpos : (0 : ℝ) < 1 / 4 ^ i := by positivity
    have hhalf : (1 : ℝ) / (2 * 4 ^ i) = 1 / 4 ^ i / 2 := by ring
    rw [hhalf]
    nlinarith

theorem norm_turn_factor {σ : ℤ} (hσ : σ = 1 ∨ σ = -1) (i : ℕ) :
    ‖(1 + (σ / 2 ^ i : ℝ) * I : ℂ)‖ = Real.sqrt (1 + (1 / 2 ^ i) ^ 2) := by
  rw [norm_one_add_mul_I]
  rcases hσ with rfl | rfl
  · simp
  · congr 2
    push_cast
    ring

end Xhive.Fieldctrl
