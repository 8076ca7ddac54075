import Xhive.Fieldctrl.Dtc
import Xhive.Fieldctrl.Lengths
import Xhive.Linears.Decomp.LuFixed
import Xhive.Support.Directions

/-!
# The switching table pushes the right way

In the sector that the torque control finds, the active state of the table
leads or lags the flux by the comparator states.  The sector is the true one up
to the rounding of one slope, which costs the flux a response of relative size
`2^-29` at most.
-/

namespace Xhive.Fieldctrl

open Xhive.Support Xhive.Linears Xhive.Filters

/-! ## Ideal vectors -/

/-- The flux as a plane vector, in raw units. -/
def fluxVector (alpha beta : Int64) : ℝ × ℝ := (alpha.toInt, beta.toInt)

/-- The axis of phase `n`, at `n` thirds of a turn, where its switch is on. -/
noncomputable def phaseVector (state : UInt8) (bit : ℕ) (axis : ℝ × ℝ) : ℝ × ℝ :=
  if state.toNat.testBit bit then axis else 0

/-- The ideal voltage of a switch state, whose bits `a`, `b`, `c` are its bits
`2`, `1`, `0`. -/
noncomputable def idealVoltage (state : UInt8) : ℝ × ℝ :=
  phaseVector state 2 (1, 0) + phaseVector state 1 (-1 / (2 : ℕ), √(3 : ℕ) / (2 : ℕ)) +
    phaseVector state 0 (-1 / (2 : ℕ), -(√(3 : ℕ) / (2 : ℕ)))

/-- The angle of the middle of a sector. -/
noncomputable def sectorMiddle (sector : UInt8) : ℝ := ((sector.toNat : ℝ) - 1) * (Real.pi / (3 : ℕ))

def oppositeSector (sector : UInt8) : UInt8 := if sector ≤ 3 then sector + 3 else sector - 3

/-- The middles of the sectors as vectors. -/
theorem direction_sectorMiddle :
    Plane.direction (sectorMiddle 1) = (1, 0) ∧
    Plane.direction (sectorMiddle 2) = (1 / 2, √3 / 2) ∧
    Plane.direction (sectorMiddle 3) = (-(1 / 2), √3 / 2) ∧
    Plane.direction (sectorMiddle 4) = (-1, 0) ∧
    Plane.direction (sectorMiddle 5) = (-(1 / 2), -(√3 / 2)) ∧
    Plane.direction (sectorMiddle 6) = (1 / 2, -(√3 / 2)) := by
  have hturn : ∀ θ, Plane.direction (θ + Real.pi) = -Plane.direction θ := by
    intro θ
    simp [Plane.direction]
  have h₁ : Plane.direction (sectorMiddle 1) = (1, 0) := by simp [sectorMiddle, Plane.direction]
  have h₂ : Plane.direction (sectorMiddle 2) = (1 / 2, √3 / 2) := by
    have hangle : sectorMiddle 2 = Real.pi / 3 := by
      simp only [sectorMiddle, UInt8.reduceToNat, Nat.cast_ofNat]
      ring
    rw [hangle, Plane.direction, Real.cos_pi_div_three, Real.sin_pi_div_three]
  have h₃ : Plane.direction (sectorMiddle 3) = (-(1 / 2), √3 / 2) := by
    have hangle : sectorMiddle 3 = Real.pi - Real.pi / 3 := by
      simp only [sectorMiddle, UInt8.reduceToNat, Nat.cast_ofNat]
      ring
    rw [hangle, Plane.direction, Real.cos_pi_sub, Real.sin_pi_sub, Real.cos_pi_div_three,
      Real.sin_pi_div_three]
  have hopposite : ∀ {s t : UInt8}, t.toNat = s.toNat + 3 →
      Plane.direction (sectorMiddle t) = -Plane.direction (sectorMiddle s) := by
    intro s t hst
    have hangle : sectorMiddle t = sectorMiddle s + Real.pi := by
      rw [sectorMiddle, sectorMiddle, hst]
      push_cast
      ring
    rw [hangle, hturn]
  refine ⟨h₁, h₂, h₃, ?_, ?_, ?_⟩
  · rw [hopposite (s := 1) rfl, h₁]
    simp
  · rw [hopposite (s := 2) rfl, h₂]
    simp
  · rw [hopposite (s := 3) rfl, h₃]
    simp

theorem sector_cases {sector : UInt8} (hlow : 1 ≤ sector) (hhigh : sector ≤ 6) :
    sector = 1 ∨ sector = 2 ∨ sector = 3 ∨ sector = 4 ∨ sector = 5 ∨ sector = 6 := by
  simp only [← UInt8.toNat_inj, UInt8.le_iff_toNat_le, UInt8.reduceToNat] at *
  omega

/-- The ideal voltages of the active states. -/
theorem idealVoltage_eq :
    idealVoltage 4 = (1, 0) ∧ idealVoltage 6 = (1 / 2, √3 / 2) ∧
    idealVoltage 2 = (-(1 / 2), √3 / 2) ∧ idealVoltage 3 = (-1, 0) ∧
    idealVoltage 1 = (-(1 / 2), -(√3 / 2)) ∧ idealVoltage 5 = (1 / 2, -(√3 / 2)) := by
  refine ⟨?_, ?_, ?_, ?_, ?_, ?_⟩ <;>
    simp [idealVoltage, phaseVector, Nat.testBit] <;> norm_num

/-- The active states of the table in a sector lead or lag its middle. -/
theorem idealVoltage_active {flux torque : Int8} (hflux : flux = 1 ∨ flux = -1)
    (htorque : torque = 1 ∨ torque = -1) {sector : UInt8} (hlow : 1 ≤ sector)
    (hhigh : sector ≤ 6) :
    idealVoltage (dtcActiveState flux torque sector) =
      Plane.leading (Plane.direction (sectorMiddle sector)) flux.toInt torque.toInt := by
  obtain ⟨h₁, h₂, h₃, h₄, h₅, h₆⟩ := direction_sectorMiddle
  obtain ⟨v₄, v₆, v₂, v₃, v₁, v₅⟩ := idealVoltage_eq
  have hroot : √3 * √3 = 3 := Real.mul_self_sqrt (by norm_num)
  rcases hflux with rfl | rfl <;> rcases htorque with rfl | rfl <;>
    rcases sector_cases hlow hhigh with rfl | rfl | rfl | rfl | rfl | rfl <;>
    refine Prod.ext ?_ ?_ <;>
    simp [dtcActiveState, dtcActiveTable, h₁, h₂, h₃, h₄, h₅, h₆, v₁, v₂, v₃, v₄, v₅, v₆,
      Plane.leading] <;>
    linarith

/-! ## The slope comparison -/

theorem dtcThreshold_eq : dtcThreshold = .ok 1239850262 := rfl

theorem inv_sqrt_three_bounds :
    (1239850261 : ℝ) / 2 ^ 31 ≤ 1 / √3 ∧ 1 / √3 ≤ 1239850263 / 2 ^ 31 := by
  have hroot : (0 : ℝ) < √3 := by positivity
  have hhigh : √3 ≤ 2 ^ 31 / 1239850261 := (Real.sqrt_le_left (by norm_num)).mpr (by norm_num)
  have hlow : 2 ^ 31 / 1239850263 ≤ √3 := Real.le_sqrt_of_sq_le (by norm_num)
  constructor
  · rw [div_le_div_iff₀ (by norm_num) hroot]
    rw [le_div_iff₀ (by norm_num)] at hhigh
    linarith
  · rw [div_le_div_iff₀ hroot (by norm_num)]
    rw [div_le_iff₀ (by norm_num)] at hlow
    linarith

/-- The comparison is right up to `2^-30`. -/
theorem dtcSlopeCompare_spec {absAlpha absBeta : Int64} (ha : 0 < absAlpha.toInt)
    (hb : 0 < absBeta.toInt) :
    ∃ c, dtcSlopeCompare (.ok absAlpha) (.ok absBeta) = (c, .ok ()) ∧
      (c ≤ 0 → (absBeta.toInt : ℝ) / absAlpha.toInt ≤ 1 / √3 + 1 / 2 ^ 30) ∧
      (0 ≤ c → 1 / √3 - 1 / 2 ^ 30 ≤ (absBeta.toInt : ℝ) / absAlpha.toInt) := by
  obtain ⟨hlow, hhigh⟩ := inv_sqrt_three_bounds
  have haR : (0 : ℝ) < absAlpha.toInt := by exact_mod_cast ha
  have hbR : (0 : ℝ) < absBeta.toInt := by exact_mod_cast hb
  have hne : absAlpha ≠ 0 := fun h => by simp [h] at ha
  by_cases hge : fcqCmp absBeta absAlpha ≥ 0
  · refine ⟨1, by simp [dtcSlopeCompare, latched, hge, Except.map], fun h => absurd h (by norm_num),
      fun _ => ?_⟩
    rw [ge_iff_le, fcqCmp_ge] at hge
    have hle : (absAlpha.toInt : ℝ) ≤ absBeta.toInt := by exact_mod_cast hge
    have hone := (one_le_div haR).mpr hle
    linarith
  · have hlt : absBeta.toInt < absAlpha.toInt := by
      rwa [ge_iff_le, fcqCmp_ge, not_le] at hge
    have hltR : (absBeta.toInt : ℝ) < absAlpha.toInt := by exact_mod_cast hlt
    -- the quotient is at most one, so the division cannot overflow
    have habs : |rawValue absBeta| ≤ |rawValue absAlpha| := by
      rw [rawValue, rawValue, abs_of_pos (by exact_mod_cast hb), abs_of_pos (by exact_mod_cast ha)]
      exact_mod_cast hlt.le
    obtain ⟨slope, hslope, hround, -⟩ := fixed_div_of_le (rawValue_ne_zero.mpr hne) habs
    rw [rawValue, rawValue, rawValue,
      abs_of_pos (show (0 : ℚ) < absAlpha.toInt by exact_mod_cast ha),
      abs_le] at hround
    obtain ⟨hroundLow, hroundHigh⟩ : -absAlpha.toInt ≤
          2 * (2 ^ 31 * absBeta.toInt - slope.toInt * absAlpha.toInt) ∧
        2 * (2 ^ 31 * absBeta.toInt - slope.toInt * absAlpha.toInt) ≤ absAlpha.toInt := by
      have hlow := hround.1
      have hhigh := hround.2
      constructor
      · have : (-absAlpha.toInt : ℚ) ≤
            2 * (2 ^ 31 * absBeta.toInt - slope.toInt * absAlpha.toInt) := by linarith
        exact_mod_cast this
      · have : 2 * (2 ^ 31 * absBeta.toInt - slope.toInt * absAlpha.toInt) ≤
            (absAlpha.toInt : ℚ) := by linarith
        exact_mod_cast this
    have hroundLow' : -(absAlpha.toInt : ℝ) ≤
        2 * (2 ^ 31 * absBeta.toInt - slope.toInt * absAlpha.toInt) := by exact_mod_cast hroundLow
    have hroundHigh' : 2 * (2 ^ 31 * absBeta.toInt - slope.toInt * absAlpha.toInt) ≤
        (absAlpha.toInt : ℝ) := by exact_mod_cast hroundHigh
    have hcompare : dtcSlopeCompare (.ok absAlpha) (.ok absBeta) =
        (fcqCmp slope 1239850262, .ok ()) := by
      rw [dtcSlopeCompare, latched, latched, if_neg hge, dtcThreshold_eq]
      simp only [fcqDiv, hslope, bind, Except.bind, latched, Except.map]
    have hvalue : (1239850262 : Int64).toInt = 1239850262 := rfl
    refine ⟨_, hcompare, fun h => ?_, fun h => ?_⟩
    · rw [fcqCmp_le, hvalue] at h
      have hle : (slope.toInt : ℝ) ≤ 1239850262 := by exact_mod_cast h
      have hbound : (absBeta.toInt : ℝ) / absAlpha.toInt ≤ (1239850262 + 1 / 2) / 2 ^ 31 := by
        rw [div_le_div_iff₀ haR (by norm_num)]
        nlinarith
      linarith
    · rw [fcqCmp_ge, hvalue] at h
      have hle : (1239850262 : ℝ) ≤ slope.toInt := by exact_mod_cast h
      have hbound : (1239850262 - 1 / 2) / 2 ^ 31 ≤ (absBeta.toInt : ℝ) / absAlpha.toInt := by
        rw [div_le_div_iff₀ (by norm_num) haR]
        nlinarith
      linarith

/-- A slope that is not steep in the comparison, as a bound on the coordinates. -/
theorem flat_of_slope {A B : ℝ} (hA : 0 < A) (h : B / A ≤ 1 / √3 + 1 / 2 ^ 30) :
    √3 * B ≤ (1 + 1 / 2 ^ 28) * A ∧
      (1 / 2 ^ 30 < |B / A - 1 / √3| → √3 * B < A) := by
  have hroot : (0 : ℝ) < √3 := by positivity
  have hfour : √3 ≤ 4 := (Real.sqrt_le_left (by norm_num)).mpr (by norm_num)
  have hB : B = B / A * A := (div_mul_cancel₀ B hA.ne').symm
  have hunit : √3 * (1 / √3) = 1 := by field_simp
  constructor
  · calc
      √3 * B = √3 * (B / A) * A := by rw [mul_assoc, ← hB]
      _ ≤ √3 * (1 / √3 + 1 / 2 ^ 30) * A := by gcongr
      _ = (1 + √3 * (1 / 2 ^ 30)) * A := by rw [mul_add, hunit]
      _ ≤ (1 + 4 * (1 / 2 ^ 30)) * A := by gcongr
      _ = (1 + 1 / 2 ^ 28) * A := by norm_num
  · intro hexact
    have hlt : B / A < 1 / √3 := by
      rcases lt_abs.mp hexact with hlt | hlt
      · linarith
      · have : (0 : ℝ) < 1 / 2 ^ 30 := by positivity
        linarith
    calc
      √3 * B = √3 * (B / A) * A := by rw [mul_assoc, ← hB]
      _ < √3 * (1 / √3) * A := by gcongr
      _ = A := by rw [hunit, one_mul]

/-- A slope that is not flat in the comparison. -/
theorem steep_of_slope {A B : ℝ} (hA : 0 < A) (h : 1 / √3 - 1 / 2 ^ 30 ≤ B / A) :
    A ≤ √3 * B + 1 / 2 ^ 29 * A ∧
      (1 / 2 ^ 30 < |B / A - 1 / √3| → A < √3 * B) := by
  have hroot : (0 : ℝ) < √3 := by positivity
  have htwo : √3 ≤ 2 := (Real.sqrt_le_left (by norm_num)).mpr (by norm_num)
  have hB : B = B / A * A := (div_mul_cancel₀ B hA.ne').symm
  have hunit : √3 * (1 / √3) = 1 := by field_simp
  constructor
  · have hscaled : √3 * (1 / √3 - 1 / 2 ^ 30) * A ≤ √3 * (B / A) * A := by gcongr
    rw [mul_assoc √3 (B / A), ← hB, mul_sub, hunit] at hscaled
    have hsmall : √3 * (1 / 2 ^ 30) * A ≤ 2 * (1 / 2 ^ 30) * A := by gcongr
    linarith
  · intro hexact
    have hlt : 1 / √3 < B / A := by
      rcases lt_abs.mp hexact with hlt | hlt
      · have : (0 : ℝ) < 1 / 2 ^ 30 := by positivity
        linarith
      · linarith
    calc
      A = √3 * (1 / √3) * A := by rw [hunit, one_mul]
      _ < √3 * (B / A) * A := by gcongr
      _ = √3 * B := by rw [mul_assoc, ← hB]

/-! ## The flux in its sector -/

/-- The exact slope of the flux is not within `2^-30` of `1/√3`. -/
def SlopeExact (u : ℝ × ℝ) : Prop :=
  u.1 ≠ 0 → 1 / (2 ^ 30 : ℕ) < |(|u.2| / |u.1|) - 1 / √(3 : ℕ)|

theorem slopeExact_iff {a b : ℝ} :
    SlopeExact (a, b) ↔ (a ≠ 0 → 1 / 2 ^ 30 < |(|b| / |a|) - 1 / √3|) := by
  simp only [SlopeExact, Nat.cast_pow, Nat.cast_ofNat]

/-- The flux seen from a direction: ahead of it, in the sixth about it up to a
factor of `1 + 2^-28`, and exactly in it under `exact`. -/
structure Framed (d u : ℝ × ℝ) (exact : Prop) : Prop where
  ahead : 0 < Plane.dot d u
  near : √3 * |Plane.cross d u| ≤ (1 + 1 / 2 ^ 28) * Plane.dot d u
  inside : exact → -Plane.dot d u ≤ √3 * Plane.cross d u ∧ √3 * Plane.cross d u < Plane.dot d u

/-- A flux next to the axis. -/
theorem framed_flat {d u : ℝ × ℝ} {A : ℝ} {exact : Prop} (hA : 0 < A) (hdot : Plane.dot d u = A)
    (hnear : √3 * |Plane.cross d u| ≤ (1 + 1 / 2 ^ 28) * A)
    (hexact : exact → √3 * |Plane.cross d u| < A) : Framed d u exact := by
  refine ⟨hdot ▸ hA, hdot ▸ hnear, fun h => ?_⟩
  have hroot : (0 : ℝ) ≤ √3 := Real.sqrt_nonneg 3
  have hlt := hexact h
  have hupper := mul_le_mul_of_nonneg_left (le_abs_self (Plane.cross d u)) hroot
  have hlower := mul_le_mul_of_nonneg_left (neg_abs_le (Plane.cross d u)) hroot
  rw [hdot]
  constructor <;> linarith

/-- A flux in a sector beside the axis, `y` being positive toward the axis of
beta. -/
theorem framed_steep {d u : ℝ × ℝ} {A B : ℝ} {exact : Prop} (hA : 0 ≤ A) (hB : 0 < B)
    (hdot : Plane.dot d u = A / 2 + √3 / 2 * B)
    (hcross : Plane.cross d u = B / 2 - √3 / 2 * A ∧ 0 < A ∨
      Plane.cross d u = -(B / 2 - √3 / 2 * A))
    (hnear : A ≤ √3 * B + 1 / 2 ^ 29 * A) (hexact : exact → A < √3 * B) : Framed d u exact := by
  have hroot : (0 : ℝ) < √3 := by positivity
  have hsquare : √3 * √3 = 3 := Real.mul_self_sqrt (by norm_num)
  have hscaled : √3 * (B / 2 - √3 / 2 * A) = √3 / 2 * B - 3 / 2 * A := by
    linear_combination (-(A / 2)) * hsquare
  have hBpos : 0 < √3 * B := mul_pos hroot hB
  refine ⟨by rw [hdot]; positivity, ?_, fun h => ?_⟩
  · have habs : √3 * |Plane.cross d u| = |√3 / 2 * B - 3 / 2 * A| := by
      rw [← hscaled, abs_mul, abs_of_pos hroot]
      rcases hcross with ⟨hcross, -⟩ | hcross
      · rw [hcross]
      · rw [hcross, abs_neg]
    rw [habs, hdot, abs_le]
    constructor <;> linarith
  · have hlt := hexact h
    rw [hdot]
    rcases hcross with ⟨hcross, hpos⟩ | hcross
    · rw [hcross, hscaled]
      constructor <;> linarith
    · rw [hcross, mul_neg, hscaled]
      constructor <;> linarith

theorem framed_of_flat {d : ℝ × ℝ} {a b : ℝ} (hd : d = (1, 0) ∧ 0 < a ∨ d = (-1, 0) ∧ a < 0)
    (h : |b| / |a| ≤ 1 / √3 + 1 / 2 ^ 30) :
    Framed d (a, b) (SlopeExact (a, b)) := by
  have ha : a ≠ 0 := by
    rcases hd with ⟨-, ha⟩ | ⟨-, ha⟩
    · exact ha.ne'
    · exact ha.ne
  obtain ⟨hnear, hexact⟩ := flat_of_slope (abs_pos.mpr ha) h
  have hdot : Plane.dot d (a, b) = |a| := by
    rcases hd with ⟨rfl, ha⟩ | ⟨rfl, ha⟩
    · simp [Plane.dot, abs_of_pos ha]
    · simp [Plane.dot, abs_of_neg ha]
  have hcross : |Plane.cross d (a, b)| = |b| := by
    rcases hd with ⟨rfl, -⟩ | ⟨rfl, -⟩ <;> simp [Plane.cross]
  refine framed_flat (abs_pos.mpr ha) hdot ?_ fun hslope => ?_
  · rw [hcross]
    exact hnear
  · rw [hcross]
    exact hexact (slopeExact_iff.mp hslope ha)

theorem framed_of_steep {d : ℝ × ℝ} {a b : ℝ}
    (hd : d = (1 / 2, √3 / 2) ∧ 0 < a ∧ 0 < b ∨ d = (-(1 / 2), √3 / 2) ∧ a ≤ 0 ∧ 0 < b ∨
      d = (-(1 / 2), -(√3 / 2)) ∧ a < 0 ∧ b < 0 ∨ d = (1 / 2, -(√3 / 2)) ∧ 0 ≤ a ∧ b < 0)
    (h : a ≠ 0 → 1 / √3 - 1 / 2 ^ 30 ≤ |b| / |a|) :
    Framed d (a, b) (SlopeExact (a, b)) := by
  have hb : b ≠ 0 := by
    rcases hd with ⟨-, -, hb⟩ | ⟨-, -, hb⟩ | ⟨-, -, hb⟩ | ⟨-, -, hb⟩
    · exact hb.ne'
    · exact hb.ne'
    · exact hb.ne
    · exact hb.ne
  have hdot : Plane.dot d (a, b) = |a| / 2 + √3 / 2 * |b| := by
    rcases hd with ⟨rfl, ha, hb⟩ | ⟨rfl, ha, hb⟩ | ⟨rfl, ha, hb⟩ | ⟨rfl, ha, hb⟩
    · rw [abs_of_pos ha, abs_of_pos hb, Plane.dot]
      ring
    · rw [abs_of_nonpos ha, abs_of_pos hb, Plane.dot]
      ring
    · rw [abs_of_neg ha, abs_of_neg hb, Plane.dot]
      ring
    · rw [abs_of_nonneg ha, abs_of_neg hb, Plane.dot]
      ring
  have hcross : Plane.cross d (a, b) = |b| / 2 - √3 / 2 * |a| ∧ 0 < |a| ∨
      Plane.cross d (a, b) = -(|b| / 2 - √3 / 2 * |a|) := by
    rcases hd with ⟨rfl, ha, hb⟩ | ⟨rfl, ha, hb⟩ | ⟨rfl, ha, hb⟩ | ⟨rfl, ha, hb⟩
    · refine Or.inl ⟨?_, abs_pos.mpr ha.ne'⟩
      rw [abs_of_pos ha, abs_of_pos hb, Plane.cross]
      ring
    · right
      rw [abs_of_nonpos ha, abs_of_pos hb, Plane.cross]
      ring
    · refine Or.inl ⟨?_, abs_pos.mpr ha.ne⟩
      rw [abs_of_neg ha, abs_of_neg hb, Plane.cross]
      ring
    · right
      rw [abs_of_nonneg ha, abs_of_neg hb, Plane.cross]
      ring
  rcases eq_or_ne a 0 with hzero | ha
  · have hpos : 0 < √3 * |b| := mul_pos (by positivity) (abs_pos.mpr hb)
    have habs : |a| = 0 := abs_eq_zero.mpr hzero
    refine framed_steep (abs_nonneg a) (abs_pos.mpr hb) hdot hcross ?_ fun _ => ?_ <;>
      rw [habs] <;> linarith
  · obtain ⟨hnear, hexact⟩ := steep_of_slope (abs_pos.mpr ha) (h ha)
    exact framed_steep (abs_nonneg a) (abs_pos.mpr hb) hdot hcross hnear
      fun hslope => hexact (slopeExact_iff.mp hslope ha)

/-- Off the axes, the sector comes from the signs and one comparison. -/
theorem dtcSector_spec {alpha beta : Int64} (halpha : alpha ≠ Int64.minValue)
    (hbeta : beta ≠ Int64.minValue) (ha : alpha ≠ 0) (hb : beta ≠ 0) :
    ∃ c, dtcSector alpha beta = (dtcQuadrant (fcqCmp alpha 0) (fcqCmp beta 0) c, .ok ()) ∧
      (c ≤ 0 → |(beta.toInt : ℝ)| / |(alpha.toInt : ℝ)| ≤ 1 / √3 + 1 / 2 ^ 30) ∧
      (0 ≤ c → 1 / √3 - 1 / 2 ^ 30 ≤ |(beta.toInt : ℝ)| / |(alpha.toInt : ℝ)|) := by
  obtain ⟨A, hA, hAvalue⟩ := fcqAbs_total halpha
  obtain ⟨B, hB, hBvalue⟩ := fcqAbs_total hbeta
  have hApos : 0 < A.toInt := by
    rw [hAvalue, abs_pos]
    exact fun h => ha (Int64.toInt_inj.mp h)
  have hBpos : 0 < B.toInt := by
    rw [hBvalue, abs_pos]
    exact fun h => hb (Int64.toInt_inj.mp h)
  obtain ⟨c, hc, hflat, hsteep⟩ := dtcSlopeCompare_spec hApos hBpos
  refine ⟨c, ?_, ?_, ?_⟩
  · have hsx : fcqCmp alpha 0 ≠ 0 := fun h => ha ((fcqCmp_eq alpha 0).mp h)
    have hsy : fcqCmp beta 0 ≠ 0 := fun h => hb ((fcqCmp_eq beta 0).mp h)
    simp only [dtcSector, if_neg hsx, if_neg hsy, hA, hB]
    change (dtcQuadrant _ _ (dtcSlopeCompare (.ok A) (.ok B)).1,
      (dtcSlopeCompare (.ok A) (.ok B)).2) = _
    rw [hc]
  · rwa [hAvalue, hBvalue, Int.cast_abs, Int.cast_abs] at hflat
  · rwa [hAvalue, hBvalue, Int.cast_abs, Int.cast_abs] at hsteep

theorem dtcQuadrant_range (sx sy c : ℤ) : 1 ≤ dtcQuadrant sx sy c ∧ dtcQuadrant sx sy c ≤ 6 := by
  simp only [dtcQuadrant]
  split_ifs <;> decide

theorem dtcSector_range (alpha beta : Int64) :
    1 ≤ (dtcSector alpha beta).1 ∧ (dtcSector alpha beta).1 ≤ 6 := by
  simp only [dtcSector]
  split_ifs
  · decide
  · decide
  · decide
  · decide
  · exact dtcQuadrant_range _ _ _

/-- The sector of a vector off the axes, by its signs. -/
theorem dtcQuadrant_framed {a b : ℝ} {sx sy c : ℤ} (hx : 0 < sx ∧ 0 < a ∨ ¬0 < sx ∧ a < 0)
    (hy : 0 < sy ∧ 0 < b ∨ ¬0 < sy ∧ b < 0)
    (hflat : c ≤ 0 → |b| / |a| ≤ 1 / √3 + 1 / 2 ^ 30)
    (hsteep : 0 ≤ c → 1 / √3 - 1 / 2 ^ 30 ≤ |b| / |a|) :
    Framed (Plane.direction (sectorMiddle (dtcQuadrant sx sy c))) (a, b) (SlopeExact (a, b)) := by
  obtain ⟨h₁, h₂, h₃, h₄, h₅, h₆⟩ := direction_sectorMiddle
  rcases hx with ⟨hx, ha⟩ | ⟨hx, ha⟩ <;> rcases hy with ⟨hy, hb⟩ | ⟨hy, hb⟩ <;>
    simp only [dtcQuadrant, gt_iff_lt, hx, hy, if_true, if_false]
  · split
    · exact framed_of_flat (.inl ⟨h₁, ha⟩) (hflat (by omega))
    · exact framed_of_steep (.inl ⟨h₂, ha, hb⟩) fun _ => hsteep (by omega)
  · split
    · exact framed_of_steep (.inr (.inr (.inr ⟨h₆, ha.le, hb⟩))) fun _ => hsteep (by omega)
    · exact framed_of_flat (.inl ⟨h₁, ha⟩) (hflat (by omega))
  · split
    · exact framed_of_steep (.inr (.inl ⟨h₃, ha.le, hb⟩)) fun _ => hsteep (by omega)
    · exact framed_of_flat (.inr ⟨h₄, ha⟩) (hflat (by omega))
  · split
    · exact framed_of_flat (.inr ⟨h₄, ha⟩) (hflat (by omega))
    · exact framed_of_steep (.inr (.inr (.inl ⟨h₅, ha, hb⟩))) fun _ => hsteep (by omega)

/-- The flux as seen from the middle of its sector. -/
theorem dtcSector_framed {alpha beta : Int64} (hne : ¬(alpha = 0 ∧ beta = 0))
    (halpha : alpha ≠ Int64.minValue) (hbeta : beta ≠ Int64.minValue) :
    Framed (Plane.direction (sectorMiddle (dtcSector alpha beta).1)) (fluxVector alpha beta)
      (SlopeExact (fluxVector alpha beta)) := by
  obtain ⟨h₁, -, h₃, h₄, -, h₆⟩ := direction_sectorMiddle
  have hsign : ∀ {x : Int64}, x ≠ 0 →
      0 < fcqCmp x 0 ∧ (0 : ℝ) < x.toInt ∨ ¬0 < fcqCmp x 0 ∧ (x.toInt : ℝ) < 0 := by
    intro x hx
    rw [fcqCmp_gt, Int64.toInt_zero, Int.cast_pos, Int.cast_lt_zero, not_lt]
    have : x.toInt ≠ 0 := fun h => hx (Int64.toInt_inj.mp h)
    omega
  by_cases hb : beta = 0
  · subst hb
    have ha : alpha ≠ 0 := fun h => hne ⟨h, rfl⟩
    have hflat : |((0 : Int64).toInt : ℝ)| / |(alpha.toInt : ℝ)| ≤ 1 / √3 + 1 / 2 ^ 30 := by
      simp only [Int64.toInt_zero, Int.cast_zero, abs_zero, zero_div]
      positivity
    rw [dtcSector, if_pos (by simp)]
    rcases hsign ha with ⟨hsx, hpos⟩ | ⟨hsx, hneg⟩
    · rw [if_pos hsx]
      exact framed_of_flat (.inl ⟨h₁, hpos⟩) hflat
    · rw [if_neg hsx]
      exact framed_of_flat (.inr ⟨h₄, hneg⟩) hflat
  · have hsy : fcqCmp beta 0 ≠ 0 := fun h => hb ((fcqCmp_eq beta 0).mp h)
    by_cases ha : alpha = 0
    · subst ha
      have hzero : ((0 : Int64).toInt : ℝ) = 0 := by simp
      rw [dtcSector, if_neg hsy, if_pos (by simp)]
      rcases hsign hb with ⟨hsy, hpos⟩ | ⟨hsy, hneg⟩
      · rw [if_pos hsy]
        exact framed_of_steep (.inr (.inl ⟨h₃, hzero.le, hpos⟩))
          fun h => absurd hzero h
      · rw [if_neg hsy]
        exact framed_of_steep (.inr (.inr (.inr ⟨h₆, hzero.ge, hneg⟩)))
          fun h => absurd hzero h
    · obtain ⟨c, hc, hflat, hsteep⟩ := dtcSector_spec halpha hbeta ha hb
      rw [hc]
      exact dtcQuadrant_framed (hsign ha) (hsign hb) hflat hsteep

theorem toInt_neg_of_ne {x : Int64} (hx : x ≠ Int64.minValue) : (-x).toInt = -x.toInt := by
  have hlow := x.le_toInt
  have hhigh := x.toInt_lt
  have hne : x.toInt ≠ -2 ^ 63 := fun h => hx (Int64.toInt_inj.mp h)
  rw [Int64.toInt_neg]
  exact bmod_of_fits (by constructor <;> omega)

theorem fcqAbs_neg {x : Int64} (hx : x ≠ Int64.minValue) : fcqAbs (-x) = fcqAbs x := by
  rw [fcqAbs, fixed_abs, fixed_abs, toInt_neg_of_ne hx, abs_neg]

/-- The opposite flux has the same magnitudes and slope. -/
theorem dtcSector_neg {alpha beta : Int64} (hne : ¬(alpha = 0 ∧ beta = 0))
    (halpha : alpha ≠ Int64.minValue) (hbeta : beta ≠ Int64.minValue) :
    (dtcSector (-alpha) (-beta)).1 = oppositeSector (dtcSector alpha beta).1 := by
  have hpos : ∀ {x : Int64}, x ≠ Int64.minValue → x ≠ 0 →
      (0 < fcqCmp (-x) 0 ↔ ¬0 < fcqCmp x 0) := by
    intro x hx hzero
    have hne : x.toInt ≠ 0 := fun h => hzero (Int64.toInt_inj.mp h)
    rw [fcqCmp_gt, fcqCmp_gt, toInt_neg_of_ne hx, Int64.toInt_zero]
    omega
  have hzero : ∀ {x : Int64}, fcqCmp (-x) 0 = 0 ↔ fcqCmp x 0 = 0 := by
    intro x
    rw [fcqCmp_eq, fcqCmp_eq]
    exact ⟨fun h => by simpa using congrArg (-·) h, fun h => by simp [h]⟩
  simp only [dtcSector, hzero, fcqAbs_neg halpha, fcqAbs_neg hbeta, gt_iff_lt]
  by_cases hb : beta = 0
  · have ha : alpha ≠ 0 := fun h => hne ⟨h, hb⟩
    simp only [(fcqCmp_eq beta 0).mpr hb, if_true, hpos halpha ha]
    by_cases hsx : 0 < fcqCmp alpha 0 <;> simp only [hsx, not_true, not_false_iff, if_true,
        if_false] <;> decide
  · have hsy : fcqCmp beta 0 ≠ 0 := fun h => hb ((fcqCmp_eq beta 0).mp h)
    simp only [hsy, if_false]
    by_cases ha : alpha = 0
    · simp only [(fcqCmp_eq alpha 0).mpr ha, if_true, hpos hbeta hb]
      by_cases hsy : 0 < fcqCmp beta 0 <;> simp only [hsy, not_true, not_false_iff, if_true,
        if_false] <;> decide
    · have hsx : fcqCmp alpha 0 ≠ 0 := fun h => ha ((fcqCmp_eq alpha 0).mp h)
      simp only [hsx, if_false]
      generalize (dtcSlopeCompare _ _).1 = c
      simp only [dtcQuadrant, gt_iff_lt, hpos halpha ha, hpos hbeta hb]
      by_cases hx : 0 < fcqCmp alpha 0 <;> by_cases hy : 0 < fcqCmp beta 0 <;>
        simp only [hx, hy, not_true, not_false_iff, if_true, if_false] <;> split <;> decide

/-! ## The switching rule -/

/-- What the active states of the table do in the sector of a flux: the voltage
turns it as the torque comparator asks, does not oppose the flux comparator by
more than `2^-29`, and the sector is the true one where the slope is exact. -/
structure SwitchesRight (alpha beta : Int64) : Prop where
  torque : ∀ flux torque : Int8, (flux = 1 ∨ flux = -1) → (torque = 1 ∨ torque = -1) →
    0 < torque.toInt * Plane.cross (fluxVector alpha beta)
      (idealVoltage (dtcActiveState flux torque (dtcSector alpha beta).1))
  flux : ∀ flux torque : Int8, (flux = 1 ∨ flux = -1) → (torque = 1 ∨ torque = -1) →
    -(1 / 2 ^ 29) * Plane.length (fluxVector alpha beta) *
        Plane.length (idealVoltage (dtcActiveState flux torque (dtcSector alpha beta).1)) ≤
      flux.toInt * Plane.dot (fluxVector alpha beta)
        (idealVoltage (dtcActiveState flux torque (dtcSector alpha beta).1))
  sector : SlopeExact (fluxVector alpha beta) →
    Plane.InSixth (sectorMiddle (dtcSector alpha beta).1) (fluxVector alpha beta)
  opposite : (dtcSector (-alpha) (-beta)).1 = oppositeSector (dtcSector alpha beta).1

/-- A step that returns has taken its state from the table for the sector of a
flux with no coordinate of `-2^63`: there it has ended at the magnitude. -/
theorem dtcWork_switchState {Q : Type} [FilterFormat Q] {input : DtcInput Q} {ctx : Dtc Q}
    {sample : DtcSample Q} (h : dtcWork input ctx = .ok sample) :
    ¬(sample.alpha = 0 ∧ sample.beta = 0) ∧
      sample.alpha ≠ Int64.minValue ∧ sample.beta ≠ Int64.minValue ∧
      sample.result.sector = (dtcSector sample.alpha sample.beta).1 ∧
      sample.result.switchState =
        if sample.result.torqueState = 0 then dtcZeroState ctx.lastSwitch
        else dtcActiveState sample.result.fluxState sample.result.torqueState
          (dtcSector sample.alpha sample.beta).1 := by
  rw [dtcWork] at h
  obtain ⟨-, h⟩ := ok_of_guard h
  obtain ⟨alpha, -, h⟩ := ok_of_bind h
  obtain ⟨beta, -, h⟩ := ok_of_bind h
  obtain ⟨hne, h⟩ := ok_of_guard h
  obtain ⟨magnitude, hmagnitude, h⟩ := ok_of_bind h
  obtain ⟨torque, -, h⟩ := ok_of_bind h
  obtain ⟨fluxError, -, h⟩ := ok_of_bind h
  obtain ⟨torqueError, -, h⟩ := ok_of_bind h
  obtain ⟨fluxBand, -, h⟩ := ok_of_bind h
  obtain ⟨torqueBand, -, h⟩ := ok_of_bind h
  obtain ⟨-, -, h⟩ := ok_of_bind h
  obtain ⟨storedAlpha, -, h⟩ := ok_of_bind h
  obtain ⟨storedBeta, -, h⟩ := ok_of_bind h
  obtain ⟨storedMagnitude, -, h⟩ := ok_of_bind h
  obtain ⟨storedTorque, -, h⟩ := ok_of_bind h
  obtain ⟨halpha, hbeta⟩ := fcqHypot_ok_ne hmagnitude
  rw [fcqCmp_eq, fcqCmp_eq] at hne
  cases h
  exact ⟨hne, halpha, hbeta, rfl, rfl⟩

theorem unit_sign {x : Int8} (hx : x = 1 ∨ x = -1) :
    (x.toInt : ℝ) = 1 ∨ (x.toInt : ℝ) = -1 := by
  rcases hx with rfl | rfl
  · exact Or.inl (by rw [show (1 : Int8).toInt = 1 from rfl, Int.cast_one])
  · exact Or.inr (by rw [show (-1 : Int8).toInt = -1 from rfl, Int.cast_neg, Int.cast_one])

/-- Every flux has a sector, and every flux but zero and those with a coordinate
of `-2^63` is switched right. -/
theorem dtc_switches_right (alpha beta : Int64) :
    (1 ≤ (dtcSector alpha beta).1 ∧ (dtcSector alpha beta).1 ≤ 6) ∧
      (¬(alpha = 0 ∧ beta = 0) → alpha ≠ Int64.minValue → beta ≠ Int64.minValue →
        SwitchesRight alpha beta) := by
  refine ⟨dtcSector_range alpha beta, fun hne halpha hbeta => ?_⟩
  obtain ⟨hlow, hhigh⟩ := dtcSector_range alpha beta
  have hframed := dtcSector_framed hne halpha hbeta
  have hunit := Plane.dot_direction (sectorMiddle (dtcSector alpha beta).1)
  refine ⟨fun flux torque hflux htorque => ?_, fun flux torque hflux htorque => ?_,
    fun hexact => ?_, dtcSector_neg hne halpha hbeta⟩
  · rw [idealVoltage_active hflux htorque hlow hhigh]
    apply Plane.cross_leading_pos (unit_sign hflux) (unit_sign htorque)
    have hroot : (3 : ℝ) / 2 ≤ √3 := Real.le_sqrt_of_sq_le (by norm_num)
    have hsmall := le_mul_of_one_le_left
      (abs_nonneg (Plane.cross (Plane.direction (sectorMiddle (dtcSector alpha beta).1))
        (fluxVector alpha beta))) (show (1 : ℝ) ≤ √3 by linarith)
    have hlarge := mul_le_mul_of_nonneg_right hroot hframed.ahead.le
    linarith [hframed.ahead, hframed.near]
  · rw [idealVoltage_active hflux htorque hlow hhigh,
      Plane.length_leading hunit (unit_sign hflux) (unit_sign htorque), mul_one]
    have hbound := Plane.dot_leading_ge (by positivity) hunit (unit_sign hflux)
      (unit_sign htorque) hframed.near
    linarith
  · obtain ⟨hinside, hstrict⟩ := hframed.inside hexact
    exact Plane.inSixth_of_slope hframed.ahead hinside hstrict

theorem dtc_switches_right_slanted : SwitchesRight 3 1 :=
  (dtc_switches_right 3 1).2 (by decide) (by decide) (by decide)

/-- The magnitude of the least working integer overflows: the sector is then
taken from two zeros, and the table drives the flux the wrong way. -/
theorem dtc_sector_least_integer : ¬SwitchesRight Int64.minValue 1 := by
  intro h
  have hsector : (dtcSector Int64.minValue 1).1 = 3 := rfl
  have hstate : dtcActiveState 1 (-1) 3 = 6 := rfl
  obtain ⟨-, v₆, -⟩ := idealVoltage_eq
  have hflux := h.flux 1 (-1) (.inl rfl) (.inr rfl)
  have hroot : √3 * √3 = 3 := Real.mul_self_sqrt (by norm_num)
  have hunit : Plane.length (1 / 2, √3 / 2) = 1 := by
    rw [Plane.length, Plane.dot, Real.sqrt_eq_one]
    linarith
  have hvector : fluxVector Int64.minValue 1 = (-2 ^ 63, 1) := by
    rw [fluxVector, Int64.toInt_minValue, show (1 : Int64).toInt = 1 from rfl]
    norm_num
  have hlength : Plane.length (-2 ^ 63, 1) ≤ 2 ^ 64 := by
    rw [Plane.length, Plane.dot]
    exact Real.sqrt_le_iff.mpr ⟨by norm_num, by norm_num⟩
  have hsmall : √3 ≤ 2 := Real.sqrt_le_iff.mpr ⟨by norm_num, by norm_num⟩
  rw [hsector, hstate, v₆, hunit, hvector, Plane.dot, show (1 : Int8).toInt = 1 from rfl] at hflux
  norm_num at hflux hlength
  linarith

end Xhive.Fieldctrl
