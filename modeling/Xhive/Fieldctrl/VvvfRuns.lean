import Xhive.Fieldctrl.Vvvf
import Xhive.Fieldctrl.SpaceVector
import Xhive.Fieldctrl.SincosLength
import Xhive.Support.Traces

/-!
# The phase law of the open-loop generator

A step fails exactly on its documented conditions.  The stored angle of a run is the
first one plus the rounded advances of the steps that succeeded, modulo a turn, and
every result reports that angle and a voltage within the linear range.
-/

namespace Xhive.Fieldctrl

open Xhive.Support Xhive.Linears Xhive.Filters

variable {Q : Type} [FilterFormat Q]

/-! ## Runs -/

/-- The call of one sample. -/
structure VvvfCall (Q : Type) where
  output : Extent
  input : VvvfInput Q

/-- A failing step leaves the context alone. -/
def vvvfMachine (Q : Type) [FilterFormat Q] (self : Extent) :
    Machine (VvvfCall Q) (Except Status (VvvfOutput Q)) Vvvf where
  react call ctx :=
    match vvvfStep self call.output call.input ctx with
    | .ok (output, next) => (.ok output, next)
    | .error status => (.error status, ctx)

/-- `f*dt`, rounded. -/
def VvvfInput.advance (input : VvvfInput Q) : ℤ :=
  roundAway ((FilterFormat.load input.frequency).toInt * (FilterFormat.load input.dt).toInt /
    2 ^ 31 : ℚ)

/-- The inputs that a step accepts. -/
structure VvvfInput.Admissible (input : VvvfInput Q) : Prop where
  amplitude : 0 ≤ (FilterFormat.load input.amplitude).toInt
  dcBus : 0 < (FilterFormat.load input.dcBus).toInt
  dt : 0 < (FilterFormat.load input.dt).toInt
  advance : |input.advance| ≤ 2 ^ 30

/-- The advances of the steps that succeeded. -/
def advances : List (VvvfCall Q) → List (Except Status (VvvfOutput Q)) → ℤ
  | call :: calls, answer :: answers =>
      (if answer.isOk then call.input.advance else 0) + advances calls answers
  | _, _ => 0

/-! ## The angle -/

theorem toInt_fcqWrap (x : Int64) : (fcqWrap x).toInt = x.toInt % 2 ^ 31 := by
  obtain ⟨m, hm⟩ := fcqWrap_congr x
  have hrange := fcqWrap_range x
  omega

theorem toInt_advance {input : VvvfInput Q} {product : Int64}
    (h : fcqMul (FilterFormat.load input.frequency) (FilterFormat.load input.dt) = .ok product) :
    product.toInt = input.advance :=
  fcqMul_ok h

/-- The advance is refused past half a turn, and nothing else fails. -/
theorem vvvfAdvance_eq (input : VvvfInput Q) :
    (|input.advance| ≤ 2 ^ 30 ∧ ∃ product, product.toInt = input.advance ∧
      vvvfAdvance (FilterFormat.load input.frequency) (FilterFormat.load input.dt) =
        .ok product) ∨
    (2 ^ 30 < |input.advance| ∧
      vvvfAdvance (FilterFormat.load input.frequency) (FilterFormat.load input.dt) =
        .error .errorDomain) := by
  obtain ⟨product, hproduct, hle⟩ := fcqMul_total (n := 2 ^ 31)
    (a := FilterFormat.load input.frequency) (b := FilterFormat.load input.dt)
    (by rw [abs_mul]; exact mul_le_mul (abs_load_le _) (abs_load_le _) (abs_nonneg _) (by norm_num))
    (by norm_num)
  have hvalue := toInt_advance hproduct
  have hne : product ≠ Int64.minValue := by
    rintro rfl
    exact absurd hle (by decide)
  obtain ⟨magnitude, hmagnitude, hmagnitudeValue⟩ := fcqAbs_total hne
  rw [hvalue] at hmagnitudeValue
  rw [vvvfAdvance, hproduct, ok_bind, hmagnitude, ok_bind, fcqI_one, ok_bind, fcqI_two, ok_bind,
    fcqDiv_two, ok_bind]
  rcases le_or_gt |input.advance| (2 ^ 30) with hsmall | hlarge
  · have hwithin : ¬fcqCmp magnitude pwmHalf > 0 := by
      rw [gt_iff_lt, fcqCmp_gt, toInt_pwmHalf, hmagnitudeValue, not_lt]
      exact hsmall
    exact .inl ⟨hsmall, product, hvalue, if_neg hwithin⟩
  · have hbeyond : fcqCmp magnitude pwmHalf > 0 := by
      rw [gt_iff_lt, fcqCmp_gt, toInt_pwmHalf, hmagnitudeValue]
      exact hlarge
    exact .inr ⟨hlarge, if_pos hbeyond⟩

/-- The angle is stored as its nearest scalar of the circle. -/
theorem fcAngleStore_ok {angle : Int64} (hlow : 0 ≤ angle.toInt) (hhigh : angle.toInt < 2 ^ 31) :
    ∃ stored : Q, fcAngleStore angle = .ok stored ∧ 0 ≤ (QFormat.widen stored).toInt ∧
      (QFormat.widen stored).toInt =
        roundAway ((angle.toInt : ℚ) / 2 ^ (31 - (QFormat.qBits Q).toNat)) %
          2 ^ (QFormat.qBits Q).toNat := by
  have hwork : fcqWrap angle = angle := by
    rw [← Int64.toInt_inj, toInt_fcqWrap, Int.emod_eq_of_lt hlow hhigh]
  have hrange : |angle.toInt| ≤ 2 ^ 31 := abs_le.mpr ⟨by omega, hhigh.le⟩
  have hlowQ : (0 : ℚ) ≤ angle.toInt := by exact_mod_cast hlow
  obtain ⟨stored, hcall, hstored⟩ := FilterFormat.exportFixed_ok angle (FilterFormat.zero : Q) hrange
  have hstore : fcStore angle = .ok stored := by
    rw [fcStore, hcall]
    rfl
  rw [fcAngleStore, hwork]
  rcases QFormat.qBits_cases (Q := Q) with hbits | hbits
  · rw [if_pos hbits]
    have hcount : (QFormat.qBits Q).toNat = 15 := by rw [hbits]; rfl
    have hfloor : roundAway ((angle.toInt : ℚ) / 2 ^ (31 - (QFormat.qBits Q).toNat)) =
        ⌊(angle.toInt : ℚ) / 2 ^ 16 + 1 / 2⌋ := by
      rw [hcount, roundAway_of_nonneg (by positivity)]
    rw [hfloor] at hstored ⊢
    rw [hcount] at hstored ⊢
    have hcell : angle ≥ fixedOne - 32768 ↔ 2147450880 ≤ angle.toInt := Int64.le_iff_toInt_le
    by_cases hupper : angle ≥ fixedOne - 32768
    · -- the upper half-cell is zero turns
      rw [if_pos hupper]
      rw [hcell] at hupper
      have hwhole : ⌊(angle.toInt : ℚ) / 2 ^ 16 + 1 / 2⌋ = 2 ^ 15 := by
        have hupperQ : (2147450880 : ℚ) ≤ angle.toInt := by exact_mod_cast hupper
        have hhighQ : (angle.toInt : ℚ) < 2 ^ 31 := by exact_mod_cast hhigh
        rw [Int.floor_eq_iff]
        push_cast
        constructor <;> linarith
      rw [hwhole]
      exact ⟨_, rfl, FilterFormat.toInt_widen_zero.ge, FilterFormat.toInt_widen_zero⟩
    · rw [if_neg hupper]
      rw [hcell, not_le] at hupper
      have hbelow : ⌊(angle.toInt : ℚ) / 2 ^ 16 + 1 / 2⌋ < 2 ^ 15 := by
        have hupperQ : (angle.toInt : ℚ) < 2147450880 := by exact_mod_cast hupper
        rw [Int.floor_lt]
        push_cast
        linarith
      have habove : 0 ≤ ⌊(angle.toInt : ℚ) / 2 ^ 16 + 1 / 2⌋ := Int.floor_nonneg.mpr (by positivity)
      rw [endpoint, if_neg hbelow.ne] at hstored
      exact ⟨stored, hstore, hstored ▸ habove,
        hstored.trans (Int.emod_eq_of_lt habove hbelow).symm⟩
  · have hcount : (QFormat.qBits Q).toNat = 31 := by rw [hbits]; rfl
    have hnarrow : QFormat.qBits Q ≠ 15 := by rw [hbits]; decide
    rw [hcount, Nat.sub_self, pow_zero, div_one, roundAway_intCast] at hstored ⊢
    rw [endpoint, if_neg hhigh.ne] at hstored
    have hload : (FilterFormat.load stored).toInt = angle.toInt := by
      rw [FilterFormat.toInt_load, hcount, hstored]
      exact mul_one _
    have hwithin : ¬fcqCmp (FilterFormat.load stored) fixedOne ≥ 0 := by
      rw [ge_iff_le, fcqCmp_ge, hload, toInt_fixedOne, not_le]
      exact hhigh
    rw [if_neg hnarrow, hstore, ok_bind, if_neg hwithin]
    exact ⟨stored, rfl, hstored ▸ hlow, hstored.trans (Int.emod_eq_of_lt hlow hhigh).symm⟩

/-! ## The voltage -/

/-- The values of a step between the angle and the stores: the modulation, its
components and the voltage. -/
structure VvvfWork where
  a : Int64
  b : Int64
  alpha : Int64
  beta : Int64
  saturated : Bool

def vvvfWork (angle amplitude bus : Int64) : Except Status VvvfWork := do
  let (v, saturated) ← vvvfModulation amplitude bus
  let (s, c) ← fcqSincos angle
  let a ← fcqMul v c
  let b ← fcqMul v s
  let alpha ← fcqMul a bus
  let beta ← fcqMul b bus
  .ok ⟨a, b, alpha, beta, saturated⟩

/-- The modulation is limited to `1/sqrt(3)`. -/
theorem vvvfModulation_ok {amplitude bus : Int64} (hamplitude : 0 ≤ amplitude.toInt)
    (hbus : 0 < bus.toInt) :
    ∃ v saturated, vvvfModulation amplitude bus = .ok (v, saturated) ∧
      0 ≤ v.toInt ∧ v.toInt ≤ pwmLimit.toInt := by
  have hscale : (if fcqCmp amplitude bus > 0 then amplitude else bus).toInt =
      max amplitude.toInt bus.toInt := toInt_greater amplitude bus
  rw [vvvfModulation]
  generalize (if fcqCmp amplitude bus > 0 then amplitude else bus) = scale at hscale ⊢
  have hpos : 0 < scale.toInt := hscale ▸ hbus.trans_le (le_max_right _ _)
  have hne : scale ≠ 0 := by
    rintro rfl
    exact absurd hpos (by decide)
  have hle : |amplitude.toInt| ≤ scale.toInt := by
    rw [abs_of_nonneg hamplitude, hscale]
    exact le_max_left _ _
  obtain ⟨v, hv, -⟩ := fcqDiv_total (a := amplitude) (n := 2 ^ 31) hne
    (by rw [abs_of_pos hpos, mul_comm]; exact mul_le_mul_of_nonneg_left hle (by norm_num))
    (by norm_num)
  have hnonneg : 0 ≤ v.toInt := by
    have hamplitudeQ : (0 : ℚ) ≤ amplitude.toInt := by exact_mod_cast hamplitude
    have hposQ : (0 : ℚ) < scale.toInt := by exact_mod_cast hpos
    rw [fcqDiv_ok hne hv]
    exact roundAway_nonneg (by positivity)
  rw [hv, ok_bind, fcqI_one, ok_bind, fcqI_three, ok_bind, fcqSqrt_three, ok_bind, fcqDiv_root3,
    ok_bind]
  by_cases hexceeds : fcqCmp v pwmLimit > 0
  · exact ⟨pwmLimit, true, if_pos hexceeds, by decide, le_rfl⟩
  · refine ⟨v, false, if_neg hexceeds, hnonneg, ?_⟩
    rwa [gt_iff_lt, fcqCmp_gt, not_lt] at hexceeds

/-- A vector times a factor of `[0, 1]`, with both products rounded. -/
theorem planar_mul_near {factor x y p q : Int64} (hp : fcqMul factor x = .ok p)
    (hq : fcqMul factor y = .ok q) :
    ‖planar p q - ((factor.toInt : ℝ) / 2 ^ 31) • planar x y‖ ≤ 3 / 4 := by
  have hre := fcqMul_near hp
  have him := fcqMul_near hq
  apply norm_le_of_parts
  · rw [Complex.sub_re, Complex.smul_re, planar_re, planar_re, smul_eq_mul, div_mul_eq_mul_div]
    exact hre
  · rw [Complex.sub_im, Complex.smul_im, planar_im, planar_im, smul_eq_mul, div_mul_eq_mul_div]
    exact him

theorem planar_mul_norm_le {factor x y p q : Int64} (hfactor : 0 ≤ factor.toInt)
    (hp : fcqMul factor x = .ok p) (hq : fcqMul factor y = .ok q) :
    ‖planar p q‖ ≤ factor.toInt / 2 ^ 31 * ‖planar x y‖ + 3 / 4 := by
  have hfactorR : (0 : ℝ) ≤ factor.toInt := by exact_mod_cast hfactor
  have hnear := planar_mul_near hp hq
  have hsum := norm_le_norm_sub_add (planar p q) (((factor.toInt : ℝ) / 2 ^ 31) • planar x y)
  rw [norm_smul, Real.norm_of_nonneg (by positivity)] at hsum
  linarith

/-- The voltage before the store is within the linear range, up to four units. -/
theorem vvvfWork_ok (angle : Int64) {amplitude bus : Int64} (hamplitude : 0 ≤ amplitude.toInt)
    (hbus : 0 < bus.toInt) (hfull : bus.toInt < 2 ^ 31) :
    ∃ work, vvvfWork angle amplitude bus = .ok work ∧ |work.a.toInt| ≤ 2 ^ 31 ∧
      |work.b.toInt| ≤ 2 ^ 31 ∧ |work.alpha.toInt| ≤ 2 ^ 31 ∧ |work.beta.toInt| ≤ 2 ^ 31 ∧
      ‖planar work.alpha work.beta‖ ≤ bus.toInt / Real.sqrt 3 + 4 := by
  obtain ⟨v, saturated, hv, hvLow, hvHigh⟩ := vvvfModulation_ok hamplitude hbus
  obtain ⟨s, c, hsincos, hs, hc⟩ := fcqSincos_ok angle
  have hlimit : pwmLimit.toInt = 1239850262 := rfl
  have hvFull : |v.toInt| ≤ 2 ^ 31 := by
    rw [abs_of_nonneg hvLow]
    omega
  have hbusFull : |bus.toInt| ≤ 2 ^ 31 := by
    rw [abs_of_pos hbus]
    exact hfull.le
  have hproduct : ∀ {x y : Int64}, |x.toInt| ≤ 2 ^ 31 → |y.toInt| ≤ 2 ^ 31 →
      ∃ z, fcqMul x y = .ok z ∧ |z.toInt| ≤ 2 ^ 31 := by
    intro x y hx hy
    refine fcqMul_total ?_ (by norm_num)
    rw [abs_mul]
    exact mul_le_mul hx hy (abs_nonneg _) (by norm_num)
  obtain ⟨a, ha, haFull⟩ := hproduct hvFull hc
  obtain ⟨b, hb, hbFull⟩ := hproduct hvFull hs
  obtain ⟨alpha, halpha, halphaFull⟩ := hproduct haFull hbusFull
  obtain ⟨beta, hbeta, hbetaFull⟩ := hproduct hbFull hbusFull
  refine ⟨⟨a, b, alpha, beta, saturated⟩, ?_, haFull, hbFull, halphaFull, hbetaFull, ?_⟩
  · rw [vvvfWork, hv, ok_bind]
    dsimp only
    rw [hsincos, ok_bind]
    dsimp only
    rw [ha, ok_bind, hb, ok_bind, halpha, ok_bind, hbeta, ok_bind]
  · have hunit := (abs_le.mp (fcqSincos_length hsincos)).2
    have hmodulation := planar_mul_norm_le hvLow ha hb
    rw [fcqMul_comm] at halpha hbeta
    have hvoltage := planar_mul_norm_le hbus.le halpha hbeta
    have hradius := (abs_le.mp pwmLimit_near).2
    have hvLowR : (0 : ℝ) ≤ v.toInt := by exact_mod_cast hvLow
    have hvHighR : (v.toInt : ℝ) ≤ pwmLimit.toInt := by exact_mod_cast hvHigh
    have hbusR : (0 : ℝ) < bus.toInt := by exact_mod_cast hbus
    have hfullR : (bus.toInt : ℝ) / 2 ^ 31 ≤ 1 := by
      rw [div_le_one (by norm_num)]
      exact_mod_cast hfull.le
    have hlimitR : (pwmLimit.toInt : ℝ) ≤ 2 ^ 31 := by
      rw [hlimit]
      norm_num
    have hvector : ‖planar a b‖ ≤ 2 ^ 31 * (1 / Real.sqrt 3) + 3 := by
      have hfactor : (v.toInt : ℝ) / 2 ^ 31 * ‖planar c s‖ ≤ v.toInt / 2 ^ 31 * (2 ^ 31 + 1) := by
        gcongr
        linarith
      have hone : (v.toInt : ℝ) / 2 ^ 31 ≤ 1 := by
        rw [div_le_one (by norm_num)]
        linarith
      linarith
    calc ‖planar alpha beta‖
        ≤ bus.toInt / 2 ^ 31 * (2 ^ 31 * (1 / Real.sqrt 3) + 3) + 3 / 4 := by
          refine hvoltage.trans ?_
          gcongr
      _ = bus.toInt / Real.sqrt 3 + (bus.toInt / 2 ^ 31 * 3 + 3 / 4) := by ring
      _ ≤ bus.toInt / Real.sqrt 3 + 4 := by linarith

/-! ## One step -/

/-- What a result says about the angle it was computed at. -/
structure Reports (input : VvvfInput Q) (angle : Int64) (output : VvvfOutput Q) : Prop where
  angle_range : 0 ≤ (QFormat.widen output.angle).toInt ∧
    (QFormat.widen output.angle).toInt ≤ 2 ^ (QFormat.qBits Q).toNat - 1
  /-- The nearest scalar of the circle. -/
  angle_rounded : (QFormat.widen output.angle).toInt =
    roundAway ((angle.toInt : ℚ) / 2 ^ (31 - (QFormat.qBits Q).toNat)) %
      2 ^ (QFormat.qBits Q).toNat
  /-- The voltage before the store is within the linear range, up to four units. -/
  voltage : ∃ work,
    vvvfWork angle (FilterFormat.load input.amplitude) (FilterFormat.load input.dcBus) =
      .ok work ∧
    fcStore work.alpha = .ok output.voltage.alpha ∧ fcStore work.beta = .ok output.voltage.beta ∧
    ‖planar work.alpha work.beta‖ ≤ (FilterFormat.load input.dcBus).toInt / Real.sqrt 3 + 4

/-- The errors of the pointer checks. -/
theorem checkPointers_error {self output : Extent} {status : Status}
    (h : checkPointers self output = .error status) : status ≠ .errorRange := by
  rw [checkPointers] at h
  split_ifs at h <;> cases h <;> decide

/-- An accepted sample advances the angle and reports it. -/
theorem vvvfStep_ok {self output : Extent} {input : VvvfInput Q} {ctx : Vvvf}
    (hpointers : checkPointers self output = .ok ()) (hinput : input.Admissible)
    (hlow : 0 ≤ ctx.angle.toInt) (hhigh : ctx.angle.toInt < 2 ^ 31) :
    ∃ result next, vvvfStep self output input ctx = .ok (result, next) ∧
      next.angle.toInt = (ctx.angle.toInt + input.advance) % 2 ^ 31 ∧
      Reports input next.angle result := by
  obtain ⟨hamplitude, hbus, hdt, hadvance⟩ := hinput
  have hguard : ¬(fcqCmp (FilterFormat.load input.amplitude) 0 < 0 ∨
      fcqCmp (FilterFormat.load input.dcBus) 0 ≤ 0 ∨ fcqCmp (FilterFormat.load input.dt) 0 ≤ 0) := by
    rw [fcqCmp_lt, fcqCmp_le, fcqCmp_le, Int64.toInt_zero]
    omega
  obtain ⟨-, product, hproduct, hadvanced⟩ | ⟨hbeyond, -⟩ := vvvfAdvance_eq input
  swap
  · exact absurd hadvance (not_le.mpr hbeyond)
  rw [abs_le] at hadvance
  obtain ⟨sum, hsum⟩ := fcqAdd_total (a := ctx.angle) (b := product)
    (by rw [hproduct, abs_lt]; omega)
  have hsumValue := fcqAdd_ok hsum
  obtain ⟨hangleLow, hangleHigh⟩ := fcqWrap_range sum
  obtain ⟨work, hwork, haFull, hbFull, halphaFull, hbetaFull, hvoltage⟩ :=
    vvvfWork_ok (fcqWrap sum) hamplitude hbus (load_bounds input.dcBus).2
  obtain ⟨alpha, halpha⟩ := fcStore_total (Q := Q) halphaFull
  obtain ⟨beta, hbeta⟩ := fcStore_total (Q := Q) hbetaFull
  obtain ⟨angle, hangle, hangle₀, hangleRounded⟩ := fcAngleStore_ok (Q := Q) hangleLow hangleHigh
  obtain ⟨-, duty, -, hduty, -⟩ := basePwm_ok (Q := Q) haFull hbFull
    (show 0 < fixedOne.toInt by decide)
  have hreport : Reports input (fcqWrap sum) ⟨angle, ⟨alpha, beta⟩, duty, work.saturated⟩ :=
    ⟨⟨hangle₀, Int.le_sub_one_of_lt (QFormat.toInt_widen_lt angle)⟩, hangleRounded,
      work, hwork, halpha, hbeta, hvoltage⟩
  refine ⟨_, ⟨fcqWrap sum⟩, ?_, ?_, hreport⟩
  · obtain ⟨⟨v, saturated⟩, hmodulation, hwork⟩ := ok_of_bind hwork
    obtain ⟨⟨s, c⟩, hsincos, hwork⟩ := ok_of_bind hwork
    obtain ⟨a, ha, hwork⟩ := ok_of_bind hwork
    obtain ⟨b, hb, hwork⟩ := ok_of_bind hwork
    obtain ⟨x, hx, hwork⟩ := ok_of_bind hwork
    obtain ⟨y, hy, hwork⟩ := ok_of_bind hwork
    cases hwork
    rw [vvvfStep, hpointers, ok_bind]
    dsimp only
    rw [if_neg hguard, hadvanced, ok_bind, hsum, ok_bind, hmodulation, ok_bind]
    dsimp only
    rw [hsincos, ok_bind]
    dsimp only
    rw [ha, ok_bind, hb, ok_bind, hx, ok_bind, halpha, ok_bind, hy, ok_bind, hbeta, ok_bind,
      hangle, ok_bind, fcqI_one, ok_bind, hduty, ok_bind]
  · rw [toInt_fcqWrap, hsumValue, hproduct]

/-- A refused sample is refused for its pointers or its operands. -/
theorem vvvfStep_error {self output : Extent} {input : VvvfInput Q} (ctx : Vvvf)
    (h : ¬(checkPointers self output = .ok () ∧ input.Admissible)) :
    ∃ status, vvvfStep self output input ctx = .error status ∧ status ≠ .errorRange := by
  cases hpointers : checkPointers self output with
  | error status =>
      refine ⟨status, ?_, checkPointers_error hpointers⟩
      rw [vvvfStep, hpointers, error_bind]
  | ok _ =>
      refine ⟨.errorDomain, ?_, by decide⟩
      rw [vvvfStep, hpointers, ok_bind]
      dsimp only
      by_cases hguard : fcqCmp (FilterFormat.load input.amplitude) 0 < 0 ∨
          fcqCmp (FilterFormat.load input.dcBus) 0 ≤ 0 ∨ fcqCmp (FilterFormat.load input.dt) 0 ≤ 0
      · rw [if_pos hguard]
        rfl
      · rw [if_neg hguard]
        obtain ⟨hadvance, -⟩ | ⟨-, hrefused⟩ := vvvfAdvance_eq input
        · rw [fcqCmp_lt, fcqCmp_le, fcqCmp_le, Int64.toInt_zero] at hguard
          exact absurd ⟨hpointers, by omega, by omega, by omega, hadvance⟩ h
        · rw [hrefused, error_bind]

/-! ## Whole runs -/

/-- The law of one call on the context at `place`, from `ctx` to `next`. -/
structure VvvfStepLaw (place : Extent) (call : VvvfCall Q) (ctx next : Vvvf)
    (answer : Except Status (VvvfOutput Q)) : Prop where
  ok_iff : answer.isOk = true ↔ checkPointers place call.output = .ok () ∧ call.input.Admissible
  never_range : answer ≠ .error .errorRange
  failed : answer.isOk = false → next = ctx
  advanced : answer.isOk = true →
    next.angle.toInt = (ctx.angle.toInt + call.input.advance) % 2 ^ 31
  reports : ∀ output, answer = .ok output → Reports call.input next.angle output

theorem vvvf_step_law (self : Extent) (call : VvvfCall Q) {ctx : Vvvf}
    (hlow : 0 ≤ ctx.angle.toInt) (hhigh : ctx.angle.toInt < 2 ^ 31) :
    VvvfStepLaw self call ctx ((vvvfMachine Q self).react call ctx).2
      ((vvvfMachine Q self).react call ctx).1 := by
  by_cases hvalid : checkPointers self call.output = .ok () ∧ call.input.Admissible
  · obtain ⟨result, next, hstep, hangle, hreport⟩ := vvvfStep_ok hvalid.1 hvalid.2 hlow hhigh
    simp only [vvvfMachine, hstep]
    refine ⟨iff_of_true rfl hvalid, by simp, fun h => absurd h (by simp [Except.isOk, Except.toBool]),
      fun _ => hangle, ?_⟩
    intro output houtput
    cases houtput
    exact hreport
  · obtain ⟨status, hstep, hstatus⟩ := vvvfStep_error ctx hvalid
    simp only [vvvfMachine, hstep]
    refine ⟨iff_of_false (by simp [Except.isOk, Except.toBool]) hvalid, ?_, fun _ => rfl,
      fun h => absurd h (by simp [Except.isOk, Except.toBool]), fun output houtput => ?_⟩
    · intro h
      cases h
      exact hstatus rfl
    · cases houtput

/-- The stored angle of a run. -/
theorem vvvf_run_angle (self : Extent) (calls : List (VvvfCall Q)) {ctx : Vvvf}
    (hlow : 0 ≤ ctx.angle.toInt) (hhigh : ctx.angle.toInt < 2 ^ 31) :
    (0 ≤ ((vvvfMachine Q self).run calls ctx).2.angle.toInt ∧
      ((vvvfMachine Q self).run calls ctx).2.angle.toInt < 2 ^ 31) ∧
    ((vvvfMachine Q self).run calls ctx).2.angle.toInt =
      (ctx.angle.toInt + advances calls ((vvvfMachine Q self).run calls ctx).1) % 2 ^ 31 := by
  induction calls generalizing ctx with
  | nil =>
      refine ⟨⟨hlow, hhigh⟩, ?_⟩
      change ctx.angle.toInt = (ctx.angle.toInt + 0) % 2 ^ 31
      rw [add_zero, Int.emod_eq_of_lt hlow hhigh]
  | cons call calls ih =>
      have hlaw := vvvf_step_law self call hlow hhigh
      rw [Machine.run_cons, advances]
      generalize (vvvfMachine Q self).react call ctx = step at hlaw ⊢
      by_cases hok : step.1.isOk = true
      · have hangle := hlaw.advanced hok
        have hlow' : 0 ≤ step.2.angle.toInt := by omega
        have hhigh' : step.2.angle.toInt < 2 ^ 31 := by omega
        obtain ⟨hrange, hfinal⟩ := ih hlow' hhigh'
        refine ⟨hrange, ?_⟩
        rw [if_pos hok, hfinal, hangle]
        omega
      · have hkept := hlaw.failed (Bool.not_eq_true _ ▸ hok)
        rw [← hkept] at hlow hhigh
        obtain ⟨hrange, hfinal⟩ := ih hlow hhigh
        refine ⟨hrange, ?_⟩
        rw [if_neg hok, zero_add, hfinal, hkept]

/-- From init on, the angle stays in a turn and is the first one plus the advances of the
steps that succeeded, and every next step obeys its law. -/
theorem vvvf_phase_law {self : Extent} {a₀ : Q} {start : Vvvf}
    (hinit : vvvfInit self a₀ = .ok start) (calls : List (VvvfCall Q)) :
    (0 ≤ ((vvvfMachine Q self).run calls start).2.angle.toInt ∧
      ((vvvfMachine Q self).run calls start).2.angle.toInt < 2 ^ 31) ∧
    ((vvvfMachine Q self).run calls start).2.angle.toInt =
      ((FilterFormat.load a₀).toInt +
        advances calls ((vvvfMachine Q self).run calls start).1) % 2 ^ 31 ∧
    ∀ call, VvvfStepLaw self call ((vvvfMachine Q self).run calls start).2
      ((vvvfMachine Q self).react call ((vvvfMachine Q self).run calls start).2).2
      ((vvvfMachine Q self).react call ((vvvfMachine Q self).run calls start).2).1 := by
  have hstart : start.angle = fcqWrap (FilterFormat.load a₀) := by
    rw [vvvfInit] at hinit
    split_ifs at hinit
    cases hinit
    rfl
  obtain ⟨hlow, hhigh⟩ := fcqWrap_range (FilterFormat.load a₀)
  rw [← hstart] at hlow hhigh
  obtain ⟨hrange, hangle⟩ := vvvf_run_angle self calls hlow hhigh
  refine ⟨hrange, ?_, fun call => vvvf_step_law self call hrange.1 hrange.2⟩
  rw [hangle, hstart, toInt_fcqWrap, Int.emod_add_emod]

/-- Two samples past the end of a turn, in q15, with a refused one between them. -/
def sampleVvvfCalls : List (VvvfCall Int16) :=
  [⟨⟨4096, 20⟩, ⟨8192, 4096, 16384, 16384⟩⟩, ⟨⟨4096, 20⟩, ⟨8192, -1, 16384, 16384⟩⟩,
    ⟨⟨4096, 20⟩, ⟨8192, 4096, 16384, 16384⟩⟩]

theorem vvvf_phase_law_wraps :
    ((vvvfMachine Int16 ⟨1024, 8⟩).run sampleVvvfCalls ⟨2013265920⟩).2.angle.toInt =
      ((FilterFormat.load (30720 : Int16)).toInt + advances sampleVvvfCalls
        ((vvvfMachine Int16 ⟨1024, 8⟩).run sampleVvvfCalls ⟨2013265920⟩).1) % 2 ^ 31 :=
  (vvvf_phase_law (show vvvfInit ⟨1024, 8⟩ (30720 : Int16) = .ok ⟨2013265920⟩ from rfl)
    sampleVvvfCalls).2.1

end Xhive.Fieldctrl
