import Xhive.Fieldctrl.Pid
import Mathlib.Algebra.Group.Int.Units

/-!
# Two runs of the controller with opposite signs

Every rounding of the controller is odd and every comparison of the clamp, the
separation and the anti-windup has its mirror image.  A run in which the sign of
the gains and the sign of the command change is therefore the original run with
those signs: the signals carry the product of the two.
-/

namespace Xhive.Fieldctrl

open Xhive.Support Xhive.Linears Xhive.Filters

variable {Q : Type}

/-! ## Working values up to a sign -/

/-- `y` is `x` under the sign `s`. -/
def Signed (s : ℤˣ) (x y : Int64) : Prop :=
  y.toInt = s * x.toInt

theorem signed_one {x y : Int64} : Signed 1 x y ↔ y = x := by
  rw [Signed, Units.val_one, one_mul, Int64.toInt_inj]

theorem signed_neg_one {x y : Int64} : Signed (-1) x y ↔ y.toInt = -x.toInt := by
  rw [Signed, Units.val_neg, Units.val_one, neg_one_mul]

/-- Rounding commutes with a sign. -/
theorem roundAway_signed (s : ℤˣ) (x : ℚ) : roundAway ((s : ℤ) * x) = s * roundAway x := by
  rcases Int.units_eq_one_or s with rfl | rfl
  · simp
  · simp

namespace Signed

variable {s t : ℤˣ} {a b c a' b' c' : Int64}

theorem refl (x : Int64) : Signed 1 x x := signed_one.mpr rfl

theorem zero (s : ℤˣ) : Signed s 0 0 := by
  rw [Signed, Int64.toInt_zero, mul_zero]

theorem eq_zero_iff (h : Signed s a a') : a' = 0 ↔ a = 0 := by
  rw [← Int64.toInt_inj, ← Int64.toInt_inj, h, Int64.toInt_zero, mul_eq_zero]
  exact or_iff_right s.ne_zero

theorem abs (h : Signed s a a') : |a'.toInt| = |a.toInt| := by
  rcases Int.units_eq_one_or s with rfl | rfl
  · rw [signed_one.mp h]
  · rw [signed_neg_one.mp h, abs_neg]

theorem add (ha : Signed s a a') (hb : Signed s b b') (hc : fcqAdd a b = .ok c)
    (hc' : fcqAdd a' b' = .ok c') : Signed s c c' := by
  rw [Signed, fcqAdd_ok hc, fcqAdd_ok hc', ha, hb]
  ring

theorem sub (ha : Signed s a a') (hb : Signed s b b') (hc : fcqSub a b = .ok c)
    (hc' : fcqSub a' b' = .ok c') : Signed s c c' := by
  rw [Signed, fcqSub_ok hc, fcqSub_ok hc', ha, hb]
  ring

theorem mul (ha : Signed s a a') (hb : Signed t b b') (hc : fcqMul a b = .ok c)
    (hc' : fcqMul a' b' = .ok c') : Signed (s * t) c c' := by
  rw [Signed, fcqMul_ok hc, fcqMul_ok hc', ← roundAway_signed, ha, hb]
  push_cast
  congr 1
  ring

/-- A gain over a period that keeps its sign. -/
theorem div (ha : Signed s a a') (hb : b ≠ 0) (hc : fcqDiv a b = .ok c)
    (hc' : fcqDiv a' b = .ok c') : Signed s c c' := by
  rw [Signed, fcqDiv_ok hb hc, fcqDiv_ok hb hc', ← roundAway_signed, ha]
  push_cast
  congr 1
  ring

end Signed

/-- Bounds that a sign maps to themselves: any bounds under `1`, opposite ones
under `-1`. -/
def KeepsBounds (s : ℤˣ) (lo hi : Int64) : Prop :=
  s = 1 ∨ lo.toInt = -hi.toInt

theorem Signed.baseClamp {s : ℤˣ} {x y lo hi : Int64} (h : Signed s x y)
    (hkeeps : KeepsBounds s lo hi) (hordered : lo.toInt ≤ hi.toInt) :
    Signed s (baseClamp x lo hi) (baseClamp y lo hi) := by
  rcases Int.units_eq_one_or s with rfl | rfl
  · rw [signed_one.mp h]
    exact .refl _
  · obtain hsign | hmirror := hkeeps
    · exact absurd hsign (by decide)
    · rw [signed_neg_one] at h ⊢
      rw [toInt_baseClamp, toInt_baseClamp]
      split_ifs <;> omega

/-- A sign that keeps the bounds keeps the range between them. -/
theorem Signed.outside_iff {s : ℤˣ} {x y lo hi : Int64} (h : Signed s x y)
    (hkeeps : KeepsBounds s lo hi) :
    (hi.toInt < y.toInt ∨ y.toInt < lo.toInt) ↔ (hi.toInt < x.toInt ∨ x.toInt < lo.toInt) := by
  rcases Int.units_eq_one_or s with rfl | rfl
  · rw [signed_one.mp h]
  · obtain hsign | hmirror := hkeeps
    · exact absurd hsign (by decide)
    · rw [signed_neg_one] at h
      omega

/-- The integral that the anti-windup leaves. -/
theorem toInt_pidAntiWindup {lo hi old pd raw i next : Int64}
    (h : pidAntiWindup lo hi old pd raw i = .ok next) :
    next.toInt =
      if hi.toInt < raw.toInt ∧ old.toInt < i.toInt then max (hi.toInt - pd.toInt) old.toInt
      else if raw.toInt < lo.toInt ∧ i.toInt < old.toInt then
        min (lo.toInt - pd.toInt) old.toInt
      else i.toInt := by
  simp only [pidAntiWindup, gt_iff_lt, fcqCmp_gt, fcqCmp_lt] at h
  split_ifs at h ⊢ with hover hunder
  · obtain ⟨boundary, hboundary, h⟩ := ok_of_bind h
    have hvalue := fcqSub_ok hboundary
    simp only [Except.ok.injEq] at h
    split_ifs at h <;> subst h <;> omega
  · obtain ⟨boundary, hboundary, h⟩ := ok_of_bind h
    have hvalue := fcqSub_ok hboundary
    simp only [Except.ok.injEq] at h
    split_ifs at h <;> subst h <;> omega
  · cases h
    rfl

/-- The two branches of the anti-windup are mirror images. -/
theorem Signed.pidAntiWindup {s : ℤˣ} {lo hi old old' pd pd' raw raw' i i' next next' : Int64}
    (hold : Signed s old old') (hpd : Signed s pd pd') (hraw : Signed s raw raw')
    (hi' : Signed s i i') (hkeeps : KeepsBounds s lo hi)
    (h : pidAntiWindup lo hi old pd raw i = .ok next)
    (h' : pidAntiWindup lo hi old' pd' raw' i' = .ok next') : Signed s next next' := by
  rcases Int.units_eq_one_or s with rfl | rfl
  · rw [signed_one] at hold hpd hraw hi' ⊢
    rw [hold, hpd, hraw, hi', h] at h'
    exact (Except.ok.inj h').symm
  · obtain hsign | hmirror := hkeeps
    · exact absurd hsign (by decide)
    · rw [signed_neg_one] at hold hpd hraw hi' ⊢
      rw [toInt_pidAntiWindup h, toInt_pidAntiWindup h', hold, hpd, hraw, hi']
      split_ifs <;> omega

/-! ## Tunings up to a sign -/

/-- The signs of a second run: of the gains, and of the integral and the command. -/
structure Signs where
  gains : ℤˣ
  command : ℤˣ

/-- The signals turn the gains into the command. -/
def Signs.signals (signs : Signs) : ℤˣ :=
  signs.gains * signs.command

/-- The first run again, with the signals and the integral negated. -/
def Signs.opposite : Signs := ⟨1, -1⟩

/-- Reverse action: the gains and the signals negated. -/
def Signs.reverse : Signs := ⟨-1, 1⟩

theorem Signs.gains_mul_signals (signs : Signs) : signs.gains * signs.signals = signs.command := by
  rw [signals, ← mul_assoc, Int.units_mul_self, one_mul]

/-- The tuning `second` is `first` with the gains under the sign `s`. -/
structure SignedConfig (s : ℤˣ) (first second : PidConfig Q) : Prop where
  kp : Signed s first.kp second.kp
  ki : Signed s first.ki second.ki
  kd : Signed s first.kd second.kd
  rest : second = { first with kp := second.kp, ki := second.ki, kd := second.kd }

namespace SignedConfig

variable {s : ℤˣ} {first second : PidConfig Q}

theorem has (h : SignedConfig s first second) (option : UInt32) :
    second.has option = first.has option := by
  rw [h.rest]
  rfl

theorem lower (h : SignedConfig s first second) : second.lower = first.lower := by
  rw [h.rest]

theorem upper (h : SignedConfig s first second) : second.upper = first.upper := by
  rw [h.rest]

theorem derivativeFilter (h : SignedConfig s first second) :
    second.derivativeFilter = first.derivativeFilter := by
  rw [h.rest]

theorem derivative (h : SignedConfig s first second) :
    second.derivative = first.derivative := by
  rw [h.rest]

theorem separation (h : SignedConfig s first second) :
    second.separation = first.separation := by
  rw [h.rest]

theorem setpointWeight (h : SignedConfig s first second) :
    second.setpointWeight = first.setpointWeight := by
  rw [h.rest]

end SignedConfig

/-- The proportional term carries the sign of the command. -/
theorem pidProportional_signed {signs : Signs} {config config' : PidConfig Q}
    (hconfig : SignedConfig signs.gains config config')
    {setpoint setpoint' measurement measurement' e e' p p' : Int64}
    (hset : Signed signs.signals setpoint setpoint')
    (hmeas : Signed signs.signals measurement measurement')
    (h : pidProportional config setpoint measurement = .ok (e, p))
    (h' : pidProportional config' setpoint' measurement' = .ok (e', p')) :
    Signed signs.signals e e' ∧ Signed signs.command p p' := by
  obtain ⟨error, herror, h⟩ := ok_of_bind h
  obtain ⟨error', herror', h'⟩ := ok_of_bind h'
  obtain ⟨w, hw, h⟩ := ok_of_bind h
  obtain ⟨w', hw', h'⟩ := ok_of_bind h'
  obtain ⟨q, hq, h⟩ := ok_of_bind h
  obtain ⟨q', hq', h'⟩ := ok_of_bind h'
  cases h
  cases h'
  have he := hset.sub hmeas herror herror'
  have hweighted : Signed signs.signals w w' := by
    rw [pidWeighted, hconfig.has] at hw'
    rw [pidWeighted] at hw
    split_ifs at hw hw'
    · obtain ⟨product, hproduct, hw⟩ := ok_of_bind hw
      obtain ⟨product', hproduct', hw'⟩ := ok_of_bind hw'
      rw [hconfig.setpointWeight] at hproduct'
      have hscaled := (Signed.refl config.setpointWeight).mul hset hproduct hproduct'
      rw [one_mul] at hscaled
      exact hscaled.sub hmeas hw hw'
    · cases hw
      cases hw'
      exact he
  have hp := hconfig.kp.mul hweighted hq hq'
  rw [signs.gains_mul_signals] at hp
  exact ⟨he, hp⟩

/-! ## Checked tunings -/

variable [FilterFormat Q]

/-- `y` is the stored scalar `x` under the sign `s`. -/
def SignedScalar (s : ℤˣ) (x y : Q) : Prop :=
  (QFormat.widen y).toInt = s * (QFormat.widen x).toInt

theorem SignedScalar.load {s : ℤˣ} {x y : Q} (h : SignedScalar s x y) :
    Signed s (FilterFormat.load x) (FilterFormat.load y) := by
  rw [Signed, FilterFormat.toInt_load, FilterFormat.toInt_load, h, mul_assoc]

namespace SignedConfig

variable {s : ℤˣ} {first second : PidConfig Q}

theorem integralBounds (h : SignedConfig s first second) :
    pidIntegralBounds second = pidIntegralBounds first := by
  rw [h.rest]
  rfl

/-- The check reads only whether gains of both signs occur. -/
theorem check (h : SignedConfig s first second) : pidCheck second = pidCheck first := by
  have hconflict :
      ((0 < second.kp.toInt ∨ 0 < second.ki.toInt ∨ 0 < second.kd.toInt) ∧
        (second.kp.toInt < 0 ∨ second.ki.toInt < 0 ∨ second.kd.toInt < 0)) ↔
      ((0 < first.kp.toInt ∨ 0 < first.ki.toInt ∨ 0 < first.kd.toInt) ∧
        (first.kp.toInt < 0 ∨ first.ki.toInt < 0 ∨ first.kd.toInt < 0)) := by
    obtain ⟨hp, hi, hd, -⟩ := h
    rcases Int.units_eq_one_or s with rfl | rfl
    · rw [signed_one.mp hp, signed_one.mp hi, signed_one.mp hd]
    · rw [signed_neg_one] at hp hi hd
      omega
  rw [h.rest]
  simp only [pidCheck, gt_iff_lt, fcqCmp_gt, fcqCmp_lt, Int64.toInt_zero, hconflict]
  rfl

end SignedConfig

/-- Opposite output bounds, and opposite integral bounds where they are enabled. -/
structure SymmetricBounds (config : PidConfig Q) : Prop where
  output : (QFormat.widen config.lower).toInt = -(QFormat.widen config.upper).toInt
  integral : config.has fieldctrlPidOptIntegralLimit = true →
    (QFormat.widen config.integralLower).toInt = -(QFormat.widen config.integralUpper).toInt

/-- The bounds of a checked tuning, for a run under the sign `s`. -/
structure Balanced (s : ℤˣ) (config : PidConfig Q) : Prop where
  output : KeepsBounds s (FilterFormat.load config.lower) (FilterFormat.load config.upper)
  ordered : (FilterFormat.load config.lower).toInt < (FilterFormat.load config.upper).toInt
  integral : KeepsBounds s (pidIntegralBounds config).1 (pidIntegralBounds config).2
  integral_ordered : (pidIntegralBounds config).1.toInt ≤ (pidIntegralBounds config).2.toInt

theorem SymmetricBounds.balanced {config : PidConfig Q} (h : SymmetricBounds config) (s : ℤˣ)
    (hcheck : pidCheck config = .ok (pidIntegralBounds config)) : Balanced s config := by
  obtain ⟨-, -, hordered, hrange⟩ := pidCheck_ok hcheck
  have houtput : (FilterFormat.load config.lower).toInt =
      -(FilterFormat.load config.upper).toInt := by
    rw [FilterFormat.toInt_load, FilterFormat.toInt_load, h.output, neg_mul]
  refine ⟨.inr houtput, hrange, .inr ?_, hordered⟩
  rw [pidIntegralBounds]
  split
  · rename_i hlimit
    rw [FilterFormat.toInt_load, FilterFormat.toInt_load, h.integral hlimit, neg_mul]
  · exact houtput

/-! ## The terms of a step -/

section Step

variable {signs : Signs} {config config' : PidConfig Q}

/-- The separation looks at the magnitude of the error. -/
theorem pidIntegrates_signed {s t : ℤˣ} {error error' : Int64} {b b' : Bool}
    (hconfig : SignedConfig s config config') (herror : Signed t error error')
    (h : pidIntegrates config error = .ok b) (h' : pidIntegrates config' error' = .ok b') :
    b' = b := by
  rw [pidIntegrates, hconfig.has] at h'
  rw [pidIntegrates] at h
  split_ifs at h h'
  · obtain ⟨magnitude, hmagnitude, h⟩ := ok_of_bind h
    obtain ⟨magnitude', hmagnitude', h'⟩ := ok_of_bind h'
    have hsame : magnitude' = magnitude := by
      rw [← Int64.toInt_inj, fcqAbs_ok hmagnitude, fcqAbs_ok hmagnitude', herror.abs]
    rw [hsame, hconfig.separation] at h'
    cases h
    cases h'
    rfl
  · cases h
    cases h'
    rfl

theorem pidCandidate_signed (hconfig : SignedConfig signs.gains config config')
    (hbalanced : Balanced signs.command config)
    {gain gain' old old' error error' i i' : Int64}
    (hgain : Signed signs.gains gain gain') (hold : Signed signs.command old old')
    (herror : Signed signs.signals error error')
    (h : pidCandidate config gain old error = .ok i)
    (h' : pidCandidate config' gain' old' error' = .ok i') : Signed signs.command i i' := by
  obtain ⟨integrates, hintegrates, h⟩ := ok_of_bind h
  obtain ⟨integrates', hintegrates', h'⟩ := ok_of_bind h'
  obtain rfl := pidIntegrates_signed hconfig herror hintegrates hintegrates'
  rw [hconfig.integralBounds] at h'
  split_ifs at h h'
  · obtain ⟨increment, hincrement, h⟩ := ok_of_bind h
    obtain ⟨increment', hincrement', h'⟩ := ok_of_bind h'
    obtain ⟨next, hnext, h⟩ := ok_of_bind h
    obtain ⟨next', hnext', h'⟩ := ok_of_bind h'
    cases h
    cases h'
    have hstep := hgain.mul herror hincrement hincrement'
    rw [signs.gains_mul_signals] at hstep
    exact (hold.add hstep hnext hnext').baseClamp hbalanced.integral hbalanced.integral_ordered
  · cases h
    cases h'
    exact hold

/-- Period coefficients of two runs whose gains differ by the sign `s`. -/
structure SignedCoefficients (s : ℤˣ) (first second : PidCoefficients) : Prop where
  integralStep : Signed s first.integralStep second.integralStep
  derivativeGain : Signed s first.derivativeGain second.derivativeGain
  filterWeight : second.filterWeight = first.filterWeight

/-- The controller `second` is `first` under the signs of its run. -/
structure SignedState (signs : Signs) (first second : PidState Q) : Prop where
  config : SignedConfig signs.gains first.config second.config
  balanced : Balanced signs.command first.config
  integral : Signed signs.command first.integral second.integral
  previousError : Signed signs.signals first.previousError second.previousError
  previousMeasurement :
    Signed signs.signals first.previousMeasurement second.previousMeasurement
  derivative : Signed signs.command first.derivative second.derivative
  history : second.history = first.history

theorem SignedState.delta {first second : PidState Q} (hstate : SignedState signs first second)
    {error error' measurement measurement' delta delta' : Int64}
    (herror : Signed signs.signals error error')
    (hmeas : Signed signs.signals measurement measurement')
    (h : pidDelta first error measurement = .ok delta)
    (h' : pidDelta second error' measurement' = .ok delta') :
    Signed signs.signals delta delta' := by
  rw [pidDelta, hstate.config.derivative] at h'
  rw [pidDelta] at h
  split_ifs at h h'
  · exact hstate.previousMeasurement.sub hmeas h h'
  · exact herror.sub hstate.previousError h h'

theorem SignedState.derivative_term {first second : PidState Q}
    (hstate : SignedState signs first second) {coefficients coefficients' : PidCoefficients}
    (hcoefficients : SignedCoefficients signs.gains coefficients coefficients')
    {error error' measurement measurement' d d' : Int64}
    (herror : Signed signs.signals error error')
    (hmeas : Signed signs.signals measurement measurement')
    (h : pidDerivative first coefficients error measurement = .ok d)
    (h' : pidDerivative second coefficients' error' measurement' = .ok d') :
    Signed signs.command d d' := by
  simp only [pidDerivative, ne_eq, fcqCmp_eq, hstate.history, hstate.config.derivativeFilter,
    hstate.config.kd.eq_zero_iff] at h h'
  split_ifs at h h'
  · obtain ⟨delta, hdelta, h⟩ := ok_of_bind h
    obtain ⟨delta', hdelta', h'⟩ := ok_of_bind h'
    obtain ⟨scaled, hscaled, h⟩ := ok_of_bind h
    obtain ⟨scaled', hscaled', h'⟩ := ok_of_bind h'
    obtain ⟨change, hchange, h⟩ := ok_of_bind h
    obtain ⟨change', hchange', h'⟩ := ok_of_bind h'
    obtain ⟨moved, hmoved, h⟩ := ok_of_bind h
    obtain ⟨moved', hmoved', h'⟩ := ok_of_bind h'
    have hraw := hcoefficients.derivativeGain.mul
      (hstate.delta herror hmeas hdelta hdelta') hscaled hscaled'
    rw [signs.gains_mul_signals] at hraw
    have hfiltered := (signed_one.mpr hcoefficients.filterWeight).mul
      (hraw.sub hstate.derivative hchange hchange') hmoved hmoved'
    rw [one_mul] at hfiltered
    exact hstate.derivative.add hfiltered h h'
  · obtain ⟨delta, hdelta, h⟩ := ok_of_bind h
    obtain ⟨delta', hdelta', h'⟩ := ok_of_bind h'
    obtain ⟨scaled, hscaled, h⟩ := ok_of_bind h
    obtain ⟨scaled', hscaled', h'⟩ := ok_of_bind h'
    cases h
    cases h'
    have hraw := hcoefficients.derivativeGain.mul
      (hstate.delta herror hmeas hdelta hdelta') hscaled hscaled'
    rwa [signs.gains_mul_signals] at hraw
  · cases h
    cases h'
    exact hstate.derivative

/-- Storing a clamped command keeps the sign: the bounds exclude the endpoint that
saturates. -/
theorem fcStore_signed {s : ℤˣ} {x y : Int64} {lo hi out out' : Q}
    (hkeeps : KeepsBounds s (FilterFormat.load lo) (FilterFormat.load hi))
    (hordered : (FilterFormat.load lo).toInt ≤ (FilterFormat.load hi).toInt) (hxy : Signed s x y)
    (h : fcStore (baseClamp x (FilterFormat.load lo) (FilterFormat.load hi)) = .ok out)
    (h' : fcStore (baseClamp y (FilterFormat.load lo) (FilterFormat.load hi)) = .ok out') :
    SignedScalar s out out' := by
  have hvalue : ∀ {z : Int64} {stored : Q},
      fcStore (baseClamp z (FilterFormat.load lo) (FilterFormat.load hi)) = .ok stored →
        (QFormat.widen stored).toInt = roundAway
          (((baseClamp z (FilterFormat.load lo) (FilterFormat.load hi)).toInt : ℚ) /
            2 ^ (31 - (QFormat.qBits Q).toNat)) := by
    intro z stored hstore
    obtain ⟨hlow, hhigh⟩ := baseClamp_bounds hordered (x := z)
    obtain ⟨value, hcall, hrounded⟩ := fcStore_rounded ((load_bounds lo).1.trans hlow) hhigh
    rw [hstore] at hcall
    cases hcall
    exact hrounded
  rw [SignedScalar, hvalue h, hvalue h', hxy.baseClamp hkeeps hordered, ← roundAway_signed]
  push_cast
  congr 1
  ring

/-- The result `second` is `first` under the sign of the command. -/
structure SignedOutput (s : ℤˣ) (first second : PidOutput Q) : Prop where
  output : SignedScalar s first.output second.output
  proportional : Signed s first.proportional second.proportional
  integral : Signed s first.integral second.integral
  derivative : Signed s first.derivative second.derivative
  saturated : second.saturated = first.saturated

/-- The step lemma: results and controllers keep the signs of their runs. -/
theorem SignedState.advance {first second : PidState Q} (hstate : SignedState signs first second)
    {coefficients coefficients' : PidCoefficients}
    (hcoefficients : SignedCoefficients signs.gains coefficients coefficients')
    {error error' p p' measurement measurement' : Int64}
    (herror : Signed signs.signals error error') (hp : Signed signs.command p p')
    (hmeas : Signed signs.signals measurement measurement')
    {output output' : PidOutput Q} {next next' : PidState Q}
    (h : pidAdvance first coefficients error p measurement = .ok (output, next))
    (h' : pidAdvance second coefficients' error' p' measurement' = .ok (output', next')) :
    SignedOutput signs.command output output' ∧ SignedState signs next next' := by
  obtain ⟨candidate, pd, raw, hcandidate, hd, hpd, hraw, hstore, hwindup, hterm, hsat, rfl⟩ :=
    pidAdvance_ok h
  obtain ⟨candidate', pd', raw', hcandidate', hd', hpd', hraw', hstore', hwindup', hterm', hsat',
    rfl⟩ := pidAdvance_ok h'
  rw [hstate.config.lower, hstate.config.upper] at hstore' hwindup' hsat'
  have hbounds := hstate.balanced.output
  have hordered := hstate.balanced.ordered
  have hi := pidCandidate_signed hstate.config hstate.balanced hcoefficients.integralStep
    hstate.integral herror hcandidate hcandidate'
  have hdsigned := hstate.derivative_term hcoefficients herror hmeas hd hd'
  have hpdsigned : Signed signs.command pd pd' := by
    rw [Signed, hpd, hpd', hp, hdsigned]
    ring
  have hrawsigned : Signed signs.command raw raw' := by
    rw [Signed, hraw, hraw', hpdsigned, hi]
    ring
  have hintegral := hstate.integral.pidAntiWindup hpdsigned hrawsigned hi hbounds hwindup hwindup'
  constructor
  · refine ⟨fcStore_signed hbounds hordered.le hrawsigned hstore hstore', ?_, hintegral, hdsigned,
      ?_⟩
    · rw [hterm, hterm']
      exact hp
    · rw [Bool.eq_iff_iff, hsat, hsat']
      exact hrawsigned.outside_iff hbounds
  · exact ⟨hstate.config, hstate.balanced, hintegral, herror, hmeas, hdsigned, rfl⟩

end Step

/-! ## The context -/

section Context

variable {signs : Signs}

theorem recomputeGain_signed {s : ℤˣ} {kd kd' old old' period gain gain' : Int64}
    (hkd : Signed s kd kd') (hold : Signed s old old') (hperiod : period ≠ 0)
    (h : recomputeGain kd old period = .ok gain)
    (h' : recomputeGain kd' old' period = .ok gain') : Signed s gain gain' := by
  simp only [recomputeGain, ne_eq, fcqCmp_eq, hkd.eq_zero_iff] at h h'
  split_ifs at h h'
  · cases h
    cases h'
    exact hold
  · exact hkd.div hperiod h h'

/-- The context `second` is `first` under the signs of its run; both hold the
coefficients of one period. -/
structure SignedPid (signs : Signs) (first second : Pid Q) : Prop where
  state : SignedState signs first.toPidState second.toPidState
  cachedDt : second.cachedDt = first.cachedDt
  cached : SignedCoefficients signs.gains first.cached second.cached

theorem SignedPid.coefficients {first second : Pid Q} (hctx : SignedPid signs first second)
    {period : Int64} (hperiod : 0 < period.toInt) {coefficients coefficients' : PidCoefficients}
    (h : periodCoefficients first period = .ok coefficients)
    (h' : periodCoefficients second period = .ok coefficients') :
    SignedCoefficients signs.gains coefficients coefficients' := by
  rw [periodCoefficients, hctx.cachedDt] at h'
  rw [periodCoefficients] at h
  split_ifs at h h'
  · obtain ⟨gain, hgain, h⟩ := ok_of_bind h
    obtain ⟨gain', hgain', h'⟩ := ok_of_bind h'
    obtain ⟨slope, hslope, h⟩ := ok_of_bind h
    obtain ⟨slope', hslope', h'⟩ := ok_of_bind h'
    obtain ⟨weight, hweight, h⟩ := ok_of_bind h
    obtain ⟨weight', hweight', h'⟩ := ok_of_bind h'
    cases h
    cases h'
    have hne : period ≠ 0 := by
      rintro rfl
      exact absurd hperiod (by decide)
    have hintegral := hctx.state.config.ki.mul (.refl period) hgain hgain'
    rw [mul_one] at hintegral
    rw [hctx.state.config.derivativeFilter, hctx.cached.filterWeight, hweight] at hweight'
    exact ⟨hintegral,
      recomputeGain_signed hctx.state.config.kd hctx.cached.derivativeGain hne hslope hslope',
      (Except.ok.inj hweight').symm⟩
  · cases h
    cases h'
    exact hctx.cached

theorem SignedPid.stepWork {first second : Pid Q} (hctx : SignedPid signs first second)
    {setpoint setpoint' measurement measurement' period : Int64}
    (hset : Signed signs.signals setpoint setpoint')
    (hmeas : Signed signs.signals measurement measurement')
    {output output' : PidOutput Q} {next next' : Pid Q}
    (h : pidStepWork first setpoint measurement period = .ok (output, next))
    (h' : pidStepWork second setpoint' measurement' period = .ok (output', next')) :
    SignedOutput signs.command output output' ∧ SignedPid signs next next' := by
  obtain ⟨hperiod, h⟩ := ok_of_guard h
  obtain ⟨-, h'⟩ := ok_of_guard h'
  rw [fcqCmp_le, Int64.toInt_zero, not_le] at hperiod
  obtain ⟨⟨error, p⟩, hproportional, h⟩ := ok_of_bind h
  obtain ⟨⟨error', p'⟩, hproportional', h'⟩ := ok_of_bind h'
  obtain ⟨coefficients, hcoefficients, h⟩ := ok_of_bind h
  obtain ⟨coefficients', hcoefficients', h'⟩ := ok_of_bind h'
  obtain ⟨⟨result, state⟩, hadvance, h⟩ := ok_of_bind h
  obtain ⟨⟨result', state'⟩, hadvance', h'⟩ := ok_of_bind h'
  cases h
  cases h'
  obtain ⟨herror, hp⟩ := pidProportional_signed hctx.state.config hset hmeas hproportional
    hproportional'
  have hsigned := hctx.coefficients hperiod hcoefficients hcoefficients'
  obtain ⟨hresult, hstate⟩ := hctx.state.advance hsigned herror hp hmeas hadvance hadvance'
  exact ⟨hresult, hstate, rfl, hsigned⟩

end Context

/-! ## Runs -/

/-- The call of the second run: resets carry the sign of the command, steps that of
the signals. -/
inductive SignedCall (signs : Signs) : PidCall Q → PidCall Q → Prop where
  | reset {integral integral' : Q} (h : SignedScalar signs.command integral integral') :
      SignedCall signs (.reset integral) (.reset integral')
  | step {setpoint setpoint' measurement measurement' : Q} (output : Extent) (dt : Q)
      (hset : SignedScalar signs.signals setpoint setpoint')
      (hmeas : SignedScalar signs.signals measurement measurement') :
      SignedCall signs (.step output setpoint measurement dt)
        (.step output setpoint' measurement' dt)

/-- A step returns OK; the other calls may return anything. -/
def StepOk (call : PidCall Q) (answer : PidAnswer Q) : Prop :=
  match call with
  | .step .. => answer.isOk = true
  | _ => True

/-- Equal statuses, and the result of a step under the sign. -/
inductive SignedAnswer (s : ℤˣ) : PidAnswer Q → PidAnswer Q → Prop where
  | status (answer : Except Status Unit) :
      SignedAnswer s (answer.map fun _ => none) (answer.map fun _ => none)
  | result {output output' : PidOutput Q} (h : SignedOutput s output output') :
      SignedAnswer s (.ok (some output)) (.ok (some output'))

theorem SignedScalar.eq {x y : Q} (h : SignedScalar 1 x y) : y = x := by
  rw [SignedScalar, Units.val_one, one_mul] at h
  exact FilterFormat.widen_injective y x h

theorem SignedOutput.eq {first second : PidOutput Q} (h : SignedOutput 1 first second) :
    second = first := by
  obtain ⟨houtput, hp, hi, hd, hsat⟩ := h
  cases first
  cases second
  rw [PidOutput.mk.injEq]
  exact ⟨houtput.eq, signed_one.mp hp, signed_one.mp hi, signed_one.mp hd, hsat⟩

theorem SignedAnswer.eq {first second : PidAnswer Q} (h : SignedAnswer 1 first second) :
    second = first := by
  cases h with
  | status answer => rfl
  | result h => rw [h.eq]

/-- A new controller on each side. -/
theorem startState_signed {signs : Signs} {config config' : PidConfig Q}
    {integral integral' : Int64} (hconfig : SignedConfig signs.gains config config')
    (hbalanced : Balanced signs.command config)
    (hintegral : Signed signs.command integral integral') :
    SignedState signs (startState config integral) (startState config' integral') :=
  ⟨hconfig, hbalanced, hintegral, .zero _, .zero _, .zero _, rfl⟩

/-- Both inits answer alike. -/
theorem SignedPid.init {signs : Signs} {self : Extent} {config config' : PidConfig Q}
    {integral integral' : Q} {start : Pid Q} (hbounds : SymmetricBounds config)
    (hconfig : SignedConfig signs.gains config config')
    (hintegral : SignedScalar signs.command integral integral')
    (h : pidInit self (some config) integral = .ok start) :
    ∃ start', pidInit self (some config') integral' = .ok start' ∧
      SignedPid signs start start' := by
  obtain ⟨checked, hchecked, h⟩ := ok_of_bind h
  obtain ⟨state, hstate, h⟩ := ok_of_bind h
  have haddress : self.address ≠ 0 := by
    intro hnull
    rw [checkConfig, if_pos hnull] at hchecked
    cases hchecked
  rw [checkConfig, if_neg haddress] at hchecked
  cases hchecked
  obtain ⟨hcheck, rfl, hlow, hhigh⟩ := initState_ok hstate
  cases h
  have hbalanced := hbounds.balanced signs.command hcheck
  have hrange := hintegral.load.outside_iff hbalanced.integral
  refine ⟨⟨startState config' (FilterFormat.load integral'), 0, ⟨0, 0, 0⟩⟩, ?_,
    startState_signed hconfig hbalanced hintegral.load, rfl, ⟨.zero _, .zero _, rfl⟩⟩
  have haccepted : initState config' integral' =
      .ok (startState config' (FilterFormat.load integral')) := by
    have hinside : ¬(fcqCmp (FilterFormat.load integral') (pidIntegralBounds config).1 < 0 ∨
        fcqCmp (FilterFormat.load integral') (pidIntegralBounds config).2 > 0) := by
      rw [fcqCmp_lt, gt_iff_lt, fcqCmp_gt, or_comm, hrange]
      exact not_or.mpr ⟨not_lt.mpr hhigh, not_lt.mpr hlow⟩
    rw [initState, hconfig.check, hcheck, ok_bind]
    exact if_neg hinside
  rw [pidInit, checkConfig, if_neg haddress, ok_bind, haccepted]
  rfl

/-- The resets of two runs succeed together. -/
theorem SignedPid.reset {signs : Signs} {self : Extent} {first second : Pid Q}
    (hctx : SignedPid signs first second) {integral integral' : Q}
    (hintegral : SignedScalar signs.command integral integral') :
    SignedAnswer signs.command ((pidMachine Q self).react (.reset integral) first).1
        ((pidMachine Q self).react (.reset integral') second).1 ∧
      SignedPid signs ((pidMachine Q self).react (.reset integral) first).2
        ((pidMachine Q self).react (.reset integral') second).2 := by
  have hbounds := hctx.state.config.integralBounds
  have hrange := hintegral.load.outside_iff hctx.state.balanced.integral
  simp only [pidMachine, pidReset]
  by_cases haddress : self.address = 0
  · simp only [if_pos haddress]
    exact ⟨.status (.error .errorArgument), hctx⟩
  · simp only [if_neg haddress, resetState, hbounds, gt_iff_lt, fcqCmp_gt, fcqCmp_lt,
      or_comm (a := _ < (pidIntegralBounds first.config).1.toInt), hrange]
    split
    · exact ⟨.status (.error .errorDomain), hctx⟩
    · refine ⟨.status (.ok ()), ?_, hctx.cachedDt, hctx.cached⟩
      exact startState_signed hctx.state.config hctx.state.balanced hintegral.load

/-- The results of two steps that return OK. -/
theorem SignedPid.step {signs : Signs} {self output : Extent} {first second : Pid Q}
    (hctx : SignedPid signs first second) {setpoint setpoint' measurement measurement' dt : Q}
    (hset : SignedScalar signs.signals setpoint setpoint')
    (hmeas : SignedScalar signs.signals measurement measurement')
    (hok : StepOk (.step output setpoint measurement dt)
      ((pidMachine Q self).react (.step output setpoint measurement dt) first).1)
    (hok' : StepOk (.step output setpoint' measurement' dt)
      ((pidMachine Q self).react (.step output setpoint' measurement' dt) second).1) :
    SignedAnswer signs.command
        ((pidMachine Q self).react (.step output setpoint measurement dt) first).1
        ((pidMachine Q self).react (.step output setpoint' measurement' dt) second).1 ∧
      SignedPid signs ((pidMachine Q self).react (.step output setpoint measurement dt) first).2
        ((pidMachine Q self).react (.step output setpoint' measurement' dt) second).2 := by
  simp only [StepOk, pidMachine] at hok hok' ⊢
  cases h : pidStep self output setpoint measurement dt first with
  | error status =>
      rw [h] at hok
      cases hok
  | ok result =>
      cases h' : pidStep self output setpoint' measurement' dt second with
      | error status =>
          rw [h'] at hok'
          cases hok'
      | ok result' =>
          obtain ⟨-, -, h⟩ := ok_of_bind h
          obtain ⟨-, -, h'⟩ := ok_of_bind h'
          obtain ⟨hresult, hnext⟩ := hctx.stepWork hset.load hmeas.load h h'
          exact ⟨.result hresult, hnext⟩

/-- The run lemma: as long as the steps of both runs return OK, the second run is
the first under its signs. -/
theorem SignedPid.run {signs : Signs} {self : Extent} {first second : Pid Q}
    (hctx : SignedPid signs first second) {calls calls' : List (PidCall Q)}
    (hcalls : List.Forall₂ (SignedCall signs) calls calls')
    (hok : List.Forall₂ StepOk calls ((pidMachine Q self).run calls first).1)
    (hok' : List.Forall₂ StepOk calls' ((pidMachine Q self).run calls' second).1) :
    List.Forall₂ (SignedAnswer signs.command) ((pidMachine Q self).run calls first).1
        ((pidMachine Q self).run calls' second).1 ∧
      SignedPid signs ((pidMachine Q self).run calls first).2
        ((pidMachine Q self).run calls' second).2 := by
  refine Machine.forall₂_run ?_ hcalls hctx hok hok'
  intro call call' first second hcall hctx hok hok'
  cases hcall with
  | reset h => exact hctx.reset h
  | step output dt hset hmeas => exact hctx.step hset hmeas hok hok'

/-- With symmetric bounds, a run with the signals and integrals negated gives the
negated results and controller states, and a run with the gains and signals negated
the same answers and the same integral. -/
theorem pid_two_run_symmetry {self : Extent} {config : PidConfig Q} {integral : Q}
    {start : Pid Q} (hbounds : SymmetricBounds config)
    (hinit : pidInit self (some config) integral = .ok start) (calls : List (PidCall Q)) :
    (∀ (integral' : Q) (calls' : List (PidCall Q)), SignedScalar (-1) integral integral' →
      List.Forall₂ (SignedCall .opposite) calls calls' →
        ∃ start', pidInit self (some config) integral' = .ok start' ∧
          (List.Forall₂ StepOk calls ((pidMachine Q self).run calls start).1 →
            List.Forall₂ StepOk calls' ((pidMachine Q self).run calls' start').1 →
              List.Forall₂ (SignedAnswer (-1)) ((pidMachine Q self).run calls start).1
                  ((pidMachine Q self).run calls' start').1 ∧
                SignedState .opposite ((pidMachine Q self).run calls start).2.toPidState
                  ((pidMachine Q self).run calls' start').2.toPidState)) ∧
    (∀ (config' : PidConfig Q) (calls' : List (PidCall Q)), SignedConfig (-1) config config' →
      List.Forall₂ (SignedCall .reverse) calls calls' →
        ∃ start', pidInit self (some config') integral = .ok start' ∧
          (List.Forall₂ StepOk calls ((pidMachine Q self).run calls start).1 →
            List.Forall₂ StepOk calls' ((pidMachine Q self).run calls' start').1 →
              ((pidMachine Q self).run calls' start').1 =
                  ((pidMachine Q self).run calls start).1 ∧
                ((pidMachine Q self).run calls' start').2.integral =
                  ((pidMachine Q self).run calls start).2.integral)) := by
  constructor
  · intro integral' calls' hintegral hcalls
    have hsame : SignedConfig Signs.opposite.gains config config :=
      ⟨.refl _, .refl _, .refl _, rfl⟩
    obtain ⟨start', hinit', hctx⟩ := SignedPid.init hbounds hsame hintegral hinit
    refine ⟨start', hinit', fun hok hok' => ?_⟩
    obtain ⟨hanswers, hfinal⟩ := hctx.run hcalls hok hok'
    exact ⟨hanswers, hfinal.state⟩
  · intro config' calls' hconfig hcalls
    have hsame : SignedScalar Signs.reverse.command integral integral :=
      (one_mul _).symm
    obtain ⟨start', hinit', hctx⟩ := SignedPid.init hbounds hconfig hsame hinit
    refine ⟨start', hinit', fun hok hok' => ?_⟩
    obtain ⟨hanswers, hfinal⟩ := hctx.run hcalls hok hok'
    refine ⟨?_, signed_one.mp hfinal.state.integral⟩
    have hequal : List.Forall₂ (fun first second : PidAnswer Q => second = first)
        ((pidMachine Q self).run calls start).1 ((pidMachine Q self).run calls' start').1 :=
      hanswers.imp fun _ _ h => h.eq
    exact (List.forall₂_eq_eq_eq ▸ hequal.flip)

/-! ### A reset between two steps -/

/-- Integral limit and separation on, with the gains times the sign of `gain`. -/
def balancedConfig (gain : Int64) : PidConfig Int16 where
  kp := gain
  ki := gain
  kd := gain
  lower := -16384
  upper := 16384
  options := fieldctrlPidOptIntegralLimit ||| fieldctrlPidOptIntegralSeparation
  derivative := fieldctrlPidDerivativeOnError
  derivativeFilter := 268435456
  setpointWeight := 0
  integralLower := -8192
  integralUpper := 8192
  separation := 24576

def balancedStart (gain : Int64) (integral : Int16) : Pid Int16 where
  toPidState := startState (balancedConfig gain) (FilterFormat.load integral)
  cachedDt := 0
  cached := ⟨0, 0, 0⟩

/-- A step, a reset and a step that saturates. -/
def balancedCalls (integral setpoint measurement : Int16) : List (PidCall Int16) :=
  [.step ⟨4096, 40⟩ setpoint measurement 4096, .reset integral,
    .step ⟨4096, 40⟩ setpoint measurement 4096]

theorem pid_two_run_symmetry_q15 :
    List.Forall₂ (SignedAnswer (-1))
        ((pidMachine Int16 ⟨1024, 160⟩).run (balancedCalls 512 12288 1024)
          (balancedStart fixedOne 64)).1
        ((pidMachine Int16 ⟨1024, 160⟩).run (balancedCalls (-512) (-12288) (-1024))
          (balancedStart fixedOne (-64))).1 ∧
      ((pidMachine Int16 ⟨1024, 160⟩).run (balancedCalls 512 (-12288) (-1024))
          (balancedStart (-fixedOne) 64)).1 =
        ((pidMachine Int16 ⟨1024, 160⟩).run (balancedCalls 512 12288 1024)
          (balancedStart fixedOne 64)).1 := by
  have hbounds : SymmetricBounds (balancedConfig fixedOne) := ⟨rfl, fun _ => rfl⟩
  have hinit : pidInit ⟨1024, 160⟩ (some (balancedConfig fixedOne)) 64 =
      .ok (balancedStart fixedOne 64) := rfl
  have hok : List.Forall₂ StepOk (balancedCalls 512 12288 1024)
      ((pidMachine Int16 ⟨1024, 160⟩).run (balancedCalls 512 12288 1024)
        (balancedStart fixedOne 64)).1 := .cons rfl (.cons trivial (.cons rfl .nil))
  obtain ⟨hopposite, hreverse⟩ := pid_two_run_symmetry hbounds hinit (balancedCalls 512 12288 1024)
  constructor
  · obtain ⟨start', hinit', hrun⟩ := hopposite (-64) (balancedCalls (-512) (-12288) (-1024)) rfl
      (.cons (.step _ _ rfl rfl) (.cons (.reset rfl) (.cons (.step _ _ rfl rfl) .nil)))
    obtain rfl : balancedStart fixedOne (-64) = start' := Except.ok.inj hinit'
    exact (hrun hok (.cons rfl (.cons trivial (.cons rfl .nil)))).1
  · obtain ⟨start', hinit', hrun⟩ := hreverse (balancedConfig (-fixedOne))
      (balancedCalls 512 (-12288) (-1024)) ⟨rfl, rfl, rfl, rfl⟩
      (.cons (.step _ _ rfl rfl) (.cons (.reset rfl) (.cons (.step _ _ rfl rfl) .nil)))
    obtain rfl : balancedStart (-fixedOne) 64 = start' := Except.ok.inj hinit'
    exact (hrun hok (.cons rfl (.cons trivial (.cons rfl .nil)))).1

end Xhive.Fieldctrl
