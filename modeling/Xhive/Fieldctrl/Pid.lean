import Xhive.Fieldctrl.Arith
import Xhive.Support.Traces

/-!
# The PID controller

The Q instantiations of `base_impl.h`: tuning, validation, init, retune, reset
and step.  A `PidState` is the controller itself; a `Pid` is the context, which
keeps the coefficients of the most recent sample period beside it.
-/

namespace Xhive.Fieldctrl

open Xhive.Support Xhive.Linears Xhive.Filters

/-! ## Tuning -/

/-- `FIELDCTRL_PID_DERIVATIVE_ON_ERROR`; the field holds any enumeration value. -/
def fieldctrlPidDerivativeOnError : UInt32 := 0

def fieldctrlPidDerivativeOnMeasurement : UInt32 := 1

def fieldctrlPidOptIntegralLimit : UInt32 := (1 : UInt32) <<< 0

def fieldctrlPidOptIntegralSeparation : UInt32 := (1 : UInt32) <<< 1

def fieldctrlPidOptSetpointWeight : UInt32 := (1 : UInt32) <<< 2

/-- `FIELDCTRL_PID_OPTIONS`: every option bit. -/
def fieldctrlPidOptions : UInt32 :=
  fieldctrlPidOptIntegralLimit ||| fieldctrlPidOptIntegralSeparation |||
    fieldctrlPidOptSetpointWeight

structure PidConfig (Q : Type) where
  kp : Int64
  ki : Int64
  kd : Int64
  lower : Q
  upper : Q
  options : UInt32
  derivative : UInt32
  derivativeFilter : Int64
  setpointWeight : Int64
  integralLower : Q
  integralUpper : Q
  separation : Q

/-- The controller state of a context. -/
structure PidState (Q : Type) where
  config : PidConfig Q
  integral : Int64
  previousError : Int64
  previousMeasurement : Int64
  derivative : Int64
  history : Bool

/-- What a sample period contributes: `ki*dt`, `kd/dt` and `dt/(Tf+dt)`. -/
structure PidCoefficients where
  integralStep : Int64
  derivativeGain : Int64
  filterWeight : Int64
  deriving DecidableEq

/-- `fieldctrl_q_pid_t`. -/
structure Pid (Q : Type) extends PidState Q where
  cachedDt : Int64
  cached : PidCoefficients

structure PidOutput (Q : Type) where
  output : Q
  proportional : Int64
  integral : Int64
  derivative : Int64
  saturated : Bool

variable {Q : Type} [FilterFormat Q]

def PidConfig.has (config : PidConfig Q) (option : UInt32) : Bool :=
  config.options &&& option != 0

def pidIntegralBounds (config : PidConfig Q) : Int64 × Int64 :=
  if config.has fieldctrlPidOptIntegralLimit then
    (FilterFormat.load config.integralLower, FilterFormat.load config.integralUpper)
  else (FilterFormat.load config.lower, FilterFormat.load config.upper)

/-- Validation of a complete tuning, with the integral bounds it asks for. -/
def pidCheck (config : PidConfig Q) : Except Status (Int64 × Int64) := do
  let lo := FilterFormat.load config.lower
  let hi := FilterFormat.load config.upper
  let ilo := FilterFormat.load config.integralLower
  let ihi := FilterFormat.load config.integralUpper
  let positive := fcqCmp config.kp 0 > 0 ∨ fcqCmp config.ki 0 > 0 ∨ fcqCmp config.kd 0 > 0
  let negative := fcqCmp config.kp 0 < 0 ∨ fcqCmp config.ki 0 < 0 ∨ fcqCmp config.kd 0 < 0
  if (positive ∧ negative) ∨ fcqCmp lo hi ≥ 0 ∨ fcqCmp config.derivativeFilter 0 < 0 ∨
      config.options &&& ~~~fieldctrlPidOptions ≠ 0 ∨
      (config.derivative ≠ fieldctrlPidDerivativeOnError ∧
        config.derivative ≠ fieldctrlPidDerivativeOnMeasurement) then
    throw .errorDomain
  if config.has fieldctrlPidOptSetpointWeight ∧
      (fcqCmp config.setpointWeight 0 < 0 ∨ fcqCmp config.setpointWeight fixedOne > 0) then
    throw .errorDomain
  if config.has fieldctrlPidOptIntegralSeparation ∧
      fcqCmp (FilterFormat.load config.separation) 0 ≤ 0 then
    throw .errorDomain
  if config.has fieldctrlPidOptIntegralLimit then
    if fcqCmp ilo ihi > 0 then throw .errorDomain
    .ok (ilo, ihi)
  else .ok (lo, hi)

/-! ## The controller -/

/-- The controller that init leaves: no history and no derivative. -/
def startState (config : PidConfig Q) (integral : Int64) : PidState Q where
  config := config
  integral := integral
  previousError := 0
  previousMeasurement := 0
  derivative := 0
  history := false

/-- What init stores, from an untrusted tuning and integral. -/
def initState (config : PidConfig Q) (integral : Q) : Except Status (PidState Q) := do
  let initial := FilterFormat.load integral
  let (lo, hi) ← pidCheck config
  if fcqCmp initial lo < 0 ∨ fcqCmp initial hi > 0 then throw .errorDomain
  .ok (startState config initial)

/-- A running controller under a new tuning.  A step holds `D(n-1)` while `kd`
is zero, so a stale term is cleared. -/
def retuneState (config : PidConfig Q) (state : PidState Q) : Except Status (PidState Q) := do
  let (lo, hi) ← pidCheck config
  .ok { state with
    derivative := if fcqCmp config.kd 0 = 0 then 0 else state.derivative
    integral := baseClamp state.integral lo hi
    config := config }

def resetState (integral : Q) (state : PidState Q) : Except Status (PidState Q) :=
  let initial := FilterFormat.load integral
  let bounds := pidIntegralBounds state.config
  if fcqCmp initial bounds.1 < 0 ∨ fcqCmp initial bounds.2 > 0 then .error .errorDomain
  else .ok (startState state.config initial)

/-- `b*setpoint - m(n)`, with `b = 1` unless the tuning weights the setpoint. -/
def pidWeighted (config : PidConfig Q) (setpoint measurement error : Int64) :
    Except Status Int64 :=
  if config.has fieldctrlPidOptSetpointWeight then do
    let weighted ← fcqMul config.setpointWeight setpoint
    fcqSub weighted measurement
  else .ok error

/-- `e(n)` and `P(n)`. -/
def pidProportional (config : PidConfig Q) (setpoint measurement : Int64) :
    Except Status (Int64 × Int64) := do
  let error ← fcqSub setpoint measurement
  let p ← pidWeighted config setpoint measurement error
  let p ← fcqMul config.kp p
  .ok (error, p)

/-- Whether the integral follows the error, or integral separation holds it. -/
def pidIntegrates (config : PidConfig Q) (error : Int64) : Except Status Bool :=
  if config.has fieldctrlPidOptIntegralSeparation then do
    let magnitude ← fcqAbs error
    .ok (decide (fcqCmp magnitude (FilterFormat.load config.separation) ≤ 0))
  else .ok true

/-- `I'(n)`: the integral before anti-windup. -/
def pidCandidate (config : PidConfig Q) (integralStep old error : Int64) :
    Except Status Int64 := do
  let bounds := pidIntegralBounds config
  let integrates ← pidIntegrates config error
  if integrates then do
    let increment ← fcqMul integralStep error
    let next ← fcqAdd old increment
    .ok (baseClamp next bounds.1 bounds.2)
  else .ok old

/-- The change of the signal that the tuning differentiates. -/
def pidDelta (state : PidState Q) (error measurement : Int64) : Except Status Int64 :=
  if state.config.derivative = fieldctrlPidDerivativeOnMeasurement then
    fcqSub state.previousMeasurement measurement
  else fcqSub error state.previousError

/-- `D(n)`.  The first step after init or reset has nothing to differentiate. -/
def pidDerivative (state : PidState Q) (coefficients : PidCoefficients)
    (error measurement : Int64) : Except Status Int64 :=
  let config := state.config
  let d := state.derivative
  if state.history ∧ fcqCmp config.kd 0 ≠ 0 then do
    let delta ← pidDelta state error measurement
    let delta ← fcqMul coefficients.derivativeGain delta
    if fcqCmp config.derivativeFilter 0 > 0 then do
      let change ← fcqSub delta d
      let change ← fcqMul coefficients.filterWeight change
      fcqAdd d change
    else .ok delta
  else .ok d

/-- `I(n)`: a candidate that drives the command past a bound advances at most
to the value that puts the command on it, and never back past `I(n-1)`. -/
def pidAntiWindup (lo hi old pd raw i : Int64) : Except Status Int64 :=
  if fcqCmp raw hi > 0 ∧ fcqCmp i old > 0 then do
    let boundary ← fcqSub hi pd
    .ok (if fcqCmp boundary old > 0 then boundary else old)
  else if fcqCmp raw lo < 0 ∧ fcqCmp i old < 0 then do
    let boundary ← fcqSub lo pd
    .ok (if fcqCmp boundary old < 0 then boundary else old)
  else .ok i

/-- The part of a step that follows the period coefficients. -/
def pidAdvance (state : PidState Q) (coefficients : PidCoefficients)
    (error p measurement : Int64) : Except Status (PidOutput Q × PidState Q) := do
  let config := state.config
  let lo := FilterFormat.load config.lower
  let hi := FilterFormat.load config.upper
  let candidate ← pidCandidate config coefficients.integralStep state.integral error
  let d ← pidDerivative state coefficients error measurement
  let pd ← fcqAdd p d
  let raw ← fcqAdd pd candidate
  let output ← fcStore (baseClamp raw lo hi)
  let i ← pidAntiWindup lo hi state.integral pd raw candidate
  .ok ({ output := output
         proportional := p
         integral := i
         derivative := d
         saturated := fcqCmp raw hi > 0 ∨ fcqCmp raw lo < 0 },
    { config := config
      integral := i
      previousError := error
      previousMeasurement := measurement
      derivative := d
      history := true })

/-! ## The context with its period cache -/

/-- The pointers of a call that takes a tuning. -/
def checkConfig (self : Extent) (config : Option (PidConfig Q)) : Except Status (PidConfig Q) :=
  match config with
  | none => .error .errorArgument
  | some config => if self.address = 0 then .error .errorArgument else .ok config

def pidInit (self : Extent) (config : Option (PidConfig Q)) (integral : Q) :
    Except Status (Pid Q) := do
  let config ← checkConfig self config
  let state ← initState config integral
  .ok { toPidState := state, cachedDt := 0, cached := ⟨0, 0, 0⟩ }

/-- A zero cached period forces the next step to recompute the coefficients;
bounds, options and `kp` do not enter them. -/
def pidRetune (self : Extent) (config : Option (PidConfig Q)) (ctx : Pid Q) :
    Except Status (Pid Q) := do
  let config ← checkConfig self config
  let state ← retuneState config ctx.toPidState
  let stale := fcqCmp config.ki ctx.config.ki ≠ 0 ∨ fcqCmp config.kd ctx.config.kd ≠ 0 ∨
    fcqCmp config.derivativeFilter ctx.config.derivativeFilter ≠ 0
  .ok { toPidState := state
        cachedDt := if stale then 0 else ctx.cachedDt
        cached := ctx.cached }

def pidReset (self : Extent) (integral : Q) (ctx : Pid Q) : Except Status (Pid Q) :=
  if self.address = 0 then .error .errorArgument
  else do
    let state ← resetState integral ctx.toPidState
    .ok { ctx with toPidState := state }

/-- `kd/dt`, left alone while `kd` is zero. -/
def recomputeGain (kd old period : Int64) : Except Status Int64 :=
  if fcqCmp kd 0 ≠ 0 then fcqDiv kd period else .ok old

/-- `dt/(Tf+dt)`, left alone without a filter. -/
def recomputeWeight (filter old period : Int64) : Except Status Int64 :=
  if fcqCmp filter 0 > 0 then do
    let sum ← fcqAdd filter period
    fcqDiv period sum
  else .ok old

/-- The coefficients of a period: the cached ones while the period is the
cached one, and only those the tuning uses otherwise. -/
def periodCoefficients (ctx : Pid Q) (period : Int64) : Except Status PidCoefficients :=
  let config := ctx.config
  if fcqCmp period ctx.cachedDt ≠ 0 then do
    let integralStep ← fcqMul config.ki period
    let derivativeGain ← recomputeGain config.kd ctx.cached.derivativeGain period
    let filterWeight ← recomputeWeight config.derivativeFilter ctx.cached.filterWeight period
    .ok ⟨integralStep, derivativeGain, filterWeight⟩
  else .ok ctx.cached

def pidStepWork (ctx : Pid Q) (setpoint measurement period : Int64) :
    Except Status (PidOutput Q × Pid Q) := do
  if fcqCmp period 0 ≤ 0 then throw .errorDomain
  let (error, p) ← pidProportional ctx.config setpoint measurement
  let coefficients ← periodCoefficients ctx period
  let (result, state) ← pidAdvance ctx.toPidState coefficients error p measurement
  .ok (result, { toPidState := state, cachedDt := period, cached := coefficients })

def pidStep (self output : Extent) (setpoint measurement dt : Q) (ctx : Pid Q) :
    Except Status (PidOutput Q × Pid Q) := do
  checkPointers self output
  pidStepWork ctx (FilterFormat.load setpoint) (FilterFormat.load measurement)
    (FilterFormat.load dt)

/-! ## Runs -/

/-- The calls on one context; `none` is a NULL tuning. -/
inductive PidCall (Q : Type) where
  | init (config : Option (PidConfig Q)) (integral : Q)
  | retune (config : Option (PidConfig Q))
  | reset (integral : Q)
  | step (output : Extent) (setpoint measurement dt : Q)
  /-- The entry of the speed cascade, which passes working values. -/
  | stepWork (setpoint measurement period : Int64)

/-- The status of a call, with the result a successful step writes. -/
abbrev PidAnswer (Q : Type) : Type := Except Status (Option (PidOutput Q))

/-- A call that may replace the context; a failing one leaves it alone. -/
def control {σ : Type} (result : Except Status σ) (old : σ) : PidAnswer Q × σ :=
  match result with
  | .ok next => (.ok none, next)
  | .error status => (.error status, old)

/-- A call that may write a result and the next context. -/
def advance {σ : Type} (result : Except Status (PidOutput Q × σ)) (old : σ) : PidAnswer Q × σ :=
  match result with
  | .ok (output, next) => (.ok (some output), next)
  | .error status => (.error status, old)

/-- The controller of the source, in a context at `self`. -/
def pidMachine (Q : Type) [FilterFormat Q] (self : Extent) :
    Machine (PidCall Q) (PidAnswer Q) (Pid Q) where
  react call ctx :=
    match call with
    | .init config integral => control (pidInit self config integral) ctx
    | .retune config => control (pidRetune self config ctx) ctx
    | .reset integral => control (pidReset self integral ctx) ctx
    | .step output setpoint measurement dt =>
        advance (pidStep self output setpoint measurement dt ctx) ctx
    | .stepWork setpoint measurement period =>
        advance (pidStepWork ctx setpoint measurement period) ctx

/-! ## What each operation does on success -/

/-- What an accepted tuning promises. -/
theorem pidCheck_ok {config : PidConfig Q} {bounds : Int64 × Int64}
    (h : pidCheck config = .ok bounds) :
    0 ≤ config.derivativeFilter.toInt ∧ bounds = pidIntegralBounds config ∧
      bounds.1.toInt ≤ bounds.2.toInt ∧
      (FilterFormat.load config.lower).toInt < (FilterFormat.load config.upper).toInt := by
  simp only [pidCheck, ge_iff_le, gt_iff_lt, fcqCmp_lt, fcqCmp_gt, fcqCmp_ge, fcqCmp_le] at h
  split at h
  · cases h
  · rename_i hvalid
    simp only [not_or, not_lt, not_le, Int64.toInt_zero] at hvalid
    obtain ⟨-, hrange, hfilter, -, -⟩ := hvalid
    split at h
    · cases h
    · split at h
      · cases h
      · rw [pidIntegralBounds]
        split at h
        · rename_i hlimit
          split at h
          · cases h
          · rename_i hordered
            cases h
            rw [if_pos hlimit]
            exact ⟨hfilter, rfl, not_lt.mp hordered, hrange⟩
        · rename_i hlimit
          cases h
          rw [if_neg hlimit]
          exact ⟨hfilter, rfl, hrange.le, hrange⟩

/-- A new controller: its tuning passed the check and its integral is in range. -/
theorem initState_ok {config : PidConfig Q} {integral : Q} {state : PidState Q}
    (h : initState config integral = .ok state) :
    pidCheck config = .ok (pidIntegralBounds config) ∧
      state = startState config (FilterFormat.load integral) ∧
      (pidIntegralBounds config).1.toInt ≤ state.integral.toInt ∧
      state.integral.toInt ≤ (pidIntegralBounds config).2.toInt := by
  obtain ⟨bounds, hcheck, h⟩ := ok_of_bind h
  obtain ⟨-, rfl, -, -⟩ := pidCheck_ok hcheck
  simp only [fcqCmp_lt, gt_iff_lt, fcqCmp_gt] at h
  split at h
  · cases h
  · rename_i hrange
    rw [not_or, not_lt, not_lt] at hrange
    cases h
    exact ⟨hcheck, rfl, hrange⟩

/-- A retuned controller. -/
theorem retuneState_ok {config : PidConfig Q} {state next : PidState Q}
    (h : retuneState config state = .ok next) :
    next.config = config ∧ 0 ≤ config.derivativeFilter.toInt ∧
      pidCheck config = .ok (pidIntegralBounds config) ∧
      next.integral =
        baseClamp state.integral (pidIntegralBounds config).1 (pidIntegralBounds config).2 := by
  obtain ⟨bounds, hcheck, h⟩ := ok_of_bind h
  obtain ⟨hfilter, rfl, -, -⟩ := pidCheck_ok hcheck
  cases h
  exact ⟨rfl, hfilter, hcheck, rfl⟩

/-- A reset controller. -/
theorem resetState_ok {integral : Q} {state next : PidState Q}
    (h : resetState integral state = .ok next) :
    next = startState state.config (FilterFormat.load integral) ∧
      (pidIntegralBounds state.config).1.toInt ≤ next.integral.toInt ∧
      next.integral.toInt ≤ (pidIntegralBounds state.config).2.toInt := by
  simp only [resetState, fcqCmp_lt, gt_iff_lt, fcqCmp_gt] at h
  split at h
  · cases h
  · rename_i hrange
    rw [not_or, not_lt, not_lt] at hrange
    cases h
    exact ⟨rfl, hrange⟩

/-- The parts of a successful step after the period coefficients. -/
theorem pidAdvance_ok {state next : PidState Q} {coefficients : PidCoefficients}
    {error p measurement : Int64} {output : PidOutput Q}
    (h : pidAdvance state coefficients error p measurement = .ok (output, next)) :
    ∃ candidate pd raw : Int64,
      pidCandidate state.config coefficients.integralStep state.integral error = .ok candidate ∧
      pidDerivative state coefficients error measurement = .ok output.derivative ∧
      pd.toInt = p.toInt + output.derivative.toInt ∧ raw.toInt = pd.toInt + candidate.toInt ∧
      fcStore (baseClamp raw (FilterFormat.load state.config.lower)
        (FilterFormat.load state.config.upper)) = .ok output.output ∧
      pidAntiWindup (FilterFormat.load state.config.lower) (FilterFormat.load state.config.upper)
        state.integral pd raw candidate = .ok output.integral ∧
      output.proportional = p ∧
      (output.saturated = true ↔ (FilterFormat.load state.config.upper).toInt < raw.toInt ∨
        raw.toInt < (FilterFormat.load state.config.lower).toInt) ∧
      next = ⟨state.config, output.integral, error, measurement, output.derivative, true⟩ := by
  obtain ⟨candidate, hcandidate, h⟩ := ok_of_bind h
  obtain ⟨d, hd, h⟩ := ok_of_bind h
  obtain ⟨pd, hpd, h⟩ := ok_of_bind h
  obtain ⟨raw, hraw, h⟩ := ok_of_bind h
  obtain ⟨stored, hstored, h⟩ := ok_of_bind h
  obtain ⟨i, hi, h⟩ := ok_of_bind h
  cases h
  rw [fcqAdd, fixed_add] at hpd hraw
  refine ⟨candidate, pd, raw, hcandidate, hd, fixedResult_eq_ok hpd, fixedResult_eq_ok hraw,
    hstored, hi, rfl, ?_, rfl⟩
  simp

end Xhive.Fieldctrl
