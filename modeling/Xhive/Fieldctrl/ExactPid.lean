import Mathlib.Algebra.Order.Field.Basic
import Mathlib.Tactic.Linarith
import Xhive.Fieldctrl.Pid

/-!
# The PID controller over an exact field

The float instantiations of `base_impl.h`, with the rounding taken away: the
scalars are an ordered field, and a value is finite while its magnitude does not
exceed `MAX`.  Every load and every operation checks its result.
-/

namespace Xhive.Fieldctrl.Exact

open Xhive.Support Xhive.Linears

variable {K : Type} [Field K] [LinearOrder K]

/-! ## Checked operations -/

/-- `load`: only finite values pass. -/
def load (MAX x : K) : Except Status K :=
  if |x| ≤ MAX then .ok x else .error .errorRange

def add (MAX a b : K) : Except Status K := load MAX (a + b)

def sub (MAX a b : K) : Except Status K := load MAX (a - b)

def mul (MAX a b : K) : Except Status K := load MAX (a * b)

def div (MAX a b : K) : Except Status K :=
  if b = 0 then .error .errorDomain else load MAX (a / b)

def abs (MAX a : K) : Except Status K := load MAX (if a < 0 then -a else a)

/-- The value of `FC_I(1)`: a helper that latches a failure returns zero. -/
def one (MAX : K) : K :=
  match load MAX 1 with
  | .ok x => x
  | .error _ => 0

def baseClamp (x lo hi : K) : K :=
  if x < lo then lo else if x > hi then hi else x

/-! ## Tuning -/

structure PidConfig (K : Type) where
  kp : K
  ki : K
  kd : K
  lower : K
  upper : K
  options : UInt32
  derivative : UInt32
  derivativeFilter : K
  setpointWeight : K
  integralLower : K
  integralUpper : K
  separation : K

/-- `fieldctrl_f32_pid_t`. -/
structure Pid (K : Type) where
  config : PidConfig K
  integral : K
  previousError : K
  previousMeasurement : K
  derivative : K
  cachedDt : K
  integralStep : K
  derivativeGain : K
  filterWeight : K
  history : Bool

structure PidOutput (K : Type) where
  output : K
  proportional : K
  integral : K
  derivative : K
  saturated : Bool

def PidConfig.has (config : PidConfig K) (option : UInt32) : Bool :=
  config.options &&& option != 0

def pidIntegralBounds (config : PidConfig K) : K × K :=
  if config.has fieldctrlPidOptIntegralLimit then (config.integralLower, config.integralUpper)
  else (config.lower, config.upper)

/-- Validation of a complete tuning, with the integral bounds it asks for.  Every
field is loaded, those of disabled options too. -/
def pidCheck (MAX : K) (config : PidConfig K) : Except Status (K × K) := do
  let kp ← load MAX config.kp
  let ki ← load MAX config.ki
  let kd ← load MAX config.kd
  let lo ← load MAX config.lower
  let hi ← load MAX config.upper
  let filter ← load MAX config.derivativeFilter
  let weight ← load MAX config.setpointWeight
  let ilo ← load MAX config.integralLower
  let ihi ← load MAX config.integralUpper
  let separation ← load MAX config.separation
  let positive := kp > 0 ∨ ki > 0 ∨ kd > 0
  let negative := kp < 0 ∨ ki < 0 ∨ kd < 0
  if (positive ∧ negative) ∨ lo ≥ hi ∨ filter < 0 ∨
      config.options &&& ~~~fieldctrlPidOptions ≠ 0 ∨
      (config.derivative ≠ fieldctrlPidDerivativeOnError ∧
        config.derivative ≠ fieldctrlPidDerivativeOnMeasurement) then
    .error .errorDomain
  else if config.has fieldctrlPidOptSetpointWeight ∧ (weight < 0 ∨ weight > one MAX) then
    .error .errorDomain
  else if config.has fieldctrlPidOptIntegralSeparation ∧ separation ≤ 0 then
    .error .errorDomain
  else if config.has fieldctrlPidOptIntegralLimit then
    if ilo > ihi then .error .errorDomain else .ok (ilo, ihi)
  else .ok (lo, hi)

/-! ## The controller -/

def pidInit (MAX : K) (config : PidConfig K) (integral : K) : Except Status (Pid K) := do
  let initial ← load MAX integral
  let (lo, hi) ← pidCheck MAX config
  if initial < lo ∨ initial > hi then .error .errorDomain
  else
    .ok { config := config
          integral := initial
          previousError := 0
          previousMeasurement := 0
          derivative := 0
          cachedDt := 0
          integralStep := 0
          derivativeGain := 0
          filterWeight := 0
          history := false }

def pidRetune (MAX : K) (config : PidConfig K) (ctx : Pid K) : Except Status (Pid K) := do
  let (lo, hi) ← pidCheck MAX config
  .ok { ctx with
    cachedDt :=
      if config.ki ≠ ctx.config.ki ∨ config.kd ≠ ctx.config.kd ∨
          config.derivativeFilter ≠ ctx.config.derivativeFilter then 0
      else ctx.cachedDt
    derivative := if config.kd = 0 then 0 else ctx.derivative
    integral := baseClamp ctx.integral lo hi
    config := config }

def pidReset (MAX : K) (integral : K) (ctx : Pid K) : Except Status (Pid K) := do
  let initial ← load MAX integral
  let (lo, hi) := pidIntegralBounds ctx.config
  if initial < lo ∨ initial > hi then .error .errorDomain
  else
    .ok { ctx with
      integral := initial
      previousError := 0
      previousMeasurement := 0
      derivative := 0
      history := false }

/-! ## One sample -/

/-- `b*setpoint - m(n)`, with `b = 1` unless the tuning weights the setpoint. -/
def pidWeighted (MAX : K) (config : PidConfig K) (setpoint measurement error : K) :
    Except Status K :=
  if config.has fieldctrlPidOptSetpointWeight then do
    let weighted ← mul MAX config.setpointWeight setpoint
    sub MAX weighted measurement
  else .ok error

/-- `ki*dt`, `kd/dt` and `dt/(Tf+dt)`: cached while the period is the cached
one, and otherwise recomputed as far as the tuning uses them. -/
def pidCoefficients (MAX : K) (ctx : Pid K) (period : K) : Except Status (K × K × K) :=
  if period ≠ ctx.cachedDt then do
    let integralStep ← mul MAX ctx.config.ki period
    let derivativeGain ←
      if ctx.config.kd ≠ 0 then div MAX ctx.config.kd period else .ok ctx.derivativeGain
    let filterWeight ←
      if ctx.config.derivativeFilter > 0 then do
        let sum ← add MAX ctx.config.derivativeFilter period
        div MAX period sum
      else .ok ctx.filterWeight
    .ok (integralStep, derivativeGain, filterWeight)
  else .ok (ctx.integralStep, ctx.derivativeGain, ctx.filterWeight)

/-- Whether the integral follows the error, or integral separation holds it. -/
def pidIntegrates (MAX : K) (config : PidConfig K) (error : K) : Except Status Bool :=
  if config.has fieldctrlPidOptIntegralSeparation then do
    let magnitude ← abs MAX error
    .ok (decide (magnitude ≤ config.separation))
  else .ok true

/-- `I'(n)`: the integral before anti-windup. -/
def pidCandidate (MAX : K) (config : PidConfig K) (integralStep old error : K) :
    Except Status K := do
  let bounds := pidIntegralBounds config
  let integrates ← pidIntegrates MAX config error
  if integrates then do
    let increment ← mul MAX integralStep error
    let next ← add MAX old increment
    .ok (baseClamp next bounds.1 bounds.2)
  else .ok old

/-- The change of the signal that the tuning differentiates. -/
def pidDelta (MAX : K) (ctx : Pid K) (error measurement : K) : Except Status K :=
  if ctx.config.derivative = fieldctrlPidDerivativeOnMeasurement then
    sub MAX ctx.previousMeasurement measurement
  else sub MAX error ctx.previousError

/-- `D(n)`.  The first step after init or reset has nothing to differentiate. -/
def pidDerivative (MAX : K) (ctx : Pid K) (derivativeGain filterWeight error measurement : K) :
    Except Status K :=
  if ctx.history ∧ ctx.config.kd ≠ 0 then do
    let delta ← pidDelta MAX ctx error measurement
    let delta ← mul MAX derivativeGain delta
    if ctx.config.derivativeFilter > 0 then do
      let change ← sub MAX delta ctx.derivative
      let change ← mul MAX filterWeight change
      add MAX ctx.derivative change
    else .ok delta
  else .ok ctx.derivative

/-- `I(n)`: a candidate that drives the command past a bound advances at most
to the value that puts the command on it, and never back past `I(n-1)`. -/
def pidAntiWindup (MAX lo hi old pd raw i : K) : Except Status K :=
  if raw > hi ∧ i > old then do
    let boundary ← sub MAX hi pd
    .ok (if boundary > old then boundary else old)
  else if raw < lo ∧ i < old then do
    let boundary ← sub MAX lo pd
    .ok (if boundary < old then boundary else old)
  else .ok i

def pidStepWork (MAX : K) (ctx : Pid K) (setpoint measurement period : K) :
    Except Status (PidOutput K × Pid K) :=
  if period ≤ 0 then .error .errorDomain
  else do
    let config := ctx.config
    let error ← sub MAX setpoint measurement
    let p ← pidWeighted MAX config setpoint measurement error
    let p ← mul MAX config.kp p
    let (integralStep, derivativeGain, filterWeight) ← pidCoefficients MAX ctx period
    let candidate ← pidCandidate MAX config integralStep ctx.integral error
    let d ← pidDerivative MAX ctx derivativeGain filterWeight error measurement
    let pd ← add MAX p d
    let raw ← add MAX pd candidate
    let output ← load MAX (baseClamp raw config.lower config.upper)
    let i ← pidAntiWindup MAX config.lower config.upper ctx.integral pd raw candidate
    let proportional ← load MAX p
    let integral ← load MAX i
    let derivative ← load MAX d
    .ok ({ output := output
           proportional := proportional
           integral := integral
           derivative := derivative
           saturated := raw > config.upper ∨ raw < config.lower },
      { config := config
        integral := i
        previousError := error
        previousMeasurement := measurement
        derivative := d
        cachedDt := period
        integralStep := integralStep
        derivativeGain := derivativeGain
        filterWeight := filterWeight
        history := true })

def pidStep (MAX : K) (ctx : Pid K) (setpoint measurement dt : K) :
    Except Status (PidOutput K × Pid K) := do
  let reference ← load MAX setpoint
  let feedback ← load MAX measurement
  let period ← load MAX dt
  pidStepWork MAX ctx reference feedback period

/-! ## What each operation does on success -/

theorem load_of_le {MAX x : K} (h : |x| ≤ MAX) : load MAX x = .ok x := if_pos h

/-- A computation that returns has loaded a finite value. -/
theorem ok_of_load {α : Type} {MAX x : K} {f : K → Except Status α} {a : α}
    (h : (load MAX x >>= f) = .ok a) : |x| ≤ MAX ∧ f x = .ok a := by
  obtain ⟨y, hy, hf⟩ := ok_of_bind h
  rw [load] at hy
  split at hy
  · cases hy
    exact ⟨‹_›, hf⟩
  · cases hy

/-- What an accepted tuning promises. -/
theorem pidCheck_ok {MAX : K} {config : PidConfig K} {bounds : K × K}
    (h : pidCheck MAX config = .ok bounds) :
    bounds = pidIntegralBounds config ∧ bounds.1 ≤ bounds.2 ∧ config.lower < config.upper ∧
      |bounds.1| ≤ MAX ∧ |bounds.2| ≤ MAX := by
  rw [pidCheck] at h
  obtain ⟨-, h⟩ := ok_of_load h
  obtain ⟨-, h⟩ := ok_of_load h
  obtain ⟨-, h⟩ := ok_of_load h
  obtain ⟨hlo, h⟩ := ok_of_load h
  obtain ⟨hhi, h⟩ := ok_of_load h
  obtain ⟨-, h⟩ := ok_of_load h
  obtain ⟨-, h⟩ := ok_of_load h
  obtain ⟨hilo, h⟩ := ok_of_load h
  obtain ⟨hihi, h⟩ := ok_of_load h
  obtain ⟨-, h⟩ := ok_of_load h
  dsimp only at h
  split at h
  · cases h
  · rename_i hvalid
    simp only [not_or, ge_iff_le, not_le] at hvalid
    obtain ⟨-, hrange, -, -, -⟩ := hvalid
    split at h
    · cases h
    · split at h
      · cases h
      · rw [pidIntegralBounds]
        split at h
        · rename_i hlimit
          split at h
          · cases h
          · rename_i hordered
            cases h
            rw [if_pos hlimit]
            exact ⟨rfl, not_lt.mp hordered, hrange, hilo, hihi⟩
        · rename_i hlimit
          cases h
          rw [if_neg hlimit]
          exact ⟨rfl, hrange.le, hrange, hlo, hhi⟩

/-- The tuning of a new controller is accepted just when its check is, if the
integral fits the bounds. -/
theorem pidInit_eq {MAX : K} {config : PidConfig K} {integral : K} {bounds : K × K}
    (hcheck : pidCheck MAX config = .ok bounds) (hfinite : |integral| ≤ MAX)
    (hlow : bounds.1 ≤ integral) (hhigh : integral ≤ bounds.2) :
    pidInit MAX config integral =
      .ok ⟨config, integral, 0, 0, 0, 0, 0, 0, 0, false⟩ := by
  rw [pidInit, load_of_le hfinite, ok_bind, hcheck, ok_bind]
  exact if_neg (not_or.mpr ⟨not_lt.mpr hlow, not_lt.mpr hhigh⟩)

theorem pidInit_ok {MAX : K} {config : PidConfig K} {integral : K} {ctx : Pid K}
    (h : pidInit MAX config integral = .ok ctx) :
    (∃ bounds, pidCheck MAX config = .ok bounds) ∧ ctx.config = config ∧
      ctx.integral = integral ∧ (pidIntegralBounds config).1 ≤ integral ∧
      integral ≤ (pidIntegralBounds config).2 := by
  rw [pidInit] at h
  obtain ⟨-, h⟩ := ok_of_load h
  obtain ⟨bounds, hcheck, h⟩ := ok_of_bind h
  obtain ⟨rfl, -⟩ := pidCheck_ok hcheck
  dsimp only at h
  split at h
  · cases h
  · rename_i hrange
    rw [not_or, not_lt, gt_iff_lt, not_lt] at hrange
    cases h
    exact ⟨⟨_, hcheck⟩, rfl, rfl, hrange⟩

omit [Field K] in
theorem baseClamp_mem {x lo hi : K} (h : lo ≤ hi) :
    lo ≤ baseClamp x lo hi ∧ baseClamp x lo hi ≤ hi := by
  rw [baseClamp]
  split_ifs with hlow hhigh
  · exact ⟨le_rfl, h⟩
  · exact ⟨h, le_rfl⟩
  · exact ⟨not_lt.mp hlow, not_lt.mp hhigh⟩

theorem pidRetune_ok {MAX : K} {config : PidConfig K} {ctx next : Pid K}
    (h : pidRetune MAX config ctx = .ok next) :
    (∃ bounds, pidCheck MAX config = .ok bounds) ∧ next.config = config ∧
      (pidIntegralBounds config).1 ≤ next.integral ∧
      next.integral ≤ (pidIntegralBounds config).2 := by
  rw [pidRetune] at h
  obtain ⟨bounds, hcheck, h⟩ := ok_of_bind h
  obtain ⟨rfl, hordered, -⟩ := pidCheck_ok hcheck
  cases h
  exact ⟨⟨_, hcheck⟩, rfl, baseClamp_mem hordered⟩

theorem pidReset_ok {MAX integral : K} {ctx next : Pid K}
    (h : pidReset MAX integral ctx = .ok next) :
    next.config = ctx.config ∧ next.integral = integral ∧
      (pidIntegralBounds ctx.config).1 ≤ integral ∧
      integral ≤ (pidIntegralBounds ctx.config).2 := by
  rw [pidReset] at h
  obtain ⟨-, h⟩ := ok_of_load h
  dsimp only at h
  split at h
  · cases h
  · rename_i hrange
    rw [not_or, not_lt, gt_iff_lt, not_lt] at hrange
    cases h
    exact ⟨rfl, rfl, hrange⟩

/-- A candidate follows the error inside the bounds or stays where it was. -/
theorem pidCandidate_mem {MAX integralStep old error i : K} {config : PidConfig K}
    (hordered : (pidIntegralBounds config).1 ≤ (pidIntegralBounds config).2)
    (hold : (pidIntegralBounds config).1 ≤ old ∧ old ≤ (pidIntegralBounds config).2)
    (h : pidCandidate MAX config integralStep old error = .ok i) :
    (pidIntegralBounds config).1 ≤ i ∧ i ≤ (pidIntegralBounds config).2 := by
  rw [pidCandidate] at h
  obtain ⟨integrates, -, h⟩ := ok_of_bind h
  split at h
  · obtain ⟨increment, -, h⟩ := ok_of_bind h
    obtain ⟨next, -, h⟩ := ok_of_bind h
    cases h
    exact baseClamp_mem hordered
  · cases h
    exact hold

variable [IsStrictOrderedRing K]

/-- Anti-windup ends between the old integral and the candidate. -/
theorem pidAntiWindup_between {MAX lo hi old pd i next : K}
    (h : pidAntiWindup MAX lo hi old pd (pd + i) i = .ok next) :
    min old i ≤ next ∧ next ≤ max old i := by
  simp only [pidAntiWindup] at h
  split at h
  · rename_i hcrossed
    obtain ⟨-, h⟩ := ok_of_load h
    cases h
    split_ifs
    · exact ⟨min_le_of_left_le (le_of_lt ‹_›), le_max_of_le_right (by linarith [hcrossed.1])⟩
    · exact ⟨min_le_left _ _, le_max_left _ _⟩
  · split at h
    · rename_i hcrossed
      obtain ⟨-, h⟩ := ok_of_load h
      cases h
      split_ifs
      · exact ⟨min_le_of_right_le (by linarith [hcrossed.1]), le_max_of_le_left (le_of_lt ‹_›)⟩
      · exact ⟨min_le_left _ _, le_max_left _ _⟩
    · cases h
      exact ⟨min_le_right _ _, le_max_right _ _⟩

/-- A step keeps the tuning and the integral in its bounds. -/
theorem pidStep_ok {MAX setpoint measurement dt : K} {ctx next : Pid K} {output : PidOutput K}
    (hordered : (pidIntegralBounds ctx.config).1 ≤ (pidIntegralBounds ctx.config).2)
    (hintegral : (pidIntegralBounds ctx.config).1 ≤ ctx.integral ∧
      ctx.integral ≤ (pidIntegralBounds ctx.config).2)
    (h : pidStep MAX ctx setpoint measurement dt = .ok (output, next)) :
    next.config = ctx.config ∧ (pidIntegralBounds ctx.config).1 ≤ next.integral ∧
      next.integral ≤ (pidIntegralBounds ctx.config).2 := by
  rw [pidStep] at h
  obtain ⟨-, h⟩ := ok_of_load h
  obtain ⟨-, h⟩ := ok_of_load h
  obtain ⟨-, h⟩ := ok_of_load h
  rw [pidStepWork] at h
  split at h
  · cases h
  obtain ⟨-, h⟩ := ok_of_load h
  obtain ⟨weighted, -, h⟩ := ok_of_bind h
  obtain ⟨-, h⟩ := ok_of_load h
  obtain ⟨coefficients, -, h⟩ := ok_of_bind h
  obtain ⟨candidate, hcandidate, h⟩ := ok_of_bind h
  obtain ⟨d, -, h⟩ := ok_of_bind h
  obtain ⟨-, h⟩ := ok_of_load h
  obtain ⟨-, h⟩ := ok_of_load h
  obtain ⟨-, h⟩ := ok_of_load h
  obtain ⟨i, hi, h⟩ := ok_of_bind h
  obtain ⟨-, h⟩ := ok_of_load h
  obtain ⟨-, h⟩ := ok_of_load h
  obtain ⟨-, h⟩ := ok_of_load h
  obtain ⟨hcandidateLow, hcandidateHigh⟩ := pidCandidate_mem hordered hintegral hcandidate
  obtain ⟨hlow, hhigh⟩ := pidAntiWindup_between hi
  cases h
  exact ⟨rfl, (le_min hintegral.1 hcandidateLow).trans hlow,
    hhigh.trans (max_le hintegral.2 hcandidateHigh)⟩

end Xhive.Fieldctrl.Exact
