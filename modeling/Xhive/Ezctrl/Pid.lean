import Xhive.Fieldctrl.ExactPid

/-!
# The PID adapter

`pid_impl.h` over an exact field: a whole configuration is kept beside the
fieldctrl controller built from it.  Each setter changes one part of the
configuration and applies the whole of it; a context that was never configured
builds its controller on first use.
-/

namespace Xhive.Ezctrl

open Xhive.Support Xhive.Linears Xhive.Filters Xhive.Fieldctrl

/-- `ezc_status_t`. -/
inductive EzcStatus where
  | ok
  | errInvalidArg
  deriving DecidableEq, Repr

/-- `ezc_pid_f32_cfg_t`; a pointer is its address, zero for NULL. -/
structure EzcPidCfg (K : Type) where
  kp : K
  ki : K
  kd : K
  limitEnabled : Bool
  outMin : K
  outMax : K
  options : UInt32
  derivSource : UInt32
  derivFilterT : K
  weightP : K
  integralMin : K
  integralMax : K
  integralSeparation : K
  callback : ℕ
  callbackCtx : ℕ

/-- `ezc_pid_f32_t`. -/
structure EzcPid (K : Type) where
  cfg : EzcPidCfg K
  pid : Exact.Pid K
  output : K

/-- `ezc_pid_f32_result_t`. -/
structure EzcPidResult (K : Type) where
  output : K
  setpoint : K
  measure : K
  error : K
  pTerm : K
  iTerm : K
  dTerm : K
  limited : Bool

variable {K : Type} [Field K] [LinearOrder K]

/-! ## Building the controller -/

/-- The all-zero configuration with a callback. -/
def blankCfg (callback callbackCtx : ℕ) : EzcPidCfg K :=
  ⟨0, 0, 0, false, 0, 0, 0, 0, 0, 0, 0, 0, 0, callback, callbackCtx⟩

/-- The all-zero configuration. -/
def zeroCfg : EzcPidCfg K := blankCfg 0 0

/-- A context whose members are zero but for the callback. -/
def blankContext (callback callbackCtx : ℕ) : EzcPid K :=
  ⟨blankCfg callback callbackCtx,
    ⟨⟨0, 0, 0, 0, 0, 0, 0, 0, 0, 0, 0, 0⟩, 0, 0, 0, 0, 0, 0, 0, 0, false⟩, 0⟩

/-- `_zero_context`. -/
def ezcPidZeroContext : EzcPid K := blankContext 0 0

/-- `_built`. -/
def ezcPidBuilt (ctx : EzcPid K) : Prop := ctx.pid.config.lower < ctx.pid.config.upper

instance (ctx : EzcPid K) : Decidable (ezcPidBuilt ctx) :=
  inferInstanceAs (Decidable (ctx.pid.config.lower < ctx.pid.config.upper))

/-- `_clamp_integral`. -/
def ezcPidClampIntegral (fc : Exact.PidConfig K) (value : K) : K :=
  let ownLimit := fc.options &&& fieldctrlPidOptIntegralLimit != 0
  let lo := if ownLimit then fc.integralLower else fc.lower
  let hi := if ownLimit then fc.integralUpper else fc.upper
  if value < lo then lo else if value > hi then hi else value

/-- `_map`. -/
def ezcPidMap (MAX : K) (cfg : EzcPidCfg K) : Exact.PidConfig K where
  kp := cfg.kp
  ki := cfg.ki
  kd := cfg.kd
  lower := if cfg.limitEnabled then cfg.outMin else -MAX
  upper := if cfg.limitEnabled then cfg.outMax else MAX
  options := cfg.options
  derivative := cfg.derivSource
  derivativeFilter := cfg.derivFilterT
  setpointWeight := cfg.weightP
  integralLower := cfg.integralMin
  integralUpper := cfg.integralMax
  separation := cfg.integralSeparation

/-- `_apply`. -/
def ezcPidApply (MAX : K) (next : EzcPidCfg K) (ctx : EzcPid K) : EzcStatus × EzcPid K :=
  let fc := ezcPidMap MAX next
  let result :=
    if ezcPidBuilt ctx then Exact.pidRetune MAX fc ctx.pid
    else Exact.pidInit MAX fc (ezcPidClampIntegral fc 0)
  match result with
  | .ok pid => (.ok, { ctx with cfg := next, pid := pid })
  | .error _ => (.errInvalidArg, ctx)

/-- `_init`, of a context that is in memory already; `none` is a NULL cfg. -/
def ezcPidInit (MAX : K) (self : Extent) (cfg : Option (EzcPidCfg K)) (ctx : EzcPid K) :
    EzcStatus × EzcPid K :=
  if self.address = 0 then (.errInvalidArg, ctx)
  else
    match cfg with
    | none => (.errInvalidArg, ezcPidZeroContext)
    | some cfg => ezcPidApply MAX cfg ezcPidZeroContext

/-! ## Setters -/

/-- A setter: the stored configuration with one part changed, applied whole. -/
def reconfigure (MAX : K) (self : Extent) (change : EzcPidCfg K → EzcPidCfg K) (ctx : EzcPid K) :
    EzcStatus × EzcPid K :=
  if self.address = 0 then (.errInvalidArg, ctx) else ezcPidApply MAX (change ctx.cfg) ctx

def ezcPidSetGains (MAX : K) (self : Extent) (kp ki kd : K) (ctx : EzcPid K) :
    EzcStatus × EzcPid K :=
  reconfigure MAX self (fun next => { next with kp := kp, ki := ki, kd := kd }) ctx

def ezcPidSetLimit (MAX : K) (self : Extent) (outMin outMax : K) (ctx : EzcPid K) :
    EzcStatus × EzcPid K :=
  reconfigure MAX self
    (fun next => { next with limitEnabled := true, outMin := outMin, outMax := outMax }) ctx

def ezcPidClearLimit (MAX : K) (self : Extent) (ctx : EzcPid K) : EzcStatus × EzcPid K :=
  reconfigure MAX self (fun next => { next with limitEnabled := false }) ctx

/-- The callback is not part of the tuning: nothing is rebuilt. -/
def ezcPidSetCallback (self : Extent) (callback userCtx : ℕ) (ctx : EzcPid K) :
    EzcStatus × EzcPid K :=
  if self.address = 0 then (.errInvalidArg, ctx)
  else (.ok, { ctx with cfg := { ctx.cfg with callback := callback, callbackCtx := userCtx } })

def ezcPidSetDerivativeSource (MAX : K) (self : Extent) (source : UInt32) (ctx : EzcPid K) :
    EzcStatus × EzcPid K :=
  reconfigure MAX self (fun next => { next with derivSource := source }) ctx

def ezcPidSetDerivativeFilter (MAX : K) (self : Extent) (derivFilterT : K) (ctx : EzcPid K) :
    EzcStatus × EzcPid K :=
  reconfigure MAX self (fun next => { next with derivFilterT := derivFilterT }) ctx

def ezcPidSetIntegralLimit (MAX : K) (self : Extent) (integralMin integralMax : K)
    (ctx : EzcPid K) : EzcStatus × EzcPid K :=
  reconfigure MAX self (fun next =>
    { next with
      integralMin := integralMin
      integralMax := integralMax
      options := next.options ||| fieldctrlPidOptIntegralLimit }) ctx

def ezcPidClearIntegralLimit (MAX : K) (self : Extent) (ctx : EzcPid K) : EzcStatus × EzcPid K :=
  reconfigure MAX self
    (fun next => { next with options := next.options &&& ~~~fieldctrlPidOptIntegralLimit }) ctx

def ezcPidSetIntegralSeparation (MAX : K) (self : Extent) (threshold : K) (ctx : EzcPid K) :
    EzcStatus × EzcPid K :=
  reconfigure MAX self (fun next =>
    { next with
      integralSeparation := threshold
      options := next.options ||| fieldctrlPidOptIntegralSeparation }) ctx

def ezcPidClearIntegralSeparation (MAX : K) (self : Extent) (ctx : EzcPid K) :
    EzcStatus × EzcPid K :=
  reconfigure MAX self
    (fun next => { next with options := next.options &&& ~~~fieldctrlPidOptIntegralSeparation }) ctx

def ezcPidSetSetpointWeight (MAX : K) (self : Extent) (weight : K) (ctx : EzcPid K) :
    EzcStatus × EzcPid K :=
  reconfigure MAX self (fun next =>
    { next with
      weightP := weight
      options := next.options ||| fieldctrlPidOptSetpointWeight }) ctx

/-! ## Reset and update -/

/-- `_reset`, which ignores the status of the inner reset. -/
def ezcPidReset (MAX : K) (self : Extent) (ctx : EzcPid K) : EzcPid K :=
  if self.address = 0 ∨ ¬ezcPidBuilt ctx then ctx
  else
    match Exact.pidReset MAX (ezcPidClampIntegral ctx.pid.config 0) ctx.pid with
    | .ok pid => { ctx with pid := pid }
    | .error _ => ctx

def ezcPidResetTo (MAX : K) (self : Extent) (integral : K) (ctx : EzcPid K) :
    EzcStatus × EzcPid K :=
  if self.address = 0 then (.errInvalidArg, ctx)
  else
    let result :=
      if ezcPidBuilt ctx then Exact.pidReset MAX integral ctx.pid
      else Exact.pidInit MAX (ezcPidMap MAX ctx.cfg) integral
    match result with
    | .ok pid => (.ok, { ctx with pid := pid })
    | .error _ => (.errInvalidArg, ctx)

/-- What a call leaves with its caller: the status, the value it returns or
writes through its pointer, and the result handed to the callback. -/
structure EzcAnswer (K : Type) where
  status : Option EzcStatus
  value : Option K
  notified : Option (ℕ × ℕ × EzcPidResult K)

def EzcAnswer.ofStatus (status : EzcStatus) : EzcAnswer K := ⟨some status, none, none⟩

/-- The result of a step, as the callback gets it. -/
def ezcPidNotification (cfg : EzcPidCfg K) (setpoint measure : K) (out : Exact.PidOutput K) :
    Option (ℕ × ℕ × EzcPidResult K) :=
  if cfg.callback = 0 then none
  else
    some (cfg.callback, cfg.callbackCtx,
      { output := out.output
        setpoint := setpoint
        measure := measure
        error := setpoint - measure
        pTerm := out.proportional
        iTerm := out.integral
        dTerm := out.derivative
        limited := out.saturated })

/-- The part of `_try_update` that finds the controller built.  The inner step
writes to a local, which never overlaps the controller. -/
def ezcPidStep (MAX setpoint measure dt : K) (ctx : EzcPid K) : EzcAnswer K × EzcPid K :=
  match Exact.pidStep MAX ctx.pid setpoint measure dt with
  | .error _ => (.ofStatus .errInvalidArg, ctx)
  | .ok (out, pid) =>
      (⟨some .ok, some out.output, ezcPidNotification ctx.cfg setpoint measure out⟩,
        { ctx with pid := pid, output := out.output })

/-- `_try_update`. -/
def ezcPidTryUpdate (MAX : K) (self output : Extent) (setpoint measure dt : K) (ctx : EzcPid K) :
    EzcAnswer K × EzcPid K :=
  if self.address = 0 ∨ output.address = 0 then (.ofStatus .errInvalidArg, ctx)
  else if ezcPidBuilt ctx then ezcPidStep MAX setpoint measure dt ctx
  else
    match ezcPidApply MAX ctx.cfg ctx with
    | (.errInvalidArg, ctx) => (.ofStatus .errInvalidArg, ctx)
    | (.ok, ctx) => ezcPidStep MAX setpoint measure dt ctx

/-- `_update`, whose local `output` is at some address. -/
def ezcPidUpdate (MAX : K) (self : Extent) (setpoint measure dt : K) (ctx : EzcPid K) :
    EzcAnswer K × EzcPid K :=
  if self.address = 0 then (⟨none, some 0, none⟩, ctx)
  else
    let (answer, ctx) := ezcPidTryUpdate MAX self ⟨1, 0⟩ setpoint measure dt ctx
    if answer.status = some .ok then (⟨none, answer.value, answer.notified⟩, ctx)
    else (⟨none, some ctx.output, none⟩, ctx)

/-! ## Runs -/

inductive EzcPidCall (K : Type) where
  | setGains (kp ki kd : K)
  | setLimit (outMin outMax : K)
  | clearLimit
  | setCallback (callback userCtx : ℕ)
  | setDerivativeSource (source : UInt32)
  | setDerivativeFilter (derivFilterT : K)
  | setIntegralLimit (integralMin integralMax : K)
  | clearIntegralLimit
  | setIntegralSeparation (threshold : K)
  | clearIntegralSeparation
  | setSetpointWeight (weight : K)
  | reset
  | resetTo (integral : K)
  | tryUpdate (output : Extent) (setpoint measure dt : K)
  | update (setpoint measure dt : K)

/-- A call that only returns a status. -/
def answered (result : EzcStatus × EzcPid K) : EzcAnswer K × EzcPid K :=
  (.ofStatus result.1, result.2)

/-- The adapter; a request is a context pointer and a call. -/
def ezcPidMachine (MAX : K) : Machine (Extent × EzcPidCall K) (EzcAnswer K) (EzcPid K) where
  react request ctx :=
    let self := request.1
    match request.2 with
    | .setGains kp ki kd => answered (ezcPidSetGains MAX self kp ki kd ctx)
    | .setLimit outMin outMax => answered (ezcPidSetLimit MAX self outMin outMax ctx)
    | .clearLimit => answered (ezcPidClearLimit MAX self ctx)
    | .setCallback callback userCtx => answered (ezcPidSetCallback self callback userCtx ctx)
    | .setDerivativeSource source => answered (ezcPidSetDerivativeSource MAX self source ctx)
    | .setDerivativeFilter t => answered (ezcPidSetDerivativeFilter MAX self t ctx)
    | .setIntegralLimit lo hi => answered (ezcPidSetIntegralLimit MAX self lo hi ctx)
    | .clearIntegralLimit => answered (ezcPidClearIntegralLimit MAX self ctx)
    | .setIntegralSeparation t => answered (ezcPidSetIntegralSeparation MAX self t ctx)
    | .clearIntegralSeparation => answered (ezcPidClearIntegralSeparation MAX self ctx)
    | .setSetpointWeight weight => answered (ezcPidSetSetpointWeight MAX self weight ctx)
    | .reset => (⟨none, none, none⟩, ezcPidReset MAX self ctx)
    | .resetTo integral => answered (ezcPidResetTo MAX self integral ctx)
    | .tryUpdate output setpoint measure dt =>
        ezcPidTryUpdate MAX self output setpoint measure dt ctx
    | .update setpoint measure dt => ezcPidUpdate MAX self setpoint measure dt ctx

end Xhive.Ezctrl
