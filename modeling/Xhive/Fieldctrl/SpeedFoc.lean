import Xhive.Fieldctrl.Foc
import Xhive.Fieldctrl.Pid

/-!
# The speed cascade

The Q instantiations of `speed_foc_init` and `speed_foc_step`: a PID on the
mechanical speed commands the q current of the current controller, and its
integral goes back when the inner loop saturates against the error.
-/

namespace Xhive.Fieldctrl

open Xhive.Support Xhive.Linears Xhive.Filters

structure SpeedFocConfig (Q : Type) where
  current : FocConfig Q
  kp : Int64
  ki : Int64
  currentLimit : Q
  polePairs : UInt32

/-- `fieldctrl_q_speed_foc_t`. -/
structure SpeedFoc (Q : Type) where
  current : Foc Q
  speed : Pid Q
  polePairs : UInt32

structure SpeedFocOutput (Q : Type) where
  current : FocOutput Q
  reference : Dq Q
  mechanicalSpeed : Q

variable {Q : Type} [FilterFormat Q]

/-- The speed loop is the generic PID without derivative or options. -/
def speedTuning (kp ki : Int64) (lower upper : Q) : PidConfig Q where
  kp := kp
  ki := ki
  kd := 0
  lower := lower
  upper := upper
  options := 0
  derivative := fieldctrlPidDerivativeOnError
  derivativeFilter := 0
  setpointWeight := 0
  integralLower := FilterFormat.zero
  integralUpper := FilterFormat.zero
  separation := FilterFormat.zero

def speedFocInit (self : Extent) (config : Option (SpeedFocConfig Q)) :
    Except Status (SpeedFoc Q) :=
  match config with
  | none => .error .errorArgument
  | some config =>
      let limit := FilterFormat.load config.currentLimit
      if self.address = 0 then .error .errorArgument
      else if config.polePairs = 0 then .error .errorDomain
      else if fcqCmp limit 0 ≤ 0 ∨ fcqCmp config.kp 0 < 0 ∨ fcqCmp config.ki 0 < 0 then
        .error .errorDomain
      else do
        let negative ← fcqNeg limit
        let lower : Q ← fcStore negative
        let initial : Q ← fcStore 0
        let current ← focInit self (some config.current)
        let speed ← pidInit self
          (some (speedTuning config.kp config.ki lower config.currentLimit)) initial
        .ok { current := current, speed := speed, polePairs := config.polePairs }

/-- The inputs of one sample. -/
structure SpeedFocInput (Q : Type) where
  current : Ab Q
  mechanicalReference : Q
  electricalSpeed : Q
  electricalAngle : Q
  dcBus : Q
  dt : Q

/-- The mechanical speed at working width and as stored, the speed error, and
the stored zero of the d reference. -/
structure SpeedFeedback (Q : Type) where
  mechanical : Int64
  error : Int64
  stored : Q
  referenceD : Q

def speedFeedback (polePairs : UInt32) (input : SpeedFocInput Q) :
    Except Status (SpeedFeedback Q) := do
  let pairs ← fcqI polePairs.toNat
  let mechanical ← fcqDiv (FilterFormat.load input.electricalSpeed) pairs
  let error ← fcqSub (FilterFormat.load input.mechanicalReference) mechanical
  let stored ← fcStore mechanical
  let zero ← fcqI 0
  let referenceD ← fcStore zero
  .ok ⟨mechanical, error, stored, referenceD⟩

/-- Whether the speed integral goes back: the q voltage that the inner loop
could not give and the speed error have one sign. -/
def speedHolds (error : Int64) (current : FocOutput Q) : Except Status Bool :=
  if current.saturated then do
    let residual ← fcqSub current.requestedVoltage.q (FilterFormat.load current.voltage.q)
    .ok ((fcqCmp error 0 > 0 ∧ fcqCmp residual 0 > 0) ∨
      (fcqCmp error 0 < 0 ∧ fcqCmp residual 0 < 0))
  else .ok false

/-- The sample that the inner loop gets from the cascade. -/
def SpeedFocInput.inner (input : SpeedFocInput Q) (reference : Dq Q) : FocInput Q where
  current := input.current
  reference := reference
  electricalAngle := input.electricalAngle
  dcBus := input.dcBus
  dt := input.dt

/-- `speed_foc_step`: both loops advance in local copies. -/
def speedFocStep (self output : Extent) (input : SpeedFocInput Q) (ctx : SpeedFoc Q) :
    Except Status (SpeedFocOutput Q × SpeedFoc Q) := do
  checkPointers self output
  let feedback ← speedFeedback ctx.polePairs input
  let (command, speed) ← pidStepWork ctx.speed (FilterFormat.load input.mechanicalReference)
    feedback.mechanical (FilterFormat.load input.dt)
  let reference : Dq Q := ⟨feedback.referenceD, command.output⟩
  let (result, current) ← focWork (input.inner reference) ctx.current
  let holds ← speedHolds feedback.error result
  .ok ({ current := result, reference := reference, mechanicalSpeed := feedback.stored },
    { current := current
      speed := if holds then { speed with integral := ctx.speed.integral } else speed
      polePairs := ctx.polePairs })

end Xhive.Fieldctrl
