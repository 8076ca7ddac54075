import Xhive.Fieldctrl.Transforms
import Xhive.Filters.Smoothing

/-!
# The sliding-mode observer

The Q instantiations of `smo_impl.h`: a current predictor driven by a saturated
error, the injection low-passed into an EMF estimate, and a phase loop that
takes angle and speed from the EMF while it is strong enough.
-/

namespace Xhive.Fieldctrl

open Xhive.Support Xhive.Linears Xhive.Filters

/-- `FIELDCTRL_SMO_FORWARD`; the field holds any enumeration value. -/
def fieldctrlSmoForward : Int32 := 1

def fieldctrlSmoReverse : Int32 := -1

structure SmoConfig (Q : Type) where
  resistance : Q
  inductance : Q
  dt : Q
  slidingGain : Q
  boundary : Q
  emfAlpha : Q
  speedAlpha : Q
  minEmf : Q
  minSpeed : Q
  maxSpeed : Q
  lockSamples : UInt32
  direction : Int32

/-- `fieldctrl_q_smo_t`.  The filters are Q31 contexts in both variants. -/
structure Smo (Q : Type) where
  config : SmoConfig Q
  currentHat : Ab Int64
  emfAlphaFilter : EmaContext Int32
  emfBetaFilter : EmaContext Int32
  speedFilter : EmaContext Int32
  previousAngle : Int64
  angle : Int64
  lockCount : UInt32
  hasAngle : Bool

structure SmoOutput (Q : Type) where
  currentHat : Ab Q
  emf : Ab Q
  electricalAngle : Q
  electricalSpeed : Int64
  observable : Bool
  locked : Bool

/-! ## The low-pass filters -/

/-- A filter inside the context, whose address is never NULL. -/
def smoFilterExtent : Extent := ⟨1, 0⟩

def smoLowpassInit (alpha initial : Int64) : Except Status (EmaContext Int32) := do
  let a : Int32 ← fcStore alpha
  let value : Int32 ← fcStore initial
  emaInit smoFilterExtent a value

def smoLowpassReset (ctx : EmaContext Int32) (initial : Int64) :
    Except Status (EmaContext Int32) := do
  let value : Int32 ← fcStore initial
  emaReset smoFilterExtent value ctx

def smoLowpassStep (ctx : EmaContext Int32) (input : Int64) :
    Except Status (EmaContext Int32) := do
  let value ← checked (filtersEmaWorkStep (some ctx.value) ctx.alpha input)
  .ok { ctx with value := value }

/-! ## Initialisation -/

variable {Q : Type} [FilterFormat Q]

/-- The signs and ranges of a tuning. -/
def smoChecks (config : SmoConfig Q) : Except Status Unit := do
  let one ← fcqI 1
  if fcqCmp (FilterFormat.load config.resistance) 0 < 0 ∨
      fcqCmp (FilterFormat.load config.inductance) 0 ≤ 0 ∨
      fcqCmp (FilterFormat.load config.dt) 0 ≤ 0 ∨
      fcqCmp (FilterFormat.load config.slidingGain) 0 ≤ 0 ∨
      fcqCmp (FilterFormat.load config.boundary) 0 ≤ 0 ∨
      fcqCmp (FilterFormat.load config.emfAlpha) 0 ≤ 0 ∨
      fcqCmp (FilterFormat.load config.emfAlpha) one > 0 ∨
      fcqCmp (FilterFormat.load config.speedAlpha) 0 ≤ 0 ∨
      fcqCmp (FilterFormat.load config.speedAlpha) one > 0 ∨
      fcqCmp (FilterFormat.load config.minEmf) 0 ≤ 0 ∨
      fcqCmp (FilterFormat.load config.minSpeed) 0 ≤ 0 ∨
      fcqCmp (FilterFormat.load config.maxSpeed) (FilterFormat.load config.minSpeed) ≤ 0 then
    throw .errorDomain

/-- The stability of the Euler predictor and the alias bound. -/
def smoStability (config : SmoConfig Q) : Except Status Unit := do
  let period := FilterFormat.load config.dt
  let slope ← fcqDiv (FilterFormat.load config.slidingGain) (FilterFormat.load config.boundary)
  let sum ← fcqAdd (FilterFormat.load config.resistance) slope
  let rate ← fcqDiv sum (FilterFormat.load config.inductance)
  let factor ← fcqMul period rate
  let sampleAngle ← fcqMul (FilterFormat.load config.maxSpeed) period
  let two ← fcqI 2
  let one ← fcqI 1
  let four ← fcqI 4
  let quarter ← fcqDiv one four
  if fcqCmp factor two ≥ 0 ∨ fcqCmp sampleAngle quarter ≥ 0 then throw .errorDomain

def smoInit (self : Extent) (config : Option (SmoConfig Q)) (initialCurrent : Ab Q) :
    Except Status (Smo Q) :=
  match config with
  | none => .error .errorArgument
  | some config =>
      if self.address = 0 then .error .errorArgument
      else if config.lockSamples = 0 ∨
          (config.direction ≠ fieldctrlSmoForward ∧ config.direction ≠ fieldctrlSmoReverse) then
        .error .errorDomain
      else do
        smoChecks config
        smoStability config
        let emfAlphaFilter ← smoLowpassInit (FilterFormat.load config.emfAlpha) 0
        let emfBetaFilter ← smoLowpassInit (FilterFormat.load config.emfAlpha) 0
        let speedFilter ← smoLowpassInit (FilterFormat.load config.speedAlpha) 0
        .ok { config := config
              currentHat := ⟨FilterFormat.load initialCurrent.alpha,
                FilterFormat.load initialCurrent.beta⟩
              emfAlphaFilter := emfAlphaFilter
              emfBetaFilter := emfBetaFilter
              speedFilter := speedFilter
              previousAngle := 0
              angle := 0
              lockCount := 0
              hasAngle := false }

/-! ## One sample -/

/-- The error in units of the boundary, within `[-1, 1]`; it saturates before
it divides. -/
def smoSaturate (error boundary negativeBoundary : Int64) : Except Status Int64 :=
  if fcqCmp error boundary ≥ 0 then fcqI 1
  else if fcqCmp error negativeBoundary ≤ 0 then fcqI (-1)
  else fcqDiv error boundary

/-- One axis of the current predictor. -/
def smoPredict (step resistance hat v z : Int64) : Except Status Int64 := do
  let drop ← fcqMul resistance hat
  let derivative ← fcqSub v drop
  let derivative ← fcqSub derivative z
  let change ← fcqMul step derivative
  fcqAdd hat change

/-- The current errors of a sample. -/
def smoErrors (ctx : Smo Q) (current : Ab Q) : Except Status (Ab Int64) := do
  let errorA ← fcqSub ctx.currentHat.alpha (FilterFormat.load current.alpha)
  let errorB ← fcqSub ctx.currentHat.beta (FilterFormat.load current.beta)
  .ok ⟨errorA, errorB⟩

/-- The injections `za` and `zb`. -/
def smoInjections (config : SmoConfig Q) (errors : Ab Int64) : Except Status (Ab Int64) := do
  let boundary := FilterFormat.load config.boundary
  let gain := FilterFormat.load config.slidingGain
  let negativeBoundary ← fcqNeg boundary
  let satA ← smoSaturate errors.alpha boundary negativeBoundary
  let satB ← smoSaturate errors.beta boundary negativeBoundary
  let za ← fcqMul gain satA
  let zb ← fcqMul gain satB
  .ok ⟨za, zb⟩

/-- The predicted current of the next sample. -/
def smoCurrent (config : SmoConfig Q) (hat : Ab Int64) (voltage : Ab Q) (z : Ab Int64) :
    Except Status (Ab Int64) := do
  let resistance := FilterFormat.load config.resistance
  let step ← fcqDiv (FilterFormat.load config.dt) (FilterFormat.load config.inductance)
  let alpha ← smoPredict step resistance hat.alpha (FilterFormat.load voltage.alpha) z.alpha
  let beta ← smoPredict step resistance hat.beta (FilterFormat.load voltage.beta) z.beta
  .ok ⟨alpha, beta⟩

/-- The angle of the EMF, which leads or lags the flux by the direction. -/
def smoRawAngle (direction : Int32) (ea eb : Int64) : Except Status Int64 :=
  if direction = fieldctrlSmoForward then do
    let y ← fcqNeg ea
    fcqAtan2 y eb
  else do
    let x ← fcqNeg eb
    fcqAtan2 ea x

/-- The angle travelled since the last sample, taken into half a turn. -/
def smoDifference (rawAngle previous : Int64) : Except Status Int64 := do
  let one ← fcqI 1
  let two ← fcqI 2
  let negativeOne ← fcqI (-1)
  let difference ← fcqSub rawAngle previous
  let half ← fcqDiv one two
  let difference ← if fcqCmp difference half > 0 then fcqSub difference one else .ok difference
  let negativeHalf ← fcqDiv negativeOne two
  if fcqCmp difference negativeHalf < 0 then fcqAdd difference one else .ok difference

/-- The raw and the filtered speed; both are zero without a previous angle. -/
structure SmoSpeed where
  raw : Int64
  filtered : Int64
  filter : EmaContext Int32

def smoSpeed (ctx : Smo Q) (rawAngle : Int64) : Except Status SmoSpeed :=
  if ctx.hasAngle then do
    let difference ← smoDifference rawAngle ctx.previousAngle
    let raw ← fcqDiv difference (FilterFormat.load ctx.config.dt)
    let filter ← smoLowpassStep ctx.speedFilter raw
    .ok ⟨raw, filter.value, filter⟩
  else .ok ⟨0, 0, ctx.speedFilter⟩

/-- The phase lag of the EMF filter at the measured frequency. -/
def smoPhase (config : SmoConfig Q) (speed : Int64) : Except Status Int64 := do
  let one ← fcqI 1
  let alpha := FilterFormat.load config.emfAlpha
  let step ← fcqMul speed (FilterFormat.load config.dt)
  let (sine, cosine) ← fcqSincos step
  let rho ← fcqSub one alpha
  let numerator ← fcqMul rho sine
  let versine ← fcqSub one cosine
  let lag ← fcqMul rho versine
  let denominator ← fcqAdd alpha lag
  fcqAtan2 numerator denominator

/-- Both current errors lie inside the sliding region. -/
def smoSliding (boundary : Int64) (errors : Ab Int64) : Except Status Bool := do
  let a ← fcqAbs errors.alpha
  if fcqCmp a boundary ≤ 0 then do
    let b ← fcqAbs errors.beta
    .ok (fcqCmp b boundary ≤ 0)
  else .ok false

/-- The speeds agree with the direction. -/
def smoDirectionOk (direction : Int32) (speed : SmoSpeed) : Bool :=
  if direction = fieldctrlSmoForward then fcqCmp speed.raw 0 > 0 ∧ fcqCmp speed.filtered 0 > 0
  else fcqCmp speed.raw 0 < 0 ∧ fcqCmp speed.filtered 0 < 0

def smoObservable (ctx : Smo Q) (speed : SmoSpeed) (errors : Ab Int64) : Except Status Bool := do
  let minSpeed := FilterFormat.load ctx.config.minSpeed
  let maxSpeed := FilterFormat.load ctx.config.maxSpeed
  let rawMagnitude ← fcqAbs speed.raw
  let speedMagnitude ← fcqAbs speed.filtered
  if ctx.hasAngle ∧ smoDirectionOk ctx.config.direction speed ∧
      fcqCmp rawMagnitude minSpeed ≥ 0 ∧ fcqCmp rawMagnitude maxSpeed ≤ 0 ∧
      fcqCmp speedMagnitude minSpeed ≥ 0 ∧ fcqCmp speedMagnitude maxSpeed ≤ 0 then
    smoSliding (FilterFormat.load ctx.config.boundary) errors
  else .ok false

/-- What the phase loop decides in a sample. -/
structure SmoTrack where
  speed : Int64
  speedFilter : EmaContext Int32
  previousAngle : Int64
  angle : Int64
  hasAngle : Bool
  observable : Bool

/-- A lost EMF drops the angle, since a difference against a stale one would
look like a speed spike. -/
def smoLost (ctx : Smo Q) : Except Status SmoTrack := do
  let filter ← smoLowpassReset ctx.speedFilter 0
  .ok { speed := 0, speedFilter := filter, previousAngle := ctx.previousAngle, angle := ctx.angle,
        hasAngle := false, observable := false }

def smoFound (ctx : Smo Q) (ea eb : Int64) (errors : Ab Int64) : Except Status SmoTrack := do
  let rawAngle ← smoRawAngle ctx.config.direction ea eb
  let speed ← smoSpeed ctx rawAngle
  let phase ← smoPhase ctx.config speed.filtered
  let sum ← fcqAdd rawAngle phase
  let observable ← smoObservable ctx speed errors
  .ok { speed := speed.filtered, speedFilter := speed.filter, previousAngle := rawAngle,
        angle := fcqWrap sum, hasAngle := true, observable := observable }

def smoTrack (ctx : Smo Q) (ea eb : Int64) (errors : Ab Int64) : Except Status SmoTrack := do
  let magnitude ← fcqHypot ea eb
  if fcqCmp magnitude (FilterFormat.load ctx.config.minEmf) < 0 then smoLost ctx
  else smoFound ctx ea eb errors

def smoLockCount (config : SmoConfig Q) (count : UInt32) (observable : Bool) : UInt32 :=
  if observable then if count < config.lockSamples then count + 1 else count else 0

def smoStep (self output : Extent) (current voltage : Ab Q) (ctx : Smo Q) :
    Except Status (SmoOutput Q × Smo Q) := do
  checkPointers self output
  let errors ← smoErrors ctx current
  let z ← smoInjections ctx.config errors
  let hat ← smoCurrent ctx.config ctx.currentHat voltage z
  let emfAlphaFilter ← smoLowpassStep ctx.emfAlphaFilter z.alpha
  let emfBetaFilter ← smoLowpassStep ctx.emfBetaFilter z.beta
  let track ← smoTrack ctx emfAlphaFilter.value emfBetaFilter.value errors
  let lockCount := smoLockCount ctx.config ctx.lockCount track.observable
  let hatAlpha ← fcStore hat.alpha
  let hatBeta ← fcStore hat.beta
  let ea ← fcStore emfAlphaFilter.value
  let eb ← fcStore emfBetaFilter.value
  let stored ← fcAngleStore track.angle
  .ok ({ currentHat := ⟨hatAlpha, hatBeta⟩
         emf := ⟨ea, eb⟩
         electricalAngle := stored
         electricalSpeed := track.speed
         observable := track.observable
         locked := lockCount = ctx.config.lockSamples },
    { config := ctx.config
      currentHat := hat
      emfAlphaFilter := emfAlphaFilter
      emfBetaFilter := emfBetaFilter
      speedFilter := track.speedFilter
      previousAngle := track.previousAngle
      angle := track.angle
      lockCount := lockCount
      hasAngle := track.hasAngle })

end Xhive.Fieldctrl
