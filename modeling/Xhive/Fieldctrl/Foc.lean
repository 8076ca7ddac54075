import Xhive.Fieldctrl.Transforms
import Xhive.Support.Traces

/-!
# The current controller

The Q instantiations of `foc_impl.h`: a pair of PI controllers in the rotor
frame under one radial voltage limit, whose integral increment is rejected when
it points out of a saturated request.
-/

namespace Xhive.Fieldctrl

open Xhive.Support Xhive.Linears Xhive.Filters

structure FocConfig (Q : Type) where
  kpD : Int64
  kiD : Int64
  kpQ : Int64
  kiQ : Int64
  voltageLimit : Q

structure Foc (Q : Type) where
  config : FocConfig Q
  integral : Dq Int64

structure FocOutput (Q : Type) where
  current : Dq Q
  requestedVoltage : Dq Int64
  voltage : Dq Q
  stationaryVoltage : Ab Q
  duty : Abc Q
  saturated : Bool

variable {Q : Type} [FilterFormat Q]

/-- The limited vector, and whether the limit acted. -/
def focRadialLimit (v : Dq Int64) (radius : Int64) : Except Status (Dq Int64 × Bool) := do
  let magnitude ← fcqHypot v.d v.q
  if fcqCmp magnitude radius > 0 then do
    let (d, q) ← rescaleOnto v.d v.q radius magnitude
    .ok (⟨d, q⟩, true)
  else .ok (v, false)

def focInit (self : Extent) (config : Option (FocConfig Q)) : Except Status (Foc Q) :=
  match config with
  | none => .error .errorArgument
  | some config =>
      if self.address = 0 then .error .errorArgument
      else if fcqCmp config.kpD 0 < 0 ∨ fcqCmp config.kiD 0 < 0 ∨ fcqCmp config.kpQ 0 < 0 ∨
          fcqCmp config.kiQ 0 < 0 ∨ fcqCmp (FilterFormat.load config.voltageLimit) 0 ≤ 0 then
        .error .errorDomain
      else .ok ⟨config, ⟨0, 0⟩⟩

/-- The inputs of one sample. -/
structure FocInput (Q : Type) where
  current : Ab Q
  reference : Dq Q
  electricalAngle : Q
  dcBus : Q
  dt : Q

def focChecks (input : FocInput Q) : Except Status Unit :=
  if fcqCmp (FilterFormat.load input.dt) 0 ≤ 0 ∨ fcqCmp (FilterFormat.load input.dcBus) 0 ≤ 0 ∨
      fcqCmp (FilterFormat.load input.electricalAngle) 0 < 0 ∨
      fcqCmp (FilterFormat.load input.electricalAngle) fixedOne ≥ 0 then
    .error .errorDomain
  else .ok ()

/-- `ki*dt*e` on one axis, rounded after each product. -/
def focIncrement (ki period error : Int64) : Except Status Int64 := do
  let gain ← fcqMul ki period
  fcqMul gain error

/-- The proportional term and the integral increment of a sample. -/
structure FocTerms where
  p : Dq Int64
  delta : Dq Int64

def focTerms (config : FocConfig Q) (period : Int64) (reference current : Dq Q) :
    Except Status FocTerms := do
  let errorD ← fcqSub (FilterFormat.load reference.d) (FilterFormat.load current.d)
  let errorQ ← fcqSub (FilterFormat.load reference.q) (FilterFormat.load current.q)
  let pD ← fcqMul config.kpD errorD
  let pQ ← fcqMul config.kpQ errorQ
  let deltaD ← focIncrement config.kiD period errorD
  let deltaQ ← focIncrement config.kiQ period errorQ
  .ok ⟨⟨pD, pQ⟩, ⟨deltaD, deltaQ⟩⟩

def addDq (v w : Dq Int64) : Except Status (Dq Int64) := do
  let d ← fcqAdd v.d w.d
  let q ← fcqAdd v.q w.q
  .ok ⟨d, q⟩

/-- The smaller of the configured limit and the bus radius. -/
def focRadius (config : FocConfig Q) (bus : Int64) : Except Status Int64 := do
  let radius := FilterFormat.load config.voltageLimit
  let three ← fcqI 3
  let root3 ← fcqSqrt three
  let busRadius ← fcqDiv bus root3
  .ok (if fcqCmp busRadius radius < 0 then busRadius else radius)

/-- Whether an increment points out of the request: the sign of the exact F62
product sum, which a product rounded to F31 would lose. -/
def focOutward (delta raw : Dq Int64) : Except Status Bool := do
  let projection ← checked (linearsFixedMac (some ⟨0, 0⟩) delta.d raw.d)
  let projection ← checked (linearsFixedMac (some projection) delta.q raw.q)
  .ok (projection.high >>> 63 = 0 ∧ (projection.high ≠ 0 ∨ projection.low ≠ 0))

/-- What the two PI controllers decide: the integral to keep, the request, its
limited form and the saturation flag. -/
structure FocDecision where
  integral : Dq Int64
  raw : Dq Int64
  limited : Dq Int64
  saturated : Bool

/-- A saturated request rejects an outward increment and is computed again from
the old integral. -/
def focDecide (terms : FocTerms) (old candidate raw : Dq Int64) (radius : Int64) :
    Except Status FocDecision := do
  let (limited, saturated) ← focRadialLimit raw radius
  if saturated then do
    let outward ← focOutward terms.delta raw
    if outward then do
      let raw ← addDq terms.p old
      let (limited, saturated) ← focRadialLimit raw radius
      .ok ⟨old, raw, limited, saturated⟩
    else .ok ⟨candidate, raw, limited, saturated⟩
  else .ok ⟨candidate, raw, limited, saturated⟩

def focStep (self output : Extent) (input : FocInput Q) (ctx : Foc Q) :
    Except Status (FocOutput Q × Foc Q) := do
  checkPointers self output
  focChecks input
  let current ← park input.current input.electricalAngle
  let terms ← focTerms ctx.config (FilterFormat.load input.dt) input.reference current
  let candidate ← addDq ctx.integral terms.delta
  let raw ← addDq terms.p candidate
  let radius ← focRadius ctx.config (FilterFormat.load input.dcBus)
  let decision ← focDecide terms ctx.integral candidate raw radius
  let d ← fcStore decision.limited.d
  let q ← fcStore decision.limited.q
  let stationary ← inversePark ⟨d, q⟩ input.electricalAngle
  let duty ← svpwm stationary input.dcBus
  .ok ({ current := current
         requestedVoltage := decision.raw
         voltage := ⟨d, q⟩
         stationaryVoltage := stationary
         duty := duty
         saturated := decision.saturated },
    { ctx with integral := decision.integral })

/-- A step of a context and a result that the caller owns. -/
def focWork (input : FocInput Q) (ctx : Foc Q) : Except Status (FocOutput Q × Foc Q) := do
  focChecks input
  let current ← park input.current input.electricalAngle
  let terms ← focTerms ctx.config (FilterFormat.load input.dt) input.reference current
  let candidate ← addDq ctx.integral terms.delta
  let raw ← addDq terms.p candidate
  let radius ← focRadius ctx.config (FilterFormat.load input.dcBus)
  let decision ← focDecide terms ctx.integral candidate raw radius
  let d ← fcStore decision.limited.d
  let q ← fcStore decision.limited.q
  let stationary ← inversePark ⟨d, q⟩ input.electricalAngle
  let duty ← svpwm stationary input.dcBus
  .ok ({ current := current
         requestedVoltage := decision.raw
         voltage := ⟨d, q⟩
         stationaryVoltage := stationary
         duty := duty
         saturated := decision.saturated },
    { ctx with integral := decision.integral })

theorem focStep_eq_focWork (self output : Extent) (input : FocInput Q) (ctx : Foc Q) :
    focStep self output input ctx =
      (do
        checkPointers self output
        focWork input ctx) := rfl

/-! ## Runs -/

inductive FocCall (Q : Type) where
  | init (config : Option (FocConfig Q))
  | step (output : Extent) (input : FocInput Q)

/-- The controller in a context at `self`; a failing call leaves it alone. -/
def focMachine (Q : Type) [FilterFormat Q] (self : Extent) :
    Machine (FocCall Q) (Except Status (Option (FocOutput Q))) (Foc Q) where
  react call ctx :=
    match call with
    | .init config =>
        match focInit self config with
        | .ok next => (.ok none, next)
        | .error status => (.error status, ctx)
    | .step output input =>
        match focStep self output input ctx with
        | .ok (result, next) => (.ok (some result), next)
        | .error status => (.error status, ctx)

end Xhive.Fieldctrl
