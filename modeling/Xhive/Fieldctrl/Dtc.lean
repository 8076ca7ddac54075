import Xhive.Fieldctrl.Transforms

/-!
# Direct torque control

The Q instantiations of `dtc_impl.h`, with the switching table of `dtc.c`: the
stator flux is integrated from the applied voltage, two hysteresis comparators
decide whether flux and torque should grow or shrink, and the table gives the
inverter state for the sector of the flux.
-/

namespace Xhive.Fieldctrl

open Xhive.Support Xhive.Linears Xhive.Filters

/-! ## Switching table -/

/-- `dtc_active_table`: flux decrease or increase, torque decrease or increase,
sector `1` to `6`. -/
def dtcActiveTable : Array (Array (Array UInt8)) :=
  #[#[#[1, 5, 4, 6, 2, 3], #[2, 3, 1, 5, 4, 6]],
    #[#[5, 4, 6, 2, 3, 1], #[6, 2, 3, 1, 5, 4]]]

/-- The table entry for the two comparator states. -/
def dtcActiveState (fluxState torqueState : Int8) (sector : UInt8) : UInt8 :=
  ((dtcActiveTable.getD (if fluxState > 0 then 1 else 0) #[]).getD
    (if torqueState > 0 then 1 else 0) #[]).getD (sector.toNat - 1) 0

/-- A zero state is kept, and an active one goes to the nearer of the two. -/
def dtcZeroState (previous : UInt8) : UInt8 :=
  let ones : UInt8 :=
    (previous &&& (1 : UInt8)) + (previous >>> 1 &&& (1 : UInt8)) +
      (previous >>> 2 &&& (1 : UInt8))
  if ones ≥ 2 then 7 else 0

/-! ## Sectors -/

/-- The value a helper returns: zero once the status has latched a failure. -/
def latched : Except Status Int64 → Int64
  | .ok x => x
  | .error _ => 0

/-- `1/sqrt(3)`. -/
def dtcThreshold : Except Status Int64 := do
  let three ← fcqI 3
  let root3 ← fcqSqrt three
  let one ← fcqI 1
  fcqDiv one root3

/-- The comparison of the slope with `1/sqrt(3)`, and the status it leaves. -/
def dtcSlopeCompare (absAlpha absBeta : Except Status Int64) : ℤ × Except Status Unit :=
  if fcqCmp (latched absBeta) (latched absAlpha) ≥ 0 then (1, absBeta.map fun _ => ())
  else
    let slope := do
      let b ← absBeta
      let a ← absAlpha
      fcqDiv b a
    let threshold := do
      let _ ← slope
      dtcThreshold
    (fcqCmp (latched slope) (latched threshold), threshold.map fun _ => ())

/-- The sector from the signs of the coordinates and the slope comparison. -/
def dtcQuadrant (sx sy slopeCompare : ℤ) : UInt8 :=
  if sx > 0 then
    if sy > 0 then if slopeCompare < 0 then 1 else 2
    else if slopeCompare > 0 then 6 else 1
  else if sy > 0 then if slopeCompare > 0 then 3 else 4
  else if slopeCompare < 0 then 4 else 5

/-- `dtc_sector`, with the status it leaves when it finds none latched: sectors
are `[center-1/12, center+1/12)` of a turn. -/
def dtcSector (alpha beta : Int64) : UInt8 × Except Status Unit :=
  let sx := fcqCmp alpha 0
  let sy := fcqCmp beta 0
  if sy = 0 then (if sx > 0 then 1 else 4, .ok ())
  else if sx = 0 then (if sy > 0 then 3 else 6, .ok ())
  else
    let absAlpha := fcqAbs alpha
    let absBeta := do
      let _ ← absAlpha
      fcqAbs beta
    let slopeCompare := dtcSlopeCompare absAlpha absBeta
    (dtcQuadrant sx sy slopeCompare.1, slopeCompare.2)

/-! ## The controller -/

structure DtcConfig (Q : Type) where
  resistance : Q
  fluxBand : Q
  torqueBand : Q
  polePairs : UInt16

/-- `fieldctrl_q_dtc_t`. -/
structure Dtc (Q : Type) where
  config : DtcConfig Q
  fluxAlpha : Int64
  fluxBeta : Int64
  fluxState : Int8
  torqueState : Int8
  lastSwitch : UInt8

structure DtcResult (Q : Type) where
  statorFlux : Ab Q
  fluxMagnitude : Q
  torque : Q
  sector : UInt8
  switchState : UInt8
  fluxState : Int8
  torqueState : Int8

variable {Q : Type} [FilterFormat Q]

def dtcInit (self : Extent) (config : DtcConfig Q) (initialFlux : Ab Q) : Except Status (Dtc Q) :=
  let alpha := FilterFormat.load initialFlux.alpha
  let beta := FilterFormat.load initialFlux.beta
  if self.address = 0 then .error .errorArgument
  else if config.polePairs = 0 ∨ fcqCmp (FilterFormat.load config.resistance) 0 < 0 ∨
      fcqCmp (FilterFormat.load config.fluxBand) 0 ≤ 0 ∨
      fcqCmp (FilterFormat.load config.torqueBand) 0 ≤ 0 then
    .error .errorArgument
  else if fcqCmp alpha 0 = 0 ∧ fcqCmp beta 0 = 0 then .error .errorDomain
  else
    .ok { config := config, fluxAlpha := alpha, fluxBeta := beta, fluxState := 1,
          torqueState := 0, lastSwitch := 0 }

/-- The inputs of one sample. -/
structure DtcInput (Q : Type) where
  current : Ab Q
  appliedVoltage : Ab Q
  fluxReference : Q
  torqueReference : Q
  dt : Q

/-- One axis of the flux after `interval` under voltage `v` and current `i`. -/
def dtcIntegrate (r interval flux v i : Int64) : Except Status Int64 := do
  let drop ← fcqMul r i
  let net ← fcqSub v drop
  let delta ← fcqMul interval net
  fcqAdd flux delta

/-- `3/2*p*(alpha*ib - beta*ia)`. -/
def dtcTorque (polePairs : UInt16) (alpha beta ia ib : Int64) : Except Status Int64 := do
  let crossA ← fcqMul alpha ib
  let crossB ← fcqMul beta ia
  let torque ← fcqSub crossA crossB
  let three ← fcqI 3
  let two ← fcqI 2
  let ratio ← fcqDiv three two
  let pairs ← fcqI polePairs.toNat
  let gain ← fcqMul ratio pairs
  fcqMul gain torque

/-- The two-level flux comparator. -/
def dtcFluxState (old : Int8) (error band negativeBand : Int64) : Int8 :=
  if fcqCmp error band ≥ 0 then 1
  else if fcqCmp error negativeBand ≤ 0 then -1
  else old

/-- The three-level torque comparator. -/
def dtcTorqueState (old : Int8) (error band negativeBand : Int64) : Int8 :=
  if fcqCmp error band ≥ 0 then 1
  else if fcqCmp error negativeBand ≤ 0 then -1
  else if old = 1 ∧ fcqCmp error 0 > 0 then 1
  else if old = -1 ∧ fcqCmp error 0 < 0 then -1
  else 0

/-- The flux of a sample at working width, beside its result. -/
structure DtcSample (Q : Type) where
  alpha : Int64
  beta : Int64
  result : DtcResult Q

/-- What a step computes in its locals. -/
def dtcWork (input : DtcInput Q) (ctx : Dtc Q) : Except Status (DtcSample Q) := do
  let r := FilterFormat.load ctx.config.resistance
  let fb := FilterFormat.load ctx.config.fluxBand
  let tb := FilterFormat.load ctx.config.torqueBand
  let fluxRef := FilterFormat.load input.fluxReference
  let interval := FilterFormat.load input.dt
  let ia := FilterFormat.load input.current.alpha
  let ib := FilterFormat.load input.current.beta
  if fcqCmp fluxRef fb ≤ 0 ∨ fcqCmp interval 0 ≤ 0 then throw .errorArgument
  let alpha ← dtcIntegrate r interval ctx.fluxAlpha
    (FilterFormat.load input.appliedVoltage.alpha) ia
  let beta ← dtcIntegrate r interval ctx.fluxBeta
    (FilterFormat.load input.appliedVoltage.beta) ib
  if fcqCmp alpha 0 = 0 ∧ fcqCmp beta 0 = 0 then throw .errorDomain
  let magnitude ← fcqHypot alpha beta
  let torque ← dtcTorque ctx.config.polePairs alpha beta ia ib
  let fluxError ← fcqSub fluxRef magnitude
  let torqueError ← fcqSub (FilterFormat.load input.torqueReference) torque
  let negativeBand ← fcqNeg fb
  let fluxState := dtcFluxState ctx.fluxState fluxError fb negativeBand
  let negativeBand ← fcqNeg tb
  let torqueState := dtcTorqueState ctx.torqueState torqueError tb negativeBand
  let (sector, status) := dtcSector alpha beta
  let () ← status
  let switchState :=
    if torqueState = 0 then dtcZeroState ctx.lastSwitch
    else dtcActiveState fluxState torqueState sector
  let storedAlpha ← fcStore alpha
  let storedBeta ← fcStore beta
  let storedMagnitude ← fcStore magnitude
  let storedTorque ← fcStore torque
  .ok ⟨alpha, beta,
    { statorFlux := ⟨storedAlpha, storedBeta⟩
      fluxMagnitude := storedMagnitude
      torque := storedTorque
      sector := sector
      switchState := switchState
      fluxState := fluxState
      torqueState := torqueState }⟩

end Xhive.Fieldctrl
