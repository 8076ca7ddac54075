import Xhive.Shrtim.Pwm

/-!
# Fault channels, interrupts and the life cycle of the HAL

`shrtim_fault_config`, `_attach` and `_reset`, the interrupt entries and
`shrtim_irq_enable`, `shrtim_init` and `shrtim_deinit`.  An interrupt entry is
given turn by turn: between two turns of its loop a callback, or the hardware,
may act on the state.
-/

namespace Xhive.Shrtim

open Xhive.Support

/-! ## Fault channels -/

/-- `shrtim_fault_out_t`. -/
inductive FaultOut
  | none | active | inactive | highZ
  deriving DecidableEq

def faultStateEncode : FaultOut → FaultState
  | .active => .active
  | .inactive => .inactive
  | .highZ => .highZ
  | .none => .noAction

/-- The code of a valid `shrtim_fault_out_t`. -/
def faultOutOf : ℕ → Option FaultOut
  | 0 => some .none
  | 1 => some .active
  | 2 => some .inactive
  | 3 => some .highZ
  | _ => Option.none

/-- `shrtim_fault_config`: the filter bound and the latch request; channel,
polarity and filter registers are read by no other call. -/
def shrtimFaultConfig (fault filter : ℕ) (latch : Bool) : Procedure Rc Hal Unit := do
  .attempt (reject (fault < 1 ∨ 6 < fault ∨ 15 < filter) .errParam)
  .write fun s => { s with faultLatch := Function.update s.faultLatch (fault - 1) latch }

/-- The attached channels that `mask` leaves out, and the ones it adds. -/
def faultsRemoved (attached mask : ℕ) (f : ℕ) : Bool :=
  f < 6 && attached.testBit f && !mask.testBit f

def faultsAdded (attached mask : ℕ) (f : ℕ) : Bool :=
  f < 6 && mask.testBit f && !attached.testBit f

/-- The writes of `shrtim_fault_attach`. -/
def faultAttachApply (unit mask : ℕ) (out1 out2 : FaultOut) (s : Hal) : Hal :=
  let s := s
    |> outSetFaultState (outOf unit 0) (faultStateEncode out1)
    |> outSetFaultState (outOf unit 1) (faultStateEncode out2)
    |> timDisableFault unit (faultsRemoved (s.faultAttached unit) mask)
    |> timEnableFault unit (faultsAdded (s.faultAttached unit) mask)
  { s with faultAttached := Function.update s.faultAttached unit mask }

/-- The argument checks of `shrtim_fault_attach`. -/
def faultAttachChecks (unit mask out1 out2 : ℕ) : Except Rc (FaultOut × FaultOut) :=
  if halUnits ≤ unit ∨ 0x3F < mask then
    .error .errParam
  else
    match faultOutOf out1, faultOutOf out2 with
    | some o1, some o2 => .ok (o1, o2)
    | _, _ => .error .errParam

def shrtimFaultAttach (unit mask out1 out2 : ℕ) : Procedure Rc Hal Unit := do
  let (o1, o2) ← .attempt (faultAttachChecks unit mask out1 out2)
  .write (faultAttachApply unit mask o1 o2)

/-- Another channel attached to the unit has its flag set. -/
def faultBusy (unit f : ℕ) (s : Hal) : Bool :=
  (List.range 6).any fun k => k ≠ f && (s.faultAttached unit).testBit k && s.faultFlag k

/-- One turn of the loop of `shrtim_fault_reset` over the units. -/
def faultResetUnit (f u : ℕ) (s : Hal) : Hal :=
  if (s.faultAttached u).testBit f = false then s
  else if faultBusy u f s then s
  else if (s.units u).configured then
    enableOutputs u (s.units u).outWanted s
  else s

def shrtimFaultReset (fault : ℕ) (s : Hal) : Hal :=
  if fault < 1 ∨ 6 < fault then
    s
  else
    let f := fault - 1
    let s := if s.faultLatch f then clearFlagFalt f s else s
    foldRange 0 halUnits s (faultResetUnit f)

/-! ## Interrupt entries -/

/-- `s_t_evt` and `s_m_evt`, the scan order of a unit and of the master. -/
def scanEvents (tmr : ℕ) : List Evt :=
  if tmr = unitMaster then
    [.update, .rept, .cmp1, .cmp2, .cmp3, .cmp4, .mstSync]
  else
    [.update, .rept, .cmp1, .cmp2, .cmp3, .cmp4, .cpt1, .cpt2, .rstro]

/-- The event of position `i` of the scan. -/
def scanEvent (tmr i : ℕ) : Evt := (scanEvents tmr).getD i .update

/-- `iden &= ~b`, `iden |= b`. -/
def setIden (tmr : ℕ) (evt : Evt) (enable : Bool) (s : Hal) : Hal :=
  { s with iden := Function.update s.iden tmr (Function.update (s.iden tmr) evt enable) }

/-- The guard of `isr_pass` after the clear of entry `i`, where the status
register reads `still`. -/
def stormGuard (tmr i : ℕ) (still : Bool) (s : Hal) : Hal :=
  if still then
    if 1000 ≤ s.storm tmr i + 1 then
      let s := setIden tmr (scanEvent tmr i) false s
      { s with stormDeg := Function.update s.stormDeg tmr (Function.update (s.stormDeg tmr) i true) }
    else
      { s with
        storm := Function.update s.storm tmr (Function.update (s.storm tmr) i (s.storm tmr i + 1)) }
  else
    { s with storm := Function.update s.storm tmr (Function.update (s.storm tmr) i 0) }

/-- The local variables of a running `isr_pass`: what it read of the enable
and status registers, and the entry its loop is at. -/
structure Pass where
  enable : ℕ → Bool
  active : ℕ → Bool
  next : ℕ

/-- Entry `i` is enabled and active in what the pass has read. -/
def Pass.serves (p : Pass) (i : ℕ) : Bool := p.enable i && p.active i

/-- The reads at the beginning of `isr_pass`. -/
def Pass.enter (tmr : ℕ) (active : ℕ → Bool) (s : Hal) : Pass :=
  ⟨fun i => s.iden tmr (scanEvent tmr i), active, 0⟩

/-- `isr_pass`, where `callback i` is what the callback of entry `i` does and
`still i` the flag read after its clear. -/
def isrPass (tmr : ℕ) (active still : ℕ → Bool) (callback : ℕ → Hal → Hal) (s : Hal) : Hal :=
  let p := Pass.enter tmr active s
  foldRange 0 (scanEvents tmr).length s fun i s =>
    if p.serves i then callback i (stormGuard tmr i (still i) s) else s

/-- The local variables of a running `shrtim_isr_fault`.  Entry `6` is the
system fault. -/
structure FaultPass where
  enable : ℕ → Bool
  sysEnable : Bool
  next : ℕ

def FaultPass.enter (s : Hal) : FaultPass := ⟨s.faultIt, s.sysFaultIt, 0⟩

/-- The flag of entry `f` is set, and its enable bit was set on entry. -/
def FaultPass.serves (p : FaultPass) (f : ℕ) (s : Hal) : Bool :=
  if f < 6 then p.enable f && s.faultFlag f else p.sysEnable && s.sysFaultFlag

def clearFaultEntry (f : ℕ) (s : Hal) : Hal :=
  if f < 6 then clearFlagFalt f s else clearFlagSysFalt s

/-- `shrtim_isr_fault`, where `callback f` is what the callback of entry `f` does. -/
def isrFault (callback : ℕ → Hal → Hal) (s : Hal) : Hal :=
  let p := FaultPass.enter s
  foldRange 0 7 s fun f s => if p.serves f s then callback f (clearFaultEntry f s) else s

/-- `it_set`. -/
def itSet (unit : ℕ) (evt : Evt) (enable : Bool) : Procedure Rc Hal Unit :=
  match evt with
  | .cpt1 | .cpt2 | .rstro => do
      .attempt (reject (unit = unitMaster) .errParam)
      .write (setIden unit evt enable)
  | .fault f => .write fun s => { s with faultIt := Function.update s.faultIt f enable }
  | .sysflt => .write fun s => { s with sysFaultIt := enable }
  | .mstSync => .write (setIden unitMaster .mstSync enable)
  | .cmp5 => .attempt (.error .errParam)
  | evt => .write (setIden unit evt enable)

/-- `shrtim_irq_enable`; the interrupt lines of the core are not modelled. -/
def shrtimIrqEnable (unit : ℕ) (evt : Evt) (enable : Bool) : Procedure Rc Hal Unit := do
  .attempt (reject (unitMaster < unit) .errParam)
  itSet unit evt enable

/-! ## Life cycle -/

/-- What the timers and crossbars hold after a reset of the peripheral. -/
structure Wiped where
  timers : ℕ → TimerRegs
  outputs : ℕ → OutputRegs

def Wiped.zero : Wiped where
  timers := fun _ =>
    { counterEnabled := false, prescaler := .mul32, period := 0, countingMode := .up,
      counterMode := .singleShot, resetTrig := .none, updateTrig := .none, preload := false,
      updateDisabled := false, compare := fun _ => 0, deadTimeEnabled := false,
      deadTimePrescaler := .mul8, deadTimeRising := 0, deadTimeFalling := 0 }
  outputs := fun _ =>
    { setSrc := .none, resetSrc := .none, negativePolarity := false, idleActive := false }

/-- Before any call: registers reset, static variables zero. -/
def Hal.powerOn (wiped : Wiped) : Hal where
  timers := wiped.timers
  outputs := wiped.outputs
  outEnabled := fun _ => false
  faultState := fun _ => .noAction
  faultEnabled := fun _ _ => false
  faultFlag := fun _ => false
  sysFaultFlag := false
  faultIt := fun _ => false
  sysFaultIt := false
  iden := fun _ _ => false
  units := fun _ =>
    { ratio := .mul32, period := 0, duty := 0, duty2 := 0, align := 0, ratioIdx := 0,
      outWanted := fun _ => false, configured := false }
  clkHz := 0
  faultLatch := fun _ => false
  faultAttached := fun _ => 0
  stoppedOutEn := fun _ => some fun _ => false
  storm := fun _ _ => 0
  stormDeg := fun _ _ => false

/-- The peripheral reset: outputs, fault attachments, flags and interrupt
enables are cleared. -/
def resetPeripheral (wiped : Wiped) (s : Hal) : Hal :=
  { s with
    timers := wiped.timers
    outputs := wiped.outputs
    outEnabled := fun _ => false
    faultState := fun _ => .noAction
    faultEnabled := fun _ _ => false
    faultFlag := fun _ => false
    sysFaultFlag := false
    faultIt := fun _ => false
    sysFaultIt := false
    iden := fun _ _ => false }

/-- The static variables that `shrtim_init` and `shrtim_deinit` both clear. -/
def dropUnits (s : Hal) : Hal :=
  { s with
    units := fun u => if u < halUnits then
        { s.units u with configured := false, outWanted := fun _ => false } else s.units u
    stoppedOutEn := fun u => if u < halUnits then none else s.stoppedOutEn u
    faultAttached := fun u => if u < halUnits then 0 else s.faultAttached u }

/-- How `shrtim_init` finds the clock tree: the system clock derived from the
SHRTPLL, its configuration refused, no lock, or locked at a frequency. -/
inductive ClockOutcome
  | inUse | refused | unlocked | locked (hz : UInt32)

def shrtimInit (clock : ClockOutcome) (wiped : Wiped) : Procedure Rc Hal Unit :=
  match clock with
  | .inUse | .refused => .attempt (.error .errClock)
  | .unlocked => do
      .write fun s => { s with clkHz := 0 }
      .attempt (.error .errClock)
  | .locked hz => .write fun s => dropUnits { resetPeripheral wiped s with clkHz := hz }

def shrtimDeinit (wiped : Wiped) (s : Hal) : Hal :=
  { dropUnits (resetPeripheral wiped s) with
    faultLatch := fun f => if f < 6 then false else s.faultLatch f
    storm := fun _ _ => 0
    stormDeg := fun _ _ => false
    clkHz := 0 }

end Xhive.Shrtim
