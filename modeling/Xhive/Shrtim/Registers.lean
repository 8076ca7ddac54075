import Mathlib.Logic.Function.Basic
import Mathlib.Tactic.Common

/-!
# The state of the SHRTIM block and of its HAL

The registers of the high-resolution timer at the granularity of their fields,
and the static variables of `nation_shrtim.c`.  Timers carry the HAL's own
numbers: `0` to `5` for the units A to F and `6` for the master timer.  Output
`2 * u` is the first output of unit `u`, output `2 * u + 1` the second.  Fault
channels are numbered from `0`.

A vendor accessor reads or writes just the field it names.
-/

namespace Xhive.Shrtim

/-! ## Field values -/

/-- `SHRTIM_PRESCALERRATIO_*`. -/
inductive PrescalerRatio
  | mul32 | mul16 | mul8 | mul4 | mul2 | div1 | div2 | div4
  deriving DecidableEq

/-- `SHRTIM_COUNTING_MODE_*`. -/
inductive CountingMode
  | up | upDown
  deriving DecidableEq

/-- `SHRTIM_MODE_*`. -/
inductive CounterMode
  | continuous | singleShot | retriggerable
  deriving DecidableEq

/-- `SHRTIM_RESETTRIG_*`. -/
inductive ResetTrig
  | none | masterPer | exev (event : ℕ)
  deriving DecidableEq

/-- `SHRTIM_UPDATETRIG_*`. -/
inductive UpdateTrig
  | none | repetition | reset
  deriving DecidableEq

/-- `SHRTIM_OUTPUTSET_*` and `SHRTIM_OUTPUTRESET_*`, which share their bits. -/
inductive OutputSrc
  | none | timPer | timCmp1 | timCmp2 | timCmp3 | masterPer
  deriving DecidableEq

/-- `SHRTIM_DT_PRESCALER_*`. -/
inductive DeadTimePrescaler
  | mul8 | mul4 | mul2 | div1 | div2 | div4 | div8 | div16
  deriving DecidableEq

/-- `SHRTIM_OUT_FAULTSTATE_*`. -/
inductive FaultState
  | noAction | active | inactive | highZ
  deriving DecidableEq

/-- `shrtim_evt_t`.  `fault f` is the event of fault channel `f`. -/
inductive Evt
  | update | rept | cmp1 | cmp2 | cmp3 | cmp4 | cmp5 | cpt1 | cpt2 | rstro
  | fault (f : Fin 6) | sysflt | mstSync
  deriving DecidableEq

/-- `shrtim_rc_t`, the error codes. -/
inductive Rc
  | errParam | errFreq | errState | errClock
  deriving DecidableEq

/-! ## Registers and static variables -/

/-- The registers of one timer. -/
structure TimerRegs where
  counterEnabled : Bool
  prescaler : PrescalerRatio
  period : UInt32
  countingMode : CountingMode
  counterMode : CounterMode
  resetTrig : ResetTrig
  updateTrig : UpdateTrig
  preload : Bool
  updateDisabled : Bool
  compare : ℕ → UInt32
  deadTimeEnabled : Bool
  deadTimePrescaler : DeadTimePrescaler
  deadTimeRising : UInt32
  deadTimeFalling : UInt32

/-- The crossbar, polarity and idle level of one output. -/
structure OutputRegs where
  setSrc : OutputSrc
  resetSrc : OutputSrc
  negativePolarity : Bool
  idleActive : Bool

/-- `unit_state_t`. -/
structure UnitState where
  ratio : PrescalerRatio
  period : UInt32
  duty : UInt32
  duty2 : UInt32
  align : ℕ
  ratioIdx : ℕ
  outWanted : ℕ → Bool
  configured : Bool

/-- The registers of the block, and the static variables of the HAL. -/
structure Hal where
  timers : ℕ → TimerRegs
  outputs : ℕ → OutputRegs
  /-- `OEN` -/
  outEnabled : ℕ → Bool
  /-- the `FALT` field of each output -/
  faultState : ℕ → FaultState
  /-- `TxFALT`, by timer and channel -/
  faultEnabled : ℕ → ℕ → Bool
  /-- `INTSTS` and `INTEN`, the bits of the six channels and of the system fault -/
  faultFlag : ℕ → Bool
  sysFaultFlag : Bool
  faultIt : ℕ → Bool
  sysFaultIt : Bool
  /-- `TxIDEN` and `MIDEN`, by timer and event -/
  iden : ℕ → Evt → Bool
  /-- `s_unit` -/
  units : ℕ → UnitState
  /-- `s_clk_hz` -/
  clkHz : UInt32
  /-- `s_fault_latch` -/
  faultLatch : ℕ → Bool
  /-- `s_fault_attached`, a mask of channels for each unit -/
  faultAttached : ℕ → ℕ
  /-- `s_stopped_outen`, with `none` for the mark `0xFF` -/
  stoppedOutEn : ℕ → Option (ℕ → Bool)
  /-- `s_tmr_storm` and `s_m_storm`, by timer and position in the event list -/
  storm : ℕ → ℕ → ℕ
  /-- `s_tmr_storm_deg` and `s_m_storm_deg` -/
  stormDeg : ℕ → ℕ → Bool

/-- `SHRTIM_HAL_UNITS`. -/
def halUnits : ℕ := 6

/-- `SHRTIM_UNIT_MASTER`, and the master timer. -/
def unitMaster : ℕ := 6

/-- The two outputs of a unit. -/
def outOf (unit side : ℕ) : ℕ := 2 * unit + side

/-! ## Writing one timer, one output, one unit -/

def onTimer (tmr : ℕ) (f : TimerRegs → TimerRegs) (s : Hal) : Hal :=
  { s with timers := Function.update s.timers tmr (f (s.timers tmr)) }

def onOutput (out : ℕ) (f : OutputRegs → OutputRegs) (s : Hal) : Hal :=
  { s with outputs := Function.update s.outputs out (f (s.outputs out)) }

def onUnit (unit : ℕ) (f : UnitState → UnitState) (s : Hal) : Hal :=
  { s with units := Function.update s.units unit (f (s.units unit)) }

theorem onTimer_onTimer (tmr : ℕ) (f g : TimerRegs → TimerRegs) (s : Hal) :
    onTimer tmr g (onTimer tmr f s) = onTimer tmr (fun r => g (f r)) s := by
  simp [onTimer]

/-- A write that changes nothing in the registers it writes. -/
theorem onTimer_eq_self {tmr : ℕ} {f : TimerRegs → TimerRegs} {s : Hal} :
    onTimer tmr f s = s ↔ f (s.timers tmr) = s.timers tmr := by
  constructor
  · intro h
    have htimers := congrArg (fun t => t.timers tmr) h
    simpa [onTimer] using htimers
  · intro h
    simp [onTimer, h]

/-! ## Vendor accessors -/

section Accessors

variable (tmr out : ℕ)

def timCounterEnable : Hal → Hal := onTimer tmr fun r => { r with counterEnabled := true }

def timCounterDisable : Hal → Hal := onTimer tmr fun r => { r with counterEnabled := false }

def timSetPrescaler (ratio : PrescalerRatio) : Hal → Hal :=
  onTimer tmr fun r => { r with prescaler := ratio }

def timSetPeriod (period : UInt32) : Hal → Hal :=
  onTimer tmr fun r => { r with period := period }

def timSetCountingMode (mode : CountingMode) : Hal → Hal :=
  onTimer tmr fun r => { r with countingMode := mode }

def timSetCounterMode (mode : CounterMode) : Hal → Hal :=
  onTimer tmr fun r => { r with counterMode := mode }

def timSetResetTrig (trig : ResetTrig) : Hal → Hal :=
  onTimer tmr fun r => { r with resetTrig := trig }

def timSetUpdateTrig (trig : UpdateTrig) : Hal → Hal :=
  onTimer tmr fun r => { r with updateTrig := trig }

def timEnablePreload : Hal → Hal := onTimer tmr fun r => { r with preload := true }

def timDisablePreload : Hal → Hal := onTimer tmr fun r => { r with preload := false }

/-- The `UPDDIS` bit of `CTRL1`. -/
def setUpdateDisabled (disabled : Bool) : Hal → Hal :=
  onTimer tmr fun r => { r with updateDisabled := disabled }

/-- `SHRTIM_TIM_SetCompare1` to `SHRTIM_TIM_SetCompare5`. -/
def timSetCompare (cmp : ℕ) (ticks : UInt32) : Hal → Hal :=
  onTimer tmr fun r => { r with compare := Function.update r.compare cmp ticks }

def timEnableDeadTime : Hal → Hal := onTimer tmr fun r => { r with deadTimeEnabled := true }

def timDisableDeadTime : Hal → Hal := onTimer tmr fun r => { r with deadTimeEnabled := false }

def dtSetPrescaler (psc : DeadTimePrescaler) : Hal → Hal :=
  onTimer tmr fun r => { r with deadTimePrescaler := psc }

def dtSetRisingValue (ticks : UInt32) : Hal → Hal :=
  onTimer tmr fun r => { r with deadTimeRising := ticks }

def dtSetFallingValue (ticks : UInt32) : Hal → Hal :=
  onTimer tmr fun r => { r with deadTimeFalling := ticks }

/-- `SHRTIM_ForceUpdate`, a command bit that clears itself. -/
def forceUpdate : Hal → Hal := fun s => s

def outSetOutputSetSrc (src : OutputSrc) : Hal → Hal :=
  onOutput out fun r => { r with setSrc := src }

def outSetOutputResetSrc (src : OutputSrc) : Hal → Hal :=
  onOutput out fun r => { r with resetSrc := src }

def outSetPolarity (negative : Bool) : Hal → Hal :=
  onOutput out fun r => { r with negativePolarity := negative }

def outSetFaultState (state : FaultState) (s : Hal) : Hal :=
  { s with faultState := Function.update s.faultState out state }

/-- `SHRTIM_OUT_Config` writes polarity and idle level, and the fault-state
bits with them. -/
def outConfig (negative idleActive : Bool) (s : Hal) : Hal :=
  outSetFaultState out .noAction
    (onOutput out (fun r => { r with negativePolarity := negative, idleActive := idleActive }) s)

def enableOutput (s : Hal) : Hal :=
  { s with outEnabled := Function.update s.outEnabled out true }

def disableOutput (s : Hal) : Hal :=
  { s with outEnabled := Function.update s.outEnabled out false }

/-- `SHRTIM_TIM_EnableFault`, for a set of channels. -/
def timEnableFault (faults : ℕ → Bool) (s : Hal) : Hal :=
  { s with
    faultEnabled := Function.update s.faultEnabled tmr fun f => s.faultEnabled tmr f || faults f }

def timDisableFault (faults : ℕ → Bool) (s : Hal) : Hal :=
  { s with
    faultEnabled := Function.update s.faultEnabled tmr fun f => s.faultEnabled tmr f && !faults f }

/-- `SHRTIM_ClearFlag_FALT1` to `SHRTIM_ClearFlag_FALT6`. -/
def clearFlagFalt (f : ℕ) (s : Hal) : Hal :=
  { s with faultFlag := Function.update s.faultFlag f false }

def clearFlagSysFalt (s : Hal) : Hal :=
  { s with sysFaultFlag := false }

end Accessors

end Xhive.Shrtim
