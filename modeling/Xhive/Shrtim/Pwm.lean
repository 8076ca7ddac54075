import Xhive.Shrtim.Registers
import Xhive.Support.Outcome
import Xhive.Support.Procedure

/-!
# Configuring and running a PWM unit

`shrtim_pwm_init`, `_freq`, `_duty`, `_duty2`, `_deadtime`, `_start`, `_stop`
and the output functions, with the timing computations they share.  A call
that may be rejected is a procedure on the HAL state: what it wrote before the
rejection stays written.
-/

namespace Xhive.Shrtim

open Xhive.Support

/-- A check that answers `rc` in the bad case. -/
def reject (bad : Prop) [Decidable bad] (rc : Rc) : Except Rc Unit :=
  if bad then .error rc else .ok ()

theorem reject_eq_ok {bad : Prop} [Decidable bad] {rc : Rc} {u : Unit} :
    reject bad rc = .ok u ↔ ¬bad := by
  rw [reject]
  split <;> simp_all

/-! ## Timing -/

/-- `s_ratio_hw`. -/
def ratioHw : List PrescalerRatio := [.mul32, .mul16, .mul8, .mul4, .mul2, .div1, .div2, .div4]

/-- `s_ratio_num`. -/
def ratioNum : List UInt64 := [32, 16, 8, 4, 2, 1, 1, 1]

/-- `s_ratio_den`. -/
def ratioDen : List UInt64 := [1, 1, 1, 1, 1, 1, 2, 4]

/-- The smallest value the period and compare registers accept at a ratio. -/
def ticksMin (ratioIdx : ℕ) : UInt32 := 0x60 >>> UInt32.ofNat (min ratioIdx 5)

structure Timing where
  ratio : PrescalerRatio
  period : UInt32
  ratioIdx : ℕ

/-- One turn of the loop of `solve_timing`. -/
def timingCandidate (clkHz hz mult : UInt32) (i : ℕ) : Option Timing :=
  let div := hz.toUInt64 * mult.toUInt64 * ratioDen.getD i 1
  let p := (clkHz.toUInt64 * ratioNum.getD i 1 + div / 2) / div
  if (ticksMin i).toUInt64 ≤ p ∧ p ≤ 0xFFFF then
    some ⟨ratioHw.getD i .div4, p.toUInt32, i⟩
  else
    none

def solveTiming (clkHz hz mult : UInt32) : Except Rc Timing :=
  if hz = 0 then
    .error .errFreq
  else
    match (List.range 8).findSome? (timingCandidate clkHz hz mult) with
    | some timing => .ok timing
    | none => .error .errFreq

def edgeCompare (period duty : UInt32) (ratioIdx : ℕ) : UInt32 :=
  let c := (period.toUInt64 * duty.toUInt64 + 500) / 1000
  let c := if period.toUInt64 ≤ c then period.toUInt64 - 1 else c
  if c < (ticksMin ratioIdx).toUInt64 then ticksMin ratioIdx else c.toUInt32

def centerCompare (period duty : UInt32) (ratioIdx : ℕ) : UInt32 :=
  let scaled := if duty ≤ 500 then period.toUInt64 * duty.toUInt64
    else period.toUInt64 * (1000 - duty.toUInt64)
  let scaled := (scaled + 500) / 1000
  if scaled < (ticksMin ratioIdx).toUInt64 then ticksMin ratioIdx else scaled.toUInt32

/-! ## The shared master timer -/

/-- A loop that leaves after the turn that finds `done`. -/
def turnsUntil (done : Hal → Bool) (body : Hal → Hal) : ℕ → Hal → Hal
  | 0, s => s
  | count + 1, s => if done (body s) then body s else turnsUntil done body count (body s)

/-- A loop that leaves before the turn that finds `done`. -/
def turnsWhileNot (done : Hal → Bool) (body : Hal → Hal) : ℕ → Hal → Hal
  | 0, s => s
  | count + 1, s => if done s then s else turnsWhileNot done body count (body s)

def centerMasterSetup (ratioIdx : ℕ) (period : UInt32) (s : Hal) : Hal :=
  let mRatio := ratioHw.getD (ratioIdx + 1) .div4
  let s := if (s.timers unitMaster).prescaler ≠ mRatio then timCounterDisable unitMaster s else s
  turnsUntil (fun s => (s.timers unitMaster).prescaler = mRatio)
    (fun s => s
      |> timSetPrescaler unitMaster mRatio
      |> timEnablePreload unitMaster
      |> timSetPeriod unitMaster period
      |> timSetUpdateTrig unitMaster .repetition
      |> timSetCounterMode unitMaster .continuous
      |> forceUpdate
      |> timCounterEnable unitMaster) 3 s

/-- The master registers as the center alignment wants them. -/
def TimerRegs.anchored (ratio : PrescalerRatio) (period : UInt32) (r : TimerRegs) : TimerRegs :=
  { r with
    prescaler := ratio, preload := true, period := period, updateTrig := .repetition,
    counterMode := .continuous, counterEnabled := true }

theorem centerMasterSetup_eq (ratioIdx : ℕ) (period : UInt32) (s : Hal) :
    centerMasterSetup ratioIdx period s =
      onTimer unitMaster (.anchored (ratioHw.getD (ratioIdx + 1) .div4) period) s := by
  have hturn : ∀ t : Hal, ∀ ratio : PrescalerRatio,
      (t |> timSetPrescaler unitMaster ratio |> timEnablePreload unitMaster
        |> timSetPeriod unitMaster period |> timSetUpdateTrig unitMaster .repetition
        |> timSetCounterMode unitMaster .continuous |> forceUpdate
        |> timCounterEnable unitMaster) = onTimer unitMaster (.anchored ratio period) t := by
    intro t ratio
    simp only [timSetPrescaler, timEnablePreload, timSetPeriod, timSetUpdateTrig,
      timSetCounterMode, forceUpdate, timCounterEnable, onTimer_onTimer]
    rfl
  have hprescaler : ∀ t : Hal, ∀ ratio : PrescalerRatio,
      ((onTimer unitMaster (.anchored ratio period) t).timers unitMaster).prescaler = ratio := by
    intro t ratio
    simp [onTimer, TimerRegs.anchored]
  simp only [centerMasterSetup, turnsUntil, hturn, hprescaler, decide_true, if_true]
  split
  · rw [timCounterDisable, onTimer_onTimer]
    rfl
  · rfl

/-! ## Crossbars and dead time -/

/-- `SHRTIM_ALIGN_EDGE` and `SHRTIM_ALIGN_CENTER`. -/
def alignEdge : ℕ := 0

def alignCenter : ℕ := 1

/-- The sources of one output, and the compare register they use. -/
structure Crossbar where
  set : OutputSrc
  reset : OutputSrc
  compare : Option (ℕ × UInt32)

/-- The branch of `apply_crossbars` for edge alignment and degenerate duties. -/
def UnitState.edgeBranch (st : UnitState) : Bool :=
  st.align = alignEdge || st.duty = 0 || 1000 ≤ st.duty

def crossbar1 (st : UnitState) : Crossbar :=
  if st.edgeBranch then
    if st.duty = 0 then ⟨.none, .timPer, none⟩
    else if 1000 ≤ st.duty then ⟨.timPer, .none, none⟩
    else ⟨.timPer, .timCmp1, some (1, edgeCompare st.period st.duty st.ratioIdx)⟩
  else
    let c := centerCompare st.period st.duty st.ratioIdx
    if st.duty ≤ 500 then ⟨.masterPer, .timCmp1, some (1, c)⟩
    else ⟨.timCmp1, .masterPer, some (1, c)⟩

def crossbar2 (st : UnitState) : Crossbar :=
  if st.duty2 = 0 then
    ⟨(crossbar1 st).reset, (crossbar1 st).set, none⟩
  else if 1000 ≤ st.duty2 then
    ⟨.timPer, .none, none⟩
  else if st.edgeBranch then
    ⟨.timPer, .timCmp2, some (2, edgeCompare st.period st.duty2 st.ratioIdx)⟩
  else
    let c2 := centerCompare st.period st.duty2 st.ratioIdx
    if st.duty2 ≤ 500 then ⟨.masterPer, .timCmp3, some (3, c2)⟩
    else ⟨.timCmp3, .masterPer, some (3, c2)⟩

def setCompareOf (unit : ℕ) (x : Crossbar) (s : Hal) : Hal :=
  match x.compare with
  | some c => timSetCompare unit c.1 c.2 s
  | none => s

def applyCrossbars (unit : ℕ) (s : Hal) : Hal :=
  let x1 := crossbar1 (s.units unit)
  let x2 := crossbar2 (s.units unit)
  s |> setCompareOf unit x1
    |> setCompareOf unit x2
    |> outSetOutputSetSrc (outOf unit 0) x1.set
    |> outSetOutputResetSrc (outOf unit 0) x1.reset
    |> outSetOutputSetSrc (outOf unit 1) x2.set
    |> outSetOutputResetSrc (outOf unit 1) x2.reset

/-- `num`, `den` and `psc` of `program_deadtime`. -/
def deadtimeNum : List UInt64 := [8, 4, 2, 1, 1, 1, 1, 1]

def deadtimeDen : List UInt64 := [1, 1, 1, 1, 2, 4, 8, 16]

def deadtimePsc : List DeadTimePrescaler :=
  [.mul8, .mul4, .mul2, .div1, .div2, .div4, .div8, .div16]

structure DeadTime where
  psc : DeadTimePrescaler
  rising : UInt32
  falling : UInt32

def deadtimeTicks (clkHz ns : UInt32) (i : ℕ) : UInt64 :=
  let div := deadtimeDen.getD i 1 * 1000000000
  (ns.toUInt64 * clkHz.toUInt64 * deadtimeNum.getD i 1 + div / 2) / div

/-- One turn of the loop of `program_deadtime`. -/
def deadtimeCandidate (clkHz riseNs fallNs : UInt32) (i : ℕ) : Option DeadTime :=
  let tr := deadtimeTicks clkHz riseNs i
  let tf := deadtimeTicks clkHz fallNs i
  if tr ≤ 0x1FF ∧ tf ≤ 0x1FF then
    some ⟨deadtimePsc.getD i .div16, tr.toUInt32, tf.toUInt32⟩
  else
    none

def solveDeadtime (clkHz riseNs fallNs : UInt32) : Option DeadTime :=
  (List.range 8).findSome? (deadtimeCandidate clkHz riseNs fallNs)

/-- No dead time, or one that some prescaler covers. -/
def deadtimeFits (clkHz riseNs fallNs : UInt32) : Bool :=
  (riseNs = 0 && fallNs = 0) || (solveDeadtime clkHz riseNs fallNs).isSome

def programDeadtime (unit : ℕ) (riseNs fallNs : UInt32) : Procedure Rc Hal Unit :=
  if riseNs = 0 ∧ fallNs = 0 then
    .write fun s => s
      |> timDisableDeadTime unit
      |> dtSetRisingValue unit 0
      |> dtSetFallingValue unit 0
  else do
    let clkHz ← .read Hal.clkHz
    match solveDeadtime clkHz riseNs fallNs with
    | some d => .write fun s => s
        |> dtSetPrescaler unit d.psc
        |> dtSetRisingValue unit d.rising
        |> dtSetFallingValue unit d.falling
        |> timEnableDeadTime unit
    | none => .attempt (.error .errParam)

/-! ## PWM calls -/

/-- `shrtim_pwm_cfg_t`. -/
structure PwmCfg where
  freqHz : UInt32
  duty : UInt32
  duty2 : UInt32
  align : ℕ
  run : ℕ
  activeLow1 : Bool
  activeLow2 : Bool
  idleActive1 : Bool
  idleActive2 : Bool
  dtRiseNs : UInt32
  dtFallNs : UInt32
  enableOutputs : Bool

/-- The center alignment at the slowest prescaler: the master has no slower one. -/
def anchorCheck (align : ℕ) (timing : Timing) : Except Rc Unit :=
  reject (align = alignCenter ∧ 7 ≤ timing.ratioIdx) .errFreq

def cycleMult (align : ℕ) : UInt32 := if align = alignCenter then 2 else 1

def unitCheck (unit : ℕ) : Except Rc Unit := reject (halUnits ≤ unit) .errParam

/-- What `shrtim_pwm_init` checks before it writes: arguments, clock, timing. -/
def pwmInitChecks (clkHz : UInt32) (unit : ℕ) (cfg : Option PwmCfg) :
    Except Rc (PwmCfg × Timing) := do
  let cfg ← cfg.elim (.error .errParam) .ok
  unitCheck unit
  reject (cfg.freqHz = 0 ∨ 1000 < cfg.duty ∨ 1000 < cfg.duty2 ∨ alignCenter < cfg.align
    ∨ 2 < cfg.run) .errParam
  reject (clkHz = 0) .errState
  let timing ← solveTiming clkHz cfg.freqHz (cycleMult cfg.align)
  anchorCheck cfg.align timing
  return (cfg, timing)

/-- `SHRTIM_RUN_ONESHOT`, `SHRTIM_RUN_RETRIG` and the rest. -/
def counterModeOf (run : ℕ) : CounterMode :=
  if run = 1 then .singleShot else if run = 2 then .retriggerable else .continuous

def countingModeOf (align : ℕ) : CountingMode := if align = alignCenter then .upDown else .up

/-- The writes of `shrtim_pwm_init` that follow the dead time. -/
def pwmInitConfigure (unit : ℕ) (cfg : PwmCfg) (timing : Timing) (s : Hal) : Hal :=
  let s := s
    |> timDisablePreload unit
    |> timSetPrescaler unit timing.ratio
    |> timSetPeriod unit timing.period
    |> timSetCountingMode unit (countingModeOf cfg.align)
    |> timSetResetTrig unit (if cfg.align = alignCenter then .masterPer else .none)
    |> timSetCounterMode unit (counterModeOf cfg.run)
    |> onUnit unit (fun st => { st with
          ratio := timing.ratio, ratioIdx := timing.ratioIdx, period := timing.period,
          duty := cfg.duty, duty2 := cfg.duty2, align := cfg.align, configured := true })
    |> applyCrossbars unit
    |> outConfig (outOf unit 0) cfg.activeLow1 cfg.idleActive1
    |> outConfig (outOf unit 1) cfg.activeLow2 cfg.idleActive2
    |> timSetUpdateTrig unit .reset
    |> forceUpdate
    |> timEnablePreload unit
    |> forceUpdate
    |> turnsWhileNot
        (fun s => (s.timers unit).prescaler = timing.ratio
          ∧ (s.timers unit).countingMode = countingModeOf cfg.align
          ∧ (s.timers unit).period = timing.period)
        (fun s => s
          |> timDisablePreload unit
          |> timSetPrescaler unit timing.ratio
          |> timSetCountingMode unit (countingModeOf cfg.align)
          |> timSetPeriod unit timing.period
          |> timSetUpdateTrig unit .reset
          |> forceUpdate
          |> timEnablePreload unit
          |> forceUpdate) 3
  let s := if cfg.enableOutputs then
      s |> enableOutput (outOf unit 0)
        |> enableOutput (outOf unit 1)
        |> onUnit unit (fun st => { st with outWanted := fun _ => true })
    else
      s |> onUnit unit (fun st => { st with outWanted := fun _ => false })
  { s with stoppedOutEn := Function.update s.stoppedOutEn unit none }

def shrtimPwmInit (unit : ℕ) (cfg : Option PwmCfg) : Procedure Rc Hal Unit := do
  let clkHz ← .read Hal.clkHz
  let (cfg, timing) ← .attempt (pwmInitChecks clkHz unit cfg)
  .write fun s =>
    if cfg.align = alignCenter then centerMasterSetup timing.ratioIdx timing.period s else s
  .write (timCounterDisable unit)
  programDeadtime unit cfg.dtRiseNs cfg.dtFallNs
  .write (pwmInitConfigure unit cfg timing)

/-- The checks shared by the calls on a configured unit. -/
def configuredCheck (unit : ℕ) (s : Hal) : Except Rc Unit :=
  reject (s.clkHz = 0 ∨ (s.units unit).configured = false) .errState

/-- The writes of `shrtim_pwm_freq`. -/
def pwmFreqApply (unit : ℕ) (timing : Timing) (s : Hal) : Hal :=
  let restart := (s.units unit).ratio ≠ timing.ratio ∧ (s.timers unit).counterEnabled
  let s := if restart then timCounterDisable unit s else s
  let s := setUpdateDisabled unit true s
  let s := if (s.units unit).align = alignCenter then
      centerMasterSetup timing.ratioIdx timing.period s else s
  let s := s
    |> timSetPrescaler unit timing.ratio
    |> timSetPeriod unit timing.period
    |> onUnit unit (fun st => { st with
          ratio := timing.ratio, ratioIdx := timing.ratioIdx, period := timing.period })
    |> applyCrossbars unit
    |> setUpdateDisabled unit false
    |> forceUpdate
  if restart then timCounterEnable unit s else s

def shrtimPwmFreq (unit : ℕ) (hz : UInt32) : Procedure Rc Hal Unit := do
  .attempt (unitCheck unit)
  let s ← .read id
  .attempt (configuredCheck unit s)
  let align := (s.units unit).align
  let timing ← .attempt (solveTiming s.clkHz hz (cycleMult align))
  .attempt (anchorCheck align timing)
  .write (pwmFreqApply unit timing)

/-- The frequency of a timer at candidate `i`, rounded. -/
def candidateFrequency (clkHz mult period : UInt32) (i : ℕ) : UInt32 :=
  let div := mult.toUInt64 * period.toUInt64 * ratioDen.getD i 1
  ((clkHz.toUInt64 * ratioNum.getD i 1 + div / 2) / div).toUInt32

def shrtimPwmFreqGet (unit : ℕ) (s : Hal) : UInt32 :=
  if unit = unitMaster ∨ halUnits ≤ unit then
    0
  else if s.clkHz = 0 ∨ (s.units unit).configured = false then
    0
  else
    let ratio := (s.timers unit).prescaler
    let period := (s.timers unit).period
    if period = 0 then
      0
    else
      ((List.range 8).findSome? fun i =>
        if ratioHw.getD i .div4 = ratio then
          some (candidateFrequency s.clkHz (cycleMult (s.units unit).align) period i)
        else none).getD 0

/-- `shrtim_pwm_duty` and `shrtim_pwm_duty2`, which differ in the duty they store. -/
def pwmDutyWith (store : UInt32 → UnitState → UnitState) (unit : ℕ) (duty : UInt32) :
    Procedure Rc Hal Unit := do
  .attempt (unitCheck unit)
  .attempt (reject (1000 < duty) .errParam)
  let s ← .read id
  .attempt (configuredCheck unit s)
  .write fun s => s
    |> onUnit unit (store duty)
    |> setUpdateDisabled unit true
    |> applyCrossbars unit
    |> setUpdateDisabled unit false
    |> forceUpdate

def shrtimPwmDuty : ℕ → UInt32 → Procedure Rc Hal Unit :=
  pwmDutyWith fun duty st => { st with duty := duty }

def shrtimPwmDuty2 : ℕ → UInt32 → Procedure Rc Hal Unit :=
  pwmDutyWith fun duty st => { st with duty2 := duty }

def shrtimPwmDeadtime (unit : ℕ) (riseNs fallNs : UInt32) : Procedure Rc Hal Unit := do
  .attempt (unitCheck unit)
  let s ← .read id
  .attempt (configuredCheck unit s)
  -- the counter is stopped for the writes, and started again whatever they return
  fun s =>
    let running := (s.timers unit).counterEnabled
    let s := if running then timCounterDisable unit s else s
    let (rc, s) := programDeadtime unit riseNs fallNs s
    (rc, if running then timCounterEnable unit s else s)

/-- Enables the outputs of a unit that `bits` names. -/
def enableOutputs (unit : ℕ) (bits : ℕ → Bool) (s : Hal) : Hal :=
  let s := if bits 0 then enableOutput (outOf unit 0) s else s
  if bits 1 then enableOutput (outOf unit 1) s else s

def shrtimPwmStart (unit : ℕ) (s : Hal) : Hal :=
  if halUnits ≤ unit then
    s
  else
    let s := match s.stoppedOutEn unit with
      | none => s
      | some saved =>
          let s := enableOutputs unit saved s
          { s with stoppedOutEn := Function.update s.stoppedOutEn unit none }
    timCounterEnable unit s

def shrtimPwmStop (unit : ℕ) (s : Hal) : Hal :=
  if halUnits ≤ unit then
    s
  else
    let s := match s.stoppedOutEn unit with
      | none =>
          { s with
            stoppedOutEn :=
              Function.update s.stoppedOutEn unit
                (some fun side => side < 2 && s.outEnabled (outOf unit side)) }
      | some _ => s
    s |> disableOutput (outOf unit 0)
      |> disableOutput (outOf unit 1)
      |> timCounterDisable unit

def shrtimPwmStartAll (s : Hal) : Hal :=
  let s := foldRange 0 halUnits s fun u s => timCounterEnable u s
  foldRange 0 halUnits s shrtimPwmStart

def shrtimPwmStopAll (s : Hal) : Hal :=
  foldRange 0 halUnits s shrtimPwmStop

/-! ## Output level control -/

def shrtimOutEnable (out : ℕ) (s : Hal) : Hal :=
  if out < 12 then
    s |> enableOutput out
      |> onUnit (out / 2) (fun st => { st with
            outWanted := Function.update st.outWanted (out % 2) true })
  else
    s

def shrtimOutDisable (out : ℕ) (s : Hal) : Hal :=
  if out < 12 then
    s |> disableOutput out
      |> onUnit (out / 2) (fun st => { st with
            outWanted := Function.update st.outWanted (out % 2) false })
  else
    s

def shrtimOutPolarity (out : ℕ) (activeLow : Bool) (s : Hal) : Hal :=
  if out < 12 ∧ (s.timers (out / 2)).counterEnabled = false then
    outSetPolarity out activeLow s
  else
    s

/-! ## Raw access and the master timer -/

def shrtimPeriodRaw (unit : ℕ) (ticks : UInt32) (s : Hal) : Hal :=
  if unit ≤ unitMaster ∧ 1 ≤ ticks ∧ ticks ≤ 0xFFFF then
    let s := timSetPeriod unit ticks s
    if unit ≠ unitMaster ∧ (s.units unit).configured then
      onUnit unit (fun st => { st with period := ticks }) s
    else
      s
  else
    s

def shrtimCompareRaw (unit cmp : ℕ) (ticks : UInt32) (s : Hal) : Hal :=
  if unitMaster < unit ∨ cmp < 1 ∨ 5 < cmp then s
  else if cmp = 5 ∧ unit = unitMaster then s
  else if 0xFFFF < ticks then s
  else timSetCompare unit cmp ticks s

def shrtimMasterPeriod (periodTicks : UInt32) (startNow : Bool) (s : Hal) : Hal :=
  if 1 ≤ periodTicks ∧ periodTicks ≤ 0xFFFF then
    let s := s
      |> timEnablePreload unitMaster
      |> timSetPeriod unitMaster periodTicks
      |> forceUpdate
    if startNow then
      s |> timSetCounterMode unitMaster .continuous
        |> timCounterEnable unitMaster
    else
      s
  else
    s

def shrtimPwmSyncToMaster (unit : ℕ) (enable : Bool) (s : Hal) : Hal :=
  if unit < halUnits then
    timSetResetTrig unit (if enable then .masterPer else .none) s
  else
    s

def shrtimExevResetUnit (unit ev : ℕ) : Procedure Rc Hal Unit := do
  .attempt (reject (halUnits ≤ unit ∨ 10 < ev) .errParam)
  .write (timSetResetTrig unit (if ev = 0 then .none else .exev ev))

end Xhive.Shrtim
