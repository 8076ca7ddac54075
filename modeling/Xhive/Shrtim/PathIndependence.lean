import Xhive.Shrtim.Duty

/-!
# Path independence of the PWM programming

Frequency, duties and alignment reach a unit through `shrtim_pwm_init` and
through the calls that change one of them later.  Each call rewrites the
registers from the stored configuration as a whole, so what a unit is left with
depends on its last settings only.
-/

namespace Xhive.Shrtim

open Xhive.Support

/-! ## What a unit puts out -/

/-- The registers that make the pulses of a unit. -/
structure Program where
  prescaler : PrescalerRatio
  period : UInt32
  setSrc : ℕ → OutputSrc
  resetSrc : ℕ → OutputSrc
  compare : ℕ → UInt32

def Hal.program (unit : ℕ) (s : Hal) : Program where
  prescaler := (s.timers unit).prescaler
  period := (s.timers unit).period
  setSrc := fun side => (s.outputs (outOf unit side)).setSrc
  resetSrc := fun side => (s.outputs (outOf unit side)).resetSrc
  compare := (s.timers unit).compare

/-- The compare registers that the sources of both outputs refer to. -/
def Program.Uses (p : Program) (cmp : ℕ) : Prop :=
  ∃ side < 2, compareRegister (p.setSrc side) = some cmp ∨
    compareRegister (p.resetSrc side) = some cmp

/-- Two programs that put out the same pulses. -/
structure Program.Agrees (p q : Program) : Prop where
  prescaler : p.prescaler = q.prescaler
  period : p.period = q.period
  setSrc : ∀ side < 2, p.setSrc side = q.setSrc side
  resetSrc : ∀ side < 2, p.resetSrc side = q.resetSrc side
  compare : ∀ cmp, p.Uses cmp → p.compare cmp = q.compare cmp

/-- The program of a stored configuration. -/
structure Program.Shows (p : Program) (st : UnitState) : Prop where
  prescaler : p.prescaler = st.ratio
  period : p.period = st.period
  set1 : p.setSrc 0 = (crossbar1 st).set
  reset1 : p.resetSrc 0 = (crossbar1 st).reset
  set2 : p.setSrc 1 = (crossbar2 st).set
  reset2 : p.resetSrc 1 = (crossbar2 st).reset
  compare1 : ∀ c, (crossbar1 st).compare = some c → p.compare c.1 = c.2
  compare2 : ∀ c, (crossbar2 st).compare = some c → p.compare c.1 = c.2

/-- The part of a stored configuration that programs a unit. -/
def UnitState.timing (st : UnitState) : Timing := ⟨st.ratio, st.period, st.ratioIdx⟩

theorem crossbar1_register {st : UnitState} {cmp : ℕ}
    (h : compareRegister (crossbar1 st).set = some cmp ∨
      compareRegister (crossbar1 st).reset = some cmp) :
    ∃ ticks, (crossbar1 st).compare = some (cmp, ticks) := by
  simp only [crossbar1] at h ⊢
  split_ifs at h ⊢ <;> simp_all [compareRegister]

theorem crossbar1_compare {st : UnitState} {c : ℕ × UInt32} (h : (crossbar1 st).compare = some c) :
    c.1 = 1 := by
  simp only [crossbar1] at h
  split_ifs at h <;> cases h <;> rfl

theorem crossbar2_registers {st : UnitState} {cmp : ℕ}
    (h : compareRegister (crossbar2 st).set = some cmp ∨
      compareRegister (crossbar2 st).reset = some cmp) :
    (∃ ticks, (crossbar1 st).compare = some (cmp, ticks)) ∨
      ∃ ticks, (crossbar2 st).compare = some (cmp, ticks) := by
  by_cases hmirror : st.duty2 = 0
  · -- the sources of the other output, exchanged
    rw [crossbar2, if_pos hmirror] at h
    exact .inl (crossbar1_register h.symm)
  · right
    simp only [crossbar2, if_neg hmirror] at h ⊢
    split_ifs at h ⊢ <;> simp_all [compareRegister]

/-- Two programs of one configuration. -/
theorem Program.Shows.agrees {p q : Program} {st st' : UnitState} (hp : p.Shows st)
    (hq : q.Shows st') (htiming : st.timing = st'.timing) (hduty : st.duty = st'.duty)
    (hduty2 : st.duty2 = st'.duty2) (halign : st.align = st'.align) : p.Agrees q := by
  obtain ⟨hratio, hperiod, hidx⟩ := Timing.mk.inj htiming
  have hbranch : st.edgeBranch = st'.edgeBranch := by
    rw [UnitState.edgeBranch, UnitState.edgeBranch, halign, hduty]
  have h1 : crossbar1 st = crossbar1 st' := by
    rw [crossbar1, crossbar1, hbranch, hduty, hperiod, hidx]
  have h2 : crossbar2 st = crossbar2 st' := by
    rw [crossbar2, crossbar2, h1, hbranch, hduty2, hperiod, hidx]
  have hside : ∀ side < 2, side = 0 ∨ side = 1 := by omega
  refine ⟨by rw [hp.prescaler, hq.prescaler, hratio], by rw [hp.period, hq.period, hperiod],
    ?_, ?_, ?_⟩
  · intro side hlt
    rcases hside side hlt with rfl | rfl
    · rw [hp.set1, hq.set1, h1]
    · rw [hp.set2, hq.set2, h2]
  · intro side hlt
    rcases hside side hlt with rfl | rfl
    · rw [hp.reset1, hq.reset1, h1]
    · rw [hp.reset2, hq.reset2, h2]
  · rintro cmp ⟨side, hlt, huses⟩
    have hused : (∃ ticks, (crossbar1 st).compare = some (cmp, ticks)) ∨
        ∃ ticks, (crossbar2 st).compare = some (cmp, ticks) := by
      rcases hside side hlt with rfl | rfl
      · rw [hp.set1, hp.reset1] at huses
        exact .inl (crossbar1_register huses)
      · rw [hp.set2, hp.reset2] at huses
        exact crossbar2_registers huses
    rcases hused with ⟨ticks, hticks⟩ | ⟨ticks, hticks⟩
    · exact (hp.compare1 _ hticks).trans (hq.compare1 _ (h1 ▸ hticks)).symm
    · exact (hp.compare2 _ hticks).trans (hq.compare2 _ (h2 ▸ hticks)).symm

/-- Of the timer only compare registers are written. -/
theorem applyCrossbars_timer (unit : ℕ) (s : Hal) :
    (applyCrossbars unit s).timers unit =
      { s.timers unit with compare := ((applyCrossbars unit s).timers unit).compare } := by
  simp only [applyCrossbars, outSetOutputSetSrc, outSetOutputResetSrc, onOutput, setCompareOf]
  split <;> split <;> simp [timSetCompare, onTimer]

theorem applyCrossbars_shows {unit : ℕ} {s : Hal}
    (hratio : (s.timers unit).prescaler = (s.units unit).ratio)
    (hperiod : (s.timers unit).period = (s.units unit).period) :
    ((applyCrossbars unit s).program unit).Shows (s.units unit) := by
  obtain ⟨hset1, hreset1, hset2, hreset2⟩ := applyCrossbars_outputs unit s
  have htimer := applyCrossbars_timer unit s
  refine ⟨(congrArg TimerRegs.prescaler htimer).trans hratio,
    (congrArg TimerRegs.period htimer).trans hperiod, hset1, hreset1, hset2, hreset2, ?_, ?_⟩
  · rintro ⟨cmp, ticks⟩ hticks
    obtain rfl : cmp = 1 := crossbar1_compare hticks
    exact compare_of_crossbar1 hticks
  · rintro ⟨cmp, ticks⟩ hticks
    exact compare_of_crossbar2 hticks

/-! ## The writes of the calls -/

/-- The registers and the configuration of a unit. -/
def Hal.block (unit : ℕ) (s : Hal) : TimerRegs × (ℕ → OutputRegs) × UnitState :=
  (s.timers unit, fun side => s.outputs (outOf unit (side % 2)), s.units unit)

/-- The shared master, which a center alignment sets up. -/
def anchorMaster (align : ℕ) (timing : Timing) (s : Hal) : Hal :=
  if align = alignCenter then centerMasterSetup timing.ratioIdx timing.period s else s

theorem block_onTimer_congr {unit : ℕ} {s t : Hal} (h : s.block unit = t.block unit) (tmr : ℕ)
    (f : TimerRegs → TimerRegs) : (onTimer tmr f s).block unit = (onTimer tmr f t).block unit := by
  obtain ⟨htimer, hrest⟩ := Prod.mk.inj h
  by_cases heq : unit = tmr
  · subst heq
    refine Prod.ext ?_ hrest
    simp [Hal.block, onTimer, htimer]
  · refine Prod.ext ?_ hrest
    simp [Hal.block, onTimer, heq, htimer]

theorem block_anchorMaster {unit align : ℕ} {timing : Timing} {s t : Hal}
    (h : s.block unit = t.block unit) :
    (anchorMaster align timing s).block unit = (anchorMaster align timing t).block unit := by
  rw [anchorMaster, anchorMaster]
  split
  · rw [centerMasterSetup_eq, centerMasterSetup_eq]
    exact block_onTimer_congr h _ _
  · exact h

section Elsewhere

variable {unit other : ℕ} (h : other ≠ unit)

include h

theorem block_onTimer (f : TimerRegs → TimerRegs) (s : Hal) :
    (onTimer other f s).block unit = s.block unit := by
  simp [Hal.block, onTimer, h.symm]

theorem block_onUnit (f : UnitState → UnitState) (s : Hal) :
    (onUnit other f s).block unit = s.block unit := by
  simp [Hal.block, onUnit, h.symm]

theorem block_onOutput {side : ℕ} (hside : side < 2) (f : OutputRegs → OutputRegs) (s : Hal) :
    (onOutput (outOf other side) f s).block unit = s.block unit := by
  have hne : ∀ side', outOf unit (side' % 2) ≠ outOf other side := by
    intro side' heq
    rw [outOf, outOf] at heq
    omega
  simp [Hal.block, onOutput, hne]

theorem block_applyCrossbars (s : Hal) : (applyCrossbars other s).block unit = s.block unit := by
  have hcompare : ∀ x t, (setCompareOf other x t).block unit = t.block unit := by
    intro x t
    rw [setCompareOf]
    split
    · exact block_onTimer h _ t
    · rfl
  simp only [applyCrossbars, outSetOutputSetSrc, outSetOutputResetSrc,
    block_onOutput h (show 0 < 2 by decide), block_onOutput h (show 1 < 2 by decide), hcompare]

/-- Apart from its own unit a change of frequency writes the shared master only. -/
theorem block_pwmFreqApply (timing : Timing) (s : Hal) :
    (pwmFreqApply other timing s).block unit =
      (anchorMaster (s.units other).align timing s).block unit := by
  unfold pwmFreqApply
  extract_lets restart s₁ s₂ s₃ s₄
  have hunits : s₂.units = s.units := by
    have h₁ : s₁.units = s.units := view_ite rfl rfl
    exact h₁
  have h₁ : s₁.block unit = s.block unit := view_ite (block_onTimer h _ s) rfl
  have h₂ : s₂.block unit = s.block unit := (block_onTimer h _ s₁).trans h₁
  have h₃ : s₃.block unit = (anchorMaster (s.units other).align timing s).block unit := by
    rw [← hunits]
    exact block_anchorMaster h₂
  have h₄ : s₄.block unit = s₃.block unit := by
    simp only [s₄, setUpdateDisabled, forceUpdate, timSetPeriod, timSetPrescaler, block_onTimer h,
      block_applyCrossbars h, block_onUnit h]
  exact view_ite ((block_onTimer h _ s₄).trans (h₄.trans h₃)) (h₄.trans h₃)

theorem block_pwmInitConfigure (cfg : PwmCfg) (timing : Timing) (s : Hal) :
    (pwmInitConfigure other cfg timing s).block unit = s.block unit := by
  have hout : ∀ {side}, side < 2 → ∀ negative idle t,
      (outConfig (outOf other side) negative idle t).block unit = t.block unit := by
    intro side hside negative idle t
    exact block_onOutput h hside
      (fun r => { r with negativePolarity := negative, idleActive := idle }) t
  unfold pwmInitConfigure
  extract_lets s₁ s₂
  have h₁ : s₁.block unit = s.block unit := by
    refine (view_turnsWhileNot (fun t => ?_) 3 _).trans ?_ <;>
      simp only [timDisablePreload, timSetPrescaler, timSetPeriod, timSetCountingMode,
        timSetResetTrig, timSetCounterMode, timSetUpdateTrig, timEnablePreload, forceUpdate,
        block_onTimer h, block_onUnit h, block_applyCrossbars h, hout (show 0 < 2 by decide),
        hout (show 1 < 2 by decide)]
  have h₂ : s₂.block unit = s.block unit :=
    view_ite ((block_onUnit h _ _).trans h₁) ((block_onUnit h _ s₁).trans h₁)
  exact h₂

theorem block_programDeadtime (riseNs fallNs : UInt32) :
    (programDeadtime other riseNs fallNs).Keeps (Hal.block unit) := by
  intro s
  rw [programDeadtime]
  split
  · simp only [Procedure.write_apply, timDisableDeadTime, dtSetRisingValue, dtSetFallingValue,
      block_onTimer h]
  · rw [Procedure.read_bind]
    cases solveDeadtime s.clkHz riseNs fallNs with
    | none => rfl
    | some d =>
        simp only [Procedure.write_apply, timEnableDeadTime, dtSetPrescaler, dtSetRisingValue,
          dtSetFallingValue, block_onTimer h]

end Elsewhere

/-! ## The unit of the call -/

section Own

variable (unit : ℕ)

/-- A write to the timer that leaves prescaler, period and compare registers. -/
theorem program_onTimer {f : TimerRegs → TimerRegs}
    (hf : ∀ r, (f r).prescaler = r.prescaler ∧ (f r).period = r.period ∧
      (f r).compare = r.compare) (s : Hal) :
    (onTimer unit f s).program unit = s.program unit := by
  obtain ⟨hprescaler, hperiod, hcompare⟩ := hf (s.timers unit)
  simp [Hal.program, onTimer, hprescaler, hperiod, hcompare]

/-- A unit whose registers are those of its stored configuration. -/
def InStep (s : Hal) : Prop := (s.program unit).Shows (s.units unit)

theorem inStep_onTimer {s : Hal} (h : InStep unit s) {f : TimerRegs → TimerRegs}
    (hf : ∀ r, (f r).prescaler = r.prescaler ∧ (f r).period = r.period ∧
      (f r).compare = r.compare) : InStep unit (onTimer unit f s) := by
  rw [InStep, program_onTimer unit hf]
  exact h

theorem inStep_applyCrossbars {s : Hal}
    (hratio : (s.timers unit).prescaler = (s.units unit).ratio)
    (hperiod : (s.timers unit).period = (s.units unit).period) :
    InStep unit (applyCrossbars unit s) := by
  rw [InStep, applyCrossbars_units]
  exact applyCrossbars_shows hratio hperiod

theorem pwmFreqApply_own (timing : Timing) (s : Hal) :
    InStep unit (pwmFreqApply unit timing s) ∧
      (pwmFreqApply unit timing s).units unit = { s.units unit with
        ratio := timing.ratio, ratioIdx := timing.ratioIdx, period := timing.period } := by
  unfold pwmFreqApply
  extract_lets restart s₁ s₂ s₃ s₄
  have hunits : s₃.units = s.units := by
    have h₁ : s₁.units = s.units := view_ite rfl rfl
    have h₂ : s₂.units = s.units := h₁
    refine view_ite ?_ h₂
    rw [centerMasterSetup_eq]
    exact h₂
  have h₄ : InStep unit s₄ := by
    simp only [s₄, forceUpdate, setUpdateDisabled]
    refine inStep_onTimer unit (inStep_applyCrossbars unit ?_ ?_) ?_
    · simp [timSetPrescaler, timSetPeriod, onUnit, onTimer]
    · simp [timSetPrescaler, timSetPeriod, onUnit, onTimer]
    · intro r
      exact ⟨rfl, rfl, rfl⟩
  have hst : s₄.units unit = { s.units unit with
      ratio := timing.ratio, ratioIdx := timing.ratioIdx, period := timing.period } := by
    have happlied : s₄.units unit = { s₃.units unit with
        ratio := timing.ratio, ratioIdx := timing.ratioIdx, period := timing.period } := by
      simp only [s₄, forceUpdate, setUpdateDisabled, onTimer, applyCrossbars_units]
      simp [timSetPrescaler, timSetPeriod, onUnit, onTimer]
    rw [happlied, hunits]
  split_ifs
  · refine ⟨inStep_onTimer unit h₄ ?_, hst⟩
    intro r
    exact ⟨rfl, rfl, rfl⟩
  · exact ⟨h₄, hst⟩

theorem inStep_outConfig {s : Hal} (h : InStep unit s) (out : ℕ) (negative idle : Bool) :
    InStep unit (outConfig out negative idle s) := by
  have hsources : ∀ out', ((outConfig out negative idle s).outputs out').setSrc =
        (s.outputs out').setSrc ∧
      ((outConfig out negative idle s).outputs out').resetSrc = (s.outputs out').resetSrc := by
    intro out'
    by_cases heq : out' = out
    · subst heq
      simp [outConfig, outSetFaultState, onOutput]
    · simp [outConfig, outSetFaultState, onOutput, heq]
  have hprogram : (outConfig out negative idle s).program unit = s.program unit := by
    simp only [Hal.program, hsources]
    rfl
  rw [InStep, hprogram]
  exact h

/-- `shrtim_pwm_init` up to the writes of the crossbars. -/
def pwmInitStored (cfg : PwmCfg) (timing : Timing) (s : Hal) : Hal := s
  |> timDisablePreload unit
  |> timSetPrescaler unit timing.ratio
  |> timSetPeriod unit timing.period
  |> timSetCountingMode unit (countingModeOf cfg.align)
  |> timSetResetTrig unit (if cfg.align = alignCenter then .masterPer else .none)
  |> timSetCounterMode unit (counterModeOf cfg.run)
  |> onUnit unit (fun st => { st with
        ratio := timing.ratio, ratioIdx := timing.ratioIdx, period := timing.period,
        duty := cfg.duty, duty2 := cfg.duty2, align := cfg.align, configured := true })

/-- `shrtim_pwm_init` up to the loop that reads the registers back. -/
def pwmInitWritten (cfg : PwmCfg) (timing : Timing) (s : Hal) : Hal :=
  pwmInitStored unit cfg timing s
    |> applyCrossbars unit
    |> outConfig (outOf unit 0) cfg.activeLow1 cfg.idleActive1
    |> outConfig (outOf unit 1) cfg.activeLow2 cfg.idleActive2
    |> timSetUpdateTrig unit .reset
    |> forceUpdate
    |> timEnablePreload unit
    |> forceUpdate

variable {cfg : PwmCfg} {timing : Timing} {s : Hal}

theorem pwmInitStored_timer :
    ((pwmInitStored unit cfg timing s).timers unit).prescaler = timing.ratio ∧
      ((pwmInitStored unit cfg timing s).timers unit).countingMode = countingModeOf cfg.align ∧
      ((pwmInitStored unit cfg timing s).timers unit).period = timing.period := by
  simp [pwmInitStored, timDisablePreload, timSetPrescaler, timSetPeriod, timSetCountingMode,
    timSetResetTrig, timSetCounterMode, onUnit, onTimer]

theorem pwmInitStored_unit :
    (pwmInitStored unit cfg timing s).units unit = { s.units unit with
      ratio := timing.ratio, ratioIdx := timing.ratioIdx, period := timing.period,
      duty := cfg.duty, duty2 := cfg.duty2, align := cfg.align, configured := true } := by
  simp [pwmInitStored, timDisablePreload, timSetPrescaler, timSetPeriod, timSetCountingMode,
    timSetResetTrig, timSetCounterMode, onUnit, onTimer]

theorem pwmInitWritten_inStep : InStep unit (pwmInitWritten unit cfg timing s) := by
  obtain ⟨hprescaler, -, hperiod⟩ := @pwmInitStored_timer unit cfg timing s
  have happlied : InStep unit (applyCrossbars unit (pwmInitStored unit cfg timing s)) := by
    apply inStep_applyCrossbars
    · rw [hprescaler, pwmInitStored_unit]
    · rw [hperiod, pwmInitStored_unit]
  have hout := inStep_outConfig unit (inStep_outConfig unit happlied (outOf unit 0) cfg.activeLow1
    cfg.idleActive1) (outOf unit 1) cfg.activeLow2 cfg.idleActive2
  simp only [pwmInitWritten, forceUpdate, timSetUpdateTrig, timEnablePreload, onTimer_onTimer]
  refine inStep_onTimer unit hout ?_
  intro r
  exact ⟨rfl, rfl, rfl⟩

theorem pwmInitWritten_unit :
    (pwmInitWritten unit cfg timing s).units unit = { s.units unit with
      ratio := timing.ratio, ratioIdx := timing.ratioIdx, period := timing.period,
      duty := cfg.duty, duty2 := cfg.duty2, align := cfg.align, configured := true } := by
  have hunits : (pwmInitWritten unit cfg timing s).units =
      (applyCrossbars unit (pwmInitStored unit cfg timing s)).units := rfl
  rw [hunits, applyCrossbars_units, pwmInitStored_unit]

/-- The registers read back as written, so that the loop ends at once. -/
theorem pwmInitWritten_timer :
    ((pwmInitWritten unit cfg timing s).timers unit).prescaler = timing.ratio ∧
      ((pwmInitWritten unit cfg timing s).timers unit).countingMode = countingModeOf cfg.align ∧
      ((pwmInitWritten unit cfg timing s).timers unit).period = timing.period := by
  have htimer := applyCrossbars_timer unit (pwmInitStored unit cfg timing s)
  obtain ⟨hprescaler, hmode, hperiod⟩ := @pwmInitStored_timer unit cfg timing s
  simp only [pwmInitWritten, forceUpdate, timSetUpdateTrig, timEnablePreload, outConfig,
    outSetFaultState, onOutput, onTimer_onTimer]
  rw [onTimer]
  simp only [Function.update_self]
  rw [htimer]
  exact ⟨hprescaler, hmode, hperiod⟩

theorem turnsWhileNot_of_done {done : Hal → Bool} {s : Hal} (h : done s = true)
    (body : Hal → Hal) (count : ℕ) : turnsWhileNot done body count s = s := by
  cases count with
  | zero => rfl
  | succ count => rw [turnsWhileNot, if_pos h]

/-- The configuration that `shrtim_pwm_init` stores, whatever outputs are wanted. -/
theorem pwmInitConfigure_own :
    InStep unit (pwmInitConfigure unit cfg timing s) ∧
      ∃ wanted, (pwmInitConfigure unit cfg timing s).units unit = {
        ratio := timing.ratio, ratioIdx := timing.ratioIdx, period := timing.period,
        duty := cfg.duty, duty2 := cfg.duty2, align := cfg.align, configured := true,
        outWanted := wanted } := by
  unfold pwmInitConfigure
  extract_lets s₁ s₂
  have hdone := @pwmInitWritten_timer unit cfg timing s
  have hwritten : s₁ = pwmInitWritten unit cfg timing s :=
    turnsWhileNot_of_done (decide_eq_true hdone) _ _
  have hunit := @pwmInitWritten_unit unit cfg timing s
  have hinStep := @pwmInitWritten_inStep unit cfg timing s
  rw [← hwritten] at hunit hinStep
  have hwanted : ∀ t : Hal, ∀ wanted, InStep unit t →
      InStep unit (onUnit unit (fun st => { st with outWanted := wanted }) t) := by
    intro t wanted ht
    rw [InStep, onUnit]
    simp only [Function.update_self]
    exact ⟨ht.prescaler, ht.period, ht.set1, ht.reset1, ht.set2, ht.reset2, ht.compare1,
      ht.compare2⟩
  by_cases houtputs : cfg.enableOutputs = true
  · have hs₂ : s₂ = onUnit unit (fun st => { st with outWanted := fun _ => true })
        (enableOutput (outOf unit 1) (enableOutput (outOf unit 0) s₁)) := if_pos houtputs
    rw [hs₂]
    refine ⟨hwanted _ _ hinStep, fun _ => true, ?_⟩
    simp [onUnit, enableOutput, hunit]
  · have hs₂ : s₂ = onUnit unit (fun st => { st with outWanted := fun _ => false }) s₁ :=
      if_neg houtputs
    rw [hs₂]
    refine ⟨hwanted _ _ hinStep, fun _ => false, ?_⟩
    simp [onUnit, hunit]

end Own

/-! ## Calls and their settings -/

/-- The calls that program a unit. -/
inductive PwmCall
  | init (unit : ℕ) (cfg : Option PwmCfg)
  | freq (unit : ℕ) (hz : UInt32)
  | duty (unit : ℕ) (duty : UInt32)
  | duty2 (unit : ℕ) (duty : UInt32)

def PwmCall.perform : PwmCall → Procedure Rc Hal Unit
  | .init unit cfg => shrtimPwmInit unit cfg
  | .freq unit hz => shrtimPwmFreq unit hz
  | .duty unit d => shrtimPwmDuty unit d
  | .duty2 unit d => shrtimPwmDuty2 unit d

def PwmCall.unit : PwmCall → ℕ
  | .init unit _ | .freq unit _ | .duty unit _ | .duty2 unit _ => unit

/-- Frequency, duties and alignment. -/
structure Settings where
  freqHz : UInt32
  duty : UInt32
  duty2 : UInt32
  align : ℕ

def PwmCfg.settings (cfg : PwmCfg) : Settings := ⟨cfg.freqHz, cfg.duty, cfg.duty2, cfg.align⟩

/-- The settings in a configuration without dead time. -/
def Settings.cfg (settings : Settings) : PwmCfg :=
  { pwmCfgDefault with
    freqHz := settings.freqHz, duty := settings.duty, duty2 := settings.duty2,
    align := settings.align }

/-- The settings of a unit after a call that succeeds. -/
def PwmCall.record (unit : ℕ) (c : PwmCall) (settings : Option Settings) : Option Settings :=
  if c.unit = unit then
    match c with
    | .init _ cfg => cfg.map PwmCfg.settings
    | .freq _ hz => settings.map fun x => { x with freqHz := hz }
    | .duty _ d => settings.map fun x => { x with duty := d }
    | .duty2 _ d => settings.map fun x => { x with duty2 := d }
  else
    settings

/-- The last settings of a unit, once it is initialised. -/
def finalSettings (unit : ℕ) (calls : List PwmCall) : Option Settings :=
  calls.foldl (fun settings c => c.record unit settings) none

/-- The frequency that a call of a center-aligned unit gives to the master. -/
def PwmCall.anchor (c : PwmCall) (s : Hal) : Option UInt32 :=
  match c with
  | .init _ cfg => cfg.bind fun cfg => if cfg.align = alignCenter then some cfg.freqHz else none
  | .freq unit hz => if (s.units unit).align = alignCenter then some hz else none
  | _ => none

/-- Calls one after the other, up to the first that is rejected. -/
def performEach : List PwmCall → Procedure Rc Hal Unit
  | [] => pure ()
  | c :: calls => do
      c.perform
      performEach calls

/-- The last frequency that the calls give to the master. -/
def lastAnchor : List PwmCall → Hal → Option UInt32
  | [], _ => none
  | c :: calls, s => (lastAnchor calls (c.perform s).2).or (c.anchor s)

/-- A configuration that `shrtim_pwm_init` accepts. -/
structure InitAccepted (clkHz : UInt32) (unit : ℕ) (settings : Settings) (timing : Timing) :
    Prop where
  unit_lt : unit < halUnits
  freq_ne : settings.freqHz ≠ 0
  duty_le : settings.duty ≤ 1000
  duty2_le : settings.duty2 ≤ 1000
  align_le : settings.align ≤ alignCenter
  clk_ne : clkHz ≠ 0
  solved : solveTiming clkHz settings.freqHz (cycleMult settings.align) = .ok timing
  anchored : anchorCheck settings.align timing = .ok ()

theorem pwmInitChecks_eq_ok {clkHz : UInt32} {unit : ℕ} {cfg : PwmCfg} {c : PwmCfg × Timing}
    (h : pwmInitChecks clkHz unit (some cfg) = .ok c) :
    c.1 = cfg ∧ InitAccepted clkHz unit cfg.settings c.2 := by
  obtain ⟨_, hcfg, h⟩ := ok_of_bind h
  cases hcfg
  obtain ⟨_, hunit, h⟩ := ok_of_bind h
  obtain ⟨_, hbounds, h⟩ := ok_of_bind h
  obtain ⟨_, hclk, h⟩ := ok_of_bind h
  obtain ⟨timing, htiming, h⟩ := ok_of_bind h
  obtain ⟨_, hanchor, h⟩ := ok_of_bind h
  cases h
  have hin := reject_eq_ok.mp hbounds
  rw [not_or, not_or, not_or, not_or] at hin
  obtain ⟨hfreq, hduty, hduty2, halign, -⟩ := hin
  exact ⟨rfl, Nat.not_le.mp (reject_eq_ok.mp hunit), hfreq, UInt32.not_lt.mp hduty,
    UInt32.not_lt.mp hduty2, Nat.not_lt.mp halign, reject_eq_ok.mp hclk, htiming, hanchor⟩

theorem pwmInitChecks_of_accepted {clkHz : UInt32} {unit : ℕ} {settings : Settings}
    {timing : Timing} (h : InitAccepted clkHz unit settings timing) :
    pwmInitChecks clkHz unit (some settings.cfg) = .ok (settings.cfg, timing) := by
  have hbounds : ¬(settings.cfg.freqHz = 0 ∨ 1000 < settings.cfg.duty ∨ 1000 < settings.cfg.duty2 ∨
      alignCenter < settings.cfg.align ∨ 2 < settings.cfg.run) := by
    rw [not_or, not_or, not_or, not_or]
    exact ⟨h.freq_ne, UInt32.not_lt.mpr h.duty_le, UInt32.not_lt.mpr h.duty2_le,
      Nat.not_lt.mpr h.align_le, Nat.not_lt.mpr (Nat.zero_le 2)⟩
  have hsolved : solveTiming clkHz settings.cfg.freqHz (cycleMult settings.cfg.align) =
      .ok timing := h.solved
  have hanchored : anchorCheck settings.cfg.align timing = .ok () := h.anchored
  rw [pwmInitChecks, Option.elim, ok_bind, unitCheck, reject, if_neg (Nat.not_le.mpr h.unit_lt),
    ok_bind, reject, if_neg hbounds, ok_bind, reject, if_neg h.clk_ne, ok_bind, hsolved, ok_bind,
    hanchored, ok_bind]
  rfl

/-! ## One call -/

/-- The prescaler and the period that a frequency gives to the master. -/
def Anchored (clkHz hz : UInt32) (r : TimerRegs) : Prop :=
  ∃ timing, solveTiming clkHz hz 2 = .ok timing ∧
    r.prescaler = ratioHw.getD (timing.ratioIdx + 1) .div4 ∧ r.period = timing.period

/-- A unit that is programmed as its settings say, and that would be initialised so. -/
structure Reflects (unit : ℕ) (settings : Settings) (s : Hal) : Prop where
  accepted : InitAccepted s.clkHz unit settings (s.units unit).timing
  duty : (s.units unit).duty = settings.duty
  duty2 : (s.units unit).duty2 = settings.duty2
  align : (s.units unit).align = settings.align
  inStep : InStep unit s

theorem inStep_of_block {unit : ℕ} {s t : Hal} (h : t.block unit = s.block unit)
    (hs : InStep unit s) : InStep unit t := by
  obtain ⟨htimer, hrest⟩ := Prod.mk.inj h
  obtain ⟨houtputs, hunit⟩ := Prod.mk.inj hrest
  have h0 : t.outputs (outOf unit 0) = s.outputs (outOf unit 0) := congrFun houtputs 0
  have h1 : t.outputs (outOf unit 1) = s.outputs (outOf unit 1) := congrFun houtputs 1
  rw [InStep, hunit]
  exact ⟨(congrArg TimerRegs.prescaler htimer).trans hs.prescaler,
    (congrArg TimerRegs.period htimer).trans hs.period,
    (congrArg OutputRegs.setSrc h0).trans hs.set1,
    (congrArg OutputRegs.resetSrc h0).trans hs.reset1,
    (congrArg OutputRegs.setSrc h1).trans hs.set2,
    (congrArg OutputRegs.resetSrc h1).trans hs.reset2,
    fun c hc => (congrArg (fun r => r.compare c.1) htimer).trans (hs.compare1 c hc),
    fun c hc => (congrArg (fun r => r.compare c.1) htimer).trans (hs.compare2 c hc)⟩

theorem Reflects.of_block {unit : ℕ} {settings : Settings} {s t : Hal}
    (hs : Reflects unit settings s) (hclk : t.clkHz = s.clkHz)
    (h : t.block unit = s.block unit) : Reflects unit settings t := by
  have hunit : t.units unit = s.units unit := (Prod.mk.inj (Prod.mk.inj h).2).2
  refine ⟨?_, ?_, ?_, ?_, inStep_of_block h hs.inStep⟩
  · rw [hclk, hunit]
    exact hs.accepted
  · rw [hunit, hs.duty]
  · rw [hunit, hs.duty2]
  · rw [hunit, hs.align]

/-- What a call that succeeds does, to its own unit, to the other units and to the master. -/
structure PwmCall.Effect (c : PwmCall) (s t : Hal) : Prop where
  unit_lt : c.unit < halUnits
  clkHz : t.clkHz = s.clkHz
  elsewhere : ∀ unit < halUnits, c.unit ≠ unit → t.block unit = s.block unit
  master_kept : c.anchor s = none → t.timers unitMaster = s.timers unitMaster
  master : ∀ hz, c.anchor s = some hz → Anchored s.clkHz hz (t.timers unitMaster)
  own : ∀ before settings, (∀ x, before = some x → Reflects c.unit x s) →
    c.record c.unit before = some settings → Reflects c.unit settings t

/-- The shared master after the timing of a unit. -/
theorem anchorMaster_elsewhere {unit : ℕ} (hunit : unit < halUnits) (align : ℕ) (timing : Timing)
    (s : Hal) : (anchorMaster align timing s).block unit = s.block unit := by
  rw [anchorMaster]
  split
  · rw [centerMasterSetup_eq, block_onTimer (show unitMaster ≠ unit from hunit.ne')]
  · rfl

theorem anchorMaster_kept {align : ℕ} (h : align ≠ alignCenter) (timing : Timing) (s : Hal) :
    anchorMaster align timing s = s :=
  if_neg h

theorem anchorMaster_anchored {clkHz hz : UInt32} {align : ℕ} (h : align = alignCenter)
    {timing : Timing} (hsolved : solveTiming clkHz hz (cycleMult align) = .ok timing) (s : Hal) :
    Anchored clkHz hz ((anchorMaster align timing s).timers unitMaster) := by
  rw [cycleMult, if_pos h] at hsolved
  refine ⟨timing, hsolved, ?_⟩
  rw [anchorMaster, if_pos h, centerMasterSetup_eq]
  simp [onTimer, TimerRegs.anchored]

theorem timers_of_block {unit : ℕ} {s t : Hal} (h : t.block unit = s.block unit) :
    t.timers unit = s.timers unit :=
  (Prod.mk.inj h).1

theorem clkHz_pwmInitConfigure (unit : ℕ) (cfg : PwmCfg) (timing : Timing) (s : Hal) :
    (pwmInitConfigure unit cfg timing s).clkHz = s.clkHz := by
  unfold pwmInitConfigure
  extract_lets s₁ s₂
  have h₁ : s₁.clkHz = s.clkHz := by
    have hloop : s₁.clkHz = (applyCrossbars unit (pwmInitStored unit cfg timing s)).clkHz :=
      view_turnsWhileNot (fun t => by rfl) 3 _
    exact hloop.trans (untimed_clkHz.applyCrossbars unit _)
  have h₂ : s₂.clkHz = s.clkHz := view_ite h₁ h₁
  exact h₂

theorem pwmInit_effect {unit : ℕ} {cfg : Option PwmCfg} {s t : Hal}
    (h : shrtimPwmInit unit cfg s = (.ok (), t)) : (PwmCall.init unit cfg).Effect s t := by
  cases hchecks : pwmInitChecks s.clkHz unit cfg with
  | error e =>
      rw [shrtimPwmInit_of_rejected hchecks] at h
      cases h
  | ok c =>
      obtain ⟨hcfg, -⟩ := pwmInitChecks_ok hchecks
      subst hcfg
      obtain ⟨-, haccepted⟩ := pwmInitChecks_eq_ok hchecks
      rw [shrtimPwmInit_of_checks hchecks] at h
      obtain ⟨_, u, hdead, hwrite⟩ := Procedure.bind_eq_ok h
      cases hwrite
      have hclk : u.clkHz = s.clkHz := by
        have hkeeps := untimed_clkHz.programDeadtime unit c.1.dtRiseNs c.1.dtFallNs
          (pwmInitStopped unit c.1 c.2 s)
        rw [hdead] at hkeeps
        refine hkeeps.trans ?_
        exact view_ite (untimed_clkHz.centerMasterSetup _ _ s) rfl
      have hblock : ∀ other, unit ≠ other → (pwmInitConfigure unit c.1 c.2 u).block other =
          (anchorMaster c.1.align c.2 s).block other := by
        intro other hne
        have hkeeps := block_programDeadtime hne c.1.dtRiseNs c.1.dtFallNs
          (pwmInitStopped unit c.1 c.2 s)
        rw [hdead] at hkeeps
        rw [block_pwmInitConfigure hne, hkeeps, pwmInitStopped, timCounterDisable,
          block_onTimer hne]
        rfl
      have hmaster := timers_of_block (hblock unitMaster haccepted.unit_lt.ne)
      refine ⟨haccepted.unit_lt, (clkHz_pwmInitConfigure _ _ _ u).trans hclk, ?_, ?_, ?_, ?_⟩
      · intro other hother hne
        exact (hblock other hne).trans (anchorMaster_elsewhere hother _ _ s)
      · intro hnone
        have hedge : c.1.align ≠ alignCenter := by
          intro hcenter
          simp [PwmCall.anchor, hcenter] at hnone
        rw [hmaster, anchorMaster_kept hedge]
      · intro hz hsome
        have hcenter : c.1.align = alignCenter ∧ c.1.freqHz = hz := by
          simpa [PwmCall.anchor] using hsome
        rw [hmaster]
        exact anchorMaster_anchored hcenter.1 (hcenter.2 ▸ haccepted.solved) s
      · intro before settings _ hrecord
        have hsettings : c.1.settings = settings := by
          simpa [PwmCall.record, PwmCall.unit] using hrecord
        subst hsettings
        obtain ⟨hinStep, wanted, hunit⟩ := @pwmInitConfigure_own unit c.1 c.2 u
        refine ⟨?_, ?_, ?_, ?_, hinStep⟩
        · rw [clkHz_pwmInitConfigure, hclk]
          simpa [PwmCall.unit, UnitState.timing, hunit] using haccepted
        · simp [PwmCall.unit, hunit, PwmCfg.settings]
        · simp [PwmCall.unit, hunit, PwmCfg.settings]
        · simp [PwmCall.unit, hunit, PwmCfg.settings]

theorem pwmFreq_effect {unit : ℕ} {hz : UInt32} {s t : Hal}
    (h : shrtimPwmFreq unit hz s = (.ok (), t)) : (PwmCall.freq unit hz).Effect s t := by
  obtain ⟨_, hunit, h⟩ := Procedure.attempt_bind_eq_ok h
  rw [Procedure.read_bind] at h
  obtain ⟨_, hconfigured, h⟩ := Procedure.attempt_bind_eq_ok h
  obtain ⟨timing, hsolved, h⟩ := Procedure.attempt_bind_eq_ok h
  obtain ⟨_, hanchored, h⟩ := Procedure.attempt_bind_eq_ok h
  cases h
  dsimp only [id] at hsolved hanchored
  have hlt : unit < halUnits := Nat.not_le.mp (reject_eq_ok.mp hunit)
  have hclk : (pwmFreqApply unit timing s).clkHz = s.clkHz :=
    untimed_clkHz.pwmFreqApply unit timing s
  have hmaster := timers_of_block (block_pwmFreqApply (show unit ≠ unitMaster from hlt.ne) timing s)
  refine ⟨hlt, hclk, ?_, ?_, ?_, ?_⟩
  · intro other hother hne
    exact (block_pwmFreqApply hne timing s).trans (anchorMaster_elsewhere hother _ _ s)
  · intro hnone
    have hedge : (s.units unit).align ≠ alignCenter := by
      intro hcenter
      simp [PwmCall.anchor, hcenter] at hnone
    rw [hmaster, anchorMaster_kept hedge]
  · intro hz' hsome
    have hcenter : (s.units unit).align = alignCenter ∧ hz = hz' := by
      simpa [PwmCall.anchor] using hsome
    rw [hmaster]
    exact anchorMaster_anchored hcenter.1 (hcenter.2 ▸ hsolved) s
  · intro before settings hbefore hrecord
    obtain ⟨x, hx, hsettings⟩ : ∃ x, before = some x ∧ { x with freqHz := hz } = settings := by
      simpa [PwmCall.record, PwmCall.unit] using hrecord
    subst hsettings
    have hs := hbefore x hx
    obtain ⟨hinStep, hown⟩ := pwmFreqApply_own unit timing s
    have hne : hz ≠ 0 := by
      rintro rfl
      cases hsolved
    have haligned : (s.units unit).align = x.align := hs.align
    rw [haligned] at hsolved hanchored
    refine ⟨?_, ?_, ?_, ?_, hinStep⟩
    · rw [hclk]
      change InitAccepted s.clkHz unit _ ((pwmFreqApply unit timing s).units unit).timing
      rw [hown]
      exact { hs.accepted with freq_ne := hne, solved := hsolved, anchored := hanchored }
    · exact (congrArg UnitState.duty hown).trans hs.duty
    · exact (congrArg UnitState.duty2 hown).trans hs.duty2
    · exact (congrArg UnitState.align hown).trans hs.align

/-- A duty is stored, and the crossbars follow. -/
theorem pwmDutyWith_ok {store : UInt32 → UnitState → UnitState} {unit : ℕ} {duty : UInt32}
    {s t : Hal} (h : pwmDutyWith store unit duty s = (.ok (), t)) :
    unit < halUnits ∧ duty ≤ 1000 ∧ t.clkHz = s.clkHz ∧
      (∀ other, unit ≠ other → t.block other = s.block other) ∧
      t.units unit = store duty (s.units unit) ∧
      ((store duty (s.units unit)).timing = (s.units unit).timing → InStep unit s →
        InStep unit t) := by
  obtain ⟨_, hunit, h⟩ := Procedure.attempt_bind_eq_ok h
  obtain ⟨_, hduty, h⟩ := Procedure.attempt_bind_eq_ok h
  rw [Procedure.read_bind] at h
  obtain ⟨_, -, h⟩ := Procedure.attempt_bind_eq_ok h
  cases h
  refine ⟨Nat.not_le.mp (reject_eq_ok.mp hunit), UInt32.not_lt.mp (reject_eq_ok.mp hduty), ?_, ?_,
    ?_, ?_⟩
  · exact untimed_clkHz.applyCrossbars unit _
  · intro other hne
    simp only [setUpdateDisabled, forceUpdate, block_onTimer hne, block_applyCrossbars hne,
      block_onUnit hne]
  · simp only [setUpdateDisabled, forceUpdate, onTimer, applyCrossbars_units]
    simp [onUnit]
  · intro htiming hs
    obtain ⟨hratio, hperiod, -⟩ := Timing.mk.inj htiming
    simp only [setUpdateDisabled, forceUpdate]
    refine inStep_onTimer unit (inStep_applyCrossbars unit ?_ ?_) ?_
    · have hprescaler : (s.timers unit).prescaler = (s.units unit).ratio := hs.prescaler
      simpa [onTimer, onUnit, hratio] using hprescaler
    · have hcounted : (s.timers unit).period = (s.units unit).period := hs.period
      simpa [onTimer, onUnit, hperiod] using hcounted
    · intro r
      exact ⟨rfl, rfl, rfl⟩

theorem pwmDuty_effect {unit : ℕ} {duty : UInt32} {s t : Hal}
    (h : shrtimPwmDuty unit duty s = (.ok (), t)) : (PwmCall.duty unit duty).Effect s t := by
  obtain ⟨hlt, hduty, hclk, helsewhere, hunit, hinStep⟩ := pwmDutyWith_ok h
  refine ⟨hlt, hclk, fun other _ hne => helsewhere other hne,
    fun _ => timers_of_block (helsewhere unitMaster hlt.ne), ?_, ?_⟩
  · intro hz hsome
    cases hsome
  · intro before settings hbefore hrecord
    obtain ⟨x, hx, hsettings⟩ : ∃ x, before = some x ∧ { x with duty := duty } = settings := by
      simpa [PwmCall.record, PwmCall.unit] using hrecord
    subst hsettings
    have hs := hbefore x hx
    change Reflects unit _ t
    refine ⟨?_, ?_, ?_, ?_, hinStep rfl hs.inStep⟩
    · rw [hclk, hunit]
      exact { hs.accepted with duty_le := hduty }
    · rw [hunit]
    · rw [hunit]
      exact hs.duty2
    · rw [hunit]
      exact hs.align

theorem pwmDuty2_effect {unit : ℕ} {duty : UInt32} {s t : Hal}
    (h : shrtimPwmDuty2 unit duty s = (.ok (), t)) : (PwmCall.duty2 unit duty).Effect s t := by
  obtain ⟨hlt, hduty, hclk, helsewhere, hunit, hinStep⟩ := pwmDutyWith_ok h
  refine ⟨hlt, hclk, fun other _ hne => helsewhere other hne,
    fun _ => timers_of_block (helsewhere unitMaster hlt.ne), ?_, ?_⟩
  · intro hz hsome
    cases hsome
  · intro before settings hbefore hrecord
    obtain ⟨x, hx, hsettings⟩ : ∃ x, before = some x ∧ { x with duty2 := duty } = settings := by
      simpa [PwmCall.record, PwmCall.unit] using hrecord
    subst hsettings
    have hs := hbefore x hx
    change Reflects unit _ t
    refine ⟨?_, ?_, ?_, ?_, hinStep rfl hs.inStep⟩
    · rw [hclk, hunit]
      exact { hs.accepted with duty2_le := hduty }
    · rw [hunit]
      exact hs.duty
    · rw [hunit]
    · rw [hunit]
      exact hs.align

theorem perform_effect {c : PwmCall} {s t : Hal} (h : c.perform s = (.ok (), t)) :
    c.Effect s t := by
  cases c with
  | init unit cfg => exact pwmInit_effect h
  | freq unit hz => exact pwmFreq_effect h
  | duty unit duty => exact pwmDuty_effect h
  | duty2 unit duty => exact pwmDuty2_effect h

/-! ## Runs -/

theorem reflects_step {c : PwmCall} {s t : Hal} (h : c.perform s = (.ok (), t)) {unit : ℕ}
    {before : Option Settings}
    (hbefore : ∀ x, before = some x → Reflects unit x s) :
    ∀ x, c.record unit before = some x → Reflects unit x t := by
  have heffect := perform_effect h
  intro x hx
  by_cases hown : c.unit = unit
  · subst hown
    exact heffect.own before x hbefore hx
  · unfold PwmCall.record at hx
    rw [if_neg hown] at hx
    have hs := hbefore x hx
    exact hs.of_block heffect.clkHz (heffect.elsewhere unit hs.accepted.unit_lt hown)

theorem reflects_run {unit : ℕ} (calls : List PwmCall) {s t : Hal}
    (h : performEach calls s = (.ok (), t)) {before : Option Settings}
    (hbefore : ∀ x, before = some x → Reflects unit x s) :
    t.clkHz = s.clkHz ∧
      ∀ x, calls.foldl (fun settings c => c.record unit settings) before = some x →
        Reflects unit x t := by
  induction calls generalizing s before with
  | nil =>
      cases h
      exact ⟨rfl, hbefore⟩
  | cons c calls ih =>
      obtain ⟨_, u, hc, h⟩ := Procedure.bind_eq_ok h
      obtain ⟨hclk, hfinal⟩ := ih h (reflects_step hc hbefore)
      exact ⟨hclk.trans (perform_effect hc).clkHz, hfinal⟩

theorem anchor_run (calls : List PwmCall) {s t : Hal} (h : performEach calls s = (.ok (), t)) :
    (lastAnchor calls s = none → t.timers unitMaster = s.timers unitMaster) ∧
      ∀ hz, lastAnchor calls s = some hz → Anchored s.clkHz hz (t.timers unitMaster) := by
  induction calls generalizing s with
  | nil =>
      cases h
      refine ⟨fun _ => rfl, ?_⟩
      intro hz hsome
      cases hsome
  | cons c calls ih =>
      obtain ⟨_, u, hc, h⟩ := Procedure.bind_eq_ok h
      obtain ⟨hkept, hlast⟩ := ih h
      have heffect := perform_effect hc
      rw [lastAnchor, hc]
      cases hrest : lastAnchor calls u with
      | none =>
          rw [Option.none_or, hkept hrest]
          exact ⟨heffect.master_kept, heffect.master⟩
      | some hz =>
          rw [Option.some_or, ← heffect.clkHz]
          constructor
          · intro hnone
            cases hnone
          · intro hz' hsome
            cases hsome
            exact hlast hz hrest

/-- An accepted configuration without dead time is programmed. -/
theorem pwmInit_of_accepted {unit : ℕ} {settings : Settings} {timing : Timing} {s : Hal}
    (h : InitAccepted s.clkHz unit settings timing) :
    ∃ t, shrtimPwmInit unit (some settings.cfg) s = (.ok (), t) := by
  rw [shrtimPwmInit_of_checks (pwmInitChecks_of_accepted h)]
  exact ⟨_, rfl⟩

theorem Reflects.agrees {unit : ℕ} {settings : Settings} {s t : Hal}
    (hs : Reflects unit settings s) (ht : Reflects unit settings t) (hclk : s.clkHz = t.clkHz) :
    (s.program unit).Agrees (t.program unit) := by
  have htiming : (s.units unit).timing = (t.units unit).timing := by
    have hsolved := hs.accepted.solved
    rw [hclk, ht.accepted.solved] at hsolved
    exact (Except.ok.inj hsolved).symm
  exact hs.inStep.agrees ht.inStep htiming (hs.duty.trans ht.duty.symm)
    (hs.duty2.trans ht.duty2.symm) (hs.align.trans ht.align.symm)

/-- In every state and for every sequence of calls that all succeed: each unit that was
initialised is programmed as by one `shrtim_pwm_init` with its last settings, which
succeeds, and the master as the last call on a center-aligned unit set it. -/
theorem pwm_path_independence {calls : List PwmCall} {s t : Hal}
    (h : performEach calls s = (.ok (), t)) :
    (∀ unit settings, finalSettings unit calls = some settings → ∀ s', s'.clkHz = s.clkHz →
      (∃ t', shrtimPwmInit unit (some settings.cfg) s' = (.ok (), t')) ∧
      ∀ cfg t', cfg.settings = settings → shrtimPwmInit unit (some cfg) s' = (.ok (), t') →
        (t.program unit).Agrees (t'.program unit)) ∧
    (lastAnchor calls s = none → t.timers unitMaster = s.timers unitMaster) ∧
    ∀ hz, lastAnchor calls s = some hz → Anchored s.clkHz hz (t.timers unitMaster) := by
  refine ⟨?_, anchor_run calls h⟩
  intro unit settings hfinal s' hclk'
  have hnone : ∀ x, (none : Option Settings) = some x → Reflects unit x s := by simp
  obtain ⟨hclk, hreflects⟩ := reflects_run calls h hnone
  have ht := hreflects settings hfinal
  have haccepted : InitAccepted s'.clkHz unit settings (t.units unit).timing := by
    rw [hclk', ← hclk]
    exact ht.accepted
  refine ⟨pwmInit_of_accepted haccepted, ?_⟩
  rintro cfg t' rfl hinit
  have heffect := pwmInit_effect hinit
  have ht' : Reflects unit cfg.settings t' := by
    refine heffect.own none cfg.settings (by simp) ?_
    simp [PwmCall.record]
  exact ht.agrees ht' (hclk.trans (hclk'.symm.trans heffect.clkHz.symm))

/-- Unit A at 20 kHz, its frequency and both duties changed, beside unit B. -/
def sampleCalls : List PwmCall :=
  [.init 0 (some { pwmCfgDefault with align := alignCenter }), .freq 0 40000, .duty 0 250,
    .init 1 (some pwmCfgDefault), .duty2 0 700, .freq 1 50000]

theorem pwm_path_independence_sample :
    ((performEach sampleCalls readySystem.hal).2.program 0).Agrees
        ((shrtimPwmInit 0 (some (Settings.cfg ⟨40000, 250, 700, alignCenter⟩))
          readySystem.hal).2.program 0) ∧
      Anchored 240000000 40000 ((performEach sampleCalls readySystem.hal).2.timers unitMaster) := by
  have hrun : performEach sampleCalls readySystem.hal =
      (.ok (), (performEach sampleCalls readySystem.hal).2) := Prod.ext (by decide +kernel) rfl
  obtain ⟨hunits, -, hmaster⟩ := pwm_path_independence hrun
  obtain ⟨⟨t', ht'⟩, hagrees⟩ := hunits 0 ⟨40000, 250, 700, alignCenter⟩ rfl readySystem.hal rfl
  refine ⟨?_, hmaster 40000 ?_⟩
  · rw [ht']
    exact hagrees _ t' rfl ht'
  · decide +kernel

end Xhive.Shrtim
