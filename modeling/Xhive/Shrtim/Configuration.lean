import Xhive.Shrtim.FaultRuns

/-!
# Configuration calls that are rejected

`shrtim_pwm_freq`, `_duty`, `_duty2` and `_deadtime` leave the state as it was
when they answer an error.  `shrtim_pwm_init` looks at the dead time only after
it has set up the shared master and stopped the unit.
-/

namespace Xhive.Shrtim

open Xhive.Support

/-- In state `s`, an error leaves the state as it was. -/
def KeepsOnError (m : Procedure Rc Hal Unit) (s : Hal) : Prop :=
  ∀ e t, m s = (.error e, t) → t = s

theorem keepsOnError_of_ok {m : Procedure Rc Hal Unit} {s t : Hal} (h : m s = (.ok (), t)) :
    KeepsOnError m s := by
  intro e u hu
  rw [h] at hu
  cases hu

theorem keepsOnError_of_error {m : Procedure Rc Hal Unit} {s t : Hal} {e : Rc}
    (h : m s = (.error e, t)) : KeepsOnError m s ↔ t = s := by
  constructor
  · intro hkeeps
    exact hkeeps e t h
  · rintro rfl e' u hu
    rw [h] at hu
    cases hu
    rfl

/-! ## Dead time -/

/-- The dead time is programmed exactly when it fits, and otherwise nothing is. -/
theorem programDeadtime_cases (unit : ℕ) (riseNs fallNs : UInt32) (s : Hal) :
    (deadtimeFits s.clkHz riseNs fallNs = true ∧
      ∃ t, programDeadtime unit riseNs fallNs s = (.ok (), t)) ∨
    (deadtimeFits s.clkHz riseNs fallNs = false ∧
      programDeadtime unit riseNs fallNs s = (.error .errParam, s)) := by
  by_cases hzero : riseNs = 0 ∧ fallNs = 0
  · left
    rw [programDeadtime, if_pos hzero]
    exact ⟨by simp [deadtimeFits, hzero], _, rfl⟩
  · have hfits : deadtimeFits s.clkHz riseNs fallNs =
        (solveDeadtime s.clkHz riseNs fallNs).isSome := by
      have hnot : (decide (riseNs = 0) && decide (fallNs = 0)) = false := by
        simpa [Bool.and_eq_false_iff, not_and_or] using hzero
      rw [deadtimeFits, hnot, Bool.false_or]
    rw [programDeadtime, if_neg hzero, Procedure.read_bind, hfits]
    cases solveDeadtime s.clkHz riseNs fallNs with
    | none => exact Or.inr ⟨rfl, rfl⟩
    | some d => exact Or.inl ⟨rfl, _, rfl⟩

theorem timCounterEnable_disable {unit : ℕ} {s : Hal} (h : (s.timers unit).counterEnabled = true) :
    timCounterEnable unit (timCounterDisable unit s) = s := by
  rw [timCounterEnable, timCounterDisable, onTimer_onTimer, onTimer_eq_self, ← h]

theorem atomic_pwmDeadtime (unit : ℕ) (riseNs fallNs : UInt32) :
    (shrtimPwmDeadtime unit riseNs fallNs).Atomic := by
  refine .attempt_bind _ fun _ => .read_bind _ fun _ => .attempt_bind _ fun _ => ?_
  intro s e t hrun
  by_cases hrunning : (s.timers unit).counterEnabled = true
  · simp only [hrunning, if_true] at hrun
    rcases programDeadtime_cases unit riseNs fallNs (timCounterDisable unit s) with
      ⟨-, u, hu⟩ | ⟨-, hu⟩
    · rw [hu] at hrun
      cases hrun
    · rw [hu] at hrun
      cases hrun
      exact timCounterEnable_disable hrunning
  · simp only [hrunning, Bool.false_eq_true, if_false] at hrun
    rcases programDeadtime_cases unit riseNs fallNs s with ⟨-, u, hu⟩ | ⟨-, hu⟩
    · rw [hu] at hrun
      cases hrun
    · rw [hu] at hrun
      cases hrun
      rfl

/-! ## Frequency and duty -/

theorem atomic_pwmFreq (unit : ℕ) (hz : UInt32) : (shrtimPwmFreq unit hz).Atomic := by
  refine .attempt_bind _ fun _ => .read_bind _ fun s => .attempt_bind _ fun _ => ?_
  refine .attempt_bind _ fun timing => .attempt_bind _ fun _ => ?_
  exact (Procedure.Unfailing.write _).atomic

theorem atomic_pwmDutyWith (store : UInt32 → UnitState → UnitState) (unit : ℕ) (duty : UInt32) :
    (pwmDutyWith store unit duty).Atomic := by
  refine .attempt_bind _ fun _ => .attempt_bind _ fun _ => .read_bind _ fun s => ?_
  exact .attempt_bind _ fun _ => (Procedure.Unfailing.write _).atomic

/-! ## Initialisation -/

/-- The unit is stopped, and a center alignment finds the master programmed as
it would program it. -/
def AlreadyStopped (unit : ℕ) (c : PwmCfg × Timing) (s : Hal) : Prop :=
  (s.timers unit).counterEnabled = false ∧
    (c.1.align = alignCenter →
      (s.timers unitMaster).anchored (ratioHw.getD (c.2.ratioIdx + 1) .div4) c.2.period =
        s.timers unitMaster)

theorem pwmInitStopped_eq_self {unit : ℕ} (hunit : unit < halUnits) (c : PwmCfg × Timing)
    (s : Hal) : pwmInitStopped unit c.1 c.2 s = s ↔ AlreadyStopped unit c s := by
  have hne : unitMaster ≠ unit := hunit.ne'
  rw [pwmInitStopped, AlreadyStopped]
  by_cases hcenter : c.1.align = alignCenter
  · simp only [hcenter, if_true, true_implies, centerMasterSetup_eq]
    constructor
    · intro h
      have hunit' := congrArg (fun t => (t.timers unit).counterEnabled) h
      have hmaster := congrArg (fun t => t.timers unitMaster) h
      exact ⟨by simpa [timCounterDisable, onTimer] using hunit'.symm,
        by simpa [timCounterDisable, onTimer, hne] using hmaster⟩
    · rintro ⟨hstopped, hmaster⟩
      rw [onTimer_eq_self.mpr hmaster, timCounterDisable, onTimer_eq_self, ← hstopped]
  · simp only [hcenter, if_false, false_implies, and_true, timCounterDisable, onTimer_eq_self]
    constructor
    · intro h
      exact (congrArg TimerRegs.counterEnabled h).symm
    · intro h
      rw [← h]

/-- The checks of `shrtim_pwm_init` fail, or the dead time fits, or stopping
the unit and setting up the master change nothing. -/
def InitKeeps (unit : ℕ) (cfg : Option PwmCfg) (s : Hal) : Prop :=
  ∀ c, pwmInitChecks s.clkHz unit cfg = .ok c →
    deadtimeFits s.clkHz c.1.dtRiseNs c.1.dtFallNs = true ∨ AlreadyStopped unit c s

theorem keepsOnError_pwmInit_iff (unit : ℕ) (cfg : Option PwmCfg) (s : Hal) :
    KeepsOnError (shrtimPwmInit unit cfg) s ↔ InitKeeps unit cfg s := by
  cases hchecks : pwmInitChecks s.clkHz unit cfg with
  | error e =>
      refine iff_of_true ?_ fun c hc => ?_
      · exact (keepsOnError_of_error (shrtimPwmInit_of_rejected hchecks)).mpr rfl
      · rw [hchecks] at hc
        cases hc
  | ok c =>
      have hunit := (pwmInitChecks_ok hchecks).2
      have hclk : (pwmInitStopped unit c.1 c.2 s).clkHz = s.clkHz := by
        rw [pwmInitStopped, centerMasterSetup_eq]
        split <;> rfl
      have hrun := shrtimPwmInit_of_checks hchecks
      have hkeeps : InitKeeps unit cfg s ↔
          deadtimeFits s.clkHz c.1.dtRiseNs c.1.dtFallNs = true ∨ AlreadyStopped unit c s := by
        constructor
        · intro h
          exact h c hchecks
        · intro h c' hc'
          rw [hchecks] at hc'
          cases hc'
          exact h
      rw [hkeeps]
      rcases programDeadtime_cases unit c.1.dtRiseNs c.1.dtFallNs
        (pwmInitStopped unit c.1 c.2 s) with ⟨hfits, t, ht⟩ | ⟨hfits, ht⟩
      · rw [hclk] at hfits
        refine iff_of_true (keepsOnError_of_ok (hrun.trans ((Procedure.bind_ok ht).trans rfl))) ?_
        exact Or.inl hfits
      · rw [hclk] at hfits
        rw [keepsOnError_of_error (hrun.trans (Procedure.bind_error ht)),
          pwmInitStopped_eq_self hunit, hfits]
        simp

/-- In every state and for all arguments: a rejected `shrtim_pwm_freq`, `_duty`,
`_duty2` or `_deadtime` leaves the state as it was, and a rejected
`shrtim_pwm_init` does exactly under `InitKeeps`. -/
theorem configuration_atomic_iff (unit : ℕ) (s : Hal) :
    (∀ cfg, KeepsOnError (shrtimPwmInit unit cfg) s ↔ InitKeeps unit cfg s) ∧
    (∀ hz, KeepsOnError (shrtimPwmFreq unit hz) s) ∧
    (∀ duty, KeepsOnError (shrtimPwmDuty unit duty) s) ∧
    (∀ duty, KeepsOnError (shrtimPwmDuty2 unit duty) s) ∧
    ∀ riseNs fallNs, KeepsOnError (shrtimPwmDeadtime unit riseNs fallNs) s :=
  ⟨fun cfg => keepsOnError_pwmInit_iff unit cfg s,
    fun hz => atomic_pwmFreq unit hz s,
    fun duty => atomic_pwmDutyWith _ unit duty s,
    fun duty => atomic_pwmDutyWith _ unit duty s,
    fun riseNs fallNs => atomic_pwmDeadtime unit riseNs fallNs s⟩

/-- Unit A runs, and is initialised again with a dead time of 100 µs. -/
theorem rejected_init_stops_unit :
    ¬KeepsOnError (shrtimPwmInit 0 (some { pwmCfgDefault with dtRiseNs := 100000 }))
      (shrtimPwmStart 0 (shrtimPwmInit 0 (some pwmCfgDefault) readySystem.hal).2) := by
  intro h
  have hkept := h .errParam _ (Prod.ext (by decide +kernel) rfl)
  have hcounter := congrArg (fun t => (t.timers 0).counterEnabled) hkept
  exact absurd hcounter (by decide +kernel)

end Xhive.Shrtim
