import Xhive.Shrtim.Frames

/-!
# The drive of the outputs, as an abstract machine

Which outputs are driven, and what a fault does to them, is decided by a small
part of the state.  `Protection` is that part, `Action` what an event can do to
it, and `protection_step` says that every event of the system is one action.
-/

namespace Xhive.Shrtim

open Xhive.Support

/-- What decides which outputs are driven. -/
@[ext] structure Protection where
  outEnabled : ℕ → Bool
  faultState : ℕ → FaultState
  faultEnabled : ℕ → ℕ → Bool
  faultFlag : ℕ → Bool
  faultLatch : ℕ → Bool
  faultAttached : ℕ → ℕ
  stoppedOutEn : ℕ → Option (ℕ → Bool)
  outWanted : ℕ → ℕ → Bool
  configured : ℕ → Bool

def Hal.protection (s : Hal) : Protection where
  outEnabled := s.outEnabled
  faultState := s.faultState
  faultEnabled := s.faultEnabled
  faultFlag := s.faultFlag
  faultLatch := s.faultLatch
  faultAttached := s.faultAttached
  stoppedOutEn := s.stoppedOutEn
  outWanted := fun u => (s.units u).outWanted
  configured := fun u => (s.units u).configured

/-- What an event can do to the drive.  `start` and `stop` act on a set of
units, `configure` is a `shrtim_pwm_init` that succeeds, `clear` the clear of a
flag by the interrupt entry. -/
inductive Action
  | idle
  | wipe (dropLatches : Bool)
  | configure (unit : ℕ) (enable : Bool)
  | start (units : ℕ → Bool)
  | stop (units : ℕ → Bool)
  | setOutput (out : ℕ) (enabled : Bool)
  | latch (f : ℕ) (on : Bool)
  | attach (unit mask : ℕ) (out1 out2 : FaultOut)
  | reset (f : ℕ)
  | trip (f : ℕ)
  | clear (f : ℕ)

namespace Protection

/-- Output `o` was driven when its unit was stopped. -/
def saved (p : Protection) (o : ℕ) : Bool :=
  (p.stoppedOutEn (o / 2)).elim false fun bits => bits (o % 2)

/-- Another channel attached to the unit has its flag set. -/
def busy (p : Protection) (unit f : ℕ) : Bool :=
  (List.range 6).any fun k => k ≠ f && (p.faultAttached unit).testBit k && p.faultFlag k

/-- A reset of channel `f` drives output `o`. -/
def resumes (p : Protection) (f o : ℕ) : Bool :=
  o / 2 < halUnits && (p.faultAttached (o / 2)).testBit f && !p.busy (o / 2) f
    && p.configured (o / 2) && p.outWanted (o / 2) (o % 2)

def act : Action → Protection → Protection
  | .idle, p => p
  | .wipe dropLatches, p =>
      { outEnabled := fun _ => false
        faultState := fun _ => .noAction
        faultEnabled := fun _ _ => false
        faultFlag := fun _ => false
        faultLatch := fun f => if dropLatches ∧ f < 6 then false else p.faultLatch f
        faultAttached := fun u => if u < halUnits then 0 else p.faultAttached u
        stoppedOutEn := fun u => if u < halUnits then none else p.stoppedOutEn u
        outWanted := fun u side => if u < halUnits then false else p.outWanted u side
        configured := fun u => if u < halUnits then false else p.configured u }
  | .configure unit enable, p =>
      { p with
        outEnabled := fun o => if enable ∧ o / 2 = unit then true else p.outEnabled o
        faultState := fun o => if o / 2 = unit then .noAction else p.faultState o
        stoppedOutEn := Function.update p.stoppedOutEn unit none
        outWanted := Function.update p.outWanted unit fun _ => enable
        configured := Function.update p.configured unit true }
  | .start units, p =>
      { p with
        outEnabled := fun o => p.outEnabled o || (units (o / 2) && p.saved o)
        stoppedOutEn := fun u => if units u then none else p.stoppedOutEn u }
  | .stop units, p =>
      { p with
        outEnabled := fun o => p.outEnabled o && !units (o / 2)
        stoppedOutEn := fun u =>
          if units u ∧ p.stoppedOutEn u = none then
            some fun side => side < 2 && p.outEnabled (outOf u side)
          else p.stoppedOutEn u }
  | .setOutput out enabled, p =>
      { p with
        outEnabled := Function.update p.outEnabled out enabled
        outWanted := Function.update p.outWanted (out / 2)
          (Function.update (p.outWanted (out / 2)) (out % 2) enabled) }
  | .latch f on, p => { p with faultLatch := Function.update p.faultLatch f on }
  | .attach unit mask out1 out2, p =>
      { p with
        faultState := Function.update
          (Function.update p.faultState (outOf unit 0) (faultStateEncode out1))
          (outOf unit 1) (faultStateEncode out2)
        faultEnabled := Function.update p.faultEnabled unit fun f =>
          p.faultEnabled unit f && !faultsRemoved (p.faultAttached unit) mask f
            || faultsAdded (p.faultAttached unit) mask f
        faultAttached := Function.update p.faultAttached unit mask }
  | .reset f, p =>
      { p with
        faultFlag := if p.faultLatch f then Function.update p.faultFlag f false else p.faultFlag
        outEnabled := fun o => p.outEnabled o || p.resumes f o }
  | .trip f, p =>
      { p with
        faultFlag := Function.update p.faultFlag f true
        outEnabled := fun o => p.outEnabled o && !p.faultEnabled (o / 2) f }
  | .clear f, p => { p with faultFlag := Function.update p.faultFlag f false }

end Protection

/-! ## Writes outside the drive -/

section Frame

variable (s : Hal)

@[simp] theorem protection_onTimer (tmr : ℕ) (f : TimerRegs → TimerRegs) :
    (onTimer tmr f s).protection = s.protection := rfl

@[simp] theorem protection_onOutput (out : ℕ) (f : OutputRegs → OutputRegs) :
    (onOutput out f s).protection = s.protection := rfl

@[simp] theorem protection_setIden (tmr : ℕ) (evt : Evt) (enable : Bool) :
    (setIden tmr evt enable s).protection = s.protection := rfl

theorem protection_onUnit (unit : ℕ) (f : UnitState → UnitState) :
    (onUnit unit f s).protection =
      { s.protection with
        outWanted :=
          Function.update s.protection.outWanted unit (f (s.units unit)).outWanted
        configured :=
          Function.update s.protection.configured unit (f (s.units unit)).configured } := by
  have hfield : ∀ {V : Type} (g : UnitState → V),
      (fun u => g ((onUnit unit f s).units u)) =
        Function.update (fun u => g (s.units u)) unit (g (f (s.units unit))) := by
    intro V g
    funext u
    by_cases h : u = unit <;> simp [onUnit, Function.update, h]
  simp only [Hal.protection, hfield]
  rfl

theorem protection_stormGuard (tmr i : ℕ) (still : Bool) :
    (stormGuard tmr i still s).protection = s.protection := by
  unfold stormGuard
  split
  · split <;> rfl
  · rfl

/-- The configuration of a unit, its wanted outputs and `configured` apart. -/
theorem protection_onUnit_of {unit : ℕ} {f : UnitState → UnitState}
    (hwanted : (f (s.units unit)).outWanted = (s.units unit).outWanted)
    (hconfigured : (f (s.units unit)).configured = (s.units unit).configured) :
    (onUnit unit f s).protection = s.protection := by
  rw [protection_onUnit, hwanted, hconfigured]
  ext : 1 <;> first | rfl | exact Function.update_eq_self unit _

@[simp] theorem protection_enableOutput (out : ℕ) :
    (enableOutput out s).protection =
      { s.protection with outEnabled := Function.update s.protection.outEnabled out true } := rfl

@[simp] theorem protection_outConfig (out : ℕ) (negative idleActive : Bool) :
    (outConfig out negative idleActive s).protection =
      { s.protection with
        faultState := Function.update s.protection.faultState out .noAction } := rfl

end Frame

/-- The timing calls keep the drive. -/
theorem untimed_protection : Untimed Hal.protection where
  timer _ _ _ := rfl
  output _ _ _ := rfl
  unit _ _ s := protection_onUnit_of s

/-! ## Calls that act on the drive -/

theorem eq_half_iff {o unit : ℕ} : o / 2 = unit ↔ o = outOf unit 0 ∨ o = outOf unit 1 := by
  simp only [outOf]
  omega

/-- Writing one value to both outputs of a unit. -/
theorem update_outputs {V : Type} (g : ℕ → V) (unit : ℕ) (v : V) :
    Function.update (Function.update g (outOf unit 0) v) (outOf unit 1) v =
      fun o => if o / 2 = unit then v else g o := by
  funext o
  simp only [Function.update_apply, eq_half_iff]
  by_cases h₁ : o = outOf unit 1
  · simp [h₁]
  · simp [h₁]

theorem protection_pwmInitConfigure (unit : ℕ) (cfg : PwmCfg) (timing : Timing) (s : Hal) :
    (pwmInitConfigure unit cfg timing s).protection =
      s.protection.act (.configure unit cfg.enableOutputs) := by
  unfold pwmInitConfigure
  extract_lets s₁ s₂
  have h₁ : s₁.protection =
      { s.protection with
        faultState := fun o => if o / 2 = unit then .noAction else s.faultState o
        configured := Function.update s.protection.configured unit true } := by
    refine (view_turnsWhileNot ?_ 3 _).trans ?_
    · exact fun t => rfl
    · simp only [timEnablePreload, forceUpdate, timSetUpdateTrig, timSetCounterMode,
        timSetResetTrig, timSetCountingMode, timSetPeriod, timSetPrescaler, timDisablePreload,
        protection_onTimer, protection_outConfig, untimed_protection.applyCrossbars, protection_onUnit,
        update_outputs]
      ext : 1 <;> first | rfl | exact Function.update_eq_self unit _
  have h₂ : s₂.protection =
      { s₁.protection with
        outEnabled := fun o => if cfg.enableOutputs ∧ o / 2 = unit then true
          else s₁.protection.outEnabled o
        outWanted := Function.update s₁.protection.outWanted unit fun _ => cfg.enableOutputs } := by
    by_cases henable : cfg.enableOutputs
    · simp only [s₂, henable, if_true, protection_onUnit, protection_enableOutput, true_and,
        update_outputs]
      ext : 1 <;> first | rfl | exact Function.update_eq_self unit _
    · simp only [s₂, henable, Bool.false_eq_true, if_false, protection_onUnit, false_and]
      ext : 1 <;> first | rfl | exact Function.update_eq_self unit _
  show { s₂.protection with
    stoppedOutEn := Function.update s₂.protection.stoppedOutEn unit none } = _
  rw [h₂, h₁]
  rfl

theorem pwmInitChecks_ok {clkHz : UInt32} {unit : ℕ} {cfg : Option PwmCfg}
    {c : PwmCfg × Timing} (h : pwmInitChecks clkHz unit cfg = .ok c) :
    cfg = some c.1 ∧ unit < halUnits := by
  cases cfg with
  | none => cases h
  | some cfg =>
      obtain ⟨_, hcfg, h⟩ := ok_of_bind h
      cases hcfg
      obtain ⟨_, hunit, h⟩ := ok_of_bind h
      obtain ⟨_, _, h⟩ := ok_of_bind h
      obtain ⟨_, _, h⟩ := ok_of_bind h
      obtain ⟨timing, _, h⟩ := ok_of_bind h
      obtain ⟨_, _, h⟩ := ok_of_bind h
      cases h
      exact ⟨rfl, Nat.not_le.mp (reject_eq_ok.mp hunit)⟩

/-- The state in which `shrtim_pwm_init` programs the dead time. -/
def pwmInitStopped (unit : ℕ) (cfg : PwmCfg) (timing : Timing) (s : Hal) : Hal :=
  timCounterDisable unit
    (if cfg.align = alignCenter then centerMasterSetup timing.ratioIdx timing.period s else s)

theorem protection_pwmInitStopped (unit : ℕ) (cfg : PwmCfg) (timing : Timing) (s : Hal) :
    (pwmInitStopped unit cfg timing s).protection = s.protection :=
  view_ite (untimed_protection.centerMasterSetup _ _ s) rfl

/-- Past its checks `shrtim_pwm_init` stops the unit, programs the dead time,
and configures the rest. -/
theorem shrtimPwmInit_of_checks {unit : ℕ} {cfg : Option PwmCfg} {s : Hal}
    {c : PwmCfg × Timing} (h : pwmInitChecks s.clkHz unit cfg = .ok c) :
    shrtimPwmInit unit cfg s =
      (programDeadtime unit c.1.dtRiseNs c.1.dtFallNs >>= fun _ =>
        .write (pwmInitConfigure unit c.1 c.2)) (pwmInitStopped unit c.1 c.2 s) := by
  rw [shrtimPwmInit, Procedure.read_bind, Procedure.attempt_bind_ok h]
  rfl

theorem shrtimPwmInit_of_rejected {unit : ℕ} {cfg : Option PwmCfg} {s : Hal} {e : Rc}
    (h : pwmInitChecks s.clkHz unit cfg = .error e) : shrtimPwmInit unit cfg s = (.error e, s) := by
  rw [shrtimPwmInit, Procedure.read_bind, h]
  rfl

/-- A call of `shrtim_pwm_init` is rejected and keeps the drive, or succeeds. -/
theorem shrtimPwmInit_cases (unit : ℕ) (cfg : Option PwmCfg) (s : Hal) :
    (∃ e t, shrtimPwmInit unit cfg s = (.error e, t) ∧ t.protection = s.protection) ∨
    ∃ c t, cfg = some c ∧ unit < halUnits ∧ shrtimPwmInit unit cfg s = (.ok (), t) ∧
      t.protection = s.protection.act (.configure unit c.enableOutputs) := by
  cases hchecks : pwmInitChecks s.clkHz unit cfg with
  | error e => exact Or.inl ⟨e, s, shrtimPwmInit_of_rejected hchecks, rfl⟩
  | ok c =>
      have hkept := (untimed_protection.programDeadtime unit c.1.dtRiseNs c.1.dtFallNs
        (pwmInitStopped unit c.1 c.2 s)).trans (protection_pwmInitStopped unit c.1 c.2 s)
      rw [shrtimPwmInit_of_checks hchecks]
      rcases hdt : programDeadtime unit c.1.dtRiseNs c.1.dtFallNs
        (pwmInitStopped unit c.1 c.2 s) with ⟨_ | _, t⟩
      · rw [hdt] at hkept
        exact Or.inl ⟨_, t, Procedure.bind_error hdt, hkept⟩
      · rw [hdt] at hkept
        obtain ⟨hcfg, hunit⟩ := pwmInitChecks_ok hchecks
        refine Or.inr ⟨c.1, _, hcfg, hunit, (Procedure.bind_ok hdt).trans rfl, ?_⟩
        rw [protection_pwmInitConfigure, hkept]

/-! ### Loops over the units -/

namespace Protection

theorem act_start_start (us vs : ℕ → Bool) (p : Protection) :
    (p.act (.start us)).act (.start vs) = p.act (.start fun u => us u || vs u) := by
  ext : 1
  · funext o
    cases hu : us (o / 2) <;> cases hv : vs (o / 2) <;> simp [act, saved, hu, hv]
  all_goals try rfl
  funext u
  cases hu : us u <;> cases hv : vs u <;> simp [act, hu, hv]

theorem act_stop_stop (us vs : ℕ → Bool) (p : Protection) :
    (p.act (.stop us)).act (.stop vs) = p.act (.stop fun u => us u || vs u) := by
  ext : 1
  · funext o
    simp [act, Bool.and_assoc]
  all_goals try rfl
  funext u
  -- stopping other units leaves what a stop of `u` saves
  have hsaved : us u = false →
      (fun side => decide (side < 2) && (p.outEnabled (outOf u side) && !us (outOf u side / 2))) =
        fun side => decide (side < 2) && p.outEnabled (outOf u side) := by
    intro hu
    funext side
    by_cases hside : side < 2
    · have hhalf : outOf u side / 2 = u := by
        simp only [outOf]
        omega
      simp [hhalf, hu]
    · simp only [hside, decide_false, Bool.false_and]
  cases hu : us u <;> cases hv : vs u <;> cases hp : p.stoppedOutEn u <;>
    simp [act, hu, hv, hp]
  simpa using hsaved hu

end Protection

/-- A loop over the units whose turn on unit `u` is the action on that unit. -/
theorem protection_foldRange {body : ℕ → Hal → Hal} (action : (ℕ → Bool) → Action)
    (hnone : ∀ p : Protection, p.act (action fun _ => false) = p)
    (hmerge : ∀ us vs, ∀ p : Protection,
      (p.act (action us)).act (action vs) = p.act (action fun u => us u || vs u))
    (hbody : ∀ u, u < halUnits → ∀ s, (body u s).protection =
      s.protection.act (action fun v => v = u)) (s : Hal) :
    (foldRange 0 halUnits s body).protection = s.protection.act (action fun u => u < halUnits) := by
  refine foldRange_induction (fun k (t : Hal) => t.protection = s.protection.act
    (action fun u => u < k)) (Nat.zero_le _) ?_ ?_
  · simp [hnone]
  · intro k t _ hk ht
    rw [hbody k hk, ht, hmerge]
    congr 2
    funext u
    rw [← Bool.decide_or]
    exact decide_eq_decide.mpr Nat.lt_succ_iff_lt_or_eq.symm

theorem protection_timCounterEnable_all (s : Hal) :
    (foldRange 0 halUnits s fun u s => timCounterEnable u s).protection = s.protection :=
  foldRange_induction (fun _ (t : Hal) => t.protection = s.protection) (Nat.zero_le _) rfl
    fun _ _ _ _ ht => ht

theorem protection_enableOutputs (unit : ℕ) (bits : ℕ → Bool) (s : Hal) :
    (enableOutputs unit bits s).protection =
      { s.protection with
        outEnabled := fun o => s.outEnabled o || (o / 2 = unit && bits (o % 2)) } := by
  have hfirst : outOf unit 0 / 2 = unit ∧ outOf unit 0 % 2 = 0 := by
    simp only [outOf]
    omega
  have hsecond : outOf unit 1 / 2 = unit ∧ outOf unit 1 % 2 = 1 := by
    simp only [outOf]
    omega
  have hne : outOf unit 0 ≠ outOf unit 1 := by simp [outOf]
  ext : 1
  · funext o
    by_cases h₀ : o = outOf unit 0
    · subst h₀
      cases hb₀ : bits 0 <;> cases hb₁ : bits 1 <;>
        simp [enableOutputs, Hal.protection, enableOutput, hb₀, hb₁, hfirst, hne]
    by_cases h₁ : o = outOf unit 1
    · subst h₁
      cases hb₀ : bits 0 <;> cases hb₁ : bits 1 <;>
        simp [enableOutputs, Hal.protection, enableOutput, hb₀, hb₁, hsecond, hne.symm]
    · have ho : o / 2 ≠ unit := fun h => (eq_half_iff.mp h).elim h₀ h₁
      cases hb₀ : bits 0 <;> cases hb₁ : bits 1 <;>
        simp [enableOutputs, Hal.protection, enableOutput, hb₀, hb₁, h₀, h₁, ho]
  all_goals cases hb₀ : bits 0 <;> cases hb₁ : bits 1 <;>
    simp [enableOutputs, Hal.protection, enableOutput, hb₀, hb₁]

theorem protection_shrtimPwmStart {unit : ℕ} (hunit : unit < halUnits) (s : Hal) :
    (shrtimPwmStart unit s).protection = s.protection.act (.start fun u => u = unit) := by
  unfold shrtimPwmStart
  rw [if_neg (Nat.not_le.mpr hunit)]
  rcases hsaved : s.stoppedOutEn unit with _ | bits
  · -- nothing saved: the action drives no output and keeps every snapshot
    show s.protection = _
    ext : 1
    · funext o
      by_cases ho : o / 2 = unit
      · simp [Protection.act, Protection.saved, Hal.protection, ho, hsaved]
      · simp [Protection.act, ho]
    all_goals try rfl
    funext u
    by_cases hu : u = unit
    · simp [Protection.act, Hal.protection, hu, hsaved]
    · simp [Protection.act, hu]
  · show { (enableOutputs unit bits s).protection with
      stoppedOutEn :=
        Function.update (enableOutputs unit bits s).protection.stoppedOutEn unit none } = _
    rw [protection_enableOutputs]
    ext : 1
    · funext o
      by_cases ho : o / 2 = unit
      · simp [Protection.act, Protection.saved, Hal.protection, ho, hsaved]
      · simp [Protection.act, Hal.protection, ho]
    all_goals try rfl
    funext u
    by_cases hu : u = unit <;> simp [Protection.act, hu]

theorem protection_shrtimPwmStop {unit : ℕ} (hunit : unit < halUnits) (s : Hal) :
    (shrtimPwmStop unit s).protection = s.protection.act (.stop fun u => u = unit) := by
  unfold shrtimPwmStop
  rw [if_neg (Nat.not_le.mpr hunit)]
  have hdisable : ∀ t : Hal,
      (t |> disableOutput (outOf unit 0) |> disableOutput (outOf unit 1)
        |> timCounterDisable unit).protection =
      { t.protection with
        outEnabled := fun o => if o / 2 = unit then false else t.outEnabled o } := by
    intro t
    rw [← update_outputs]
    rfl
  have houts : (fun o => if o / 2 = unit then false else s.outEnabled o) =
      fun o => s.outEnabled o && !decide (o / 2 = unit) := by
    funext o
    by_cases ho : o / 2 = unit <;> simp [ho]
  rcases hsaved : s.stoppedOutEn unit with _ | bits
  · simp only [hdisable]
    ext : 1
    · exact houts
    all_goals try rfl
    funext u
    by_cases hu : u = unit
    · subst hu
      simp [Protection.act, Hal.protection, hsaved]
    · simp [Protection.act, Hal.protection, hu]
  · simp only [hdisable]
    ext : 1
    · exact houts
    all_goals try rfl
    funext u
    by_cases hu : u = unit
    · simp [Protection.act, Hal.protection, hu, hsaved]
    · simp [Protection.act, Hal.protection, hu]

theorem protection_shrtimPwmStartAll (s : Hal) :
    (shrtimPwmStartAll s).protection = s.protection.act (.start fun u => u < halUnits) := by
  unfold shrtimPwmStartAll
  rw [protection_foldRange .start, protection_timCounterEnable_all]
  · intro p
    ext : 1 <;> simp [Protection.act]
  · exact Protection.act_start_start
  · exact fun u hu t => protection_shrtimPwmStart hu t

theorem protection_shrtimPwmStopAll (s : Hal) :
    (shrtimPwmStopAll s).protection = s.protection.act (.stop fun u => u < halUnits) := by
  unfold shrtimPwmStopAll
  rw [protection_foldRange .stop]
  · intro p
    ext : 1 <;> simp [Protection.act]
  · exact Protection.act_stop_stop
  · exact fun u hu t => protection_shrtimPwmStop hu t

/-! ### Fault channels -/

/-- A reset looks at the flags of the other channels only. -/
theorem Protection.busy_update (p : Protection) (unit f : ℕ) (b : Bool) :
    ({ p with faultFlag := Function.update p.faultFlag f b } : Protection).busy unit f =
      p.busy unit f := by
  simp only [busy]
  congr 1
  funext k
  by_cases hk : k = f <;> simp [hk]

theorem protection_faultResetUnit {u : ℕ} (hu : u < halUnits) (f : ℕ) (s : Hal) :
    (faultResetUnit f u s).protection =
      { s.protection with
        outEnabled := fun o =>
          s.outEnabled o || (decide (o / 2 = u) && s.protection.resumes f o) } := by
  have hresumes : ∀ o, o / 2 = u → s.protection.resumes f o =
      ((s.faultAttached u).testBit f && !faultBusy u f s && (s.units u).configured
        && (s.units u).outWanted (o % 2)) := by
    intro o ho
    simp only [Protection.resumes, ho, hu, decide_true, Bool.true_and]
    rfl
  have hquiet : (∀ o, o / 2 = u → s.protection.resumes f o = false) →
      s.protection = { s.protection with
        outEnabled := fun o =>
          s.outEnabled o || (decide (o / 2 = u) && s.protection.resumes f o) } := by
    intro h
    ext : 1
    · funext o
      by_cases ho : o / 2 = u
      · simp only [ho, h o ho, Bool.and_false, Bool.or_false]
        rfl
      · simp only [ho, decide_false, Bool.false_and, Bool.or_false]
        rfl
    all_goals rfl
  unfold faultResetUnit
  split
  · next hattached =>
      exact hquiet fun o ho => by simp [hresumes o ho, hattached]
  split
  · next hbusy =>
      exact hquiet fun o ho => by simp [hresumes o ho, hbusy]
  split
  · next hattached hbusy hconfigured =>
      rw [protection_enableOutputs]
      ext : 1
      · funext o
        by_cases ho : o / 2 = u
        · simp [ho, hresumes o ho, hattached, hbusy, hconfigured]
        · simp [ho]
      all_goals rfl
  · next hconfigured =>
      exact hquiet fun o ho => by simp [hresumes o ho, hconfigured]

theorem protection_shrtimFaultReset {fault : ℕ} (hrange : 1 ≤ fault ∧ fault ≤ 6) (s : Hal) :
    (shrtimFaultReset fault s).protection = s.protection.act (.reset (fault - 1)) := by
  unfold shrtimFaultReset
  rw [if_neg (by omega)]
  extract_lets f s₁
  have h₁ : s₁.protection =
      { s.protection with
        faultFlag := if s.faultLatch f then Function.update s.faultFlag f false
          else s.faultFlag } := by
    simp only [s₁]
    split <;> rfl
  have hloop : (foldRange 0 halUnits s₁ (faultResetUnit f)).protection =
      { s₁.protection with
        outEnabled := fun o =>
          s₁.outEnabled o || (decide (o / 2 < halUnits) && s₁.protection.resumes f o) } := by
    refine foldRange_induction (fun k (t : Hal) => t.protection =
      { s₁.protection with
        outEnabled := fun o =>
          s₁.outEnabled o || (decide (o / 2 < k) && s₁.protection.resumes f o) })
      (Nat.zero_le _) ?_ ?_
    · ext : 1
      · simp [Hal.protection]
      all_goals rfl
    · intro k t _ hk ht
      have henabled : t.outEnabled = t.protection.outEnabled := rfl
      have hresumes : t.protection.resumes f = s₁.protection.resumes f := by
        rw [ht]
        rfl
      rw [protection_faultResetUnit hk, hresumes, henabled, ht]
      ext : 1
      · funext o
        rcases Nat.lt_trichotomy (o / 2) k with hlt | heq | hgt
        · simp [hlt, hlt.ne, Nat.lt_succ_of_lt hlt]
        · simp [heq]
        · simp [hgt.not_gt, hgt.ne', (Nat.succ_le_of_lt hgt).not_gt]
      all_goals rfl
  have hresumes : ∀ o, (decide (o / 2 < halUnits) && s₁.protection.resumes f o) =
      s.protection.resumes f o := by
    intro o
    have hbusy : ∀ u, s₁.protection.busy u f = s.protection.busy u f := by
      intro u
      rw [h₁]
      split
      · exact Protection.busy_update s.protection u f false
      · rfl
    simp only [Protection.resumes, hbusy]
    rw [h₁]
    cases hu : decide (o / 2 < halUnits) <;> rfl
  rw [hloop]
  simp only [hresumes]
  rw [show s₁.outEnabled = s₁.protection.outEnabled from rfl, h₁]
  rfl

theorem protection_faultAttachApply (unit mask : ℕ) (out1 out2 : FaultOut) (s : Hal) :
    (faultAttachApply unit mask out1 out2 s).protection =
      s.protection.act (.attach unit mask out1 out2) := by
  ext : 1
  all_goals try rfl
  simp [faultAttachApply, Protection.act, Hal.protection, timEnableFault, timDisableFault,
    outSetFaultState]

theorem protection_setOutput {out : ℕ} (s : Hal) (enabled : Bool) :
    (onUnit (out / 2)
      (fun st => { st with outWanted := Function.update st.outWanted (out % 2) enabled })
      { s with outEnabled := Function.update s.outEnabled out enabled }).protection =
      s.protection.act (.setOutput out enabled) := by
  rw [protection_onUnit]
  ext : 1
  all_goals try rfl
  exact Function.update_eq_self (out / 2) _

theorem protection_irqEnable (unit : ℕ) (evt : Evt) (enable : Bool) :
    (shrtimIrqEnable unit evt enable).Keeps Hal.protection := by
  refine .attempt_bind _ fun _ => ?_
  cases evt with
  | cpt1 | cpt2 | rstro => exact .attempt_bind _ fun _ => .write fun _ => rfl
  | _ => exact fun _ => rfl

/-! ### Life cycle -/

theorem protection_dropUnits (wiped : Wiped) (s : Hal) :
    (dropUnits (resetPeripheral wiped s)).protection = s.protection.act (.wipe false) := by
  ext : 1
  all_goals try rfl
  · funext u side
    by_cases hu : u < halUnits <;>
      simp [Protection.act, dropUnits, resetPeripheral, Hal.protection, hu]
  · funext u
    by_cases hu : u < halUnits <;>
      simp [Protection.act, dropUnits, resetPeripheral, Hal.protection, hu]

theorem protection_shrtimDeinit (wiped : Wiped) (s : Hal) :
    (shrtimDeinit wiped s).protection = s.protection.act (.wipe true) := by
  show { (dropUnits (resetPeripheral wiped s)).protection with
    faultLatch := fun f => if f < 6 then false else s.faultLatch f } = _
  rw [protection_dropUnits]
  ext : 1
  all_goals try rfl
  simp [Protection.act, Hal.protection]

/-! ## Every event is one action -/

/-- What a call does to the drive, in the state it finds. -/
def Call.action : Call → Hal → Action
  | .init (.locked _) _, _ => .wipe false
  | .deinit _, _ => .wipe true
  | .pwmInit unit cfg, s =>
      cfg.elim .idle fun c =>
        if (shrtimPwmInit unit cfg s).1.isOk then .configure unit c.enableOutputs else .idle
  | .pwmStart unit, _ => if unit < halUnits then .start fun u => u = unit else .idle
  | .pwmStop unit, _ => if unit < halUnits then .stop fun u => u = unit else .idle
  | .pwmStartAll, _ => .start fun u => u < halUnits
  | .pwmStopAll, _ => .stop fun u => u < halUnits
  | .outEnable out, _ => if out < 12 then .setOutput out true else .idle
  | .outDisable out, _ => if out < 12 then .setOutput out false else .idle
  | .faultConfig fault filter latch, _ =>
      if 1 ≤ fault ∧ fault ≤ 6 ∧ filter ≤ 15 then .latch (fault - 1) latch else .idle
  | .faultAttach unit mask out1 out2, _ =>
      (faultAttachChecks unit mask out1 out2).toOption.elim .idle fun o =>
        .attach unit mask o.1 o.2
  | .faultReset fault, _ => if 1 ≤ fault ∧ fault ≤ 6 then .reset (fault - 1) else .idle
  | _, _ => .idle

/-- What an event does to the drive, in the state it finds. -/
def System.action : Event → System → Action
  | .call c, s => c.action s.hal
  | .trip f, _ => .trip f
  | .faultTurn, s =>
      s.faultPass.elim .idle fun p =>
        if p.next < 6 ∧ p.serves p.next s.hal then .clear p.next else .idle
  | _, _ => .idle

theorem protection_perform (c : Call) (s : Hal) :
    (c.perform s).protection = s.protection.act (c.action s) := by
  cases c with
  | init clock wiped =>
      cases clock with
      | locked hz => exact protection_dropUnits wiped { s with clkHz := hz }
      | _ => rfl
  | deinit wiped => exact protection_shrtimDeinit wiped s
  | pwmInit unit cfg =>
      obtain ⟨e, t, hrun, hkept⟩ | ⟨c, t, rfl, -, hrun, hdone⟩ := shrtimPwmInit_cases unit cfg s
      · simp only [Call.perform, Call.action, hrun]
        cases cfg <;> exact hkept
      · simp only [Call.perform, Call.action, hrun]
        exact hdone
  | pwmStart unit =>
      simp only [Call.perform, Call.action]
      split
      · exact protection_shrtimPwmStart ‹_› s
      · rw [shrtimPwmStart, if_pos (Nat.not_lt.mp ‹_›)]
        rfl
  | pwmStop unit =>
      simp only [Call.perform, Call.action]
      split
      · exact protection_shrtimPwmStop ‹_› s
      · rw [shrtimPwmStop, if_pos (Nat.not_lt.mp ‹_›)]
        rfl
  | pwmStartAll => exact protection_shrtimPwmStartAll s
  | pwmStopAll => exact protection_shrtimPwmStopAll s
  | outEnable out =>
      simp only [Call.perform, Call.action, shrtimOutEnable]
      split
      · exact protection_setOutput s true
      · rfl
  | outDisable out =>
      simp only [Call.perform, Call.action, shrtimOutDisable]
      split
      · exact protection_setOutput s false
      · rfl
  | faultConfig fault filter latch =>
      simp only [Call.perform, Call.action, shrtimFaultConfig, reject]
      split
      · rw [if_neg (by omega)]
        rfl
      · rw [if_pos (by omega)]
        rfl
  | faultAttach unit mask out1 out2 =>
      simp only [Call.perform, Call.action, shrtimFaultAttach]
      cases faultAttachChecks unit mask out1 out2 with
      | error e => rfl
      | ok o => exact protection_faultAttachApply unit mask o.1 o.2 s
  | faultReset fault =>
      simp only [Call.perform, Call.action]
      split
      · next h => exact protection_shrtimFaultReset h s
      · rw [shrtimFaultReset, if_pos (by omega)]
        rfl
  | irqEnable unit evt enable => exact protection_irqEnable unit evt enable s
  | _ => exact untimed_protection.perform (by trivial) s

/-- The system refines the abstract machine: every event is one action. -/
theorem protection_step (e : Event) (s : System) :
    (System.step e s).hal.protection = s.hal.protection.act (System.action e s) := by
  cases e with
  | call c => exact protection_perform c s.hal
  | trip f => rfl
  | faultEnter =>
      simp only [System.step]
      split <;> rfl
  | faultTurn =>
      simp only [System.step, System.action]
      cases s.faultPass with
      | none => rfl
      | some p =>
          simp only [Option.elim_some, faultTurn]
          by_cases hserves : p.serves p.next s.hal
          · rw [if_pos hserves, clearFaultEntry]
            split
            · rw [if_pos ⟨‹_›, hserves⟩]
              rfl
            · rw [if_neg fun h => absurd h.1 ‹_›]
              rfl
          · rw [if_neg hserves, if_neg fun h => hserves h.2]
            rfl
  | passEnter tmr active =>
      simp only [System.step]
      split <;> rfl
  | passTurn tmr still =>
      simp only [System.step, System.action]
      cases s.passes tmr with
      | none => rfl
      | some p => exact view_ite (protection_stormGuard s.hal tmr p.next still) rfl

end Xhive.Shrtim
