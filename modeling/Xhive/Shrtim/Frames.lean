import Xhive.Shrtim.Runs

/-!
# What the timing calls leave alone

Frequency, duty, dead time, polarity and the raw accesses write timers,
crossbars and the timing part of a unit's configuration.  A view of the state
that reads none of these is kept by all of these calls.
-/

namespace Xhive.Shrtim

open Xhive.Support

/-- A view that reads neither timers nor crossbars, and of the configuration of
a unit only its wanted outputs and whether it is configured. -/
structure Untimed {τ : Type} (view : Hal → τ) : Prop where
  timer : ∀ tmr f s, view (onTimer tmr f s) = view s
  output : ∀ out f s, view (onOutput out f s) = view s
  unit : ∀ unit f s, (f (s.units unit)).outWanted = (s.units unit).outWanted →
    (f (s.units unit)).configured = (s.units unit).configured → view (onUnit unit f s) = view s

theorem view_ite {τ : Type} {view : Hal → τ} {c : Prop} [Decidable c] {s t u : Hal}
    (ht : view t = view s) (hu : view u = view s) : view (if c then t else u) = view s := by
  split
  · exact ht
  · exact hu

theorem view_turnsWhileNot {τ : Type} {view : Hal → τ} {done : Hal → Bool} {body : Hal → Hal}
    (hbody : ∀ s, view (body s) = view s) (count : ℕ) (s : Hal) :
    view (turnsWhileNot done body count s) = view s := by
  induction count generalizing s with
  | zero => rfl
  | succ count ih =>
      rw [turnsWhileNot]
      exact view_ite rfl ((ih _).trans (hbody s))

namespace Untimed

variable {τ : Type} {view : Hal → τ} (h : Untimed view)

include h

theorem centerMasterSetup (ratioIdx : ℕ) (period : UInt32) (s : Hal) :
    view (centerMasterSetup ratioIdx period s) = view s := by
  rw [centerMasterSetup_eq]
  exact h.timer _ _ s

theorem setCompareOf (unit : ℕ) (x : Crossbar) (s : Hal) :
    view (setCompareOf unit x s) = view s := by
  rw [Shrtim.setCompareOf]
  cases x.compare with
  | none => rfl
  | some c => exact h.timer _ _ s

theorem applyCrossbars (unit : ℕ) (s : Hal) : view (applyCrossbars unit s) = view s := by
  simp only [Shrtim.applyCrossbars, outSetOutputSetSrc, outSetOutputResetSrc, h.output,
    h.setCompareOf]

theorem programDeadtime (unit : ℕ) (riseNs fallNs : UInt32) :
    (programDeadtime unit riseNs fallNs).Keeps view := by
  intro s
  rw [Shrtim.programDeadtime]
  split
  · simp only [Procedure.write_apply, timDisableDeadTime, dtSetRisingValue, dtSetFallingValue,
      h.timer]
  · rw [Procedure.read_bind]
    cases solveDeadtime s.clkHz riseNs fallNs with
    | none => rfl
    | some d =>
        simp only [Procedure.write_apply, timEnableDeadTime, dtSetPrescaler, dtSetRisingValue,
          dtSetFallingValue, h.timer]

theorem pwmFreqApply (unit : ℕ) (timing : Timing) (s : Hal) :
    view (pwmFreqApply unit timing s) = view s := by
  unfold Shrtim.pwmFreqApply
  extract_lets restart s₁ s₂ s₃ s₄
  have h₁ : view s₁ = view s := view_ite (h.timer _ _ s) rfl
  have h₂ : view s₂ = view s := (h.timer _ _ s₁).trans h₁
  have h₃ : view s₃ = view s := view_ite ((h.centerMasterSetup _ _ s₂).trans h₂) h₂
  have h₄ : view s₄ = view s := by
    simp only [s₄, setUpdateDisabled, forceUpdate, timSetPeriod, timSetPrescaler, h.timer,
      h.applyCrossbars]
    rw [h.unit _ _ _ rfl rfl, h.timer, h.timer, h₃]
  exact view_ite ((h.timer _ _ s₄).trans h₄) h₄

theorem pwmFreq (unit : ℕ) (hz : UInt32) : (shrtimPwmFreq unit hz).Keeps view := by
  refine .attempt_bind _ fun _ => .read_bind _ fun s => .attempt_bind _ fun _ => ?_
  refine .attempt_bind _ fun timing => .attempt_bind _ fun _ => .write fun t => ?_
  exact h.pwmFreqApply unit timing t

theorem pwmDutyWith {store : UInt32 → UnitState → UnitState}
    (hwanted : ∀ d st, (store d st).outWanted = st.outWanted)
    (hconfigured : ∀ d st, (store d st).configured = st.configured) (unit : ℕ) (duty : UInt32) :
    (pwmDutyWith store unit duty).Keeps view := by
  refine .attempt_bind _ fun _ => .attempt_bind _ fun _ => .read_bind _ fun s => ?_
  refine .attempt_bind _ fun _ => .write fun t => ?_
  simp only [setUpdateDisabled, forceUpdate, h.timer, h.applyCrossbars]
  exact h.unit _ _ t (hwanted duty _) (hconfigured duty _)

theorem pwmDeadtime (unit : ℕ) (riseNs fallNs : UInt32) :
    (shrtimPwmDeadtime unit riseNs fallNs).Keeps view := by
  refine .attempt_bind _ fun _ => .read_bind _ fun s => .attempt_bind _ fun _ => ?_
  intro t
  have hstopped : view (if (t.timers unit).counterEnabled then timCounterDisable unit t else t) =
      view t := view_ite (h.timer _ _ t) rfl
  have hprogram := (h.programDeadtime unit riseNs fallNs _).trans hstopped
  exact view_ite ((h.timer _ _ _).trans hprogram) hprogram

end Untimed

/-- The calls that only set timing. -/
def Call.OnlyTiming : Call → Prop
  | .pwmFreq _ _ | .pwmDuty _ _ | .pwmDuty2 _ _ | .pwmDeadtime _ _ _ | .outPolarity _ _
  | .periodRaw _ _ | .compareRaw _ _ _ | .masterPeriod _ _ | .pwmSyncToMaster _ _
  | .exevResetUnit _ _ => True
  | _ => False

theorem Untimed.perform {τ : Type} {view : Hal → τ} (h : Untimed view) {c : Call}
    (hc : c.OnlyTiming) (s : Hal) : view (c.perform s) = view s := by
  cases c with
  | pwmFreq unit hz => exact h.pwmFreq unit hz s
  | pwmDuty unit duty | pwmDuty2 unit duty =>
      revert s
      apply h.pwmDutyWith <;> exact fun _ _ => rfl
  | pwmDeadtime unit riseNs fallNs => exact h.pwmDeadtime unit riseNs fallNs s
  | outPolarity out activeLow => exact view_ite (h.output _ _ s) rfl
  | periodRaw unit ticks =>
      have hperiod := h.timer unit (fun r => { r with period := ticks }) s
      refine view_ite (view_ite (Eq.trans ?_ hperiod) hperiod) rfl
      exact h.unit _ _ _ rfl rfl
  | compareRaw unit cmp ticks =>
      exact view_ite rfl (view_ite rfl (view_ite rfl (h.timer _ _ s)))
  | masterPeriod periodTicks startNow =>
      have hperiod : view (timSetPeriod unitMaster periodTicks (timEnablePreload unitMaster s)) =
          view s := (h.timer _ _ _).trans (h.timer _ _ s)
      refine view_ite (view_ite ?_ hperiod) rfl
      exact ((h.timer _ _ _).trans (h.timer _ _ _)).trans hperiod
  | pwmSyncToMaster unit enable => exact view_ite (h.timer _ _ s) rfl
  | exevResetUnit unit ev =>
      have hkeeps : (shrtimExevResetUnit unit ev).Keeps view :=
        .attempt_bind _ fun _ => .write fun t => h.timer _ _ t
      exact hkeeps s
  | _ => exact hc.elim

end Xhive.Shrtim
