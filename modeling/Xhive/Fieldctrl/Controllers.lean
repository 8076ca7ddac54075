import Xhive.Fieldctrl.Dtc
import Xhive.Fieldctrl.Smo
import Xhive.Fieldctrl.SpeedFoc
import Xhive.Fieldctrl.Vvvf
import Xhive.Support.Procedure

/-!
# Failing calls leave no trace

Every entry of the stateful controllers as a procedure on the caller's context
and output objects, with its stores where the source has them.  The PID and the
torque control store into the context field by field; the others work on a copy
and store it whole; the speed cascade lets both of its loops store into locals.
-/

namespace Xhive.Fieldctrl

open Xhive.Support Xhive.Linears Xhive.Filters

/-! ## Memory -/

/-- The context of a controller, and the output object at each address. -/
structure Objects (C O : Type) where
  ctx : C
  output : ℕ → O

namespace Objects

variable {C O : Type}

/-- A store to the context. -/
def mapCtx (f : C → C) (m : Objects C O) : Objects C O :=
  { m with ctx := f m.ctx }

/-- `*output = result`. -/
def emit (output : ℕ) (result : O) (m : Objects C O) : Objects C O :=
  { m with output := Function.update m.output output result }

/-- A result and the next context, both stored. -/
def store (output : ℕ) (r : O × C) (m : Objects C O) : Objects C O :=
  ⟨r.2, Function.update m.output output r.1⟩

end Objects

variable {Q : Type} [FilterFormat Q]

section Entries

variable {C O : Type}

/-- An entry that builds the next context and stores it last. -/
def buildTo (next : Except Status C) : Procedure Status (Objects C O) Unit := do
  let next ← .attempt next
  .write (Objects.mapCtx fun _ => next)

/-- A step that works on a copy, then stores the copy and the result. -/
def stepTo (output : Extent) (step : C → Except Status (O × C)) :
    Procedure Status (Objects C O) Unit := do
  let ctx ← .read Objects.ctx
  let (result, next) ← .attempt (step ctx)
  .write (Objects.mapCtx fun _ => next)
  .write (Objects.emit output.address result)

theorem buildTo_commits (next : Except Status C) :
    (buildTo next : Procedure Status (Objects C O) Unit).Commits fun m =>
      next.map fun next => m.mapCtx fun _ => next := by
  intro m
  cases next <;> rfl

theorem stepTo_commits (output : Extent) (step : C → Except Status (O × C)) :
    (stepTo output step).Commits fun m =>
      (step m.ctx).map fun r => m.store output.address r := by
  intro m
  dsimp only
  rw [stepTo, Procedure.read_bind]
  cases step m.ctx <;> rfl

end Entries

/-! ## PID -/

/-- `pid_retune`: the context is changed in place after the tuning is accepted. -/
def pidRetuneTo (self : Extent) (config : Option (PidConfig Q)) :
    Procedure Status (Objects (Pid Q) (PidOutput Q)) Unit := do
  let config ← .attempt (checkConfig self config)
  let (lo, hi) ← .attempt (pidCheck config)
  .write (Objects.mapCtx fun ctx =>
    if fcqCmp config.ki ctx.config.ki ≠ 0 ∨ fcqCmp config.kd ctx.config.kd ≠ 0 ∨
        fcqCmp config.derivativeFilter ctx.config.derivativeFilter ≠ 0 then
      { ctx with cachedDt := 0 }
    else ctx)
  .write (Objects.mapCtx fun ctx =>
    if fcqCmp config.kd 0 = 0 then { ctx with derivative := 0 } else ctx)
  .write (Objects.mapCtx fun ctx => { ctx with integral := baseClamp ctx.integral lo hi })
  .write (Objects.mapCtx fun ctx => { ctx with config := config })

/-- `pid_reset`. -/
def pidResetTo (self : Extent) (integral : Q) :
    Procedure Status (Objects (Pid Q) (PidOutput Q)) Unit := do
  .attempt (if self.address = 0 then .error .errorArgument else .ok ())
  let initial := FilterFormat.load integral
  let ctx ← .read Objects.ctx
  let (lo, hi) := pidIntegralBounds ctx.config
  .attempt (if fcqCmp initial lo < 0 ∨ fcqCmp initial hi > 0 then .error .errorDomain else .ok ())
  .write (Objects.mapCtx fun ctx => { ctx with integral := initial })
  .write (Objects.mapCtx fun ctx => { ctx with previousError := 0 })
  .write (Objects.mapCtx fun ctx => { ctx with previousMeasurement := 0 })
  .write (Objects.mapCtx fun ctx => { ctx with derivative := 0 })
  .write (Objects.mapCtx fun ctx => { ctx with history := false })

/-- `pid_step_work`: every operation and every output conversion comes before
the first store. -/
def pidStepWorkTo (output : ℕ) (setpoint measurement period : Int64) :
    Procedure Status (Objects (Pid Q) (PidOutput Q)) Unit := do
  .attempt (if fcqCmp period 0 ≤ 0 then .error .errorDomain else .ok ())
  let ctx ← .read Objects.ctx
  let (error, p) ← .attempt (pidProportional ctx.config setpoint measurement)
  let coefficients ← .attempt (periodCoefficients ctx period)
  let (result, _) ← .attempt (pidAdvance ctx.toPidState coefficients error p measurement)
  .write (Objects.mapCtx fun ctx => { ctx with cachedDt := period })
  .write (Objects.mapCtx fun ctx =>
    { ctx with cached := { ctx.cached with integralStep := coefficients.integralStep } })
  .write (Objects.mapCtx fun ctx =>
    { ctx with cached := { ctx.cached with derivativeGain := coefficients.derivativeGain } })
  .write (Objects.mapCtx fun ctx =>
    { ctx with cached := { ctx.cached with filterWeight := coefficients.filterWeight } })
  .write (Objects.mapCtx fun ctx => { ctx with integral := result.integral })
  .write (Objects.mapCtx fun ctx => { ctx with previousError := error })
  .write (Objects.mapCtx fun ctx => { ctx with previousMeasurement := measurement })
  .write (Objects.mapCtx fun ctx => { ctx with derivative := result.derivative })
  .write (Objects.mapCtx fun ctx => { ctx with history := true })
  .write (Objects.emit output result)

/-- `pid_step`. -/
def pidStepTo (self output : Extent) (setpoint measurement dt : Q) :
    Procedure Status (Objects (Pid Q) (PidOutput Q)) Unit := do
  .attempt (checkPointers self output)
  pidStepWorkTo output.address (FilterFormat.load setpoint) (FilterFormat.load measurement)
    (FilterFormat.load dt)

theorem pidRetuneTo_commits (self : Extent) (config : Option (PidConfig Q)) :
    (pidRetuneTo self config).Commits fun m =>
      (pidRetune self config m.ctx).map fun next => m.mapCtx fun _ => next := by
  refine (Procedure.Commits.attempt_bind _ fun config => .attempt_bind _ fun bounds =>
    .write_bind _ (.write_bind _ (.write_bind _ (.write _)))).congr fun m => ?_
  simp only [pidRetune, retuneState, bind, Except.bind]
  cases checkConfig self config with
  | error status => rfl
  | ok config =>
      dsimp only
      cases pidCheck config with
      | error status => rfl
      | ok bounds =>
          simp only [Objects.mapCtx, Except.map]
          split <;> split <;> rfl

theorem pidResetTo_commits (self : Extent) (integral : Q) :
    (pidResetTo self integral).Commits fun m =>
      (pidReset self integral m.ctx).map fun next => m.mapCtx fun _ => next := by
  intro m
  dsimp only
  rw [pidResetTo, pidReset]
  by_cases hself : self.address = 0
  · rw [if_pos hself, if_pos hself]
    rfl
  · rw [if_neg hself, if_neg hself, Procedure.attempt_bind_ok rfl, Procedure.read_bind]
    simp only [resetState]
    split
    · rfl
    · rfl

theorem pidStepWorkTo_commits (output : ℕ) (setpoint measurement period : Int64) :
    (pidStepWorkTo output setpoint measurement period :
      Procedure Status (Objects (Pid Q) (PidOutput Q)) Unit).Commits fun m =>
      (pidStepWork m.ctx setpoint measurement period).map fun r => m.store output r := by
  refine (Procedure.Commits.attempt_bind _ fun _ => .read_bind _ fun ctx => .attempt_bind _ fun ep =>
    .attempt_bind _ fun coefficients => .attempt_bind _ fun r => .write_bind _ (.write_bind _
      (.write_bind _ (.write_bind _ (.write_bind _ (.write_bind _ (.write_bind _
        (.write_bind _ (.write_bind _ (.write _)))))))))).congr fun m => ?_
  rw [pidStepWork]
  by_cases hperiod : fcqCmp period 0 ≤ 0
  · rw [if_pos hperiod, if_pos hperiod]
    rfl
  rw [if_neg hperiod, if_neg hperiod]
  simp only [bind, Except.bind]
  cases pidProportional m.ctx.config setpoint measurement with
  | error status => rfl
  | ok ep =>
      dsimp only
      cases periodCoefficients m.ctx period with
      | error status => rfl
      | ok coefficients =>
          dsimp only
          cases hadvance : pidAdvance m.ctx.toPidState coefficients ep.1 ep.2 measurement with
          | error status => rfl
          | ok r =>
              obtain ⟨-, -, -, -, -, -, -, -, -, -, -, hnext⟩ := pidAdvance_ok hadvance
              simp only [hnext, Except.map]
              rfl

theorem pidStepTo_commits (self output : Extent) (setpoint measurement dt : Q) :
    (pidStepTo self output setpoint measurement dt).Commits fun m =>
      (pidStep self output setpoint measurement dt m.ctx).map fun r =>
        m.store output.address r := by
  refine (Procedure.Commits.attempt_bind _ fun _ =>
    pidStepWorkTo_commits output.address _ _ _).congr fun m => ?_
  rw [pidStep]
  cases checkPointers self output <;> rfl

/-! ## Torque control -/

/-- `dtc_step`: the context is changed in place after the last conversion. -/
def dtcStepTo (self output : Extent) (input : DtcInput Q) :
    Procedure Status (Objects (Dtc Q) (DtcResult Q)) Unit := do
  .attempt (checkPointers self output)
  let ctx ← .read Objects.ctx
  let sample ← .attempt (dtcWork input ctx)
  .write (Objects.mapCtx fun ctx => { ctx with fluxAlpha := sample.alpha })
  .write (Objects.mapCtx fun ctx => { ctx with fluxBeta := sample.beta })
  .write (Objects.mapCtx fun ctx => { ctx with fluxState := sample.result.fluxState })
  .write (Objects.mapCtx fun ctx => { ctx with torqueState := sample.result.torqueState })
  .write (Objects.mapCtx fun ctx => { ctx with lastSwitch := sample.result.switchState })
  .write (Objects.emit output.address sample.result)

theorem dtcStepTo_atomic (self output : Extent) (input : DtcInput Q) :
    (dtcStepTo self output input).Atomic := by
  refine .attempt_bind _ fun _ => .read_bind _ fun ctx => .attempt_bind _ fun sample => ?_
  refine Procedure.Unfailing.atomic ?_
  exact .bind (.write _) fun _ => .bind (.write _) fun _ => .bind (.write _) fun _ =>
    .bind (.write _) fun _ => .bind (.write _) fun _ => .write _

/-! ## The speed cascade -/

/-- What the frame of `speed_foc_step` holds before its callees store into it. -/
structure SpeedFocLocals (Q : Type) where
  speedCommand : PidOutput Q
  current : FocOutput Q

/-- `speed_foc_step`: each loop stores into the copy `next` and into a local
result, at address `0` of its own objects. -/
def speedFocStepTo (self output : Extent) (input : SpeedFocInput Q) (locals : SpeedFocLocals Q) :
    Procedure Status (Objects (SpeedFoc Q) (SpeedFocOutput Q)) Unit := do
  .attempt (checkPointers self output)
  let ctx ← .read Objects.ctx
  let feedback ← .attempt (speedFeedback ctx.polePairs input)
  let outer ← .attempt (Procedure.onLocals
    (pidStepWorkTo 0 (FilterFormat.load input.mechanicalReference) feedback.mechanical
      (FilterFormat.load input.dt))
    ⟨ctx.speed, fun _ => locals.speedCommand⟩)
  let reference : Dq Q := ⟨feedback.referenceD, (outer.output 0).output⟩
  let inner ← .attempt (Procedure.onLocals
    (stepTo ⟨0, 0⟩ (focWork (input.inner reference)))
    ⟨ctx.current, fun _ => locals.current⟩)
  let holds ← .attempt (speedHolds feedback.error (inner.output 0))
  .write (Objects.mapCtx fun ctx =>
    { current := inner.ctx
      speed := if holds then { outer.ctx with integral := ctx.speed.integral } else outer.ctx
      polePairs := ctx.polePairs })
  .write (Objects.emit output.address
    { current := inner.output 0, reference := reference, mechanicalSpeed := feedback.stored })

theorem speedFocStepTo_commits (self output : Extent) (input : SpeedFocInput Q)
    (locals : SpeedFocLocals Q) :
    (speedFocStepTo self output input locals).Commits fun m =>
      (speedFocStep self output input m.ctx).map fun r => m.store output.address r := by
  refine (Procedure.Commits.attempt_bind _ fun _ => .read_bind _ fun ctx => .attempt_bind _
    fun feedback => .attempt_bind _ fun outer => .attempt_bind _ fun inner => .attempt_bind _
      fun holds => .write_bind _ (.write _)).congr fun m => ?_
  simp only [(pidStepWorkTo_commits _ _ _ _).onLocals, (stepTo_commits _ _).onLocals]
  rw [speedFocStep]
  simp only [bind, Except.bind]
  cases checkPointers self output with
  | error status => rfl
  | ok _ =>
      dsimp only
      cases speedFeedback m.ctx.polePairs input with
      | error status => rfl
      | ok feedback =>
          dsimp only
          cases pidStepWork m.ctx.speed (FilterFormat.load input.mechanicalReference)
              feedback.mechanical (FilterFormat.load input.dt) with
          | error status => rfl
          | ok outer =>
              simp only [Except.map, Objects.store, Function.update_self]
              cases focWork (input.inner ⟨feedback.referenceD, outer.1.output⟩) m.ctx.current with
              | error status => rfl
              | ok inner =>
                  simp only [Function.update_self]
                  cases speedHolds feedback.error inner.1 <;> rfl

/-! ## All controllers -/

inductive Controller
  | pid
  | vvvf
  | foc
  | speedFoc
  | dtc
  | smo

/-- The calls on a PID context. -/
inductive PidEntry (Q : Type)
  | init (config : Option (PidConfig Q)) (integral : Q)
  | retune (config : Option (PidConfig Q))
  | reset (integral : Q)
  | step (output : Extent) (setpoint measurement dt : Q)

/-- The calls on the other contexts. -/
inductive StepEntry (A I : Type)
  | init (arguments : A)
  | step (output : Extent) (input : I)

namespace Controller

abbrev Context (Q : Type) : Controller → Type
  | .pid => Pid Q
  | .vvvf => Vvvf
  | .foc => Foc Q
  | .speedFoc => SpeedFoc Q
  | .dtc => Dtc Q
  | .smo => Smo Q

abbrev Output (Q : Type) : Controller → Type
  | .pid => PidOutput Q
  | .vvvf => VvvfOutput Q
  | .foc => FocOutput Q
  | .speedFoc => SpeedFocOutput Q
  | .dtc => DtcResult Q
  | .smo => SmoOutput Q

abbrev Entry (Q : Type) : Controller → Type
  | .pid => PidEntry Q
  | .vvvf => StepEntry Q (VvvfInput Q)
  | .foc => StepEntry (Option (FocConfig Q)) (FocInput Q)
  | .speedFoc => StepEntry (Option (SpeedFocConfig Q)) (SpeedFocInput Q × SpeedFocLocals Q)
  | .dtc => StepEntry (DtcConfig Q × Ab Q) (DtcInput Q)
  | .smo => StepEntry (Option (SmoConfig Q) × Ab Q) (Ab Q × Ab Q)

/-- One call on the context at `self`. -/
def perform (self : Extent) :
    (c : Controller) → c.Entry Q → Procedure Status (Objects (c.Context Q) (c.Output Q)) Unit
  | .pid, .init config integral => buildTo (pidInit self config integral)
  | .pid, .retune config => pidRetuneTo self config
  | .pid, .reset integral => pidResetTo self integral
  | .pid, .step output setpoint measurement dt => pidStepTo self output setpoint measurement dt
  | .vvvf, .init angle => buildTo (vvvfInit self angle)
  | .vvvf, .step output input => stepTo output (vvvfStep self output input)
  | .foc, .init config => buildTo (focInit self config)
  | .foc, .step output input => stepTo output (focStep self output input)
  | .speedFoc, .init config => buildTo (speedFocInit self config)
  | .speedFoc, .step output (input, locals) => speedFocStepTo self output input locals
  | .dtc, .init (config, initialFlux) => buildTo (dtcInit self config initialFlux)
  | .dtc, .step output input => dtcStepTo self output input
  | .smo, .init (config, initialCurrent) => buildTo (smoInit self config initialCurrent)
  | .smo, .step output (current, voltage) => stepTo output (smoStep self output current voltage)

theorem atomic_perform (self : Extent) (c : Controller) (entry : c.Entry Q) :
    (c.perform self entry).Atomic := by
  cases c with
  | pid =>
      cases entry with
      | init config integral => exact (buildTo_commits _).atomic
      | retune config => exact (pidRetuneTo_commits self config).atomic
      | reset integral => exact (pidResetTo_commits self integral).atomic
      | step output setpoint measurement dt =>
          exact (pidStepTo_commits self output setpoint measurement dt).atomic
  | vvvf | foc | smo =>
      cases entry with
      | init arguments => exact (buildTo_commits _).atomic
      | step output input => exact (stepTo_commits _ _).atomic
  | speedFoc =>
      cases entry with
      | init config => exact (buildTo_commits _).atomic
      | step output input => exact (speedFocStepTo_commits self output input.1 input.2).atomic
  | dtc =>
      cases entry with
      | init arguments => exact (buildTo_commits _).atomic
      | step output input => exact dtcStepTo_atomic self output input

/-- The controller as a service; a call that returns OK is observed by all the
objects it leaves. -/
def service (c : Controller) (Q : Type) [FilterFormat Q] (self : Extent) :
    Service Status (Objects (c.Context Q) (c.Output Q)) Unit (Objects (c.Context Q) (c.Output Q))
      (c.Entry Q) :=
  .ofProcedures (c.perform self)

end Controller

/-- Every Q controller, in every context: a call that fails leaves the context
and every output object as they were, and a run is observed the same and ends
in the same objects with its failing calls deleted. -/
theorem controllers_all_or_nothing (c : Controller) (Q : Type) [FilterFormat Q] (self : Extent) :
    (∀ entry : c.Entry Q, (c.perform self entry).Atomic) ∧
    ∀ (m : Objects (c.Context Q) (c.Output Q)) (entries : List (c.Entry Q)),
      (c.service Q self).outputs (m, ()) ((c.service Q self).succeeding (m, ()) entries) =
          (c.service Q self).outputs (m, ()) entries ∧
        (c.service Q self).final (m, ()) ((c.service Q self).succeeding (m, ()) entries) =
          (c.service Q self).final (m, ()) entries := by
  have hatomic : ∀ entry : c.Entry Q, (c.perform self entry).Atomic :=
    Controller.atomic_perform self c
  refine ⟨hatomic, fun m entries => ?_⟩
  obtain ⟨houtputs, hfinal⟩ :=
    (Service.transactional_ofProcedures hatomic).run_succeeding entries (m, ()) (m, ()) trivial rfl
  exact ⟨houtputs, Prod.ext hfinal rfl⟩

end Xhive.Fieldctrl
