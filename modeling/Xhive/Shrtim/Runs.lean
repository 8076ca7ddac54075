import Xhive.Shrtim.Faults
import Xhive.Support.Traces

/-!
# Interleavings of calls, interrupt entries and hardware

The application calls the API, the hardware trips fault channels, and the
interrupt entries advance one turn of their loops at a time.  Calls and trips
may fall between any two turns, so the calls a callback makes are calls that
follow its turn.
-/

namespace Xhive.Shrtim

open Xhive.Support

/-- The calls that write a part of the state. -/
inductive Call
  | init (clock : ClockOutcome) (wiped : Wiped)
  | deinit (wiped : Wiped)
  | pwmInit (unit : ℕ) (cfg : Option PwmCfg)
  | pwmFreq (unit : ℕ) (hz : UInt32)
  | pwmDuty (unit : ℕ) (duty : UInt32)
  | pwmDuty2 (unit : ℕ) (duty : UInt32)
  | pwmDeadtime (unit : ℕ) (riseNs fallNs : UInt32)
  | pwmStart (unit : ℕ)
  | pwmStop (unit : ℕ)
  | pwmStartAll
  | pwmStopAll
  | outEnable (out : ℕ)
  | outDisable (out : ℕ)
  | outPolarity (out : ℕ) (activeLow : Bool)
  | periodRaw (unit : ℕ) (ticks : UInt32)
  | compareRaw (unit cmp : ℕ) (ticks : UInt32)
  | masterPeriod (periodTicks : UInt32) (startNow : Bool)
  | pwmSyncToMaster (unit : ℕ) (enable : Bool)
  | exevResetUnit (unit ev : ℕ)
  | faultConfig (fault filter : ℕ) (latch : Bool)
  | faultAttach (unit mask out1 out2 : ℕ)
  | faultReset (fault : ℕ)
  | irqEnable (unit : ℕ) (evt : Evt) (enable : Bool)

/-- The state a call leaves, whatever it returns. -/
def Call.perform : Call → Hal → Hal
  | .init clock wiped, s => (shrtimInit clock wiped s).2
  | .deinit wiped, s => shrtimDeinit wiped s
  | .pwmInit unit cfg, s => (shrtimPwmInit unit cfg s).2
  | .pwmFreq unit hz, s => (shrtimPwmFreq unit hz s).2
  | .pwmDuty unit duty, s => (shrtimPwmDuty unit duty s).2
  | .pwmDuty2 unit duty, s => (shrtimPwmDuty2 unit duty s).2
  | .pwmDeadtime unit riseNs fallNs, s => (shrtimPwmDeadtime unit riseNs fallNs s).2
  | .pwmStart unit, s => shrtimPwmStart unit s
  | .pwmStop unit, s => shrtimPwmStop unit s
  | .pwmStartAll, s => shrtimPwmStartAll s
  | .pwmStopAll, s => shrtimPwmStopAll s
  | .outEnable out, s => shrtimOutEnable out s
  | .outDisable out, s => shrtimOutDisable out s
  | .outPolarity out activeLow, s => shrtimOutPolarity out activeLow s
  | .periodRaw unit ticks, s => shrtimPeriodRaw unit ticks s
  | .compareRaw unit cmp ticks, s => shrtimCompareRaw unit cmp ticks s
  | .masterPeriod periodTicks startNow, s => shrtimMasterPeriod periodTicks startNow s
  | .pwmSyncToMaster unit enable, s => shrtimPwmSyncToMaster unit enable s
  | .exevResetUnit unit ev, s => (shrtimExevResetUnit unit ev s).2
  | .faultConfig fault filter latch, s => (shrtimFaultConfig fault filter latch s).2
  | .faultAttach unit mask out1 out2, s => (shrtimFaultAttach unit mask out1 out2 s).2
  | .faultReset fault, s => shrtimFaultReset fault s
  | .irqEnable unit evt enable, s => (shrtimIrqEnable unit evt enable s).2

/-- A hardware trip: the flag is set, and every unit whose timer has the
channel enabled loses its outputs. -/
def tripFault (f : ℕ) (s : Hal) : Hal :=
  { s with
    faultFlag := Function.update s.faultFlag f true
    outEnabled := fun o => s.outEnabled o && !s.faultEnabled (o / 2) f }

/-- The HAL and the interrupt entries that are running. -/
structure System where
  hal : Hal
  faultPass : Option FaultPass
  passes : ℕ → Option Pass

inductive Event
  | call (c : Call)
  | trip (f : ℕ)
  | faultEnter
  | faultTurn
  | passEnter (tmr : ℕ) (active : ℕ → Bool)
  | passTurn (tmr : ℕ) (still : Bool)

def faultTurn (p : FaultPass) (s : System) : System :=
  { s with
    hal := if p.serves p.next s.hal then clearFaultEntry p.next s.hal else s.hal
    faultPass := if p.next + 1 < 7 then some { p with next := p.next + 1 } else none }

def passTurn (tmr : ℕ) (still : Bool) (p : Pass) (s : System) : System :=
  { s with
    hal := if p.serves p.next then stormGuard tmr p.next still s.hal else s.hal
    passes := Function.update s.passes tmr
      (if p.next + 1 < (scanEvents tmr).length then some { p with next := p.next + 1 } else none) }

/-- An interrupt entry that is running is not entered again; a turn of one that
is not running does nothing. -/
def System.step : Event → System → System
  | .call c, s => { s with hal := c.perform s.hal }
  | .trip f, s => { s with hal := tripFault f s.hal }
  | .faultEnter, s =>
      if s.faultPass.isSome then s else { s with faultPass := some (FaultPass.enter s.hal) }
  | .faultTurn, s => s.faultPass.elim s fun p => faultTurn p s
  | .passEnter tmr active, s =>
      if unitMaster < tmr ∨ (s.passes tmr).isSome then s
      else { s with passes := Function.update s.passes tmr (some (Pass.enter tmr active s.hal)) }
  | .passTurn tmr still, s => (s.passes tmr).elim s fun p => passTurn tmr still p s

/-! ## Whole passes -/

theorem scanEvents_ne_nil (tmr : ℕ) : 0 < (scanEvents tmr).length := by
  rw [scanEvents]
  split <;> decide

/-- The events of a whole pass from state `s`, with the calls each callback
makes. -/
def passEvents (tmr : ℕ) (active still : ℕ → Bool) (calls : ℕ → List Call) (s : Hal) :
    List Event :=
  .passEnter tmr active ::
    (List.range (scanEvents tmr).length).flatMap fun i =>
      .passTurn tmr (still i) ::
        if (Pass.enter tmr active s).serves i then (calls i).map .call else []

def performAll (calls : List Call) (s : Hal) : Hal :=
  calls.foldl (fun t c => c.perform t) s

theorem after_calls (calls : List Call) (s : System) :
    after System.step (calls.map .call) s = { s with hal := performAll calls s.hal } := by
  induction calls generalizing s with
  | nil => rfl
  | cons c calls ih => exact ih _

/-- The first turns of a pass that is running. -/
theorem after_turns {tmr : ℕ} (p : Pass) (still : ℕ → Bool) (calls : ℕ → List Call) (s : System)
    {k : ℕ} (hk : k ≤ (scanEvents tmr).length) (hnext : p.next = 0) :
    after System.step
      ((List.range k).flatMap fun i =>
        .passTurn tmr (still i) :: if p.serves i then (calls i).map .call else [])
      { s with passes := Function.update s.passes tmr (some p) } =
    { s with
      hal := foldRange 0 k s.hal fun i t =>
        if p.serves i then performAll (calls i) (stormGuard tmr i (still i) t) else t
      passes := Function.update s.passes tmr
        (if k = 0 ∨ k < (scanEvents tmr).length then some { p with next := k } else none) } := by
  induction k with
  | zero =>
      have hp : { p with next := 0 } = p := by rw [← hnext]
      simp [foldRange, hp]
  | succ k ih =>
      have hklt : k < (scanEvents tmr).length := hk
      have hturn : ∀ h : Hal, after System.step
          (.passTurn tmr (still k) :: if p.serves k then (calls k).map .call else [])
          { s with hal := h, passes := Function.update s.passes tmr (some { p with next := k }) } =
          { s with
            hal := if p.serves k then performAll (calls k) (stormGuard tmr k (still k) h) else h
            passes := Function.update s.passes tmr
              (if k + 1 < (scanEvents tmr).length then some { p with next := k + 1 }
                else none) } := by
        intro h
        have hserves : ({ p with next := k } : Pass).serves k = p.serves k := rfl
        by_cases hk' : p.serves k
        · simp [System.step, passTurn, hserves, hk', after_calls]
        · simp [System.step, passTurn, hserves, hk']
      rw [List.range_succ, List.flatMap_append, after_append, ih hklt.le,
        foldRange_succ (Nat.zero_le k), if_pos (Or.inr hklt), List.flatMap_singleton, hturn]
      simp

/-- Turn by turn, an undisturbed pass is `isr_pass`. -/
theorem isrPass_run {tmr : ℕ} (htmr : tmr ≤ unitMaster) (active still : ℕ → Bool)
    (calls : ℕ → List Call) {s : System} (hidle : s.passes tmr = none) :
    after System.step (passEvents tmr active still calls s.hal) s =
      { s with hal := isrPass tmr active still (fun i => performAll (calls i)) s.hal } := by
  have henter : System.step (.passEnter tmr active) s =
      { s with passes := Function.update s.passes tmr (some (Pass.enter tmr active s.hal)) } := by
    simp [System.step, hidle, Nat.not_lt.mpr htmr]
  rw [passEvents, after_cons, henter, after_turns _ still calls s le_rfl rfl]
  have hlength := scanEvents_ne_nil tmr
  simp only [lt_irrefl, or_false, hlength.ne', if_false, isrPass, ← hidle,
    Function.update_eq_self]

/-- One turn of `shrtim_isr_fault`, with the calls its callback makes. -/
def faultTurnHal (p : FaultPass) (calls : ℕ → List Call) (f : ℕ) (s : Hal) : Hal :=
  if p.serves f s then performAll (calls f) (clearFaultEntry f s) else s

/-- The events of a whole `shrtim_isr_fault` from state `s`. -/
def faultEvents (calls : ℕ → List Call) (s : Hal) : List Event :=
  let p := FaultPass.enter s
  .faultEnter ::
    (List.range 7).flatMap fun f =>
      .faultTurn ::
        if p.serves f (foldRange 0 f s (faultTurnHal p calls)) then (calls f).map .call else []

theorem after_faultTurns (p : FaultPass) (calls : ℕ → List Call) (s : System) {k : ℕ} (hk : k ≤ 7)
    (hnext : p.next = 0) :
    after System.step
      ((List.range k).flatMap fun f =>
        .faultTurn ::
          if p.serves f (foldRange 0 f s.hal (faultTurnHal p calls)) then (calls f).map .call
          else [])
      { s with faultPass := some p } =
    { s with
      hal := foldRange 0 k s.hal (faultTurnHal p calls)
      faultPass := if k < 7 then some { p with next := k } else none } := by
  induction k with
  | zero =>
      have hp : { p with next := 0 } = p := by rw [← hnext]
      simp [foldRange, hp]
  | succ k ih =>
      have hklt : k < 7 := hk
      have hturn : ∀ h : Hal, after System.step
          (.faultTurn :: if p.serves k h then (calls k).map .call else [])
          { s with hal := h, faultPass := some { p with next := k } } =
          { s with
            hal := faultTurnHal p calls k h
            faultPass := if k + 1 < 7 then some { p with next := k + 1 } else none } := by
        intro h
        have hserves : ({ p with next := k } : FaultPass).serves k h = p.serves k h := rfl
        by_cases hk' : p.serves k h
        · simp [System.step, faultTurn, hserves, hk', after_calls, faultTurnHal]
        · simp [System.step, faultTurn, hserves, hk', faultTurnHal]
      rw [List.range_succ, List.flatMap_append, after_append, ih hklt.le,
        foldRange_succ (Nat.zero_le k), if_pos hklt, List.flatMap_singleton, hturn]

/-- Turn by turn, an undisturbed fault interrupt is `shrtim_isr_fault`. -/
theorem isrFault_run (calls : ℕ → List Call) {s : System} (hidle : s.faultPass = none) :
    after System.step (faultEvents calls s.hal) s =
      { s with hal := isrFault (fun f => performAll (calls f)) s.hal } := by
  have henter : System.step .faultEnter s =
      { s with faultPass := some (FaultPass.enter s.hal) } := by
    simp [System.step, hidle]
  rw [faultEvents, after_cons, henter, after_faultTurns _ calls s le_rfl rfl]
  simp [isrFault, ← hidle]
  rfl

end Xhive.Shrtim
