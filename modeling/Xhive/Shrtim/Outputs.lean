import Xhive.Shrtim.Protection

/-!
# Who may drive an output

Two promises about the output drivers, each with the exact condition on the
calls of a run under which it is kept: an output is driven only as last
requested, and the outputs of a stopped unit stay off.
-/

namespace Xhive.Shrtim

open Xhive.Support

/-! ## Actions on outputs that exist -/

/-- The units and outputs an action names exist. -/
def Action.InRange : Action → Prop
  | .configure unit _ => unit < halUnits
  | .start units => ∀ u, units u → u < halUnits
  | .setOutput out _ => out / 2 < halUnits
  | .attach unit _ _ _ => unit < halUnits
  | _ => True

theorem faultAttachChecks_ok {unit mask out1 out2 : ℕ} {o : FaultOut × FaultOut}
    (h : faultAttachChecks unit mask out1 out2 = .ok o) : unit < halUnits ∧ mask ≤ 0x3F := by
  by_cases hbad : halUnits ≤ unit ∨ 0x3F < mask
  · rw [faultAttachChecks, if_pos hbad] at h
    cases h
  · exact ⟨by omega, by omega⟩

theorem action_inRange (e : Event) (s : System) : (System.action e s).InRange := by
  cases e with
  | call c =>
      cases c with
      | init clock wiped => cases clock <;> trivial
      | pwmInit unit cfg =>
          obtain ⟨e, t, hrun, -⟩ | ⟨c, t, rfl, hunit, hrun, -⟩ :=
            shrtimPwmInit_cases unit cfg s.hal
          · simp only [System.action, Call.action, hrun]
            cases cfg <;> trivial
          · simp only [System.action, Call.action, hrun]
            exact hunit
      | pwmStart unit =>
          simp only [System.action, Call.action]
          split
          · intro u hu
            rw [of_decide_eq_true hu]
            assumption
          · trivial
      | pwmStartAll => exact fun u hu => of_decide_eq_true hu
      | pwmStop unit =>
          simp only [System.action, Call.action]
          split <;> trivial
      | outEnable out | outDisable out =>
          simp only [System.action, Call.action]
          split
          · exact Nat.div_lt_of_lt_mul ‹_›
          · trivial
      | faultConfig fault filter latch =>
          simp only [System.action, Call.action]
          split <;> trivial
      | faultAttach unit mask out1 out2 =>
          simp only [System.action, Call.action]
          cases hchecks : faultAttachChecks unit mask out1 out2 with
          | error e => trivial
          | ok o => exact (faultAttachChecks_ok hchecks).1
      | faultReset fault =>
          simp only [System.action, Call.action]
          split <;> trivial
      | _ => trivial
  | faultTurn =>
      simp only [System.action]
      cases s.faultPass with
      | none => trivial
      | some p =>
          simp only [Option.elim_some]
          split <;> trivial
  | _ => trivial

/-! ## Requests -/

/-- The last explicit request for each output: by a successful
`shrtim_pwm_init`, by `shrtim_out_enable` or by `shrtim_out_disable`. -/
def request : Action → (ℕ → Bool) → ℕ → Bool
  | .configure unit enable, r => fun o => if o / 2 = unit then enable else r o
  | .setOutput out enabled, r => Function.update r out enabled
  | .wipe _, _ => fun _ => false
  | _, r => r

/-- A start restores wanted outputs only, and a configuration that enables no
output finds them off. -/
def Action.KeepsRequests : Action → Protection → Prop
  | .start units, p => ∀ o, units (o / 2) → p.saved o → p.outWanted (o / 2) (o % 2)
  | .configure unit false, p => ∀ o, o / 2 = unit → p.outEnabled o = false
  | _, _ => True

/-- Every driven output was last requested to be driven. -/
def AsRequested (p : Protection) (r : ℕ → Bool) : Prop :=
  ∀ o, p.outEnabled o → r o

/-- The application's record of wanted outputs agrees with the requests. -/
def WantedAsRequested (p : Protection) (r : ℕ → Bool) : Prop :=
  ∀ o, o / 2 < halUnits → p.outWanted (o / 2) (o % 2) = r o

theorem wantedAsRequested_act {a : Action} {p : Protection} {r : ℕ → Bool}
    (h : WantedAsRequested p r) : WantedAsRequested (p.act a) (request a r) := by
  intro o ho
  cases a with
  | wipe dropLatches => simp [Protection.act, request, ho]
  | configure unit enable =>
      by_cases hunit : o / 2 = unit
      · simp [Protection.act, request, hunit]
      · simp [Protection.act, request, hunit, h o ho]
  | setOutput out enabled =>
      by_cases hout : o = out
      · simp [Protection.act, request, hout]
      · by_cases hunit : o / 2 = out / 2
        · have hside : o % 2 ≠ out % 2 := by omega
          simp [Protection.act, request, hout, ← hunit, hside, h o ho]
        · simp [Protection.act, request, hout, hunit, h o ho]
  | _ => exact h o ho

theorem asRequested_act_iff {a : Action} {p : Protection} {r : ℕ → Bool} (ha : a.InRange)
    (hwanted : WantedAsRequested p r) (h : AsRequested p r) :
    AsRequested (p.act a) (request a r) ↔ a.KeepsRequests p := by
  cases a with
  | wipe dropLatches => simp [AsRequested, Protection.act, request, Action.KeepsRequests]
  | configure unit enable =>
      cases enable with
      | true =>
          refine iff_of_true (fun o ho => ?_) trivial
          by_cases hunit : o / 2 = unit
          · simp [request, hunit]
          · simpa [request, hunit] using h o (by simpa [Protection.act, hunit] using ho)
      | false =>
          constructor
          · intro hnext o hunit
            by_contra hon
            have hreq := hnext o (by simpa [Protection.act] using hon)
            simp [request, hunit] at hreq
          · intro hoff o ho
            have hon : p.outEnabled o := by simpa [Protection.act] using ho
            have hunit : o / 2 ≠ unit := by
              intro hunit
              rw [hoff o hunit] at hon
              exact Bool.false_ne_true hon
            simpa [request, hunit] using h o hon
  | start units =>
      have hreq : ∀ o, units (o / 2) → p.outWanted (o / 2) (o % 2) = r o :=
        fun o ho => hwanted o (ha _ ho)
      constructor
      · intro hnext o hu hsaved
        rw [hreq o hu]
        exact hnext o (by simp [Protection.act, hu, hsaved])
      · intro hkeeps o ho
        rcases Bool.or_eq_true _ _ ▸ ho with hon | hrestored
        · exact h o hon
        · obtain ⟨hu, hsaved⟩ := Bool.and_eq_true _ _ ▸ hrestored
          exact (hreq o hu).symm.trans (hkeeps o hu hsaved)
  | stop units =>
      refine iff_of_true (fun o ho => h o ?_) trivial
      exact (Bool.and_eq_true _ _ ▸ ho).1
  | setOutput out enabled =>
      refine iff_of_true (fun o ho => ?_) trivial
      by_cases hout : o = out
      · subst hout
        simpa [request, Protection.act] using ho
      · simpa [request, hout] using h o (by simpa [Protection.act, hout] using ho)
  | reset f =>
      refine iff_of_true (fun o ho => ?_) trivial
      rcases Bool.or_eq_true _ _ ▸ ho with hon | hresumed
      · exact h o hon
      · simp only [Protection.resumes, Bool.and_eq_true, decide_eq_true_eq] at hresumed
        exact (hwanted o hresumed.1.1.1.1).symm.trans hresumed.2
  | trip f =>
      refine iff_of_true (fun o ho => h o ?_) trivial
      exact (Bool.and_eq_true _ _ ▸ ho).1
  | _ => exact iff_of_true h trivial

/-- The system with the requests made so far. -/
def requestStep : Event → System × (ℕ → Bool) → System × (ℕ → Bool) :=
  observing System.step fun e s r => request (System.action e s) r

/-- The state a successful `shrtim_init` leaves. -/
def AfterInit (s : Hal) : Prop :=
  ∃ clock wiped t, shrtimInit clock wiped t = (.ok (), s)

theorem AfterInit.wiped {s : Hal} (h : AfterInit s) :
    ∃ p : Protection, s.protection = p.act (.wipe false) := by
  obtain ⟨clock, wiped, t, hrun⟩ := h
  cases clock with
  | locked hz =>
      cases hrun
      exact ⟨t.protection, protection_dropUnits wiped { t with clkHz := hz }⟩
  | _ => cases hrun

/-- After initialisation, an output is driven only as last requested exactly in
the runs whose every start restores wanted outputs only, and in which no
`shrtim_pwm_init` that enables no output finds one of them driven. -/
theorem outputs_asRequested_iff {s : System} (hs : AfterInit s.hal) (es : List Event) :
    Throughout requestStep (fun t => AsRequested t.1.hal.protection t.2) es (s, fun _ => false) ↔
      Along requestStep
        (fun e t => (System.action e t.1).KeepsRequests t.1.hal.protection) es
        (s, fun _ => false) := by
  obtain ⟨p, hp⟩ := hs.wiped
  refine throughout_iff_along
    (fun t : System × (ℕ → Bool) => WantedAsRequested t.1.hal.protection t.2) ?_ ?_ es ?_ ?_
  · intro e t ht
    show WantedAsRequested (System.step e t.1).hal.protection _
    rw [protection_step]
    exact wantedAsRequested_act ht
  · intro e t hwanted ht
    show AsRequested (System.step e t.1).hal.protection _ ↔ _
    rw [protection_step]
    exact asRequested_act_iff (action_inRange e t.1) hwanted ht
  · intro o ho
    rw [hp]
    simp [Protection.act, ho]
  · intro o ho
    rw [hp] at ho
    exact ho

/-- The default configuration of a unit: 20 kHz, 50 %, edge aligned, driven. -/
def pwmCfgDefault : PwmCfg :=
  { freqHz := 20000, duty := 500, duty2 := 0, align := alignEdge, run := 0, activeLow1 := false,
    activeLow2 := false, idleActive1 := false, idleActive2 := false, dtRiseNs := 0,
    dtFallNs := 0, enableOutputs := true }

/-- The system after an initialisation at 240 MHz. -/
def readySystem : System :=
  { hal := (shrtimInit (.locked 240000000) .zero (.powerOn .zero)).2
    faultPass := none
    passes := fun _ => none }

theorem readySystem_afterInit : AfterInit readySystem.hal :=
  ⟨.locked 240000000, .zero, .powerOn .zero, rfl⟩

/-- An output disabled while its unit is stopped is driven again by the start. -/
theorem start_drives_disabled_output :
    ¬Throughout requestStep (fun t => AsRequested t.1.hal.protection t.2)
      [.call (.pwmInit 0 (some pwmCfgDefault)), .call (.pwmStop 0), .call (.outDisable 0),
        .call (.pwmStart 0)] (readySystem, fun _ => false) := by
  intro h
  have hlast := h.2.2.2.2 0
  exact absurd (hlast (by decide +kernel)) (by decide +kernel)

/-- An output that is enabled, stopped and started is driven as requested. -/
theorem outputs_asRequested_stop_start :
    Throughout requestStep (fun t => AsRequested t.1.hal.protection t.2)
      [.call (.outEnable 0), .call (.pwmStop 0), .call (.pwmStart 0)]
      (readySystem, fun _ => false) := by
  refine (outputs_asRequested_iff readySystem_afterInit _).mpr ⟨trivial, trivial, ?_, trivial⟩
  intro o hunit hsaved
  have hzero : o / 2 = 0 := of_decide_eq_true hunit
  obtain rfl | rfl : o = 0 ∨ o = 1 := by omega
  · decide +kernel
  · exact absurd hsaved (by decide +kernel)

/-! ## Stopped units -/

/-- The outputs of stopped units: from a stop to the next start or successful
`shrtim_pwm_init` of the unit, or an explicit enable of the output. -/
def stopped : Action → (ℕ → Bool) → ℕ → Bool
  | .stop units, r => fun o => units (o / 2) || r o
  | .start units, r => fun o => r o && !units (o / 2)
  | .configure unit _, r => fun o => r o && !decide (o / 2 = unit)
  | .setOutput out true, r => Function.update r out false
  | _, r => r

/-- A reset of a fault channel drives no output of a stopped unit. -/
def Action.KeepsStopped : Action → Protection × (ℕ → Bool) → Prop
  | .reset f, p => ∀ o, p.2 o → p.1.resumes f o = false
  | _, _ => True

def StoppedOff (p : Protection) (r : ℕ → Bool) : Prop :=
  ∀ o, r o → p.outEnabled o = false

theorem stoppedOff_act_iff {a : Action} {p : Protection} {r : ℕ → Bool} (h : StoppedOff p r) :
    StoppedOff (p.act a) (stopped a r) ↔ a.KeepsStopped (p, r) := by
  cases a with
  | wipe dropLatches => exact iff_of_true (fun _ _ => rfl) trivial
  | configure unit enable =>
      refine iff_of_true (fun o ho => ?_) trivial
      obtain ⟨hr, hunit⟩ := Bool.and_eq_true _ _ ▸ ho
      have hne : o / 2 ≠ unit := by simpa using hunit
      simpa [Protection.act, hne] using h o hr
  | start units =>
      refine iff_of_true (fun o ho => ?_) trivial
      obtain ⟨hr, hunit⟩ := Bool.and_eq_true _ _ ▸ ho
      have hoff : units (o / 2) = false := by simpa using hunit
      simpa [Protection.act, hoff] using h o hr
  | stop units =>
      refine iff_of_true (fun o ho => ?_) trivial
      rcases Bool.or_eq_true _ _ ▸ ho with hunit | hr
      · simp [Protection.act, hunit]
      · simp [Protection.act, h o hr]
  | setOutput out enabled =>
      refine iff_of_true (fun o ho => ?_) trivial
      by_cases hout : o = out
      · subst hout
        cases enabled with
        | true => simp [stopped] at ho
        | false => simp [Protection.act]
      · have hr : r o := by
          cases enabled with
          | true => simpa [stopped, hout] using ho
          | false => exact ho
        simpa [Protection.act, hout] using h o hr
  | reset f =>
      constructor
      · intro hnext o ho
        have hoff := hnext o ho
        simp only [Protection.act, Bool.or_eq_false_iff] at hoff
        exact hoff.2
      · intro hkeeps o ho
        simp only [Protection.act, Bool.or_eq_false_iff]
        exact ⟨h o ho, hkeeps o ho⟩
  | trip f =>
      refine iff_of_true (fun o ho => ?_) trivial
      simp [Protection.act, h o ho]
  | _ => exact iff_of_true h trivial

/-- The system with the outputs that a stop holds off. -/
def stoppedStep : Event → System × (ℕ → Bool) → System × (ℕ → Bool) :=
  observing System.step fun e s r => stopped (System.action e s) r

/-- From any state, the outputs of stopped units stay off exactly in the runs
in which no `shrtim_fault_reset` finds, among the units attached to its channel
and to no other active one, a stopped unit with a wanted output. -/
theorem stopped_outputs_off_iff (s : System) (es : List Event) :
    Throughout stoppedStep (fun t => StoppedOff t.1.hal.protection t.2) es (s, fun _ => false) ↔
      Along stoppedStep
        (fun e t => (System.action e t.1).KeepsStopped (t.1.hal.protection, t.2)) es
        (s, fun _ => false) := by
  refine throughout_iff_along (fun _ => True) (fun _ _ _ => trivial) ?_ es trivial ?_
  · intro e t _ ht
    show StoppedOff (System.step e t.1).hal.protection _ ↔ _
    rw [protection_step]
    exact stoppedOff_act_iff ht
  · intro o ho
    cases ho

/-- A reset of a channel that never tripped drives a stopped unit. -/
theorem reset_drives_stopped_unit :
    ¬Throughout stoppedStep (fun t => StoppedOff t.1.hal.protection t.2)
      [.call (.pwmInit 0 (some pwmCfgDefault)), .call (.faultAttach 0 1 2 2), .call (.pwmStop 0),
        .call (.faultReset 1)] (readySystem, fun _ => false) := by
  intro h
  have hlast := h.2.2.2.2 0
  exact absurd (hlast (by decide +kernel)) (by decide +kernel)

end Xhive.Shrtim
