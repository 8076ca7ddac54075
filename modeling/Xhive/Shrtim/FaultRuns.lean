import Xhive.Shrtim.Outputs

/-!
# Latched trips and fault attachments over whole runs

A latched trip is outstanding until its own channel is reset.  It keeps the
units attached to its channel off as long as its flag stays set, and the one
thing that clears the flag of another channel is the fault interrupt.  What
`shrtim_fault_attach` programs stays, but for the fault states, which
`shrtim_pwm_init` puts back to their default.
-/

namespace Xhive.Shrtim

open Xhive.Support

/-! ## Latched trips -/

/-- What the last successful `shrtim_fault_attach` of a unit asked for, and
whether the unit was initialised again since. -/
structure Attachment where
  mask : ℕ
  out1 : FaultOut
  out2 : FaultOut
  initialised : Bool
  deriving DecidableEq

def attachments : Action → (ℕ → Option Attachment) → ℕ → Option Attachment
  | .attach unit mask out1 out2, r => Function.update r unit (some ⟨mask, out1, out2, false⟩)
  | .configure unit _, r =>
      Function.update r unit ((r unit).map fun a => { a with initialised := true })
  | .wipe _, _ => fun _ => none
  | _, r => r

/-- The enabled fault set of the unit is the mask, and its outputs have the
given fault states. -/
structure Attachment.Programmed (a : Attachment) (unit : ℕ) (state1 state2 : FaultState)
    (p : Protection) : Prop where
  enabled : ∀ f, f < 6 → p.faultEnabled unit f = a.mask.testBit f
  first : p.faultState (outOf unit 0) = state1
  second : p.faultState (outOf unit 1) = state2

/-- The fault states of the two outputs, which a later `shrtim_pwm_init` of the
unit puts back to their default. -/
def Attachment.state1 (a : Attachment) : FaultState :=
  if a.initialised then .noAction else faultStateEncode a.out1

def Attachment.state2 (a : Attachment) : FaultState :=
  if a.initialised then .noAction else faultStateEncode a.out2

/-- What was attached is what the hardware has, as it was asked for. -/
def AttachmentsKept (p : Protection) (r : ℕ → Option Attachment) : Prop :=
  ∀ u, u < halUnits → ∀ a, r u = some a →
    a.Programmed u (faultStateEncode a.out1) (faultStateEncode a.out2) p

/-- What was attached is what the hardware has, but for the fault states of
units initialised since. -/
def AttachmentsKeptUntilInit (p : Protection) (r : ℕ → Option Attachment) : Prop :=
  ∀ u, u < halUnits → ∀ a, r u = some a → a.Programmed u a.state1 a.state2 p

/-- The mask the HAL remembers is the enabled fault set, and it is the mask
last attached. -/
def Coherent (p : Protection) (r : ℕ → Option Attachment) : Prop :=
  ∀ u, u < halUnits → (∀ f, f < 6 → p.faultEnabled u f = (p.faultAttached u).testBit f) ∧
    ∀ a, r u = some a → p.faultAttached u = a.mask ∧
      p.faultState (outOf u 0) = a.state1 ∧ p.faultState (outOf u 1) = a.state2

theorem Coherent.kept {p : Protection} {r : ℕ → Option Attachment} (h : Coherent p r) :
    AttachmentsKeptUntilInit p r := by
  intro u hu a ha
  obtain ⟨henabled, hkept⟩ := h u hu
  obtain ⟨hmask, hfirst, hsecond⟩ := hkept a ha
  exact ⟨fun f hf => hmask ▸ henabled f hf, hfirst, hsecond⟩

theorem coherent_act {a : Action} {p : Protection} {r : ℕ → Option Attachment}
    (h : Coherent p r) : Coherent (p.act a) (attachments a r) := by
  intro u hu
  obtain ⟨henabled, hkept⟩ := h u hu
  have hhalf : outOf u 0 / 2 = u ∧ outOf u 1 / 2 = u := by
    simp only [outOf]
    omega
  cases a with
  | wipe dropLatches =>
      refine ⟨fun f _ => ?_, fun a hr => ?_⟩
      · simp [Protection.act, hu]
      · cases hr
  | configure unit enable =>
      refine ⟨henabled, fun a hr => ?_⟩
      by_cases hunit : u = unit
      · subst hunit
        simp only [attachments, Function.update_self, Option.map_eq_some_iff] at hr
        obtain ⟨b, hb, rfl⟩ := hr
        refine ⟨(hkept b hb).1, ?_, ?_⟩
        · simp [Protection.act, hhalf, Attachment.state1]
        · simp [Protection.act, hhalf, Attachment.state2]
      · have hold : r u = some a := by simpa [attachments, hunit] using hr
        simpa [Protection.act, hhalf, hunit] using hkept a hold
  | attach unit mask out1 out2 =>
      by_cases hunit : u = unit
      · subst hunit
        refine ⟨fun f hf => ?_, fun a hr => ?_⟩
        · -- the bits removed and added turn the remembered mask into the new one
          simp only [Protection.act, Function.update_self, henabled f hf, faultsRemoved,
            faultsAdded, hf, decide_true, Bool.true_and]
          cases (p.faultAttached u).testBit f <;> cases mask.testBit f <;> rfl
        · have ha : a = ⟨mask, out1, out2, false⟩ := by
            simpa [attachments] using hr.symm
          subst ha
          simp [Protection.act, outOf, Attachment.state1, Attachment.state2]
      · have hne : outOf u 0 ≠ outOf unit 0 ∧ outOf u 0 ≠ outOf unit 1 ∧
            outOf u 1 ≠ outOf unit 0 ∧ outOf u 1 ≠ outOf unit 1 := by
          simp only [outOf]
          omega
        refine ⟨fun f hf => ?_, fun a hr => ?_⟩
        · simpa [Protection.act, hunit] using henabled f hf
        · have hold : r u = some a := by simpa [attachments, hunit] using hr
          simpa [Protection.act, hunit, hne] using hkept a hold
  | _ => exact ⟨henabled, hkept⟩

/-- The system with the attachments made so far. -/
def attachStep :
    Event → System × (ℕ → Option Attachment) → System × (ℕ → Option Attachment) :=
  observing System.step fun e s r => attachments (System.action e s) r

/-- No unit has a fault attached, in the HAL and in the hardware. -/
def Unattached (s : Hal) : Prop :=
  ∀ u, u < halUnits → s.faultAttached u = 0 ∧ ∀ f, s.faultEnabled u f = false

theorem unattached_powerOn (wiped : Wiped) : Unattached (.powerOn wiped) :=
  fun _ _ => ⟨rfl, fun _ => rfl⟩

theorem AfterInit.unattached {s : Hal} (h : AfterInit s) : Unattached s := by
  intro u hu
  obtain ⟨p, hp⟩ := h.wiped
  refine ⟨?_, fun f => ?_⟩
  · have hmask := congrArg (fun q => q.faultAttached u) hp
    exact hmask.trans (if_pos hu)
  · have henabled := congrArg (fun q => q.faultEnabled u f) hp
    exact henabled

/-- In every run from a block without attachments, the enabled fault set of a
unit is the mask last attached, and its outputs have the fault states last
attached until a `shrtim_pwm_init` of the unit succeeds, which takes them away. -/
theorem attachments_kept_until_init {s : System} (hs : Unattached s.hal) (es : List Event) :
    Throughout attachStep (fun t => AttachmentsKeptUntilInit t.1.hal.protection t.2) es
      (s, fun _ => none) := by
  have hstart : Coherent s.hal.protection fun _ => none := by
    refine fun u hu => ⟨fun f _ => ?_, fun a hr => ?_⟩
    · have hbit : (s.hal.faultAttached u).testBit f = false := by simp [(hs u hu).1]
      exact ((hs u hu).2 f).trans hbit.symm
    · cases hr
  refine Throughout.imp (fun t => Coherent.kept)
    (throughout_of_preserved (fun e t ht => ?_) es hstart)
  show Coherent (System.step e t.1).hal.protection _
  rw [protection_step]
  exact coherent_act ht

/-- The initialisation of an attached unit takes the fault states away. -/
theorem init_drops_fault_states :
    ¬Throughout attachStep (fun t => AttachmentsKept t.1.hal.protection t.2)
      [.call (.faultAttach 0 1 2 2), .call (.pwmInit 0 (some pwmCfgDefault))]
      (readySystem, fun _ => none) := by
  intro h
  have hlast := h.2.2 0 (by decide) ⟨1, .inactive, .inactive, true⟩ (by decide +kernel)
  exact absurd hlast.first (by decide +kernel)

theorem attachments_kept_ready :
    Throughout attachStep (fun t => AttachmentsKeptUntilInit t.1.hal.protection t.2)
      [.call (.faultAttach 0 1 2 2), .call (.pwmInit 0 (some pwmCfgDefault)), .call (.pwmStop 0)]
      (readySystem, fun _ => none) :=
  attachments_kept_until_init readySystem_afterInit.unattached _

end Xhive.Shrtim
