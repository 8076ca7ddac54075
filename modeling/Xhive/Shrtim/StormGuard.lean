import Mathlib.Data.List.GetD
import Mathlib.Data.List.Nodup
import Xhive.Shrtim.Configuration

/-!
# The interrupt storm guard

An interrupt pass serves the sources that were enabled and pending when it read
the registers.  The guard counts, for each source, the consecutive services
that find the flag set again after its clear; the count goes on over passes,
over a masking and over a later enable, and the service that finds it at its
limit masks the source.
-/

namespace Xhive.Shrtim

open Xhive.Support

/-! ## What keeps the counters and the enable bits -/

theorem untimed_storm : Untimed Hal.storm where
  timer _ _ _ := rfl
  output _ _ _ := rfl
  unit _ _ _ _ _ := rfl

def Call.isDeinit : Call → Bool
  | .deinit _ => true
  | _ => false

theorem storm_enableOutputs (unit : ℕ) (bits : ℕ → Bool) (s : Hal) :
    (enableOutputs unit bits s).storm = s.storm := by
  have hfirst : (if bits 0 then enableOutput (outOf unit 0) s else s).storm = s.storm :=
    view_ite rfl rfl
  exact view_ite hfirst hfirst

theorem storm_pwmInitConfigure (unit : ℕ) (cfg : PwmCfg) (timing : Timing) (s : Hal) :
    (pwmInitConfigure unit cfg timing s).storm = s.storm := by
  unfold pwmInitConfigure
  extract_lets s₁ s₂
  have h₁ : s₁.storm = s.storm := by
    refine (view_turnsWhileNot ?_ 3 _).trans ?_
    · exact fun t => rfl
    · exact untimed_storm.applyCrossbars unit _
  have h₂ : s₂.storm = s.storm := view_ite h₁ h₁
  exact h₂

theorem storm_pwmInit (unit : ℕ) (cfg : Option PwmCfg) :
    (shrtimPwmInit unit cfg).Keeps Hal.storm := by
  refine .read_bind _ fun clkHz => .attempt_bind _ fun c => ?_
  refine .bind (.write fun s => ?_) fun _ => .bind (.write fun s => rfl) fun _ => ?_
  · split
    · exact untimed_storm.centerMasterSetup _ _ s
    · rfl
  · exact .bind (untimed_storm.programDeadtime unit _ _) fun _ =>
      .write fun s => storm_pwmInitConfigure unit _ _ s

theorem storm_pwmStart (unit : ℕ) (s : Hal) : (shrtimPwmStart unit s).storm = s.storm := by
  unfold shrtimPwmStart
  refine view_ite rfl ?_
  cases s.stoppedOutEn unit with
  | none => rfl
  | some bits => exact storm_enableOutputs unit bits s

theorem storm_pwmStop (unit : ℕ) (s : Hal) : (shrtimPwmStop unit s).storm = s.storm := by
  unfold shrtimPwmStop
  refine view_ite rfl ?_
  cases s.stoppedOutEn unit <;> rfl

theorem storm_faultResetUnit (f u : ℕ) (s : Hal) : (faultResetUnit f u s).storm = s.storm :=
  view_ite rfl (view_ite rfl (view_ite (storm_enableOutputs u _ s) rfl))

theorem storm_foldRange {body : ℕ → Hal → Hal} (hbody : ∀ u s, (body u s).storm = s.storm)
    (s : Hal) : (foldRange 0 halUnits s body).storm = s.storm :=
  foldRange_induction (fun _ (t : Hal) => t.storm = s.storm) (Nat.zero_le _) rfl
    fun u t _ _ ht => (hbody u t).trans ht

/-- No call writes the counters, `shrtim_deinit` apart. -/
theorem storm_perform (c : Call) (s : Hal) :
    (c.perform s).storm = if c.isDeinit then fun _ _ => 0 else s.storm := by
  cases c with
  | init clock wiped => cases clock <;> rfl
  | deinit wiped => rfl
  | pwmInit unit cfg => exact storm_pwmInit unit cfg s
  | pwmStart unit => exact storm_pwmStart unit s
  | pwmStop unit => exact storm_pwmStop unit s
  | pwmStartAll =>
      show (shrtimPwmStartAll s).storm = s.storm
      rw [shrtimPwmStartAll, storm_foldRange storm_pwmStart, storm_foldRange]
      exact fun _ _ => rfl
  | pwmStopAll =>
      show (shrtimPwmStopAll s).storm = s.storm
      rw [shrtimPwmStopAll, storm_foldRange storm_pwmStop]
  | outEnable out | outDisable out => exact view_ite rfl rfl
  | faultConfig fault filter latch =>
      have hkeeps : (shrtimFaultConfig fault filter latch).Keeps Hal.storm :=
        .attempt_bind _ fun _ => .write fun _ => rfl
      exact hkeeps s
  | faultAttach unit mask out1 out2 =>
      have hkeeps : (shrtimFaultAttach unit mask out1 out2).Keeps Hal.storm :=
        .attempt_bind _ fun _ => .write fun _ => rfl
      exact hkeeps s
  | faultReset fault =>
      show (shrtimFaultReset fault s).storm = s.storm
      refine view_ite rfl ?_
      rw [storm_foldRange (storm_faultResetUnit _)]
      exact view_ite rfl rfl
  | irqEnable unit evt enable =>
      have hkeeps : (shrtimIrqEnable unit evt enable).Keeps Hal.storm := by
        refine .attempt_bind _ fun _ => ?_
        cases evt with
        | cpt1 | cpt2 | rstro => exact .attempt_bind _ fun _ => .write fun _ => rfl
        | _ => exact fun _ => rfl
      exact hkeeps s
  | _ => exact untimed_storm.perform (by trivial) s

/-! ## Counts -/

/-- What an observer counts: the consecutive services of a source that found
its flag set again, those since its last enable, the enable bits as the pass of
a timer read them, and which of them a call has cleared since. -/
structure Watch where
  streak : ℕ → ℕ → ℕ
  sinceEnabled : ℕ → ℕ → ℕ
  entered : ℕ → Evt → Bool
  cleared : ℕ → Evt → Bool

def Watch.zero : Watch := ⟨fun _ _ => 0, fun _ _ => 0, fun _ _ => false, fun _ _ => false⟩

/-- One more service of entry `i`. -/
def bump (tmr i : ℕ) (still : Bool) (n : ℕ → ℕ → ℕ) : ℕ → ℕ → ℕ :=
  Function.update n tmr (Function.update (n tmr) i (if still then n tmr i + 1 else 0))

/-- The call enables the source at position `i` of timer `tmr`. -/
def Call.enables : Call → ℕ → ℕ → Bool
  | .irqEnable unit evt true, tmr, i =>
      (if evt = .mstSync then unitMaster else unit) = tmr ∧ evt = scanEvent tmr i
  | _, _, _ => false

def watch : Event → System → Watch → Watch
  | .call c, s, w =>
      { w with
        streak := fun tmr i => if c.isDeinit then 0 else w.streak tmr i
        sinceEnabled := fun tmr i =>
          if c.isDeinit ∨ c.enables tmr i then 0 else w.sinceEnabled tmr i
        cleared := fun tmr evt =>
          w.cleared tmr evt || (s.hal.iden tmr evt && !(c.perform s.hal).iden tmr evt) }
  | .passEnter tmr _, s, w =>
      if unitMaster < tmr ∨ (s.passes tmr).isSome then w
      else
        { w with
          entered := Function.update w.entered tmr (s.hal.iden tmr)
          cleared := Function.update w.cleared tmr fun _ => false }
  | .passTurn tmr still, s, w =>
      (s.passes tmr).elim w fun p =>
        if p.serves p.next then
          { w with
            streak := bump tmr p.next still w.streak
            sinceEnabled := bump tmr p.next still w.sinceEnabled }
        else w
  | _, _, w => w

def guardStep : Event → System × Watch → System × Watch := observing System.step watch

/-- The event serves entry `i` of timer `tmr`, and finds its flag `still`. -/
def Serves (e : Event) (s : System) (tmr i : ℕ) (still : Bool) : Prop :=
  ∃ p, e = .passTurn tmr still ∧ s.passes tmr = some p ∧ p.next = i ∧ p.serves i

/-- The guard takes its branch at the limit. -/
def masks (s : Hal) (tmr i : ℕ) (still : Bool) : Bool :=
  still && 1000 ≤ s.storm tmr i + 1

/-- The observed counts agree with the counters, and a running pass is watched
since it read the enable bits. -/
structure Watched (s : System) (w : Watch) : Prop where
  storm : ∀ tmr i, s.hal.storm tmr i = min (w.streak tmr i) 999
  range : ∀ tmr p, s.passes tmr = some p → p.next < (scanEvents tmr).length
  entered : ∀ tmr p, s.passes tmr = some p → ∀ i, p.enable i = w.entered tmr (scanEvent tmr i)
  bits : ∀ tmr p, s.passes tmr = some p → ∀ i, p.next ≤ i → i < (scanEvents tmr).length →
    p.enable i → s.hal.iden tmr (scanEvent tmr i) ∨ w.cleared tmr (scanEvent tmr i)

theorem scanEvent_injective {tmr i j : ℕ} (hi : i < (scanEvents tmr).length)
    (hj : j < (scanEvents tmr).length) (h : scanEvent tmr i = scanEvent tmr j) : i = j := by
  have hnodup : (scanEvents tmr).Nodup := by
    rw [scanEvents]
    split <;> decide
  rw [scanEvent, scanEvent, List.getD_eq_getElem _ _ hi, List.getD_eq_getElem _ _ hj] at h
  exact (hnodup.getElem_inj_iff).mp h

section Guard

variable {s : Hal} {tmr i : ℕ} {still : Bool}

theorem stormGuard_of_masks (h : masks s tmr i still) :
    (stormGuard tmr i still s).iden tmr (scanEvent tmr i) = false ∧
      (stormGuard tmr i still s).stormDeg tmr i = true ∧
      (stormGuard tmr i still s).storm = s.storm := by
  obtain ⟨hstill, hlimit⟩ := Bool.and_eq_true _ _ ▸ h
  have hle : 1000 ≤ s.storm tmr i + 1 := of_decide_eq_true hlimit
  simp [stormGuard, hstill, hle, setIden]

theorem stormGuard_of_not_masks (h : masks s tmr i still = false) :
    (stormGuard tmr i still s).iden = s.iden ∧
      (stormGuard tmr i still s).storm = bump tmr i still s.storm := by
  cases still with
  | false => simp [stormGuard, bump]
  | true =>
      have hlt : ¬1000 ≤ s.storm tmr i + 1 := by simpa [masks] using h
      simp [stormGuard, bump, hlt]

/-- A service touches no other enable bit. -/
theorem stormGuard_iden_of_ne {r : ℕ} {evt : Evt} (h : r ≠ tmr ∨ evt ≠ scanEvent tmr i) :
    (stormGuard tmr i still s).iden r evt = s.iden r evt := by
  cases hmasks : masks s tmr i still with
  | false => rw [(stormGuard_of_not_masks hmasks).1]
  | true =>
      obtain ⟨hstill, hlimit⟩ := Bool.and_eq_true _ _ ▸ hmasks
      have hle : 1000 ≤ s.storm tmr i + 1 := of_decide_eq_true hlimit
      by_cases hr : r = tmr
      · have hevt : evt ≠ scanEvent tmr i := h.resolve_left (not_not_intro hr)
        simp [stormGuard, hstill, hle, setIden, hr, hevt]
      · simp [stormGuard, hstill, hle, setIden, hr]

/-- The counters stay the observed counts, cut off at 999. -/
theorem stormGuard_storm {w : ℕ → ℕ → ℕ} (h : ∀ r j, s.storm r j = min (w r j) 999) (r j : ℕ) :
    (stormGuard tmr i still s).storm r j = min (bump tmr i still w r j) 999 := by
  have hbump : ∀ n : ℕ → ℕ → ℕ, ¬(r = tmr ∧ j = i) → bump tmr i still n r j = n r j := by
    intro n hne
    by_cases hr : r = tmr
    · have hj : j ≠ i := fun hj => hne ⟨hr, hj⟩
      simp [bump, hr, hj]
    · simp [bump, hr]
  cases hmasks : masks s tmr i still with
  | false =>
      rw [(stormGuard_of_not_masks hmasks).2]
      by_cases hsource : r = tmr ∧ j = i
      · obtain ⟨rfl, rfl⟩ := hsource
        cases still with
        | false => simp [bump]
        | true =>
            have hlt : ¬1000 ≤ s.storm r j + 1 := by simpa [masks] using hmasks
            have hcount := h r j
            simp only [bump, Function.update_self, if_true]
            omega
      · rw [hbump _ hsource, hbump _ hsource, h r j]
  | true =>
      rw [(stormGuard_of_masks hmasks).2.2]
      by_cases hsource : r = tmr ∧ j = i
      · obtain ⟨rfl, rfl⟩ := hsource
        obtain ⟨rfl, hlimit⟩ := Bool.and_eq_true _ _ ▸ hmasks
        have hle : 1000 ≤ s.storm r j + 1 := of_decide_eq_true hlimit
        have hcount := h r j
        simp only [bump, Function.update_self, if_true]
        omega
      · rw [hbump _ hsource, h r j]

end Guard

/-! ## The guard along a run -/

theorem Watched.call {s : System} {w : Watch} (h : Watched s w) (c : Call) :
    Watched (System.step (.call c) s) (watch (.call c) s w) where
  storm tmr i := by
    show (c.perform s.hal).storm tmr i = min (if c.isDeinit then 0 else w.streak tmr i) 999
    rw [storm_perform]
    split
    · rfl
    · exact h.storm tmr i
  range := h.range
  entered := h.entered
  bits tmr p hp i hnext hi henable := by
    rcases h.bits tmr p hp i hnext hi henable with hbit | hcleared
    · cases hafter : (c.perform s.hal).iden tmr (scanEvent tmr i) with
      | true => exact Or.inl hafter
      | false => exact Or.inr (by simp [watch, hbit, hafter])
    · exact Or.inr (by simp [watch, hcleared])

/-- Events that change neither counters, enable bits nor passes. -/
theorem Watched.frame {s t : System} {w : Watch} (h : Watched s w)
    (hstorm : t.hal.storm = s.hal.storm) (hiden : t.hal.iden = s.hal.iden)
    (hpasses : t.passes = s.passes) : Watched t w where
  storm := by rw [hstorm]; exact h.storm
  range := by rw [hpasses]; exact h.range
  entered := by rw [hpasses]; exact h.entered
  bits := by rw [hpasses, hiden]; exact h.bits

theorem Watched.enter {s : System} {w : Watch} (h : Watched s w) {tmr : ℕ}
    (active : ℕ → Bool) :
    Watched
      { s with passes := Function.update s.passes tmr (some (Pass.enter tmr active s.hal)) }
      { w with
        entered := Function.update w.entered tmr (s.hal.iden tmr)
        cleared := Function.update w.cleared tmr fun _ => false } where
  storm := h.storm
  range r p hp := by
    by_cases hr : r = tmr
    · subst hr
      obtain rfl : Pass.enter r active s.hal = p := by simpa using hp
      exact scanEvents_ne_nil r
    · exact h.range r p (by simpa [hr] using hp)
  entered r p hp i := by
    by_cases hr : r = tmr
    · subst hr
      obtain rfl : Pass.enter r active s.hal = p := by simpa using hp
      simp [Pass.enter]
    · simpa [hr] using h.entered r p (by simpa [hr] using hp) i
  bits r p hp i hnext hi henable := by
    by_cases hr : r = tmr
    · subst hr
      obtain rfl : Pass.enter r active s.hal = p := by simpa using hp
      exact Or.inl henable
    · simpa [hr] using h.bits r p (by simpa [hr] using hp) i hnext hi henable

/-- The pass that a turn leaves behind. -/
theorem passes_passTurn {s : System} {tmr : ℕ} {still : Bool} {p q : Pass} {r : ℕ}
    (hp : s.passes tmr = some p) (hq : (passTurn tmr still p s).passes r = some q) :
    (r ≠ tmr ∧ s.passes r = some q) ∨
    (r = tmr ∧ p.next + 1 < (scanEvents tmr).length ∧ q = { p with next := p.next + 1 }) := by
  by_cases hr : r = tmr
  · subst hr
    simp only [passTurn, Function.update_self] at hq
    split at hq
    · exact Or.inr ⟨rfl, ‹_›, (Option.some.inj hq).symm⟩
    · cases hq
  · exact Or.inl ⟨hr, by simpa [passTurn, hr] using hq⟩

theorem Watched.turn {s : System} {w : Watch} (h : Watched s w) {tmr : ℕ} {p : Pass}
    (hp : s.passes tmr = some p) (still : Bool) :
    Watched (passTurn tmr still p s)
      (if p.serves p.next then
        { w with
          streak := bump tmr p.next still w.streak
          sinceEnabled := bump tmr p.next still w.sinceEnabled }
      else w) where
  storm r j := by
    by_cases hserves : p.serves p.next
    · simpa [passTurn, hserves] using stormGuard_storm h.storm r j
    · simpa [passTurn, hserves] using h.storm r j
  range r q hq := by
    obtain ⟨-, hold⟩ | ⟨rfl, hlt, rfl⟩ := passes_passTurn hp hq
    · exact h.range r q hold
    · exact hlt
  entered r q hq i := by
    have hwatch : ∀ w' : Watch, w'.entered = w.entered →
        q.enable i = w'.entered r (scanEvent r i) := by
      intro w' hw'
      rw [hw']
      obtain ⟨-, hold⟩ | ⟨rfl, -, rfl⟩ := passes_passTurn hp hq
      · exact h.entered r q hold i
      · exact h.entered r p hp i
    split
    · exact hwatch _ rfl
    · exact hwatch _ rfl
  bits r q hq i hnext hi henable := by
    have hsame : ∀ w' : Watch, w'.cleared = w.cleared →
        (passTurn tmr still p s).hal.iden r (scanEvent r i) ∨
          w'.cleared r (scanEvent r i) := by
      intro w' hw'
      rw [hw']
      have hkeep : (r ≠ tmr ∨ scanEvent r i ≠ scanEvent tmr p.next) →
          (passTurn tmr still p s).hal.iden r (scanEvent r i) =
            s.hal.iden r (scanEvent r i) := by
        intro hne
        simp only [passTurn]
        split
        · exact stormGuard_iden_of_ne hne
        · rfl
      obtain ⟨hr, hold⟩ | ⟨rfl, -, rfl⟩ := passes_passTurn hp hq
      · rw [hkeep (Or.inl hr)]
        exact h.bits r q hold i hnext hi henable
      · -- a later entry of the same pass: its event is not the one just served
        have hne : scanEvent r i ≠ scanEvent r p.next := by
          intro heq
          have hi' := scanEvent_injective hi (h.range r p hp) heq
          exact absurd hnext (by simp [hi'])
        rw [hkeep (Or.inr hne)]
        exact h.bits r p hp i (Nat.le_of_succ_le hnext) hi henable
    split
    · exact hsame _ rfl
    · exact hsame _ rfl

theorem watched_step {s : System} {w : Watch} (h : Watched s w) (e : Event) :
    Watched (System.step e s) (watch e s w) := by
  cases e with
  | call c => exact h.call c
  | trip f => exact h.frame rfl rfl rfl
  | faultEnter =>
      simp only [System.step]
      split
      · exact h
      · exact h.frame rfl rfl rfl
  | faultTurn =>
      simp only [System.step, watch]
      cases s.faultPass with
      | none => exact h
      | some p =>
          have hkeeps : ∀ f, (clearFaultEntry f s.hal).storm = s.hal.storm ∧
              (clearFaultEntry f s.hal).iden = s.hal.iden := by
            intro f
            rw [clearFaultEntry]
            split <;> exact ⟨rfl, rfl⟩
          exact h.frame (view_ite (hkeeps _).1 rfl) (view_ite (hkeeps _).2 rfl) rfl
  | passEnter tmr active =>
      simp only [System.step, watch]
      split
      · exact h
      · exact h.enter active
  | passTurn tmr still =>
      simp only [System.step, watch]
      cases hp : s.passes tmr with
      | none => exact h
      | some p => exact h.turn hp still

/-- What the guard promises for a service: it masks exactly the service that
finds the flag set for at least the 1000th time in a row, a masked source is
disabled and marked, no other service writes the enable bits; and the callback
that is dispatched belongs to a source that was enabled when the pass read the
register, and that is still enabled, masked by this service, or disabled by a
call since. -/
structure GuardedService (e : Event) (t : System × Watch) (tmr i : ℕ) (still : Bool) : Prop where
  exact : masks t.1.hal tmr i still = true ↔ still = true ∧ 999 ≤ t.2.streak tmr i
  masked : masks t.1.hal tmr i still = true →
    (System.step e t.1).hal.iden tmr (scanEvent tmr i) = false ∧
      (System.step e t.1).hal.stormDeg tmr i = true
  spared : masks t.1.hal tmr i still = false → (System.step e t.1).hal.iden = t.1.hal.iden
  entered : t.2.entered tmr (scanEvent tmr i) = true
  dispatched : (System.step e t.1).hal.iden tmr (scanEvent tmr i) = true ∨
    masks t.1.hal tmr i still = true ∨ t.2.cleared tmr (scanEvent tmr i) = true

theorem Watched.guardedService {e : Event} {t : System × Watch} {tmr i : ℕ} {still : Bool}
    (h : Watched t.1 t.2) (hserves : Serves e t.1 tmr i still) :
    GuardedService e t tmr i still := by
  obtain ⟨p, rfl, hp, rfl, hserved⟩ := hserves
  have hstep : (System.step (.passTurn tmr still) t.1).hal =
      stormGuard tmr p.next still t.1.hal := by
    simp [System.step, hp, passTurn, hserved]
  have henable : p.enable p.next = true := (Bool.and_eq_true _ _ ▸ hserved).1
  constructor
  · rw [masks, h.storm tmr p.next, Bool.and_eq_true, decide_eq_true_eq]
    refine and_congr_right fun _ => ?_
    omega
  · intro hmasks
    rw [hstep]
    obtain ⟨hoff, hdeg, -⟩ := stormGuard_of_masks hmasks
    exact ⟨hoff, hdeg⟩
  · intro hmasks
    rw [hstep]
    exact (stormGuard_of_not_masks hmasks).1
  · exact (h.entered tmr p hp p.next).symm.trans henable
  · cases hmasks : masks t.1.hal tmr p.next still with
    | true => exact Or.inr (Or.inl rfl)
    | false =>
        rw [hstep, (stormGuard_of_not_masks hmasks).1]
        obtain hbit | hcleared := h.bits tmr p hp p.next le_rfl (h.range tmr p hp) henable
        · exact Or.inl hbit
        · exact Or.inr (Or.inr hcleared)

/-- No counter has counted, and no interrupt entry is running. -/
structure Fresh (s : System) : Prop where
  storm : ∀ tmr i, s.hal.storm tmr i = 0
  passes : ∀ tmr, s.passes tmr = none

theorem Fresh.watched {s : System} (h : Fresh s) : Watched s .zero where
  storm tmr i := by simp [h.storm tmr i, Watch.zero]
  range tmr p hp := by
    rw [h.passes tmr] at hp
    cases hp
  entered tmr p hp := by
    rw [h.passes tmr] at hp
    cases hp
  bits tmr p hp := by
    rw [h.passes tmr] at hp
    cases hp

/-- In every run of passes, calls and hardware from zero counters, no counter
exceeds 999 and every service is guarded. -/
theorem storm_guard {s : System} (hs : Fresh s) (es : List Event) :
    Throughout guardStep (fun t => ∀ tmr i, t.1.hal.storm tmr i ≤ 999) es (s, .zero) ∧
      Along guardStep
        (fun e t => ∀ tmr i still, Serves e t.1 tmr i still → GuardedService e t tmr i still) es
        (s, .zero) := by
  constructor
  · refine Throughout.imp (fun t ht tmr i => ?_)
      (throughout_of_preserved (P := fun t => Watched t.1 t.2) (fun e t ht => watched_step ht e) es
        hs.watched)
    rw [ht.storm tmr i]
    exact min_le_right _ _
  · exact along_of_preserved (P := fun t => Watched t.1 t.2) (fun e t ht => watched_step ht e)
      (fun e t ht tmr i still hserves => ht.guardedService hserves) es hs.watched

theorem fresh_powerOn (wiped : Wiped) : Fresh ⟨.powerOn wiped, none, fun _ => none⟩ where
  storm _ _ := rfl
  passes _ := rfl

/-- Unit A with its update and repetition interrupts enabled. -/
def irqSystem : System :=
  after System.step [.call (.irqEnable 0 .update true), .call (.irqEnable 0 .rept true)]
    ⟨.powerOn .zero, none, fun _ => none⟩

theorem fresh_irqSystem : Fresh irqSystem where
  storm _ _ := rfl
  passes _ := rfl

/-- Two services of one pass, between which a callback disables the second source. -/
def disablingPass : List Event :=
  [.passEnter 0 fun _ => true, .passTurn 0 false, .call (.irqEnable 0 .rept false),
    .passTurn 0 false]

theorem storm_guard_disablingPass :
    Throughout guardStep (fun t => ∀ tmr i, t.1.hal.storm tmr i ≤ 999) disablingPass
        (irqSystem, .zero) ∧
      Along guardStep
        (fun e t => ∀ tmr i still, Serves e t.1 tmr i still → GuardedService e t tmr i still)
        disablingPass (irqSystem, .zero) :=
  storm_guard fresh_irqSystem _

/-! ## Where the guard differs from a count since the last enable -/

/-- A service as the guard would have it if an enable restarted the count, and
the enable bits were read at every dispatch. -/
structure StrictService (e : Event) (t : System × Watch) (tmr i : ℕ) (still : Bool) : Prop where
  exact : masks t.1.hal tmr i still = true ↔ still = true ∧ 999 ≤ t.2.sinceEnabled tmr i
  dispatched : (System.step e t.1).hal.iden tmr (scanEvent tmr i) = true ∨
    masks t.1.hal tmr i still = true

def Strict (es : List Event) : Prop :=
  Along guardStep
    (fun e t => ∀ tmr i still, Serves e t.1 tmr i still → StrictService e t tmr i still) es
    (irqSystem, .zero)

/-- The flags of a pass in which only the update flag is set. -/
def onlyUpdate (i : ℕ) : Bool := i = 0

/-- A pass of unit A that finds the update flag set again after its clear. -/
def stuckPass : List Event :=
  passEvents 0 onlyUpdate (fun _ => true) (fun _ => []) irqSystem.hal

/-- The state between two such passes, with the update counter at `k`. -/
structure StuckAt (k : ℕ) (s : System) : Prop where
  storm : s.hal.storm 0 0 = k
  iden : s.hal.iden 0 .update = true
  passes : s.passes 0 = none

theorem after_stuckPass {s : System} (hiden : s.hal.iden 0 .update = true)
    (hidle : s.passes 0 = none) :
    after System.step stuckPass s = { s with hal := stormGuard 0 0 true s.hal } := by
  have hevents : stuckPass = passEvents 0 onlyUpdate (fun _ => true) (fun _ => []) s.hal := by
    simp [stuckPass, passEvents]
  rw [hevents, isrPass_run (by decide) _ _ _ hidle]
  simp [isrPass, foldRange, scanEvents, scanEvent, unitMaster, List.range', Pass.serves,
    Pass.enter, performAll, onlyUpdate, hiden]

theorem StuckAt.next {k : ℕ} (hk : k < 999) {s : System} (h : StuckAt k s) :
    StuckAt (k + 1) (after System.step stuckPass s) := by
  rw [after_stuckPass h.iden h.passes]
  have hmasks : masks s.hal 0 0 true = false := by
    simp [masks, h.storm]
    omega
  obtain ⟨hiden, hstorm⟩ := stormGuard_of_not_masks hmasks
  constructor
  · rw [hstorm]
    simp [bump, h.storm]
  · rw [hiden]
    exact h.iden
  · exact h.passes

theorem stuckAt_replicate {k : ℕ} (hk : k ≤ 999) :
    StuckAt k (after System.step (List.replicate k stuckPass).flatten irqSystem) := by
  induction k with
  | zero => exact ⟨rfl, rfl, rfl⟩
  | succ k ih =>
      rw [List.replicate_succ', List.flatten_append, after_append]
      simpa using (ih (Nat.le_of_succ_le hk)).next hk

/-- A pass that starts after one more enable finds the counter at its limit. -/
theorem masks_afterEnable {t : System × Watch} (ht : StuckAt 999 t.1) {u : System × Watch}
    (hu : after guardStep
      [.call (.irqEnable 0 .update true), .passEnter 0 onlyUpdate] t = u) :
    Serves (.passTurn 0 true) u.1 0 0 true ∧ masks u.1.hal 0 0 true = true ∧
      u.2.sinceEnabled 0 0 = 0 := by
  have hidle := ht.passes
  have hstorm := ht.storm
  subst hu
  simp only [after_cons, after_nil, guardStep, Support.observing]
  refine ⟨⟨Pass.enter 0 onlyUpdate (Call.perform (.irqEnable 0 .update true) t.1.hal), rfl,
    ?_, rfl, ?_⟩, ?_, ?_⟩
  · simp [System.step, hidle, unitMaster]
  · rfl
  · have hkeep : (Call.perform (.irqEnable 0 .update true) t.1.hal).storm = t.1.hal.storm :=
      storm_perform _ _
    simp [System.step, hidle, unitMaster, masks, hkeep, hstorm]
  · simp [System.step, watch, hidle, unitMaster, Call.enables, scanEvent, scanEvents]

theorem not_strict_of_stuckAt {es : List Event}
    (hes : StuckAt 999 (after System.step es irqSystem)) :
    ¬Strict (es ++ [.call (.irqEnable 0 .update true), .passEnter 0 onlyUpdate] ++
      [.passTurn 0 true]) := by
  intro h
  have hrun := Along.last h
  rw [after_append] at hrun
  have ht : StuckAt 999 (after guardStep es (irqSystem, .zero)).1 := by
    rw [guardStep, after_observing]
    exact hes
  obtain ⟨hserves, hmasks, hsince⟩ := masks_afterEnable ht rfl
  have hcount := ((hrun 0 0 true hserves).exact.mp hmasks).2
  rw [hsince] at hcount
  exact absurd hcount (by decide)

/-- After 999 services that find the flag set again and one more enable, a
single service masks the source; and a source that a callback disabled is
still dispatched by the running pass. -/
theorem guard_not_strict :
    ¬Strict ((List.replicate 999 stuckPass).flatten ++
        [.call (.irqEnable 0 .update true), .passEnter 0 onlyUpdate] ++ [.passTurn 0 true]) ∧
      ¬Strict disablingPass := by
  constructor
  · exact not_strict_of_stuckAt (stuckAt_replicate le_rfl)
  · intro h
    have hservice := h.2.2.2.1 0 1 false ⟨_, rfl, rfl, rfl, by decide +kernel⟩
    exact absurd hservice.dispatched (by decide +kernel)

end Xhive.Shrtim
