import Mathlib.Data.List.DropRight
import Mathlib.Data.List.Induction
import Xhive.Fieldctrl.SmoInvariant
import Xhive.Support.Traces

/-!
# Runs of the observer

The lock counter is the number of observable samples at the end of the run, up to
the number that locks.  A sample that loses the EMF, and the one after it, are not
observable.
-/

namespace Xhive.Fieldctrl

open Xhive.Support Xhive.Linears Xhive.Filters

/-! ## The end of a list -/

section Ends

variable {α : Type}

/-- The entries at the end of a list that all satisfy `p`. -/
def trailing (p : α → Bool) (l : List α) : ℕ :=
  (l.rtakeWhile p).length

theorem trailing_concat (p : α → Bool) (l : List α) (a : α) :
    trailing p (l ++ [a]) = if p a then trailing p l + 1 else 0 := by
  rw [trailing, List.rtakeWhile_concat]
  by_cases h : p a = true
  · rw [if_pos h, if_pos h, List.length_append]
    rfl
  · rw [if_neg h, if_neg h]
    rfl

/-- The last `n` entries of a list exist and all satisfy `p`. -/
def LastAll (p : α → Bool) (n : ℕ) (l : List α) : Prop :=
  n ≤ l.length ∧ ∀ a ∈ l.rtake n, p a = true

theorem lastAll_concat (p : α → Bool) (n : ℕ) (l : List α) (a : α) :
    LastAll p (n + 1) (l ++ [a]) ↔ p a = true ∧ LastAll p n l := by
  rw [LastAll, LastAll, List.rtake_concat_succ, List.length_append, List.length_singleton,
    Nat.add_le_add_iff_right]
  constructor
  · rintro ⟨hlength, hall⟩
    exact ⟨hall a (List.mem_append_right _ List.mem_cons_self), hlength,
      fun b hb => hall b (List.mem_append_left _ hb)⟩
  · rintro ⟨ha, hlength, hall⟩
    refine ⟨hlength, fun b hb => ?_⟩
    rcases List.mem_append.mp hb with hb | hb
    · exact hall b hb
    · rw [List.mem_singleton.mp hb]
      exact ha

theorem le_trailing_iff (p : α → Bool) (n : ℕ) (l : List α) :
    n ≤ trailing p l ↔ LastAll p n l := by
  induction l using List.reverseRecOn generalizing n with
  | nil =>
      rw [LastAll]
      refine ⟨fun h => ⟨h, fun a ha => ?_⟩, fun h => h.1⟩
      simp at ha
  | append_singleton l a ih =>
      cases n with
      | zero =>
          refine ⟨fun _ => ⟨Nat.zero_le _, fun b hb => ?_⟩, fun _ => Nat.zero_le _⟩
          simp at hb
      | succ n =>
          rw [trailing_concat, lastAll_concat, ← ih]
          by_cases h : p a = true
          · rw [if_pos h, Nat.add_le_add_iff_right]
            exact ⟨fun hle => ⟨h, hle⟩, fun hle => hle.2⟩
          · rw [if_neg h]
            exact ⟨fun hle => absurd hle (Nat.not_succ_le_zero n), fun hle => absurd hle.1 h⟩

/-- An entry that fails `p` is not among the last ones. -/
theorem LastAll.le_length {p : α → Bool} {n : ℕ} {before after : List α} {a : α}
    (h : LastAll p n (before ++ a :: after)) (ha : p a = false) : n ≤ after.length := by
  induction after using List.reverseRecOn generalizing n with
  | nil =>
      cases n with
      | zero => exact Nat.zero_le _
      | succ n =>
          have hp := ((lastAll_concat p n before a).mp h).1
          rw [ha] at hp
          cases hp
  | append_singleton after b ih =>
      cases n with
      | zero => exact Nat.zero_le _
      | succ n =>
          rw [← List.cons_append, ← List.append_assoc] at h
          rw [List.length_append, List.length_singleton, Nat.add_le_add_iff_right]
          exact ih ((lastAll_concat p n _ b).mp h).2

end Ends

/-! ## Runs -/

variable {Q : Type} [FilterFormat Q]

/-- The call of one sample. -/
structure SmoCall (Q : Type) where
  output : Extent
  current : Ab Q
  voltage : Ab Q

/-- A failing step leaves the context alone; the answer of a step that succeeds
records the context it leaves. -/
def smoMachine (Q : Type) [FilterFormat Q] (self : Extent) :
    Machine (SmoCall Q) (Except Status (SmoOutput Q × Smo Q)) (Smo Q) where
  react call ctx :=
    match smoStep self call.output call.current call.voltage ctx with
    | .ok (output, next) => (.ok (output, next), next)
    | .error status => (.error status, ctx)

/-- The successful steps of a run. -/
def smoSteps (self : Extent) (calls : List (SmoCall Q)) (start : Smo Q) :
    List (SmoOutput Q × Smo Q) :=
  ((smoMachine Q self).run calls start).1.filterMap Except.toOption

def isObservable (step : SmoOutput Q × Smo Q) : Bool :=
  step.1.observable

/-- What the successful steps of a run say of its start and of the context it reaches. -/
structure SmoHistory (start : Smo Q) (steps : List (SmoOutput Q × Smo Q)) (ctx : Smo Q) :
    Prop where
  kept : ctx.Kept
  config : ctx.config = start.config
  last : ∀ done step, steps = done ++ [step] → step.2 = ctx
  angle : ctx.EmfLost → ctx.hasAngle = false
  count : ctx.lockCount.toNat = min start.config.lockSamples.toNat (trailing isObservable steps)
  range : ∀ step ∈ steps, step.2.InRange ∧ step.2.config = start.config
  locked : ∀ done step rest, steps = done ++ step :: rest →
    (step.1.locked = true ↔
      LastAll isObservable start.config.lockSamples.toNat (done ++ [step]))
  lost : ∀ done lost next rest, steps = done ++ lost :: next :: rest → lost.2.EmfLost →
    next.1.observable = false

/-- The last entry of a list with one more entry, or an entry before it. -/
theorem concat_eq_append_cons {α : Type} {l before after : List α} {a b : α}
    (h : l ++ [a] = before ++ b :: after) :
    l = before ∧ a = b ∧ after = [] ∨ ∃ rest, after = rest ++ [a] ∧ l = before ++ b :: rest := by
  cases after using List.reverseRecOn with
  | nil =>
      obtain ⟨hl, ha⟩ := List.append_inj' h rfl
      exact Or.inl ⟨hl, List.singleton_inj.mp ha, rfl⟩
  | append_singleton rest c =>
      rw [← List.cons_append, ← List.append_assoc] at h
      obtain ⟨hl, ha⟩ := List.append_inj' h rfl
      exact Or.inr ⟨rest, by rw [List.singleton_inj.mp ha], hl⟩

theorem SmoHistory.start {self : Extent} {config : Option (SmoConfig Q)} {initialCurrent : Ab Q}
    {start : Smo Q} (h : smoInit self config initialCurrent = .ok start) :
    SmoHistory start [] start := by
  obtain ⟨hkept, hcount, hangle⟩ := smoInit_kept h
  have hnone : ∀ {done rest : List (SmoOutput Q × Smo Q)} {step}, [] = done ++ step :: rest →
      False := fun heq => by simp at heq
  exact
    { kept := hkept
      config := rfl
      last := fun _ _ heq => (hnone heq).elim
      angle := fun _ => hangle
      count := by rw [hcount]; exact (Nat.min_zero _).symm
      range := fun _ hstep => absurd hstep List.not_mem_nil
      locked := fun _ _ _ heq => (hnone heq).elim
      lost := fun _ _ _ _ heq => (hnone heq).elim }

/-- A successful step extends the history. -/
theorem SmoHistory.step {start ctx next : Smo Q} {steps : List (SmoOutput Q × Smo Q)}
    {output : SmoOutput Q} (h : SmoHistory start steps ctx) (hstep : ctx.Advances output next) :
    SmoHistory start (steps ++ [(output, next)]) next := by
  have hconfig : next.config = start.config := hstep.config.trans h.config
  have hcount : next.lockCount.toNat = min start.config.lockSamples.toNat
      (trailing isObservable (steps ++ [(output, next)])) := by
    have hold := h.count
    rw [hstep.count, toNat_smoLockCount, trailing_concat, h.config]
    show (if output.observable then _ else 0) =
      min _ (if output.observable then trailing isObservable steps + 1 else 0)
    split_ifs <;> omega
  refine ⟨hstep.kept, hconfig, ?_, fun hlost => (hstep.lost hlost).1, hcount, ?_, ?_, ?_⟩
  · intro done step heq
    exact ((List.singleton_inj.mp (List.append_inj' heq rfl).2) ▸ rfl)
  · intro step hmem
    rcases List.mem_append.mp hmem with hmem | hmem
    · exact h.range step hmem
    · obtain rfl := List.mem_singleton.mp hmem
      exact ⟨hstep.kept.range, hconfig⟩
  · intro done step rest heq
    rcases concat_eq_append_cons heq with ⟨rfl, rfl, rfl⟩ | ⟨rest', rfl, hsteps⟩
    · have hreach : next.lockCount = ctx.config.lockSamples ↔
          start.config.lockSamples.toNat ≤ trailing isObservable (steps ++ [(output, next)]) := by
        rw [← UInt32.toNat_inj, hcount, h.config]
        omega
      exact hstep.locked.trans (hreach.trans (le_trailing_iff _ _ _))
    · exact h.locked done step rest' hsteps
  · intro done lost after rest heq hlost
    rcases concat_eq_append_cons heq with ⟨-, -, hnil⟩ | ⟨rest', hrest, hsteps⟩
    · cases hnil
    · cases rest' with
      | nil =>
          obtain ⟨rfl, -⟩ := List.cons.inj hrest
          have hctx := h.last done lost hsteps
          have hangle := h.angle (hctx ▸ hlost)
          by_contra hobservable
          rw [hstep.angle (Bool.not_eq_false _ ▸ hobservable)] at hangle
          cases hangle
      | cons first rest' =>
          obtain ⟨rfl, -⟩ := List.cons.inj hrest
          exact h.lost done lost after rest' hsteps hlost

/-- A run keeps its history, and none of its answers is a domain error. -/
theorem smoHistory_run {self : Extent} {start : Smo Q} (h : SmoHistory start [] start)
    (calls : List (SmoCall Q)) :
    SmoHistory start (smoSteps self calls start) ((smoMachine Q self).run calls start).2 ∧
      ∀ answer ∈ ((smoMachine Q self).run calls start).1, answer ≠ .error .errorDomain := by
  induction calls using List.reverseRecOn with
  | nil => exact ⟨h, fun _ hmem => absurd hmem List.not_mem_nil⟩
  | append_singleton calls call ih =>
      obtain ⟨hhistory, hanswers⟩ := ih
      have hspec := smoStep_spec hhistory.kept self call.output call.current call.voltage
      rw [smoSteps] at hhistory ⊢
      rw [Machine.run_concat, List.filterMap_append]
      generalize ((smoMachine Q self).run calls start).2 = ctx at hhistory hspec ⊢
      generalize ((smoMachine Q self).run calls start).1 = answers at hhistory hanswers ⊢
      cases hstep : smoStep self call.output call.current call.voltage ctx with
      | ok result =>
          obtain ⟨output, next⟩ := result
          have hreact : (smoMachine Q self).react call ctx = (.ok (output, next), next) := by
            simp only [smoMachine, hstep]
          rw [hreact]
          rw [hstep] at hspec
          refine ⟨hhistory.step hspec, fun answer hmem => ?_⟩
          rcases List.mem_append.mp hmem with hmem | hmem
          · exact hanswers answer hmem
          · rw [List.mem_singleton.mp hmem]
            exact fun heq => by cases heq
      | error status =>
          have hreact : (smoMachine Q self).react call ctx = (.error status, ctx) := by
            simp only [smoMachine, hstep]
          rw [hreact]
          rw [hstep] at hspec
          refine ⟨?_, fun answer hmem => ?_⟩
          · rw [show [Except.error status].filterMap Except.toOption =
              ([] : List (SmoOutput Q × Smo Q)) from rfl, List.append_nil]
            exact hhistory
          · rcases List.mem_append.mp hmem with hmem | hmem
            · exact hanswers answer hmem
            · rw [List.mem_singleton.mp hmem]
              exact fun heq => hspec (Except.error.inj heq)

/-- A run of an accepted observer: no answer is a domain error, every step leaves its
state in range, a step reports a lock exactly when the last samples were all observable,
and after a lost EMF the lock takes one step more than the samples it needs. -/
theorem smo_runs_in_range {self : Extent} {config : Option (SmoConfig Q)} {initialCurrent : Ab Q}
    {start : Smo Q} (hinit : smoInit self config initialCurrent = .ok start)
    (calls : List (SmoCall Q)) :
    (∀ answer ∈ ((smoMachine Q self).run calls start).1, answer ≠ .error .errorDomain) ∧
      (∀ step ∈ smoSteps self calls start, step.2.InRange ∧ step.2.config = start.config) ∧
      (∀ done step rest, smoSteps self calls start = done ++ step :: rest →
        (step.1.locked = true ↔
          LastAll isObservable start.config.lockSamples.toNat (done ++ [step]))) ∧
      ∀ done lost between step rest,
        smoSteps self calls start = done ++ lost :: (between ++ step :: rest) →
          lost.2.EmfLost → step.1.locked = true →
            start.config.lockSamples.toNat + 1 ≤ (between ++ [step]).length := by
  obtain ⟨hhistory, hanswers⟩ := smoHistory_run (SmoHistory.start hinit) calls
  refine ⟨hanswers, hhistory.range, hhistory.locked, ?_⟩
  intro done lost between step rest heq hlost hlocked
  have hsplit : smoSteps self calls start = (done ++ lost :: between) ++ step :: rest := by
    rw [heq, List.append_assoc]
    rfl
  have hall := (hhistory.locked _ step rest hsplit).mp hlocked
  rw [List.append_assoc, List.cons_append] at hall
  obtain ⟨first, tail, htail⟩ := List.exists_cons_of_ne_nil
    (List.append_ne_nil_of_right_ne_nil between (List.cons_ne_nil step []))
  have hfirst : first.1.observable = false := by
    have hrest : between ++ step :: rest = first :: (tail ++ rest) := by
      rw [← List.cons_append, ← htail, List.append_assoc]
      rfl
    exact hhistory.lost done lost first (tail ++ rest) (hrest ▸ heq) hlost
  rw [htail] at hall ⊢
  rw [← List.singleton_append, ← List.append_assoc] at hall
  exact Nat.succ_le_succ (hall.le_length hfirst)

/-- A tuning that locks after two samples. -/
def smoSample : SmoConfig Int32 where
  resistance := 536870912
  inductance := 1073741824
  dt := 1048576
  slidingGain := 1073741824
  boundary := 1073741824
  emfAlpha := 1073741824
  speedAlpha := 1073741824
  minEmf := 1048576
  minSpeed := 1024
  maxSpeed := 1073741824
  lockSamples := 2
  direction := fieldctrlSmoForward

theorem smo_runs_in_range_sample :
    ∃ start, smoInit ⟨4096, 256⟩ (some smoSample) ⟨0, 0⟩ = .ok start ∧
      ∀ answer ∈ ((smoMachine Int32 ⟨4096, 256⟩).run
        [⟨⟨8192, 40⟩, ⟨-1073741824, 0⟩, ⟨0, 0⟩⟩, ⟨⟨8192, 40⟩, ⟨0, 1073741824⟩, ⟨0, 0⟩⟩] start).1,
          answer ≠ .error .errorDomain := by
  obtain ⟨start, hstart⟩ : ∃ start, smoInit ⟨4096, 256⟩ (some smoSample) ⟨0, 0⟩ = .ok start :=
    ⟨_, rfl⟩
  exact ⟨start, hstart, (smo_runs_in_range hstart _).1⟩

end Xhive.Fieldctrl
