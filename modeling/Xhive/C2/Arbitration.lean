import Xhive.C2.Transfers

/-!
# Lost arbitration

The program heeds a status that shows lost arbitration at some of its reads only.
A transfer whose first loss is read where it is heeded leaves the bus to the
winner; one whose first loss is read elsewhere may go on.
-/

namespace Xhive.C2.I2c

open Xhive.Support

/-- A command that takes the bus. -/
def Starts (e : Event Register UInt32) : Prop :=
  ∃ word, command? e = some word ∧ has word cmdSta = true

def ShowsLoss (e : Event Register UInt32) : Prop :=
  ∃ status, status? e = some status ∧ has status statusAl = true

/-- Arbitration is read lost by a status after the first start. -/
def Lost (history : Trace) : Prop :=
  ∃ before e after, history = before ++ e :: after ∧ ShowsLoss e ∧ ∃ x ∈ before, Starts x

/-- Once arbitration is read lost, no command is written and the call fails. -/
def YieldsBus (trace : Trace) (result : Status) : Prop :=
  ∀ before after, trace = before ++ after → Lost before → commands after = [] ∧ result ≠ .ok

/-- Where the source looks at the arbitration flag of the status it reads.  Before a
command it does not where the command has a start, or where a transfer is in
progress; and it looks at the interrupt flag only while it clears the interrupt. -/
def Place.heeds (status : UInt32) : Place → Bool
  | .begin => false
  | .check command => !has status statusTip && !has command cmdSta
  | .completion => true
  | .clearing => false
  | .busIdle => true
  | .recovery => true

def Heeded : Event Register UInt32 → Prop
  | .read (.sr place) status => place.heeds status = true
  | _ => False

/-- The first loss that is read after the first start is heeded. -/
def HeedsLoss (trace : Trace) : Prop :=
  ∀ before e after, trace = before ++ e :: after → ShowsLoss e → (∃ x ∈ before, Starts x) →
    ¬Lost before → Heeded e

/-- After a loss that is heeded there is no command, and `settled` holds. -/
def Quells (settled : Prop) (trace : Trace) : Prop :=
  ∀ before e after, trace = before ++ e :: after → ShowsLoss e → Heeded e →
    commands after = [] ∧ settled

theorem Quells.append {p q : Prop} {first second : Trace} (h₁ : Quells p first)
    (h₂ : Quells q second) (hcommands : p → commands second = []) (hsettled : p → q) :
    Quells q (first ++ second) := by
  intro before e after heq hloss hheeded
  obtain ⟨middle, hfirst, rfl⟩ | ⟨middle, rfl, hsecond⟩ := append_eq_append_cons heq
  · obtain ⟨hmiddle, hp⟩ := h₁ before e middle hfirst hloss hheeded
    rw [commands_append, hmiddle, hcommands hp]
    exact ⟨rfl, hsettled hp⟩
  · exact h₂ middle e after hsecond hloss hheeded

theorem quells_of_commands {p : Prop} {trace : Trace} (hcommands : commands trace = []) (hp : p) :
    Quells p trace := by
  rintro before e after rfl - -
  have hafter : commands (e :: after) = [] := by
    rw [commands_append] at hcommands
    exact (List.append_eq_nil_iff.mp hcommands).2
  refine ⟨?_, hp⟩
  rw [commands, List.filterMap_eq_nil_iff] at hafter ⊢
  exact fun x hx => hafter x (List.mem_cons_of_mem e hx)

/-- A trace in which no loss is heeded. -/
theorem quells_of_forall {trace : Trace} (h : ∀ e ∈ trace, ShowsLoss e → ¬Heeded e) (p : Prop) :
    Quells p trace := by
  rintro before e after rfl hloss hheeded
  exact absurd hheeded (h e (by simp) hloss)

theorem Quells.mono {p q : Prop} {trace : Trace} (h : Quells p trace) (hpq : p → q) :
    Quells q trace :=
  fun before e after heq hloss hheeded =>
    (h before e after heq hloss hheeded).imp_right hpq

/-- A loss that is read has a first. -/
theorem Lost.first {history : Trace} (h : Lost history) :
    ∃ before e after, history = before ++ e :: after ∧ ShowsLoss e ∧
      (∃ x ∈ before, Starts x) ∧ ¬Lost before := by
  induction hn : history.length using Nat.strong_induction_on generalizing history with
  | _ n ih =>
      obtain ⟨before, e, after, rfl, hloss, hstarts⟩ := h
      by_cases hlost : Lost before
      · have hlength : before.length < n := by
          rw [← hn, List.length_append, List.length_cons]
          omega
        obtain ⟨earlier, d, later, rfl, hd⟩ := ih _ hlength hlost rfl
        exact ⟨earlier, d, later ++ e :: after, by simp, hd⟩
      · exact ⟨before, e, after, rfl, hloss, hstarts, hlost⟩

/-- A run that heeds its first loss yields the bus. -/
theorem Quells.yields {trace : Trace} {result : Status} (h : Quells (result ≠ .ok) trace)
    (hheeds : HeedsLoss trace) : YieldsBus trace result := by
  rintro before after rfl hlost
  obtain ⟨earlier, e, later, rfl, hloss, hstarts, hfirst⟩ := hlost.first
  have heq : earlier ++ e :: later ++ after = earlier ++ e :: (later ++ after) := by simp
  obtain ⟨hcommands, hresult⟩ := h earlier e (later ++ after) heq hloss
    (hheeds earlier e (later ++ after) heq hloss hstarts hfirst)
  rw [commands_append] at hcommands
  exact ⟨(List.append_eq_nil_iff.mp hcommands).2, hresult⟩

/-! ## The parts of a transfer -/

theorem shows_loss_read {place : Place} {status : UInt32} :
    ShowsLoss (.read (.sr place) status) ↔ has status statusAl = true := by
  constructor
  · rintro ⟨_, heq, hal⟩
    obtain rfl := Option.some.inj heq
    exact hal
  · exact fun hal => ⟨status, rfl, hal⟩

theorem awaitClear_ignores {poll : ℕ} {trace : Trace} {result : Status}
    (h : (awaitClear .clearing poll).Runs trace result) : ∀ e ∈ trace, ¬Heeded e := by
  induction poll generalizing trace with
  | zero =>
      obtain ⟨rfl, rfl⟩ := h
      simp
  | succ poll ih =>
      obtain ⟨_, status, rest, rfl, hread, hnext⟩ := Dialogue.runs_bind.mp h
      obtain rfl := Dialogue.runs_get.mp hread
      have hfirst : ¬Heeded (.read (.sr .clearing) status) := Bool.false_ne_true
      split at hnext
      · simpa using ⟨hfirst, ih hnext⟩
      · obtain ⟨rfl, rfl⟩ := Dialogue.runs_pure.mp hnext
        simpa using hfirst

theorem clearIf_ignores {status : UInt32} {pollLimit : ℕ} {trace : Trace} {result : Status}
    (h : (clearIf .clearing status pollLimit).Runs trace result) : ∀ e ∈ trace, ¬Heeded e := by
  unfold clearIf at h
  split_ifs at h with hif htip
  · obtain ⟨rfl, rfl⟩ := Dialogue.runs_pure.mp h
    simp
  · obtain ⟨rfl, rfl⟩ := Dialogue.runs_pure.mp h
    simp
  · obtain ⟨_, _, rest, rfl, hput, hnext⟩ := Dialogue.runs_bind.mp h
    obtain rfl := Dialogue.runs_put.mp hput
    have hfirst : ¬Heeded (.write .cmd cmdIack) := fun h => h
    simpa using ⟨hfirst, awaitClear_ignores hnext⟩

theorem awaitCompletion_quells {checkNack : Bool} {poll : ℕ} {trace : Trace}
    {result : Status × Option UInt32} (h : (awaitCompletion checkNack poll).Runs trace result) :
    Quells (result.1 = .errorArbitration) trace := by
  induction poll generalizing trace with
  | zero =>
      obtain ⟨rfl, rfl⟩ := h
      exact quells_of_forall (by simp) _
  | succ poll ih =>
      obtain ⟨_, status, rest, rfl, hread, hnext⟩ := Dialogue.runs_bind.mp h
      obtain rfl := Dialogue.runs_get.mp hread
      by_cases hal : has status statusAl = true
      · rw [if_pos hal] at hnext
        obtain ⟨rfl, rfl⟩ := Dialogue.runs_pure.mp hnext
        exact quells_of_commands rfl rfl
      · rw [if_neg hal] at hnext
        have hfirst : Quells False [Event.read (.sr .completion) status] :=
          quells_of_forall (by simp [shows_loss_read, hal]) _
        refine hfirst.append ?_ False.elim False.elim
        split_ifs at hnext with hif hnack
        · obtain ⟨rfl, rfl⟩ := Dialogue.runs_pure.mp hnext
          exact quells_of_forall (by simp) _
        · obtain ⟨rfl, rfl⟩ := Dialogue.runs_pure.mp hnext
          exact quells_of_forall (by simp) _
        · exact ih hnext

theorem issueCommand_quells {command : UInt32} {checkNack : Bool} {pollLimit : ℕ} {trace : Trace}
    {result : Status × Option UInt32}
    (h : (issueCommand command checkNack pollLimit).Runs trace result) :
    Quells (result.1 = .errorArbitration) trace := by
  obtain ⟨_, status, rest, rfl, hread, hnext⟩ := Dialogue.runs_bind.mp h
  obtain rfl := Dialogue.runs_get.mp hread
  split_ifs at hnext with htip hal
  · obtain ⟨rfl, rfl⟩ := Dialogue.runs_pure.mp hnext
    refine quells_of_forall ?_ _
    simp [Heeded, Place.heeds, htip]
  · obtain ⟨rfl, rfl⟩ := Dialogue.runs_pure.mp hnext
    exact quells_of_commands rfl rfl
  · have hcheck : Quells False [Event.read (.sr (.check command)) status] := by
      refine quells_of_forall ?_ _
      simp only [List.mem_singleton, forall_eq, shows_loss_read]
      intro hloss hheeds
      simp [Heeded, Place.heeds] at hheeds
      simp [hloss, hheeds.2] at hal
    refine hcheck.append ?_ False.elim False.elim
    obtain ⟨clear, cleared, later, rfl, hclear, hlater⟩ := Dialogue.runs_bind.mp hnext
    have hignores : Quells False clear :=
      quells_of_forall (fun e he _ => clearIf_ignores hclear e he) _
    refine hignores.append ?_ False.elim False.elim
    split_ifs at hlater with hcleared
    · obtain ⟨rfl, rfl⟩ := Dialogue.runs_pure.mp hlater
      exact quells_of_forall (by simp) _
    · obtain ⟨_, _, after, rfl, hput, hawait⟩ := Dialogue.runs_bind.mp hlater
      obtain rfl := Dialogue.runs_put.mp hput
      have hwrite : Quells False [Event.write .cmd command] :=
        quells_of_forall (by simp [Heeded]) _
      exact hwrite.append (awaitCompletion_quells hawait) False.elim False.elim

theorem awaitIdle_quells {poll : ℕ} {status : UInt32} {trace : Trace} {result : Bool × UInt32}
    (h : (awaitIdle poll status).Runs trace result) : Quells (result.1 = true) trace := by
  induction poll generalizing trace status with
  | zero =>
      obtain ⟨rfl, rfl⟩ := h
      exact quells_of_forall (by simp) _
  | succ poll ih =>
      obtain ⟨_, read, rest, rfl, hread, hnext⟩ := Dialogue.runs_bind.mp h
      obtain rfl := Dialogue.runs_get.mp hread
      by_cases hal : has read statusAl = true
      · rw [if_pos hal] at hnext
        obtain ⟨rfl, rfl⟩ := Dialogue.runs_pure.mp hnext
        exact quells_of_commands rfl rfl
      · rw [if_neg hal] at hnext
        have hfirst : Quells False [Event.read (.sr .busIdle) read] :=
          quells_of_forall (by simp [shows_loss_read, hal]) _
        refine hfirst.append ?_ False.elim False.elim
        split_ifs at hnext with hbsy
        · exact ih hnext
        · obtain ⟨rfl, rfl⟩ := Dialogue.runs_pure.mp hnext
          exact quells_of_forall (by simp) _

/-- Once the command to stop is completed, a loss that is heeded makes the call fail. -/
theorem awaitStopped_quells {place : Place} {status : UInt32} {pollLimit : ℕ} {trace : Trace}
    {result : Status} (h : (awaitStopped place status pollLimit).Runs trace result) :
    Quells (place = .clearing → result ≠ .ok) trace := by
  have hquiet := (awaitStopped_runs h).1
  by_cases hplace : place = .clearing
  · subst hplace
    refine Quells.mono (p := result ≠ .ok) ?_ fun h _ => h
    unfold awaitStopped at h
    split_ifs at h with hbusy
    · obtain ⟨idle, ⟨lost, last⟩, rest, rfl, hidle, hnext⟩ := Dialogue.runs_bind.mp h
      have hcommands : commands rest = [] :=
        commands_quiet fun e he => hquiet e (List.mem_append_right idle he)
      dsimp only at hnext
      split_ifs at hnext with hlost hbsy
      · obtain ⟨clear, _, _, rfl, hclear, hlast⟩ := Dialogue.runs_bind.mp hnext
        obtain ⟨rfl, rfl⟩ := Dialogue.runs_pure.mp hlast
        exact quells_of_commands (commands_quiet hquiet) (by simp)
      · obtain ⟨clear, _, _, rfl, hclear, hlast⟩ := Dialogue.runs_bind.mp hnext
        obtain ⟨rfl, rfl⟩ := Dialogue.runs_pure.mp hlast
        exact quells_of_commands (commands_quiet hquiet) (by simp)
      · refine (awaitIdle_quells hidle).append ?_ (fun _ => hcommands) fun h => absurd h hlost
        exact quells_of_forall (fun e he _ => clearIf_ignores hnext e he) _
    · exact quells_of_forall (fun e he _ => clearIf_ignores h e he) _
  · exact quells_of_commands (commands_quiet hquiet) fun h => absurd h hplace

theorem stop_quells {place : Place} {pollLimit : ℕ} {trace : Trace} {result : Status}
    (h : (stop place pollLimit).Runs trace result) :
    Quells (place = .clearing → result ≠ .ok) trace := by
  obtain ⟨first, ⟨issued, completion⟩, rest, rfl, hissue, hnext⟩ := Dialogue.runs_bind.mp h
  have hfirst := issueCommand_quells hissue
  dsimp only at hnext hfirst
  split_ifs at hnext with hfail
  · obtain ⟨_, status, rest, rfl, hread, hrest⟩ := Dialogue.runs_bind.mp hnext
    obtain rfl := Dialogue.runs_get.mp hread
    obtain ⟨clear, _, _, rfl, hclear, hlast⟩ := Dialogue.runs_bind.mp hrest
    obtain ⟨rfl, rfl⟩ := Dialogue.runs_pure.mp hlast
    have hcommands : commands ([.read (.sr .recovery) status] ++ (clear ++ [])) = [] := by
      refine commands_quiet ?_
      simpa using (clearPending_runs hclear).1
    exact hfirst.append (quells_of_commands hcommands fun _ => hfail) (fun _ => hcommands)
      fun _ _ => hfail
  · have hcommands := commands_quiet (awaitStopped_runs hnext).1
    refine hfirst.append (awaitStopped_quells hnext) (fun _ => hcommands) fun h => ?_
    rw [h] at hfail
    exact absurd (by decide) hfail

theorem awaitTransfer_quells {poll : ℕ} {status : UInt32} {trace : Trace}
    {result : Bool × UInt32} (h : (awaitTransfer poll status).Runs trace result) :
    Quells (result.1 = true) trace := by
  induction poll generalizing trace status with
  | zero =>
      obtain ⟨rfl, rfl⟩ := h
      exact quells_of_forall (by simp) _
  | succ poll ih =>
      unfold awaitTransfer at h
      by_cases htip : has status statusTip = true
      · rw [if_pos htip] at h
        obtain ⟨_, read, rest, rfl, hread, hnext⟩ := Dialogue.runs_bind.mp h
        obtain rfl := Dialogue.runs_get.mp hread
        by_cases hal : has read statusAl = true
        · rw [if_pos hal] at hnext
          obtain ⟨rfl, rfl⟩ := Dialogue.runs_pure.mp hnext
          exact quells_of_commands rfl rfl
        · rw [if_neg hal] at hnext
          have hfirst : Quells False [Event.read (.sr .recovery) read] :=
            quells_of_forall (by simp [shows_loss_read, hal]) _
          exact hfirst.append (ih hnext) False.elim False.elim
      · rw [if_neg htip] at h
        obtain ⟨rfl, rfl⟩ := Dialogue.runs_pure.mp h
        exact quells_of_forall (by simp) _

/-- The cleanup of lost arbitration writes no command. -/
theorem cleanupFailure_lost {pollLimit : ℕ} {trace : Trace} {result : Unit}
    (h : (cleanupFailure .errorArbitration pollLimit).Runs trace result) :
    commands trace = [] := by
  obtain ⟨_, status, rest, rfl, hread, hnext⟩ := Dialogue.runs_bind.mp h
  obtain rfl := Dialogue.runs_get.mp hread
  rw [if_pos (by simp)] at hnext
  refine commands_quiet ?_
  simpa using (clearPending_runs hnext).1

theorem cleanupFailure_quells {failure : Status} {pollLimit : ℕ} {trace : Trace} {result : Unit}
    (h : (cleanupFailure failure pollLimit).Runs trace result) : Quells True trace := by
  obtain ⟨_, status, rest, rfl, hread, hnext⟩ := Dialogue.runs_bind.mp h
  obtain rfl := Dialogue.runs_get.mp hread
  split_ifs at hnext with hlost
  · refine quells_of_commands (commands_quiet ?_) trivial
    simpa using (clearPending_runs hnext).1
  · have hfirst : Quells False [Event.read (.sr .recovery) status] := by
      refine quells_of_forall ?_ _
      simp only [Bool.or_eq_true, not_or] at hlost
      simp [shows_loss_read, hlost.2]
    refine hfirst.append ?_ False.elim False.elim
    obtain ⟨wait, ⟨lost, last⟩, rest, rfl, hwait, hnext⟩ := Dialogue.runs_bind.mp hnext
    have hquells := awaitTransfer_quells hwait
    dsimp only at hnext hquells
    split_ifs at hnext with hlost htip
    · have hcommands := commands_quiet (clearPending_runs hnext).1
      exact hquells.append (quells_of_commands hcommands trivial) (fun _ => hcommands)
        fun _ => trivial
    · obtain ⟨stopping, outcome, _, rfl, hstop, hlast⟩ := Dialogue.runs_bind.mp hnext
      obtain ⟨rfl, -⟩ := Dialogue.runs_pure.mp hlast
      rw [List.append_nil]
      exact hquells.append ((stop_quells hstop).mono fun _ => trivial)
        (fun h => absurd h hlost) fun _ => trivial
    · obtain ⟨rfl, -⟩ := Dialogue.runs_pure.mp hnext
      exact hquells.append (quells_of_forall (by simp) _) (fun _ => rfl) fun _ => trivial

theorem finish_quells {pollLimit : ℕ} {before result : Status} {trace : Trace}
    (h : (finish before pollLimit).Runs trace result) :
    Quells (result ≠ .ok) trace ∧
      (before = .errorArbitration → commands trace = [] ∧ result ≠ .ok) := by
  unfold finish at h
  split_ifs at h with hok
  · refine ⟨(stop_quells h).mono fun h => h rfl, fun hlost => ?_⟩
    rw [hok] at hlost
    exact absurd hlost (by decide)
  · obtain ⟨clean, _, _, rfl, hclean, hlast⟩ := Dialogue.runs_bind.mp h
    obtain ⟨rfl, rfl⟩ := Dialogue.runs_pure.mp hlast
    rw [List.append_nil]
    refine ⟨(cleanupFailure_quells hclean).mono fun _ => hok, fun hlost => ⟨?_, hok⟩⟩
    subst hlost
    exact cleanupFailure_lost hclean

/-- A part after which a heeded loss is the result, and which does nothing where the
loss is the result before it. -/
structure Carries (before result : Status) (trace : Trace) : Prop where
  quells : Quells (result = .errorArbitration) trace
  lost : before = .errorArbitration → trace = [] ∧ result = .errorArbitration

theorem Carries.append {before middle result : Status} {first second : Trace}
    (h₁ : Carries before middle first) (h₂ : Carries middle result second) :
    Carries before result (first ++ second) := by
  refine ⟨h₁.quells.append h₂.quells ?_ fun hlost => (h₂.lost hlost).2, fun hlost => ?_⟩
  · intro hlost
    rw [(h₂.lost hlost).1]
    rfl
  · obtain ⟨rfl, hmiddle⟩ := h₁.lost hlost
    obtain ⟨rfl, hresult⟩ := h₂.lost hmiddle
    exact ⟨rfl, hresult⟩

/-- A part that runs only where the part before it has succeeded. -/
theorem carries_of_ok {before result : Status} {trace : Trace} (hok : before = .ok)
    (h : Quells (result = .errorArbitration) trace) : Carries before result trace := by
  refine ⟨h, fun hlost => ?_⟩
  rw [hok] at hlost
  exact absurd hlost (by decide)

theorem carries_nothing (before : Status) : Carries before before [] :=
  ⟨quells_of_forall (by simp) _, fun hlost => ⟨rfl, hlost⟩⟩

theorem sendByte_quells {byte : UInt8} {command : UInt32} {pollLimit : ℕ} {trace : Trace}
    {result : Status} (h : (sendByte byte command pollLimit).Runs trace result) :
    Quells (result = .errorArbitration) trace := by
  obtain ⟨_, _, rest, rfl, hput, hnext⟩ := Dialogue.runs_bind.mp h
  obtain rfl := Dialogue.runs_put.mp hput
  obtain ⟨issue, ⟨issued, completion⟩, _, rfl, hissue, hlast⟩ := Dialogue.runs_bind.mp hnext
  obtain ⟨rfl, rfl⟩ := Dialogue.runs_pure.mp hlast
  have hwrite : Quells False [Event.write .txr byte.toUInt32] :=
    quells_of_forall (by simp [Heeded]) _
  rw [List.append_nil]
  exact hwrite.append (issueCommand_quells hissue) False.elim False.elim

theorem receiveByte_quells {acknowledge : Bool} {pollLimit : ℕ} {trace : Trace}
    {result : Status × List UInt8} (h : (receiveByte acknowledge pollLimit).Runs trace result) :
    Quells (result.1 = .errorArbitration) trace := by
  obtain ⟨issue, ⟨issued, completion⟩, rest, rfl, hissue, hnext⟩ := Dialogue.runs_bind.mp h
  have hquells := issueCommand_quells hissue
  dsimp only at hnext hquells
  split_ifs at hnext with hok
  · obtain ⟨_, value, _, rfl, hread, hlast⟩ := Dialogue.runs_bind.mp hnext
    obtain rfl := Dialogue.runs_get.mp hread
    obtain ⟨rfl, rfl⟩ := Dialogue.runs_pure.mp hlast
    exact hquells.append (quells_of_forall (by simp [Heeded]) _) (fun _ => rfl) fun h => h
  · obtain ⟨rfl, rfl⟩ := Dialogue.runs_pure.mp hnext
    rw [List.append_nil]
    exact hquells

theorem sendBytes_carries {pollLimit : ℕ} {before : Status} {data : List UInt8} {trace : Trace}
    {result : Status} (h : (sendBytes pollLimit before data).Runs trace result) :
    Carries before result trace := by
  induction data generalizing before trace with
  | nil =>
      obtain ⟨rfl, rfl⟩ := h
      exact carries_nothing _
  | cons byte data ih =>
      unfold sendBytes at h
      split_ifs at h with hok
      · obtain ⟨first, sent, rest, rfl, hsend, hnext⟩ := Dialogue.runs_bind.mp h
        exact (carries_of_ok hok (sendByte_quells hsend)).append (ih hnext)
      · obtain ⟨rfl, rfl⟩ := Dialogue.runs_pure.mp h
        exact carries_nothing _

theorem receiveBytes_carries {pollLimit : ℕ} {before : Status} {left : ℕ} {trace : Trace}
    {result : Status × List UInt8} (h : (receiveBytes pollLimit before left).Runs trace result) :
    Carries before result.1 trace := by
  induction left generalizing before trace result with
  | zero =>
      obtain ⟨rfl, rfl⟩ := h
      exact carries_nothing _
  | succ left ih =>
      unfold receiveBytes at h
      split_ifs at h with hok
      · obtain ⟨first, ⟨received, byte⟩, rest, rfl, hreceive, hnext⟩ := Dialogue.runs_bind.mp h
        obtain ⟨second, ⟨outcome, data⟩, _, rfl, hrest, hlast⟩ := Dialogue.runs_bind.mp hnext
        obtain ⟨rfl, rfl⟩ := Dialogue.runs_pure.mp hlast
        have hsecond : Carries received outcome second := ih hrest
        rw [List.append_nil]
        exact (carries_of_ok hok (receiveByte_quells hreceive)).append hsecond
      · obtain ⟨rfl, rfl⟩ := Dialogue.runs_pure.mp h
        exact carries_nothing _

theorem restart_carries {before result : Status} {address : UInt8} {pollLimit : ℕ}
    {trace : Trace} (h : (restart before address pollLimit).Runs trace result) :
    Carries before result trace := by
  unfold restart at h
  split_ifs at h with hok
  · exact carries_of_ok hok (sendByte_quells h)
  · obtain ⟨rfl, rfl⟩ := Dialogue.runs_pure.mp h
    exact carries_nothing _

/-! ## The transfers -/

theorem begin_ignores {trace : Trace} {result : Status} (h : begin.Runs trace result) :
    ∀ e ∈ trace, ¬Heeded e := by
  obtain ⟨_, control, rest, rfl, hread, hnext⟩ := Dialogue.runs_bind.mp h
  obtain rfl := Dialogue.runs_get.mp hread
  split_ifs at hnext with hen
  · obtain ⟨rfl, rfl⟩ := Dialogue.runs_pure.mp hnext
    simp [Heeded]
  · obtain ⟨_, status, _, rfl, hread, hlast⟩ := Dialogue.runs_bind.mp hnext
    obtain rfl := Dialogue.runs_get.mp hread
    split_ifs at hlast with hbusy
    · obtain ⟨rfl, rfl⟩ := Dialogue.runs_pure.mp hlast
      simp [Heeded, Place.heeds]
    · obtain ⟨rfl, rfl⟩ := Dialogue.runs_pure.mp hlast
      simp [Heeded, Place.heeds]

theorem begin_quells {trace : Trace} {result : Status} (h : begin.Runs trace result) (p : Prop) :
    Quells p trace :=
  quells_of_forall (fun e he _ => begin_ignores h e he) p

/-- The start of a transfer and its parts, and how it ends. -/
theorem transfer_quells {start parts last : Trace} {started outcome result : Status}
    {pollLimit : ℕ} (hbegin : begin.Runs start started)
    (hparts : Quells (outcome = .errorArbitration) parts)
    (hfinish : (finish outcome pollLimit).Runs last result) :
    Quells (result ≠ .ok) (start ++ (parts ++ last)) := by
  obtain ⟨hquells, hlost⟩ := finish_quells hfinish
  have hrest := hparts.append hquells (fun h => (hlost h).1) fun h => (hlost h).2
  exact (begin_quells hbegin False).append hrest False.elim False.elim

theorem masterWrite_quells {regs : ℕ} {address : UInt8} {data : Option (List UInt8)}
    {pollLimit : ℕ} {trace : Trace} {result : Status}
    (h : (masterWrite regs address data pollLimit).Runs trace result) :
    Quells (result ≠ .ok) trace := by
  unfold masterWrite at h
  dsimp only at h
  split_ifs at h with hargument
  · obtain ⟨rfl, rfl⟩ := Dialogue.runs_pure.mp h
    exact quells_of_forall (by simp) _
  · obtain ⟨start, started, rest, rfl, hbegin, hnext⟩ := Dialogue.runs_bind.mp h
    split_ifs at hnext with hfail
    · obtain ⟨rfl, rfl⟩ := Dialogue.runs_pure.mp hnext
      rw [List.append_nil]
      exact begin_quells hbegin _
    · obtain ⟨send, sent, rest, rfl, hsend, hnext⟩ := Dialogue.runs_bind.mp hnext
      obtain ⟨sending, outcome, last, rfl, hsending, hfinish⟩ := Dialogue.runs_bind.mp hnext
      have hparts := (carries_of_ok rfl (sendByte_quells hsend)).append (sendBytes_carries hsending)
      rw [← List.append_assoc send]
      exact transfer_quells hbegin hparts.quells hfinish

theorem masterRead_quells {regs : ℕ} {address : UInt8} {hasData : Bool} {length pollLimit : ℕ}
    {trace : Trace} {result : Status × List UInt8}
    (h : (masterRead regs address hasData length pollLimit).Runs trace result) :
    Quells (result.1 ≠ .ok) trace := by
  unfold masterRead at h
  split_ifs at h with hargument
  · obtain ⟨rfl, rfl⟩ := Dialogue.runs_pure.mp h
    exact quells_of_forall (by simp) _
  · obtain ⟨start, started, rest, rfl, hbegin, hnext⟩ := Dialogue.runs_bind.mp h
    split_ifs at hnext with hfail
    · obtain ⟨rfl, rfl⟩ := Dialogue.runs_pure.mp hnext
      rw [List.append_nil]
      exact begin_quells hbegin _
    · obtain ⟨send, sent, rest, rfl, hsend, hnext⟩ := Dialogue.runs_bind.mp hnext
      obtain ⟨receiving, ⟨outcome, data⟩, rest, rfl, hreceiving, hnext⟩ :=
        Dialogue.runs_bind.mp hnext
      obtain ⟨finishing, final, _, rfl, hfinish, hlast⟩ := Dialogue.runs_bind.mp hnext
      obtain ⟨rfl, rfl⟩ := Dialogue.runs_pure.mp hlast
      have hreceived : Carries sent outcome receiving := receiveBytes_carries hreceiving
      have hparts := (carries_of_ok rfl (sendByte_quells hsend)).append hreceived
      rw [List.append_nil, ← List.append_assoc send]
      exact transfer_quells hbegin hparts.quells hfinish

theorem masterWriteRead_quells {regs : ℕ} {address : UInt8} {writeData : Option (List UInt8)}
    {hasReadData : Bool} {readLength pollLimit : ℕ} {trace : Trace}
    {result : Status × List UInt8}
    (h : (masterWriteRead regs address writeData hasReadData readLength pollLimit).Runs trace
      result) :
    Quells (result.1 ≠ .ok) trace := by
  unfold masterWriteRead at h
  dsimp only at h
  split_ifs at h with hargument
  · obtain ⟨rfl, rfl⟩ := Dialogue.runs_pure.mp h
    exact quells_of_forall (by simp) _
  · obtain ⟨start, started, rest, rfl, hbegin, hnext⟩ := Dialogue.runs_bind.mp h
    split_ifs at hnext with hfail
    · obtain ⟨rfl, rfl⟩ := Dialogue.runs_pure.mp hnext
      rw [List.append_nil]
      exact begin_quells hbegin _
    · obtain ⟨send, sent, rest, rfl, hsend, hnext⟩ := Dialogue.runs_bind.mp hnext
      obtain ⟨sending, written, rest, rfl, hsending, hnext⟩ := Dialogue.runs_bind.mp hnext
      obtain ⟨again, repeated, rest, rfl, hagain, hnext⟩ := Dialogue.runs_bind.mp hnext
      obtain ⟨receiving, ⟨outcome, data⟩, rest, rfl, hreceiving, hnext⟩ :=
        Dialogue.runs_bind.mp hnext
      obtain ⟨finishing, final, _, rfl, hfinish, hlast⟩ := Dialogue.runs_bind.mp hnext
      obtain ⟨rfl, rfl⟩ := Dialogue.runs_pure.mp hlast
      have hreceived : Carries repeated outcome receiving := receiveBytes_carries hreceiving
      have hparts := (((carries_of_ok rfl (sendByte_quells hsend)).append
        (sendBytes_carries hsending)).append (restart_carries hagain)).append hreceived
      have hwhole := transfer_quells hbegin hparts.quells hfinish
      simp only [List.append_assoc] at hwhole
      rw [List.append_nil]
      exact hwhole

/-- The transfers that the source has, as they are called. -/
inductive Transfer where
  | write (data : Option (List UInt8))
  | read (hasData : Bool) (length : ℕ)
  | writeRead (writeData : Option (List UInt8)) (hasReadData : Bool) (readLength : ℕ)

def Transfer.call (regs : ℕ) (address : UInt8) (pollLimit : ℕ) :
    Transfer → Port (Status × List UInt8)
  | .write data => do
      let result ← masterWrite regs address data pollLimit
      pure (result, [])
  | .read hasData length => masterRead regs address hasData length pollLimit
  | .writeRead writeData hasReadData readLength =>
      masterWriteRead regs address writeData hasReadData readLength pollLimit

theorem call_quells {regs : ℕ} {address : UInt8} {pollLimit : ℕ} {transfer : Transfer}
    {trace : Trace} {result : Status × List UInt8}
    (h : (transfer.call regs address pollLimit).Runs trace result) :
    Quells (result.1 ≠ .ok) trace := by
  cases transfer with
  | write data =>
      obtain ⟨first, written, _, rfl, hwrite, hlast⟩ := Dialogue.runs_bind.mp h
      obtain ⟨rfl, rfl⟩ := Dialogue.runs_pure.mp hlast
      rw [List.append_nil]
      exact masterWrite_quells hwrite
  | read hasData length => exact masterRead_quells h
  | writeRead writeData hasReadData readLength => exact masterWriteRead_quells h

/-- A transfer against a device whose first loss of arbitration, after the first
start, is read where the source heeds it leaves the bus and fails. -/
theorem yieldsBus_of_heedsLoss (device : ℕ → Register → UInt32) (regs : ℕ) (address : UInt8)
    (pollLimit : ℕ) (transfer : Transfer)
    (hheeds : HeedsLoss ((transfer.call regs address pollLimit).converse device 0).1) :
    YieldsBus ((transfer.call regs address pollLimit).converse device 0).1
      ((transfer.call regs address pollLimit).converse device 0).2.1 :=
  (call_quells (Dialogue.converse_runs device _ 0)).yields hheeds

/-- The words a device answers, by the place of the access in the run. -/
def answers (words : List UInt32) (n : ℕ) (_ : Register) : UInt32 :=
  words.getD n 0

/-- Arbitration is read lost while the interrupt of the start is cleared: the byte
and the stop are still commanded, and the call succeeds. -/
def lossWhileClearing : ℕ → Register → UInt32 :=
  answers [0x80, 0, 0, 0, 0, 0x01, 0, 0x01, 0, 0x20, 0, 0x01, 0x01, 0, 0, 0, 0x01]

theorem loss_ignored : ¬∀ (device : ℕ → Register → UInt32) (regs : ℕ) (address : UInt8)
    (pollLimit : ℕ) (transfer : Transfer),
    YieldsBus ((transfer.call regs address pollLimit).converse device 0).1
      ((transfer.call regs address pollLimit).converse device 0).2.1 := by
  intro h
  have hyields := h lossWhileClearing 0x20006000 0x50 4 (.write (some [0xA5]))
  -- the trace up to the status that shows the loss
  have hbefore : ((((Transfer.write (some [0xA5])).call 0x20006000 0x50 4).converse
      lossWhileClearing 0).1.take 10) =
      [.read .ctrl 0x80, .read (.sr .begin) 0, .write .txr 0xA0, .read (.sr (.check 0x90)) 0,
        .write .cmd 0x90, .read (.sr .completion) 0x01, .write .txr 0xA5,
        .read (.sr (.check 0x10)) 0x01, .write .cmd 0x01] ++ .read (.sr .clearing) 0x20 :: [] :=
    rfl
  have hlost := (hyields _ _ (List.take_append_drop 10 _).symm
    ⟨_, _, [], hbefore, ⟨0x20, rfl, rfl⟩, .write .cmd 0x90, by simp, 0x90, rfl, rfl⟩).2
  exact hlost rfl

theorem heedsLoss_of_forall {trace : Trace} (h : ∀ e ∈ trace, ShowsLoss e → Heeded e) :
    HeedsLoss trace := by
  rintro before e after rfl hloss - -
  exact h e (by simp) hloss

/-- A transfer whose first loss is read where its byte is completed. -/
theorem yieldsBus_completion :
    YieldsBus (((Transfer.write (some [0xA5])).call 0x20006000 0x50 4).converse
        (answers [0x80, 0, 0, 0, 0, 0x01, 0, 0x01, 0, 0, 0, 0x21]) 0).1
      (((Transfer.write (some [0xA5])).call 0x20006000 0x50 4).converse
        (answers [0x80, 0, 0, 0, 0, 0x01, 0, 0x01, 0, 0, 0, 0x21]) 0).2.1 := by
  refine yieldsBus_of_heedsLoss _ _ _ _ _ (heedsLoss_of_forall ?_)
  have htrace : (((Transfer.write (some [0xA5])).call 0x20006000 0x50 4).converse
        (answers [0x80, 0, 0, 0, 0, 0x01, 0, 0x01, 0, 0, 0, 0x21]) 0).1 =
      [.read .ctrl 0x80, .read (.sr .begin) 0, .write .txr 0xA0, .read (.sr (.check 0x90)) 0,
        .write .cmd 0x90, .read (.sr .completion) 0x01, .write .txr 0xA5,
        .read (.sr (.check 0x10)) 0x01, .write .cmd 0x01, .read (.sr .clearing) 0,
        .write .cmd 0x10, .read (.sr .completion) 0x21, .read (.sr .recovery) 0] :=
    rfl
  rw [htrace]
  simp [ShowsLoss, status?, has, statusAl, Heeded, Place.heeds]
  decide

end Xhive.C2.I2c
