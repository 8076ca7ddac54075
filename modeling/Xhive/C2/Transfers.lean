import Mathlib.Tactic.Ring
import Xhive.C2.Jobs

/-!
# What a transfer does on the registers

Whatever the device answers, a transfer ends, carries out its job in order up to
the first failure, and succeeds only where the whole job is done.
-/

namespace Xhive.C2.I2c

open Xhive.Support

/-! ## The parts of a transfer -/

/-- The last status of the trace shows that the interrupt is clear. -/
def EndsClear (trace : Trace) : Prop :=
  ∃ status, (statuses trace).getLast? = some status ∧ has status statusIf = false

theorem EndsClear.prepend {trace : Trace} (h : EndsClear trace) (before : Trace) :
    EndsClear (before ++ trace) := by
  obtain ⟨status, hlast, hclear⟩ := h
  refine ⟨status, ?_, hclear⟩
  rw [statuses_append, List.getLast?_append, hlast]
  rfl

theorem awaitClear_runs {place : Place} {poll : ℕ} {trace : Trace} {result : Status}
    (h : (awaitClear place poll).Runs trace result) :
    (∀ e ∈ trace, Quiet e) ∧ trace.length ≤ poll ∧ (result = .ok → EndsClear trace) := by
  induction poll generalizing trace with
  | zero =>
      obtain ⟨rfl, rfl⟩ := h
      simp
  | succ poll ih =>
      obtain ⟨_, status, rest, rfl, hread, hnext⟩ := Dialogue.runs_bind.mp h
      obtain rfl := Dialogue.runs_get.mp hread
      split at hnext
      · obtain ⟨hquiet, hlength, hok⟩ := ih hnext
        refine ⟨by simpa using hquiet, by simpa using hlength, fun hresult => ?_⟩
        exact (hok hresult).prepend _
      · next hif =>
        obtain ⟨rfl, rfl⟩ := Dialogue.runs_pure.mp hnext
        exact ⟨by simp, by simp, fun _ => ⟨status, rfl, by simpa using hif⟩⟩

/-- Clearing the interrupt writes no command; where it succeeds, the status it is
given or the last one it reads shows the interrupt clear. -/
theorem clearIf_runs {place : Place} {status : UInt32} {pollLimit : ℕ} {trace : Trace}
    {result : Status} (h : (clearIf place status pollLimit).Runs trace result) :
    (∀ e ∈ trace, Quiet e) ∧ trace.length ≤ pollLimit + 1 ∧
      (result = .ok → trace = [] ∧ has status statusIf = false ∨ EndsClear trace) := by
  unfold clearIf at h
  split at h
  · next hif =>
    obtain ⟨rfl, rfl⟩ := Dialogue.runs_pure.mp h
    exact ⟨by simp, by simp, fun _ => .inl ⟨rfl, hif⟩⟩
  · split at h
    · obtain ⟨rfl, rfl⟩ := Dialogue.runs_pure.mp h
      simp
    · obtain ⟨_, _, rest, rfl, hput, hnext⟩ := Dialogue.runs_bind.mp h
      obtain rfl := Dialogue.runs_put.mp hput
      obtain ⟨hquiet, hlength, hok⟩ := awaitClear_runs hnext
      refine ⟨by simpa using hquiet, by simpa using hlength, fun hresult => .inr ?_⟩
      exact (hok hresult).prepend _

theorem clearPending_runs {status : UInt32} {pollLimit : ℕ} {trace : Trace} {result : Unit}
    (h : (clearPending status pollLimit).Runs trace result) :
    (∀ e ∈ trace, Quiet e) ∧ trace.length ≤ pollLimit + 1 := by
  unfold clearPending at h
  split at h
  · obtain ⟨first, _, rest, rfl, hclear, hnext⟩ := Dialogue.runs_bind.mp h
    obtain ⟨rfl, -⟩ := Dialogue.runs_pure.mp hnext
    rw [List.append_nil]
    exact ⟨(clearIf_runs hclear).1, (clearIf_runs hclear).2.1⟩
  · obtain ⟨rfl, -⟩ := Dialogue.runs_pure.mp h
    simp

/-- The status reads of a poll that does not find the interrupt flag. -/
def Waiting (e : Event Register UInt32) : Prop :=
  ∃ place status, e = .read (.sr place) status ∧ has status statusIf = false

theorem awaitCompletion_runs {checkNack : Bool} {poll : ℕ} {trace : Trace}
    {result : Status × Option UInt32} (h : (awaitCompletion checkNack poll).Runs trace result) :
    (∀ e ∈ trace, Quiet e) ∧ trace.length ≤ poll ∧ (result.1 = .ok →
      ∃ polls status, trace = polls ++ [.read (.sr .completion) status] ∧
        (∀ e ∈ polls, Waiting e) ∧ has status statusIf = true ∧
        (checkNack = true → has status statusRxk = false) ∧ result.2 = some status) := by
  induction poll generalizing trace with
  | zero =>
      obtain ⟨rfl, rfl⟩ := h
      simp
  | succ poll ih =>
      obtain ⟨_, status, rest, rfl, hread, hnext⟩ := Dialogue.runs_bind.mp h
      obtain rfl := Dialogue.runs_get.mp hread
      split_ifs at hnext with hal hif hnack
      · obtain ⟨rfl, rfl⟩ := Dialogue.runs_pure.mp hnext
        simp
      · obtain ⟨rfl, rfl⟩ := Dialogue.runs_pure.mp hnext
        simp
      · obtain ⟨rfl, rfl⟩ := Dialogue.runs_pure.mp hnext
        refine ⟨by simp, by simp, fun _ => ⟨[], status, rfl, by simp, hif, ?_, rfl⟩⟩
        simpa using hnack
      · obtain ⟨hquiet, hlength, hok⟩ := ih hnext
        refine ⟨by simpa using hquiet, by simpa using hlength, fun hresult => ?_⟩
        obtain ⟨polls, last, rfl, hpolls, hlast⟩ := hok hresult
        refine ⟨.read (.sr .completion) status :: polls, last, rfl, ?_, hlast⟩
        simp only [List.mem_cons, forall_eq_or_imp]
        exact ⟨⟨.completion, status, rfl, by simpa using hif⟩, hpolls⟩

/-- The command is written, after a status that shows no transfer in progress; where
it succeeds, the trace ends with its completion. -/
structure Issued (command : UInt32) (checkNack : Bool) (pollLimit : ℕ)
    (result : Status × Option UInt32) (before after : Trace) : Prop where
  before_quiet : ∀ e ∈ before, Quiet e
  after_quiet : ∀ e ∈ after, Quiet e
  ready : ∃ e ∈ before, TransferDone e
  before_length : before.length ≤ pollLimit + 2
  after_length : after.length ≤ pollLimit
  completion : result.1 = .ok → ∃ polls status,
    after = polls ++ [.read (.sr .completion) status] ∧ (∀ e ∈ polls, Waiting e) ∧
      has status statusIf = true ∧ (checkNack = true → has status statusRxk = false) ∧
      result.2 = some status

theorem issueCommand_runs {command : UInt32} {checkNack : Bool} {pollLimit : ℕ} {trace : Trace}
    {result : Status × Option UInt32}
    (h : (issueCommand command checkNack pollLimit).Runs trace result) :
    (∀ e ∈ trace, Quiet e) ∧ trace.length ≤ pollLimit + 2 ∧ result.1 ≠ .ok ∨
      ∃ before after, trace = before ++ .write .cmd command :: after ∧
        Issued command checkNack pollLimit result before after := by
  obtain ⟨_, status, rest, rfl, hread, hnext⟩ := Dialogue.runs_bind.mp h
  obtain rfl := Dialogue.runs_get.mp hread
  split_ifs at hnext with htip hal
  · obtain ⟨rfl, rfl⟩ := Dialogue.runs_pure.mp hnext
    exact .inl ⟨by simp, by simp, by simp⟩
  · obtain ⟨rfl, rfl⟩ := Dialogue.runs_pure.mp hnext
    exact .inl ⟨by simp, by simp, by simp⟩
  · obtain ⟨clear, cleared, later, rfl, hclear, hlater⟩ := Dialogue.runs_bind.mp hnext
    obtain ⟨hquiet, hlength, -⟩ := clearIf_runs hclear
    have hbefore : ∀ e ∈ ([.read (.sr (.check command)) status] ++ clear : Trace), Quiet e := by
      simpa using hquiet
    have hbeforeLength : ([.read (.sr (.check command)) status] ++ clear : Trace).length ≤
        pollLimit + 2 := by
      simpa using hlength
    split_ifs at hlater with hcleared
    · obtain ⟨rfl, rfl⟩ := Dialogue.runs_pure.mp hlater
      rw [List.append_nil]
      exact .inl ⟨hbefore, hbeforeLength, hcleared⟩
    · obtain ⟨_, _, after, rfl, hput, hawait⟩ := Dialogue.runs_bind.mp hlater
      obtain rfl := Dialogue.runs_put.mp hput
      obtain ⟨hafter, hafterLength, hok⟩ := awaitCompletion_runs hawait
      refine .inr ⟨[.read (.sr (.check command)) status] ++ clear, after, by simp, ?_⟩
      refine ⟨hbefore, hafter, ?_, hbeforeLength, hafterLength, hok⟩
      exact ⟨_, List.mem_append_left _ (List.mem_singleton_self _), status, rfl,
        by simpa using htip⟩

/-- The history since an event, when the events of the trace are quiet. -/
theorem since_of_mem {trace : Trace} (h : ∀ e ∈ trace, Quiet e)
    (hdone : ∃ e ∈ trace, TransferDone e) :
    Since TransferDone (fun e => command? e = none) trace := by
  obtain ⟨e, he, hdone⟩ := hdone
  obtain ⟨earlier, later, rfl⟩ := List.append_of_mem he
  exact ⟨earlier, e, later, rfl, hdone, fun x hx => (h x (by simp [hx])).command⟩

section

variable {command : UInt32} {checkNack : Bool} {pollLimit : ℕ}
  {result : Status × Option UInt32} {before after : Trace}

theorem command?_write (hcommand : command ≠ cmdIack) :
    command? (.write .cmd command) = some command := by
  simp [command?, hcommand]

theorem Issued.commands (h : Issued command checkNack pollLimit result before after)
    (hcommand : command ≠ cmdIack) :
    commands (before ++ .write .cmd command :: after) = [command] := by
  rw [commands_append, commands_quiet h.before_quiet, List.nil_append, I2c.commands,
    List.filterMap_cons_some (command?_write hcommand)]
  exact congrArg _ (commands_quiet h.after_quiet)

theorem Issued.transmitted (h : Issued command checkNack pollLimit result before after) :
    transmitted (before ++ .write .cmd command :: after) = [] := by
  rw [transmitted_append, transmitted_quiet h.before_quiet, List.nil_append, I2c.transmitted,
    List.filterMap_cons_none rfl]
  exact transmitted_quiet h.after_quiet

theorem Issued.received (h : Issued command checkNack pollLimit result before after) :
    received (before ++ .write .cmd command :: after) = [] := by
  rw [received_append, received_quiet h.before_quiet, List.nil_append, I2c.received,
    List.filterMap_cons_none rfl]
  exact received_quiet h.after_quiet

theorem Issued.length (h : Issued command checkNack pollLimit result before after) :
    (before ++ .write .cmd command :: after).length ≤ 2 * pollLimit + 3 := by
  have hbefore := h.before_length
  have hafter := h.after_length
  rw [List.length_append, List.length_cons]
  omega

theorem Issued.paced (h : Issued command checkNack pollLimit result before after) :
    Paced (before ++ .write .cmd command :: after) := by
  intro earlier e later heq he
  obtain ⟨middle, hbefore, -⟩ | ⟨middle, rfl, hcons⟩ := append_eq_append_cons heq
  · exact absurd (h.before_quiet e (by simp [hbefore])).command he
  · cases middle with
    | nil =>
        rw [List.append_nil]
        exact since_of_mem h.before_quiet h.ready
    | cons x middle =>
        obtain ⟨-, hafter⟩ := List.cons_eq_cons.mp hcons
        exact absurd (h.after_quiet e (by simp [hafter])).command he

/-- The completion of a command is the first status with the interrupt flag. -/
theorem observe_waiting {trace : Trace} (h : ∀ e ∈ trace, Waiting e) (watch : Watch) :
    trace.foldl Watch.observe watch = watch := by
  induction trace with
  | nil => rfl
  | cons e trace ih =>
      obtain ⟨place, status, rfl, hif⟩ := h e (by simp)
      have hstep : watch.observe (.read (.sr place) status) = watch := by
        unfold Watch.observe
        cases hpending : watch.pending with
        | none => rfl
        | some command =>
            simp only [command?, status?, hif]
            rfl
      rw [List.foldl_cons, hstep]
      exact ih fun e he => h e (by simp [he])

theorem Issued.observe (h : Issued command checkNack pollLimit result before after)
    (hcommand : command ≠ cmdIack) (hok : result.1 = .ok) (earlier : List (UInt32 × UInt32)) :
    ∃ status, (before ++ .write .cmd command :: after).foldl Watch.observe ⟨none, earlier⟩ =
      ⟨none, earlier ++ [(command, status)]⟩ ∧
      (checkNack = true → has status statusRxk = false) := by
  obtain ⟨polls, status, rfl, hpolls, hif, hrxk, -⟩ := h.completion hok
  refine ⟨status, ?_, hrxk⟩
  have hwrite : Watch.observe ⟨none, earlier⟩ (.write .cmd command) = ⟨some command, earlier⟩ := by
    simp only [Watch.observe, command?_write hcommand]
  rw [List.foldl_append, observe_quiet h.before_quiet, List.foldl_cons, hwrite,
    List.foldl_append, observe_waiting hpolls]
  simp only [List.foldl_cons, List.foldl_nil, Watch.observe, command?, status?, if_pos hif]

end

/-- The job of one command. -/
def Job.single (command : UInt32) (pollLimit : ℕ) : Job :=
  ⟨[command], [], 0, 2 * pollLimit + 3⟩

/-- A command that is not to be acknowledged by the slave, or that is checked for
its acknowledgement, is performed. -/
theorem issueCommand_performed {command : UInt32} {checkNack : Bool} {pollLimit : ℕ}
    {trace : Trace} {result : Status × Option UInt32}
    (h : (issueCommand command checkNack pollLimit).Runs trace result)
    (hcommand : command ≠ cmdIack) (hcheck : has command cmdWr = true → checkNack = true) :
    Performed (.single command pollLimit) trace result.1 [] := by
  obtain ⟨hquiet, hlength, hresult⟩ | ⟨before, after, rfl, hissued⟩ := issueCommand_runs h
  · refine performed_quiet hquiet hresult (hlength.trans ?_)
    exact (by omega : pollLimit + 2 ≤ 2 * pollLimit + 3)
  · have hcommands := hissued.commands hcommand
    refine ⟨hissued.paced, ?_, ?_, ?_, hissued.length, fun hok => ?_⟩
    · rw [hcommands]
      exact List.prefix_rfl
    · rw [hissued.transmitted]
      exact List.nil_prefix
    · rw [hissued.received]
      rfl
    · refine ⟨hcommands, hissued.transmitted, rfl, fun earlier => ?_⟩
      obtain ⟨status, hfold, hrxk⟩ := hissued.observe hcommand hok earlier
      refine ⟨[(command, status)], hfold, ?_⟩
      simp only [List.mem_singleton, forall_eq]
      exact fun hwr => hrxk (hcheck hwr)

/-! ## The end of a transfer -/

/-- A wait for an idle bus that ends well ends with the status that shows it. -/
theorem awaitIdle_runs {poll : ℕ} {status : UInt32} {trace : Trace} {result : Bool × UInt32}
    (h : (awaitIdle poll status).Runs trace result) :
    (∀ e ∈ trace, Quiet e) ∧ trace.length ≤ poll ∧
      (has status statusBsy = true → has result.2 statusBsy = false →
        (statuses trace).getLast? = some result.2) := by
  induction poll generalizing trace status with
  | zero =>
      obtain ⟨rfl, rfl⟩ := h
      exact ⟨by simp, by simp, fun hbusy hidle => absurd (hbusy.symm.trans hidle) (by decide)⟩
  | succ poll ih =>
      obtain ⟨_, read, rest, rfl, hread, hnext⟩ := Dialogue.runs_bind.mp h
      obtain rfl := Dialogue.runs_get.mp hread
      split_ifs at hnext with hal hbsy
      · obtain ⟨rfl, rfl⟩ := Dialogue.runs_pure.mp hnext
        exact ⟨by simp, by simp, fun _ _ => rfl⟩
      · obtain ⟨hquiet, hlength, hidle⟩ := ih hnext
        refine ⟨by simpa using hquiet, by simpa using hlength, fun _ hresult => ?_⟩
        rw [statuses_append, List.getLast?_append, hidle hbsy hresult]
        rfl
      · obtain ⟨rfl, rfl⟩ := Dialogue.runs_pure.mp hnext
        exact ⟨by simp, by simp, fun _ _ => rfl⟩

/-- Some status read of the trace shows an idle bus. -/
def ShowsIdle (trace : Trace) : Prop :=
  ∃ status ∈ statuses trace, has status statusBsy = false

/-- The bus is read idle after the command that stops the transfer, and the last
status read shows that the interrupt is clear. -/
structure Stopped (trace : Trace) : Prop where
  idle : ∃ before after, trace = before ++ .write .cmd cmdSto :: after ∧ ShowsIdle after
  clear : EndsClear trace

theorem Stopped.prepend {trace : Trace} (h : Stopped trace) (earlier : Trace) :
    Stopped (earlier ++ trace) := by
  obtain ⟨⟨before, after, rfl, hidle⟩, hclear⟩ := h
  exact ⟨⟨earlier ++ before, after, by simp, hidle⟩, hclear.prepend earlier⟩

/-- The job of stopping. -/
def Job.stop (pollLimit : ℕ) : Job :=
  { Job.single cmdSto pollLimit with
    accesses := (Job.single cmdSto pollLimit).accesses + (2 * pollLimit + 2) }

/-- A command that succeeds is followed by the status that completes it. -/
theorem issueCommand_completion {command : UInt32} {checkNack : Bool} {pollLimit : ℕ}
    {trace : Trace} {result : Status × Option UInt32}
    (h : (issueCommand command checkNack pollLimit).Runs trace result) (hok : result.1 = .ok) :
    ∃ before after, trace = before ++ .write .cmd command :: after ∧
      (statuses after).getLast? = some (result.2.getD 0) := by
  obtain ⟨-, -, hresult⟩ | ⟨before, after, rfl, hissued⟩ := issueCommand_runs h
  · exact absurd hok hresult
  · obtain ⟨polls, status, rfl, -, -, -, hcompletion⟩ := hissued.completion hok
    refine ⟨before, _, rfl, ?_⟩
    rw [statuses_append, List.getLast?_append, hcompletion]
    rfl

theorem awaitStopped_runs {place : Place} {status : UInt32} {pollLimit : ℕ} {trace : Trace}
    {result : Status} (h : (awaitStopped place status pollLimit).Runs trace result) :
    (∀ e ∈ trace, Quiet e) ∧ trace.length ≤ 2 * pollLimit + 1 ∧
      (result = .ok → (has status statusBsy = true → ShowsIdle trace) ∧
        (trace = [] ∧ has status statusIf = false ∨ EndsClear trace)) := by
  unfold awaitStopped at h
  split_ifs at h with hbusy
  · obtain ⟨idle, ⟨lost, last⟩, rest, rfl, hidle, hnext⟩ := Dialogue.runs_bind.mp h
    obtain ⟨hquiet, hlength, hread⟩ := awaitIdle_runs hidle
    -- the wait for the idle bus and the clear that follows it write no command
    have hwhole : ∀ clear : Trace, (∀ e ∈ clear, Quiet e) → clear.length ≤ pollLimit + 1 →
        (∀ e ∈ idle ++ clear, Quiet e) ∧ (idle ++ clear).length ≤ 2 * pollLimit + 1 := by
      intro clear hclear hclearLength
      refine ⟨fun e he => (List.mem_append.mp he).elim (hquiet e) (hclear e), ?_⟩
      rw [List.length_append]
      omega
    dsimp only at hnext
    split_ifs at hnext with hlost hbsy
    · obtain ⟨clear, _, _, rfl, hclear, hlast⟩ := Dialogue.runs_bind.mp hnext
      obtain ⟨rfl, rfl⟩ := Dialogue.runs_pure.mp hlast
      obtain ⟨hclearQuiet, hclearLength⟩ := clearPending_runs hclear
      rw [List.append_nil]
      exact ⟨(hwhole clear hclearQuiet hclearLength).1, (hwhole clear hclearQuiet hclearLength).2,
        by simp⟩
    · obtain ⟨clear, _, _, rfl, hclear, hlast⟩ := Dialogue.runs_bind.mp hnext
      obtain ⟨rfl, rfl⟩ := Dialogue.runs_pure.mp hlast
      obtain ⟨hclearQuiet, hclearLength, -⟩ := clearIf_runs hclear
      rw [List.append_nil]
      exact ⟨(hwhole clear hclearQuiet hclearLength).1, (hwhole clear hclearQuiet hclearLength).2,
        by simp⟩
    · obtain ⟨hclearQuiet, hclearLength, hclear⟩ := clearIf_runs hnext
      obtain ⟨hall, hallLength⟩ := hwhole rest hclearQuiet hclearLength
      have hlast := hread hbusy (by simpa using hbsy)
      refine ⟨hall, hallLength, fun hok => ⟨fun _ => ?_, .inr ?_⟩⟩
      · refine ⟨last, ?_, by simpa using hbsy⟩
        rw [statuses_append]
        exact List.mem_append_left _ (List.mem_of_getLast? hlast)
      · obtain ⟨rfl, hif⟩ | hends := hclear hok
        · exact ⟨last, by simpa using hlast, hif⟩
        · exact hends.prepend idle
  · obtain ⟨hquiet, hlength, hclear⟩ := clearIf_runs h
    exact ⟨hquiet, by omega, fun hok => ⟨fun h => absurd h hbusy, hclear hok⟩⟩

theorem ShowsIdle.append {first second : Trace} (h : ShowsIdle first ∨ ShowsIdle second) :
    ShowsIdle (first ++ second) := by
  obtain ⟨status, hstatus, hidle⟩ | ⟨status, hstatus, hidle⟩ := h
  · exact ⟨status, by rw [statuses_append]; exact List.mem_append_left _ hstatus, hidle⟩
  · exact ⟨status, by rw [statuses_append]; exact List.mem_append_right _ hstatus, hidle⟩

/-- Stopping is performed, and where it succeeds the bus is idle and the interrupt
is clear. -/
theorem stop_runs {place : Place} {pollLimit : ℕ} {trace : Trace} {result : Status}
    (h : (stop place pollLimit).Runs trace result) :
    Performed (.stop pollLimit) trace result [] ∧ (result = .ok → Stopped trace) := by
  obtain ⟨first, ⟨issued, completion⟩, rest, rfl, hissue, hnext⟩ := Dialogue.runs_bind.mp h
  have hfirst := issueCommand_performed hissue (by decide) (by decide)
  dsimp only at hnext hfirst
  split_ifs at hnext with hfail
  · obtain ⟨_, status, rest, rfl, hread, hrest⟩ := Dialogue.runs_bind.mp hnext
    obtain rfl := Dialogue.runs_get.mp hread
    obtain ⟨clear, _, _, rfl, hclear, hlast⟩ := Dialogue.runs_bind.mp hrest
    obtain ⟨rfl, rfl⟩ := Dialogue.runs_pure.mp hlast
    obtain ⟨hquiet, hlength⟩ := clearPending_runs hclear
    refine ⟨hfirst.append_quiet (by simpa using hquiet) (fun h => h) ?_,
      fun hok => absurd hok hfail⟩
    simp only [List.length_append, List.length_singleton, List.length_nil]
    omega
  · obtain ⟨hquiet, hlength, hok⟩ := awaitStopped_runs hnext
    have hissued : issued = .ok := not_not.mp hfail
    refine ⟨hfirst.append_quiet hquiet (fun _ => hissued) (Nat.le_succ_of_le hlength),
      fun hresult => ?_⟩
    obtain ⟨hidle, hclear⟩ := hok hresult
    obtain ⟨before, after, rfl, hlast⟩ := issueCommand_completion hissue hissued
    refine ⟨⟨before, after ++ rest, by simp, ShowsIdle.append ?_⟩, ?_⟩
    · by_cases hbusy : has (completion.getD 0) statusBsy = true
      · exact .inr (hidle hbusy)
      · exact .inl ⟨_, List.mem_of_getLast? hlast, by simpa using hbusy⟩
    · obtain ⟨rfl, hif⟩ | hends := hclear
      · refine ⟨completion.getD 0, ?_, hif⟩
        rw [List.append_nil, statuses_append, List.getLast?_append]
        simp only [statuses, List.filterMap_cons_none (show status? (.write .cmd cmdSto) = none
          from rfl)]
        rw [show List.filterMap status? after = statuses after from rfl, hlast]
        rfl
      · exact hends.prepend _

/-! ## The transfers -/

theorem awaitTransfer_runs {poll : ℕ} {status : UInt32} {trace : Trace} {result : Bool × UInt32}
    (h : (awaitTransfer poll status).Runs trace result) :
    (∀ e ∈ trace, Quiet e) ∧ trace.length ≤ poll := by
  induction poll generalizing trace status with
  | zero =>
      obtain ⟨rfl, rfl⟩ := h
      simp
  | succ poll ih =>
      unfold awaitTransfer at h
      split_ifs at h with htip
      · obtain ⟨_, read, rest, rfl, hread, hnext⟩ := Dialogue.runs_bind.mp h
        obtain rfl := Dialogue.runs_get.mp hread
        split_ifs at hnext with hal
        · obtain ⟨rfl, rfl⟩ := Dialogue.runs_pure.mp hnext
          simp
        · obtain ⟨hquiet, hlength⟩ := ih hnext
          exact ⟨by simpa using hquiet, by simpa using hlength⟩
      · obtain ⟨rfl, rfl⟩ := Dialogue.runs_pure.mp h
        simp

/-- The cleanup writes no command, or it stops after what does not write one. -/
theorem cleanupFailure_runs {failure : Status} {pollLimit : ℕ} {trace : Trace} {result : Unit}
    (h : (cleanupFailure failure pollLimit).Runs trace result) :
    (∀ e ∈ trace, Quiet e) ∧ trace.length ≤ 2 * pollLimit + 2 ∨
      ∃ wait rest outcome, trace = wait ++ rest ∧ (∀ e ∈ wait, Quiet e) ∧
        wait.length ≤ pollLimit + 1 ∧ (stop .recovery pollLimit).Runs rest outcome := by
  obtain ⟨_, status, rest, rfl, hread, hnext⟩ := Dialogue.runs_bind.mp h
  obtain rfl := Dialogue.runs_get.mp hread
  split_ifs at hnext with hlost
  · obtain ⟨hquiet, hlength⟩ := clearPending_runs hnext
    refine .inl ⟨by simpa using hquiet, ?_⟩
    simp only [List.length_append, List.length_singleton]
    omega
  · obtain ⟨wait, ⟨lost, last⟩, rest, rfl, hwait, hnext⟩ := Dialogue.runs_bind.mp hnext
    obtain ⟨hquiet, hlength⟩ := awaitTransfer_runs hwait
    dsimp only at hnext
    split_ifs at hnext with hlost htip
    · obtain ⟨hclearQuiet, hclearLength⟩ := clearPending_runs hnext
      refine .inl ⟨?_, ?_⟩
      · simp only [List.mem_append, List.mem_singleton]
        rintro e (rfl | he | he)
        · simp
        · exact hquiet e he
        · exact hclearQuiet e he
      · simp only [List.length_append, List.length_singleton]
        omega
    · obtain ⟨stopping, outcome, _, rfl, hstop, hlast⟩ := Dialogue.runs_bind.mp hnext
      obtain ⟨rfl, -⟩ := Dialogue.runs_pure.mp hlast
      refine .inr ⟨[.read (.sr .recovery) status] ++ wait, stopping, outcome, by simp, ?_, ?_,
        hstop⟩
      · simpa using hquiet
      · simpa using hlength
    · obtain ⟨rfl, -⟩ := Dialogue.runs_pure.mp hnext
      refine .inl ⟨by simpa using hquiet, ?_⟩
      simp only [List.length_append, List.length_singleton, List.length_nil]
      omega

def Job.send (byte : UInt8) (command : UInt32) (pollLimit : ℕ) : Job :=
  (⟨[], [byte.toUInt32], 0, 1⟩ : Job).append (.single command pollLimit)

/-- The last byte is not acknowledged by the master. -/
def Job.receive (acknowledge : Bool) (pollLimit : ℕ) : Job :=
  (Job.single (if acknowledge then cmdRd ||| cmdAck else cmdRd) pollLimit).append ⟨[], [], 1, 1⟩

theorem performed_transmit (word : UInt32) :
    Performed ⟨[], [word], 0, 1⟩ [.write .txr word] .ok [] := by
  refine ⟨follows_of_forall_not ?_, List.nil_prefix, List.prefix_rfl, rfl, le_refl _,
    fun _ => ⟨rfl, rfl, rfl, fun earlier => ⟨[], ?_, by simp⟩⟩⟩
  · simp [command?]
  · simp [Watch.observe, command?, status?]

theorem performed_receipt (word : UInt32) :
    Performed ⟨[], [], 1, 1⟩ [.read .rxr word] .ok [word.toUInt8] := by
  refine ⟨follows_of_forall_not ?_, List.nil_prefix, List.nil_prefix, rfl, le_refl _,
    fun _ => ⟨rfl, rfl, rfl, fun earlier => ⟨[], ?_, by simp⟩⟩⟩
  · simp [command?]
  · simp [Watch.observe, command?, status?]

theorem sendByte_runs {byte : UInt8} {command : UInt32} {pollLimit : ℕ} {trace : Trace}
    {result : Status} (h : (sendByte byte command pollLimit).Runs trace result)
    (hcommand : command ≠ cmdIack) : Performed (.send byte command pollLimit) trace result [] := by
  obtain ⟨_, _, rest, rfl, hput, hnext⟩ := Dialogue.runs_bind.mp h
  obtain rfl := Dialogue.runs_put.mp hput
  obtain ⟨issue, ⟨issued, completion⟩, _, rfl, hissue, hlast⟩ := Dialogue.runs_bind.mp hnext
  obtain ⟨rfl, rfl⟩ := Dialogue.runs_pure.mp hlast
  rw [List.append_nil]
  exact (performed_transmit _).append rfl
    (issueCommand_performed hissue hcommand fun _ => rfl)

theorem receiveByte_runs {acknowledge : Bool} {pollLimit : ℕ} {trace : Trace}
    {result : Status × List UInt8} (h : (receiveByte acknowledge pollLimit).Runs trace result) :
    Performed (.receive acknowledge pollLimit) trace result.1 result.2 := by
  obtain ⟨issue, ⟨issued, completion⟩, rest, rfl, hissue, hnext⟩ := Dialogue.runs_bind.mp h
  have hperformed := issueCommand_performed hissue (by cases acknowledge <;> decide)
    (by cases acknowledge <;> decide)
  dsimp only at hnext hperformed
  split_ifs at hnext with hok
  · obtain ⟨_, value, _, rfl, hread, hlast⟩ := Dialogue.runs_bind.mp hnext
    obtain rfl := Dialogue.runs_get.mp hread
    obtain ⟨rfl, rfl⟩ := Dialogue.runs_pure.mp hlast
    rw [List.append_nil, hok]
    exact hperformed.append hok (performed_receipt value)
  · obtain ⟨rfl, rfl⟩ := Dialogue.runs_pure.mp hnext
    rw [List.append_nil]
    exact hperformed.fail hok _

def Job.sendAll (pollLimit : ℕ) : List UInt8 → Job
  | [] => ⟨[], [], 0, 0⟩
  | byte :: data => (Job.send byte cmdWr pollLimit).append (Job.sendAll pollLimit data)

def Job.receiveAll (pollLimit : ℕ) : ℕ → Job
  | 0 => ⟨[], [], 0, 0⟩
  | left + 1 => (Job.receive (left != 0) pollLimit).append (Job.receiveAll pollLimit left)

theorem sendBytes_runs {pollLimit : ℕ} {before : Status} {data : List UInt8} {trace : Trace}
    {result : Status} (h : (sendBytes pollLimit before data).Runs trace result) :
    Continues before result (.sendAll pollLimit data) trace [] := by
  induction data generalizing before trace with
  | nil =>
      obtain ⟨rfl, rfl⟩ := h
      exact ⟨fun _ => performed_nothing _, fun _ => ⟨rfl, rfl, rfl⟩⟩
  | cons byte data ih =>
      unfold sendBytes at h
      split_ifs at h with hok
      · obtain ⟨first, sent, rest, rfl, hsend, hnext⟩ := Dialogue.runs_bind.mp h
        exact ⟨fun _ => (sendByte_runs hsend (by decide)).continue (ih hnext),
          fun hfail => absurd hok hfail⟩
      · obtain ⟨rfl, rfl⟩ := Dialogue.runs_pure.mp h
        exact ⟨fun h => absurd h hok, fun _ => ⟨rfl, rfl, rfl⟩⟩

theorem receiveBytes_runs {pollLimit : ℕ} {before : Status} {left : ℕ} {trace : Trace}
    {result : Status × List UInt8} (h : (receiveBytes pollLimit before left).Runs trace result) :
    Continues before result.1 (.receiveAll pollLimit left) trace result.2 := by
  induction left generalizing before trace result with
  | zero =>
      obtain ⟨rfl, rfl⟩ := h
      exact ⟨fun _ => performed_nothing _, fun _ => ⟨rfl, rfl, rfl⟩⟩
  | succ left ih =>
      unfold receiveBytes at h
      split_ifs at h with hok
      · obtain ⟨first, ⟨received, byte⟩, rest, rfl, hreceive, hnext⟩ := Dialogue.runs_bind.mp h
        obtain ⟨second, ⟨outcome, data⟩, _, rfl, hrest, hlast⟩ := Dialogue.runs_bind.mp hnext
        obtain ⟨rfl, rfl⟩ := Dialogue.runs_pure.mp hlast
        rw [List.append_nil]
        exact ⟨fun _ => (receiveByte_runs hreceive).continue (ih hrest),
          fun hfail => absurd hok hfail⟩
      · obtain ⟨rfl, rfl⟩ := Dialogue.runs_pure.mp h
        exact ⟨fun h => absurd h hok, fun _ => ⟨rfl, rfl, rfl⟩⟩

/-- What a whole transfer is to do, which a single command to stop may follow where
it fails. -/
structure Obeys (intended : Job) (trace : Trace) (result : Status) (data : List UInt8) :
    Prop where
  terminates : trace.length ≤ intended.accesses
  paced : Paced trace
  commands : ∃ sent extra, commands trace = sent ++ extra ∧ sent <+: intended.commands ∧
    (extra = [] ∨ extra = [cmdSto])
  transmitted : transmitted trace <+: intended.words
  received : data = (received trace).map UInt32.toUInt8
  ok : result = .ok → I2c.commands trace = intended.commands ∧
    I2c.transmitted trace = intended.words ∧ data.length = intended.receipts ∧
    (∀ completion ∈ completions trace, Acknowledged completion) ∧ Stopped trace

/-- The job and the end of the transfer. -/
def Job.finished (job : Job) (pollLimit : ℕ) : Job :=
  ⟨job.commands ++ [cmdSto], job.words, job.receipts, job.accesses + (5 * pollLimit + 6)⟩

theorem stop_prefix {sent : List UInt32} (h : sent <+: [cmdSto]) : sent = [] ∨ sent = [cmdSto] := by
  rcases List.prefix_cons_iff.mp h with rfl | ⟨rest, rfl, hrest⟩
  · exact .inl rfl
  · rw [List.prefix_nil.mp hrest]
    exact .inr rfl

/-- A transfer whose parts succeed stops the bus. -/
theorem stop_obeys {place : Place} {job : Job} {pollLimit : ℕ} {first rest : Trace}
    {before result : Status} {data : List UInt8} (hjob : Performed job first before data)
    (hok : before = .ok) (h : (stop place pollLimit).Runs rest result) :
    Obeys (job.finished pollLimit) (first ++ rest) result data := by
  obtain ⟨hstop, hstopped⟩ := stop_runs h
  have hwhole := hjob.append hok hstop
  rw [List.append_nil] at hwhole
  refine ⟨hwhole.accesses.trans ?_, hwhole.paced, ?_, ?_, hwhole.received, fun hresult => ?_⟩
  · simp only [Job.append, Job.stop, Job.single, Job.finished]
    omega
  · exact ⟨_, [], (List.append_nil _).symm, hwhole.commands, .inl rfl⟩
  · simpa [Job.append, Job.stop, Job.single, Job.finished] using hwhole.transmitted
  · obtain ⟨hcommands, hwords, hreceipts, hwatch⟩ := hwhole.completed hresult
    obtain ⟨new, hnew, hacknowledged⟩ := hwatch []
    refine ⟨hcommands, ?_, hreceipts, ?_, (hstopped hresult).prepend first⟩
    · rw [hwords]
      exact List.append_nil _
    · rw [completions, hnew]
      exact hacknowledged

/-- A transfer with a part that fails is cleaned up. -/
theorem cleanup_obeys {job : Job} {pollLimit : ℕ} {first rest : Trace} {failure : Status}
    {outcome : Unit} {data : List UInt8} (hjob : Performed job first failure data)
    (hfail : failure ≠ .ok) (h : (cleanupFailure failure pollLimit).Runs rest outcome) :
    Obeys (job.finished pollLimit) (first ++ rest) failure data := by
  have hsent : commands first <+: (job.finished pollLimit).commands :=
    hjob.commands.trans (List.prefix_append _ _)
  obtain ⟨hquiet, hlength⟩ | ⟨wait, stopping, stopped, rfl, hquiet, hlength, hstop⟩ :=
    cleanupFailure_runs h
  · have hwhole := hjob.append_quiet hquiet (fun h : failure = .ok => h) hlength
    refine ⟨hwhole.accesses.trans ?_, hwhole.paced, ?_, hwhole.transmitted, hwhole.received,
      fun hok => absurd hok hfail⟩
    · simp only [Job.finished]
      omega
    · refine ⟨commands first, [], ?_, hsent, .inl rfl⟩
      rw [commands_append, commands_quiet hquiet]
  · have hwait := hjob.append_quiet hquiet (fun h : failure = .ok => h) hlength
    have hstop := (stop_runs hstop).1
    rw [← List.append_assoc]
    refine ⟨?_, hwait.paced.append hstop.paced, ?_, ?_, ?_, fun hok => absurd hok hfail⟩
    · have hwaitLength := hwait.accesses
      have hstopLength := hstop.accesses
      simp only [Job.finished, Job.stop, Job.single] at hwaitLength hstopLength ⊢
      rw [List.length_append]
      omega
    · refine ⟨commands first, commands stopping, ?_, hsent, stop_prefix hstop.commands⟩
      rw [commands_append, commands_append, commands_quiet hquiet, List.append_nil]
    · have hnone : transmitted stopping = [] := List.prefix_nil.mp hstop.transmitted
      rw [transmitted_append, hnone, List.append_nil]
      exact hwait.transmitted
    · have hnone : (received stopping).map UInt32.toUInt8 = [] := hstop.received.symm
      rw [received_append, List.map_append, hnone, List.append_nil]
      exact hwait.received

theorem finish_obeys {job : Job} {pollLimit : ℕ} {first rest : Trace} {before result : Status}
    {data : List UInt8} (hjob : Performed job first before data)
    (h : (finish before pollLimit).Runs rest result) :
    Obeys (job.finished pollLimit) (first ++ rest) result data := by
  unfold finish at h
  split_ifs at h with hok
  · exact stop_obeys hjob hok h
  · obtain ⟨clean, _, _, rfl, hclean, hlast⟩ := Dialogue.runs_bind.mp h
    obtain ⟨rfl, rfl⟩ := Dialogue.runs_pure.mp hlast
    rw [List.append_nil]
    exact cleanup_obeys hjob hok hclean

theorem begin_runs {trace : Trace} {result : Status} (h : begin.Runs trace result) :
    (∀ e ∈ trace, Quiet e) ∧ trace.length ≤ 2 := by
  obtain ⟨_, control, rest, rfl, hread, hnext⟩ := Dialogue.runs_bind.mp h
  obtain rfl := Dialogue.runs_get.mp hread
  split_ifs at hnext with hen
  · obtain ⟨rfl, rfl⟩ := Dialogue.runs_pure.mp hnext
    simp
  · obtain ⟨_, status, _, rfl, hread, hlast⟩ := Dialogue.runs_bind.mp hnext
    obtain rfl := Dialogue.runs_get.mp hread
    split_ifs at hlast with hbusy
    · obtain ⟨rfl, rfl⟩ := Dialogue.runs_pure.mp hlast
      simp
    · obtain ⟨rfl, rfl⟩ := Dialogue.runs_pure.mp hlast
      simp

/-- The start of a transfer that begins well. -/
theorem begin_performed {trace : Trace} {result : Status} (h : begin.Runs trace result) :
    Performed ⟨[], [], 0, 2⟩ trace result [] := by
  obtain ⟨hquiet, hlength⟩ := begin_runs h
  exact (performed_nothing result).append_quiet hquiet (fun h => h) hlength

/-- A transfer that does not start. -/
theorem obeys_quiet {trace : Trace} {result : Status} {intended : Job}
    (hquiet : ∀ e ∈ trace, Quiet e) (hlength : trace.length ≤ intended.accesses)
    (hfail : result ≠ .ok) : Obeys intended trace result [] := by
  have hperformed : Performed intended trace result [] :=
    performed_quiet hquiet hfail hlength
  exact ⟨hlength, hperformed.paced, ⟨_, [], (List.append_nil _).symm, hperformed.commands, .inl rfl⟩,
    hperformed.transmitted, hperformed.received, fun hok => absurd hok hfail⟩

theorem sendAll_eq (pollLimit : ℕ) (data : List UInt8) :
    Job.sendAll pollLimit data = ⟨List.replicate data.length cmdWr, data.map UInt8.toUInt32, 0,
      data.length * (2 * pollLimit + 4)⟩ := by
  induction data with
  | nil => simp [Job.sendAll]
  | cons byte data ih =>
      rw [Job.sendAll, ih]
      simp only [Job.append, Job.send, Job.single, Job.mk.injEq, List.length_cons, List.map_cons,
        List.replicate_succ, List.nil_append, List.singleton_append, true_and]
      ring

/-- The commands that receive: every byte but the last is acknowledged. -/
def receiveCommands (length : ℕ) : List UInt32 :=
  List.replicate (length - 1) (cmdRd ||| cmdAck) ++ [cmdRd]

theorem receiveAll_eq (pollLimit left : ℕ) :
    Job.receiveAll pollLimit (left + 1) = ⟨receiveCommands (left + 1), [], left + 1,
      (left + 1) * (2 * pollLimit + 4)⟩ := by
  induction left with
  | zero => simp [Job.receiveAll, Job.receive, Job.single, Job.append, receiveCommands]
  | succ left ih =>
      rw [Job.receiveAll, ih]
      simp only [Job.append, Job.receive, Job.single, Job.mk.injEq, receiveCommands,
        Nat.add_sub_cancel, List.replicate_succ, List.append_nil]
      exact ⟨by simp, trivial, by ring, by ring⟩

/-- The start and the address, one write for each byte, and the stop. -/
def intendedWrite (address : UInt8) (data : List UInt8) (pollLimit : ℕ) : Job :=
  ⟨(cmdSta ||| cmdWr) :: List.replicate data.length cmdWr ++ [cmdSto],
    (writeAddress address).toUInt32 :: data.map UInt8.toUInt32, 0,
    (data.length + 1) * (2 * pollLimit + 4) + (5 * pollLimit + 8)⟩

/-- The start and the address, one read for each byte, and the stop. -/
def intendedRead (address : UInt8) (length pollLimit : ℕ) : Job :=
  ⟨(cmdSta ||| cmdWr) :: receiveCommands length ++ [cmdSto], [(readAddress address).toUInt32],
    length, (length + 1) * (2 * pollLimit + 4) + (5 * pollLimit + 8)⟩

/-- The start is repeated between what is written and what is read. -/
def intendedWriteRead (address : UInt8) (data : List UInt8) (length pollLimit : ℕ) : Job :=
  ⟨(cmdSta ||| cmdWr) :: List.replicate data.length cmdWr ++
      (cmdSta ||| cmdWr) :: receiveCommands length ++ [cmdSto],
    (writeAddress address).toUInt32 :: data.map UInt8.toUInt32 ++
      [(readAddress address).toUInt32], length,
    (data.length + length + 2) * (2 * pollLimit + 4) + (5 * pollLimit + 8)⟩

/-- What precedes the data of a transfer. -/
def Job.start (byte : UInt8) (pollLimit : ℕ) : Job :=
  (⟨[], [], 0, 2⟩ : Job).append (.send byte (cmdSta ||| cmdWr) pollLimit)

theorem write_eq (address : UInt8) (data : List UInt8) (pollLimit : ℕ) :
    (((Job.start (writeAddress address) pollLimit).append
      (.sendAll pollLimit data)).finished pollLimit) = intendedWrite address data pollLimit := by
  rw [sendAll_eq]
  simp only [Job.start, Job.append, Job.send, Job.single, Job.finished, intendedWrite,
    Job.mk.injEq, List.nil_append, List.cons_append, true_and]
  ring

theorem read_eq (address : UInt8) {length : ℕ} (hlength : length ≠ 0) (pollLimit : ℕ) :
    (((Job.start (readAddress address) pollLimit).append
      (.receiveAll pollLimit length)).finished pollLimit) =
      intendedRead address length pollLimit := by
  obtain ⟨left, rfl⟩ := Nat.exists_eq_add_one_of_ne_zero hlength
  rw [receiveAll_eq]
  simp only [Job.start, Job.append, Job.send, Job.single, Job.finished, intendedRead,
    Job.mk.injEq, List.nil_append, List.cons_append, List.append_nil,
    Nat.zero_add, true_and]
  ring

theorem writeRead_eq (address : UInt8) (data : List UInt8) {length : ℕ} (hlength : length ≠ 0)
    (pollLimit : ℕ) :
    (((((Job.start (writeAddress address) pollLimit).append (.sendAll pollLimit data)).append
      (.send (readAddress address) (cmdSta ||| cmdWr) pollLimit)).append
      (.receiveAll pollLimit length)).finished pollLimit) =
      intendedWriteRead address data length pollLimit := by
  obtain ⟨left, rfl⟩ := Nat.exists_eq_add_one_of_ne_zero hlength
  rw [receiveAll_eq, sendAll_eq]
  simp only [Job.start, Job.append, Job.send, Job.single, Job.finished, intendedWriteRead,
    Job.mk.injEq, List.nil_append, List.cons_append, List.append_nil,
    List.append_assoc, Nat.zero_add, true_and]
  ring

/-- A transfer whose arguments are refused, or that does not begin. -/
theorem begin_fails {start : Trace} {started : Status} (h : begin.Runs start started)
    (hfail : started ≠ .ok) {intended : Job} (hlength : 2 ≤ intended.accesses) :
    Obeys intended start started [] :=
  obeys_quiet (begin_runs h).1 ((begin_runs h).2.trans hlength) hfail

theorem start_performed {start send : Trace} {started sent : Status} {byte : UInt8}
    {pollLimit : ℕ} (hbegin : begin.Runs start started) (hok : ¬started ≠ .ok)
    (hsend : (sendByte byte (cmdSta ||| cmdWr) pollLimit).Runs send sent) :
    Performed (.start byte pollLimit) (start ++ send) sent [] :=
  (begin_performed hbegin).append (not_not.mp hok) (sendByte_runs hsend (by decide))

theorem restart_runs {before result : Status} {address : UInt8} {pollLimit : ℕ} {trace : Trace}
    (h : (restart before address pollLimit).Runs trace result) :
    Continues before result (.send (readAddress address) (cmdSta ||| cmdWr) pollLimit) trace
      [] := by
  unfold restart at h
  split_ifs at h with hok
  · exact ⟨fun _ => sendByte_runs h (by decide), fun hfail => absurd hok hfail⟩
  · obtain ⟨rfl, rfl⟩ := Dialogue.runs_pure.mp h
    exact ⟨fun h => absurd h hok, fun _ => ⟨rfl, rfl, rfl⟩⟩

theorem masterWrite_runs {regs : ℕ} {address : UInt8} {data : Option (List UInt8)}
    {pollLimit : ℕ} {trace : Trace} {result : Status}
    (h : (masterWrite regs address data pollLimit).Runs trace result) :
    Obeys (intendedWrite address (data.getD []) pollLimit) trace result [] := by
  unfold masterWrite at h
  dsimp only at h
  split_ifs at h with hargument
  · obtain ⟨rfl, rfl⟩ := Dialogue.runs_pure.mp h
    exact obeys_quiet (by simp) (by simp) (by simp)
  · obtain ⟨start, started, rest, rfl, hbegin, hnext⟩ := Dialogue.runs_bind.mp h
    split_ifs at hnext with hfail
    · obtain ⟨rfl, rfl⟩ := Dialogue.runs_pure.mp hnext
      rw [List.append_nil]
      exact begin_fails hbegin hfail (by simp only [intendedWrite]; omega)
    · obtain ⟨send, sent, rest, rfl, hsend, hnext⟩ := Dialogue.runs_bind.mp hnext
      obtain ⟨sending, outcome, last, rfl, hsending, hfinish⟩ := Dialogue.runs_bind.mp hnext
      have hjob := (start_performed hbegin hfail hsend).continue (sendBytes_runs hsending)
      have hobeys := finish_obeys hjob hfinish
      rw [write_eq, List.append_assoc, List.append_assoc] at hobeys
      exact hobeys

theorem masterRead_runs {regs : ℕ} {address : UInt8} {hasData : Bool} {length pollLimit : ℕ}
    {trace : Trace} {result : Status × List UInt8}
    (h : (masterRead regs address hasData length pollLimit).Runs trace result) :
    Obeys (intendedRead address length pollLimit) trace result.1 result.2 := by
  unfold masterRead at h
  split_ifs at h with hargument
  · obtain ⟨rfl, rfl⟩ := Dialogue.runs_pure.mp h
    exact obeys_quiet (by simp) (by simp) (by simp)
  · have hlength : length ≠ 0 := fun hzero => hargument (by simp [hzero])
    obtain ⟨start, started, rest, rfl, hbegin, hnext⟩ := Dialogue.runs_bind.mp h
    split_ifs at hnext with hfail
    · obtain ⟨rfl, rfl⟩ := Dialogue.runs_pure.mp hnext
      rw [List.append_nil]
      exact begin_fails hbegin hfail (by simp only [intendedRead]; omega)
    · obtain ⟨send, sent, rest, rfl, hsend, hnext⟩ := Dialogue.runs_bind.mp hnext
      obtain ⟨receiving, ⟨outcome, data⟩, rest, rfl, hreceiving, hnext⟩ :=
        Dialogue.runs_bind.mp hnext
      obtain ⟨finishing, final, _, rfl, hfinish, hlast⟩ := Dialogue.runs_bind.mp hnext
      obtain ⟨rfl, rfl⟩ := Dialogue.runs_pure.mp hlast
      have hjob := (start_performed hbegin hfail hsend).continue (receiveBytes_runs hreceiving)
      have hobeys := finish_obeys hjob hfinish
      rw [read_eq address hlength, List.append_assoc, List.append_assoc] at hobeys
      rw [List.append_nil]
      exact hobeys

theorem masterWriteRead_runs {regs : ℕ} {address : UInt8} {writeData : Option (List UInt8)}
    {hasReadData : Bool} {readLength pollLimit : ℕ} {trace : Trace}
    {result : Status × List UInt8}
    (h : (masterWriteRead regs address writeData hasReadData readLength pollLimit).Runs trace
      result) :
    Obeys (intendedWriteRead address (writeData.getD []) readLength pollLimit) trace result.1
      result.2 := by
  unfold masterWriteRead at h
  dsimp only at h
  split_ifs at h with hargument
  · obtain ⟨rfl, rfl⟩ := Dialogue.runs_pure.mp h
    exact obeys_quiet (by simp) (by simp) (by simp)
  · have hlength : readLength ≠ 0 := fun hzero => hargument (by simp [hzero])
    obtain ⟨start, started, rest, rfl, hbegin, hnext⟩ := Dialogue.runs_bind.mp h
    split_ifs at hnext with hfail
    · obtain ⟨rfl, rfl⟩ := Dialogue.runs_pure.mp hnext
      rw [List.append_nil]
      exact begin_fails hbegin hfail (by simp only [intendedWriteRead]; omega)
    · obtain ⟨send, sent, rest, rfl, hsend, hnext⟩ := Dialogue.runs_bind.mp hnext
      obtain ⟨sending, written, rest, rfl, hsending, hnext⟩ := Dialogue.runs_bind.mp hnext
      obtain ⟨again, repeated, rest, rfl, hagain, hnext⟩ := Dialogue.runs_bind.mp hnext
      obtain ⟨receiving, ⟨outcome, data⟩, rest, rfl, hreceiving, hnext⟩ :=
        Dialogue.runs_bind.mp hnext
      obtain ⟨finishing, final, _, rfl, hfinish, hlast⟩ := Dialogue.runs_bind.mp hnext
      obtain ⟨rfl, rfl⟩ := Dialogue.runs_pure.mp hlast
      have hjob := (((start_performed hbegin hfail hsend).continue
        (sendBytes_runs hsending)).continue (restart_runs hagain)).continue
          (receiveBytes_runs hreceiving)
      have hobeys := finish_obeys hjob hfinish
      rw [writeRead_eq address _ hlength] at hobeys
      simp only [List.append_assoc] at hobeys
      rw [List.append_nil]
      exact hobeys

/-- Every transfer, against every device, ends, paces its commands, carries out its
intended job in order and succeeds only where the whole job is done. -/
theorem transfers_obey (device : ℕ → Register → UInt32) (regs : ℕ) (address : UInt8)
    (pollLimit : ℕ) :
    (∀ data, let run := (masterWrite regs address data pollLimit).converse device 0
      Obeys (intendedWrite address (data.getD []) pollLimit) run.1 run.2 []) ∧
    (∀ hasData length,
      let run := (masterRead regs address hasData length pollLimit).converse device 0
      Obeys (intendedRead address length pollLimit) run.1 run.2.1 run.2.2) ∧
    ∀ writeData hasReadData readLength,
      let run := (masterWriteRead regs address writeData hasReadData readLength
        pollLimit).converse device 0
      Obeys (intendedWriteRead address (writeData.getD []) readLength pollLimit) run.1 run.2.1
        run.2.2 := by
  refine ⟨fun data => ?_, fun hasData length => ?_, fun writeData hasReadData readLength => ?_⟩
  · exact masterWrite_runs (Dialogue.converse_runs device _ 0)
  · exact masterRead_runs (Dialogue.converse_runs device _ 0)
  · exact masterWriteRead_runs (Dialogue.converse_runs device _ 0)

end Xhive.C2.I2c
