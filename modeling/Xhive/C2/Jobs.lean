import Xhive.C2.I2c

/-!
# Jobs on the registers

A part of a transfer carries out a job: a list of command words, the words handed
to the transmitter and the bytes to receive.  It may stop at any point of the job,
but it succeeds only where the whole job is done.
-/

namespace Xhive.C2.I2c

open Xhive.Support

/-- A word written to CMD that does more than acknowledge the interrupt. -/
def command? : Event Register UInt32 → Option UInt32
  | .write .cmd word => if word = cmdIack then none else some word
  | _ => none

def transmitted? : Event Register UInt32 → Option UInt32
  | .write .txr word => some word
  | _ => none

def received? : Event Register UInt32 → Option UInt32
  | .read .rxr word => some word
  | _ => none

def status? : Event Register UInt32 → Option UInt32
  | .read (.sr _) word => some word
  | _ => none

def commands (trace : Trace) : List UInt32 :=
  trace.filterMap command?

def transmitted (trace : Trace) : List UInt32 :=
  trace.filterMap transmitted?

def received (trace : Trace) : List UInt32 :=
  trace.filterMap received?

def statuses (trace : Trace) : List UInt32 :=
  trace.filterMap status?

/-- No transfer is in progress by the status that is read. -/
def TransferDone (e : Event Register UInt32) : Prop :=
  ∃ status, status? e = some status ∧ has status statusTip = false

/-- Every command follows a status read, made since the command before, that
shows no transfer in progress. -/
def Paced (trace : Trace) : Prop :=
  Follows (fun e => command? e ≠ none) (Since TransferDone fun e => command? e = none) trace

/-- The command in progress, and the commands completed with the status that
shows it. -/
structure Watch where
  pending : Option UInt32
  completed : List (UInt32 × UInt32)

/-- A command is completed by the first status with the interrupt flag. -/
def Watch.observe (watch : Watch) (e : Event Register UInt32) : Watch :=
  match command? e, status? e, watch.pending with
  | some command, _, _ => { watch with pending := some command }
  | none, some status, some command =>
      if has status statusIf then ⟨none, watch.completed ++ [(command, status)]⟩ else watch
  | none, _, _ => watch

def completions (trace : Trace) : List (UInt32 × UInt32) :=
  (trace.foldl Watch.observe ⟨none, []⟩).completed

/-- The slave acknowledges what is written. -/
def Acknowledged (completion : UInt32 × UInt32) : Prop :=
  has completion.1 cmdWr → has completion.2 statusRxk = false

/-- What a part of a transfer has to do. -/
structure Job where
  commands : List UInt32
  words : List UInt32
  receipts : ℕ
  accesses : ℕ

def Job.append (first second : Job) : Job :=
  ⟨first.commands ++ second.commands, first.words ++ second.words,
    first.receipts + second.receipts, first.accesses + second.accesses⟩

/-- The whole job is done, and every byte written is acknowledged. -/
structure Completed (job : Job) (trace : Trace) (data : List UInt8) : Prop where
  commands : commands trace = job.commands
  transmitted : transmitted trace = job.words
  receipts : data.length = job.receipts
  acknowledged : ∀ earlier, ∃ new, trace.foldl Watch.observe ⟨none, earlier⟩ =
    ⟨none, earlier ++ new⟩ ∧ ∀ c ∈ new, Acknowledged c

/-- The job is done in order, and as a whole where the result is `ok`. -/
structure Performed (job : Job) (trace : Trace) (result : Status) (data : List UInt8) :
    Prop where
  paced : Paced trace
  commands : commands trace <+: job.commands
  transmitted : transmitted trace <+: job.words
  received : data = (received trace).map UInt32.toUInt8
  accesses : trace.length ≤ job.accesses
  completed : result = .ok → Completed job trace data

@[simp] theorem commands_append (first second : Trace) :
    commands (first ++ second) = commands first ++ commands second :=
  List.filterMap_append

@[simp] theorem transmitted_append (first second : Trace) :
    transmitted (first ++ second) = transmitted first ++ transmitted second :=
  List.filterMap_append

@[simp] theorem received_append (first second : Trace) :
    received (first ++ second) = received first ++ received second :=
  List.filterMap_append

@[simp] theorem statuses_append (first second : Trace) :
    statuses (first ++ second) = statuses first ++ statuses second :=
  List.filterMap_append

theorem Paced.append {first second : Trace} (h₁ : Paced first) (h₂ : Paced second) :
    Paced (first ++ second) :=
  Follows.append (fun before _ h => h.prepend before) h₁ h₂

theorem prefix_append_of {first second whole rest : List UInt32} (h : first = whole)
    (hsecond : second <+: rest) : first ++ second <+: whole ++ rest := by
  rw [h]
  exact (List.prefix_append_right_inj whole).mpr hsecond

/-- A part that succeeds is followed by the next part. -/
theorem Performed.append {job next : Job} {first second : Trace} {middle result : Status}
    {data rest : List UInt8} (h₁ : Performed job first middle data) (hok : middle = .ok)
    (h₂ : Performed next second result rest) :
    Performed (job.append next) (first ++ second) result (data ++ rest) := by
  obtain ⟨hcommands, hwords, hreceipts, hwatch⟩ := h₁.completed hok
  refine ⟨h₁.paced.append h₂.paced, ?_, ?_, ?_, ?_, fun hresult => ?_⟩
  · rw [commands_append]
    exact prefix_append_of hcommands h₂.commands
  · rw [transmitted_append]
    exact prefix_append_of hwords h₂.transmitted
  · rw [h₁.received, h₂.received, received_append, List.map_append]
  · rw [List.length_append]
    exact Nat.add_le_add h₁.accesses h₂.accesses
  · have hnext := h₂.completed hresult
    refine ⟨?_, ?_, ?_, fun earlier => ?_⟩
    · rw [commands_append, hcommands, hnext.commands]
      rfl
    · rw [transmitted_append, hwords, hnext.transmitted]
      rfl
    · rw [List.length_append, hreceipts, hnext.receipts]
      rfl
    · obtain ⟨new, hnew, hacknowledged⟩ := hwatch earlier
      obtain ⟨newer, hnewer, hacknowledged'⟩ := hnext.acknowledged (earlier ++ new)
      refine ⟨new ++ newer, ?_, fun c hc => ?_⟩
      · rw [List.foldl_append, hnew, hnewer, List.append_assoc]
      · exact (List.mem_append.mp hc).elim (hacknowledged c) (hacknowledged' c)

/-- A part that fails ends the job. -/
theorem Performed.fail {job : Job} {trace : Trace} {result : Status} {data : List UInt8}
    (h : Performed job trace result data) (hresult : result ≠ .ok) (next : Job) :
    Performed (job.append next) trace result data :=
  ⟨h.paced, h.commands.trans (List.prefix_append _ _),
    h.transmitted.trans (List.prefix_append _ _), h.received,
    h.accesses.trans (Nat.le_add_right _ _), fun hok => absurd hok hresult⟩

/-! ## Accesses that are no command -/

/-- An access that neither commands nor transmits nor receives. -/
def Quiet (e : Event Register UInt32) : Prop :=
  command? e = none ∧ transmitted? e = none ∧ received? e = none

theorem Quiet.command {e : Event Register UInt32} (h : Quiet e) : command? e = none :=
  h.1

@[simp] theorem quiet_read (place : Place) (word : UInt32) : Quiet (.read (.sr place) word) :=
  ⟨rfl, rfl, rfl⟩

@[simp] theorem quiet_control (word : UInt32) : Quiet (.read .ctrl word) :=
  ⟨rfl, rfl, rfl⟩

@[simp] theorem quiet_acknowledge : Quiet (.write .cmd cmdIack) :=
  ⟨rfl, rfl, rfl⟩

section

variable {trace : Trace} (h : ∀ e ∈ trace, Quiet e)

include h

theorem commands_quiet : commands trace = [] := by
  rw [commands, List.filterMap_eq_nil_iff]
  exact fun e he => (h e he).1

theorem transmitted_quiet : transmitted trace = [] := by
  rw [transmitted, List.filterMap_eq_nil_iff]
  exact fun e he => (h e he).2.1

theorem received_quiet : received trace = [] := by
  rw [received, List.filterMap_eq_nil_iff]
  exact fun e he => (h e he).2.2

theorem paced_quiet : Paced trace :=
  follows_of_forall_not fun e he => not_not.mpr (h e he).command

theorem observe_quiet (completed : List (UInt32 × UInt32)) :
    trace.foldl Watch.observe ⟨none, completed⟩ = ⟨none, completed⟩ := by
  induction trace with
  | nil => rfl
  | cons e trace ih =>
      have hstep : Watch.observe ⟨none, completed⟩ e = ⟨none, completed⟩ := by
        rw [Watch.observe, (h e (by simp)).command]
        cases status? e <;> rfl
      rw [List.foldl_cons, hstep]
      exact ih fun e he => h e (by simp [he])

end

/-- A part that writes no command does nothing of any job. -/
theorem performed_quiet {trace : Trace} (h : ∀ e ∈ trace, Quiet e) {result : Status}
    (hresult : result ≠ .ok) {job : Job} (hlength : trace.length ≤ job.accesses) :
    Performed job trace result [] := by
  refine ⟨paced_quiet h, ?_, ?_, ?_, hlength, fun hok => absurd hok hresult⟩
  · rw [commands_quiet h]
    exact List.nil_prefix
  · rw [transmitted_quiet h]
    exact List.nil_prefix
  · rw [received_quiet h]
    rfl

/-- What follows a part without a further command. -/
theorem Performed.append_quiet {job : Job} {trace after : Trace} {result result' : Status}
    {data : List UInt8} {n : ℕ} (h : Performed job trace result data)
    (hafter : ∀ e ∈ after, Quiet e) (hok : result' = .ok → result = .ok)
    (hn : after.length ≤ n) :
    Performed { job with accesses := job.accesses + n } (trace ++ after) result' data := by
  have hcommands : I2c.commands (trace ++ after) = I2c.commands trace := by
    rw [commands_append, commands_quiet hafter, List.append_nil]
  have htransmitted : I2c.transmitted (trace ++ after) = I2c.transmitted trace := by
    rw [transmitted_append, transmitted_quiet hafter, List.append_nil]
  refine ⟨h.paced.append (paced_quiet hafter), ?_, ?_, ?_, ?_, fun hresult => ?_⟩
  · rw [hcommands]
    exact h.commands
  · rw [htransmitted]
    exact h.transmitted
  · rw [received_append, received_quiet hafter, List.append_nil]
    exact h.received
  · rw [List.length_append]
    exact Nat.add_le_add h.accesses hn
  · obtain ⟨hjob, hwords, hreceipts, hwatch⟩ := h.completed (hok hresult)
    refine ⟨hcommands.trans hjob, htransmitted.trans hwords, hreceipts, fun earlier => ?_⟩
    obtain ⟨new, hnew, hacknowledged⟩ := hwatch earlier
    exact ⟨new, by rw [List.foldl_append, hnew, observe_quiet hafter], hacknowledged⟩

/-- Nothing to do is done. -/
theorem performed_nothing (result : Status) : Performed ⟨[], [], 0, 0⟩ [] result [] :=
  ⟨paced_quiet (by simp), List.nil_prefix, List.nil_prefix, rfl, le_refl _,
    fun _ => ⟨rfl, rfl, rfl, fun _ => ⟨[], by simp, by simp⟩⟩⟩

/-- A part that runs only where the part before it has succeeded. -/
def Continues (before result : Status) (job : Job) (trace : Trace) (data : List UInt8) : Prop :=
  (before = .ok → Performed job trace result data) ∧
    (before ≠ .ok → trace = [] ∧ result = before ∧ data = [])

theorem Performed.continue {job next : Job} {first second : Trace} {before result : Status}
    {data rest : List UInt8} (h₁ : Performed job first before data)
    (h₂ : Continues before result next second rest) :
    Performed (job.append next) (first ++ second) result (data ++ rest) := by
  by_cases hok : before = .ok
  · exact h₁.append hok (h₂.1 hok)
  · obtain ⟨rfl, rfl, rfl⟩ := h₂.2 hok
    rw [List.append_nil, List.append_nil]
    exact h₁.fail hok next

end Xhive.C2.I2c
