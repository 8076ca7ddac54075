import Mathlib.Algebra.Order.Floor.Div
import Mathlib.Tactic.Ring
import Xhive.C2.I2c

/-!
# The delays of the C2 timer

A delay is converted to clocks and waited for in chunks that the reload
register can hold; one budget of polls serves all chunks.
-/

namespace Xhive.C2.Timer

open Xhive.Support

inductive Register where
  | config
  | data
  deriving DecidableEq, Repr

abbrev Port := Dialogue Register UInt32

def configLoad : UInt32 := 0x100
def configRun : UInt32 := 0x101

def clocksPerUs : UInt32 := 1000000
def clocksPerMs : UInt32 := 1000
def chunkClocks : ℕ := 2 ^ 32

def start (hasTimer : Bool) (reload : UInt32) : Port Status :=
  if hasTimer = false then pure .errorInvalidArgument
  else do
    Dialogue.put .config configLoad
    Dialogue.put .data reload
    Dialogue.put .config configRun
    pure .ok

def stop (hasTimer : Bool) : Port Status :=
  if hasTimer = false then pure .errorInvalidArgument
  else do
    Dialogue.put .config configLoad
    pure .ok

/-- The status, and the word that is stored. -/
def current (hasTimer hasCurrent : Bool) : Port (Status × Option UInt32) :=
  if hasTimer = false ∨ hasCurrent = false then pure (.errorInvalidArgument, none)
  else do
    let word ← Dialogue.get .data
    pure (.ok, some word)

/-- How the polls of a chunk end. -/
structure Polled where
  status : Status
  complete : Bool
  pollsLeft : ℕ

/-- The polls of a chunk: it is complete at zero and where the counter has risen. -/
def awaitChunk (hasTimer : Bool) : ℕ → UInt32 → Port Polled
  | 0, _ => pure ⟨.ok, false, 0⟩
  | polls + 1, previous => do
      let (status, word) ← current hasTimer true
      if status ≠ .ok then do
        let _ ← stop hasTimer
        pure ⟨status, false, polls + 1⟩
      else
        let word := word.getD 0
        if word = 0 ∨ word > previous then pure ⟨.ok, true, polls⟩
        else awaitChunk hasTimer polls word

def chunkOf (clocks : ℕ) : ℕ :=
  if clocks > chunkClocks then chunkClocks else clocks

/-- The counter passes `reload + 1` clocks, so that the greatest word serves a full chunk. -/
def reloadOf (chunk : ℕ) : UInt32 :=
  if chunk = chunkClocks then 0xffffffff else UInt32.ofNat (chunk - 1)

theorem chunkOf_pos {clocks : ℕ} (h : clocks ≠ 0) : 0 < chunkOf clocks := by
  rw [chunkOf, chunkClocks]
  split <;> omega

theorem chunkOf_le (clocks : ℕ) : chunkOf clocks ≤ clocks := by
  rw [chunkOf]
  split <;> omega

def delayClocks (hasTimer : Bool) (clocks pollsLeft : ℕ) : Port Status :=
  if clocks = 0 then stop hasTimer
  else do
    let status ← start hasTimer (reloadOf (chunkOf clocks))
    if status ≠ .ok then pure status
    else do
      let polled ← awaitChunk hasTimer pollsLeft (reloadOf (chunkOf clocks))
      if polled.status ≠ .ok then pure polled.status
      else if polled.complete = false then do
        let _ ← stop hasTimer
        pure .errorTimeout
      else delayClocks hasTimer (clocks - chunkOf clocks) polled.pollsLeft
termination_by clocks
decreasing_by
  have hpos := chunkOf_pos ‹¬clocks = 0›
  omega

/-- The clocks of a duration, rounded up. -/
def convertClocks (clockHz duration unitsPerSecond : UInt32) : Except Status UInt64 :=
  let whole := (clockHz / unitsPerSecond).toUInt64 * duration.toUInt64
  let fraction := (clockHz % unitsPerSecond).toUInt64 * duration.toUInt64
  let roundedFraction := fraction / unitsPerSecond.toUInt64 +
    if fraction % unitsPerSecond.toUInt64 ≠ 0 then 1 else 0
  if whole > 0xffffffffffffffff - roundedFraction then .error .errorInvalidArgument
  else .ok (whole + roundedFraction)

/-- What `delayUs` and `delayMs` share. -/
def delayUnits (unitsPerSecond : UInt32) (hasTimer : Bool) (clockHz duration pollLimit : UInt32) :
    Port Status :=
  if duration = 0 then pure .ok
  else if hasTimer = false ∨ clockHz = 0 ∨ pollLimit = 0 then pure .errorInvalidArgument
  else
    match convertClocks clockHz duration unitsPerSecond with
    | .error status => pure status
    | .ok clocks => delayClocks hasTimer clocks.toNat pollLimit.toNat

def delayUs (hasTimer : Bool) (clockHz delay pollLimit : UInt32) : Port Status :=
  delayUnits clocksPerUs hasTimer clockHz delay pollLimit

def delayMs (hasTimer : Bool) (clockHz delay pollLimit : UInt32) : Port Status :=
  delayUnits clocksPerMs hasTimer clockHz delay pollLimit

end Xhive.C2.Timer

/-!
## Delays against a counter

The counter runs down from its reload word and starts again, while any number
of ticks pass between two accesses.  A delay that succeeds has lasted; one that
runs out of polls says so; both leave the timer stopped.
-/

namespace Xhive.C2.Timer

open Xhive.Support

/-! ## The counter -/

/-- A down-counter over `reload + 1` values, `ticks` after its start. -/
def countdown (reload ticks : ℕ) : ℕ :=
  reload - ticks % (reload + 1)

theorem countdown_start (reload : ℕ) : countdown reload 0 = reload := by
  rw [countdown, Nat.zero_mod, Nat.sub_zero]

theorem countdown_le (reload ticks : ℕ) : countdown reload ticks ≤ reload :=
  Nat.sub_le _ _

/-- The counter reads zero after its whole way only. -/
theorem countdown_zero {reload ticks : ℕ} (h : countdown reload ticks = 0) : reload ≤ ticks := by
  have hlt := Nat.mod_lt ticks (Nat.succ_pos reload)
  have hle := Nat.mod_le ticks (reload + 1)
  rw [countdown] at h
  omega

/-- The counter rises by a reload only. -/
theorem countdown_rise {reload earlier later : ℕ} (hle : earlier ≤ later)
    (h : countdown reload earlier < countdown reload later) : reload < later := by
  by_contra hbefore
  rw [not_lt] at hbefore
  rw [countdown, countdown, Nat.mod_eq_of_lt (by omega), Nat.mod_eq_of_lt (by omega)] at h
  omega

/-- The timer: its clock, its reload word, and when it was started. -/
structure Counter where
  now : ℕ
  /-- The number of accesses so far. -/
  accesses : ℕ
  reload : UInt32
  since : ℕ
  running : Bool

def Counter.value (c : Counter) : UInt32 :=
  if c.running then UInt32.ofNat (countdown c.reload.toNat (c.now - c.since)) else c.reload

/-- What an access does at once. -/
def Counter.observe (c : Counter) : Event Register UInt32 → Counter
  | .write .data word => { c with reload := word }
  | .write .config word =>
      if word = configRun then { c with since := c.now, running := true }
      else { c with running := false }
  | .read _ _ => c

/-- `gaps n` ticks pass after access `n`. -/
def Counter.pass (gaps : ℕ → ℕ) (c : Counter) : Counter :=
  { c with now := c.now + gaps c.accesses, accesses := c.accesses + 1 }

def counter (gaps : ℕ → ℕ) : Device Counter Register UInt32 where
  answer c
    | .data => c.value
    | .config => if c.running then configRun else configLoad
  after c e := (c.observe e).pass gaps

abbrev Trace := List (Counter × Event Register UInt32)

/-- The reload words that a run loads. -/
def loads (trace : Trace) : List UInt32 :=
  (Device.writes trace).filterMap fun
    | (.data, word) => some word
    | (.config, _) => none

/-- How often a run reads the counter. -/
def reads (trace : Trace) : ℕ :=
  trace.countP fun
    | (_, .read .data _) => true
    | _ => false

/-- When a run starts the timer first. -/
def startedAt (trace : Trace) : Option ℕ :=
  trace.findSome? fun
    | (c, .write .config word) => if word = configRun then some c.now else none
    | _ => none

/-- The run ends by stopping the timer, at `last`. -/
def StopsAt (trace : Trace) (last : ℕ) : Prop :=
  ∃ before c, trace = before ++ [(c, .write .config configLoad)] ∧ c.now = last

theorem StopsAt.prepend {trace : Trace} {last : ℕ} (h : StopsAt trace last) (earlier : Trace) :
    StopsAt (earlier ++ trace) last := by
  obtain ⟨before, c, rfl, hlast⟩ := h
  exact ⟨earlier ++ before, c, (List.append_assoc _ _ _).symm, hlast⟩

theorem loads_append (first second : Trace) :
    loads (first ++ second) = loads first ++ loads second := by
  rw [loads, Device.writes_append, List.filterMap_append]
  rfl

theorem reads_append (first second : Trace) :
    reads (first ++ second) = reads first + reads second :=
  List.countP_append

/-! ## One chunk -/

/-- The counter runs from `reload` since `since`. -/
structure Counter.Runs (c : Counter) (reload : UInt32) (since : ℕ) : Prop where
  running : c.running = true
  reload_eq : c.reload = reload
  since_eq : c.since = since
  since_le : since ≤ c.now

theorem Counter.Runs.pass {c : Counter} {reload : UInt32} {since : ℕ} (h : c.Runs reload since)
    (gaps : ℕ → ℕ) : (c.pass gaps).Runs reload since :=
  ⟨h.running, h.reload_eq, h.since_eq, h.since_le.trans (Nat.le_add_right _ _)⟩

theorem Counter.Runs.value_eq {c : Counter} {reload : UInt32} {since : ℕ}
    (h : c.Runs reload since) : c.value.toNat = countdown reload.toNat (c.now - since) := by
  have hlt := reload.toNat_lt
  have hle := countdown_le reload.toNat (c.now - since)
  rw [Counter.value, if_pos h.running, h.reload_eq, h.since_eq, UInt32.toNat_ofNat',
    Nat.mod_eq_of_lt (by omega)]

/-- What the polls of a chunk leave: they read only, within the budget, and they
find the chunk complete after its clocks. -/
structure ChunkRun (c : Counter) (reload : UInt32) (since polls : ℕ)
    (run : Trace × Polled × Counter) : Prop where
  writes : Device.writes run.1 = []
  reads_le : reads run.1 + run.2.1.pollsLeft ≤ polls
  status : run.2.1.status = .ok
  now_le : c.now ≤ run.2.2.now
  lasted : run.2.1.complete = true → since + reload.toNat ≤ run.2.2.now

theorem awaitChunk_run (gaps : ℕ → ℕ) {reload : UInt32} {since : ℕ} (polls : ℕ)
    (previous : UInt32) (c : Counter) (hc : c.Runs reload since)
    (hprevious : ∃ ticks ≤ c.now - since, previous.toNat = countdown reload.toNat ticks) :
    ChunkRun c reload since polls ((counter gaps).serve (awaitChunk true polls previous) c) := by
  induction polls generalizing previous c with
  | zero => exact ⟨rfl, le_rfl, rfl, le_rfl, fun h => absurd h Bool.false_ne_true⟩
  | succ polls ih =>
      obtain ⟨ticks, hticks, hearlier⟩ := hprevious
      have hvalue := hc.value_eq
      have hrun : (counter gaps).serve (awaitChunk true (polls + 1) previous) c =
          let rest := (counter gaps).serve
            (if c.value = 0 ∨ c.value > previous then pure (⟨.ok, true, polls⟩ : Polled)
              else awaitChunk true polls c.value) (c.pass gaps)
          ((c, .read .data c.value) :: rest.1, rest.2) := rfl
      rw [hrun]
      have hpass : c.now ≤ (c.pass gaps).now := Nat.le_add_right _ _
      by_cases hstop : c.value = 0 ∨ c.value > previous
      · rw [if_pos hstop]
        refine ⟨rfl, ?_, rfl, hpass, fun _ => ?_⟩
        · exact (Nat.add_comm 1 polls).le
        · -- zero, or a rise since the word before, is seen after the whole way only
          have hlasted : reload.toNat ≤ c.now - since := by
            rcases hstop with hzero | hrise
            · rw [hzero, UInt32.toNat_zero] at hvalue
              exact countdown_zero hvalue.symm
            · rw [gt_iff_lt, UInt32.lt_iff_toNat_lt, hearlier, hvalue] at hrise
              exact (countdown_rise hticks hrise).le
          have hsince := hc.since_le
          show since + reload.toNat ≤ (c.pass gaps).now
          omega
      · rw [if_neg hstop]
        have hrest := ih c.value (c.pass gaps) (hc.pass gaps)
          ⟨c.now - since, Nat.sub_le_sub_right hpass _, hvalue⟩
        generalize (counter gaps).serve (awaitChunk true polls c.value) (c.pass gaps) = rest at hrest
        refine ⟨hrest.writes, ?_, hrest.status, hpass.trans hrest.now_le, hrest.lasted⟩
        have hreads : reads ((c, .read .data c.value) :: rest.1) = reads rest.1 + 1 :=
          List.countP_cons_of_pos rfl
        have hle := hrest.reads_le
        show reads ((c, .read .data c.value) :: rest.1) + rest.2.1.pollsLeft ≤ polls + 1
        omega

/-! ## The chunks of a delay -/

/-- The reload words of the chunks of `clocks`. -/
def reloads (clocks : ℕ) : List UInt32 :=
  if clocks = 0 then []
  else reloadOf (chunkOf clocks) :: reloads (clocks - chunkOf clocks)
termination_by clocks
decreasing_by
  have hpos := chunkOf_pos ‹¬clocks = 0›
  omega

/-- The clocks that some chunks take, a reload and one each. -/
def loadedClocks : List UInt32 → ℕ
  | [] => 0
  | reload :: rest => reload.toNat + 1 + loadedClocks rest

/-- The ticks that some chunks last at least. -/
def waited : List UInt32 → ℕ
  | [] => 0
  | reload :: rest => reload.toNat + waited rest

theorem waited_add_length (chunks : List UInt32) :
    waited chunks + chunks.length = loadedClocks chunks := by
  induction chunks with
  | nil => rfl
  | cons reload rest ih =>
      rw [waited, loadedClocks, List.length_cons, ← ih]
      omega

theorem toNat_reloadOf {clocks : ℕ} (h : clocks ≠ 0) :
    (reloadOf (chunkOf clocks)).toNat + 1 = chunkOf clocks := by
  have hpos := chunkOf_pos h
  have hmax : (0xffffffff : UInt32).toNat = 2 ^ 32 - 1 := by decide
  have hle : chunkOf clocks ≤ chunkClocks := by
    rw [chunkOf]
    split <;> omega
  rw [reloadOf]
  split
  · rename_i hfull
    rw [hmax, hfull]
    rfl
  · rename_i hfull
    rw [chunkClocks] at hle hfull
    rw [UInt32.toNat_ofNat', Nat.mod_eq_of_lt (by omega)]
    omega

/-- The chunks take the clocks of the delay. -/
theorem loadedClocks_reloads (clocks : ℕ) : loadedClocks (reloads clocks) = clocks := by
  induction clocks using Nat.strong_induction_on with
  | _ clocks ih =>
      rw [reloads]
      split
      · rename_i hzero
        rw [hzero, loadedClocks]
      · rename_i hne
        have hpos := chunkOf_pos hne
        have hle := chunkOf_le clocks
        rw [loadedClocks, ih _ (by omega), toNat_reloadOf hne]
        omega

theorem length_reloads (clocks : ℕ) : (reloads clocks).length = clocks ⌈/⌉ 2 ^ 32 := by
  induction clocks using Nat.strong_induction_on with
  | _ clocks ih =>
      rw [reloads]
      split
      · rename_i hzero
        rw [hzero, zero_ceilDiv, List.length_nil]
      · rename_i hne
        have hpos := chunkOf_pos hne
        rw [List.length_cons, ih _ (by omega), Nat.ceilDiv_eq_add_pred_div,
          Nat.ceilDiv_eq_add_pred_div, chunkOf, chunkClocks]
        split <;> omega

theorem waited_reloads (clocks : ℕ) :
    waited (reloads clocks) = clocks - clocks ⌈/⌉ 2 ^ 32 := by
  have hsum := waited_add_length (reloads clocks)
  rw [length_reloads, loadedClocks_reloads] at hsum
  omega

/-! ## The chunks one after another -/

/-- What a run of the chunks does. -/
structure ClocksRun (c : Counter) (clocks polls : ℕ) (run : Trace × Status × Counter) : Prop where
  result : run.2.1 = .ok ∨ run.2.1 = .errorTimeout
  loads_prefix : loads run.1 <+: reloads clocks
  loads_eq : run.2.1 = .ok → loads run.1 = reloads clocks
  reads_le : reads run.1 ≤ polls
  lasted : ∃ first last, c.now ≤ first ∧ (clocks ≠ 0 → startedAt run.1 = some first) ∧
    StopsAt run.1 last ∧ (run.2.1 = .ok → first + waited (reloads clocks) ≤ last)

/-- The three writes that start the timer. -/
theorem serve_start (gaps : ℕ → ℕ) (reload : UInt32) (c : Counter) :
    ∃ loaded armed started,
      (counter gaps).serve (start true reload) c =
        ([(c, .write .config configLoad), (loaded, .write .data reload),
          (armed, .write .config configRun)], .ok, started) ∧
      c.now ≤ armed.now ∧ started.Runs reload armed.now := by
  refine ⟨_, _, _, rfl, ?_, ?_⟩
  · exact (Nat.le_add_right _ _).trans (Nat.le_add_right _ _)
  · exact ⟨rfl, rfl, rfl, Nat.le_add_right _ _⟩

/-- The write that stops the timer. -/
theorem serve_stop (gaps : ℕ → ℕ) (c : Counter) :
    ∃ stopped, (counter gaps).serve (stop true) c =
      ([(c, .write .config configLoad)], .ok, stopped) :=
  ⟨_, rfl⟩

theorem delayClocks_run (gaps : ℕ → ℕ) (clocks polls : ℕ) (c : Counter) :
    ClocksRun c clocks polls ((counter gaps).serve (delayClocks true clocks polls) c) := by
  induction clocks using Nat.strong_induction_on generalizing polls c with
  | _ clocks ih =>
      have htimeout : Status.errorTimeout ≠ Status.ok := by decide
      by_cases hzero : clocks = 0
      · obtain ⟨stopped, hstop⟩ := serve_stop gaps c
        have hchunks : reloads clocks = [] := by rw [reloads, if_pos hzero]
        rw [delayClocks, if_pos hzero, hstop]
        refine ⟨.inl rfl, ?_, fun _ => hchunks.symm, Nat.zero_le _, c.now, c.now, le_rfl,
          fun h => absurd hzero h, ⟨[], c, rfl, rfl⟩, fun _ => ?_⟩
        · rw [hchunks]
          exact List.prefix_rfl
        · rw [hchunks]
          exact le_rfl
      · have hpos := chunkOf_pos hzero
        have hchunks : reloads clocks =
            reloadOf (chunkOf clocks) :: reloads (clocks - chunkOf clocks) := by
          rw [reloads, if_neg hzero]
        generalize hreload : reloadOf (chunkOf clocks) = reload at hchunks
        obtain ⟨loaded, armed, started, hstart, harmed, hruns⟩ := serve_start gaps reload c
        have hchunk := awaitChunk_run gaps polls reload started hruns
          ⟨0, Nat.zero_le _, (countdown_start _).symm⟩
        rw [delayClocks, if_neg hzero, hreload]
        simp only [Device.serve_bind, hstart]
        rw [if_neg (by decide)]
        simp only [Device.serve_bind]
        generalize (counter gaps).serve (awaitChunk true polls reload) started = chunk at hchunk
        rw [if_neg (not_not.mpr hchunk.status)]
        have hquiet : loads chunk.1 = [] := by rw [loads, hchunk.writes, List.filterMap_nil]
        have hreads := hchunk.reads_le
        have hloads : ∀ rest, loads ([(c, .write .config configLoad),
            (loaded, .write .data reload), (armed, .write .config configRun)] ++
              (chunk.1 ++ rest)) = reload :: loads rest := by
          intro rest
          rw [loads_append, loads_append, hquiet, List.nil_append]
          rfl
        have hcount : ∀ rest, reads ([(c, .write .config configLoad),
            (loaded, .write .data reload), (armed, .write .config configRun)] ++
              (chunk.1 ++ rest)) = reads chunk.1 + reads rest := by
          intro rest
          rw [reads_append, reads_append]
          exact Nat.zero_add _
        by_cases hcomplete : chunk.2.1.complete = false
        · obtain ⟨stopped, hstop⟩ := serve_stop gaps chunk.2.2
          rw [if_pos hcomplete]
          simp only [Device.serve_bind, hstop, Device.serve_pure]
          refine ⟨.inr rfl, ?_, fun h => absurd h htimeout, ?_, armed.now, chunk.2.2.now,
            harmed, fun _ => rfl, ?_, fun h => absurd h htimeout⟩
          · rw [hloads, hchunks]
            exact List.cons_prefix_cons.mpr ⟨rfl, List.nil_prefix⟩
          · rw [hcount]
            exact (Nat.le_add_right _ _).trans hreads
          · exact StopsAt.prepend (StopsAt.prepend ⟨[], _, rfl, rfl⟩ _) _
        · have hlasted := hchunk.lasted (Bool.not_eq_false _ ▸ hcomplete)
          have hrest := ih (clocks - chunkOf clocks) (by omega) chunk.2.1.pollsLeft chunk.2.2
          rw [if_neg hcomplete]
          generalize (counter gaps).serve
            (delayClocks true (clocks - chunkOf clocks) chunk.2.1.pollsLeft) chunk.2.2 = rest
            at hrest
          obtain ⟨first, last, hfirst, -, hstops, hwaited⟩ := hrest.lasted
          refine ⟨hrest.result, ?_, fun h => ?_, ?_, armed.now, last, harmed, fun _ => rfl,
            StopsAt.prepend (StopsAt.prepend hstops _) _, fun h => ?_⟩
          · rw [hloads, hchunks]
            exact List.cons_prefix_cons.mpr ⟨rfl, hrest.loads_prefix⟩
          · rw [hloads, hchunks, hrest.loads_eq h]
          · rw [hcount]
            have hle := hrest.reads_le
            omega
          · have hsum := hwaited h
            rw [hchunks, waited]
            omega

/-! ## The conversion -/

theorem ceilDiv_add_mul {a b u : ℕ} (hu : 0 < u) : (u * a + b) ⌈/⌉ u = a + b ⌈/⌉ u := by
  rw [Nat.ceilDiv_eq_add_pred_div, Nat.ceilDiv_eq_add_pred_div, Nat.add_assoc, Nat.add_sub_assoc
    (by omega), Nat.mul_add_div hu]

theorem ceilDiv_eq_div_add (n : ℕ) {u : ℕ} (hu : 0 < u) :
    n ⌈/⌉ u = n / u + if n % u ≠ 0 then 1 else 0 := by
  conv_lhs => rw [← Nat.div_add_mod n u, ceilDiv_add_mul hu]
  congr 1
  have hlt := Nat.mod_lt n hu
  rw [Nat.ceilDiv_eq_add_pred_div]
  split
  · rw [Nat.div_eq_of_lt_le] <;> omega
  · rename_i hzero
    rw [not_not.mp hzero]
    exact Nat.div_eq_of_lt (by omega)

/-- The conversion is exact: no product and no sum of it leaves a word. -/
theorem convertClocks_exact (clockHz duration unitsPerSecond : UInt32)
    (hunits : 0 < unitsPerSecond.toNat) :
    ∃ clocks, convertClocks clockHz duration unitsPerSecond = .ok clocks ∧
      clocks.toNat = (clockHz.toNat * duration.toNat) ⌈/⌉ unitsPerSecond.toNat := by
  have hclock := clockHz.toNat_lt
  have hduration := duration.toNat_lt
  have hone : (1 : UInt64).toNat = 1 := rfl
  have hmax : (0xffffffffffffffff : UInt64).toNat = 2 ^ 64 - 1 := by decide
  have hproduct : clockHz.toNat * duration.toNat ≤ (2 ^ 32 - 1) * (2 ^ 32 - 1) :=
    Nat.mul_le_mul (by omega) (by omega)
  have hsplit : clockHz.toNat * duration.toNat =
      unitsPerSecond.toNat * (clockHz.toNat / unitsPerSecond.toNat * duration.toNat) +
        clockHz.toNat % unitsPerSecond.toNat * duration.toNat := by
    conv_lhs => rw [← Nat.div_add_mod clockHz.toNat unitsPerSecond.toNat]
    ring
  have hceil : (clockHz.toNat * duration.toNat) ⌈/⌉ unitsPerSecond.toNat =
      clockHz.toNat / unitsPerSecond.toNat * duration.toNat +
        (clockHz.toNat % unitsPerSecond.toNat * duration.toNat) ⌈/⌉ unitsPerSecond.toNat := by
    conv_lhs => rw [hsplit, ceilDiv_add_mul hunits]
  have hsmall : (clockHz.toNat * duration.toNat) ⌈/⌉ unitsPerSecond.toNat ≤
      clockHz.toNat * duration.toNat :=
    (ceilDiv_le_iff_le_mul hunits).mpr (Nat.le_mul_of_pos_left _ hunits)
  have hwhole : ((clockHz / unitsPerSecond).toUInt64 * duration.toUInt64).toNat =
      clockHz.toNat / unitsPerSecond.toNat * duration.toNat := by
    rw [UInt64.toNat_mul, UInt32.toNat_toUInt64, UInt32.toNat_toUInt64, UInt32.toNat_div,
      Nat.mod_eq_of_lt (by omega)]
  have hfraction : ((clockHz % unitsPerSecond).toUInt64 * duration.toUInt64).toNat =
      clockHz.toNat % unitsPerSecond.toNat * duration.toNat := by
    have hle : clockHz.toNat % unitsPerSecond.toNat * duration.toNat ≤
        clockHz.toNat * duration.toNat := Nat.mul_le_mul_right _ (Nat.mod_le _ _)
    rw [UInt64.toNat_mul, UInt32.toNat_toUInt64, UInt32.toNat_toUInt64, UInt32.toNat_mod,
      Nat.mod_eq_of_lt (by omega)]
  rw [convertClocks]
  generalize (clockHz / unitsPerSecond).toUInt64 * duration.toUInt64 = whole at hwhole
  generalize (clockHz % unitsPerSecond).toUInt64 * duration.toUInt64 = fraction at hfraction
  rw [← hwhole, ← hfraction] at hceil
  have hdiv := ceilDiv_eq_div_add fraction.toNat hunits
  have hrounded : (fraction / unitsPerSecond.toUInt64 +
      if fraction % unitsPerSecond.toUInt64 ≠ 0 then 1 else 0).toNat =
      fraction.toNat ⌈/⌉ unitsPerSecond.toNat := by
    have hzero : fraction % unitsPerSecond.toUInt64 ≠ 0 ↔
        fraction.toNat % unitsPerSecond.toNat ≠ 0 := by
      rw [ne_eq, ← UInt64.toNat_inj, UInt64.toNat_mod, UInt32.toNat_toUInt64, UInt64.toNat_zero]
    rw [hdiv] at hceil ⊢
    rw [UInt64.toNat_add, UInt64.toNat_div, UInt32.toNat_toUInt64]
    by_cases hne : fraction.toNat % unitsPerSecond.toNat ≠ 0
    · rw [if_pos hne] at hceil
      rw [if_pos hne, if_pos (hzero.mpr hne), hone, Nat.mod_eq_of_lt (by omega)]
    · rw [if_neg hne] at hceil
      rw [if_neg hne, if_neg (mt hzero.mp hne), UInt64.toNat_zero, Nat.mod_eq_of_lt (by omega)]
  generalize (fraction / unitsPerSecond.toUInt64 +
    if fraction % unitsPerSecond.toUInt64 ≠ 0 then 1 else 0) = rounded at hrounded
  rw [← hrounded] at hceil
  have hlimit : ¬whole > 0xffffffffffffffff - rounded := by
    have hword := rounded.toNat_lt
    rw [gt_iff_lt, UInt64.lt_iff_toNat_lt, UInt64.toNat_sub_of_le, hmax]
    · omega
    · rw [UInt64.le_iff_toNat_le, hmax]
      omega
  refine ⟨whole + rounded, if_neg hlimit, ?_⟩
  rw [UInt64.toNat_add, hceil, Nat.mod_eq_of_lt (by omega)]

/-! ## Whole delays -/

/-- What a delay of `duration` units does. -/
structure DelayRun (unitsPerSecond clockHz duration pollLimit : UInt32)
    (run : Trace × Status × Counter) : Prop where
  /-- The conversion gives the clocks and no error. -/
  converts : ∃ clocks, convertClocks clockHz duration unitsPerSecond = .ok clocks ∧
    clocks.toNat = (clockHz.toNat * duration.toNat) ⌈/⌉ unitsPerSecond.toNat
  result : run.2.1 = .ok ∨ run.2.1 = .errorTimeout
  loads_ok : run.2.1 = .ok → loadedClocks (loads run.1) =
    (clockHz.toNat * duration.toNat) ⌈/⌉ unitsPerSecond.toNat
  loads_timeout : loads run.1 <+:
    reloads ((clockHz.toNat * duration.toNat) ⌈/⌉ unitsPerSecond.toNat)
  reads_le : reads run.1 ≤ pollLimit.toNat
  /-- The last write stops the timer, and a success comes after its ticks. -/
  lasted : ∃ first last, startedAt run.1 = some first ∧ StopsAt run.1 last ∧
    (run.2.1 = .ok → first + ((clockHz.toNat * duration.toNat) ⌈/⌉ unitsPerSecond.toNat -
      ((clockHz.toNat * duration.toNat) ⌈/⌉ unitsPerSecond.toNat) ⌈/⌉ (2 ^ 32 : ℕ)) ≤ last)

theorem delayUnits_run (gaps : ℕ → ℕ) (c : Counter)
    {unitsPerSecond clockHz duration pollLimit : UInt32} (hunits : 0 < unitsPerSecond.toNat)
    (hclock : 0 < clockHz) (hduration : 0 < duration) (hpoll : 0 < pollLimit) :
    DelayRun unitsPerSecond clockHz duration pollLimit
      ((counter gaps).serve (delayUnits unitsPerSecond true clockHz duration pollLimit) c) := by
  obtain ⟨clocks, hconvert, hvalue⟩ := convertClocks_exact clockHz duration unitsPerSecond hunits
  have hrun := delayClocks_run gaps clocks.toNat pollLimit.toNat c
  rw [UInt32.lt_iff_toNat_lt, UInt32.toNat_zero] at hclock hduration hpoll
  have hne : ∀ {x : UInt32}, 0 < x.toNat → x ≠ 0 := by
    rintro x hx rfl
    exact absurd hx (by decide)
  have hdelay : delayUnits unitsPerSecond true clockHz duration pollLimit =
      delayClocks true clocks.toNat pollLimit.toNat := by
    have hvalid : ¬(true = false ∨ clockHz = 0 ∨ pollLimit = 0) := by
      rintro (h | h | h)
      · exact Bool.false_ne_true h.symm
      · exact hne hclock h
      · exact hne hpoll h
    rw [delayUnits, if_neg (hne hduration), if_neg hvalid, hconvert]
  have hpositive : clocks.toNat ≠ 0 := by
    have hproduct : 0 < clockHz.toNat * duration.toNat := Nat.mul_pos hclock hduration
    rw [hvalue, ← Nat.pos_iff_ne_zero, ← not_le, ceilDiv_le_iff_le_mul hunits, Nat.mul_zero,
      not_le]
    exact hproduct
  obtain ⟨first, last, -, hfirst, hstops, hlasted⟩ := hrun.lasted
  rw [hdelay]
  refine ⟨⟨clocks, hconvert, hvalue⟩, hrun.result, fun h => ?_, ?_, hrun.reads_le,
    first, last, hfirst hpositive, hstops, fun h => ?_⟩
  · rw [hrun.loads_eq h, loadedClocks_reloads, hvalue]
  · rw [← hvalue]
    exact hrun.loads_prefix
  · rw [← hvalue, ← waited_reloads]
    exact hlasted h

/-- Every delay, whatever passes between its accesses. -/
theorem delay_runs (gaps : ℕ → ℕ) (c : Counter) (clockHz duration pollLimit : UInt32)
    (hclock : 0 < clockHz) (hduration : 0 < duration) (hpoll : 0 < pollLimit) :
    DelayRun 1000000 clockHz duration pollLimit
        ((counter gaps).serve (delayUs true clockHz duration pollLimit) c) ∧
      DelayRun 1000 clockHz duration pollLimit
        ((counter gaps).serve (delayMs true clockHz duration pollLimit) c) :=
  ⟨delayUnits_run gaps c (by decide) hclock hduration hpoll,
    delayUnits_run gaps c (by decide) hclock hduration hpoll⟩

theorem delay_runs_eight :
    DelayRun 1000000 1000000 8 2
      ((counter fun _ => 3).serve (delayUs true 1000000 8 2) ⟨0, 0, 0, 0, false⟩) :=
  (delay_runs (fun _ => 3) ⟨0, 0, 0, 0, false⟩ 1000000 8 2 (by decide) (by decide)
    (by decide)).1

/-- A delay that times out in its first chunk has not loaded the others. -/
theorem timeout_loads_less :
    ¬∀ (gaps : ℕ → ℕ) (c : Counter) (clockHz duration pollLimit : UInt32), 0 < clockHz →
      0 < duration → 0 < pollLimit →
        loadedClocks (loads ((counter gaps).serve (delayUs true clockHz duration pollLimit) c).1) =
          (clockHz.toNat * duration.toNat) ⌈/⌉ (1000000 : ℕ) := by
  intro h
  have hsum := h (fun _ => 0) ⟨0, 0, 0, 0, false⟩ 2000000 0xffffffff 1 (by decide) (by decide)
    (by decide)
  obtain ⟨clocks, hconvert, hvalue⟩ := convertClocks_exact 2000000 0xffffffff 1000000 (by decide)
  have hclocks : clocks.toNat = 8589934590 := hvalue.trans (by decide)
  have hdelay : delayUs true 2000000 0xffffffff 1 = delayClocks true clocks.toNat 1 := by
    rw [delayUs, delayUnits, if_neg (by decide), if_neg (by decide), clocksPerUs, hconvert]
    rfl
  have hchunk : reloadOf (chunkOf 8589934590) = 0xffffffff := by decide
  rw [hdelay, hclocks, delayClocks, if_neg (by decide), hchunk] at hsum
  revert hsum
  decide

end Xhive.C2.Timer
