import Xhive.Filters.Format

/-!
# Contexts, buffers and calls of a filter

The objects a filter call touches, the pointer checks that come before any
arithmetic, and the runs of calls on one context.
-/

namespace Xhive.Filters

open Xhive.Support Xhive.Linears

/-! ## Pointers -/

/-- An object in memory: its address and its size in bytes. -/
structure Extent where
  address : ℕ
  bytes : ℕ
  deriving DecidableEq, Repr

/-- An array behind a retained pointer. -/
structure Buffer (V : Type) where
  address : ℕ
  cells : ℕ → V

def Buffer.extent {V : Type} (buffer : Buffer V) (count size : ℕ) : Extent :=
  ⟨buffer.address, count * size⟩

/-- Store one element. -/
def Buffer.set {V : Type} (buffer : Buffer V) (index : ℕ) (value : V) : Buffer V :=
  { buffer with cells := Function.update buffer.cells index value }

@[simp] theorem Buffer.set_cells {V : Type} (buffer : Buffer V) (index : ℕ) (value : V) :
    (buffer.set index value).cells = Function.update buffer.cells index value := rfl

def filtersOverlap (a b : Extent) : Bool :=
  if a.bytes = 0 ∨ b.bytes = 0 then false
  else if a.address ≤ b.address then decide (b.address - a.address < a.bytes)
  else decide (a.address - b.address < b.bytes)

/-- The check shared by every step: context and output are given and apart. -/
def checkOutput (ctx output : Extent) : Except Status Unit :=
  if ctx.address = 0 ∨ output.address = 0 then .error .errorArgument
  else if filtersOverlap ctx output then .error .errorAlias
  else .ok ()

/-- The output against the arrays a context retains. -/
def checkRetained (output : Extent) (retained : List Extent) : Except Status Unit :=
  if retained.any (filtersOverlap output) then .error .errorAlias else .ok ()

/-- The pointer checks end in ARGUMENT or ALIAS only. -/
def PointerStatus (status : Status) : Prop :=
  status = .errorArgument ∨ status = .errorAlias

theorem checkOutput_error {ctx output : Extent} {status : Status}
    (h : checkOutput ctx output = .error status) : PointerStatus status := by
  rw [checkOutput] at h
  split at h
  · cases h
    exact Or.inl rfl
  · split at h
    · cases h
      exact Or.inr rfl
    · cases h

theorem checkRetained_error {output : Extent} {retained : List Extent} {status : Status}
    (h : checkRetained output retained = .error status) : PointerStatus status := by
  rw [checkRetained] at h
  split at h
  · cases h
    exact Or.inr rfl
  · cases h

/-- `array_size` on a platform whose `size_t` is wide or narrow. -/
def arraySize (wide : Bool) (count elementSize : ℕ) : Except Status ℕ :=
  if count = 0 then .error .errorArgument
  else if count > sizeMax wide / elementSize then .error .errorSize
  else .ok (count * elementSize)

theorem arraySize_eq_ok {wide : Bool} {count elementSize bytes : ℕ}
    (h : arraySize wide count elementSize = .ok bytes) :
    0 < count ∧ count ≤ sizeMax wide / elementSize := by
  rw [arraySize] at h
  split at h
  · cases h
  · split at h
    · cases h
    · omega

/-! ## One call -/

/-- What a step can read and write: the context with its retained arrays, the
scratch workspace, and the output cell. -/
structure Memory (C W Q : Type) where
  ctx : C
  scratch : W
  output : Q

namespace Memory

variable {C W Q : Type}

/-- The part of the memory that is not scratch. -/
def visible (m : Memory C W Q) : C × Q :=
  (m.ctx, m.output)

@[simp] theorem visible_fst (m : Memory C W Q) : m.visible.1 = m.ctx := rfl

@[simp] theorem visible_snd (m : Memory C W Q) : m.visible.2 = m.output := rfl

/-- `*output = result`. -/
def emit (result : Q) (m : Memory C W Q) : Memory C W Q :=
  { m with output := result }

/-- A store to the context or to an array it retains. -/
def mapCtx (f : C → C) (m : Memory C W Q) : Memory C W Q :=
  { m with ctx := f m.ctx }

/-- A store to the workspace. -/
def mapScratch (f : W → W) (m : Memory C W Q) : Memory C W Q :=
  { m with scratch := f m.scratch }

@[simp] theorem visible_emit (result : Q) (m : Memory C W Q) :
    (m.emit result).visible = (m.ctx, result) := rfl

@[simp] theorem visible_mapCtx (f : C → C) (m : Memory C W Q) :
    (m.mapCtx f).visible = (f m.ctx, m.output) := rfl

@[simp] theorem visible_mapScratch (f : W → W) (m : Memory C W Q) :
    (m.mapScratch f).visible = m.visible := rfl

end Memory

/-- `F_TRY` on a checked call of the numeric layer. -/
def call {σ V : Type} (result : Status × Option V) : Procedure Status σ V :=
  .attempt (checked result)

theorem call_bind_ok {σ V α : Type} {result : Status × Option V} {v : V}
    (h : checked result = .ok v) (f : V → Procedure Status σ α) (s : σ) :
    (call result >>= f) s = f v s :=
  Procedure.attempt_bind_ok h f s

/-! ## Outcomes of the checked calls -/

theorem ensures_mac (accumulator : Accum) (a b : Int64) :
    Ensures (checked (linearsFixedMac (some accumulator) a b))
      (fun next => Accum.Fits (accumulator.toInt + a.toInt * b.toInt) ∧
        next.toInt = accumulator.toInt + a.toInt * b.toInt)
      (fun status => status = .errorRange ∧
        ¬Accum.Fits (accumulator.toInt + a.toInt * b.toInt)) := by
  rcases (AccumCall.mac a b).apply_cases accumulator with ⟨hfits, next, heq, hnext⟩ | ⟨hfits, heq⟩
  · change linearsFixedMac (some accumulator) a b = _ at heq
    rw [heq]
    exact ⟨hfits, hnext⟩
  · change linearsFixedMac (some accumulator) a b = _ at heq
    rw [heq]
    exact ⟨rfl, hfits⟩

theorem ensures_msu (accumulator : Accum) (a b : Int64) :
    Ensures (checked (linearsFixedMsu (some accumulator) a b))
      (fun next => Accum.Fits (accumulator.toInt - a.toInt * b.toInt) ∧
        next.toInt = accumulator.toInt - a.toInt * b.toInt)
      (fun status => status = .errorRange ∧
        ¬Accum.Fits (accumulator.toInt - a.toInt * b.toInt)) := by
  rcases (AccumCall.msu a b).apply_cases accumulator with ⟨hfits, next, heq, hnext⟩ | ⟨hfits, heq⟩
  · change linearsFixedMsu (some accumulator) a b = _ at heq
    rw [heq]
    exact ⟨hfits, hnext⟩
  · change linearsFixedMsu (some accumulator) a b = _ at heq
    rw [heq]
    exact ⟨rfl, hfits⟩

theorem ensures_accumToQ {Q : Type} [FilterFormat Q] (value : Accum) (old : Q) :
    Ensures (checked (linearsAccumToQ value (some old)))
      (fun stored => |value.toInt| ≤ 2 ^ 62 ∧ (QFormat.widen stored).toInt =
        quantizedCode (QFormat.qBits Q).toNat value.toInt)
      (fun status => status = .errorRange ∧ 2 ^ 62 < |value.toInt|) := by
  rcases linearsAccumToQ_eq value old with ⟨hrange, stored, heq, hstored⟩ | ⟨hrange, heq⟩
  · rw [heq]
    exact ⟨hrange, hstored⟩
  · rw [heq]
    exact ⟨rfl, hrange⟩

theorem ensures_accumToFixed (value : Accum) :
    Ensures (checked (linearsAccumToFixed value (some 0)))
      (fun stored => stored.toInt = roundAway ((value.toInt : ℚ) / 2 ^ 31))
      (fun status => status = .errorRange ∧
        ¬FitsInt64 (roundAway ((value.toInt : ℚ) / 2 ^ 31))) := by
  rw [linearsAccumToFixed_eq, checked_checkedCall, fixedResult]
  split
  · exact toInt_ofInt_of_fits ‹_›
  · exact ⟨rfl, ‹_›⟩

/-! ## Runs on one context -/

/-- A filter: init builds a context, reset and set are controls on it, and a
step gets its input and the address of its output cell. -/
structure Filter (Q : Type) where
  Context : Type
  Scratch : Type
  Arguments : Type
  Control : Type
  Input : Type
  init : Arguments → Except Status Context
  control : Control → Context → Except Status Context
  step : Input → ℕ → Procedure Status (Memory Context Scratch Q) Unit

/-- A call on a filter. -/
inductive Call (Arguments Control Input Q : Type) where
  | init (arguments : Arguments)
  | control (request : Control)
  /-- A step, with the address and the content of the output cell given to it. -/
  | step (input : Input) (output : ℕ) (cell : Q)

/-- What the caller sees of a call that is not a failing step. -/
inductive Observation (Q : Type) where
  | status (status : Status)
  | output (value : Q)
  deriving DecidableEq, Repr

/-- What init, reset and set do to the caller's context: each of them builds the
new one first and stores it last. -/
def commit {C : Type} (result : Except Status C) (old : C) : Status × C :=
  match result with
  | .ok ctx => (.ok, ctx)
  | .error status => (status, old)

namespace Filter

variable {Q : Type} (F : Filter Q)

abbrev Request : Type :=
  Call F.Arguments F.Control F.Input Q

/-- One call on the context and the scratch workspace. -/
def perform : F.Request → F.Context × F.Scratch →
    Except Status (Observation Q) × (F.Context × F.Scratch)
  | .init arguments, s =>
      (.ok (.status (commit (F.init arguments) s.1).1), (commit (F.init arguments) s.1).2, s.2)
  | .control request, s =>
      (.ok (.status (commit (F.control request s.1) s.1).1),
        (commit (F.control request s.1) s.1).2, s.2)
  | .step input output cell, s =>
      match F.step input output ⟨s.1, s.2, cell⟩ with
      | (.ok (), m) => (.ok (.output m.output), (m.ctx, m.scratch))
      | (.error status, m) => (.error status, (m.ctx, m.scratch))

/-- The filter as a service whose failing calls are the failing steps. -/
def service : Service Status F.Context F.Scratch (Observation Q) F.Request where
  perform := F.perform

/-- A context that a successful init and any further calls have led to. -/
inductive Reachable : F.Context → Prop where
  | init {arguments : F.Arguments} {ctx : F.Context} (h : F.init arguments = .ok ctx) :
      Reachable ctx
  | call {ctx : F.Context} (request : F.Request) (scratch : F.Scratch) (h : Reachable ctx) :
      Reachable (F.perform request (ctx, scratch)).2.1

/-- From every reachable context: a failing step leaves context and output as
they were, and the failing steps of a run can be deleted from it, whatever is
in the scratch workspace. -/
def AllOrNothing : Prop :=
  ∀ ctx, F.Reachable ctx →
    (∀ input output scratch cell status m',
      F.step input output ⟨ctx, scratch, cell⟩ = (.error status, m') →
        m'.ctx = ctx ∧ m'.output = cell) ∧
    ∀ scratch scratch' calls,
      F.service.outputs (ctx, scratch') (F.service.succeeding (ctx, scratch) calls) =
          F.service.outputs (ctx, scratch) calls ∧
        (F.service.final (ctx, scratch') (F.service.succeeding (ctx, scratch) calls)).1 =
          (F.service.final (ctx, scratch) calls).1

/-- A property of contexts that every call keeps, and relative to which steps
are transactions. -/
structure Safe (inv : F.Context → Prop) : Prop where
  init : ∀ arguments ctx, F.init arguments = .ok ctx → inv ctx
  control : ∀ request ctx ctx', inv ctx → F.control request ctx = .ok ctx' → inv ctx'
  step : ∀ input output,
    (F.step input output).Transaction Memory.visible fun v => inv v.1

variable {F} {inv : F.Context → Prop}

theorem commit_inv {C : Type} {inv : C → Prop} {result : Except Status C} {old : C}
    (hold : inv old) (hnew : ∀ ctx, result = .ok ctx → inv ctx) :
    inv (commit result old).2 := by
  cases h : result with
  | ok ctx => exact hnew ctx h
  | error status => exact hold

/-- One step call, in terms of the memory its procedure leaves. -/
theorem perform_step (input : F.Input) (output : ℕ) (cell : Q) (s : F.Context × F.Scratch) :
    (F.perform (.step input output cell) s).1 =
        (F.step input output ⟨s.1, s.2, cell⟩).1.map
          (fun _ => .output (F.step input output ⟨s.1, s.2, cell⟩).2.output) ∧
      (F.perform (.step input output cell) s).2.1 =
        (F.step input output ⟨s.1, s.2, cell⟩).2.ctx := by
  rw [perform]
  rcases F.step input output ⟨s.1, s.2, cell⟩ with ⟨_ | _, m⟩ <;> exact ⟨rfl, rfl⟩

theorem Safe.transactional (h : F.Safe inv) : F.service.Transactional inv where
  preserved request s hs := by
    cases request with
    | init arguments => exact commit_inv hs (h.init arguments)
    | control request => exact commit_inv hs fun ctx => h.control request s.1 ctx hs
    | step input output cell =>
        change inv (F.perform _ _).2.1
        rw [(perform_step input output cell s).2]
        exact (h.step input output).preserved (show inv (Memory.visible ⟨s.1, s.2, cell⟩).1 from hs)
  atomic request s e hs hcall := by
    cases request with
    | init arguments => cases hcall
    | control request => cases hcall
    | step input output cell =>
        change (F.perform _ _).1 = _ at hcall
        change (F.perform _ _).2.1 = _
        rw [(perform_step input output cell s).1] at hcall
        rw [(perform_step input output cell s).2]
        rcases hstep : F.step input output ⟨s.1, s.2, cell⟩ with ⟨_ | _, m⟩
        · exact congrArg Prod.fst ((h.step input output).error_view
            (s := ⟨s.1, s.2, cell⟩) hs hstep)
        · rw [hstep] at hcall
          cases hcall
  oblivious request s t hs hst := by
    cases request with
    | init arguments =>
        change _ = (F.perform _ _).1 ∧ _ = (F.perform _ _).2.1
        rw [perform, ← hst]
        exact ⟨rfl, rfl⟩
    | control request =>
        change _ = (F.perform _ _).1 ∧ _ = (F.perform _ _).2.1
        rw [perform, ← hst]
        exact ⟨rfl, rfl⟩
    | step input output cell =>
        change (F.perform _ _).1 = (F.perform _ _).1 ∧
          (F.perform _ _).2.1 = (F.perform _ _).2.1
        obtain ⟨hout, hview⟩ := (h.step input output).outcome_eq
          (s := ⟨s.1, s.2, cell⟩) (t := ⟨t.1, t.2, cell⟩) hs (by
            rw [Memory.visible, Memory.visible, hst])
        have hctx := congrArg Prod.fst hview
        have hcell := congrArg Prod.snd hview
        rw [Memory.visible_snd, Memory.visible_snd] at hcell
        rw [(perform_step input output cell s).1, (perform_step input output cell t).1,
          (perform_step input output cell s).2, (perform_step input output cell t).2, hout, hcell]
        exact ⟨rfl, hctx⟩

theorem Safe.reachable (h : F.Safe inv) {ctx : F.Context} (hctx : F.Reachable ctx) : inv ctx := by
  induction hctx with
  | init hinit => exact h.init _ _ hinit
  | call request scratch _ ih => exact h.transactional.preserved request (_, scratch) ih

theorem Safe.allOrNothing (h : F.Safe inv) : F.AllOrNothing := by
  intro ctx hctx
  have hinv := h.reachable hctx
  constructor
  · intro input output scratch cell status m' hstep
    have hview := (h.step input output).error_view (s := ⟨ctx, scratch, cell⟩) hinv hstep
    exact ⟨congrArg Prod.fst hview, congrArg Prod.snd hview⟩
  · intro scratch scratch' calls
    exact h.transactional.run_succeeding calls _ _ hinv rfl

/-! ### Runs with a history -/

/-- The runs of a filter whose only control is reset, with the inputs of the
steps that succeeded since the last reset, newest first. -/
inductive HistoryRun (F : Filter Q) (arguments : F.Arguments) : F.Context → List F.Input → Prop where
  | init {ctx} (h : F.init arguments = .ok ctx) : HistoryRun F arguments ctx []
  | reset {ctx ctx' history request} (hrun : HistoryRun F arguments ctx history)
      (h : F.control request ctx = .ok ctx') : HistoryRun F arguments ctx' []
  | accepted {ctx history input output scratch cell m} (hrun : HistoryRun F arguments ctx history)
      (h : F.step input output ⟨ctx, scratch, cell⟩ = (.ok (), m)) :
      HistoryRun F arguments m.ctx (input :: history)
  | rejected {ctx history input output scratch cell status m}
      (hrun : HistoryRun F arguments ctx history)
      (h : F.step input output ⟨ctx, scratch, cell⟩ = (.error status, m)) :
      HistoryRun F arguments m.ctx history

/-- Invariant rule: a rejected step needs no argument of its own. -/
theorem HistoryRun.invariant {arguments : F.Arguments} (hsafe : F.Safe inv)
    (Inv : F.Context → List F.Input → Prop)
    (hinit : ∀ ctx, F.init arguments = .ok ctx → Inv ctx [])
    (hreset : ∀ request ctx ctx' history, Inv ctx history → F.control request ctx = .ok ctx' →
      Inv ctx' [])
    (haccepted : ∀ input output m m' history, Inv m.ctx history →
      F.step input output m = (.ok (), m') → Inv m'.ctx (input :: history))
    {ctx : F.Context} {history : List F.Input} (hrun : HistoryRun F arguments ctx history) :
    Inv ctx history := by
  suffices h : inv ctx ∧ Inv ctx history from h.2
  induction hrun with
  | init h => exact ⟨hsafe.init _ _ h, hinit _ h⟩
  | reset _ h ih => exact ⟨hsafe.control _ _ _ ih.1 h, hreset _ _ _ _ ih.2 h⟩
  | @accepted ctx history input output scratch cell m _ h ih =>
      have hpreserved := (hsafe.step input output).preserved (s := ⟨ctx, scratch, cell⟩) ih.1
      rw [h] at hpreserved
      exact ⟨hpreserved, haccepted input output ⟨ctx, scratch, cell⟩ m history ih.2 h⟩
  | @rejected ctx history input output scratch cell status m _ h ih =>
      have hview := (hsafe.step input output).error_view (s := ⟨ctx, scratch, cell⟩) ih.1 h
      have hctx : m.ctx = ctx := congrArg Prod.fst hview
      rw [hctx]
      exact ih

end Filter

end Xhive.Filters
