import Xhive.Filters.Transactions
import Xhive.Support.Traces

/-!
# The biquad cascade as a chain of single sections

The one-section filters on the slices of the cascade's arrays, each fed with the
narrowed output of the one before it.  A chain whose every section succeeds does
what the cascade does, and a chain that fails leaves all of its sections alone.
-/

namespace Xhive.Filters

open Xhive.Support Xhive.Linears Procedure

variable {Q : Type} [FilterFormat Q]

/-! ## Slices -/

/-- The cells of one section in an array with `width` cells a section. -/
def Buffer.slice (buffer : Buffer Int64) (width size i : ℕ) : Buffer Int64 :=
  ⟨buffer.address + width * size * i,
    fun j => if j < width then buffer.cells (width * i + j) else 0⟩

/-- The coefficients from a section on. -/
def coefficientSlice (buffer : Buffer BiquadCoefficients) (i : ℕ) : Buffer BiquadCoefficients :=
  ⟨buffer.address + 40 * i, fun j => buffer.cells (i + j)⟩

/-- The filter of section `i` alone. -/
def BiquadContext.slice (ctx : BiquadContext) (i : ℕ) : BiquadContext where
  coefficients := coefficientSlice ctx.coefficients i
  state := ctx.state.slice 2 8 i
  workspaceAddress := ctx.workspaceAddress + 16 * i
  sections := 1

def BiquadContext.slices (ctx : BiquadContext) : List BiquadContext :=
  (List.range ctx.sections).map ctx.slice

/-- The arguments that build the filter of section `i` alone. -/
def BiquadArguments.slice (arguments : BiquadArguments) (i : ℕ) : BiquadArguments where
  coefficients := coefficientSlice arguments.coefficients i
  sections := 1
  state := arguments.state.slice 2 8 i
  stateCapacity := 2
  workspaceAddress := arguments.workspaceAddress + 16 * i
  workspaceCapacity := 2

/-! ## The chain -/

/-- The sections of a chain in turn; every one of them finds the same workspace
and output cell.  `none` where one fails. -/
def chainStep (self : Extent) (output : ℕ) (workspace : ℕ → Int64) (cell : Q) :
    List BiquadContext → Q → Option (Q × List BiquadContext)
  | [], sample => some (sample, [])
  | ctx :: rest, sample =>
      match biquadStep self sample output ⟨ctx, workspace, cell⟩ with
      | (.ok (), m) =>
          (chainStep self output workspace cell rest m.output).map fun last =>
            (last.1, m.ctx :: last.2)
      | (.error _, _) => none

/-- A call on a cascade or on a chain. -/
inductive CascadeCall (Q : Type) where
  /-- A step, with the address and the content of the output cell given to it. -/
  | step (input : Q) (output : ℕ) (cell : Q)
  | reset

/-- The cascade as a machine; a failing step has no answer. -/
def cascadeMachine (Q : Type) [FilterFormat Q] (wide : Bool) (self : Extent) :
    Machine (CascadeCall Q) (Option (Observation Q)) (BiquadContext × (ℕ → Int64)) where
  react call s :=
    let request : (biquadFilter Q wide self).Request := match call with
      | .step input output cell => .step input output cell
      | .reset => .control ()
    (((biquadFilter Q wide self).perform request s).1.toOption,
      ((biquadFilter Q wide self).perform request s).2)

/-- The chain as a machine: a step advances all of its sections or none. -/
def chainMachine (Q : Type) [FilterFormat Q] (self : Extent) (workspace : ℕ → Int64) :
    Machine (CascadeCall Q) (Option (Observation Q)) (List BiquadContext) where
  react call sections :=
    match call with
    | .step input output cell =>
        match chainStep self output workspace cell sections input with
        | some (result, next) => (some (.output result), next)
        | none => (none, sections)
    | .reset =>
        match sections.mapM (biquadReset self) with
        | .ok next => (some (.status .ok), next)
        | .error status => (some (.status status), sections)

/-! ## Pointers of the slices -/

theorem filtersOverlap_iff (a b : Extent) :
    filtersOverlap a b = true ↔
      0 < a.bytes ∧ 0 < b.bytes ∧ a.address < b.address + b.bytes ∧
        b.address < a.address + a.bytes := by
  rw [filtersOverlap]
  split_ifs with hempty hle
  · simp only [false_iff]
    omega
  · rw [decide_eq_true_iff]
    omega
  · rw [decide_eq_true_iff]
    omega

/-- An object overlaps an array exactly when it overlaps one of its elements. -/
theorem filtersOverlap_slices (output : Extent) (address size count : ℕ) :
    filtersOverlap output ⟨address, count * size⟩ = true ↔
      ∃ i < count, filtersOverlap output ⟨address + size * i, size⟩ = true := by
  simp only [filtersOverlap_iff]
  constructor
  · rintro ⟨hbytes, harray, hbefore, hafter⟩
    have hcount : 0 < count := Nat.pos_of_mul_pos_right harray
    have hsize : 0 < size := Nat.pos_of_mul_pos_left harray
    rcases le_or_gt output.address address with hle | hgt
    · exact ⟨0, hcount, hbytes, hsize, by omega, by omega⟩
    · have hquotient := Nat.div_add_mod (output.address - address) size
      have hremainder := Nat.mod_lt (output.address - address) hsize
      refine ⟨(output.address - address) / size, ?_, hbytes, hsize, by omega, by omega⟩
      rw [Nat.div_lt_iff_lt_mul hsize]
      omega
  · rintro ⟨i, hi, hbytes, hsize, hbefore, hafter⟩
    have hend : size * (i + 1) ≤ count * size := by
      rw [mul_comm count]
      exact Nat.mul_le_mul_left size hi
    rw [Nat.mul_succ] at hend
    exact ⟨hbytes, by omega, by omega, by omega⟩

/-- The arrays that a context retains. -/
def BiquadContext.retained (ctx : BiquadContext) : List Extent :=
  [ctx.state.extent (2 * ctx.sections) 8, ⟨ctx.workspaceAddress, 2 * ctx.sections * 8⟩,
    ctx.coefficients.extent ctx.sections 40]

/-- The output cell passes the checks of a step. -/
def Accepts (self output : Extent) (ctx : BiquadContext) : Prop :=
  checkOutput self output = .ok () ∧ checkRetained output ctx.retained = .ok ()

theorem checkRetained_ok_iff (output : Extent) (retained : List Extent) :
    checkRetained output retained = .ok () ↔
      ∀ extent ∈ retained, ¬filtersOverlap output extent = true := by
  rw [checkRetained]
  by_cases h : retained.any (filtersOverlap output) = true
  · rw [if_pos h]
    obtain ⟨extent, hmem, hoverlap⟩ := List.any_eq_true.mp h
    exact ⟨fun heq => absurd heq (by simp), fun hall => absurd hoverlap (hall extent hmem)⟩
  · rw [if_neg h]
    exact ⟨fun _ extent hmem hoverlap => h (List.any_eq_true.mpr ⟨extent, hmem, hoverlap⟩),
      fun _ => rfl⟩

/-- The checks of a cascade are those of its sections. -/
theorem accepts_slices {self output : Extent} {ctx : BiquadContext} (hpos : 0 < ctx.sections) :
    Accepts self output ctx ↔ ∀ i < ctx.sections, Accepts self output (ctx.slice i) := by
  have hretained : ∀ c : BiquadContext, checkRetained output c.retained = .ok () ↔
      ¬filtersOverlap output ⟨c.state.address, 2 * c.sections * 8⟩ = true ∧
        ¬filtersOverlap output ⟨c.workspaceAddress, 2 * c.sections * 8⟩ = true ∧
        ¬filtersOverlap output ⟨c.coefficients.address, c.sections * 40⟩ = true := by
    intro c
    rw [checkRetained_ok_iff]
    simp [BiquadContext.retained, Buffer.extent]
  have hslices : ∀ address size,
      ¬filtersOverlap output ⟨address, ctx.sections * size⟩ = true ↔
        ∀ i < ctx.sections, ¬filtersOverlap output ⟨address + size * i, size⟩ = true := by
    intro address size
    rw [filtersOverlap_slices]
    exact ⟨fun h i hi hoverlap => h ⟨i, hi, hoverlap⟩, fun h ⟨i, hi, hoverlap⟩ => h i hi hoverlap⟩
  have hsections : 2 * ctx.sections * 8 = ctx.sections * 16 := by omega
  have hwhole : checkRetained output ctx.retained = .ok () ↔
      ∀ i < ctx.sections, checkRetained output (ctx.slice i).retained = .ok () := by
    rw [hretained, hsections, hslices, hslices, hslices]
    exact ⟨fun h i hi => (hretained _).mpr ⟨h.1 i hi, h.2.1 i hi, h.2.2 i hi⟩,
      fun h => ⟨fun i hi => ((hretained _).mp (h i hi)).1,
        fun i hi => ((hretained _).mp (h i hi)).2.1,
        fun i hi => ((hretained _).mp (h i hi)).2.2⟩⟩
  constructor
  · exact fun h i hi => ⟨h.1, hwhole.mp h.2 i hi⟩
  · exact fun h => ⟨(h 0 hpos).1, hwhole.mpr fun i hi => (h i hi).2⟩

/-! ## One section -/

/-- A section stages its two next states. -/
def staged (i : ℕ) (next1 next2 : Int64) (m : Memory BiquadContext (ℕ → Int64) Q) :
    Memory BiquadContext (ℕ → Int64) Q :=
  (m.mapScratch fun workspace => Function.update workspace (2 * i) next1).mapScratch
    fun workspace => Function.update workspace (2 * i + 1) next2

omit [FilterFormat Q] in
theorem staged_scratch (i : ℕ) (next1 next2 : Int64) (m : Memory BiquadContext (ℕ → Int64) Q)
    (j : ℕ) :
    (staged i next1 next2 m).scratch j =
      if j = 2 * i + 1 then next2 else if j = 2 * i then next1 else m.scratch j := by
  show Function.update (Function.update m.scratch (2 * i) next1) (2 * i + 1) next2 j = _
  rw [Function.update_apply, Function.update_apply]

/-- What a section computes from the state of the cascade. -/
def sectionArithmetic (ctx : BiquadContext) (i : ℕ) (sample : Int64) :
    Except Status (Q × Int64 × Int64) :=
  biquadArithmetic (ctx.coefficients.cells i) sample (ctx.state.cells (2 * i))
    (ctx.state.cells (2 * i + 1))

theorem biquadSection_ok {i : ℕ} {carried : Int64 × Q} {m : Memory BiquadContext (ℕ → Int64) Q}
    {result : Q} {next1 next2 : Int64}
    (h : sectionArithmetic m.ctx i carried.1 = .ok (result, next1, next2)) :
    biquadSection i carried m =
      (.ok (FilterFormat.load result, result), staged i next1 next2 m) := by
  rw [sectionArithmetic] at h
  rw [biquadSection, read_bind, read_bind, read_bind, attempt_bind_ok h]
  rfl

theorem biquadSection_error {i : ℕ} {carried : Int64 × Q}
    {m : Memory BiquadContext (ℕ → Int64) Q} {status : Status}
    (h : (sectionArithmetic m.ctx i carried.1 : Except Status (Q × Int64 × Int64)) =
      .error status) :
    biquadSection i carried m = (.error status, m) := by
  rw [sectionArithmetic] at h
  rw [biquadSection, read_bind, read_bind, read_bind, h]
  rfl

/-- The filter of section `i` with the staged states of a workspace. -/
def BiquadContext.advanced (ctx : BiquadContext) (workspace : ℕ → Int64) (i : ℕ) :
    BiquadContext :=
  { ctx.slice i with
    state := ⟨(ctx.slice i).state.address, fun j => if j < 2 then workspace (2 * i + j) else 0⟩ }

theorem sectionArithmetic_slice (ctx : BiquadContext) (i : ℕ) (sample : Int64) :
    (sectionArithmetic (ctx.slice i) 0 sample : Except Status (Q × Int64 × Int64)) =
      sectionArithmetic ctx i sample := rfl

section Slice

variable {self : Extent} {output : ℕ} {ctx : BiquadContext} {i : ℕ} {sample cell : Q}
  {workspace : ℕ → Int64}

theorem biquadStep_rejected
    (h : ¬Accepts self ⟨output, FilterFormat.scalarBytes Q⟩ ctx) :
    ∃ status, biquadStep self sample output ⟨ctx, workspace, cell⟩ =
      (.error status, ⟨ctx, workspace, cell⟩) := by
  rw [biquadStep]
  cases houtput : checkOutput self ⟨output, FilterFormat.scalarBytes Q⟩ with
  | error status => exact ⟨status, rfl⟩
  | ok u =>
      rw [attempt_bind_ok rfl, read_bind]
      cases hretained : checkRetained ⟨output, FilterFormat.scalarBytes Q⟩ ctx.retained with
      | error status => exact ⟨status, bind_error (by rw [← hretained]; rfl)⟩
      | ok u' => exact absurd ⟨houtput, hretained⟩ h

/-- An accepted step is its loop, and the commit after it. -/
theorem biquadStep_accepted
    (h : Accepts self ⟨output, FilterFormat.scalarBytes Q⟩ ctx) :
    biquadStep self sample output ⟨ctx, workspace, cell⟩ =
      (do
        let last ← Procedure.repeatFrom biquadSection (max 1 ctx.sections) 0
          (FilterFormat.load sample, FilterFormat.zero)
        Procedure.write biquadCommit
        Procedure.write (Memory.emit last.2)) ⟨ctx, workspace, cell⟩ := by
  rw [biquadStep, attempt_bind_ok h.1, read_bind]
  exact attempt_bind_ok h.2 _ _

theorem biquadStep_slice_error {status : Status}
    (haccepts : Accepts self ⟨output, FilterFormat.scalarBytes Q⟩ (ctx.slice i))
    (h : (sectionArithmetic ctx i (FilterFormat.load sample) :
      Except Status (Q × Int64 × Int64)) = .error status) :
    biquadStep self sample output ⟨ctx.slice i, workspace, cell⟩ =
      (.error status, ⟨ctx.slice i, workspace, cell⟩) := by
  have hsection := @biquadSection_error Q _ 0 (FilterFormat.load sample, FilterFormat.zero)
    ⟨ctx.slice i, workspace, cell⟩ status h
  rw [biquadStep_accepted haccepts]
  exact bind_error (bind_error hsection)

theorem biquadStep_slice_ok {result : Q} {next1 next2 : Int64}
    (haccepts : Accepts self ⟨output, FilterFormat.scalarBytes Q⟩ (ctx.slice i))
    (h : sectionArithmetic ctx i (FilterFormat.load sample) = .ok (result, next1, next2)) :
    ∃ m, biquadStep self sample output ⟨ctx.slice i, workspace, cell⟩ = (.ok (), m) ∧
      m.output = result ∧
      ∀ after : ℕ → Int64, after (2 * i) = next1 → after (2 * i + 1) = next2 →
        m.ctx = ctx.advanced after i := by
  have hsection := @biquadSection_ok Q _ 0 (FilterFormat.load sample, FilterFormat.zero)
    ⟨ctx.slice i, workspace, cell⟩ result next1 next2 h
  have hloop : Procedure.repeatFrom biquadSection (max 1 (ctx.slice i).sections) 0
      (FilterFormat.load sample, FilterFormat.zero) ⟨ctx.slice i, workspace, cell⟩ =
        (.ok (FilterFormat.load result, result),
          staged 0 next1 next2 ⟨ctx.slice i, workspace, cell⟩) := by
    show (biquadSection 0 (FilterFormat.load sample, FilterFormat.zero) >>= fun b => pure b) _ = _
    exact bind_ok hsection
  rw [biquadStep_accepted haccepts]
  refine ⟨(biquadCommit (staged 0 next1 next2 ⟨ctx.slice i, workspace, cell⟩)).emit result,
    bind_ok hloop, rfl, ?_⟩
  intro after hfirst hsecond
  have hcells : (fun j => if j < 2 then
      (staged 0 next1 next2 ⟨ctx.slice i, workspace, cell⟩).scratch j
        else (ctx.slice i).state.cells j) =
      fun j => if j < 2 then after (2 * i + j) else 0 := by
    funext j
    by_cases hj : j < 2
    · rw [if_pos hj, if_pos hj]
      obtain rfl | rfl : j = 0 ∨ j = 1 := by omega
      · exact hfirst.symm
      · exact hsecond.symm
    · rw [if_neg hj, if_neg hj]
      exact if_neg hj
  show { ctx.slice i with state := ⟨(ctx.slice i).state.address, fun j => if j < 2 then
      (staged 0 next1 next2 ⟨ctx.slice i, workspace, cell⟩).scratch j
        else (ctx.slice i).state.cells j⟩ } = ctx.advanced after i
  rw [hcells]
  rfl

end Slice

/-! ## The loop over the sections -/

/-- The loop of a cascade and the chain of the slices from section `i` on. -/
theorem chainStep_slices {self : Extent} {output : ℕ} {ctx : BiquadContext} {cell : Q}
    {workspace : ℕ → Int64} (count i : ℕ) (sample : Q)
    (m : Memory BiquadContext (ℕ → Int64) Q) (hm : m.ctx = ctx) :
    match chainStep self output workspace cell ((List.range' i count).map ctx.slice) sample with
    | some (result, next) =>
        (∀ k, i ≤ k → k < i + count →
          Accepts self ⟨output, FilterFormat.scalarBytes Q⟩ (ctx.slice k)) ∧
        ∃ m', Procedure.repeatFrom biquadSection count i (FilterFormat.load sample, sample) m =
            (.ok (FilterFormat.load result, result), m') ∧ m'.ctx = ctx ∧
          (∀ j < 2 * i, m'.scratch j = m.scratch j) ∧
          next = (List.range' i count).map (ctx.advanced m'.scratch)
    | none =>
        (∀ k, i ≤ k → k < i + count →
          Accepts self ⟨output, FilterFormat.scalarBytes Q⟩ (ctx.slice k)) →
        ∃ status m', Procedure.repeatFrom biquadSection count i
          (FilterFormat.load sample, sample) m = (.error status, m') := by
  induction count generalizing i sample m with
  | zero =>
      exact ⟨fun k hik hk => absurd hk (by omega), m, rfl, hm, fun _ _ => rfl, rfl⟩
  | succ count ih =>
      rw [List.range'_succ, List.map_cons, chainStep]
      by_cases haccepts : Accepts self ⟨output, FilterFormat.scalarBytes Q⟩ (ctx.slice i)
      · cases harithmetic : (sectionArithmetic ctx i (FilterFormat.load sample) :
          Except Status (Q × Int64 × Int64)) with
        | error status =>
            rw [biquadStep_slice_error haccepts harithmetic]
            refine fun _ => ⟨status, m, ?_⟩
            rw [Procedure.repeatFrom]
            exact bind_error (biquadSection_error (hm.symm ▸ harithmetic))
        | ok computed =>
            obtain ⟨result, next1, next2⟩ := computed
            obtain ⟨m₁, hstep, houtput, hctx⟩ :=
              @biquadStep_slice_ok Q _ self output ctx i sample cell workspace result next1 next2
                haccepts harithmetic
            have hsection : biquadSection i (FilterFormat.load sample, sample) m =
                (.ok (FilterFormat.load result, result), staged i next1 next2 m) :=
              biquadSection_ok (hm.symm ▸ harithmetic)
            have hloop : Procedure.repeatFrom biquadSection (count + 1) i
                (FilterFormat.load sample, sample) m =
                Procedure.repeatFrom biquadSection count (i + 1)
                  (FilterFormat.load result, result) (staged i next1 next2 m) := by
              rw [Procedure.repeatFrom]
              exact bind_ok hsection
            have hrest := ih (i + 1) result (staged i next1 next2 m) hm
            rw [hstep, hloop]
            dsimp only
            rw [houtput]
            cases hchain : chainStep self output workspace cell
                ((List.range' (i + 1) count).map ctx.slice) result with
            | none =>
                rw [hchain] at hrest
                exact fun hall => hrest fun k hik hk => hall k (by omega) (by omega)
            | some last =>
                rw [hchain] at hrest
                obtain ⟨final, next⟩ := last
                obtain ⟨hall, m', hrun, hctx', hframe, hnext⟩ := hrest
                refine ⟨fun k hik hk => ?_, m', hrun, hctx', fun j hj => ?_, ?_⟩
                · rcases Nat.eq_or_lt_of_le hik with rfl | hlt
                  · exact haccepts
                  · exact hall k hlt (by omega)
                · rw [hframe j (by omega), staged_scratch, if_neg (by omega), if_neg (by omega)]
                · have hfirst : m'.scratch (2 * i) = next1 := by
                    rw [hframe _ (by omega), staged_scratch, if_neg (by omega), if_pos rfl]
                  have hsecond : m'.scratch (2 * i + 1) = next2 := by
                    rw [hframe _ (by omega), staged_scratch, if_pos rfl]
                  rw [List.map_cons, hctx m'.scratch hfirst hsecond, hnext]
      · obtain ⟨status, hstep⟩ :=
          @biquadStep_rejected Q _ self output (ctx.slice i) sample cell workspace haccepts
        rw [hstep]
        exact fun hall => absurd (hall i le_rfl (by omega)) haccepts

/-! ## One call -/

/-- What every reachable context of a cascade keeps. -/
structure CascadeKept (object : Extent) (ctx : BiquadContext) : Prop where
  sections : 0 < ctx.sections
  address : object.address ≠ 0

omit [FilterFormat Q] in
/-- The commit gives every section its staged states. -/
theorem biquadCommit_slice (m : Memory BiquadContext (ℕ → Int64) Q) {k : ℕ}
    (hk : k < m.ctx.sections) :
    (biquadCommit m).ctx.slice k = m.ctx.advanced m.scratch k := by
  have hcells : (fun j => if j < 2 then
      if 2 * k + j < 2 * m.ctx.sections then m.scratch (2 * k + j)
        else m.ctx.state.cells (2 * k + j) else 0) =
      fun j => if j < 2 then m.scratch (2 * k + j) else 0 := by
    funext j
    by_cases hj : j < 2
    · rw [if_pos hj, if_pos hj, if_pos (by omega)]
    · rw [if_neg hj, if_neg hj]
  show { m.ctx.slice k with state := ⟨(m.ctx.slice k).state.address, fun j => if j < 2 then
      if 2 * k + j < 2 * m.ctx.sections then m.scratch (2 * k + j)
        else m.ctx.state.cells (2 * k + j) else 0⟩ } = m.ctx.advanced m.scratch k
  rw [hcells]
  rfl

/-- A step of the cascade is a step of the chain of its slices. -/
theorem biquadStep_chain {self : Extent} {ctx : BiquadContext} (hkept : CascadeKept self ctx)
    (sample : Q) (output : ℕ) (cell : Q) (scratch workspace : ℕ → Int64) :
    match chainStep self output workspace cell ctx.slices sample with
    | some (result, next) =>
        ∃ m, biquadStep self sample output ⟨ctx, scratch, cell⟩ = (.ok (), m) ∧
          m.output = result ∧ m.ctx.slices = next ∧ m.ctx.sections = ctx.sections
    | none =>
        ∃ status m, biquadStep self sample output ⟨ctx, scratch, cell⟩ = (.error status, m) ∧
          m.ctx = ctx := by
  obtain ⟨n, hn⟩ := Nat.exists_eq_succ_of_ne_zero hkept.sections.ne'
  have hslices : ctx.slices = (List.range' 0 ctx.sections).map ctx.slice := by
    rw [BiquadContext.slices, List.range_eq_range']
  have hloop := @chainStep_slices Q _ self output ctx cell workspace ctx.sections 0 sample
    ⟨ctx, scratch, cell⟩ rfl
  have hall : Accepts self ⟨output, FilterFormat.scalarBytes Q⟩ ctx ↔
      ∀ k, 0 ≤ k → k < 0 + ctx.sections →
        Accepts self ⟨output, FilterFormat.scalarBytes Q⟩ (ctx.slice k) := by
    rw [accepts_slices hkept.sections, Nat.zero_add]
    exact ⟨fun h k _ hk => h k hk, fun h k hk => h k (Nat.zero_le k) hk⟩
  have hfirst : Procedure.repeatFrom biquadSection (max 1 ctx.sections) 0
      (FilterFormat.load sample, (FilterFormat.zero : Q)) =
      Procedure.repeatFrom biquadSection ctx.sections 0 (FilterFormat.load sample, sample) := by
    rw [max_eq_right hkept.sections, hn]
    rfl
  rw [hslices]
  cases hchain : chainStep self output workspace cell
      ((List.range' 0 ctx.sections).map ctx.slice) sample with
  | some last =>
      obtain ⟨result, next⟩ := last
      rw [hchain] at hloop
      obtain ⟨haccepts, m, hrun, hctx, -, hnext⟩ := hloop
      have hsections : m.ctx.sections = ctx.sections := congrArg BiquadContext.sections hctx
      refine ⟨(biquadCommit m).emit result, ?_, rfl, ?_, hsections⟩
      · rw [biquadStep_accepted (hall.mpr haccepts), hfirst]
        exact bind_ok hrun
      · rw [hnext, BiquadContext.slices]
        show (List.range m.ctx.sections).map _ = _
        rw [hctx, List.range_eq_range']
        refine List.map_congr_left fun k hk => ?_
        have hlt : k < ctx.sections := by
          rw [← List.range_eq_range'] at hk
          exact List.mem_range.mp hk
        have hslice := biquadCommit_slice m (hsections.symm ▸ hlt)
        rw [hctx] at hslice
        exact hslice
  | none =>
      rw [hchain] at hloop
      have hfailing : ∃ status m, biquadStep self sample output ⟨ctx, scratch, cell⟩ =
          (.error status, m) := by
        by_cases haccepts : Accepts self ⟨output, FilterFormat.scalarBytes Q⟩ ctx
        · obtain ⟨status, m, hrun⟩ := hloop (hall.mp haccepts)
          refine ⟨status, m, ?_⟩
          rw [biquadStep_accepted haccepts, hfirst]
          exact bind_error hrun
        · obtain ⟨status, hstep⟩ :=
            @biquadStep_rejected Q _ self output ctx sample cell scratch haccepts
          exact ⟨status, _, hstep⟩
      obtain ⟨status, m, hstep⟩ := hfailing
      have hview := (biquadStep_transaction self sample output).error_view trivial hstep
      exact ⟨status, m, hstep, congrArg Prod.fst hview⟩

theorem mapM_map_ok {α β γ ε : Type} {f : β → Except ε γ} {g : α → β} {h : α → γ} {l : List α}
    (hf : ∀ a ∈ l, f (g a) = .ok (h a)) : (l.map g).mapM f = .ok (l.map h) := by
  induction l with
  | nil => rfl
  | cons a l ih =>
      rw [List.map_cons, List.mapM_cons, hf a List.mem_cons_self,
        ih fun b hb => hf b (List.mem_cons_of_mem _ hb)]
      rfl

theorem biquadReset_slices {self : Extent} {ctx : BiquadContext} (hkept : CascadeKept self ctx) :
    ∃ next, biquadReset self ctx = .ok next ∧ next.sections = ctx.sections ∧
      ctx.slices.mapM (biquadReset self) = .ok next.slices := by
  refine ⟨_, if_neg hkept.address, rfl, mapM_map_ok fun k hk => ?_⟩
  have hlt := List.mem_range.mp hk
  have hcells : (fun j => if j < 2 then 0 else (ctx.slice k).state.cells j) = fun j =>
      if j < 2 then if 2 * k + j < 2 * ctx.sections then 0 else ctx.state.cells (2 * k + j)
        else 0 := by
    funext j
    by_cases hj : j < 2
    · rw [if_pos hj, if_pos hj, if_pos (by omega)]
    · rw [if_neg hj, if_neg hj]
      exact if_neg hj
  rw [biquadReset, if_neg hkept.address]
  show (Except.ok { ctx.slice k with state := ⟨(ctx.slice k).state.address, fun j =>
    if j < 2 then 0 else (ctx.slice k).state.cells j⟩ } : Except Status BiquadContext) = _
  rw [hcells]
  rfl

/-! ## Runs -/

/-- The cascade and the chain of its slices answer alike and stay related. -/
theorem cascade_simulates (wide : Bool) (self : Extent) (workspace : ℕ → Int64) :
    (cascadeMachine Q wide self).Simulates (chainMachine Q self workspace) fun s sections =>
      CascadeKept self s.1 ∧ sections = s.1.slices := by
  rintro (⟨input, output, cell⟩ | _) ⟨ctx, scratch⟩ sections ⟨hkept, rfl⟩
  · have hstep := biquadStep_chain hkept input output cell scratch workspace
    simp only [cascadeMachine, chainMachine, Filter.perform]
    cases hchain : chainStep self output workspace cell ctx.slices input with
    | some last =>
        obtain ⟨result, next⟩ := last
        rw [hchain] at hstep
        obtain ⟨m, hrun, houtput, hslices, hsections⟩ := hstep
        rw [hrun]
        exact ⟨congrArg (fun value => some (Observation.output value)) houtput,
          ⟨hsections.symm ▸ hkept.sections, hkept.address⟩, hslices.symm⟩
    | none =>
        rw [hchain] at hstep
        obtain ⟨status, m, hrun, hctx⟩ := hstep
        rw [hrun]
        refine ⟨rfl, ?_, ?_⟩
        · show CascadeKept self m.ctx
          rw [hctx]
          exact hkept
        · show ctx.slices = m.ctx.slices
          rw [hctx]
  · obtain ⟨next, hreset, hsections, hslices⟩ := biquadReset_slices hkept
    simp only [cascadeMachine, chainMachine, Filter.perform]
    rw [hslices, show biquadReset self ctx = .ok next from hreset]
    exact ⟨rfl, ⟨hsections.symm ▸ hkept.sections, hkept.address⟩, rfl⟩

/-- An array inside another one overlaps no more. -/
theorem filtersOverlap_inside {a b a' b' : Extent} (h : filtersOverlap a b = false)
    (ha : a.address ≤ a'.address ∧ a'.address + a'.bytes ≤ a.address + a.bytes)
    (hb : b.address ≤ b'.address ∧ b'.address + b'.bytes ≤ b.address + b.bytes) :
    filtersOverlap a' b' = false := by
  rw [← Bool.not_eq_true, filtersOverlap_iff] at h ⊢
  omega

theorem arraySize_bytes {wide : Bool} {count elementSize bytes : ℕ}
    (h : arraySize wide count elementSize = .ok bytes) : count * elementSize = bytes := by
  rw [arraySize] at h
  split at h
  · cases h
  · split at h
    · cases h
    · exact Except.ok.inj h

/-- Init accepts what passes its checks. -/
theorem biquadInit_ok {wide : Bool} {self : Extent} {arguments : BiquadArguments}
    {stateBytes coefficientBytes : ℕ}
    (hgiven : ¬(self.address = 0 ∨ arguments.coefficients.address = 0 ∨
      arguments.state.address = 0 ∨ arguments.workspaceAddress = 0))
    (hcount : ¬linearsSizeMul wide 2 arguments.sections = sizeMax wide)
    (hstate : arraySize wide (linearsSizeMul wide 2 arguments.sections) 8 = .ok stateBytes)
    (hcoefficients : arraySize wide arguments.sections 40 = .ok coefficientBytes)
    (hcapacity : ¬(arguments.stateCapacity < linearsSizeMul wide 2 arguments.sections ∨
      arguments.workspaceCapacity < linearsSizeMul wide 2 arguments.sections))
    (hapart : ¬(filtersOverlap self ⟨arguments.coefficients.address, coefficientBytes⟩ ||
      filtersOverlap self ⟨arguments.state.address, stateBytes⟩ ||
      filtersOverlap self ⟨arguments.workspaceAddress, stateBytes⟩ ||
      filtersOverlap ⟨arguments.coefficients.address, coefficientBytes⟩
        ⟨arguments.state.address, stateBytes⟩ ||
      filtersOverlap ⟨arguments.coefficients.address, coefficientBytes⟩
        ⟨arguments.workspaceAddress, stateBytes⟩ ||
      filtersOverlap ⟨arguments.state.address, stateBytes⟩
        ⟨arguments.workspaceAddress, stateBytes⟩) = true) :
    biquadInit wide self arguments =
      .ok ⟨arguments.coefficients, ⟨arguments.state.address, fun i =>
        if i < linearsSizeMul wide 2 arguments.sections then 0 else arguments.state.cells i⟩,
          arguments.workspaceAddress, arguments.sections⟩ := by
  obtain ⟨coefficients, sections, state, stateCapacity, workspaceAddress, workspaceCapacity⟩ :=
    arguments
  rw [biquadInit]
  simp only [if_neg hgiven, if_neg hcount, hstate, ok_bind, hcoefficients, if_neg hcapacity,
    if_neg hapart]

/-- An accepted init has a section and a context, and inits every slice. -/
theorem biquadInit_slices {wide : Bool} {self : Extent} {arguments : BiquadArguments}
    {ctx : BiquadContext} (h : biquadInit wide self arguments = .ok ctx) :
    CascadeKept self ctx ∧ ctx.sections = arguments.sections ∧ ∀ i < ctx.sections,
      biquadInit wide self (arguments.slice i) = .ok (ctx.slice i) := by
  obtain ⟨coefficients, sections, state, stateCapacity, workspaceAddress, workspaceCapacity⟩ :=
    arguments
  rw [biquadInit] at h
  obtain ⟨hgiven, h⟩ := ok_of_guard h
  obtain ⟨hcount, h⟩ := ok_of_guard h
  obtain ⟨stateBytes, hstate, h⟩ := ok_of_bind h
  obtain ⟨coefficientBytes, hcoefficients, h⟩ := ok_of_bind h
  obtain ⟨-, h⟩ := ok_of_guard h
  obtain ⟨hapart, h⟩ := ok_of_guard h
  have hpos := (arraySize_eq_ok hcoefficients).1
  have hsize : linearsSizeMul wide 2 sections = 2 * sections := (linearsSizeMul_lt hpos hcount).1
  have hctx : ctx = ⟨coefficients, ⟨state.address, fun i => if i < linearsSizeMul wide 2 sections
      then 0 else state.cells i⟩, workspaceAddress, sections⟩ := (Except.ok.inj h).symm
  rw [hsize] at hctx hstate
  have hstateBytes := arraySize_bytes hstate
  have hcoefficientBytes := arraySize_bytes hcoefficients
  simp only [not_or] at hgiven
  simp only [Bool.or_eq_true, not_or, Bool.not_eq_true] at hapart
  subst hctx hstateBytes hcoefficientBytes
  refine ⟨⟨hpos, hgiven.1⟩, rfl, fun i hi => ?_⟩
  have hlt : i < sections := hi
  have hone : arraySize wide 1 40 = .ok 40 := by cases wide <;> rfl
  have htwo : arraySize wide 2 8 = .ok 16 := by cases wide <;> rfl
  have hcounted : linearsSizeMul wide 2 1 = 2 := by cases wide <;> rfl
  have hfull : ¬2 = sizeMax wide := by cases wide <;> decide
  have hstateInside : state.address ≤ state.address + 2 * 8 * i ∧
      state.address + 2 * 8 * i + 16 ≤ state.address + 2 * sections * 8 := by omega
  have hworkspaceInside : workspaceAddress ≤ workspaceAddress + 16 * i ∧
      workspaceAddress + 16 * i + 16 ≤ workspaceAddress + 2 * sections * 8 := by omega
  have hcoefficientInside : coefficients.address ≤ coefficients.address + 40 * i ∧
      coefficients.address + 40 * i + 40 ≤ coefficients.address + sections * 40 := by omega
  have hself : self.address ≤ self.address ∧
      self.address + self.bytes ≤ self.address + self.bytes := ⟨le_rfl, le_rfl⟩
  obtain ⟨⟨⟨⟨⟨h₁, h₂⟩, h₃⟩, h₄⟩, h₅⟩, h₆⟩ := hapart
  have hslice := @biquadInit_ok wide self (BiquadArguments.slice ⟨coefficients, sections, state,
    stateCapacity, workspaceAddress, workspaceCapacity⟩ i) 16 40 ?_ ?_ ?_ hone ?_ ?_
  · have hcells : (fun j => if j < linearsSizeMul wide 2 1 then 0
        else (state.slice 2 8 i).cells j) = fun j => if j < 2 then
          if 2 * i + j < 2 * sections then 0 else state.cells (2 * i + j) else 0 := by
      funext j
      rw [hcounted]
      by_cases hj : j < 2
      · rw [if_pos hj, if_pos hj, if_pos (by omega)]
      · rw [if_neg hj, if_neg hj]
        exact if_neg hj
    refine hslice.trans (congrArg Except.ok ?_)
    show (⟨coefficientSlice coefficients i, ⟨state.address + 2 * 8 * i, fun j =>
      if j < linearsSizeMul wide 2 1 then 0 else (state.slice 2 8 i).cells j⟩,
        workspaceAddress + 16 * i, 1⟩ : BiquadContext) = _
    rw [hcells]
    rfl
  · simp only [BiquadArguments.slice, coefficientSlice, Buffer.slice]
    omega
  · exact hcounted.symm ▸ hfull
  · exact hcounted.symm ▸ htwo
  · show ¬(2 < linearsSizeMul wide 2 1 ∨ 2 < linearsSizeMul wide 2 1)
    omega
  · simp only [Bool.or_eq_true, not_or, Bool.not_eq_true]
    exact ⟨⟨⟨⟨⟨filtersOverlap_inside h₁ hself hcoefficientInside,
      filtersOverlap_inside h₂ hself hstateInside⟩,
      filtersOverlap_inside h₃ hself hworkspaceInside⟩,
      filtersOverlap_inside h₄ hcoefficientInside hstateInside⟩,
      filtersOverlap_inside h₅ hcoefficientInside hworkspaceInside⟩,
      filtersOverlap_inside h₆ hstateInside hworkspaceInside⟩

/-- Along every run, a cascade is the chain of one-section filters on its slices: their
answers agree, their states stay equal, and a step that fails leaves the cascade alone. -/
theorem biquad_cascade_is_chain {wide : Bool} {self : Extent} {arguments : BiquadArguments}
    {ctx : BiquadContext} (hinit : biquadInit wide self arguments = .ok ctx)
    (calls : List (CascadeCall Q)) (scratch workspace : ℕ → Int64) :
    (∀ i < ctx.sections, biquadInit wide self (arguments.slice i) = .ok (ctx.slice i)) ∧
      ((cascadeMachine Q wide self).run calls (ctx, scratch)).1 =
        ((chainMachine Q self workspace).run calls ctx.slices).1 ∧
      ((cascadeMachine Q wide self).run calls (ctx, scratch)).2.1.slices =
        ((chainMachine Q self workspace).run calls ctx.slices).2 ∧
      ∀ call, (((cascadeMachine Q wide self).react call
          ((cascadeMachine Q wide self).run calls (ctx, scratch)).2).1 = none →
        ((cascadeMachine Q wide self).react call
          ((cascadeMachine Q wide self).run calls (ctx, scratch)).2).2.1 =
            ((cascadeMachine Q wide self).run calls (ctx, scratch)).2.1) := by
  have hkept := biquadInit_slices hinit
  have hrun := (cascade_simulates (Q := Q) wide self workspace).run calls
    (s := (ctx, scratch)) (t := ctx.slices) ⟨hkept.1, rfl⟩
  refine ⟨hkept.2.2, hrun.1, hrun.2.2.symm, fun call hnone => ?_⟩
  generalize ((cascadeMachine Q wide self).run calls (ctx, scratch)).2 = reached at hnone ⊢
  have hsafe : (biquadFilter Q wide self).Safe fun _ => True :=
    Filter.safe_of_step (biquadStep_transaction (Q := Q) self)
  simp only [cascadeMachine] at hnone ⊢
  generalize (match call with
    | CascadeCall.step input output cell =>
      (Call.step input output cell : (biquadFilter Q wide self).Request)
    | CascadeCall.reset => Call.control ()) = request at hnone ⊢
  cases hperform : ((biquadFilter Q wide self).perform request reached).1 with
  | ok observation =>
      rw [hperform] at hnone
      cases hnone
  | error status => exact hsafe.transactional.atomic request reached status trivial hperform

/-- Two sections, the second of which fails where its input is large. -/
theorem biquad_cascade_is_chain_sample :
    ∃ ctx, biquadInit true ⟨4096, 48⟩
        ⟨⟨8192, fun i => if i = 0 then ⟨fixedOne, 0, 0, 0, 0⟩ else ⟨8 * fixedOne, 0, 0, 0, 0⟩⟩, 2,
          ⟨16384, fun _ => 0⟩, 4, 32768, 4⟩ = .ok ctx ∧
      ((cascadeMachine Int16 true ⟨4096, 48⟩).run
          [.step 1000 65536 0, .step 20000 65536 0, .reset] (ctx, fun _ => 0)).1 =
        ((chainMachine Int16 ⟨4096, 48⟩ fun _ => 0).run
          [.step 1000 65536 0, .step 20000 65536 0, .reset] ctx.slices).1 := by
  obtain ⟨ctx, hctx⟩ : ∃ ctx, biquadInit true ⟨4096, 48⟩
      ⟨⟨8192, fun i => if i = 0 then ⟨fixedOne, 0, 0, 0, 0⟩ else ⟨8 * fixedOne, 0, 0, 0, 0⟩⟩, 2,
        ⟨16384, fun _ => 0⟩, 4, 32768, 4⟩ = .ok ctx := ⟨_, rfl⟩
  exact ⟨ctx, hctx, (biquad_cascade_is_chain hctx _ _ _).2.1⟩

end Xhive.Filters
