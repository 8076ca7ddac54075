import Xhive.Filters.Biquad
import Xhive.Filters.Designed
import Xhive.Filters.Window

/-!
# Steps are all or nothing

Every step stages its results and commits them after its last check.  The
biquad cascade and the median stage in the workspace, so two runs that differ
in the workspace are followed in lockstep on the cells written so far.
-/

namespace Xhive.Filters

open Xhive.Support Xhive.Linears Procedure

variable {C W Q α : Type}

/-- Two memories in the staging phase of a step that began with view `v`. -/
def Staging (v : C × Q) (s t : Memory C W Q) : Prop :=
  s.visible = v ∧ t.visible = v

/-- Two memories that only differ in scratch, with a context in `inv`. -/
def SameView (inv : C → Prop) (s t : Memory C W Q) : Prop :=
  s.visible = t.visible ∧ inv s.visible.1

namespace Staging

variable {v : C × Q}

theorem sameView {inv : C → Prop} (hv : inv v.1) {s t : Memory C W Q} (h : Staging v s t) :
    SameView inv s t := by
  refine ⟨h.1.trans h.2.symm, ?_⟩
  rw [h.1]
  exact hv

/-- The commit phase of a step may forget which view it began with. -/
theorem commit (inv : C → Prop) (hv : inv v.1) {m : Procedure Status (Memory C W Q) α}
    {S : α → Memory C W Q → Memory C W Q → Prop} {E : Memory C W Q → Memory C W Q → Prop}
    (h : Lockstep (SameView inv) m S E) : Lockstep (Staging v) m S E :=
  h.mono fun _ _ hst => hst.sameView hv

theorem ctx_eq {s t : Memory C W Q} (h : Staging v s t) : s.ctx = v.1 ∧ t.ctx = v.1 :=
  ⟨congrArg Prod.fst h.1, congrArg Prod.fst h.2⟩

theorem attempt (m : Except Status α) :
    Lockstep (Staging (W := W) v) (.attempt m) (fun _ => Staging v) (Staging v) :=
  .attempt (fun _ _ _ _ hst => hst) fun _ _ hst => hst

/-- The context read in the staging phase is the initial one. -/
theorem readCtx :
    Lockstep (Staging (W := W) v) (.read Memory.ctx : Procedure Status _ C)
      (fun ctx s t => ctx = v.1 ∧ Staging v s t) (Staging v) := by
  apply Lockstep.read
  intro s t hst
  obtain ⟨hs, ht⟩ := hst.ctx_eq
  exact ⟨hs.trans ht.symm, hs, hst⟩

end Staging

namespace SameView

variable {inv : C → Prop} {E : Memory C W Q → Memory C W Q → Prop}

theorem mapCtx {f : C → C} (hf : ∀ ctx, inv ctx → inv (f ctx)) :
    Lockstep (SameView inv) (.write (Memory.mapCtx f) : Procedure Status (Memory C W Q) Unit)
      (fun _ => SameView inv) E := by
  apply Lockstep.write
  intro s t hst
  have hctx : s.ctx = t.ctx := congrArg Prod.fst hst.1
  have hout : s.output = t.output := congrArg Prod.snd hst.1
  refine ⟨?_, hf s.ctx hst.2⟩
  rw [Memory.visible_mapCtx, Memory.visible_mapCtx, hctx, hout]

theorem emit (result : Q) :
    Lockstep (SameView inv) (.write (Memory.emit result) : Procedure Status (Memory C W Q) Unit)
      (fun _ => SameView inv) E := by
  apply Lockstep.write
  intro s t hst
  have hctx : s.ctx = t.ctx := congrArg Prod.fst hst.1
  refine ⟨?_, hst.2⟩
  rw [Memory.visible_emit, Memory.visible_emit, hctx]

end SameView

/-! ## Steps without a workspace -/

section Direct

variable [FilterFormat Q]

theorem emaStep_transaction (self : Extent) (input : Q) (output : ℕ) :
    (emaStep self input output).Transaction Memory.visible fun _ => True := by
  intro v hv
  apply (Staging.attempt _).bind
  intro _
  apply Staging.readCtx.bind
  intro ctx
  apply Lockstep.bind ((Staging.attempt _).mono fun _ _ h => h.2)
  intro candidate
  apply (Staging.attempt _).bind
  intro result
  apply Staging.commit (fun _ => True) trivial
  apply (SameView.mapCtx fun _ _ => trivial).bind
  intro _
  exact SameView.emit result

theorem complementaryStep_transaction (self : Extent) (input : Q × Q) (output : ℕ) :
    (complementaryStep self input output).Transaction Memory.visible fun _ => True := by
  intro v hv
  apply (Staging.attempt _).bind
  intro _
  apply Staging.readCtx.bind
  intro ctx
  apply Lockstep.bind ((Staging.attempt _).mono fun _ _ h => h.2)
  rintro ⟨candidate, result⟩
  apply Staging.commit (fun _ => True) trivial
  apply (SameView.mapCtx fun _ _ => trivial).bind
  intro _
  exact SameView.emit result

theorem firStep_transaction (self : Extent) (input : Q) (output : ℕ) :
    (firStep self input output).Transaction Memory.visible fun _ => True := by
  intro v hv
  apply (Staging.attempt _).bind
  intro _
  apply Staging.readCtx.bind
  intro ctx
  apply Lockstep.bind ((Staging.attempt _).mono fun _ _ h => h.2)
  intro _
  apply (Staging.attempt _).bind
  intro accumulator
  apply (Staging.attempt _).bind
  intro result
  apply Staging.commit (fun _ => True) trivial
  apply (SameView.mapCtx fun _ _ => trivial).bind
  intro _
  apply (SameView.mapCtx fun _ _ => trivial).bind
  intro _
  exact SameView.emit result

theorem movingAverageStep_transaction (self : Extent) (input : Q) (output : ℕ) :
    (movingAverageStep self input output).Transaction Memory.visible fun _ => True := by
  intro v hv
  apply (Staging.attempt _).bind
  intro _
  apply Staging.readCtx.bind
  intro ctx
  apply Lockstep.bind ((Staging.attempt _).mono fun _ _ h => h.2)
  intro _
  apply (Staging.attempt _).bind
  intro sum
  apply (Staging.attempt _).bind
  intro result
  apply Staging.commit (fun _ => True) trivial
  apply (SameView.mapCtx fun _ _ => trivial).bind
  intro _
  apply (SameView.mapCtx fun _ _ => trivial).bind
  intro _
  apply (SameView.mapCtx fun _ _ => trivial).bind
  intro _
  exact SameView.emit result

theorem passStep_transaction (self : Extent) (input : Q) (output : ℕ) :
    (passStep self input output).Transaction Memory.visible fun _ => True := by
  intro v hv
  apply (Staging.attempt _).bind
  intro _
  apply Staging.readCtx.bind
  intro ctx
  apply Lockstep.bind ((Staging.attempt _).mono fun _ _ h => h.2)
  rintro ⟨l, result⟩
  apply Staging.commit (fun _ => True) trivial
  apply (SameView.mapCtx fun _ _ => trivial).bind
  intro _
  exact SameView.emit result

theorem bpfStep_transaction (self : Extent) (input : Q) (output : ℕ) :
    (bpfStep self input output).Transaction Memory.visible fun _ => True := by
  intro v hv
  apply (Staging.attempt _).bind
  intro _
  apply Staging.readCtx.bind
  intro ctx
  apply Lockstep.bind ((Staging.attempt _).mono fun _ _ h => h.2)
  rintro ⟨l, result⟩
  apply Staging.commit (fun _ => True) trivial
  apply (SameView.mapCtx fun _ _ => trivial).bind
  intro _
  exact SameView.emit result

end Direct

/-! ## Steps that stage in the workspace -/

section Staged

variable {V : Type}

/-- Staging memories that also agree on the first `count` workspace cells. -/
def StagingUpTo (v : C × Q) (count : ℕ) (s t : Memory C (ℕ → V) Q) : Prop :=
  Staging v s t ∧ ∀ k < count, s.scratch k = t.scratch k

theorem Staging.upTo_zero {v : C × Q} {s t : Memory C (ℕ → V) Q} (h : Staging v s t) :
    StagingUpTo v 0 s t :=
  ⟨h, fun _ hk => absurd hk (Nat.not_lt_zero _)⟩

namespace StagingUpTo

variable {v : C × Q} {count : ℕ}

theorem attempt (m : Except Status α) :
    Lockstep (StagingUpTo (V := V) v count) (.attempt m) (fun _ => StagingUpTo v count)
      (Staging v) :=
  .attempt (fun _ _ _ _ hst => hst) fun _ _ hst => hst.1

/-- A value of the context. -/
theorem readCtx (f : C → α) :
    Lockstep (StagingUpTo (V := V) v count) (.read fun m => f m.ctx : Procedure Status _ α)
      (fun _ => StagingUpTo v count) (Staging v) := by
  apply Lockstep.read
  intro s t hst
  obtain ⟨hs, ht⟩ := hst.1.ctx_eq
  rw [hs, ht]
  exact ⟨rfl, hst⟩

/-- A workspace cell that both runs have written. -/
theorem readScratch {k : ℕ} (hk : k < count) :
    Lockstep (StagingUpTo v count) (.read fun m => m.scratch k : Procedure Status _ V)
      (fun _ => StagingUpTo v count) (Staging v) := by
  apply Lockstep.read
  intro s t hst
  exact ⟨hst.2 k hk, hst⟩

/-- Writing one more cell, or one again. -/
theorem writeScratch {k next : ℕ} (hnext : next ≤ count ∨ next = k + 1 ∧ count = k)
    {f : Memory C (ℕ → V) Q → V} (hf : ∀ s t, StagingUpTo v count s t → f s = f t) :
    Lockstep (StagingUpTo v count)
      (.write fun m => m.mapScratch fun w => Function.update w k (f m) :
        Procedure Status (Memory C (ℕ → V) Q) Unit)
      (fun _ => StagingUpTo v next) (Staging v) := by
  apply Lockstep.write
  intro s t hst
  refine ⟨hst.1, fun j hj => ?_⟩
  change Function.update s.scratch k (f s) j = Function.update t.scratch k (f t) j
  rw [hf s t hst]
  by_cases hjk : j = k
  · rw [hjk, Function.update_self, Function.update_self]
  · rw [Function.update_of_ne hjk, Function.update_of_ne hjk]
    exact hst.2 j (by omega)

end StagingUpTo

variable [FilterFormat Q]

theorem biquadSection_lockstep {v : BiquadContext × Q} (i : ℕ) (carried : Int64 × Q) :
    Lockstep (StagingUpTo v (2 * i)) (biquadSection i carried)
      (fun _ => StagingUpTo v (2 * (i + 1))) (Staging v) := by
  apply (StagingUpTo.readCtx fun ctx : BiquadContext => ctx.coefficients.cells i).bind
  intro c
  apply (StagingUpTo.readCtx fun ctx : BiquadContext => ctx.state.cells (2 * i)).bind
  intro s1
  apply (StagingUpTo.readCtx fun ctx : BiquadContext => ctx.state.cells (2 * i + 1)).bind
  intro s2
  apply (StagingUpTo.attempt _).bind
  rintro ⟨result, next1, next2⟩
  apply (StagingUpTo.writeScratch (f := fun _ => next1) (Or.inr ⟨rfl, rfl⟩) fun _ _ _ => rfl).bind
  intro _
  apply (StagingUpTo.writeScratch (f := fun _ => next2) (Or.inr ⟨rfl, rfl⟩) fun _ _ _ => rfl).bind
  intro _
  exact .pure fun _ _ hst => hst

theorem biquadStep_transaction (self : Extent) (input : Q) (output : ℕ) :
    (biquadStep self input output).Transaction Memory.visible fun _ => True := by
  intro v hv
  apply (Staging.attempt _).bind
  intro _
  apply Staging.readCtx.bind
  intro ctx
  by_cases hctx : ctx = v.1
  · apply Lockstep.bind ((Staging.attempt _).mono fun _ _ h => h.2)
    intro _
    have hloop := Lockstep.repeatFrom (E := Staging v) (i := 0)
      (a := (FilterFormat.load input, (FilterFormat.zero : Q)))
      (fun i _ => StagingUpTo v (2 * i)) (max 1 ctx.sections)
      fun i carried _ _ => biquadSection_lockstep i carried
    apply (hloop.mono fun _ _ => Staging.upTo_zero).bind
    intro last
    have hcommit : Lockstep (StagingUpTo v (2 * (0 + max 1 ctx.sections)))
        (.write biquadCommit : Procedure Status (Memory BiquadContext (ℕ → Int64) Q) Unit)
        (fun _ => SameView fun _ => True) (Staging v) := by
      apply Lockstep.write
      intro s t hst
      obtain ⟨hs, ht⟩ := hst.1.ctx_eq
      have hcells : ∀ k < 2 * v.1.sections, s.scratch k = t.scratch k := by
        intro k hk
        apply hst.2
        rw [hctx]
        omega
      have hstate : (fun k => if k < 2 * v.1.sections then s.scratch k else v.1.state.cells k) =
          fun k => if k < 2 * v.1.sections then t.scratch k else v.1.state.cells k := by
        funext k
        split
        · exact hcells k ‹_›
        · rfl
      have hout : s.output = t.output := congrArg Prod.snd (hst.1.1.trans hst.1.2.symm)
      refine ⟨?_, trivial⟩
      rw [biquadCommit, biquadCommit, Memory.visible_mapCtx, Memory.visible_mapCtx, hs, ht, hout]
      dsimp only
      rw [hstate]
    apply hcommit.bind
    intro _
    exact SameView.emit last.2
  · exact fun s t hst => absurd hst.1 hctx

/-! ### The insertion sort -/

section Median

variable {v : MedianContext Q × Q}

omit [FilterFormat Q] in
theorem medianCopy_lockstep (input : Q) (i : ℕ) :
    Lockstep (StagingUpTo v i) (medianCopy input i ()) (fun _ => StagingUpTo v (i + 1))
      (Staging v) := by
  apply StagingUpTo.writeScratch (Or.inr ⟨rfl, rfl⟩)
  intro s t hst
  obtain ⟨hs, ht⟩ := hst.1.ctx_eq
  rw [hs, ht]

theorem medianShift_lockstep {count : ℕ} (key : Int64) (j : ℕ) (hj : j < count) :
    Lockstep (StagingUpTo v count) (medianShift (Q := Q) key j)
      (fun place s t => place < count ∧ StagingUpTo v count s t) (Staging v) := by
  induction j with
  | zero => exact .pure fun _ _ hst => ⟨hj, hst⟩
  | succ j ih =>
      apply (StagingUpTo.readScratch (by omega)).bind
      intro compared
      apply Lockstep.ite
      · intro _
        exact .pure fun _ _ hst => ⟨hj, hst⟩
      · intro _
        apply (StagingUpTo.writeScratch (Or.inl le_rfl)
          fun s t hst => hst.2 j (by omega)).bind
        intro _
        exact ih (by omega)

theorem medianInsert_lockstep {count i : ℕ} (hi : i < count) :
    Lockstep (StagingUpTo v count) (medianInsert (Q := Q) i ()) (fun _ => StagingUpTo v count)
      (Staging v) := by
  apply (StagingUpTo.readScratch hi).bind
  intro keyScalar
  apply (medianShift_lockstep (FilterFormat.load keyScalar) i hi).bind
  intro j
  by_cases hj : j < count
  · apply Lockstep.mono _ fun _ _ (h : j < count ∧ StagingUpTo v count _ _) => h.2
    exact StagingUpTo.writeScratch (Or.inl le_rfl) fun _ _ _ => rfl
  · exact fun s t hst => absurd hst.1 hj

theorem medianResult_lockstep {count : ℕ} (hcount : 0 < count) :
    Lockstep (StagingUpTo v count) (medianResult (Q := Q) count) (fun _ => StagingUpTo v count)
      (Staging v) := by
  apply (StagingUpTo.readScratch (Nat.div_lt_self hcount (by decide))).bind
  intro result
  apply Lockstep.ite
  · intro heven
    apply (StagingUpTo.readScratch (by omega)).bind
    intro left
    apply (StagingUpTo.attempt _).bind
    intro two
    apply (StagingUpTo.attempt _).bind
    intro candidate
    apply (StagingUpTo.attempt _).bind
    intro candidate
    exact StagingUpTo.attempt _
  · intro _
    exact .pure fun _ _ hst => hst

/-- The workspace is read only where the copy loop has written it, which takes
a window that is not empty. -/
theorem medianStep_transaction (self : Extent) (input : Q) (output : ℕ) :
    (medianStep self input output).Transaction Memory.visible fun v => 0 < v.1.window := by
  intro v hv
  apply (Staging.attempt _).bind
  intro _
  apply Staging.readCtx.bind
  intro ctx
  by_cases hctx : ctx = v.1
  · rw [hctx]
    apply Lockstep.bind ((Staging.attempt _).mono fun _ _ h => h.2)
    intro _
    have hcopy := Lockstep.repeatFrom (E := Staging v) (i := 0) (a := ())
      (fun i _ => StagingUpTo v i) v.1.window fun i _ _ _ => medianCopy_lockstep input i
    rw [Nat.zero_add] at hcopy
    apply (hcopy.mono fun _ _ => Staging.upTo_zero).bind
    intro _
    apply (Lockstep.repeatFrom (E := Staging v) (i := 1) (a := ())
      (fun _ _ => StagingUpTo v v.1.window) (v.1.window - 1)
      fun i _ _ hi => medianInsert_lockstep (by omega)).bind
    intro _
    apply (medianResult_lockstep hv).bind
    intro result
    apply Lockstep.mono _ fun _ _ (h : StagingUpTo v v.1.window _ _) => h.1
    apply Staging.commit (fun ctx : MedianContext Q => 0 < ctx.window) hv
    apply Lockstep.bind
    · exact SameView.mapCtx fun _ h => h
    intro _
    apply Lockstep.bind
    · exact SameView.mapCtx fun _ h => h
    intro _
    exact SameView.emit result
  · exact fun s t hst => absurd hst.1 hctx

end Median

end Staged

/-! ## The nine filters -/

/-- A step that is a transaction from every context is safe without an
invariant. -/
theorem Filter.safe_of_step {F : Filter Q}
    (h : ∀ input output, (F.step input output).Transaction Memory.visible fun _ => True) :
    F.Safe fun _ => True where
  init _ _ _ := trivial
  control _ _ _ _ _ := trivial
  step := h

section Filters

variable (Q) [FilterFormat Q] (wide : Bool) (self : Extent)

variable {Q} in
theorem medianInit_window {arguments : MedianArguments Q} {ctx : MedianContext Q}
    (h : medianInit wide self arguments = .ok ctx) : 0 < ctx.window := by
  have hspec : Ensures (medianInit wide self arguments) (fun ctx => 0 < ctx.window)
      fun _ => True := by
    apply Ensures.ite
    · exact fun _ => trivial
    · intro _
      have hsize : Ensures (arraySize wide arguments.window (FilterFormat.scalarBytes Q))
          (fun _ => 0 < arguments.window) fun _ => True := by
        cases h : arraySize wide arguments.window (FilterFormat.scalarBytes Q) with
        | ok bytes => exact (arraySize_eq_ok h).1
        | error status => trivial
      apply hsize.seq
      intro bytes hwindow
      apply Ensures.ite
      · exact fun _ => trivial
      · intro _
        apply Ensures.ite
        · exact fun _ => trivial
        · exact fun _ => hwindow
  exact hspec.of_eq_ok h

variable {Q} in
theorem medianReset_window {ctx ctx' : MedianContext Q} (h : medianReset self ctx = .ok ctx') :
    ctx'.window = ctx.window := by
  rw [medianReset] at h
  split at h
  · cases h
  · cases h
    rfl

theorem medianFilter_safe :
    (medianFilter Q wide self).Safe fun ctx : MedianContext Q => 0 < ctx.window where
  init _ _ h := medianInit_window wide self h
  control _ _ _ hctx h := (medianReset_window self h).symm ▸ hctx
  step := medianStep_transaction (Q := Q) self

/-- Every Q filter: a failing step changes neither the persistent state nor the
output cell, and a run is observed the same with its failing steps deleted. -/
theorem q_filters_all_or_nothing :
    (emaFilter Q self).AllOrNothing ∧
    (complementaryFilter Q self).AllOrNothing ∧
    (firFilter Q wide self).AllOrNothing ∧
    (biquadFilter Q wide self).AllOrNothing ∧
    (movingAverageFilter Q wide self).AllOrNothing ∧
    (medianFilter Q wide self).AllOrNothing ∧
    (lpfFilter Q self).AllOrNothing ∧
    (hpfFilter Q self).AllOrNothing ∧
    (bpfFilter Q self).AllOrNothing := by
  refine ⟨?_, ?_, ?_, ?_, ?_, (medianFilter_safe Q wide self).allOrNothing, ?_, ?_, ?_⟩
  · exact (Filter.safe_of_step (emaStep_transaction (Q := Q) self)).allOrNothing
  · exact (Filter.safe_of_step (complementaryStep_transaction (Q := Q) self)).allOrNothing
  · exact (Filter.safe_of_step (firStep_transaction (Q := Q) self)).allOrNothing
  · exact (Filter.safe_of_step (biquadStep_transaction (Q := Q) self)).allOrNothing
  · exact (Filter.safe_of_step (movingAverageStep_transaction (Q := Q) self)).allOrNothing
  · exact (Filter.safe_of_step (passStep_transaction (Q := Q) self)).allOrNothing
  · exact (Filter.safe_of_step (passStep_transaction (Q := Q) self)).allOrNothing
  · exact (Filter.safe_of_step (bpfStep_transaction (Q := Q) self)).allOrNothing

end Filters

end Xhive.Filters
