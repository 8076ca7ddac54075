import Xhive.Filters.Fir

/-!
# The moving average and the median

Both keep a ring of raw samples.  The moving average also keeps the exact F62
sum of the ring; the median sorts a copy of the window in its workspace.
-/

namespace Xhive.Filters

open Xhive.Support Xhive.Linears

variable {Q : Type} [FilterFormat Q]

/-! ## Moving average -/

structure MovingAverageContext (Q : Type) where
  state : Buffer Q
  window : ℕ
  head : ℕ
  sum : Accum

structure MovingAverageArguments (Q : Type) where
  window : ℕ
  state : Buffer Q
  stateCapacity : ℕ

def movingAverageInit (wide : Bool) (self : Extent) (arguments : MovingAverageArguments Q) :
    Except Status (MovingAverageContext Q) := do
  let ⟨window, state, stateCapacity⟩ := arguments
  if self.address = 0 ∨ state.address = 0 then throw .errorArgument
  let _ ← arraySize wide window (FilterFormat.scalarBytes Q)
  if stateCapacity < window then throw .errorWorkspace
  if filtersOverlap self (state.extent window (FilterFormat.scalarBytes Q)) then
    throw .errorAlias
  .ok { state := state.clear window, window, head := 0, sum := ⟨0, 0⟩ }

def movingAverageReset (self : Extent) (ctx : MovingAverageContext Q) :
    Except Status (MovingAverageContext Q) :=
  if self.address = 0 then .error .errorArgument
  else .ok { ctx with state := ctx.state.clear ctx.window, head := 0, sum := ⟨0, 0⟩ }

/-- The sum with the oldest sample replaced by the new one. -/
def movingAverageSum (ctx : MovingAverageContext Q) (input : Q) : Except Status Accum := do
  let value := FilterFormat.load (ctx.state.cells ctx.head)
  let sum ← checked (linearsFixedMsu (some ctx.sum) value fixedOne)
  checked (linearsFixedMac (some sum) (FilterFormat.load input) fixedOne)

def movingAverageStep (self : Extent) (input : Q) (output : ℕ) :
    Procedure Status (Memory (MovingAverageContext Q) Unit Q) Unit := do
  .attempt (checkOutput self ⟨output, FilterFormat.scalarBytes Q⟩)
  let ctx ← .read Memory.ctx
  .attempt (checkRetained ⟨output, FilterFormat.scalarBytes Q⟩
    [ctx.state.extent ctx.window (FilterFormat.scalarBytes Q)])
  let sum ← .attempt (movingAverageSum ctx input)
  let result ← call (linearsAccumMeanQ sum (UInt64.ofNat ctx.window) (some FilterFormat.zero))
  .write (Memory.mapCtx fun ctx => { ctx with state := ctx.state.set ctx.head input })
  .write (Memory.mapCtx fun ctx => { ctx with sum := sum })
  .write (Memory.mapCtx fun ctx => { ctx with head := ringNext ctx.head ctx.window })
  .write (Memory.emit result)

abbrev movingAverageFilter (Q : Type) [FilterFormat Q] (wide : Bool) (self : Extent) :
    Filter Q where
  Context := MovingAverageContext Q
  Scratch := Unit
  Arguments := MovingAverageArguments Q
  Control := Unit
  Input := Q
  init := movingAverageInit wide self
  control _ := movingAverageReset self
  step := movingAverageStep self

/-! ## Median -/

structure MedianContext (Q : Type) where
  state : Buffer Q
  workspaceAddress : ℕ
  window : ℕ
  head : ℕ

structure MedianArguments (Q : Type) where
  window : ℕ
  state : Buffer Q
  stateCapacity : ℕ
  workspaceAddress : ℕ
  workspaceCapacity : ℕ

def medianInit (wide : Bool) (self : Extent) (arguments : MedianArguments Q) :
    Except Status (MedianContext Q) := do
  let ⟨window, state, stateCapacity, workspaceAddress, workspaceCapacity⟩ := arguments
  if self.address = 0 ∨ state.address = 0 ∨ workspaceAddress = 0 then throw .errorArgument
  let bytes ← arraySize wide window (FilterFormat.scalarBytes Q)
  if stateCapacity < window ∨ workspaceCapacity < window then throw .errorWorkspace
  let stateExtent : Extent := ⟨state.address, bytes⟩
  let workspaceExtent : Extent := ⟨workspaceAddress, bytes⟩
  if filtersOverlap self stateExtent || filtersOverlap self workspaceExtent ||
    filtersOverlap stateExtent workspaceExtent then throw .errorAlias
  .ok { state := state.clear window, workspaceAddress, window, head := 0 }

def medianReset (self : Extent) (ctx : MedianContext Q) : Except Status (MedianContext Q) :=
  if self.address = 0 then .error .errorArgument
  else .ok { ctx with state := ctx.state.clear ctx.window, head := 0 }

section Steps

/-- A procedure of the median step. -/
abbrev MedianProcedure (Q α : Type) : Type :=
  Procedure Status (Memory (MedianContext Q) (ℕ → Q) Q) α

/-- Copy one ring cell, with the new sample in place of the oldest one. -/
def medianCopy (input : Q) (i : ℕ) (_ : Unit) : MedianProcedure Q Unit :=
  .write fun m => m.mapScratch fun workspace => Function.update workspace i
    (if i = m.ctx.head then input else m.ctx.state.cells i)

/-- The inner loop: move larger elements up until the place of the key is found. -/
def medianShift (key : Int64) : ℕ → MedianProcedure Q ℕ
  | 0 => pure 0
  | j + 1 => do
      let compared ← .read fun m => m.scratch j
      if linearsFixedCompare (FilterFormat.load compared) key ≤ 0 then pure (j + 1)
      else
        .write (Memory.mapScratch fun workspace =>
          Function.update workspace (j + 1) (workspace j))
        medianShift key j

/-- One round of the insertion sort. -/
def medianInsert (i : ℕ) (_ : Unit) : MedianProcedure Q Unit := do
  let keyScalar ← .read fun m => m.scratch i
  let j ← medianShift (FilterFormat.load keyScalar) i
  .write (Memory.mapScratch fun workspace => Function.update workspace j keyScalar)

/-- The middle element, or the once-rounded mean of the two middle elements. -/
def medianResult (window : ℕ) : MedianProcedure Q Q := do
  let result ← .read fun m => m.scratch (window / 2)
  if window % 2 = 0 then
    let left ← .read fun m => m.scratch (window / 2 - 1)
    let two ← call (linearsFixedFromInt 2 (some 0))
    let candidate ← call (linearsFixedAdd (FilterFormat.load left) (FilterFormat.load result)
      (some 0))
    let candidate ← call (linearsFixedDiv candidate two (some candidate))
    call (FilterFormat.exportFixed candidate (some result))
  else pure result

def medianStep (self : Extent) (input : Q) (output : ℕ) : MedianProcedure Q Unit := do
  .attempt (checkOutput self ⟨output, FilterFormat.scalarBytes Q⟩)
  let ctx ← .read Memory.ctx
  .attempt (checkRetained ⟨output, FilterFormat.scalarBytes Q⟩
    [ctx.state.extent ctx.window (FilterFormat.scalarBytes Q),
      ⟨ctx.workspaceAddress, ctx.window * FilterFormat.scalarBytes Q⟩])
  .repeatFrom (medianCopy input) ctx.window 0 ()
  .repeatFrom medianInsert (ctx.window - 1) 1 ()
  let result ← medianResult ctx.window
  .write (Memory.mapCtx fun ctx => { ctx with state := ctx.state.set ctx.head input })
  .write (Memory.mapCtx fun ctx => { ctx with head := ringNext ctx.head ctx.window })
  .write (Memory.emit result)

end Steps

abbrev medianFilter (Q : Type) [FilterFormat Q] (wide : Bool) (self : Extent) : Filter Q where
  Context := MedianContext Q
  Scratch := ℕ → Q
  Arguments := MedianArguments Q
  Control := Unit
  Input := Q
  init := medianInit wide self
  control _ := medianReset self
  step := medianStep self

end Xhive.Filters
