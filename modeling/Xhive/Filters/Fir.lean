import Xhive.Filters.Smoothing
import Xhive.Support.Ring

/-!
# The FIR filter

The delay line is a ring of raw samples.  The sum walks the ring backwards from
the head and takes the current sample in place of the slot about to be
overwritten.
-/

namespace Xhive.Filters

open Xhive.Support Xhive.Linears

variable {Q : Type} [FilterFormat Q]

structure FirContext (Q : Type) where
  coefficients : Buffer Int64
  state : Buffer Q
  taps : ℕ
  head : ℕ

structure FirArguments (Q : Type) where
  coefficients : Buffer Int64
  taps : ℕ
  state : Buffer Q
  stateCapacity : ℕ

/-- The first `count` cells of a ring set to the zero scalar. -/
def Buffer.clear (buffer : Buffer Q) (count : ℕ) : Buffer Q :=
  { buffer with cells := fun i => if i < count then FilterFormat.zero else buffer.cells i }

/-- Any coefficient is valid in the Q formats, so none is rejected here. -/
def firInit (wide : Bool) (self : Extent) (arguments : FirArguments Q) :
    Except Status (FirContext Q) := do
  let ⟨coefficients, taps, state, stateCapacity⟩ := arguments
  if self.address = 0 ∨ coefficients.address = 0 ∨ state.address = 0 then throw .errorArgument
  let _ ← arraySize wide taps (FilterFormat.scalarBytes Q)
  let _ ← arraySize wide taps 8
  if stateCapacity < taps then throw .errorWorkspace
  let stateExtent := state.extent taps (FilterFormat.scalarBytes Q)
  let coefficientExtent := coefficients.extent taps 8
  if filtersOverlap self coefficientExtent || filtersOverlap self stateExtent ||
    filtersOverlap coefficientExtent stateExtent then throw .errorAlias
  .ok { coefficients, state := state.clear taps, taps, head := 0 }

def firReset (self : Extent) (ctx : FirContext Q) : Except Status (FirContext Q) :=
  if self.address = 0 then .error .errorArgument
  else .ok { ctx with state := ctx.state.clear ctx.taps, head := 0 }

/-- One tap: the walk starts at the head with the current sample and moves one
slot back before each later tap. -/
def firTap (ctx : FirContext Q) (sample : Int64) (i : ℕ) (walk : ℕ × Accum) :
    Except Status (ℕ × Accum) :=
  if i = 0 then do
    let accumulator ← checked
      (linearsFixedMac (some walk.2) (ctx.coefficients.cells i) sample)
    .ok (walk.1, accumulator)
  else do
    let index := ringPrevious walk.1 ctx.taps
    let accumulator ← checked (linearsFixedMac (some walk.2) (ctx.coefficients.cells i)
      (FilterFormat.load (ctx.state.cells index)))
    .ok (index, accumulator)

def firSum (ctx : FirContext Q) (input : Q) : Except Status Accum := do
  let walk ← forRange 0 ctx.taps (ctx.head, ⟨0, 0⟩) (firTap ctx (FilterFormat.load input))
  .ok walk.2

def firStep (self : Extent) (input : Q) (output : ℕ) :
    Procedure Status (Memory (FirContext Q) Unit Q) Unit := do
  .attempt (checkOutput self ⟨output, FilterFormat.scalarBytes Q⟩)
  let ctx ← .read Memory.ctx
  .attempt (checkRetained ⟨output, FilterFormat.scalarBytes Q⟩
    [ctx.state.extent ctx.taps (FilterFormat.scalarBytes Q), ctx.coefficients.extent ctx.taps 8])
  let accumulator ← .attempt (firSum ctx input)
  let result ← call (linearsAccumToQ accumulator (some FilterFormat.zero))
  .write (Memory.mapCtx fun ctx => { ctx with state := ctx.state.set ctx.head input })
  .write (Memory.mapCtx fun ctx => { ctx with head := ringNext ctx.head ctx.taps })
  .write (Memory.emit result)

abbrev firFilter (Q : Type) [FilterFormat Q] (wide : Bool) (self : Extent) : Filter Q where
  Context := FirContext Q
  Scratch := Unit
  Arguments := FirArguments Q
  Control := Unit
  Input := Q
  init := firInit wide self
  control _ := firReset self
  step := firStep self

end Xhive.Filters
