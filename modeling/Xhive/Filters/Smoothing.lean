import Xhive.Filters.Memory

/-!
# The one-pole filters

The exponential moving average and the complementary filter keep one F31
value.  Both blend it with a sample by a weight whose complement is exact.
-/

namespace Xhive.Filters

open Xhive.Support Xhive.Linears

variable {Q : Type} [FilterFormat Q]

/-- `weight`: a nonnegative scalar, stored raw. -/
def weight (value : Q) : Except Status Q :=
  if linearsFixedCompare (FilterFormat.load value) 0 < 0 then .error .errorDomain
  else .ok value

def filtersEmaWorkStep (state : Option Int64) (alpha : Int32) (input : Int64) :
    Status × Option Int64 :=
  withOut state fun old =>
    if alpha < 0 then (.errorDomain, old)
    else
      let result : Except Status Int64 := do
        let sum ← checked (linearsFixedMac (some ⟨0, 0⟩) (fixedOne - alpha.toInt64) old)
        let sum ← checked (linearsFixedMac (some sum) alpha.toInt64 input)
        checked (linearsAccumToFixed sum (some 0))
      commit result old

/-- The initialized raw `alpha` is nonnegative and fits 32 bits. -/
def blend (alpha previous input : Int64) : Except Status Int64 :=
  checked (filtersEmaWorkStep (some previous) alpha.toInt32 input)

/-! ## Exponential moving average -/

structure EmaContext (Q : Type) where
  alpha : Q
  value : Int64

def emaInit (self : Extent) (alpha initial : Q) : Except Status (EmaContext Q) := do
  if self.address = 0 then throw .errorArgument
  let alpha ← weight alpha
  .ok { alpha, value := FilterFormat.load initial }

def emaReset (self : Extent) (initial : Q) (ctx : EmaContext Q) :
    Except Status (EmaContext Q) :=
  if self.address = 0 then .error .errorArgument
  else .ok { ctx with value := FilterFormat.load initial }

def emaStep (self : Extent) (input : Q) (output : ℕ) :
    Procedure Status (Memory (EmaContext Q) Unit Q) Unit := do
  .attempt (checkOutput self ⟨output, FilterFormat.scalarBytes Q⟩)
  let ctx ← .read Memory.ctx
  let candidate ← .attempt (blend (FilterFormat.load ctx.alpha) ctx.value
    (FilterFormat.load input))
  let result ← call (FilterFormat.exportFixed candidate (some FilterFormat.zero))
  .write (Memory.mapCtx fun ctx => { ctx with value := candidate })
  .write (Memory.emit result)

abbrev emaFilter (Q : Type) [FilterFormat Q] (self : Extent) : Filter Q where
  Context := EmaContext Q
  Scratch := Unit
  Arguments := Q × Q
  Control := Q
  Input := Q
  init arguments := emaInit self arguments.1 arguments.2
  control := emaReset self
  step := emaStep self

/-! ## Complementary filter -/

structure ComplementaryContext (Q : Type) where
  alpha : Q
  samplePeriod : Int64
  value : Int64

def complementaryInit (self : Extent) (alpha : Q) (samplePeriod : Int64) (initial : Q) :
    Except Status (ComplementaryContext Q) := do
  if self.address = 0 then throw .errorArgument
  let alpha ← weight alpha
  if linearsFixedCompare samplePeriod 0 ≤ 0 then throw .errorDomain
  .ok { alpha, samplePeriod, value := FilterFormat.load initial }

def complementaryReset (self : Extent) (initial : Q) (ctx : ComplementaryContext Q) :
    Except Status (ComplementaryContext Q) :=
  if self.address = 0 then .error .errorArgument
  else .ok { ctx with value := FilterFormat.load initial }

/-- Prediction from the rate, blended with the measurement in one F62 sum; the
candidate state and the output are both rounded from that sum. -/
def complementaryBlend (ctx : ComplementaryContext Q) (rate measurement : Q) :
    Except Status (Int64 × Q) :=
  let alpha := FilterFormat.load ctx.alpha
  let observed := FilterFormat.load measurement
  if linearsFixedCompare alpha 0 = 0 then .ok (observed, measurement)
  else do
    let increment ← checked
      (linearsFixedMul (FilterFormat.load rate) ctx.samplePeriod (some 0))
    let prediction ← checked (linearsFixedAdd ctx.value increment (some 0))
    let accumulator ← checked (linearsFixedMac (some ⟨0, 0⟩) (fixedOne - alpha) observed)
    let accumulator ← checked (linearsFixedMac (some accumulator) alpha prediction)
    let result ← checked (linearsAccumToQ accumulator (some FilterFormat.zero))
    let candidate ← checked (linearsAccumToFixed accumulator (some 0))
    .ok (candidate, result)

def complementaryStep (self : Extent) (input : Q × Q) (output : ℕ) :
    Procedure Status (Memory (ComplementaryContext Q) Unit Q) Unit := do
  .attempt (checkOutput self ⟨output, FilterFormat.scalarBytes Q⟩)
  let ctx ← .read Memory.ctx
  let (candidate, result) ← .attempt (complementaryBlend ctx input.1 input.2)
  .write (Memory.mapCtx fun ctx => { ctx with value := candidate })
  .write (Memory.emit result)

abbrev complementaryFilter (Q : Type) [FilterFormat Q] (self : Extent) : Filter Q where
  Context := ComplementaryContext Q
  Scratch := Unit
  Arguments := Q × Int64 × Q
  Control := Q
  Input := Q × Q
  init arguments := complementaryInit self arguments.1 arguments.2.1 arguments.2.2
  control := complementaryReset self
  step := complementaryStep self

end Xhive.Filters
