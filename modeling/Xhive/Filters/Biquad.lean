import Xhive.Filters.Smoothing

/-!
# The biquad cascade

Second-order sections in transposed direct form II.  Each section stages its
next state in the workspace; the workspace is copied to the state after the
last section has succeeded.
-/

namespace Xhive.Filters

open Xhive.Support Xhive.Linears

variable {Q : Type} [FilterFormat Q]

structure BiquadCoefficients where
  b0 : Int64
  b1 : Int64
  b2 : Int64
  a1 : Int64
  a2 : Int64
  deriving DecidableEq, Repr

structure BiquadContext where
  coefficients : Buffer BiquadCoefficients
  state : Buffer Int64
  workspaceAddress : ℕ
  sections : ℕ

structure BiquadArguments where
  coefficients : Buffer BiquadCoefficients
  sections : ℕ
  state : Buffer Int64
  stateCapacity : ℕ
  workspaceAddress : ℕ
  workspaceCapacity : ℕ

/-- `LINEARS_SIZE_MUL`: the product, or `SIZE_MAX` when it would overflow. -/
def linearsSizeMul (wide : Bool) (a b : ℕ) : ℕ :=
  if (a ||| if b = 0 then 1 else 0) > sizeMax wide / (if b ≠ 0 then b else 1) then sizeMax wide
  else a * b

theorem linearsSizeMul_lt {wide : Bool} {a b : ℕ} (hb : 0 < b)
    (h : linearsSizeMul wide a b ≠ sizeMax wide) :
    linearsSizeMul wide a b = a * b ∧ a * b < sizeMax wide := by
  have hne : b ≠ 0 := hb.ne'
  rw [linearsSizeMul, if_neg hne, if_pos hne, Nat.or_zero] at h ⊢
  by_cases hgt : a > sizeMax wide / b
  · rw [if_pos hgt] at h
    exact absurd rfl h
  · rw [if_neg hgt] at h ⊢
    have hle : a * b ≤ sizeMax wide := (Nat.le_div_iff_mul_le hb).mp (not_lt.mp hgt)
    exact ⟨rfl, lt_of_le_of_ne hle h⟩

/-- Any coefficient is valid in the Q formats, so none is rejected here. -/
def biquadInit (wide : Bool) (self : Extent) (arguments : BiquadArguments) :
    Except Status BiquadContext := do
  let ⟨coefficients, sections, state, stateCapacity, workspaceAddress, workspaceCapacity⟩ :=
    arguments
  if self.address = 0 ∨ coefficients.address = 0 ∨ state.address = 0 ∨ workspaceAddress = 0 then
    throw .errorArgument
  let stateCount := linearsSizeMul wide 2 sections
  if stateCount = sizeMax wide then throw .errorSize
  let stateBytes ← arraySize wide stateCount 8
  let coefficientBytes ← arraySize wide sections 40
  if stateCapacity < stateCount ∨ workspaceCapacity < stateCount then throw .errorWorkspace
  let coefficientExtent : Extent := ⟨coefficients.address, coefficientBytes⟩
  let stateExtent : Extent := ⟨state.address, stateBytes⟩
  let workspaceExtent : Extent := ⟨workspaceAddress, stateBytes⟩
  if filtersOverlap self coefficientExtent || filtersOverlap self stateExtent ||
    filtersOverlap self workspaceExtent || filtersOverlap coefficientExtent stateExtent ||
    filtersOverlap coefficientExtent workspaceExtent ||
    filtersOverlap stateExtent workspaceExtent then throw .errorAlias
  let cleared := { state with cells := fun i => if i < stateCount then 0 else state.cells i }
  .ok { coefficients, state := cleared, workspaceAddress, sections }

def biquadReset (self : Extent) (ctx : BiquadContext) : Except Status BiquadContext :=
  if self.address = 0 then .error .errorArgument
  else
    let cleared := { ctx.state with
      cells := fun i => if i < 2 * ctx.sections then 0 else ctx.state.cells i }
    .ok { ctx with state := cleared }

/-- The narrowed output of a section and its two next states. -/
def biquadArithmetic (c : BiquadCoefficients) (sample s1 s2 : Int64) :
    Except Status (Q × Int64 × Int64) := do
  let accumulator ← checked (linearsFixedMac (some ⟨0, 0⟩) c.b0 sample)
  let accumulator ← checked (linearsFixedMac (some accumulator) fixedOne s1)
  let result ← checked (linearsAccumToQ accumulator (some FilterFormat.zero))
  let y ← checked (linearsAccumToFixed accumulator (some 0))
  let accumulator ← checked (linearsFixedMac (some ⟨0, 0⟩) c.b1 sample)
  let accumulator ← checked (linearsFixedMsu (some accumulator) c.a1 y)
  let accumulator ← checked (linearsFixedMac (some accumulator) fixedOne s2)
  let next1 ← checked (linearsAccumToFixed accumulator (some 0))
  let accumulator ← checked (linearsFixedMac (some ⟨0, 0⟩) c.b2 sample)
  let accumulator ← checked (linearsFixedMsu (some accumulator) c.a2 y)
  let next2 ← checked (linearsAccumToFixed accumulator (some 0))
  .ok (result, next1, next2)

/-- One section; only its output is narrowed, the staged states stay F31. -/
def biquadSection (i : ℕ) (carried : Int64 × Q) :
    Procedure Status (Memory BiquadContext (ℕ → Int64) Q) (Int64 × Q) := do
  let c ← .read fun m => m.ctx.coefficients.cells i
  let s1 ← .read fun m => m.ctx.state.cells (2 * i)
  let s2 ← .read fun m => m.ctx.state.cells (2 * i + 1)
  let (result, next1, next2) ← .attempt (biquadArithmetic c carried.1 s1 s2)
  .write (Memory.mapScratch fun workspace => Function.update workspace (2 * i) next1)
  .write (Memory.mapScratch fun workspace => Function.update workspace (2 * i + 1) next2)
  pure (FilterFormat.load result, result)

/-- Copy the staged states of all sections. -/
def biquadCommit (m : Memory BiquadContext (ℕ → Int64) Q) :
    Memory BiquadContext (ℕ → Int64) Q :=
  m.mapCtx fun ctx => { ctx with state := { ctx.state with
    cells := fun i => if i < 2 * ctx.sections then m.scratch i else ctx.state.cells i } }

/-- The loop over the sections tests its condition at the end. -/
def biquadStep (self : Extent) (input : Q) (output : ℕ) :
    Procedure Status (Memory BiquadContext (ℕ → Int64) Q) Unit := do
  .attempt (checkOutput self ⟨output, FilterFormat.scalarBytes Q⟩)
  let ctx ← .read Memory.ctx
  .attempt (checkRetained ⟨output, FilterFormat.scalarBytes Q⟩
    [ctx.state.extent (2 * ctx.sections) 8, ⟨ctx.workspaceAddress, 2 * ctx.sections * 8⟩,
      ctx.coefficients.extent ctx.sections 40])
  let last ← .repeatFrom biquadSection (max 1 ctx.sections) 0
    (FilterFormat.load input, FilterFormat.zero)
  .write biquadCommit
  .write (Memory.emit last.2)

abbrev biquadFilter (Q : Type) [FilterFormat Q] (wide : Bool) (self : Extent) : Filter Q where
  Context := BiquadContext
  Scratch := ℕ → Int64
  Arguments := BiquadArguments
  Control := Unit
  Input := Q
  init := biquadInit wide self
  control _ := biquadReset self
  step := biquadStep self

end Xhive.Filters
