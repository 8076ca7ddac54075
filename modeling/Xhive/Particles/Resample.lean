import Xhive.Filters.Format
import Xhive.Particles.Wide

/-!
# Systematic resampling

`weight_total` and `resample_indices` of `pf_q_internal.h`.  A floating uniform
enters as what `frexp` and `ldexp` make of it, a mantissa over a power of two.
-/

namespace Xhive.Particles

open Xhive.Support Xhive.Linears Xhive.Filters

/-- A particle format: `U_SIGNAL_MAX` beside the scalar format, whose cells
take at least two bytes. -/
class ParticleFormat (Q : Type) extends FilterFormat Q where
  signalMax : Q
  toInt_signalMax : (widen signalMax).toInt = 2 ^ qBits.toNat - 1
  two_le_scalarBytes : 2 ≤ scalarBytes

instance : ParticleFormat Int16 where
  signalMax := 32767
  toInt_signalMax := rfl
  two_le_scalarBytes := le_rfl

instance : ParticleFormat Int32 where
  signalMax := 2147483647
  toInt_signalMax := rfl
  two_le_scalarBytes := by decide

variable {Q : Type} [ParticleFormat Q]

/-! ## Weights -/

/-- `(uint64_t)w[i]`. -/
def weightWord (weight : Q) : UInt64 :=
  (QFormat.widen weight).toUInt64

/-- One round of the sum; negative weights are refused. -/
def weightAdd (weights : ℕ → Q) (i : ℕ) (sum : Accum) : Except Status Accum :=
  if QFormat.widen (weights i) < 0 then .error .errorDomain
  else .ok (pfQUadd sum ⟨weightWord (weights i), 0⟩)

def weightTotal (weights : ℕ → Q) (count : ℕ) : Except Status Accum := do
  let sum ← forRange 0 count ⟨0, 0⟩ (weightAdd weights)
  if sum.low = 0 ∧ sum.high = 0 then throw .errorDomain
  .ok sum

/-! ## The uniform draw -/

/-- The exact value `mantissa / 2 ^ shift` of a floating number in `[0, 1)`. -/
structure BinaryDraw where
  mantissa : UInt64
  shift : ℕ
  below_one : mantissa.toNat < 2 ^ shift

/-- The floating argument as the function tells its cases apart. -/
inductive Uniform where
  | nonfinite
  /-- Finite, outside `[0, 1)`. -/
  | outside
  | draw (d : BinaryDraw)

/-! ## The thresholds -/

/-- What the two divisions leave for the loop. -/
structure ResamplePlan where
  start : UInt64
  remainder : UInt64
  step : UInt64
  stepRemainder : UInt64
  fraction : Bool

def resamplePlan (total : Accum) (d : BinaryDraw) (count : ℕ) : ResamplePlan :=
  let initial := pfQUniformProduct total d.mantissa d.shift
  let first := pfQUdiv initial.1 (UInt64.ofNat count)
  let each := pfQUdiv total (UInt64.ofNat count)
  { start := first.1
    remainder := first.2
    step := each.1
    stepRemainder := each.2
    fraction := initial.2 }

/-- The locals of the loop, with the indices written so far. -/
structure ResampleLocals where
  j : ℕ
  cumulative : Accum
  floorTarget : Accum
  remainder : UInt64
  indices : ℕ → ℕ

/-- The integer threshold: one more than the quotient unless it is exact. -/
def resampleTarget (fraction : Bool) (l : ResampleLocals) : Accum :=
  if l.remainder ≠ 0 ∨ fraction then pfQUadd l.floorTarget ⟨1, 0⟩ else l.floorTarget

/-- The inner loop; `left` counts the indices that its guard still admits. -/
def resampleScan (weights : ℕ → Q) (target : Accum) : ℕ → ℕ × Accum → ℕ × Accum
  | 0, s => s
  | left + 1, s =>
      if pfQUcmp s.2 target < 0 then
        resampleScan weights target left
          (s.1 + 1, pfQUadd s.2 ⟨weightWord (weights (s.1 + 1)), 0⟩)
      else s

/-- The next quotient and remainder; a full remainder carries into the step. -/
def resampleAdvance (plan : ResamplePlan) (count : ℕ) (l : ResampleLocals) : Accum × UInt64 :=
  let remainder := l.remainder + plan.stepRemainder
  if remainder ≥ UInt64.ofNat count then
    (pfQUadd l.floorTarget ⟨plan.step + 1, 0⟩, remainder - UInt64.ofNat count)
  else (pfQUadd l.floorTarget ⟨plan.step, 0⟩, remainder)

def resampleRound (plan : ResamplePlan) (weights : ℕ → Q) (count i : ℕ) (l : ResampleLocals) :
    ResampleLocals :=
  let s := resampleScan weights (resampleTarget plan.fraction l) (count - 1 - l.j)
    (l.j, l.cumulative)
  let next := resampleAdvance plan count l
  { j := s.1
    cumulative := s.2
    floorTarget := next.1
    remainder := next.2
    indices := Function.update l.indices i s.1 }

/-- The locals before round `i`. -/
def resampleLoop (plan : ResamplePlan) (weights : ℕ → Q) (count : ℕ) (indices : ℕ → ℕ) (i : ℕ) :
    ResampleLocals :=
  foldRange 0 i
    { j := 0
      cumulative := ⟨weightWord (weights 0), 0⟩
      floorTarget := ⟨plan.start, 0⟩
      remainder := plan.remainder
      indices }
    (resampleRound plan weights count)

/-- The indices are written only after every check. -/
def resampleIndices (weights : ℕ → Q) (count : ℕ) (uniform : Uniform)
    (indices : Option (ℕ → ℕ)) (capacity : ℕ) : Except Status (ℕ → ℕ) :=
  match indices with
  | none => .error .errorArgument
  | some indices =>
      if capacity < count then .error .errorWorkspace
      else
        match uniform with
        | .nonfinite => .error .errorRange
        | .outside => .error .errorDomain
        | .draw d => do
            let total ← weightTotal weights count
            .ok (resampleLoop (resamplePlan total d count) weights count indices count).indices

end Xhive.Particles
