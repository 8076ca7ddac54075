import Xhive.Fieldctrl.Transforms

/-!
# The open-loop voltage generator

The Q instantiations of `vvvf_init` and `vvvf_step`: an angle advanced by the
commanded frequency, and the voltage of the commanded amplitude at that angle.
-/

namespace Xhive.Fieldctrl

open Xhive.Support Xhive.Linears Xhive.Filters

/-- `fieldctrl_q_vvvf_t`. -/
structure Vvvf where
  angle : Int64

structure VvvfOutput (Q : Type) where
  angle : Q
  voltage : Ab Q
  duty : Abc Q
  saturated : Bool

variable {Q : Type} [FilterFormat Q]

def vvvfInit (self : Extent) (angle : Q) : Except Status Vvvf :=
  if self.address = 0 then .error .errorArgument
  else .ok ⟨fcqWrap (FilterFormat.load angle)⟩

/-- The inputs of one sample. -/
structure VvvfInput (Q : Type) where
  frequency : Q
  amplitude : Q
  dcBus : Q
  dt : Q

/-- `f*dt`, which may not exceed half a turn. -/
def vvvfAdvance (frequency period : Int64) : Except Status Int64 := do
  let advance ← fcqMul frequency period
  let magnitude ← fcqAbs advance
  let one ← fcqI 1
  let two ← fcqI 2
  let half ← fcqDiv one two
  if fcqCmp magnitude half > 0 then throw .errorDomain
  .ok advance

/-- The amplitude in units of the larger of amplitude and bus, limited to
`1/sqrt(3)`, and whether the limit acted. -/
def vvvfModulation (amplitude bus : Int64) : Except Status (Int64 × Bool) := do
  let scale := if fcqCmp amplitude bus > 0 then amplitude else bus
  let v ← fcqDiv amplitude scale
  let one ← fcqI 1
  let three ← fcqI 3
  let root3 ← fcqSqrt three
  let limit ← fcqDiv one root3
  if fcqCmp v limit > 0 then .ok (limit, true) else .ok (v, false)

def vvvfStep (self output : Extent) (input : VvvfInput Q) (ctx : Vvvf) :
    Except Status (VvvfOutput Q × Vvvf) := do
  checkPointers self output
  let amp := FilterFormat.load input.amplitude
  let bus := FilterFormat.load input.dcBus
  let period := FilterFormat.load input.dt
  if fcqCmp amp 0 < 0 ∨ fcqCmp bus 0 ≤ 0 ∨ fcqCmp period 0 ≤ 0 then throw .errorDomain
  let advance ← vvvfAdvance (FilterFormat.load input.frequency) period
  let sum ← fcqAdd ctx.angle advance
  let angle := fcqWrap sum
  let (v, saturated) ← vvvfModulation amp bus
  let (s, c) ← fcqSincos angle
  let a ← fcqMul v c
  let b ← fcqMul v s
  let alpha ← fcqMul a bus
  let alpha ← fcStore alpha
  let beta ← fcqMul b bus
  let beta ← fcStore beta
  let stored ← fcAngleStore angle
  let one ← fcqI 1
  let duty ← basePwm a b one
  .ok ({ angle := stored, voltage := ⟨alpha, beta⟩, duty := duty, saturated := saturated },
    { angle := angle })

end Xhive.Fieldctrl
