import Xhive.Fieldctrl.Arith

/-!
# CORDIC, Park transforms and modulation

The parts of `cordic.c` and `base_impl.h` that the current controller calls:
the sine and cosine of an angle in turns, the rotations into and out of the
rotor frame, the radial limiter and the space-vector modulator.
-/

namespace Xhive.Fieldctrl

open Xhive.Support Xhive.Linears Xhive.Filters

structure Dq (V : Type) where
  d : V
  q : V

structure Ab (V : Type) where
  alpha : V
  beta : V

structure Abc (V : Type) where
  a : V
  b : V
  c : V

/-! ## CORDIC -/

/-- `fc_atan_turns`, in `2 ^ 62` counts a turn. -/
def fcAtanTurns : Array Int64 :=
  #[576460752303423488, 340304653033718298,
    179807632645220259, 91273161881380487,
    45813697873323707, 22929182573009054,
    11467389120678282, 5734044481687724,
    2867065987018958, 1433538461969102,
    716769914547871, 358385042719534,
    179192532040472, 89596267355325,
    44798133844548, 22399066943135,
    11199533474175, 5599766737413,
    2799883368747, 1399941684379,
    699970842190, 349985421095,
    174992710548, 87496355274,
    43748177637, 21874088818,
    10937044409, 5468522205,
    2734261102, 1367130551,
    683565276, 341782638]

/-- A shift of the magnitude, so that it rounds toward zero. -/
def fcCoordShift (value : Int64) (bits : ℕ) : Int64 :=
  let magnitude : UInt64 := if value < 0 then 0 - value.toUInt64 else value.toUInt64
  let shifted := (magnitude >>> UInt64.ofNat bits).toInt64
  if value < 0 then -shifted else shifted

def fcqWrap (x : Int64) : Int64 :=
  let remainder := x % fixedOne
  if remainder < 0 then remainder + fixedOne else remainder

structure Rotation where
  x : Int64
  y : Int64
  z : Int64

/-- One rotation toward `z = 0`. -/
def rotate (i : ℕ) (v : Rotation) : Rotation :=
  let dx := fcCoordShift v.x i
  let dy := fcCoordShift v.y i
  if v.z ≥ 0 then ⟨v.x - dy, v.y + dx, v.z - fcAtanTurns.getD i 0⟩
  else ⟨v.x + dy, v.y - dx, v.z + fcAtanTurns.getD i 0⟩

/-- Sine and cosine of an angle in turns; the four axes are exact. -/
def fcqSincos (a : Int64) : Except Status (Int64 × Int64) :=
  let turn : Int64 := 4611686018427387904
  let quarter : Int64 := 1152921504606846976
  let z := fcqWrap a * fixedOne
  if z = 0 ∨ z = quarter ∨ z = 2 * quarter ∨ z = 3 * quarter then
    .ok (if z = quarter then fixedOne else if z = 3 * quarter then -fixedOne else 0,
      if z = 0 then fixedOne else if z = 2 * quarter then -fixedOne else 0)
  else
    let z := if z ≥ 2 * quarter then z - turn else z
    -- Beyond a quarter turn the opposite vector is rotated.
    let turned : Int64 × Int64 :=
      if z > quarter then (z - 2 * quarter, -1)
      else if z < -quarter then (z + 2 * quarter, -1)
      else (z, 1)
    let v := foldRange 0 32 ⟨700114967507363239, 0, turned.1⟩ rotate
    do
      let s ← checked (linearsFixedMuldiv (turned.2 * v.y) 1 536870912 (some 0))
      let c ← checked (linearsFixedMuldiv (turned.2 * v.x) 1 536870912 (some 0))
      .ok (s, c)

/-- One rotation toward `y = 0`; a vector on the axis stays there. -/
def vector (i : ℕ) (v : Rotation) : Rotation :=
  let dx := fcCoordShift v.x i
  let dy := fcCoordShift v.y i
  if v.y = 0 then v
  else if v.y > 0 then ⟨v.x + dy, v.y - dx, v.z + fcAtanTurns.getD i 0⟩
  else ⟨v.x - dy, v.y + dx, v.z - fcAtanTurns.getD i 0⟩

/-- The angle of a vector, in turns; the zero vector has none. -/
def fcqAtan2 (fy fx : Int64) : Except Status Int64 :=
  let turn : Int64 := 4611686018427387904
  if fx = 0 ∧ fy = 0 then .error .errorDomain
  else if fy = 0 then .ok (if fx > 0 then 0 else fixedOne / 2)
  else if fx = 0 then .ok (if fy > 0 then fixedOne / 4 else 3 * (fixedOne / 4))
  else do
    let ax ← fcqAbs fx
    let ay ← fcqAbs fy
    let largest := if ax ≥ ay then ax else ay
    let nx ← fcqDiv fx largest
    let ny ← fcqDiv fy largest
    let x := nx * 536870912
    let y := ny * 536870912
    let v := foldRange 0 32 (if x < 0 then ⟨-x, -y, turn / 2⟩ else ⟨x, y, 0⟩) vector
    let z := if v.z < 0 then v.z + turn else v.z
    let z := if z ≥ turn then z - turn else z
    let a ← checked (linearsFixedMuldiv z 1 fixedOne (some 0))
    .ok (fcqWrap a)

/-! ## Rotations -/

variable {Q : Type} [FilterFormat Q]

/-- `FC_ANGLE_STORE`.  The Q15 variant takes the upper half-cell to zero turns. -/
def fcAngleStore (x : Int64) : Except Status Q :=
  let work := fcqWrap x
  if QFormat.qBits Q = 15 then
    if work ≥ fixedOne - 32768 then .ok FilterFormat.zero else fcStore work
  else do
    let temp : Q ← fcStore work
    if fcqCmp (FilterFormat.load temp) fixedOne ≥ 0 then fcStore 0 else .ok temp

def park (stationary : Ab Q) (angle : Q) : Except Status (Dq Q) := do
  let a := FilterFormat.load stationary.alpha
  let b := FilterFormat.load stationary.beta
  let (s, c) ← fcqSincos (FilterFormat.load angle)
  let ac ← fcqMul a c
  let bs ← fcqMul b s
  let d ← fcqAdd ac bs
  let d ← fcStore d
  let bc ← fcqMul b c
  let as ← fcqMul a s
  let q ← fcqSub bc as
  let q ← fcStore q
  .ok ⟨d, q⟩

def inversePark (rotating : Dq Q) (angle : Q) : Except Status (Ab Q) := do
  let d := FilterFormat.load rotating.d
  let q := FilterFormat.load rotating.q
  let (s, c) ← fcqSincos (FilterFormat.load angle)
  let dc ← fcqMul d c
  let qs ← fcqMul q s
  let alpha ← fcqSub dc qs
  let alpha ← fcStore alpha
  let ds ← fcqMul d s
  let qc ← fcqMul q c
  let beta ← fcqAdd ds qc
  let beta ← fcStore beta
  .ok ⟨alpha, beta⟩

/-! ## Modulation -/

/-- Both components scaled onto the circle of radius `limit`. -/
def rescaleOnto (a b limit magnitude : Int64) : Except Status (Int64 × Int64) := do
  let a ← fcqRescale a limit magnitude
  let b ← fcqRescale b limit magnitude
  .ok (a, b)

def baseLimit (a b limit : Int64) : Except Status (Int64 × Int64) := do
  let magnitude ← fcqHypot a b
  if fcqCmp magnitude limit > 0 then rescaleOnto a b limit magnitude else .ok (a, b)

/-- A phase about the middle of the bus. -/
def centre (half offset x : Int64) : Except Status Int64 := do
  let centred ← fcqSub x offset
  fcqAdd half centred

def basePwm (a b bus : Int64) : Except Status (Abc Q) := do
  let three ← fcqI 3
  let root3 ← fcqSqrt three
  let one ← fcqI 1
  let limit ← fcqDiv one root3
  let two ← fcqI 2
  let half ← fcqDiv one two
  let aa ← fcqAbs a
  let bb ← fcqAbs b
  let larger := if fcqCmp aa bb > 0 then aa else bb
  let scale := if fcqCmp larger bus < 0 then bus else larger
  let a ← fcqDiv a scale
  let b ← fcqDiv b scale
  let (a, b) ← baseLimit a b limit
  let p := a
  let rootB ← fcqMul root3 b
  let difference ← fcqSub rootB a
  let q ← fcqMul half difference
  let sum ← fcqAdd a rootB
  let opposite ← fcqNeg sum
  let r ← fcqMul half opposite
  let lo := if fcqCmp p q < 0 then p else q
  let lo := if fcqCmp lo r < 0 then lo else r
  let hi := if fcqCmp p q > 0 then p else q
  let hi := if fcqCmp hi r > 0 then hi else r
  let ends ← fcqAdd lo hi
  let offset ← fcqMul half ends
  let zero ← fcqI 0
  let p ← centre half offset p
  let q ← centre half offset q
  let r ← centre half offset r
  let a ← fcStore (baseClamp p zero one)
  let b ← fcStore (baseClamp q zero one)
  let c ← fcStore (baseClamp r zero one)
  .ok ⟨a, b, c⟩

def svpwm (voltage : Ab Q) (dcBus : Q) : Except Status (Abc Q) :=
  let bus := FilterFormat.load dcBus
  if fcqCmp bus 0 ≤ 0 then .error .errorDomain
  else basePwm (FilterFormat.load voltage.alpha) (FilterFormat.load voltage.beta) bus

end Xhive.Fieldctrl
