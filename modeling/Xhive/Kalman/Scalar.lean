import Xhive.Filters.Memory
import Xhive.Support.Traces

/-!
# The scalar Kalman filter

The Q instantiations of `kalman_scalar_impl.h`.  State and measurements are Q
scalars; the transition and the observation are F31 coefficients.  A call
builds the next state aside and stores it last.  Products that are stored stay
in the accumulator until their only rounding.
-/

namespace Xhive.Kalman

open Xhive.Support Xhive.Linears Xhive.Filters

/-- `filters_kalman_scalar_q15_t` and `filters_kalman_scalar_q31_t`. -/
structure KalmanScalar (Q : Type) where
  estimate : Q
  covariance : Q
  deriving DecidableEq

variable {Q : Type}

/-! ## Arithmetic -/

/-- `k_fixed_sub_product`. -/
def kFixedSubProduct (base a b : Int64) : Except Status Int64 :=
  fixedAdapter.subProduct base a b

section Output

variable [FilterFormat Q]

/-- The final rounding of the output expressions. -/
def accumOut (accumulator : Accum) : Except Status Q :=
  checked (linearsAccumToQ accumulator (some FilterFormat.zero))

/-- `k_q15_two_products` and `k_q31_two_products`. -/
def kTwoProducts (a b c d : Int64) : Except Status Q := do
  let accumulator ← fixedAdapter.mac fixedAdapter.empty a b
  let accumulator ← fixedAdapter.mac accumulator c d
  accumOut accumulator

/-- `k_q15_product` and `k_q31_product`. -/
def kProduct (a b : Int64) : Except Status Q := do
  let accumulator ← fixedAdapter.mac fixedAdapter.empty a b
  accumOut accumulator

/-- `k_q15_sum_product` and `k_q31_sum_product`. -/
def kSumProduct (base a b : Int64) : Except Status Q :=
  kTwoProducts base fixedOne a b

end Output

/-- `K_GAIN` of the Q variants. -/
def kGain (p h s : Int64) : Except Status Int64 :=
  checked (linearsFixedMuldiv p h s (some 0))

/-! ## The next state of each call -/

section Next

variable [FilterFormat Q]

def scalarResetNext (estimate covariance : Q) : Except Status (KalmanScalar Q) := do
  let x := FilterFormat.load estimate
  let p := FilterFormat.load covariance
  if p < 0 then throw .errorDomain
  let estimate ← checked (FilterFormat.exportFixed x (some FilterFormat.zero))
  let covariance ← checked (FilterFormat.exportFixed p (some FilterFormat.zero))
  .ok ⟨estimate, covariance⟩

def scalarPredictNext (transition : Int64) (processNoise : Q) (s : KalmanScalar Q) :
    Except Status (KalmanScalar Q) := do
  let x := FilterFormat.load s.estimate
  let p := FilterFormat.load s.covariance
  let q := FilterFormat.load processNoise
  if p < 0 ∨ q < 0 then throw .errorDomain
  let estimate ← kProduct transition x
  -- p = 0 need not overflow the square of the transition
  let ap ← fixedAdapter.mul transition p
  let covariance ← kSumProduct q ap transition
  .ok ⟨estimate, covariance⟩

/-- The variance `h*p*h + r` of the innovation. -/
def innovationVariance (p h r : Int64) : Except Status Int64 := do
  let ph ← fixedAdapter.mul p h
  let s ← fixedAdapter.mul ph h
  fixedAdapter.add s r

/-- The Joseph form `j*p*j + k*r*k` with `j = 1 - k*h`. -/
def josephCovariance (p h r k : Int64) : Except Status Q := do
  let j ← kFixedSubProduct fixedOne k h
  let jp ← fixedAdapter.mul j p
  let kr ← fixedAdapter.mul k r
  kTwoProducts jp j kr k

def scalarUpdateNext (measurement : Q) (observation : Int64) (measurementNoise : Q)
    (state : KalmanScalar Q) : Except Status (KalmanScalar Q) := do
  let x := FilterFormat.load state.estimate
  let p := FilterFormat.load state.covariance
  let z := FilterFormat.load measurement
  let r := FilterFormat.load measurementNoise
  if p < 0 ∨ r ≤ 0 then throw .errorDomain
  let s ← innovationVariance p observation r
  if s ≤ 0 then throw .errorDomain
  let k ← kGain p observation s
  let residual ← kFixedSubProduct z observation x
  let estimate ← kSumProduct x k residual
  let covariance ← josephCovariance p observation r k
  .ok ⟨estimate, covariance⟩

end Next

/-! ## Calls -/

inductive ScalarCall (Q : Type) where
  | reset (estimate covariance : Q)
  | predict (transition : Int64) (processNoise : Q)
  | update (measurement : Q) (observation : Int64) (measurementNoise : Q)

/-- The state a call computes before it stores it. -/
def ScalarCall.next [FilterFormat Q] :
    ScalarCall Q → KalmanScalar Q → Except Status (KalmanScalar Q)
  | .reset estimate covariance, _ => scalarResetNext estimate covariance
  | .predict transition noise, s => scalarPredictNext transition noise s
  | .update measurement observation noise, s => scalarUpdateNext measurement observation noise s

/-- A call on the object behind its pointer, which may be NULL. -/
def ScalarCall.perform [FilterFormat Q] (isNull : Bool) (call : ScalarCall Q) :
    Procedure Status (KalmanScalar Q) Unit := do
  .attempt (if isNull = true then .error .errorArgument else .ok ())
  let s ← .read id
  let next ← .attempt (call.next s)
  .write fun _ => next

/-- The status of a call and the object after it. -/
def scalarMachine (Q : Type) [FilterFormat Q] :
    Machine (Bool × ScalarCall Q) (Except Status Unit) (KalmanScalar Q) where
  react call s := call.2.perform call.1 s

/-! ## What the parts compute -/

theorem kFixedSubProduct_ok {base a b c : Int64} (h : kFixedSubProduct base a b = .ok c) :
    c.toInt = roundAway (((base.toInt * 2 ^ 31 - a.toInt * b.toInt : ℤ) : ℚ) / 2 ^ 31) :=
  (fixed_subProduct base a b).of_eq_ok h

theorem mul_ok {a b c : Int64} (h : fixedAdapter.mul a b = .ok c) :
    c.toInt = roundAway ((a.toInt : ℚ) * b.toInt / 2 ^ 31) := by
  rw [fixed_mul] at h
  exact fixedResult_eq_ok h

theorem mul_error {a b : Int64} {e : Status} (h : fixedAdapter.mul a b = .error e) :
    e = .errorRange := by
  rw [fixed_mul] at h
  exact fixedResult_eq_error h

theorem kGain_eq (p h : Int64) {s : Int64} (hs : s ≠ 0) :
    kGain p h s = fixedResult (roundAway ((p.toInt : ℚ) * h.toInt / s.toInt)) := by
  rw [kGain, linearsFixedMuldiv_eq p h 0 hs, checked_checkedCall]

section Output

variable [FilterFormat Q]

theorem ensures_accumOut (accumulator : Accum) :
    Ensures (accumOut accumulator : Except Status Q)
      (fun c => (QFormat.widen c).toInt =
        quantizedCode (QFormat.qBits Q).toNat accumulator.toInt) (· = .errorRange) := by
  rw [accumOut]
  rcases linearsAccumToQ_eq accumulator (FilterFormat.zero : Q) with
    ⟨-, stored, heq, hstored⟩ | ⟨-, heq⟩
  · rw [heq]
    exact hstored
  · rw [heq]
    rfl

/-- Two exact products, rounded once. -/
theorem ensures_kTwoProducts (a b c d : Int64) :
    Ensures (kTwoProducts a b c d : Except Status Q)
      (fun out => (QFormat.widen out).toInt = quantizedCode (QFormat.qBits Q).toNat
        (a.toInt * b.toInt + c.toInt * d.toInt)) (· = .errorRange) := by
  refine (fixed_mac _ a b).seq fun first hfirst => ?_
  refine (fixed_mac _ c d).seq fun second hsecond => ?_
  rw [toInt_fixed_empty, zero_add] at hfirst
  rw [hfirst] at hsecond
  exact (ensures_accumOut second).imp fun out hout => hout.trans (by rw [hsecond])

end Output

/-- A rounded product with a nonnegative factor keeps the sign of the other. -/
theorem roundAway_mul_self_nonneg (x : ℤ) {y : ℤ} (hy : 0 ≤ y) :
    0 ≤ roundAway ((x : ℚ) * y / 2 ^ 31) * x := by
  have hy' : (0 : ℚ) ≤ y := by exact_mod_cast hy
  rcases le_total 0 x with hx | hx
  · have hx' : (0 : ℚ) ≤ x := by exact_mod_cast hx
    exact mul_nonneg (roundAway_nonneg (by positivity)) hx
  · have hx' : (x : ℚ) ≤ 0 := by exact_mod_cast hx
    refine mul_nonneg_of_nonpos_of_nonpos (roundAway_le ?_) hx
    rw [Int.cast_zero]
    exact div_nonpos_of_nonpos_of_nonneg (mul_nonpos_of_nonpos_of_nonneg hx' hy') (by norm_num)

/-- A positive noise makes the innovation variance positive. -/
theorem ensures_innovationVariance {p h r : Int64} (hp : 0 ≤ p.toInt) :
    Ensures (innovationVariance p h r)
      (fun s => ∃ ph : ℤ, ph = roundAway ((h.toInt : ℚ) * p.toInt / 2 ^ 31) ∧
        s.toInt = roundAway (((ph * h.toInt : ℤ) : ℚ) / 2 ^ 31) + r.toInt ∧ r.toInt ≤ s.toInt)
      (· = .errorRange) := by
  rw [innovationVariance, fixed_mul, mul_comm (p.toInt : ℚ)]
  refine (ensures_fixedResult _).seq fun ph hph => ?_
  rw [fixed_mul]
  refine (ensures_fixedResult _).seq fun s hs => ?_
  rw [fixed_add]
  refine (ensures_fixedResult _).imp fun t ht => ?_
  have hsign := roundAway_mul_self_nonneg h.toInt hp
  rw [← hph] at hsign
  rw [← Int.cast_mul] at hs
  refine ⟨ph.toInt, hph, by rw [ht, hs], ?_⟩
  have hsign' : (0 : ℚ) ≤ (ph.toInt * h.toInt : ℤ) := by exact_mod_cast hsign
  have hnonneg := roundAway_nonneg (show 0 ≤ ((ph.toInt * h.toInt : ℤ) : ℚ) / 2 ^ 31 by positivity)
  omega

end Xhive.Kalman
