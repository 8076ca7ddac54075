import Xhive.Linears.Numeric.Accumulator
import Xhive.Linears.Numeric.Sqrt
import Xhive.Support.Outcome
import Mathlib.Tactic.Simps.Basic

/-!
# The scalar adapter of the decomposition templates

`decomp_template.h` is included once per format and hides the format behind the
`D_*` macros.  An `Adapter` is one such instantiation: the macros become fields
that return a value or the status that the sticky `status` variable would keep.
`D_CMP` is the order of the scalar type.
-/

namespace Xhive.Linears

open Xhive.Support

/-- The arithmetic of one template instantiation over scalars `S` with
accumulators `A`. -/
structure Adapter (S A : Type) where
  /-- `D_FIXED`: selects the fused products of the fixed formats. -/
  fixed : Bool
  zero : S
  one : S
  epsilon : S
  add : S → S → Except Status S
  sub : S → S → Except Status S
  mul : S → S → Except Status S
  div : S → S → Except Status S
  sqrt : S → Except Status S
  neg : S → Except Status S
  abs : S → Except Status S
  constant : ℤ → Except Status S
  empty : A
  mac : A → S → S → Except Status A
  msu : A → S → S → Except Status A
  accumToFixed : A → Except Status S

/-- The storage side of an instantiation: `load`, `output_bounds`, `store`. -/
structure Format (Raw S : Type) where
  load : Raw → S
  inBounds : S → S → Bool
  store : S → Raw

/-- A working array addressed by row and column. -/
abbrev Grid (S : Type) := ℕ × ℕ → S

/-! ## Template helpers -/

namespace Adapter

variable {S A : Type} [LinearOrder S] (D : Adapter S A)

/-- `sub_product`: `value - a * b` with one final rounding.  The native formats
write a product and a difference in its place. -/
def subProduct (value a b : S) : Except Status S :=
  if D.fixed then do
    let accumulator ← D.mac D.empty value D.one
    let accumulator ← D.msu accumulator a b
    D.accumToFixed accumulator
  else do
    let product ← D.mul a b
    D.sub value product

/-- `dot_sub`: a dot product subtracted from `value` with one final rounding, or
the product-by-product loop of the native formats. -/
def dotSub (value : S) (left right : ℕ → S) (count : ℕ) : Except Status S :=
  if D.fixed then do
    let accumulator ← D.mac D.empty value D.one
    let accumulator ← forRange 0 count accumulator fun i accumulator =>
      D.msu accumulator (left i) (right i)
    D.accumToFixed accumulator
  else
    forRange 0 count value fun i value => do
      let product ← D.mul (left i) (right i)
      D.sub value product

/-- A sum of products whose factors are computed term by term. -/
def sumTerms (term : ℕ → Except Status (S × S)) (count : ℕ) : Except Status S :=
  if D.fixed then do
    let accumulator ← forRange 0 count D.empty fun i accumulator => do
      let factors ← term i
      D.mac accumulator factors.1 factors.2
    D.accumToFixed accumulator
  else
    forRange 0 count D.zero fun i sum => do
      let factors ← term i
      let product ← D.mul factors.1 factors.2
      D.add sum product

/-- `dot`, or the product-by-product loop of the native formats. -/
def dot (left right : ℕ → S) (count : ℕ) : Except Status S :=
  D.sumTerms (fun i => .ok (left i, right i)) count

/-- The largest magnitude of a strided range, from zero. -/
def maxMagnitude (values : ℕ → S) (count : ℕ) : Except Status S :=
  forRange 0 count D.zero fun i maximum => do
    let magnitude ← D.abs (values i)
    .ok (if maximum < magnitude then magnitude else maximum)

/-- Euclidean norm with maximum-magnitude scaling. -/
def norm (values : ℕ → S) (count : ℕ) : Except Status S := do
  let maximum ← D.maxMagnitude values count
  if maximum = D.zero then .ok D.zero
  else
    let sum ← D.sumTerms (fun i => do
      let ratio ← D.div (values i) maximum
      .ok (ratio, ratio)) count
    let root ← D.sqrt sum
    D.mul maximum root

/-- Exact symmetry of an `n`-by-`n` working array. -/
def checkSymmetric (data : Grid S) (n : ℕ) : Except Status Unit :=
  forRange 0 n () fun i _ => forRange (i + 1) n () fun j _ =>
    if data (i, j) = data (j, i) then .ok () else .error .errorDimension

end Adapter

/-- The running extrema of a preflight; both start at `D_ZERO`. -/
def widenBounds {S : Type} [LinearOrder S] (bounds : S × S) (value : S) : S × S :=
  (if value < bounds.1 then value else bounds.1, if bounds.2 < value then value else bounds.2)

namespace Format

variable {Raw S : Type} [LinearOrder S] (F : Format Raw S)

def outputBounds (bounds : S × S) : Except Status Unit :=
  if F.inBounds bounds.1 bounds.2 then .ok () else .error .errorRange

/-- Preflight of a `rows`-by-`cols` result block. -/
def checkBlock (zero : S) (values : Grid S) (rows cols : ℕ) : Except Status Unit :=
  F.outputBounds (foldRange 0 rows (zero, zero) fun i bounds =>
    foldRange 0 cols bounds fun j bounds => widenBounds bounds (values (i, j)))

end Format

/-! ## The instantiations -/

/-- The value a checked call delivers to the sticky-status adapters. -/
def checked {V : Type} (result : Status × Option V) : Except Status V :=
  match result with
  | (.ok, some v) => .ok v
  | (status, _) => .error status

theorem checked_eq_ok {V : Type} {result : Status × Option V} {v : V}
    (h : checked result = .ok v) : result = (.ok, some v) := by
  obtain ⟨status, out⟩ := result
  cases status <;> cases out <;> simp_all [checked]

/-- The fixed-F31 arithmetic shared by q15, q31 and the working format. -/
def fixedAdapter : Adapter Int64 Accum where
  fixed := true
  zero := 0
  one := fixedOne
  epsilon := 1
  add a b := checked (linearsFixedAdd a b (some 0))
  sub a b := checked (linearsFixedSub a b (some 0))
  mul a b := checked (linearsFixedMul a b (some 0))
  div a b := checked (linearsFixedDiv a b (some 0))
  sqrt value := checked (linearsFixedSqrt value (some 0))
  neg value := checked (linearsFixedNeg value (some 0))
  abs value := checked (linearsFixedAbs value (some 0))
  constant value := checked (linearsFixedFromInt (Int64.ofInt value) (some 0))
  empty := ⟨0, 0⟩
  mac accumulator a b := checked (linearsFixedMac (some accumulator) a b)
  msu accumulator a b := checked (linearsFixedMsu (some accumulator) a b)
  accumToFixed accumulator := checked (linearsAccumToFixed accumulator (some 0))

/-- The order behind `linears_fixed_compare`. -/
instance int64LinearOrder : LinearOrder Int64 where
  le_refl a := Int64.le_refl a
  le_trans _ _ _ := Int64.le_trans
  le_antisymm _ _ := Int64.le_antisymm
  le_total a b := Int64.le_total a b
  lt_iff_le_not_ge a b := by
    rw [Int64.lt_iff_toInt_lt, Int64.le_iff_toInt_le, Int64.le_iff_toInt_le]
    omega
  toDecidableLE := inferInstance
  toDecidableEq := inferInstance
  toDecidableLT := inferInstance

/-- `D_CMP` of the fixed formats decides this order. -/
theorem linearsFixedCompare_iff (a b : Int64) :
    (0 < linearsFixedCompare a b ↔ b < a) ∧ (linearsFixedCompare a b < 0 ↔ a < b) ∧
      (linearsFixedCompare a b = 0 ↔ a = b) := by
  rw [linearsFixedCompare]
  rcases lt_trichotomy a b with h | h | h
  · simp [h, h.ne, h.not_gt]
  · simp [h]
  · simp [h, h.ne', h.not_gt]

/-- Exact arithmetic over an ordered field, in either operation order. -/
@[simps] def exactAdapter (K : Type) [Field K] [LinearOrder K] (fixed : Bool) (sqrt : K → K)
    (epsilon : K) : Adapter K K where
  fixed := fixed
  zero := 0
  one := 1
  epsilon := epsilon
  add a b := .ok (a + b)
  sub a b := .ok (a - b)
  mul a b := .ok (a * b)
  div a b := .ok (a / b)
  sqrt value := .ok (sqrt value)
  neg value := .ok (-value)
  abs value := .ok |value|
  constant value := .ok value
  empty := 0
  mac accumulator a b := .ok (accumulator + a * b)
  msu accumulator a b := .ok (accumulator - a * b)
  accumToFixed accumulator := .ok accumulator

def q15Format : Format Int16 Int64 where
  load := linearsFixedFromQ15
  inBounds minimum maximum := decide (¬(minimum < -fixedOne ∨ maximum > fixedOne))
  store value := (linearsFixedToQ15 value (some 0)).2.getD 0

def q31Format : Format Int32 Int64 where
  load := linearsFixedFromQ31
  inBounds minimum maximum := decide (¬(minimum < -fixedOne ∨ maximum > fixedOne))
  store value := (linearsFixedToQ31 value (some 0)).2.getD 0

/-- `D_FORMAT == 5`: every int64 is representable. -/
def workingFormat : Format Int64 Int64 where
  load := id
  inBounds _ _ := true
  store := id

/-- Values of an exact field are stored as they are. -/
def exactFormat (K : Type) : Format K K where
  load := id
  inBounds _ _ := true
  store := id

end Xhive.Linears
