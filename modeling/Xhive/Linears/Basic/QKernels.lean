import Xhive.Linears.Numeric.Quantize
import Xhive.Linears.Numeric.Sqrt
import Xhive.Support.Outcome
import Mathlib.Algebra.Order.BigOperators.Group.Finset

/-!
# The raw-Q matrix kernels

One definition serves both formats: `QFormat` supplies `Q_TYPE` and `Q_BITS`.
Element data are read-only functions of the row-major index and results are
staged in a workspace, as `matrix_compute` arranges before it calls a kernel.
-/

namespace Xhive.Linears

open Xhive.Support

/-! ## Operations and descriptors -/

/-- `matrix_op`. -/
inductive MatrixOp where
  | add
  | sub
  | hadamard
  | mul
  | matvec
  | transpose
  | axpby
  | scale
  deriving DecidableEq, Repr

/-- `reduction_op`. -/
inductive ReductionOp where
  | dot
  | norm
  | trace
  deriving DecidableEq, Repr

/-- What a kernel reads of a matrix: its dimensions and its elements by
row-major index. -/
structure View (V : Type) where
  rows : ℕ
  cols : ℕ
  data : ℕ → V

/-- A view that passed `matrix_storage`: both dimensions and the element count
are `size_t` values. -/
structure Stored (wide : Bool) (V : Type) extends View V where
  rows_le : rows ≤ sizeMax wide
  cols_le : cols ≤ sizeMax wide
  count_le : rows * cols ≤ sizeMax wide

/-! ## Dot products -/

section Kernels

variable {Q : Type} [QFormat Q] (wide : Bool)

/-- The int64 product of two raw codes. -/
def rawProduct (x y : Q) : Int64 :=
  QFormat.widen x * QFormat.widen y

/-- The signed-64-bit accumulation of the q15 path. -/
def dotNarrow (a : ℕ → Q) (astride : ℕ) (b : ℕ → Q) (bstride count : ℕ) : Int64 :=
  foldRange 0 count 0 fun i sum => sum + rawProduct (a (i * astride)) (b (i * bstride))

/-- The limb accumulation. -/
def dotLimbs (a : ℕ → Q) (astride : ℕ) (b : ℕ → Q) (bstride count : ℕ) : Accum :=
  foldRange 0 count ⟨0, 0⟩ fun i sum =>
    lnAddProduct64 sum (rawProduct (a (i * astride)) (b (i * bstride)))

/-- The limb path with the alignment the q15 build appends. -/
def dotFallback (a : ℕ → Q) (astride : ℕ) (b : ℕ → Q) (bstride count : ℕ) : Accum :=
  let sum := dotLimbs a astride b bstride count
  if QFormat.qBits Q = 15 then lnShiftAccum sum 32 else sum

/-- The guard of the int64 path, compiled only on wide targets. -/
def narrowCount (count : ℕ) : Prop :=
  wide = true → count ≤ (2 ^ 63 - 1) / 2 ^ 30

instance (count : ℕ) : Decidable (narrowCount wide count) :=
  inferInstanceAs (Decidable (_ → _))

def dotRaw (a : ℕ → Q) (astride : ℕ) (b : ℕ → Q) (bstride count : ℕ) : Accum :=
  if QFormat.qBits Q = 15 ∧ narrowCount wide count then
    lnShiftI64 (dotNarrow a astride b bstride count) 32
  else
    dotFallback a astride b bstride count

/-! ## The element loop and the reductions -/

/-- `bdata == NULL ? 0 : bdata[i]`. -/
def secondCode (b : Option (View Q)) (i : ℕ) : Int64 :=
  match b with
  | some b => QFormat.widen (b.data i)
  | none => 0

/-- The signal code a coefficient multiplies; q15 codes are first aligned. -/
def alignedCode (Q : Type) [QFormat Q] (x : Int64) : Int64 :=
  if QFormat.qBits Q = 15 then x * 65536 else x

/-- The sum of `MUL` and `MATVEC`; an empty inner dimension reads no data. -/
def productSum (a : View Q) (b : Option (View Q)) (row col : ℕ) : Accum :=
  match b with
  | some b =>
      if a.cols ≠ 0 then
        dotRaw wide (fun k => a.data (row * a.cols + k)) 1 (fun k => b.data (col + k))
          b.cols a.cols
      else ⟨0, 0⟩
  | none => ⟨0, 0⟩

/-- The exact sum that an element of every operation but `TRANSPOSE` exports. -/
def elementSum (operation : MatrixOp) (a : View Q) (b : Option (View Q))
    (alpha beta : Int64) (row col i : ℕ) : Accum :=
  if operation = .mul ∨ operation = .matvec then
    productSum wide a b row col
  else
    let x := QFormat.widen (a.data i)
    let y := secondCode b i
    if operation = .add ∨ operation = .sub then
      lnShiftI64 (if operation = .add then x + y else x - y) (62 - QFormat.qBits Q)
    else if operation = .hadamard then
      let product := x * y
      if QFormat.qBits Q = 15 then lnShiftI64 product 32
      else ⟨product.toUInt64, if product < 0 then 0xffffffffffffffff else 0⟩
    else
      let sum := lnProduct alpha (alignedCode Q x)
      if operation = .axpby then lnAddUnchecked sum (lnProduct beta (alignedCode Q y)) else sum

/-- One iteration of the loop nest, writing the workspace cell `old`. -/
def evaluateElement (operation : MatrixOp) (a : View Q) (b : Option (View Q))
    (outcols : ℕ) (alpha beta : Int64) (row col : ℕ) (old : Q) : Status × Q :=
  if operation = .transpose then
    (.ok, a.data (col * a.cols + row))
  else
    let result := linearsAccumToQ
      (elementSum wide operation a b alpha beta row col (row * outcols + col)) (some old)
    (result.1, result.2.getD old)

/-- A row-major loop nest that stages one element per iteration and stops at
the first status that is not `LINEARS_OK`. -/
def stageRows {σ : Type} (rows cols : ℕ) (s : σ)
    (element : ℕ → ℕ → σ → Status × σ) : Status × σ :=
  let run := forRange 0 rows s fun row s => forRange 0 cols s fun col s =>
    let result := element row col s
    if result.1 = .ok then .ok result.2 else .error result
  match run with
  | .ok s => (.ok, s)
  | .error result => result

def evaluate (operation : MatrixOp) (a : View Q) (b : Option (View Q))
    (outrows outcols : ℕ) (alpha beta : Int64) (workspace : ℕ → Q) : Status × (ℕ → Q) :=
  stageRows outrows outcols workspace fun row col workspace =>
    let i := row * outcols + col
    let result := evaluateElement wide operation a b outcols alpha beta row col (workspace i)
    (result.1, Function.update workspace i result.2)

/-- The count `reduction` hands to its kernel. -/
def reductionCount (operation : ReductionOp) (a : View Q) : ℕ :=
  if operation = .trace then a.rows else a.rows * a.cols

/-- The diagonal accumulation of `TRACE`, before its alignment. -/
def traceLimbs (a : View Q) (count : ℕ) : Accum :=
  foldRange 0 count ⟨0, 0⟩ fun i sum =>
    lnAddProduct64 sum (QFormat.widen (a.data (i * a.cols + i)))

def reduce (operation : ReductionOp) (a : View Q) (b : Option (View Q))
    (count : ℕ) (out : Q) : Status × Q :=
  let sum :=
    if operation = .trace then lnShiftAccum (traceLimbs a count) (62 - QFormat.qBits Q)
    else
      let bdata := match operation, b with
        | .norm, _ => a.data
        | _, some b => b.data
        | _, none => a.data
      dotRaw wide a.data 1 bdata 1 count
  if operation = .norm then
    if sum.high ≠ 0 ∨ sum.low > (1 : UInt64) <<< 62 then
      (.errorRange, out)
    else
      let raw := lnSqrtNearest64
        (if QFormat.qBits Q = 15 then sum.low >>> 32 else sum.low)
      let raw := if raw = (1 : UInt64) <<< QFormat.qBits Q then raw - 1 else raw
      (.ok, QFormat.narrow raw.toInt64)
  else
    let result := linearsAccumToQ sum (some out)
    (result.1, result.2.getD out)

end Kernels

/-- Invariant rule for the staging loop: `inv row col` speaks of the elements
before `(row, col)`, `fail` of the element that stopped the loop. -/
theorem stageRows_induction {σ : Type} {rows cols : ℕ} {s : σ}
    {element : ℕ → ℕ → σ → Status × σ} (inv : ℕ → ℕ → σ → Prop) (fail : Status × σ → Prop)
    (hinit : inv 0 0 s) (hnext : ∀ row t, row < rows → inv row cols t → inv (row + 1) 0 t)
    (hstep : ∀ row col t, row < rows → col < cols → inv row col t →
      ((element row col t).1 = .ok ∧ inv row (col + 1) (element row col t).2) ∨
        ((element row col t).1 ≠ .ok ∧ fail (element row col t))) :
    ((stageRows rows cols s element).1 = .ok ∧ inv rows 0 (stageRows rows cols s element).2) ∨
      ((stageRows rows cols s element).1 ≠ .ok ∧ fail (stageRows rows cols s element)) := by
  have hrun : Ensures (forRange 0 rows s fun row s => forRange 0 cols s fun col s =>
      if (element row col s).1 = .ok then .ok (element row col s).2
      else .error (element row col s))
      (inv rows 0) fun result => result.1 ≠ .ok ∧ fail result := by
    refine Ensures.forRange (fun row => inv row 0) (Nat.zero_le _) hinit ?_
    intro row t _ hrow ht
    refine Ensures.imp (Ensures.forRange (fun col => inv row col) (Nat.zero_le cols) ht ?_)
      fun u hu => hnext row u hrow hu
    intro col u _ hcol hu
    rcases hstep row col u hrow hcol hu with h | h
    · rw [if_pos h.1]
      exact h.2
    · rw [if_neg h.1]
      exact h
  rw [stageRows]
  generalize (forRange 0 rows s fun row s => forRange 0 cols s fun col s =>
      if (element row col s).1 = .ok then .ok (element row col s).2
      else .error (element row col s)) = run at hrun
  cases run with
  | ok t => exact Or.inl ⟨rfl, hrun⟩
  | error result => exact Or.inr hrun

end Xhive.Linears
