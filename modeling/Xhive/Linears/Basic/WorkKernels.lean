import Xhive.Linears.Basic.QKernels
import Xhive.Linears.Decomp.Arithmetic
import Xhive.Support.Blocks

/-!
# The working matrix kernels

`evaluate_work` and the entry points of `linears_work.h` on F31 matrices.  The
results of an operation are staged and stored after its last element, so an
operation either gives a whole new block or changes nothing.
-/

namespace Xhive.Linears

open Xhive.Support

/-- One element of a product, a sum, a difference or a weighted sum; a weighted
sum adds two exact products and rounds once. -/
def workElement (operation : MatrixOp) (a b : Grid Int64) (inner : ℕ) (alpha beta : Int64)
    (row col : ℕ) : Except Status Int64 :=
  match operation with
  | .add => checked (linearsFixedAdd (a (row, col)) (b (row, col)) (some 0))
  | .sub => checked (linearsFixedSub (a (row, col)) (b (row, col)) (some 0))
  | .transpose => .ok (a (col, row))
  | .mul => do
      let sum ← forRange 0 inner (⟨0, 0⟩ : Accum) fun k sum =>
        checked (linearsFixedMac (some sum) (a (row, k)) (b (k, col)))
      checked (linearsAccumToFixed sum (some 0))
  | _ => do
      let sum ← checked (linearsFixedMac (some (lnProduct alpha (a (row, col)))) beta
        (b (row, col)))
      checked (linearsAccumToFixed sum (some 0))

/-- `evaluate_work` with the commit of its staging; `inner` is `a->cols`. -/
def evaluateWork (operation : MatrixOp) (a b : Grid Int64) (inner rows cols : ℕ)
    (alpha beta : Int64) : Except Status (Grid Int64) :=
  fillBlock rows cols (fun _ => 0) (workElement operation a b inner alpha beta)

def linearsAddFixed (rows cols : ℕ) (a b : Grid Int64) : Except Status (Grid Int64) :=
  evaluateWork .add a b cols rows cols 0 0

def linearsSubFixed (rows cols : ℕ) (a b : Grid Int64) : Except Status (Grid Int64) :=
  evaluateWork .sub a b cols rows cols 0 0

def linearsMulFixed (rows inner cols : ℕ) (a b : Grid Int64) : Except Status (Grid Int64) :=
  evaluateWork .mul a b inner rows cols 0 0

/-- The transpose of an `inner`-column matrix. -/
def linearsTransposeFixed (rows cols : ℕ) (a : Grid Int64) : Except Status (Grid Int64) :=
  evaluateWork .transpose a a rows rows cols 0 0

def linearsAxpbyFixed (rows cols : ℕ) (alpha : Int64) (a : Grid Int64) (beta : Int64)
    (b : Grid Int64) : Except Status (Grid Int64) :=
  evaluateWork .axpby a b cols rows cols alpha beta

def linearsIdentityFixed : Grid Int64 :=
  fun x => if x.1 = x.2 then fixedOne else 0

/-! ## What the kernels store -/

theorem linearsTransposeFixed_ok {rows cols : ℕ} {a t : Grid Int64}
    (h : linearsTransposeFixed rows cols a = .ok t) {i j : ℕ} (hi : i < rows) (hj : j < cols) :
    t (i, j) = a (j, i) :=
  (Except.ok.inj ((fillBlock_ok h).1 i hi j hj)).symm

/-- A weighted sum holds the exact sum, rounded once. -/
theorem linearsAxpbyFixed_ok {rows cols : ℕ} {alpha beta : Int64} {a b c : Grid Int64}
    (h : linearsAxpbyFixed rows cols alpha a beta b = .ok c) {i j : ℕ} (hi : i < rows)
    (hj : j < cols) :
    (c (i, j)).toInt = roundAway
      (((alpha.toInt * (a (i, j)).toInt + beta.toInt * (b (i, j)).toInt : ℤ) : ℚ) / 2 ^ 31) := by
  have hentry := (fillBlock_ok h).1 i hi j hj
  simp only [workElement] at hentry
  obtain ⟨sum, hsum, hstore⟩ := ok_of_bind hentry
  have hvalue : sum.toInt = (lnProduct alpha (a (i, j))).toInt + beta.toInt * (b (i, j)).toInt :=
    (fixed_mac _ _ _).of_eq_ok hsum
  have hstored := fixed_accumToFixed sum
  rw [show fixedAdapter.accumToFixed sum = checked (linearsAccumToFixed sum (some 0)) from rfl,
    hstore] at hstored
  rw [fixedResult_eq_ok hstored.symm, hvalue, toInt_lnProduct]

/-- The average of a matrix with its transpose is symmetric. -/
theorem average_symmetric {n : ℕ} {a t c : Grid Int64} {half : Int64}
    (htranspose : linearsTransposeFixed n n a = .ok t)
    (haverage : linearsAxpbyFixed n n half a half t = .ok c) {i j : ℕ} (hi : i < n) (hj : j < n) :
    c (i, j) = c (j, i) := by
  rw [← Int64.toInt_inj, linearsAxpbyFixed_ok haverage hi hj, linearsAxpbyFixed_ok haverage hj hi,
    linearsTransposeFixed_ok htranspose hi hj, linearsTransposeFixed_ok htranspose hj hi, add_comm]

end Xhive.Linears
