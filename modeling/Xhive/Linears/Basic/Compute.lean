import Xhive.Linears.Basic.QKernels
import Xhive.Linears.Basic.WorkKernels
import Xhive.Support.ByteMemory

/-!
# Matrix operations on memory

`basic.c` works on descriptors whose elements lie in one byte memory, where
operands and results may share bytes.  The checks of a call, the staging of its
results in the workspace and the commit read and write that memory in the order
of the source.
-/

namespace Xhive.Linears

open Xhive.Support

/-! ## Kinds and platforms -/

/-- `numeric_kind`. -/
inductive NumericKind where
  | f32
  | f64
  | q15
  | q31
  | work
  deriving DecidableEq, Repr

/-- `element_size`. -/
def elementSize : NumericKind → ℕ
  | .f32 => 4
  | .f64 => 8
  | .q15 => 2
  | .q31 => 4
  | .work => 8

/-- `sizeof(linears_workspace_unit_t)`. -/
def unitSize : ℕ := 8

theorem elementSize_le (kind : NumericKind) : elementSize kind ≤ unitSize := by
  cases kind <;> decide

/-- The native arithmetic of a floating type. -/
structure FloatOps (F : Type) where
  zero : F
  one : F
  add : F → F → F
  sub : F → F → F
  mul : F → F → F
  div : F → F → F
  abs : F → F
  sqrt : F → F
  lt : F → F → Bool
  isZero : F → Bool
  isFinite : F → Bool

/-- The element type of a kind. -/
def ElementType (Single Double : Type) : NumericKind → Type
  | .f32 => Single
  | .f64 => Double
  | .q15 => Int16
  | .q31 => Int32
  | .work => Int64

/-- The coefficient type of a kind. -/
def ScalarType (Single Double : Type) : NumericKind → Type
  | .f32 => Single
  | .f64 => Double
  | _ => Int64

/-- What a build fixes: the width of `size_t` and `uintptr_t`, the layout of
the descriptor type, the alignments, the floating types and the bytes of the
elements. -/
structure Platform where
  wide : Bool
  matrixSize : ℕ
  matrixAlign : ℕ
  unitAlign : ℕ
  elementAlign : NumericKind → ℕ
  Single : Type
  Double : Type
  single : FloatOps Single
  double : FloatOps Double
  codec : (kind : NumericKind) → Codec (ElementType Single Double kind) (elementSize kind)

namespace Platform

variable (P : Platform)

abbrev Element (kind : NumericKind) : Type :=
  ElementType P.Single P.Double kind

abbrev Scalar (kind : NumericKind) : Type :=
  ScalarType P.Single P.Double kind

end Platform

/-- `linears_matrix_t` with its address; an address of zero is NULL. -/
structure Descriptor where
  address : ℕ
  rows : ℕ
  cols : ℕ
  data : ℕ
  deriving DecidableEq, Repr

namespace Descriptor

def count (a : Descriptor) : ℕ :=
  a.rows * a.cols

/-- The bytes of the elements. -/
def bytes (a : Descriptor) (kind : NumericKind) : ℕ :=
  elementSize kind * a.count

end Descriptor

/-- The little-endian layout of the targets; floating values are their bit
patterns. -/
def littleEndianCodec : (kind : NumericKind) →
    Codec (ElementType UInt32 UInt64 kind) (elementSize kind)
  | .f32 => .word 4 UInt32.toNat UInt32.ofNat UInt32.toNat_lt fun _ => UInt32.ofNat_toNat
  | .f64 => .word 8 UInt64.toNat UInt64.ofNat UInt64.toNat_lt fun _ => UInt64.ofNat_toNat
  | .q15 => .word 2 (fun x : Int16 => x.toUInt16.toNat) (fun n => (UInt16.ofNat n).toInt16)
      (fun x => x.toUInt16.toNat_lt) fun _ => congrArg UInt16.toInt16 (UInt16.ofNat_toNat)
  | .q31 => .word 4 (fun x : Int32 => x.toUInt32.toNat) (fun n => (UInt32.ofNat n).toInt32)
      (fun x => x.toUInt32.toNat_lt) fun _ => congrArg UInt32.toInt32 (UInt32.ofNat_toNat)
  | .work => .word 8 (fun x : Int64 => x.toUInt64.toNat) (fun n => (UInt64.ofNat n).toInt64)
      (fun x => x.toUInt64.toNat_lt) fun _ => congrArg UInt64.toInt64 (UInt64.ofNat_toNat)

/-- A target with 32-bit addresses and the given floating arithmetic. -/
def embeddedPlatform (single : FloatOps UInt32) (double : FloatOps UInt64) : Platform where
  wide := false
  matrixSize := 12
  matrixAlign := 4
  unitAlign := 8
  elementAlign := elementSize
  Single := UInt32
  Double := UInt64
  single := single
  double := double
  codec := littleEndianCodec

/-! ## The elements of an operation -/

section Elements

/-- A raw-Q element, without the workspace cell that a failure keeps. -/
def qElement {Q : Type} [QFormat Q] (wide : Bool) (operation : MatrixOp) (a : View Q)
    (b : Option (View Q)) (outcols : ℕ) (alpha beta : Int64) (row col : ℕ) : Except Status Q :=
  let result := evaluateElement wide operation a b outcols alpha beta row col (QFormat.narrow 0)
  if result.1 = .ok then .ok result.2 else .error result.1

/-- The array of a matrix with `cols` columns as a grid. -/
def gridOf (data : ℕ → Int64) (cols : ℕ) : Grid Int64 :=
  fun x => data (x.1 * cols + x.2)

/-- An element of `evaluate_work`; the elementwise operations index by the
columns of the output. -/
def fixedElement (operation : MatrixOp) (a : View Int64) (b : Option (View Int64))
    (outcols : ℕ) (alpha beta : Int64) (row col : ℕ) : Except Status Int64 :=
  let b := b.getD ⟨0, 0, fun _ => 0⟩
  let stride := fun x : View Int64 =>
    if operation = .mul ∨ operation = .transpose then x.cols else outcols
  workElement operation (gridOf a.data (stride a)) (gridOf b.data (stride b)) a.cols alpha beta
    row col

variable {F : Type} (ops : FloatOps F)

/-- `if (!isfinite(result)) return LINEARS_ERROR_RANGE;` -/
def FloatOps.finite (x : F) : Except Status F :=
  if ops.isFinite x then .ok x else .error .errorRange

/-- The `switch` of the elementwise operations. -/
def FloatOps.elementwise (operation : MatrixOp) (alpha beta x y : F) : F :=
  match operation with
  | .add => ops.add x y
  | .sub => ops.sub x y
  | .hadamard => ops.mul x y
  | .scale => ops.mul alpha x
  | _ => ops.add (ops.mul alpha x) (ops.mul beta y)

/-- An element of `evaluate_f32` and `evaluate_f64`. -/
def floatElement (operation : MatrixOp) (a : View F) (b : Option (View F)) (outcols : ℕ)
    (alpha beta : F) (row col : ℕ) : Except Status F :=
  let i := row * outcols + col
  if operation = .mul ∨ operation = .matvec then do
    let result ← forRange 0 a.cols ops.zero fun k result =>
      let right := b.elim ops.zero fun b => b.data (k * b.cols + col)
      ops.finite (ops.add result (ops.mul (a.data (row * a.cols + k)) right))
    ops.finite result
  else if operation = .transpose then
    ops.finite (a.data (col * a.cols + row))
  else
    let y := b.elim ops.zero fun b => b.data i
    ops.finite (ops.elementwise operation alpha beta (a.data i) y)

/-! ## Reductions -/

def qReduction {Q : Type} [QFormat Q] (wide : Bool) (operation : ReductionOp) (a : View Q)
    (b : Option (View Q)) (count : ℕ) : Except Status Q :=
  let result := reduce wide operation a b count (QFormat.narrow 0)
  if result.1 = .ok then .ok result.2 else .error result.1

/-- One term of `NORM`: the scaled sum of squares `(sum, scale)` takes the
magnitude `x`. -/
def scaledSquare (x : F) (s : F × F) : F × F :=
  if ops.lt s.2 x then
    let ratio := ops.div s.2 x
    (ops.add ops.one (ops.mul s.1 (ops.mul ratio ratio)), x)
  else
    let ratio := ops.div x s.2
    (ops.add s.1 (ops.mul ratio ratio), s.2)

/-- `reduce_f32` and `reduce_f64`. -/
def floatReduction (operation : ReductionOp) (a : View F) (b : Option (View F)) (count : ℕ) :
    Except Status F := do
  let second := fun i => b.elim ops.zero fun b => b.data i
  let s ← forRange 0 count (ops.zero, ops.zero) fun i s => do
    let x := a.data (if operation = .trace then i * a.cols + i else i)
    -- a zero of `NORM` continues before the test of the sum
    if operation = .norm ∧ ops.isZero (ops.abs x) then .ok s
    else do
      let s := match operation with
        | .norm => scaledSquare ops (ops.abs x) s
        | .dot => (ops.add s.1 (ops.mul x (second i)), s.2)
        | .trace => (ops.add s.1 x, s.2)
      let sum ← ops.finite s.1
      .ok (sum, s.2)
  ops.finite (if operation = .norm then ops.mul s.2 (ops.sqrt s.1) else s.1)

end Elements

namespace Platform

variable (P : Platform)

/-- The element that the kernel of a kind stages. -/
def element : (kind : NumericKind) → MatrixOp → View (P.Element kind) →
    Option (View (P.Element kind)) → ℕ → P.Scalar kind → P.Scalar kind → ℕ → ℕ →
    Except Status (P.Element kind)
  | .f32 => floatElement P.single
  | .f64 => floatElement P.double
  | .q15 => qElement (Q := Int16) P.wide
  | .q31 => qElement (Q := Int32) P.wide
  | .work => fixedElement

/-- The value of a reduction.  No public reduction is of the working kind: such a
call would take the q31 kernel, which reads other elements. -/
def reduction : (kind : NumericKind) → kind ≠ .work → ReductionOp → View (P.Element kind) →
    Option (View (P.Element kind)) → ℕ → Except Status (P.Element kind)
  | .f32, _ => floatReduction P.single
  | .f64, _ => floatReduction P.double
  | .q15, _ => qReduction (Q := Int16) P.wide
  | .q31, _ => qReduction (Q := Int32) P.wide
  | .work, h => absurd rfl h

/-- The diagonal value of `fill_matrix`. -/
def identityEntry : (kind : NumericKind) → P.Element kind
  | .f32 => P.single.one
  | .f64 => P.double.one
  | .q15 => Int16.maxValue
  | .q31 => Int32.maxValue
  | .work => fixedOne

def zeroEntry : (kind : NumericKind) → P.Element kind
  | .f32 => P.single.zero
  | .f64 => P.double.zero
  | .q15 => (0 : Int16)
  | .q31 => (0 : Int32)
  | .work => (0 : Int64)

/-- The test that `input_values` makes of an element; integers have none. -/
def valid : (kind : NumericKind) → P.Element kind → Bool
  | .f32 => P.single.isFinite
  | .f64 => P.double.isFinite
  | _ => fun _ => true

/-- The matrix of a descriptor in a memory. -/
def view (kind : NumericKind) (m : ByteMemory) (a : Descriptor) : View (P.Element kind) where
  rows := a.rows
  cols := a.cols
  data := fun i => (P.codec kind).load m (a.data + elementSize kind * i)

/-! ## The checks -/

end Platform

def overlap (a asize b bsize : ℕ) : Bool :=
  if asize = 0 ∨ bsize = 0 then false
  else if a ≤ b then b - a < asize
  else a - b < bsize

namespace Platform

variable (P : Platform)

/-- `matrix_storage`, giving the matrix that is not NULL; its count is
`rows * cols`. -/
def matrixStorage (kind : NumericKind) (matrix : Option Descriptor) : Except Status Descriptor :=
  match matrix with
  | none => .error .errorArgument
  | some a =>
      if a.address % P.matrixAlign ≠ 0 then .error .errorArgument
      else if a.cols ≠ 0 ∧ a.rows > sizeMax P.wide / a.cols then .error .errorSize
      else if a.count > sizeMax P.wide / elementSize kind then .error .errorSize
      else if a.count ≠ 0 ∧ (a.data = 0 ∨ a.data % P.elementAlign kind ≠ 0) then
        .error .errorArgument
      else if a.count * elementSize kind > sizeMax P.wide - a.data then .error .errorSize
      else .ok a

/-- `matrix_storage` of the operand that an operation may lack. -/
def optionalStorage (kind : NumericKind) (matrix : Option Descriptor) :
    Except Status (Option Descriptor) :=
  match matrix with
  | none => .ok none
  | some a => some <$> P.matrixStorage kind (some a)

/-- `input_values`. -/
def inputValues (kind : NumericKind) (m : ByteMemory) (a : Descriptor) : Except Status Unit :=
  forRange 0 a.count () fun i _ =>
    if P.valid kind ((P.view kind m a).data i) then .ok () else .error .errorRange

/-- The conflicts of `matrix_aliases`: a descriptor in an element buffer, or two
descriptors that overlap without being the same. -/
def aliased (kind : NumericKind) (matrices : List Descriptor) : Bool :=
  matrices.any fun x => matrices.any fun y =>
    overlap x.address P.matrixSize y.data (y.bytes kind) ||
      (x.address != y.address && overlap x.address P.matrixSize y.address P.matrixSize)

/-- `matrix_aliases`. -/
def matrixAliases (kind : NumericKind) (matrices : List Descriptor) : Except Status Unit :=
  if P.aliased kind matrices then .error .errorAlias else .ok ()

/-- `scratch_storage`; `bytes` is the whole capacity of the workspace. -/
def scratchStorage (kind : NumericKind) (workspace bytes count : ℕ) (matrices : List Descriptor) :
    Except Status Unit :=
  if count > sizeMax P.wide / unitSize then .error .errorSize
  else if unitSize * count = 0 then .ok ()
  else if workspace = 0 ∨ bytes < unitSize * count ∨ workspace % P.unitAlign ≠ 0 then
    .error .errorWorkspace
  else if bytes > sizeMax P.wide - workspace then .error .errorSize
  else if matrices.any fun x => overlap workspace bytes x.address P.matrixSize ||
      overlap workspace bytes x.data (x.bytes kind) then .error .errorAlias
  else .ok ()

end Platform

/-- The operations with two operands. -/
def binary (operation : MatrixOp) : Bool :=
  operation ∈ [.add, .sub, .hadamard, .mul, .matvec, .axpby]

/-- The shapes that an operation admits. -/
def shapesMatch (operation : MatrixOp) (a : Descriptor) (b : Option Descriptor)
    (out : Descriptor) : Bool :=
  match operation with
  | .mul | .matvec =>
      b.all fun b => a.cols = b.rows ∧ out.rows = a.rows ∧ out.cols = b.cols ∧
        (operation = .matvec → b.cols = 1)
  | .transpose => out.rows = a.cols ∧ out.cols = a.rows
  | _ =>
      out.rows = a.rows ∧ out.cols = a.cols ∧
        b.all fun b => b.rows = a.rows ∧ b.cols = a.cols

/-! ## The call -/

/-- The public entries over `matrix_compute`; the working kind has fewer. -/
structure MatrixEntry where
  operation : MatrixOp
  kind : NumericKind
  offered : kind = .work → operation ∈ [.add, .sub, .mul, .transpose, .axpby]

/-- The operands of a call that passed its checks. -/
structure Operands where
  a : Descriptor
  b : Option Descriptor
  out : Descriptor

namespace Operands

def matrices (call : Operands) : List Descriptor :=
  call.a :: call.b.toList ++ [call.out]

end Operands

namespace Platform

variable (P : Platform)

/-- The checks of `matrix_compute`, in its order. -/
def screen (operation : MatrixOp) (kind : NumericKind) (a b out : Option Descriptor)
    (workspace bytes : ℕ) (m : ByteMemory) : Except Status Operands := do
  let a ← P.matrixStorage kind a
  let b ← P.optionalStorage kind b
  let out ← P.matrixStorage kind out
  let call : Operands := ⟨a, b, out⟩
  if binary operation ∧ b = none then .error .errorArgument else
  if ¬shapesMatch operation a b out then .error .errorDimension else do
  P.matrixAliases kind call.matrices
  P.scratchStorage kind workspace bytes out.count call.matrices
  P.inputValues kind m a
  match b with
  | some b => P.inputValues kind m b
  | none => .ok ()
  .ok call

/-- The kernel loop of a kind: an element is computed from the memory as it is
then and stored in its workspace unit.  A failure stops with its status. -/
def evaluateStaged (operation : MatrixOp) (kind : NumericKind) (call : Operands)
    (alpha beta : P.Scalar kind) (workspace : ℕ) (m : ByteMemory) : Status × ByteMemory :=
  stageRows call.out.rows call.out.cols m fun row col t =>
    match P.element kind operation (P.view kind t call.a) (call.b.map (P.view kind t))
        call.out.cols alpha beta row col with
    | .ok value =>
        (.ok, (P.codec kind).store t (workspace + unitSize * (row * call.out.cols + col)) value)
    | .error status => (status, t)

/-- `commit_result`. -/
def commitResult (kind : NumericKind) (out : Descriptor) (workspace : ℕ) (m : ByteMemory) :
    ByteMemory :=
  foldRange 0 out.count m fun i t =>
    (P.codec kind).store t (out.data + elementSize kind * i)
      ((P.codec kind).load t (workspace + unitSize * i))

/-- `matrix_compute`. -/
def matrixCompute (operation : MatrixOp) (kind : NumericKind) (a b out : Option Descriptor)
    (alpha beta : P.Scalar kind) (workspace bytes : ℕ) (m : ByteMemory) : Status × ByteMemory :=
  match P.screen operation kind a b out workspace bytes m with
  | .error status => (status, m)
  | .ok call =>
      if call.out.count = 0 then (.ok, m)
      else
        let result := P.evaluateStaged operation kind call alpha beta workspace m
        if result.1 = .ok then (.ok, P.commitResult kind call.out workspace result.2) else result

/-! ## Copies, constants and reductions -/

/-- The checks of `copy_matrix`. -/
def copyChecks (kind : NumericKind) (a out : Option Descriptor) (m : ByteMemory) :
    Except Status (Descriptor × Descriptor) := do
  let a ← P.matrixStorage kind a
  let out ← P.matrixStorage kind out
  if a.rows ≠ out.rows ∨ a.cols ≠ out.cols then .error .errorDimension else do
  P.matrixAliases kind [a, out]
  P.inputValues kind m a
  .ok (a, out)

/-- `copy_matrix`. -/
def copyMatrix (kind : NumericKind) (a out : Option Descriptor) (m : ByteMemory) :
    Status × ByteMemory :=
  match P.copyChecks kind a out m with
  | .error status => (status, m)
  | .ok x => (.ok, if x.1.count ≠ 0 then memmove x.2.data x.1.data (x.1.bytes kind) m else m)

/-- The checks of `fill_matrix`. -/
def fillChecks (kind : NumericKind) (out : Option Descriptor) (identity : Bool) :
    Except Status Descriptor := do
  let out ← P.matrixStorage kind out
  if identity ∧ out.rows ≠ out.cols then .error .errorDimension else do
  P.matrixAliases kind [out]
  .ok out

/-- The loop of `fill_matrix`. -/
def fillStores (kind : NumericKind) (out : Descriptor) (identity : Bool) (m : ByteMemory) :
    ByteMemory :=
  foldRange 0 out.count m fun i t =>
    (P.codec kind).store t (out.data + elementSize kind * i)
      (if identity ∧ i / out.cols = i % out.cols then P.identityEntry kind else P.zeroEntry kind)

/-- `fill_matrix`. -/
def fillMatrix (kind : NumericKind) (out : Option Descriptor) (identity : Bool) (m : ByteMemory) :
    Status × ByteMemory :=
  match P.fillChecks kind out identity with
  | .error status => (status, m)
  | .ok out => (.ok, P.fillStores kind out identity m)

/-- The checks of `reduction`, giving its operands. -/
def screenReduction (operation : ReductionOp) (kind : NumericKind) (a b : Option Descriptor)
    (out : ℕ) (m : ByteMemory) : Except Status (Descriptor × Option Descriptor) := do
  let a ← P.matrixStorage kind a
  let b ← P.optionalStorage kind b
  if operation = .dot ∧ b = none then .error .errorArgument else
  if (operation = .trace ∧ a.rows ≠ a.cols) ∨ ¬(b.all fun b => a.rows = b.rows ∧ a.cols = b.cols)
    then .error .errorDimension else
  if out = 0 ∨ out % P.elementAlign kind ≠ 0 then .error .errorArgument else
  if (a :: b.toList).any fun x => overlap out (elementSize kind) x.address P.matrixSize then
    .error .errorAlias
  else do
  P.matrixAliases kind (a :: b.toList)
  P.inputValues kind m a
  match b with
  | some b => P.inputValues kind m b
  | none => .ok ()
  .ok (a, b)

/-- `reduction`; the scalar is stored after the last element was read. -/
def reductionCall (operation : ReductionOp) (kind : NumericKind) (hkind : kind ≠ .work)
    (a b : Option Descriptor) (out : ℕ) (m : ByteMemory) : Status × ByteMemory :=
  match P.screenReduction operation kind a b out m with
  | .error status => (status, m)
  | .ok x =>
      let count := if operation = .trace then x.1.rows else x.1.count
      match P.reduction kind hkind operation (P.view kind m x.1) (x.2.map (P.view kind m))
          count with
      | .ok value => (.ok, (P.codec kind).store m out value)
      | .error status => (status, m)

end Platform

end Xhive.Linears
