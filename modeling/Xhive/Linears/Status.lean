import Mathlib.Algebra.Group.Nat.Defs
import Mathlib.Tactic.NormNum

/-!
# Status codes, out-parameters and sizes

The status enumeration shared by linears and its consumers, the reading of a
C out-parameter used by the numeric layer, and the range of `size_t`.
-/

namespace Xhive.Linears

/-- `linears_status_t`. -/
inductive Status where
  | ok
  | errorArgument
  | errorDimension
  | errorSize
  | errorWorkspace
  | errorAlias
  | errorRange
  | errorDomain
  | errorSingular
  | errorNotPositiveDefinite
  | errorNoConvergence
  deriving DecidableEq, Repr

/-- A function taking a pointer to a caller's cell: `none` is NULL, `some v` is
a cell that holds `v`.  NULL is rejected before anything else is read. -/
def withOut {α : Type} (out : Option α) (body : α → Status × α) :
    Status × Option α :=
  match out with
  | none => (.errorArgument, none)
  | some old => ((body old).1, some (body old).2)

@[simp] theorem withOut_some {α : Type} (old : α) (body : α → Status × α) :
    withOut (some old) body = ((body old).1, some (body old).2) := rfl

/-- `SIZE_MAX`; `wide` is the test `SIZE_MAX > UINT32_MAX` of the sources. -/
def sizeMax (wide : Bool) : Nat :=
  if wide then 2 ^ 64 - 1 else 2 ^ 32 - 1

theorem sizeMax_lt (wide : Bool) : sizeMax wide < 2 ^ 64 := by
  cases wide <;> decide

/-- A value of type `size_t`. -/
def sizeT (wide : Bool) (n : ℤ) : ℕ :=
  (n % (sizeMax wide + 1 : ℕ)).toNat

theorem toNat_sizeT (wide : Bool) (n : ℤ) : (sizeT wide n : ℤ) = n % (sizeMax wide + 1 : ℕ) :=
  Int.toNat_of_nonneg (Int.emod_nonneg _ (by omega))

theorem sizeT_le (wide : Bool) (n : ℤ) : sizeT wide n ≤ sizeMax wide := by
  have hlt := Int.emod_lt_of_pos n (show (0 : ℤ) < (sizeMax wide + 1 : ℕ) by omega)
  rw [← toNat_sizeT] at hlt
  omega

theorem sizeT_of_le (wide : Bool) {n : ℕ} (h : n ≤ sizeMax wide) : sizeT wide n = n := by
  have hvalue := toNat_sizeT wide n
  rw [Int.emod_eq_of_lt (by omega) (by omega)] at hvalue
  exact_mod_cast hvalue

end Xhive.Linears
