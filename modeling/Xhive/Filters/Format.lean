import Xhive.Linears.Decomp.Arithmetic
import Xhive.Linears.Numeric.Mean
import Xhive.Support.Procedure

/-!
# The Q formats of the filters

`filters_impl.h` is included once per scalar format and hides the format behind
the `FILTERS_*` macros.  A `FilterFormat` is one Q instantiation of them.  The
memory of a filter call is the context with the arrays it retains, the scratch
workspace, and the caller's output cell.
-/

namespace Xhive.Filters

open Xhive.Support Xhive.Linears

/-- One Q instantiation: `FILTERS_LOAD`, `FILTERS_EXPORT`, `sizeof(F_S)` and
the zero scalar, beside the storage format they belong to. -/
class FilterFormat (Q : Type) extends QFormat Q where
  load : Q → Int64
  exportFixed : Int64 → Option Q → Status × Option Q
  scalarBytes : ℕ
  zero : Q
  widen_injective : ∀ x y : Q, (widen x).toInt = (widen y).toInt → x = y
  toInt_load : ∀ x, (load x).toInt = (widen x).toInt * 2 ^ (31 - qBits.toNat)
  toInt_widen_zero : (widen zero).toInt = 0
  exportFixed_ok : ∀ value old, |value.toInt| ≤ 2 ^ 31 →
    ∃ stored, exportFixed value (some old) = (.ok, some stored) ∧
      (widen stored).toInt =
        endpoint qBits.toNat (roundAway ((value.toInt : ℚ) / 2 ^ (31 - qBits.toNat)))
  exportFixed_error : ∀ value old, 2 ^ 31 < |value.toInt| →
    exportFixed value (some old) = (.errorRange, some old)

/-! ## The instantiations -/

/-- The instantiation of `filters_q15.c`. -/
instance : FilterFormat Int16 where
  load := linearsFixedFromQ15
  exportFixed := linearsFixedToQ15
  scalarBytes := 2
  zero := 0
  widen_injective x y h := by
    rw [← Int16.toInt_inj]
    simpa [QFormat.widen, Int16.toInt_toInt64] using h
  toInt_load x := by
    rw [toInt_linearsFixedFromQ15]
    exact congrArg (· * 2 ^ 16) (Int16.toInt_toInt64 x).symm
  toInt_widen_zero := rfl
  exportFixed_ok value old hvalue := by
    obtain ⟨stored, hcall, hstored⟩ := linearsFixedToQ15_ok old hvalue
    exact ⟨stored, hcall, (Int16.toInt_toInt64 stored).trans hstored⟩
  exportFixed_error value old hvalue := by
    rw [linearsFixedToQ15, withOut_some, if_pos ((export_guard_iff value).mpr hvalue)]

/-- The instantiation of `filters_q31.c`. -/
instance : FilterFormat Int32 where
  load := linearsFixedFromQ31
  exportFixed := linearsFixedToQ31
  scalarBytes := 4
  zero := 0
  widen_injective x y h := by
    rw [← Int32.toInt_inj]
    simpa [QFormat.widen, Int32.toInt_toInt64] using h
  toInt_load x := (mul_one _).symm
  toInt_widen_zero := rfl
  exportFixed_ok value old hvalue := by
    obtain ⟨stored, hcall, hstored⟩ := linearsFixedToQ31_ok old hvalue
    exact ⟨stored, hcall, (Int32.toInt_toInt64 stored).trans hstored⟩
  exportFixed_error value old hvalue := by
    rw [linearsFixedToQ31, withOut_some, if_pos ((export_guard_iff value).mpr hvalue)]

end Xhive.Filters
