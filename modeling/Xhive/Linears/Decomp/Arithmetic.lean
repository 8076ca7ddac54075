import Xhive.Linears.Decomp.Adapter
import Mathlib.Algebra.BigOperators.Field
import Mathlib.Algebra.BigOperators.Intervals
import Mathlib.Algebra.Order.BigOperators.Ring.Finset

/-!
# What the adapter operations compute

Each operation of the fixed adapter returns its exact result rounded once, or a
status; each operation of an exact adapter returns its value.
-/

namespace Xhive.Linears

open Xhive.Support

/-! ## Ordered readings -/

/-- An order-preserving reading of the scalars in an ordered field, with exact
magnitudes; `fail` holds of the statuses `D_ABS` may raise. -/
structure OrderedArith {S A K : Type} [LinearOrder S] [Field K] [LinearOrder K]
    (D : Adapter S A) (value : S → K) (fail : Status → Prop) : Prop where
  value_le : ∀ x y, value x ≤ value y ↔ x ≤ y
  value_zero : value D.zero = 0
  abs : ∀ x, Ensures (D.abs x) (fun m => value m = |value x|) fail

namespace OrderedArith

variable {S A K : Type} [LinearOrder S] [Field K] [LinearOrder K]
variable {D : Adapter S A} {value : S → K} {fail : Status → Prop}

theorem value_lt (H : OrderedArith D value fail) (x y : S) : value x < value y ↔ x < y := by
  rw [← not_le, ← not_le, H.value_le]

theorem value_eq_zero (H : OrderedArith D value fail) (x : S) : value x = 0 ↔ x = D.zero := by
  rw [← H.value_zero, le_antisymm_iff, H.value_le, H.value_le, ← le_antisymm_iff]

/-- The scan returns the largest magnitude, or zero for an empty range. -/
theorem maxMagnitude (H : OrderedArith D value fail) (values : ℕ → S) (count : ℕ) :
    Ensures (D.maxMagnitude values count)
      (fun maximum => (∀ i < count, |value (values i)| ≤ value maximum) ∧
        (value maximum = 0 ∨ ∃ i < count, value maximum = |value (values i)|)) fail := by
  refine Ensures.forRange (fun hi maximum => (∀ i < hi, |value (values i)| ≤ value maximum) ∧
    (value maximum = 0 ∨ ∃ i < hi, value maximum = |value (values i)|)) (Nat.zero_le count) ?_ ?_
  · exact ⟨fun i hi => by omega, Or.inl H.value_zero⟩
  · rintro k maximum _ _ ⟨hle, hattained⟩
    refine (H.abs _).seq fun magnitude hmag => ?_
    rw [ensures_ok]
    split
    · rename_i hlt
      rw [← H.value_lt] at hlt
      refine ⟨fun i hi => ?_, Or.inr ⟨k, Nat.lt_succ_self k, hmag⟩⟩
      rcases Nat.lt_succ_iff_lt_or_eq.mp hi with h | rfl
      · exact (hle i h).trans hlt.le
      · exact hmag.ge
    · rename_i hnot
      rw [← H.value_lt, hmag, not_lt] at hnot
      refine ⟨fun i hi => ?_, ?_⟩
      · rcases Nat.lt_succ_iff_lt_or_eq.mp hi with h | rfl
        · exact hle i h
        · exact hnot
      · obtain hzero | ⟨i, hi, heq⟩ := hattained
        · exact Or.inl hzero
        · exact Or.inr ⟨i, hi.trans (Nat.lt_succ_self k), heq⟩

end OrderedArith

/-! ## The fixed adapter -/

/-- The outcome of a checked fixed operation with integer result `n`. -/
def fixedResult (n : ℤ) : Except Status Int64 :=
  if FitsInt64 n then .ok (Int64.ofInt n) else .error .errorRange

theorem fixedResult_of_fits {n : ℤ} (hn : FitsInt64 n) :
    fixedResult n = .ok (Int64.ofInt n) :=
  if_pos hn

theorem ensures_fixedResult (n : ℤ) :
    Ensures (fixedResult n) (fun c => c.toInt = n) (· = .errorRange) := by
  rw [fixedResult]
  split
  · exact toInt_ofInt_of_fits ‹_›
  · rfl

theorem fixedResult_eq_ok {n : ℤ} {c : Int64} (h : fixedResult n = .ok c) : c.toInt = n :=
  (ensures_fixedResult n).of_eq_ok h

theorem fixedResult_eq_error {n : ℤ} {e : Status} (h : fixedResult n = .error e) :
    e = .errorRange :=
  (ensures_fixedResult n).of_eq_error h

theorem checked_checkedCall (n : ℤ) (old : Int64) : checked (checkedCall n old) = fixedResult n := by
  by_cases hfits : FitsInt64 n
  · rw [checkedCall_of_fits hfits, fixedResult_of_fits hfits]
    rfl
  · rw [checkedCall_of_not_fits hfits, fixedResult, if_neg hfits]
    rfl

theorem fixed_add (a b : Int64) : fixedAdapter.add a b = fixedResult (a.toInt + b.toInt) := by
  rw [← checked_checkedCall _ 0, ← linearsFixedAdd_eq]
  rfl

theorem fixed_sub (a b : Int64) : fixedAdapter.sub a b = fixedResult (a.toInt - b.toInt) := by
  rw [← checked_checkedCall _ 0, ← linearsFixedSub_eq]
  rfl

theorem fixed_mul (a b : Int64) :
    fixedAdapter.mul a b = fixedResult (roundAway ((a.toInt : ℚ) * b.toInt / 2 ^ 31)) := by
  rw [← checked_checkedCall _ 0, ← linearsFixedMul_eq]
  rfl

theorem fixed_div (a : Int64) {b : Int64} (hb : b ≠ 0) :
    fixedAdapter.div a b = fixedResult (roundAway ((a.toInt : ℚ) * 2 ^ 31 / b.toInt)) := by
  rw [← checked_checkedCall _ 0, ← linearsFixedDiv_eq a 0 hb]
  rfl

theorem fixed_neg (a : Int64) : fixedAdapter.neg a = fixedResult (-a.toInt) := by
  rw [← checked_checkedCall _ 0, ← linearsFixedNeg_eq]
  rfl

theorem fixed_abs (a : Int64) : fixedAdapter.abs a = fixedResult |a.toInt| := by
  rw [← checked_checkedCall _ 0, ← linearsFixedAbs_eq]
  rfl

theorem fixed_sqrt {a : Int64} (ha : 0 ≤ a.toInt) :
    fixedAdapter.sqrt a = .ok (Int64.ofInt (roundAway (Real.sqrt (a.toInt * 2 ^ 31)))) := by
  change checked (linearsFixedSqrt a (some 0)) = _
  rw [linearsFixedSqrt_eq 0 ha]
  rfl

theorem fixed_accumToFixed (accumulator : Accum) :
    fixedAdapter.accumToFixed accumulator =
      fixedResult (roundAway ((accumulator.toInt : ℚ) / 2 ^ 31)) := by
  rw [← checked_checkedCall _ 0, ← linearsAccumToFixed_eq]
  rfl

theorem fixed_constant (n : ℤ) :
    Ensures (fixedAdapter.constant n) (fun _ => True) (· = .errorRange) := by
  change Ensures (checked (linearsFixedFromInt (Int64.ofInt n) (some 0))) _ _
  rw [linearsFixedFromInt, withOut_some]
  split
  · rfl
  · trivial

theorem ensures_checked_call (call : AccumCall) (accumulator : Accum) :
    Ensures (checked (call.apply (some accumulator)))
      (fun next => next.toInt = accumulator.toInt + call.term) (· = .errorRange) := by
  rcases call.apply_cases accumulator with ⟨-, next, heq, hnext⟩ | ⟨-, heq⟩
  · rw [heq]
    exact hnext
  · rw [heq]
    rfl

theorem fixed_mac (accumulator : Accum) (a b : Int64) :
    Ensures (fixedAdapter.mac accumulator a b)
      (fun next => next.toInt = accumulator.toInt + a.toInt * b.toInt) (· = .errorRange) :=
  ensures_checked_call (.mac a b) accumulator

theorem fixed_msu (accumulator : Accum) (a b : Int64) :
    Ensures (fixedAdapter.msu accumulator a b)
      (fun next => next.toInt = accumulator.toInt - a.toInt * b.toInt) (· = .errorRange) :=
  ensures_checked_call (.msu a b) accumulator

@[simp] theorem toInt_fixed_empty : fixedAdapter.empty.toInt = 0 :=
  Accum.toInt_zero

/-- The fused update rounds `value - a * b` once. -/
theorem fixed_subProduct (value a b : Int64) :
    Ensures (fixedAdapter.subProduct value a b)
      (fun w => w.toInt = roundAway
        (((value.toInt * 2 ^ 31 - a.toInt * b.toInt : ℤ) : ℚ) / 2 ^ 31)) (· = .errorRange) := by
  rw [Adapter.subProduct, if_pos (show fixedAdapter.fixed = true from rfl)]
  refine (fixed_mac _ _ _).seq fun first hfirst => ?_
  refine (fixed_msu _ _ _).seq fun second hsecond => ?_
  rw [fixed_accumToFixed, hsecond, hfirst, toInt_fixed_empty, zero_add,
    show fixedAdapter.one.toInt = 2 ^ 31 from toInt_fixedOne]
  exact ensures_fixedResult _

/-- The fused dot update rounds once. -/
theorem fixed_dotSub (value : Int64) (left right : ℕ → Int64) (count : ℕ) :
    Ensures (fixedAdapter.dotSub value left right count)
      (fun w => w.toInt = roundAway (((value.toInt * 2 ^ 31 -
        ∑ i ∈ Finset.range count, (left i).toInt * (right i).toInt : ℤ) : ℚ) / 2 ^ 31))
      (· = .errorRange) := by
  rw [Adapter.dotSub, if_pos (show fixedAdapter.fixed = true from rfl)]
  refine (fixed_mac _ _ _).seq fun first hfirst => ?_
  rw [toInt_fixed_empty, zero_add,
    show fixedAdapter.one.toInt = 2 ^ 31 from toInt_fixedOne] at hfirst
  refine Ensures.seq (Ensures.forRange (fun k (acc : Accum) => acc.toInt =
    value.toInt * 2 ^ 31 - ∑ i ∈ Finset.range k, (left i).toInt * (right i).toInt)
    (Nat.zero_le count) ?_ ?_) fun second hsecond => ?_
  · simpa using hfirst
  · intro i acc _ _ hacc
    refine (fixed_msu _ _ _).imp fun next hnext => ?_
    rw [hnext, hacc, Finset.sum_range_succ]
    ring
  · rw [fixed_accumToFixed, hsecond]
    exact ensures_fixedResult _

/-! ## Exact adapters -/

section Exact

variable {K : Type} [Field K] [LinearOrder K]
variable (fixed : Bool) (sqrt : K → K) (epsilon : K)

omit [LinearOrder K] in
theorem foldRange_add_eq_sum (f : ℕ → K) (start : K) (count : ℕ) :
    foldRange 0 count start (fun i sum => sum + f i) = start + ∑ i ∈ Finset.range count, f i := by
  refine foldRange_induction (fun k sum => sum = start + ∑ i ∈ Finset.range k, f i)
    (Nat.zero_le count) (by simp) fun i sum _ _ hsum => ?_
  rw [hsum, Finset.sum_range_succ, add_assoc]

theorem exact_subProduct (value a b : K) :
    (exactAdapter K fixed sqrt epsilon).subProduct value a b = .ok (value - a * b) := by
  cases fixed with
  | true =>
      change Except.ok (0 + value * 1 - a * b) = _
      rw [zero_add, mul_one]
  | false => rfl

theorem exact_dotSub (value : K) (left right : ℕ → K) (count : ℕ) :
    (exactAdapter K fixed sqrt epsilon).dotSub value left right count =
      .ok (value - ∑ i ∈ Finset.range count, left i * right i) := by
  have hfold : foldRange 0 count value (fun i sum => sum - left i * right i) =
      value - ∑ i ∈ Finset.range count, left i * right i := by
    simp only [sub_eq_add_neg]
    rw [foldRange_add_eq_sum, Finset.sum_neg_distrib]
  cases fixed with
  | true =>
      rw [Adapter.dotSub, exactAdapter_fixed, if_pos rfl]
      change (forRange 0 count (0 + value * 1) fun i sum => Except.ok (sum - left i * right i)) >>=
        Except.ok = _
      rw [zero_add, mul_one, forRange_eq_ok _ fun _ _ _ _ => rfl, hfold]
      rfl
  | false =>
      rw [Adapter.dotSub, exactAdapter_fixed, if_neg Bool.false_ne_true, ← hfold]
      exact forRange_eq_ok _ fun _ _ _ _ => rfl

theorem exact_sumTerms {term : ℕ → Except Status (K × K)} {left right : ℕ → K} {count : ℕ}
    (hterm : ∀ i < count, term i = .ok (left i, right i)) :
    (exactAdapter K fixed sqrt epsilon).sumTerms term count =
      .ok (∑ i ∈ Finset.range count, left i * right i) := by
  have hfold : foldRange 0 count (0 : K) (fun i sum => sum + left i * right i) =
      ∑ i ∈ Finset.range count, left i * right i := by
    rw [foldRange_add_eq_sum, zero_add]
  cases fixed with
  | true =>
      rw [Adapter.sumTerms, exactAdapter_fixed, if_pos rfl,
        forRange_eq_ok (fun i sum => sum + left i * right i) fun i sum _ hi => ?_]
      · exact congrArg Except.ok hfold
      · rw [hterm i hi]
        rfl
  | false =>
      rw [Adapter.sumTerms, exactAdapter_fixed, if_neg Bool.false_ne_true,
        forRange_eq_ok (fun i sum => sum + left i * right i) fun i sum _ hi => ?_]
      · exact congrArg Except.ok hfold
      · rw [hterm i hi]
        rfl

theorem exact_dot (left right : ℕ → K) (count : ℕ) :
    (exactAdapter K fixed sqrt epsilon).dot left right count =
      .ok (∑ i ∈ Finset.range count, left i * right i) :=
  exact_sumTerms fixed sqrt epsilon fun _ _ => rfl

theorem exact_orderedArith : OrderedArith (exactAdapter K fixed sqrt epsilon) id fun _ => False :=
  ⟨fun _ _ => Iff.rfl, rfl, fun _ => rfl⟩

/-- The exact scan, with the two facts its callers use. -/
theorem exact_maxMagnitude [IsStrictOrderedRing K] (values : ℕ → K) (count : ℕ) :
    ∃ maximum, (exactAdapter K fixed sqrt epsilon).maxMagnitude values count = .ok maximum ∧
      0 ≤ maximum ∧ (maximum = 0 → ∀ i < count, values i = 0) := by
  obtain ⟨maximum, heq, hle, hattained⟩ :=
    ((exact_orderedArith fixed sqrt epsilon).maxMagnitude values count).exists_ok
  refine ⟨maximum, heq, ?_, fun hzero i hi => ?_⟩
  · obtain hzero | ⟨i, -, habs⟩ := hattained
    · exact hzero.ge
    · exact (abs_nonneg _).trans_eq habs.symm
  · have hbound : |values i| ≤ maximum := hle i hi
    rw [hzero] at hbound
    exact abs_nonpos_iff.mp hbound

end Exact

/-- Scaling by the maximum does not change an exact norm. -/
theorem real_norm (fixed : Bool) (epsilon : ℝ) (values : ℕ → ℝ) (count : ℕ) :
    (exactAdapter ℝ fixed Real.sqrt epsilon).norm values count =
      .ok (Real.sqrt (∑ i ∈ Finset.range count, values i * values i)) := by
  obtain ⟨maximum, hmax, hnonneg, hzero⟩ :=
    exact_maxMagnitude fixed Real.sqrt epsilon values count
  rw [Adapter.norm, hmax]
  change (if maximum = 0 then _ else _) = _
  by_cases h : maximum = 0
  · rw [if_pos h, Finset.sum_eq_zero fun i hi => by
      rw [hzero h i (Finset.mem_range.mp hi), mul_zero], Real.sqrt_zero]
    rfl
  · have hpos : 0 < maximum := lt_of_le_of_ne hnonneg (Ne.symm h)
    have hsum : ∑ i ∈ Finset.range count, values i / maximum * (values i / maximum) =
        (∑ i ∈ Finset.range count, values i * values i) / (maximum * maximum) := by
      rw [Finset.sum_div]
      exact Finset.sum_congr rfl fun i _ => by rw [div_mul_div_comm]
    have hscaled : (exactAdapter ℝ fixed Real.sqrt epsilon).sumTerms
        (fun i => do
          let ratio ← (exactAdapter ℝ fixed Real.sqrt epsilon).div (values i) maximum
          .ok (ratio, ratio)) count =
        .ok ((∑ i ∈ Finset.range count, values i * values i) / (maximum * maximum)) := by
      rw [← hsum]
      exact exact_sumTerms fixed Real.sqrt epsilon fun _ _ => rfl
    rw [if_neg h]
    change ((exactAdapter ℝ fixed Real.sqrt epsilon).sumTerms _ count >>= _) = _
    rw [hscaled]
    change Except.ok (maximum * Real.sqrt (_ / (maximum * maximum))) = _
    rw [Real.sqrt_div' _ (mul_self_nonneg maximum), Real.sqrt_mul_self hnonneg,
      mul_div_cancel₀ _ h]

end Xhive.Linears
