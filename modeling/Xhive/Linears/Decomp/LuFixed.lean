import Xhive.Linears.Decomp.LuInvariant

/-!
# Backward error of the fixed-point factorisation

The elimination invariant at the raw F31 integers of the fixed formats: every
fused update is off by at most half a unit, every multiplier by half a unit of
its pivot.
-/

namespace Xhive.Linears

open Xhive.Support

/-- A raw F31 word read as a rational. -/
def rawValue (x : Int64) : ℚ :=
  x.toInt

theorem rawValue_le (x y : Int64) : rawValue x ≤ rawValue y ↔ x ≤ y := by
  rw [rawValue, rawValue, Int.cast_le, Int64.le_iff_toInt_le]

theorem rawValue_ne_zero {x : Int64} : rawValue x ≠ 0 ↔ x ≠ 0 := by
  rw [rawValue, Int.cast_ne_zero, ne_eq, ne_eq, ← Int64.toInt_inj, Int64.toInt_zero]

/-- A quotient of magnitude at most one is representable and correctly rounded. -/
theorem fixed_div_of_le {x y : Int64} (hy : rawValue y ≠ 0)
    (hle : |rawValue x| ≤ |rawValue y|) :
    ∃ q, fixedAdapter.div x y = .ok q ∧
      |2 ^ 31 * rawValue x - rawValue q * rawValue y| ≤ 1 / 2 * |rawValue y| ∧
      |rawValue q| ≤ 2 ^ 31 := by
  have hpos : 0 < |rawValue y| := abs_pos.mpr hy
  have hquot : |rawValue x * 2 ^ 31 / rawValue y| ≤ ((2 ^ 31 : ℤ) : ℚ) := by
    rw [abs_div, abs_mul, div_le_iff₀ hpos, abs_of_pos (show (0 : ℚ) < 2 ^ 31 by norm_num)]
    push_cast
    rw [mul_comm]
    exact mul_le_mul_of_nonneg_left hle (by norm_num)
  have hround := abs_roundAway_le hquot
  have hfits : FitsInt64 (roundAway (rawValue x * 2 ^ 31 / rawValue y)) := by
    rw [abs_le] at hround
    constructor <;> omega
  obtain ⟨q, hq, hvalue⟩ : ∃ q, fixedAdapter.div x y = .ok q ∧
      rawValue q = (roundAway (rawValue x * 2 ^ 31 / rawValue y) : ℤ) := by
    refine ⟨_, (fixed_div x (rawValue_ne_zero.mp hy)).trans (fixedResult_of_fits hfits), ?_⟩
    exact congrArg Int.cast (toInt_ofInt_of_fits hfits)
  have herror := abs_sub_roundAway_le (rawValue x * 2 ^ 31 / rawValue y)
  rw [← hvalue] at herror
  refine ⟨q, hq, ?_, by rw [hvalue]; exact_mod_cast hround⟩
  calc
    |2 ^ 31 * rawValue x - rawValue q * rawValue y|
      = |rawValue x * 2 ^ 31 / rawValue y - rawValue q| * |rawValue y| := by
        rw [← abs_mul, sub_mul, div_mul_cancel₀ _ hy, mul_comm (rawValue x)]
    _ ≤ 1 / 2 * |rawValue y| := mul_le_mul_of_nonneg_right herror hpos.le

theorem fixed_eliminationArith :
    EliminationArith fixedAdapter rawValue (2 ^ 31) (2 ^ 30) (1 / 2) (· = .errorRange) where
  value_le := rawValue_le
  value_zero := rfl
  value_one := by
    rw [rawValue, show fixedAdapter.one.toInt = 2 ^ 31 from toInt_fixedOne]
    norm_num
  abs x := by
    rw [fixed_abs]
    refine (ensures_fixedResult _).imp fun m hm => ?_
    rw [rawValue, rawValue, hm, Int.cast_abs]
  div x y hy hle := by
    obtain ⟨q, hq, hbounds⟩ := fixed_div_of_le hy hle
    rw [hq]
    exact hbounds
  subProduct v f x := by
    refine (fixed_subProduct v f x).imp fun w hw => ?_
    have herror := abs_sub_roundAway_le
      (((v.toInt * 2 ^ 31 - f.toInt * x.toInt : ℤ) : ℚ) / 2 ^ 31)
    rw [← hw] at herror
    have hscale : 2 ^ 31 * rawValue v - rawValue f * rawValue x - 2 ^ 31 * rawValue w =
        (((v.toInt * 2 ^ 31 - f.toInt * x.toInt : ℤ) : ℚ) / 2 ^ 31 - w.toInt) * 2 ^ 31 := by
      simp only [rawValue]
      push_cast
      ring
    rw [hscale, abs_mul, abs_of_pos (show (0 : ℚ) < 2 ^ 31 by norm_num)]
    linarith

/-! ## The extrema of L -/

theorem widenBounds_within {low high value : Int64} {bounds : Int64 × Int64}
    (hbounds : low ≤ bounds.1 ∧ bounds.2 ≤ high) (hvalue : low ≤ value ∧ value ≤ high) :
    low ≤ (widenBounds bounds value).1 ∧ (widenBounds bounds value).2 ≤ high := by
  rw [widenBounds]
  constructor <;> dsimp only <;> split
  · exact hvalue.1
  · exact hbounds.1
  · exact hvalue.2
  · exact hbounds.2

theorem lBounds_within {n : ℕ} {work : Grid Int64}
    (h : ∀ i j, j < i → i < n → -fixedOne ≤ work (i, j) ∧ work (i, j) ≤ fixedOne) :
    -fixedOne ≤ (lBounds fixedAdapter n work).1 ∧ (lBounds fixedAdapter n work).2 ≤ fixedOne := by
  refine foldRange_induction (fun _ (bounds : Int64 × Int64) => -fixedOne ≤ bounds.1 ∧ bounds.2 ≤ fixedOne)
    (Nat.zero_le n) ?_ ?_
  · refine ⟨show -fixedOne ≤ (0 : Int64) by decide, ?_⟩
    dsimp only
    split <;> decide
  · intro i bounds _ hi hbounds
    refine foldRange_induction (fun _ (bounds : Int64 × Int64) => -fixedOne ≤ bounds.1 ∧ bounds.2 ≤ fixedOne)
      (Nat.zero_le n) hbounds ?_
    intro j bounds _ _ hbounds
    split
    · exact widenBounds_within hbounds (h i j ‹_› hi)
    · exact hbounds

theorem within_of_abs_toInt_le {x : Int64} (h : |x.toInt| ≤ 2 ^ 31) :
    -fixedOne ≤ x ∧ x ≤ fixedOne := by
  rw [abs_le] at h
  rw [Int64.le_iff_toInt_le, Int64.le_iff_toInt_le, toInt_fixedOne,
    show (-fixedOne).toInt = -2 ^ 31 from rfl]
  exact h

theorem outputBounds_of_within {bounds : Int64 × Int64}
    (h : -fixedOne ≤ bounds.1 ∧ bounds.2 ≤ fixedOne) :
    q15Format.outputBounds bounds = .ok () ∧ q31Format.outputBounds bounds = .ok () := by
  have hin : decide (¬(bounds.1 < -fixedOne ∨ bounds.2 > fixedOne)) = true := by
    rw [decide_eq_true_iff, not_or, not_lt, not_lt]
    exact h
  exact ⟨if_pos hin, if_pos hin⟩

/-! ## Divisions of a run -/

/-- The state in which the run divides for row `i` of step `k`: `k` whole steps,
a nonzero pivot, and the rows between `k` and `i` already eliminated. -/
def ReachesDivision (n rhs : ℕ) (a b : Grid Int64) (k i : ℕ) (t : LuState Int64) : Prop :=
  ∃ s best, forRange 0 k { a := a, b := b, permutation := id, parity := 1 }
      (luStep fixedAdapter n rhs) = .ok s ∧
    luPivot fixedAdapter n k s.a = .ok best ∧ best.2 ≠ fixedAdapter.zero ∧
    forRange (k + 1) i (luExchange k best.1 s) (eliminateRow fixedAdapter n rhs k) = .ok t

theorem ReachesDivision.div_ok {n rhs : ℕ} {a b : Grid Int64} {k i : ℕ} {t : LuState Int64}
    (h : ReachesDivision n rhs a b k i t) (hki : k < i) (hi : i < n) :
    ∃ q, linearsFixedDiv (t.a (i, k)) (t.a (k, k)) (some 0) = (.ok, some q) ∧
      |q.toInt| ≤ 2 ^ 31 := by
  obtain ⟨s, best, -, hbest, hzero, ht⟩ := h
  obtain ⟨hlow, hhigh, hvalue, hmax⟩ :=
    (luPivot_spec fixed_eliminationArith (hki.trans hi) s.a).of_eq_ok hbest
  obtain ⟨hne, hdom⟩ := luPivot_dominates fixed_eliminationArith (hki.trans hi) hlow hhigh
    hvalue hmax hzero
  have helim := (eliminateRows_spec fixed_eliminationArith hki hi.le rhs hne hdom).of_eq_ok ht
  rw [helim.frame i k (by omega), helim.frame k k (by omega)]
  obtain ⟨q, hq, -, hle⟩ := fixed_div_of_le hne (hdom i hki.le hi)
  exact ⟨q, checked_eq_ok hq, by rw [rawValue] at hle; exact_mod_cast hle⟩

/-! ## The factorisation as a whole -/

/-- The L and U entries of the working array in raw F31 integers. -/
def rawLower (a : Grid Int64) (i m : ℕ) : ℤ :=
  if m < i then (a (i, m)).toInt else 2 ^ 31

/-- What a successful factorisation leaves in the working array. -/
structure LuFixedResult (n : ℕ) (a : Grid Int64) (s : LuState Int64) : Prop where
  multiplier : ∀ i m, m < i → i < n → |(s.a (i, m)).toInt| ≤ 2 ^ 31
  perm : ∃ σ : Equiv.Perm (Fin n), (∀ i : Fin n, s.permutation i = σ i) ∧
    s.parity = (Equiv.Perm.sign σ : ℤ)
  backward : ∀ i j, i < n → j < n →
    2 * |2 ^ 31 * (a (s.permutation i, j)).toInt -
        ∑ m ∈ Finset.range (min i j + 1), rawLower s.a i m * (s.a (m, j)).toInt| ≤
      min i j * 2 ^ 31 + if j < i then |(s.a (j, j)).toInt| else 0

theorem sum_lower_upper_eq_raw (a : Grid Int64) {n i j : ℕ} (hi : i < n) :
    ∑ m ∈ Finset.range n, lowerEntry rawValue (2 ^ 31) a i m * upperEntry rawValue a m j =
      ((∑ m ∈ Finset.range (min i j + 1), rawLower a i m * (a (m, j)).toInt : ℤ) : ℚ) := by
  push_cast
  rw [← Finset.sum_subset (Finset.range_subset_range.mpr (show min i j + 1 ≤ n by omega))]
  · refine Finset.sum_congr rfl fun m hm => ?_
    rw [Finset.mem_range] at hm
    rw [upperEntry_of_le (by omega), rawLower]
    rcases Nat.lt_or_ge m i with hlt | hge
    · rw [lowerEntry_of_lt hlt, if_pos hlt]
      rfl
    · obtain rfl : m = i := by omega
      rw [lowerEntry_self, if_neg (lt_irrefl m)]
      push_cast
      rfl
  · intro m _ hm
    rw [Finset.mem_range] at hm
    rcases Nat.lt_or_ge i m with hlt | hge
    · rw [lowerEntry_of_gt hlt, zero_mul]
    · rw [upperEntry_of_gt (by omega), mul_zero]

theorem luFixedResult_of_invariant {n rhs : ℕ} {a b : Grid Int64} {s : LuState Int64}
    (h : LuInvariant rawValue (2 ^ 31) (2 ^ 30) (1 / 2) n rhs a b n s) : LuFixedResult n a s := by
  refine ⟨fun i m hmi hi => ?_, h.perm, fun i j hi hj => ?_⟩
  · have hle := h.multiplier i m (hmi.trans hi) hmi hi
    rw [rawValue] at hle
    exact_mod_cast hle
  · have hentry := h.entry i j hi hj
    rw [sum_lower_upper_eq_raw s.a hi, restEntry_of_lt (Or.inl hi), mul_zero, sub_zero,
      entryError, show min (min i j) n = min i j by omega] at hentry
    have hmin : j < i ∧ j < n ↔ j < i := ⟨And.left, fun hlt => ⟨hlt, hj⟩⟩
    simp only [hmin] at hentry
    rw [← Int.cast_le (R := ℚ)]
    push_cast at hentry ⊢
    simp only [rawValue] at hentry
    norm_num at hentry ⊢
    by_cases hji : j < i
    · rw [if_pos hji] at hentry ⊢
      linarith
    · rw [if_neg hji] at hentry ⊢
      linarith

/-- The fixed-point factorisation is backward stable: multipliers stay within
one, the permutation is a bijection with the reported sign, each entry of `P A`
is met within half a unit per elimination step and half a unit of its pivot,
and neither a division nor the stored L can leave the range. -/
theorem lu_factor_fixed_backward_error (n rhs : ℕ) (a b : Grid Int64) :
    (∀ s, luFactor fixedAdapter n rhs a b = .ok s → LuFixedResult n a s ∧
      q15Format.outputBounds (lBounds fixedAdapter n s.a) = .ok () ∧
      q31Format.outputBounds (lBounds fixedAdapter n s.a) = .ok ()) ∧
    ∀ k i t, k < i → i < n → ReachesDivision n rhs a b k i t →
      ∃ q, linearsFixedDiv (t.a (i, k)) (t.a (k, k)) (some 0) = (.ok, some q) ∧
        |q.toInt| ≤ 2 ^ 31 := by
  refine ⟨fun s hs => ?_, fun k i t hki hi ht => ht.div_ok hki hi⟩
  have hresult := luFixedResult_of_invariant
    ((luFactor_spec fixed_eliminationArith n rhs a b).of_eq_ok hs)
  refine ⟨hresult, outputBounds_of_within (lBounds_within fun i j hji hi => ?_)⟩
  exact within_of_abs_toInt_le (hresult.multiplier i j hji hi)

end Xhive.Linears
