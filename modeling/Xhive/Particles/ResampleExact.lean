import Xhive.Particles.Resample
import Xhive.Support.Thresholds

/-!
# The resampler places its thresholds exactly

The quotient and the remainder before round `i` are those of the exact
threshold `i`, so the scan stops at the least index that reaches it.
-/

namespace Xhive.Particles

open Xhive.Support Xhive.Linears Xhive.Filters Finset

variable {Q : Type} [ParticleFormat Q]

/-! ## Exact weights and thresholds -/

/-- The raw code of a weight that is not negative. -/
def weightCode (weight : Q) : ℕ :=
  (QFormat.widen weight).toInt.toNat

/-- The weight of the first `k` particles. -/
def cumulativeWeight (weights : ℕ → Q) (k : ℕ) : ℕ :=
  ∑ j ∈ range k, weightCode (weights j)

/-- The draw. -/
def BinaryDraw.value (d : BinaryDraw) : ℚ :=
  d.mantissa.toNat / 2 ^ d.shift

/-- `(i + u) * T / N`. -/
def threshold (weights : ℕ → Q) (count : ℕ) (d : BinaryDraw) (i : ℕ) : ℚ :=
  (i + d.value) * cumulativeWeight weights count / count

/-- The weights and their array, as the callers have validated them. -/
structure WeightsAdmitted (wide : Bool) (weights : ℕ → Q) (count : ℕ) : Prop where
  fits : count * FilterFormat.scalarBytes Q < sizeMax wide
  nonneg : ∀ j < count, 0 ≤ (QFormat.widen (weights j)).toInt
  total_pos : 0 < cumulativeWeight weights count

theorem cumulativeWeight_succ (weights : ℕ → Q) (k : ℕ) :
    cumulativeWeight weights (k + 1) = cumulativeWeight weights k + weightCode (weights k) :=
  sum_range_succ _ k

theorem cumulativeWeight_mono (weights : ℕ → Q) {k l : ℕ} (h : k ≤ l) :
    cumulativeWeight weights k ≤ cumulativeWeight weights l :=
  sum_le_sum_of_subset (range_subset_range.mpr h)

theorem weightCode_le (weight : Q) : weightCode weight ≤ 2 ^ 31 - 1 := by
  have hbits := (qBits_bounds Q).2
  have hhigh := QFormat.toInt_widen_lt weight
  have hpow : (2 : ℤ) ^ (QFormat.qBits Q).toNat ≤ 2 ^ 31 := pow_le_pow_right₀ (by norm_num) hbits
  rw [weightCode]
  omega

theorem cumulativeWeight_le (weights : ℕ → Q) (k : ℕ) :
    cumulativeWeight weights k ≤ k * (2 ^ 31 - 1) := by
  have h := sum_le_card_nsmul (range k) (fun j => weightCode (weights j)) (2 ^ 31 - 1)
    fun j _ => weightCode_le _
  rwa [card_range, smul_eq_mul] at h

theorem toNat_weightWord {weight : Q} (h : 0 ≤ (QFormat.widen weight).toInt) :
    (weightWord weight).toNat = weightCode weight := by
  have hword := toNat_toUInt64 (QFormat.widen weight)
  rw [if_neg (not_lt.mpr h)] at hword
  rw [weightWord, weightCode]
  omega

namespace WeightsAdmitted

variable {wide : Bool} {weights : ℕ → Q} {count : ℕ}

theorem count_pos (h : WeightsAdmitted wide weights count) : 0 < count := by
  apply Nat.pos_of_ne_zero
  rintro rfl
  exact absurd h.total_pos (lt_irrefl 0)

theorem count_lt (h : WeightsAdmitted wide weights count) : count < 2 ^ 63 := by
  have hsize := sizeMax_lt wide
  have hbytes := Nat.mul_le_mul_left count (ParticleFormat.two_le_scalarBytes (Q := Q))
  have hfits := h.fits
  omega

theorem total_lt (h : WeightsAdmitted wide weights count) :
    cumulativeWeight weights count < 2 ^ 94 := by
  have hcount := h.count_lt
  have htotal := cumulativeWeight_le weights count
  omega

theorem toNat_count (h : WeightsAdmitted wide weights count) :
    (UInt64.ofNat count).toNat = count := by
  have hcount := h.count_lt
  rw [UInt64.toNat_ofNat', Nat.mod_eq_of_lt (by omega)]

/-- No sum of weights overflows, and the total is the exact one. -/
theorem weightTotal_eq (h : WeightsAdmitted wide weights count) :
    ∃ total, weightTotal weights count = .ok total ∧
      total.toNat = cumulativeWeight weights count := by
  have hloop : Ensures (forRange 0 count ⟨0, 0⟩ (weightAdd weights))
      (fun sum => sum.toNat = cumulativeWeight weights count) (fun _ => False) := by
    apply Ensures.forRange (fun i (sum : Accum) => sum.toNat = cumulativeWeight weights i)
      (Nat.zero_le _)
    · rfl
    · intro i sum _ hi hsum
      have hnonneg := h.nonneg i hi
      have hword := toNat_weightWord hnonneg
      have hroom := cumulativeWeight_mono weights (show i + 1 ≤ count from hi)
      have htotal := h.total_lt
      rw [cumulativeWeight_succ, ← hsum, ← hword] at hroom
      rw [weightAdd, if_neg (by rw [lt_zero_iff_toInt]; omega)]
      change (pfQUadd _ _).toNat = _
      rw [toNat_pfQUadd (by rw [toNat_word]; omega), toNat_word, hsum, hword,
        cumulativeWeight_succ]
  obtain ⟨total, heq, htotal⟩ := hloop.exists_ok
  refine ⟨total, ?_, htotal⟩
  have hne : ¬(total.low = 0 ∧ total.high = 0) := by
    rintro ⟨hlow, hhigh⟩
    have hpos := h.total_pos
    rw [← htotal, Accum.toNat, hlow, hhigh] at hpos
    exact absurd hpos (by decide)
  rw [weightTotal, heq, ok_bind, if_neg hne]

end WeightsAdmitted

/-! ## The plan -/

/-- The product of the total with the draw, cut to an integer. -/
def initialTarget (weights : ℕ → Q) (count : ℕ) (d : BinaryDraw) : ℕ :=
  cumulativeWeight weights count * d.mantissa.toNat / 2 ^ d.shift

theorem initialTarget_le (weights : ℕ → Q) (count : ℕ) (d : BinaryDraw) :
    initialTarget weights count d ≤ cumulativeWeight weights count := by
  apply Nat.div_le_of_le_mul
  rw [Nat.mul_comm]
  exact Nat.mul_le_mul_right _ d.below_one.le

/-- The words of the plan are the exact quotients and remainders. -/
structure PlanExact (weights : ℕ → Q) (count : ℕ) (d : BinaryDraw) (plan : ResamplePlan) :
    Prop where
  start : plan.start.toNat = initialTarget weights count d / count
  remainder : plan.remainder.toNat = initialTarget weights count d % count
  step : plan.step.toNat = cumulativeWeight weights count / count
  stepRemainder : plan.stepRemainder.toNat = cumulativeWeight weights count % count
  fraction : plan.fraction = true ↔
    cumulativeWeight weights count * d.mantissa.toNat % 2 ^ d.shift ≠ 0

section Plan

variable {wide : Bool} {weights : ℕ → Q} {count : ℕ}

theorem quotient_le (weights : ℕ → Q) (count : ℕ) {n : ℕ}
    (hn : n ≤ cumulativeWeight weights count) : n / count ≤ 2 ^ 31 - 1 := by
  apply Nat.div_le_of_le_mul
  exact hn.trans (cumulativeWeight_le weights count)

theorem resamplePlan_exact (h : WeightsAdmitted wide weights count) {total : Accum}
    (htotal : total.toNat = cumulativeWeight weights count) (d : BinaryDraw) :
    (pfQUniformProduct total d.mantissa d.shift).1.toNat = initialTarget weights count d ∧
      PlanExact weights count d (resamplePlan total d count) := by
  have hcount := h.toNat_count
  have hpos := h.count_pos
  have hlt := h.count_lt
  have hbound := h.total_lt
  have hinitial := initialTarget_le weights count d
  have hfits : total.toNat * d.mantissa.toNat / 2 ^ d.shift < 2 ^ 128 := by
    rw [htotal]
    change initialTarget weights count d < 2 ^ 128
    omega
  have hproduct := pfQUniformProduct_spec hfits
  rw [htotal] at hproduct
  change _ = initialTarget weights count d ∧ _ at hproduct
  have hfirst := pfQUdiv_spec (a := (pfQUniformProduct total d.mantissa d.shift).1)
    (d := UInt64.ofNat count) (by omega) (by omega) (by
      rw [hproduct.1, hcount]
      have := quotient_le weights count hinitial
      omega)
  have heach := pfQUdiv_spec (a := total) (d := UInt64.ofNat count) (by omega) (by omega) (by
      rw [htotal, hcount]
      have := quotient_le weights count le_rfl
      omega)
  rw [hproduct.1, hcount] at hfirst
  rw [htotal, hcount] at heach
  exact ⟨hproduct.1, hfirst.1, hfirst.2, heach.1, heach.2, hproduct.2⟩

end Plan

/-! ## The rounds -/

/-- `j` is the least index whose cumulative weight reaches threshold `i`. -/
structure LeastReaching (weights : ℕ → Q) (count : ℕ) (d : BinaryDraw) (i j : ℕ) : Prop where
  lt : j < count
  reaches : threshold weights count d i ≤ cumulativeWeight weights (j + 1)
  below : ∀ k < j, (cumulativeWeight weights (k + 1) : ℚ) < threshold weights count d i

/-- The locals before round `i`. -/
structure RoundExact (weights : ℕ → Q) (count : ℕ) (d : BinaryDraw) (i : ℕ)
    (l : ResampleLocals) : Prop where
  j_lt : l.j < count
  cumulative : l.cumulative.toNat = cumulativeWeight weights (l.j + 1)
  remainder_lt : l.remainder.toNat < count
  target : count * l.floorTarget.toNat + l.remainder.toNat =
    initialTarget weights count d + i * cumulativeWeight weights count
  passed : ∀ k < l.j, (cumulativeWeight weights (k + 1) : ℚ) < threshold weights count d i
  written : ∀ k < i, LeastReaching weights count d k (l.indices k)
  ordered : ∀ k < i, l.indices k ≤ l.j

theorem threshold_mono (weights : ℕ → Q) (count : ℕ) (d : BinaryDraw) {i k : ℕ} (h : i ≤ k) :
    threshold weights count d i ≤ threshold weights count d k := by
  have hcast : (i : ℚ) ≤ k := by exact_mod_cast h
  rw [threshold, threshold]
  gcongr

/-- The threshold over one denominator. -/
theorem threshold_le_iff {weights : ℕ → Q} {count : ℕ} (hcount : 0 < count) (d : BinaryDraw)
    (i w : ℕ) :
    threshold weights count d i ≤ w ↔
      i * cumulativeWeight weights count * 2 ^ d.shift +
        cumulativeWeight weights count * d.mantissa.toNat ≤ w * count * 2 ^ d.shift := by
  have hcount' : (0 : ℚ) < count := by exact_mod_cast hcount
  have hpow : (0 : ℚ) < 2 ^ d.shift := by positivity
  have hvalue : threshold weights count d i * (count * 2 ^ d.shift) =
      i * cumulativeWeight weights count * 2 ^ d.shift +
        cumulativeWeight weights count * d.mantissa.toNat := by
    rw [threshold, BinaryDraw.value]
    field_simp
  rw [← mul_le_mul_iff_of_pos_right (mul_pos hcount' hpow), hvalue, ← mul_assoc]
  norm_cast

section Rounds

variable {wide : Bool} {weights : ℕ → Q} {count : ℕ} {d : BinaryDraw} {plan : ResamplePlan}

/-- No threshold lies above the total. -/
theorem threshold_le_total (h : WeightsAdmitted wide weights count) {i : ℕ} (hi : i < count) :
    threshold weights count d i ≤ cumulativeWeight weights count := by
  rw [threshold_le_iff h.count_pos]
  have hmantissa := Nat.mul_le_mul_left (cumulativeWeight weights count) d.below_one.le
  have hround := Nat.mul_le_mul_right (cumulativeWeight weights count * 2 ^ d.shift)
    (show i + 1 ≤ count from hi)
  calc _ ≤ (i + 1) * (cumulativeWeight weights count * 2 ^ d.shift) := by
        rw [Nat.succ_mul, Nat.mul_assoc]
        omega
    _ ≤ count * (cumulativeWeight weights count * 2 ^ d.shift) := hround
    _ = cumulativeWeight weights count * count * 2 ^ d.shift := by ring

theorem floorTarget_lt (h : WeightsAdmitted wide weights count) {i : ℕ} (hi : i ≤ count)
    {l : ResampleLocals} (hl : RoundExact weights count d i l) :
    l.floorTarget.toNat < 2 ^ 95 := by
  have hinitial := initialTarget_le weights count d
  have htotal := h.total_lt
  have hpos := h.count_pos
  have htarget := hl.target
  have hround := Nat.mul_le_mul_right (cumulativeWeight weights count) hi
  have hone := Nat.mul_le_mul_right (cumulativeWeight weights count) hpos
  have hbound : count * l.floorTarget.toNat ≤ count * (2 * cumulativeWeight weights count) := by
    calc count * l.floorTarget.toNat ≤
          cumulativeWeight weights count + count * cumulativeWeight weights count := by omega
      _ ≤ count * cumulativeWeight weights count + count * cumulativeWeight weights count := by
          omega
      _ = count * (2 * cumulativeWeight weights count) := by ring
  have := Nat.le_of_mul_le_mul_left hbound hpos
  omega

/-- The integer threshold separates the same weights as the exact one. -/
theorem resampleTarget_le_iff (h : WeightsAdmitted wide weights count)
    (hplan : PlanExact weights count d plan) {i : ℕ} (hi : i ≤ count) {l : ResampleLocals}
    (hl : RoundExact weights count d i l) (w : ℕ) :
    (resampleTarget plan.fraction l).toNat ≤ w ↔ threshold weights count d i ≤ w := by
  have hfloor := floorTarget_lt h hi hl
  have hinexact : l.remainder ≠ 0 ∨ plan.fraction = true ↔ l.remainder.toNat ≠ 0 ∨
      cumulativeWeight weights count * d.mantissa.toNat % 2 ^ d.shift ≠ 0 :=
    or_congr (toNat_ne_zero_iff _).symm hplan.fraction
  have htarget : (resampleTarget plan.fraction l).toNat = l.floorTarget.toNat +
      (if l.remainder.toNat ≠ 0 ∨
        cumulativeWeight weights count * d.mantissa.toNat % 2 ^ d.shift ≠ 0 then 1 else 0) := by
    rw [resampleTarget]
    by_cases hup : l.remainder.toNat ≠ 0 ∨
        cumulativeWeight weights count * d.mantissa.toNat % 2 ^ d.shift ≠ 0
    · rw [if_pos (hinexact.mpr hup), if_pos hup]
      rw [toNat_pfQUadd] <;> rw [toNat_word, UInt64.toNat_one]
      omega
    · rw [if_neg (fun h => hup (hinexact.mp h)), if_neg hup, Nat.add_zero]
  have hexact := Nat.div_add_mod (cumulativeWeight weights count * d.mantissa.toNat)
    (2 ^ d.shift)
  have hsum : (count * l.floorTarget.toNat + l.remainder.toNat) * 2 ^ d.shift +
      cumulativeWeight weights count * d.mantissa.toNat % 2 ^ d.shift =
      i * cumulativeWeight weights count * 2 ^ d.shift +
        cumulativeWeight weights count * d.mantissa.toNat := by
    conv_rhs => rw [← hexact]
    rw [hl.target, initialTarget]
    ring
  rw [htarget, ceil_le_iff hl.remainder_lt (Nat.mod_lt _ (Nat.two_pow_pos _)), hsum,
    threshold_le_iff h.count_pos]

/-- The scan moves past the weights below the target, and its guard stops it
only at the last index. -/
theorem resampleScan_spec (h : WeightsAdmitted wide weights count) (target : Accum) (left : ℕ)
    {s : ℕ × Accum} (hleft : s.1 + left + 1 = count)
    (hs : s.2.toNat = cumulativeWeight weights (s.1 + 1)) :
    s.1 ≤ (resampleScan weights target left s).1 ∧
      (resampleScan weights target left s).1 < count ∧
      (resampleScan weights target left s).2.toNat =
        cumulativeWeight weights ((resampleScan weights target left s).1 + 1) ∧
      (∀ k, s.1 ≤ k → k < (resampleScan weights target left s).1 →
        cumulativeWeight weights (k + 1) < target.toNat) ∧
      (target.toNat ≤ (resampleScan weights target left s).2.toNat ∨
        (resampleScan weights target left s).1 + 1 = count) := by
  induction left generalizing s with
  | zero =>
      rw [resampleScan]
      exact ⟨le_rfl, by omega, hs, fun k hk hlt => absurd hlt (not_lt.mpr hk), Or.inr (by omega)⟩
  | succ left ih =>
      rw [resampleScan]
      split
      · rename_i hcmp
        rw [pfQUcmp_neg_iff, hs] at hcmp
        have hnonneg := h.nonneg (s.1 + 1) (by omega)
        have hword := toNat_weightWord hnonneg
        have hroom := cumulativeWeight_mono weights (show s.1 + 1 + 1 ≤ count by omega)
        have htotal := h.total_lt
        rw [cumulativeWeight_succ] at hroom
        have hnext : (pfQUadd s.2 ⟨weightWord (weights (s.1 + 1)), 0⟩).toNat =
            cumulativeWeight weights (s.1 + 1 + 1) := by
          rw [toNat_pfQUadd (by rw [toNat_word]; omega), toNat_word, hs, hword,
            cumulativeWeight_succ weights (s.1 + 1)]
        obtain ⟨hle, hlt, hvalue, hpassed, hstop⟩ := ih
          (s := (s.1 + 1, pfQUadd s.2 ⟨weightWord (weights (s.1 + 1)), 0⟩)) (by dsimp only; omega)
          hnext
        refine ⟨by omega, hlt, hvalue, fun k hk hklt => ?_, hstop⟩
        rcases eq_or_lt_of_le hk with rfl | hk
        · exact hcmp
        · exact hpassed k hk hklt
      · rename_i hcmp
        rw [pfQUcmp_neg_iff] at hcmp
        exact ⟨le_rfl, by omega, hs, fun k hk hlt => absurd hlt (not_lt.mpr hk),
          Or.inl (not_lt.mp hcmp)⟩

/-- The last index reaches every threshold, so the guard of the scan has no
say. -/
theorem resampleRound_scan (h : WeightsAdmitted wide weights count)
    (hplan : PlanExact weights count d plan) {i : ℕ} (hi : i < count) {l : ResampleLocals}
    (hl : RoundExact weights count d i l) :
    l.j ≤ (resampleRound plan weights count i l).j ∧
      (resampleRound plan weights count i l).cumulative.toNat =
        cumulativeWeight weights ((resampleRound plan weights count i l).j + 1) ∧
      LeastReaching weights count d i (resampleRound plan weights count i l).j ∧
      (resampleTarget plan.fraction l).toNat ≤
        (resampleRound plan weights count i l).cumulative.toNat := by
  have hjlt := hl.j_lt
  have hiff := resampleTarget_le_iff h hplan hi.le hl
  obtain ⟨hle, hlt, hvalue, hpassed, hstop⟩ := resampleScan_spec h
    (resampleTarget plan.fraction l) (count - 1 - l.j) (s := (l.j, l.cumulative))
    (by dsimp only; omega) hl.cumulative
  have hreach : (resampleTarget plan.fraction l).toNat ≤
      (resampleRound plan weights count i l).cumulative.toNat := by
    rcases hstop with hstop | hlast
    · exact hstop
    · change _ ≤ (resampleScan weights _ _ _).2.toNat
      rw [hvalue, hlast, hiff]
      exact threshold_le_total h hi
  refine ⟨hle, hvalue, ⟨hlt, ?_, ?_⟩, hreach⟩
  · rw [← hiff]
    exact hreach.trans_eq hvalue
  · intro k hk
    rcases lt_or_ge k l.j with hearly | hlate
    · exact hl.passed k hearly
    · rw [← not_le, ← hiff]
      exact not_le.mpr (hpassed k hlate hk)

/-- One round advances the quotient and the remainder by the exact step. -/
theorem resampleAdvance_spec (h : WeightsAdmitted wide weights count)
    (hplan : PlanExact weights count d plan) {i : ℕ} (hi : i < count) {l : ResampleLocals}
    (hl : RoundExact weights count d i l) :
    count * (resampleAdvance plan count l).1.toNat + (resampleAdvance plan count l).2.toNat =
        initialTarget weights count d + (i + 1) * cumulativeWeight weights count ∧
      (resampleAdvance plan count l).2.toNat < count := by
  have hcount := h.toNat_count
  have hlt := h.count_lt
  have hfloor := floorTarget_lt h hi.le hl
  have hrest := hl.remainder_lt
  have hstep := quotient_le weights count le_rfl
  have hmod := Nat.mod_lt (cumulativeWeight weights count) h.count_pos
  have hdiv := Nat.div_add_mod (cumulativeWeight weights count) count
  rw [← hplan.step] at hstep hdiv
  rw [← hplan.stepRemainder] at hmod hdiv
  have hsum : (l.remainder + plan.stepRemainder).toNat =
      l.remainder.toNat + plan.stepRemainder.toNat := by
    rw [UInt64.toNat_add, Nat.mod_eq_of_lt (by omega)]
  have hnext : initialTarget weights count d + (i + 1) * cumulativeWeight weights count =
      count * l.floorTarget.toNat + l.remainder.toNat +
        (count * plan.step.toNat + plan.stepRemainder.toNat) := by
    rw [hl.target, hdiv]
    ring
  rw [hnext, resampleAdvance]
  simp only [ge_iff_le, UInt64.le_iff_toNat_le, hsum, hcount]
  split
  · rename_i hge
    have hone : (plan.step + 1).toNat = plan.step.toNat + 1 := by
      rw [UInt64.toNat_add, UInt64.toNat_one, Nat.mod_eq_of_lt (by omega)]
    have hsub : (l.remainder + plan.stepRemainder - UInt64.ofNat count).toNat =
        l.remainder.toNat + plan.stepRemainder.toNat - count := by
      rw [UInt64.toNat_sub_of_le _ _ (by rw [UInt64.le_iff_toNat_le, hsum, hcount]; exact hge),
        hsum, hcount]
    have hadd : (pfQUadd l.floorTarget ⟨plan.step + 1, 0⟩).toNat =
        l.floorTarget.toNat + (plan.step.toNat + 1) := by
      rw [toNat_pfQUadd] <;> rw [toNat_word, hone]
      omega
    rw [hadd, hsub]
    constructor
    · rw [Nat.mul_add, Nat.mul_add, Nat.mul_one]
      omega
    · omega
  · have hadd : (pfQUadd l.floorTarget ⟨plan.step, 0⟩).toNat =
        l.floorTarget.toNat + plan.step.toNat := by
      rw [toNat_pfQUadd] <;> rw [toNat_word]
      omega
    rw [hadd, hsum]
    constructor
    · rw [Nat.mul_add]
      omega
    · omega

/-- A round keeps the invariant. -/
theorem resampleRound_spec (h : WeightsAdmitted wide weights count)
    (hplan : PlanExact weights count d plan) {i : ℕ} (hi : i < count) {l : ResampleLocals}
    (hl : RoundExact weights count d i l) :
    RoundExact weights count d (i + 1) (resampleRound plan weights count i l) := by
  obtain ⟨hle, hvalue, hleast, -⟩ := resampleRound_scan h hplan hi hl
  obtain ⟨htarget, hrest⟩ := resampleAdvance_spec h hplan hi hl
  refine ⟨hleast.lt, hvalue, hrest, htarget, ?_, ?_, ?_⟩
  · intro k hk
    exact (hleast.below k hk).trans_le (threshold_mono weights count d (Nat.le_succ i))
  · intro k hk
    change LeastReaching weights count d k (Function.update l.indices i _ k)
    rcases Nat.lt_succ_iff_lt_or_eq.mp hk with hk | rfl
    · rw [Function.update_of_ne hk.ne]
      exact hl.written k hk
    · rw [Function.update_self]
      exact hleast
  · intro k hk
    change Function.update l.indices i _ k ≤ _
    rcases Nat.lt_succ_iff_lt_or_eq.mp hk with hk | rfl
    · rw [Function.update_of_ne hk.ne]
      exact (hl.ordered k hk).trans hle
    · rw [Function.update_self]
      exact le_rfl

theorem resampleLoop_succ (plan : ResamplePlan) (weights : ℕ → Q) (count : ℕ)
    (indices : ℕ → ℕ) (i : ℕ) : resampleLoop plan weights count indices (i + 1) =
      resampleRound plan weights count i (resampleLoop plan weights count indices i) := by
  rw [resampleLoop, foldRange_succ (Nat.zero_le i), resampleLoop]

theorem resampleLoop_spec (h : WeightsAdmitted wide weights count)
    (hplan : PlanExact weights count d plan) (indices : ℕ → ℕ) {i : ℕ} (hi : i ≤ count) :
    RoundExact weights count d i (resampleLoop plan weights count indices i) := by
  induction i with
  | zero =>
      rw [resampleLoop, foldRange_of_le le_rfl]
      have hnonneg := h.nonneg 0 h.count_pos
      have hrest := Nat.mod_lt (initialTarget weights count d) h.count_pos
      have hdiv := Nat.div_add_mod (initialTarget weights count d) count
      rw [← hplan.remainder] at hrest hdiv
      rw [← hplan.start] at hdiv
      refine ⟨h.count_pos, ?_, hrest, ?_, nofun, nofun, nofun⟩
      · rw [toNat_word, toNat_weightWord hnonneg, cumulativeWeight, sum_range_one]
      · rw [toNat_word, Nat.zero_mul, Nat.add_zero]
        exact hdiv
  | succ i ih =>
      rw [resampleLoop_succ]
      exact resampleRound_spec h hplan hi (ih (by omega))

end Rounds

/-! ## The whole call -/

/-- No word operation of the call wraps: the product and both divisions are
exact at every bit, and the sums of every round stay in their words. -/
structure ResampleFits (weights : ℕ → Q) (count : ℕ) (d : BinaryDraw) (total : Accum)
    (locals : ℕ → ResampleLocals) : Prop where
  product : digitSum (2 ^ 64) 3 (fun i => (uniformWords total d.mantissa i).toNat) =
    total.toNat * d.mantissa.toNat
  cut : (pfQUniformProduct total d.mantissa d.shift).1.toNat =
    total.toNat * d.mantissa.toNat / 2 ^ d.shift
  bits : ∀ a : Accum, a.toNat ≤ total.toNat → ∀ k ≤ pfQUbits a,
    2 * (udivAfter a (UInt64.ofNat count) k).1.toNat + 1 < 2 ^ 64
  quotients : PlanExact weights count d (resamplePlan total d count)
  carry : ∀ i < count, (locals i).remainder.toNat +
    (resamplePlan total d count).stepRemainder.toNat < 2 ^ 64
  increment : (resamplePlan total d count).step.toNat + 1 < 2 ^ 64
  advance : ∀ i < count, (locals i).floorTarget.toNat +
    ((resamplePlan total d count).step.toNat + 1) < 2 ^ 128
  cumulative : ∀ j ≤ count, cumulativeWeight weights j < 2 ^ 128

theorem resampleFits {wide : Bool} {weights : ℕ → Q} {count : ℕ}
    (h : WeightsAdmitted wide weights count) (d : BinaryDraw) (indices : ℕ → ℕ) {total : Accum}
    (htotal : total.toNat = cumulativeWeight weights count) :
    ResampleFits weights count d total
      (resampleLoop (resamplePlan total d count) weights count indices) := by
  obtain ⟨hcut, hplan⟩ := resamplePlan_exact h htotal d
  have hcount := h.toNat_count
  have hlt := h.count_lt
  have hpos := h.count_pos
  have hstep := quotient_le weights count le_rfl
  have hmod := Nat.mod_lt (cumulativeWeight weights count) hpos
  rw [← hplan.step] at hstep
  rw [← hplan.stepRemainder] at hmod
  refine ⟨digitSum_uniformWords total d.mantissa, ?_, ?_, hplan, ?_, by omega, ?_, ?_⟩
  · rw [hcut, htotal]
    rfl
  · intro a ha k hk
    rw [htotal] at ha
    have hquotient : a.toNat / (UInt64.ofNat count).toNat < 2 ^ 64 := by
      rw [hcount]
      have := quotient_le weights count ha
      omega
    exact (udivState_after (by omega) (by omega) hquotient k hk).doubled (by omega) (by omega)
  · intro i hi
    have hrest := (resampleLoop_spec h hplan indices hi.le).remainder_lt
    omega
  · intro i hi
    have hfloor := floorTarget_lt h hi.le (resampleLoop_spec h hplan indices hi.le)
    omega
  · intro j hj
    have hmono := cumulativeWeight_mono weights hj
    have hbound := h.total_lt
    omega

/-- Every round returns the least index whose cumulative weight reaches the
exact threshold. -/
theorem resampleIndices_least {wide : Bool} {weights : ℕ → Q} {count capacity : ℕ}
    (h : WeightsAdmitted wide weights count) (d : BinaryDraw) (indices : ℕ → ℕ)
    (hcapacity : count ≤ capacity) :
    ∃ out, resampleIndices weights count (.draw d) (some indices) capacity = .ok out ∧
      (∀ i < count, LeastReaching weights count d i (out i)) := by
  obtain ⟨total, hcall, htotal⟩ := h.weightTotal_eq
  obtain ⟨-, hplan⟩ := resamplePlan_exact h htotal d
  refine ⟨_, ?_, (resampleLoop_spec h hplan indices le_rfl).written⟩
  rw [resampleIndices, if_neg (not_lt.mpr hcapacity), hcall, ok_bind]

/-- The thresholds are increasing, so their least indices are. -/
theorem LeastReaching.mono {weights : ℕ → Q} {count : ℕ} {d : BinaryDraw} {i k j l : ℕ}
    (hi : LeastReaching weights count d i j) (hk : LeastReaching weights count d k l)
    (h : i ≤ k) : j ≤ l := by
  by_contra hlt
  have hbelow := hi.below l (not_le.mp hlt)
  have hmono := threshold_mono weights count d h
  exact absurd (hk.reaches.trans_lt hbelow) (not_lt.mpr hmono)

/-- The call succeeds with the least index for every exact threshold
`(i + u) * T / N`; the indices are in order and in range, the guard of the scan
never stops it short of the target, and nothing overflows. -/
theorem resample_indices_exact (wide : Bool) (weights : ℕ → Q) (count : ℕ) (d : BinaryDraw)
    (indices : ℕ → ℕ) (capacity : ℕ) (h : WeightsAdmitted wide weights count)
    (hcapacity : count ≤ capacity) :
    ∃ total out, weightTotal weights count = .ok total ∧
      total.toNat = cumulativeWeight weights count ∧
      resampleIndices weights count (.draw d) (some indices) capacity = .ok out ∧
      (∀ i < count, out i < count ∧
        threshold weights count d i ≤ cumulativeWeight weights (out i + 1) ∧
        ∀ k < out i, (cumulativeWeight weights (k + 1) : ℚ) < threshold weights count d i) ∧
      (∀ i k, i ≤ k → k < count → out i ≤ out k) ∧
      (∀ i < count, (resampleTarget (resamplePlan total d count).fraction
          (resampleLoop (resamplePlan total d count) weights count indices i)).toNat ≤
        (resampleLoop (resamplePlan total d count) weights count indices (i + 1)).cumulative.toNat) ∧
      ResampleFits weights count d total
        (resampleLoop (resamplePlan total d count) weights count indices) := by
  obtain ⟨total, hcall, htotal⟩ := h.weightTotal_eq
  obtain ⟨-, hplan⟩ := resamplePlan_exact h htotal d
  obtain ⟨out, hout, hleast⟩ := resampleIndices_least h d indices hcapacity
  refine ⟨total, out, hcall, htotal, hout, ?_, ?_, ?_, resampleFits h d indices htotal⟩
  · intro i hi
    exact ⟨(hleast i hi).lt, (hleast i hi).reaches, (hleast i hi).below⟩
  · intro i k hik hk
    exact (hleast i (by omega)).mono (hleast k hk) hik
  · intro i hi
    rw [resampleLoop_succ]
    exact (resampleRound_scan h hplan hi (resampleLoop_spec h hplan indices hi.le)).2.2.2

/-- Two particles of one third and two thirds of the weight. -/
theorem resample_indices_exact_two :
    (resampleIndices (fun j => if j = 0 then (10 : Int16) else 20) 2 (.draw ⟨1, 1, by decide⟩)
      (some fun _ => 0) 2).isOk = true := by
  obtain ⟨total, out, -, -, hout, -⟩ := resample_indices_exact true
    (fun j => if j = 0 then (10 : Int16) else 20) 2 ⟨1, 1, by decide⟩ (fun _ => 0) 2
    ⟨by decide, by decide, by decide⟩ le_rfl
  rw [hout]
  rfl

end Xhive.Particles
