import Xhive.Particles.MomentSums

/-!
# The means of the integer estimate

Every mean is between the extremes of its coordinate, and its remainder is
exact and at most half of the total weight.
-/

namespace Xhive.Particles

open Xhive.Support Xhive.Linears Xhive.Filters Finset

variable {Q : Type} [ParticleFormat Q] {weights : ℕ → Q} {particles : ℕ × ℕ → Q} {mean : ℕ → Q}
  {count : ℕ} {wide : Bool} {total sum : Accum}

/-! ## Stored values -/

theorem toNat_signalOne (Q : Type) [ParticleFormat Q] :
    (1 <<< QFormat.qBits Q : UInt64).toNat = 2 ^ signalBits Q := by
  obtain ⟨hbits, hsignal, -⟩ | ⟨hbits, hsignal, -⟩ := moment_format_cases Q <;>
    rw [hsignal, hbits] <;> decide

theorem signalBits_le (Q : Type) [ParticleFormat Q] : signalBits Q ≤ 31 := by
  obtain ⟨-, hsignal, -⟩ | ⟨-, hsignal, -⟩ := moment_format_cases Q
  · rw [hsignal]
    decide
  · rw [hsignal]

/-- A negative magnitude is stored as it is. -/
theorem toInt_momentSignal_true {magnitude : UInt64} (h : magnitude.toNat ≤ 2 ^ signalBits Q) :
    (QFormat.widen (momentSignal magnitude true : Q)).toInt = -(magnitude.toNat : ℤ) := by
  have hpow := Nat.pow_le_pow_right (show 0 < 2 by norm_num) (signalBits_le Q)
  have hword := toInt_toInt64_of_lt (x := magnitude) (by omega)
  have hneg : (-magnitude.toInt64).toInt = -(magnitude.toNat : ℤ) := by
    rw [toInt_neg_of_fits, hword]
    rw [hword]
    constructor <;> omega
  have hcast : (magnitude.toNat : ℤ) ≤ 2 ^ signalBits Q := by exact_mod_cast h
  rw [momentSignal, if_pos rfl, QFormat.toInt_widen_narrow, hneg]
  · rw [hneg]
    exact neg_le_neg hcast
  · rw [hneg]
    have hpos : (0 : ℤ) < 2 ^ (QFormat.qBits Q).toNat := by positivity
    omega

/-- One is stored as the largest signal. -/
theorem toInt_momentSignal_false {magnitude : UInt64} (h : magnitude.toNat ≤ 2 ^ signalBits Q) :
    (QFormat.widen (momentSignal magnitude false : Q)).toInt =
      min (magnitude.toNat : ℤ) (2 ^ signalBits Q - 1) := by
  have hpow := Nat.pow_le_pow_right (show 0 < 2 by norm_num) (signalBits_le Q)
  have hword := toInt_toInt64_of_lt (x := magnitude) (by omega)
  have hone := toNat_signalOne Q
  have hcast : (magnitude.toNat : ℤ) ≤ 2 ^ signalBits Q := by exact_mod_cast h
  rw [momentSignal, if_neg Bool.false_ne_true]
  by_cases hfull : magnitude = 1 <<< QFormat.qBits Q
  · have hmax : (QFormat.widen (ParticleFormat.signalMax : Q)).toInt = 2 ^ signalBits Q - 1 :=
      ParticleFormat.toInt_signalMax
    rw [if_pos hfull, hmax, hfull, hone]
    push_cast
    exact (min_eq_right (by omega)).symm
  · rw [← UInt64.toNat_inj, hone] at hfull
    have hlt : (magnitude.toNat : ℤ) < 2 ^ signalBits Q := by
      exact_mod_cast lt_of_le_of_ne h hfull
    rw [if_neg (by rw [← UInt64.toNat_inj, hone]; exact hfull), QFormat.toInt_widen_narrow, hword,
      min_eq_left (by omega)]
    · rw [hword]
      have hpos : (0 : ℤ) < 2 ^ (QFormat.qBits Q).toNat := by positivity
      omega
    · rw [hword]
      exact hlt

/-- A magnitude with its sign that fits is stored as it is. -/
theorem toInt_momentSignal {magnitude : UInt64} {negative : Bool}
    (h : magnitude.toNat ≤ 2 ^ signalBits Q)
    (hfits : signed negative (magnitude.toNat : ℤ) ≤ 2 ^ signalBits Q - 1) :
    (QFormat.widen (momentSignal magnitude negative : Q)).toInt =
      signed negative (magnitude.toNat : ℤ) := by
  cases negative with
  | true => rw [toInt_momentSignal_true h, signed_true]
  | false =>
      rw [signed_false] at hfits
      rw [toInt_momentSignal_false h, signed_false, min_eq_left hfits]

/-! ## The mean -/

theorem toNat_momentNegated (value : Accum) :
    (⟨0 - value.low, -value.high - if value.low ≠ 0 then 1 else 0⟩ : Accum).toNat =
      (2 ^ 128 - value.toNat) % 2 ^ 128 := by
  have hlow := value.low.toNat_lt
  have hhigh := value.high.toNat_lt
  have hsize : UInt64.size = 2 ^ 64 := rfl
  have hzero : value.low ≠ 0 ↔ value.low.toNat ≠ 0 := by
    rw [ne_eq, ← UInt64.toNat_inj, UInt64.toNat_zero]
  simp only [Accum.toNat, hzero]
  split
  · rw [UInt64.toNat_sub, UInt64.toNat_sub, UInt64.toNat_neg, hsize, UInt64.toNat_zero,
      UInt64.toNat_one]
    omega
  · rw [UInt64.toNat_sub, UInt64.toNat_sub, UInt64.toNat_neg, hsize, UInt64.toNat_zero]
    omega

theorem toInt_momentNegated {value : Accum} (h : value.toNat < 2 ^ 127) :
    (⟨0 - value.low, -value.high - if value.low ≠ 0 then 1 else 0⟩ : Accum).toInt =
      -(value.toNat : ℤ) := by
  apply Accum.toInt_eq_of_emod
  · constructor <;> omega
  · rw [toNat_momentNegated]
    omega

/-- The product of the total with a magnitude. -/
theorem toNat_momentScaled {raw : UInt64} (h : total.toNat * raw.toNat < 2 ^ 128) :
    (⟨(pfQUmul total.low raw).low, (pfQUmul total.low raw).high + total.high * raw⟩ : Accum).toNat =
      total.toNat * raw.toNat := by
  have hproduct := toNat_pfQUmul total.low raw
  have hsplit : total.toNat * raw.toNat =
      total.high.toNat * raw.toNat * 2 ^ 64 + (pfQUmul total.low raw).toNat := by
    rw [hproduct, Accum.toNat]
    ring
  rw [hsplit] at h ⊢
  generalize pfQUmul total.low raw = low at *
  have hlow := low.low.toNat_lt
  simp only [Accum.toNat, UInt64.toNat_add, UInt64.toNat_mul] at h ⊢
  generalize total.high.toNat * raw.toNat = high at *
  omega

theorem signed_sub_mul (negative : Bool) (x y t : ℤ) :
    signed negative x - t * signed negative y = signed negative (x - t * y) := by
  cases negative with
  | true =>
      rw [signed_true, signed_true, signed_true]
      ring
  | false => rfl

/-- A magnitude below the sign bit takes a sign. -/
theorem toInt_momentSigned (negative : Bool) {value : Accum} (h : value.toNat < 2 ^ 127) :
    (if negative then (⟨0 - value.low, -value.high - if value.low ≠ 0 then 1 else 0⟩ : Accum)
      else value).toInt = signed negative (value.toNat : ℤ) := by
  cases negative with
  | true =>
      rw [if_pos rfl, signed_true]
      exact toInt_momentNegated h
  | false =>
      rw [if_neg Bool.false_ne_true, signed_false]
      exact Accum.toInt_of_lt h

/-- The larger of two magnitudes gives the sign of their difference. -/
theorem signed_momentDifference (negative : Bool) (a b : Accum) :
    signed negative ((a.toNat : ℤ) - b.toNat) =
      signed (negative != decide (pfQUcmp a b < 0))
        ((if decide (pfQUcmp a b < 0) then momentSub128 b a else momentSub128 a b).toNat : ℤ) := by
  have hless := pfQUcmp_neg_iff a b
  by_cases hsmaller : pfQUcmp a b < 0
  · have hlt := hless.mp hsmaller
    rw [decide_eq_true hsmaller, if_pos rfl, toNat_momentSub128 hlt.le, Nat.cast_sub hlt.le]
    cases negative with
    | true => rw [Bool.true_bne, Bool.not_true, signed_true, signed_false, neg_sub]
    | false => rw [Bool.false_bne, signed_true, signed_false, neg_sub]
  · have hle := not_lt.mp (mt hless.mpr hsmaller)
    rw [decide_eq_false hsmaller, if_neg Bool.false_ne_true, toNat_momentSub128 hle,
      Nat.cast_sub hle, Bool.bne_false]

theorem signed_momentMagnitude (value : Accum) :
    value.toInt = signed (lnNegative value) ((momentMagnitude value).toNat : ℤ) := by
  have hnegative : lnNegative value = decide (value.toInt < 0) := by
    rw [Bool.eq_iff_iff, lnNegative_iff, decide_eq_true_iff]
  rw [toNat_momentMagnitude, hnegative, signed_natAbs]

/-- The remainder is exact when the mean has the sign of the sum. -/
theorem toInt_momentMeanRemainder {stored : Q} {m : ℕ}
    (hstored : (QFormat.widen stored).toInt = signed (lnNegative sum) (m : ℤ))
    (hproduct : total.toNat * m < 2 ^ 128)
    (hfits : |sum.toInt - total.toNat * (QFormat.widen stored).toInt| < 2 ^ 127) :
    (momentMeanRemainder sum total stored).toInt =
      sum.toInt - total.toNat * (QFormat.widen stored).toInt := by
  have hraw : (pfQMagnitude (QFormat.widen stored)).toNat = m := by
    rw [toNat_pfQMagnitude, hstored]
    cases lnNegative sum <;> simp
  have hscaled := @toNat_momentScaled total (pfQMagnitude (QFormat.widen stored))
    (by rw [hraw]; exact hproduct)
  rw [hraw] at hscaled
  have hdifference : sum.toInt - total.toNat * (QFormat.widen stored).toInt =
      signed (lnNegative sum) (((momentMagnitude sum).toNat : ℤ) - (total.toNat * m : ℕ)) := by
    rw [hstored, signed_momentMagnitude sum, Nat.cast_mul, signed_sub_mul]
  rw [hdifference] at hfits ⊢
  rw [momentMeanRemainder]
  rw [← hscaled, signed_momentDifference] at hfits ⊢
  rw [abs_signed_natCast] at hfits
  exact toInt_momentSigned _ (by exact_mod_cast hfits)

/-- Rounding keeps a sign. -/
theorem roundAway_signed_natAbs {x : ℤ} {negative : Bool} {d : ℕ}
    (hsign : signed negative (x.natAbs : ℤ) = x) (hd : 0 < d) :
    roundAway ((x : ℚ) / d) = signed negative (roundedQuotient x.natAbs d : ℤ) := by
  rw [← roundAway_signed_div _ _ hd]
  generalize x.natAbs = n at *
  rw [← hsign]
  cases negative with
  | true =>
      rw [signed_true, signed_true]
      push_cast
      rw [neg_div]
  | false =>
      rw [signed_false, signed_false]
      push_cast
      rfl

/-- Rounding a quotient by its magnitude. -/
theorem roundAway_div_eq (value : Accum) {d : ℕ} (hd : 0 < d) :
    roundAway ((value.toInt : ℚ) / d) =
      signed (lnNegative value) (roundedQuotient value.toInt.natAbs d : ℤ) := by
  have hvalue := signed_momentMagnitude value
  rw [toNat_momentMagnitude] at hvalue
  exact roundAway_signed_natAbs hvalue.symm hd

theorem rawWeight_nonneg (weights : ℕ → Q) (s : Finset ℕ) : ∀ i ∈ s, 0 ≤ rawWeight weights i :=
  fun _ _ => Nat.cast_nonneg _

theorem abs_lt_of_two_mul_le {x : ℤ} {t : ℕ} (h : 2 * |x| ≤ t) (ht : t < 2 ^ 95) :
    |x| < 2 ^ 127 := by
  have hcast : (t : ℤ) < 2 ^ 95 := by exact_mod_cast ht
  linarith [abs_nonneg x]

/-- A mean is the exact weighted mean, rounded once. -/
def MeanRounded (weights : ℕ → Q) (particles : ℕ × ℕ → Q) (count : ℕ) (total : Accum) (j : ℕ)
    (mean : Q) : Prop :=
  (QFormat.widen mean).toInt =
    roundAway ((exactMeanSum weights particles count j : ℚ) / total.toNat)

/-- Weights and their total. -/
structure EstimateInputs (wide : Bool) (weights : ℕ → Q) (particles : ℕ × ℕ → Q) (count : ℕ)
    (total : Accum) : Prop where
  admitted : WeightsAdmitted wide weights count
  total_eq : total.toNat = cumulativeWeight weights count

namespace EstimateInputs

variable (h : EstimateInputs wide weights particles count total)

include h

theorem total_pos : 0 < total.toNat := by
  rw [h.total_eq]
  exact h.admitted.total_pos

theorem sum_rawWeight : ∑ i ∈ range count, rawWeight weights i = total.toNat := by
  rw [h.total_eq, cumulativeWeight]
  push_cast
  rfl

theorem total_lt : total.toNat < 2 ^ (63 + signalBits Q) := by
  have hcount := h.admitted.count_lt
  have hle : (total.toNat : ℤ) ≤ count * (2 ^ signalBits Q - 1) := by
    rw [← h.sum_rawWeight]
    calc ∑ i ∈ range count, rawWeight weights i ≤ #(range count) • (2 ^ signalBits Q - 1 : ℤ) :=
          sum_le_card_nsmul _ _ _ fun i _ => weightCode_le_signal _
      _ = count * (2 ^ signalBits Q - 1) := by rw [card_range, nsmul_eq_mul]
  have hpos : (0 : ℤ) < 2 ^ signalBits Q := by positivity
  have hfinal : (total.toNat : ℤ) < 2 ^ (63 + signalBits Q) := by
    calc (total.toNat : ℤ) ≤ count * (2 ^ signalBits Q - 1) := hle
      _ ≤ 2 ^ 63 * (2 ^ signalBits Q - 1) :=
        mul_le_mul_of_nonneg_right (by exact_mod_cast hcount.le) (by omega)
      _ < 2 ^ (63 + signalBits Q) := by
        rw [pow_add]
        linarith
  exact_mod_cast hfinal

theorem total_lt_96 : total.toNat < 2 ^ 95 :=
  h.total_lt.trans_le (Nat.pow_le_pow_right (by norm_num) (by have := signalBits_le Q; omega))

theorem scaled_total_lt : total.toNat * 2 ^ signalBits Q < 2 ^ 127 := by
  have hpow := Nat.pow_le_pow_right (show 0 < 2 by norm_num) (signalBits_le Q)
  calc total.toNat * 2 ^ signalBits Q ≤ total.toNat * 2 ^ 31 := Nat.mul_le_mul_left _ hpow
    _ < 2 ^ 95 * 2 ^ 31 := Nat.mul_lt_mul_of_pos_right h.total_lt_96 (by norm_num)
    _ ≤ 2 ^ 127 := by norm_num

/-- The limit of a sum loses no bit. -/
theorem toNat_limit :
    (momentLeft128 total (signalBits Q)).toNat = total.toNat * 2 ^ signalBits Q := by
  rw [toNat_momentLeft128 _ ((signalBits_le Q).trans_lt (by norm_num)),
    Nat.mod_eq_of_lt (h.scaled_total_lt.trans (by norm_num))]

/-- A coordinate: its mean is the rounded quotient, between the extremes, and its remainder is
exact and small. -/
theorem meanStep_ok {lo hi : ℤ} {j : ℕ} (hlo : ∀ i < count, lo ≤ rawParticle particles i j)
    (hhi : ∀ i < count, rawParticle particles i j ≤ hi) (hlow : -2 ^ signalBits Q ≤ lo)
    (hhigh : hi ≤ 2 ^ signalBits Q - 1) (s : MomentScratch Q) :
    ∃ stored : Q,
      meanStep weights particles count total j s =
          .ok { s with
            mean := Function.update s.mean j stored
            remainder := Function.update s.remainder j
              (momentMeanRemainder (meanSum weights particles count j) total stored) } ∧
        lo ≤ (QFormat.widen stored).toInt ∧ (QFormat.widen stored).toInt ≤ hi ∧
        (momentMeanRemainder (meanSum weights particles count j) total stored).toInt =
          exactMeanSum weights particles count j - total.toNat * (QFormat.widen stored).toInt ∧
        2 * (momentMeanRemainder (meanSum weights particles count j) total stored).toInt.natAbs ≤
          total.toNat ∧
        MeanRounded weights particles count total j stored := by
  have hpos := h.total_pos
  have hlt := h.total_lt_96
  have hbits := signalBits_le Q
  have hsum := @toInt_meanSum Q _ weights particles _ _ h.admitted j
  obtain ⟨hbelow, habove⟩ := weightedSum_bounds (s := range count)
    (u := fun i => rawParticle particles i j) (rawWeight_nonneg weights _)
    (fun i hi => hlo i (mem_range.mp hi)) (fun i hi => hhi i (mem_range.mp hi))
  rw [h.sum_rawWeight] at hbelow habove
  change _ ≤ exactMeanSum weights particles count j at hbelow
  change exactMeanSum weights particles count j ≤ _ at habove
  simp only [MeanRounded]
  rw [← hsum] at hbelow habove ⊢
  rw [meanStep]
  dsimp only
  generalize meanSum weights particles count j = sum at *
  have hT : (0 : ℤ) < total.toNat := by exact_mod_cast hpos
  have hmagnitude : sum.toInt.natAbs ≤ total.toNat * 2 ^ signalBits Q := by
    have hupper : sum.toInt ≤ total.toNat * 2 ^ signalBits Q :=
      habove.trans (mul_le_mul_of_nonneg_left (by omega) hT.le)
    have hlower : -(total.toNat * 2 ^ signalBits Q : ℤ) ≤ sum.toInt := by
      rw [← mul_neg]
      exact (mul_le_mul_of_nonneg_left hlow hT.le).trans hbelow
    zify
    exact abs_le.mpr ⟨hlower, hupper⟩
  have hpow := Nat.pow_le_pow_right (show 0 < 2 by norm_num) hbits
  have hscaled := Nat.mul_le_mul_left total.toNat hpow
  have hlimit := h.toNat_limit
  have hguard : ¬pfQUcmp (momentMagnitude sum) (momentLeft128 total (signalBits Q)) > 0 := by
    rw [gt_iff_lt, pfQUcmp_pos_iff, toNat_momentMagnitude, hlimit]
    exact not_lt.mpr hmagnitude
  rw [if_neg hguard]
  obtain ⟨-, hrounded⟩ := @toNat_momentRounded (momentMagnitude sum) _ hpos hlt (by
    rw [toNat_momentMagnitude]
    exact hmagnitude.trans hscaled)
  rw [toNat_momentMagnitude] at hrounded
  generalize ((momentDivide128 (momentMagnitude sum) total).1 +
    if pfQUcmp (momentLeft128 (momentDivide128 (momentMagnitude sum) total).2 1) total ≥ 0 then 1
    else 0) = rounded at *
  have hround := roundAway_div_eq sum hpos
  rw [← hrounded] at hround
  have hsmall : rounded.toNat ≤ 2 ^ signalBits Q := by
    rw [hrounded]
    exact roundedQuotient_le_of_le_mul hpos hmagnitude
  -- the rounded quotient stays between the extremes, so one is never clipped
  have hmean := roundAway_div_bounds hpos hbelow habove
  have hclose := two_mul_abs_sub_mul_roundAway_le sum.toInt hpos
  rw [hround] at hmean hclose ⊢
  have hstored := toInt_momentSignal hsmall (hmean.2.trans hhigh)
  have hproduct : total.toNat * rounded.toNat < 2 ^ 128 :=
    (Nat.mul_le_mul_left _ hsmall).trans_lt (h.scaled_total_lt.trans (by norm_num))
  rw [← hstored] at hclose hmean
  have hremainder := toInt_momentMeanRemainder hstored hproduct
    (abs_lt_of_two_mul_le hclose hlt)
  refine ⟨_, rfl, hmean.1, hmean.2, hremainder, ?_, hstored⟩
  rw [hremainder]
  zify
  exact hclose

/-- The staged mean of a coordinate and its remainder. -/
structure MeanStaged (weights : ℕ → Q) (particles : ℕ × ℕ → Q) (count : ℕ) (total : Accum) (j : ℕ)
    (mean : Q) (remainder : Accum) : Prop where
  least : ∃ i < count, rawParticle particles i j ≤ (QFormat.widen mean).toInt
  greatest : ∃ i < count, (QFormat.widen mean).toInt ≤ rawParticle particles i j
  staged : remainder = momentMeanRemainder (meanSum weights particles count j) total mean
  remainder_eq : remainder.toInt =
    exactMeanSum weights particles count j - total.toNat * (QFormat.widen mean).toInt
  remainder_le : 2 * remainder.toInt.natAbs ≤ total.toNat

theorem meanStep_staged (j : ℕ) (s : MomentScratch Q) :
    Ensures (meanStep weights particles count total j s)
      (fun t => (MeanStaged weights particles count total j (t.mean j) (t.remainder j) ∧
        MeanRounded weights particles count total j (t.mean j)) ∧
        ∀ i ≠ j, t.mean i = s.mean i ∧ t.remainder i = s.remainder i) (fun _ => False) := by
  have hnonempty : (range count).Nonempty := by
    rw [nonempty_range_iff]
    rintro rfl
    have hpos := h.total_pos
    rw [h.total_eq] at hpos
    exact absurd hpos (lt_irrefl _)
  obtain ⟨least, hleast, hmin⟩ := exists_min_image (range count)
    (fun i => rawParticle particles i j) hnonempty
  obtain ⟨greatest, hgreatest, hmax⟩ := exists_max_image (range count)
    (fun i => rawParticle particles i j) hnonempty
  obtain ⟨stored, hstep, hlow, hhigh, heq, hle, hrounded⟩ := h.meanStep_ok
    (fun i hi => hmin i (mem_range.mpr hi)) (fun i hi => hmax i (mem_range.mpr hi))
    (widen_bounds _).1 (widen_bounds _).2 s
  rw [hstep, ensures_ok]
  dsimp only
  rw [Function.update_self, Function.update_self]
  refine ⟨⟨⟨⟨least, mem_range.mp hleast, hlow⟩, ⟨greatest, mem_range.mp hgreatest, hhigh⟩, rfl, heq,
    hle⟩, hrounded⟩, fun i hi => ?_⟩
  rw [Function.update_of_ne hi, Function.update_of_ne hi]
  exact ⟨rfl, rfl⟩

/-- All means are staged. -/
theorem means_staged (n : ℕ) (s : MomentScratch Q) :
    Ensures (forRange 0 n s (meanStep weights particles count total))
      (fun t => ∀ j < n, MeanStaged weights particles count total j (t.mean j) (t.remainder j) ∧
        MeanRounded weights particles count total j (t.mean j))
      (fun _ => False) := by
  refine Ensures.forRange
    (fun i (t : MomentScratch Q) => ∀ j < i,
      MeanStaged weights particles count total j (t.mean j) (t.remainder j) ∧
        MeanRounded weights particles count total j (t.mean j))
    (Nat.zero_le n) (fun j hj => absurd hj (Nat.not_lt_zero j)) ?_
  intro i t _ _ hdone
  refine (h.meanStep_staged i t).imp fun u ⟨hnew, hkept⟩ j hj => ?_
  rcases Nat.lt_succ_iff_lt_or_eq.mp hj with hlt | rfl
  · rw [(hkept j hlt.ne).1, (hkept j hlt.ne).2]
    exact hdone j hlt
  · exact hnew

end EstimateInputs

end Xhive.Particles
