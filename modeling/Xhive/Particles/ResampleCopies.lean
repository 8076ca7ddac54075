import Xhive.Particles.ResampleExact

/-!
# How often systematic resampling copies a particle

In units of `T / N` the cumulative weights cut the interval from zero to `N`
and the thresholds are one apart, so every particle gets the floor or the
ceiling of its share.  A draw of exactly zero puts the first threshold on the
left end: particle zero takes it whatever its weight is, and the last particle
with weight misses the threshold at `N`.
-/

namespace Xhive.Particles

open Xhive.Support Xhive.Linears Xhive.Filters Finset

variable {Q : Type} [ParticleFormat Q]

/-- How many of the `count` indices are `j`. -/
def copies (out : ℕ → ℕ) (count j : ℕ) : ℕ :=
  ((range count).filter fun i => out i = j).card

/-- `N * w_j / T`. -/
def share (weights : ℕ → Q) (count j : ℕ) : ℚ :=
  count * weightCode (weights j) / cumulativeWeight weights count

/-- The share of the first `j` particles together. -/
def cumulativeShare (weights : ℕ → Q) (count j : ℕ) : ℚ :=
  count * cumulativeWeight weights j / cumulativeWeight weights count

/-- Each particle is copied its share rounded down or up, `N` times in all, and
never without a weight. -/
def CopiesShare (weights : ℕ → Q) (count : ℕ) (out : ℕ → ℕ) : Prop :=
  (∀ j < count, (copies out count j : ℤ) = ⌊share weights count j⌋ ∨
    (copies out count j : ℤ) = ⌈share weights count j⌉) ∧
  ∑ j ∈ range count, copies out count j = count ∧
  ∀ j < count, weightCode (weights j) = 0 → copies out count j = 0

/-- The draws whose thresholds stay off the ends: a positive draw, all weight
on particle zero, or shares of particle zero and of the last weighted particle
that are not whole. -/
def DrawSpreads (weights : ℕ → Q) (count : ℕ) (d : BinaryDraw) : Prop :=
  d.mantissa ≠ 0 ∨
  weightCode (weights 0) = cumulativeWeight weights count ∨
  (¬cumulativeWeight weights count ∣ count * weightCode (weights 0) ∧
    ∀ j < count, cumulativeWeight weights (j + 1) = cumulativeWeight weights count →
      0 < weightCode (weights j) →
      ¬cumulativeWeight weights count ∣ count * weightCode (weights j))

/-! ## Counting below an index -/

/-- How many of the indices lie below `j`. -/
def copiesBelow (out : ℕ → ℕ) (count j : ℕ) : ℕ :=
  ((range count).filter fun i => out i < j).card

theorem copiesBelow_succ (out : ℕ → ℕ) (count j : ℕ) :
    copiesBelow out count (j + 1) = copiesBelow out count j + copies out count j := by
  rw [copiesBelow, copiesBelow, copies, ← card_union_of_disjoint]
  · congr 1
    ext i
    rw [mem_union, mem_filter, mem_filter, mem_filter, ← and_or_left, Nat.lt_succ_iff_lt_or_eq]
  · rw [disjoint_left]
    intro i hlow heq
    rw [mem_filter] at hlow heq
    omega

theorem copiesBelow_eq_sum (out : ℕ → ℕ) (count j : ℕ) :
    copiesBelow out count j = ∑ k ∈ range j, copies out count k := by
  induction j with
  | zero =>
      rw [copiesBelow, sum_range_zero, card_eq_zero, filter_eq_empty_iff]
      exact fun _ _ => Nat.not_lt_zero _
  | succ j ih => rw [copiesBelow_succ, ih, sum_range_succ]

theorem sum_copies {out : ℕ → ℕ} {count : ℕ} (h : ∀ i < count, out i < count) :
    ∑ j ∈ range count, copies out count j = count := by
  rw [← copiesBelow_eq_sum, copiesBelow, filter_true_of_mem fun i hi => h i (mem_range.mp hi),
    card_range]

section Shares

variable {wide : Bool} {weights : ℕ → Q} {count : ℕ}

theorem cumulativeShare_succ (weights : ℕ → Q) (count j : ℕ) :
    cumulativeShare weights count (j + 1) =
      cumulativeShare weights count j + share weights count j := by
  rw [cumulativeShare, cumulativeShare, share, cumulativeWeight_succ]
  push_cast
  ring

theorem cumulativeShare_nonneg (weights : ℕ → Q) (count j : ℕ) :
    0 ≤ cumulativeShare weights count j := by
  rw [cumulativeShare]
  positivity

theorem cumulativeShare_zero (weights : ℕ → Q) (count : ℕ) :
    cumulativeShare weights count 0 = 0 := by
  rw [cumulativeShare, cumulativeWeight, sum_range_zero, Nat.cast_zero, mul_zero, zero_div]

theorem cumulativeShare_of_full (h : WeightsAdmitted wide weights count) {j : ℕ}
    (hj : cumulativeWeight weights j = cumulativeWeight weights count) :
    cumulativeShare weights count j = count := by
  have htotal : (cumulativeWeight weights count : ℚ) ≠ 0 := by
    exact_mod_cast h.total_pos.ne'
  rw [cumulativeShare, hj, mul_div_assoc, div_self htotal, mul_one]

theorem cumulativeShare_le (h : WeightsAdmitted wide weights count) {j : ℕ} (hj : j ≤ count) :
    cumulativeShare weights count j ≤ count := by
  have hmono := cumulativeWeight_mono weights hj
  have htotal : (0 : ℚ) < cumulativeWeight weights count := by exact_mod_cast h.total_pos
  rw [cumulativeShare, div_le_iff₀ htotal]
  gcongr

theorem cumulativeShare_lt (h : WeightsAdmitted wide weights count) {j : ℕ}
    (hj : cumulativeWeight weights j < cumulativeWeight weights count) :
    cumulativeShare weights count j < count := by
  have htotal : (0 : ℚ) < cumulativeWeight weights count := by exact_mod_cast h.total_pos
  have hcount : (0 : ℚ) < count := by exact_mod_cast h.count_pos
  rw [cumulativeShare, div_lt_iff₀ htotal]
  gcongr

theorem threshold_le_iff_share (h : WeightsAdmitted wide weights count) (d : BinaryDraw)
    (i j : ℕ) : threshold weights count d i ≤ cumulativeWeight weights j ↔
      (i : ℚ) + d.value ≤ cumulativeShare weights count j := by
  have htotal : (0 : ℚ) < cumulativeWeight weights count := by exact_mod_cast h.total_pos
  have hcount : (0 : ℚ) < count := by exact_mod_cast h.count_pos
  rw [threshold, cumulativeShare, div_le_iff₀ hcount, le_div_iff₀ htotal,
    mul_comm (cumulativeWeight weights j : ℚ)]

/-- The indices below `j + 1` are those whose threshold the weight up to `j`
reaches. -/
theorem copiesBelow_eq_reached (h : WeightsAdmitted wide weights count) {d : BinaryDraw}
    {out : ℕ → ℕ} (hout : ∀ i < count, LeastReaching weights count d i (out i)) (j : ℕ) :
    copiesBelow out count (j + 1) =
      reached d.value count (cumulativeShare weights count (j + 1)) := by
  rw [copiesBelow, reached]
  congr 1
  apply filter_congr
  intro i hi
  have hleast := hout i (mem_range.mp hi)
  rw [← threshold_le_iff_share h]
  constructor
  · intro hlt
    have hmono := cumulativeWeight_mono weights (show out i + 1 ≤ j + 1 from hlt)
    exact hleast.reaches.trans (by exact_mod_cast hmono)
  · intro hreach
    by_contra hge
    exact absurd hreach (not_le.mpr (hleast.below j (by omega)))

theorem copiesBelow_zero (out : ℕ → ℕ) (count : ℕ) : copiesBelow out count 0 = 0 := by
  rw [copiesBelow_eq_sum, sum_range_zero]

end Shares

/-! ## Positive draws -/

theorem BinaryDraw.value_lt_one (d : BinaryDraw) : d.value < 1 := by
  rw [value, div_lt_one (by positivity)]
  exact_mod_cast d.below_one

theorem BinaryDraw.value_pos (d : BinaryDraw) (h : d.mantissa ≠ 0) : 0 < d.value := by
  have hpos : 0 < d.mantissa.toNat := Nat.pos_of_ne_zero ((toNat_ne_zero_iff _).mpr h)
  rw [value]
  positivity

theorem BinaryDraw.value_zero (d : BinaryDraw) (h : d.mantissa = 0) : d.value = 0 := by
  rw [value, h, UInt64.toNat_zero, Nat.cast_zero, zero_div]

section Copies

variable {wide : Bool} {weights : ℕ → Q} {count : ℕ} {d : BinaryDraw} {out : ℕ → ℕ}

theorem copies_of_pos (h : WeightsAdmitted wide weights count)
    (hout : ∀ i < count, LeastReaching weights count d i (out i)) (hd : d.mantissa ≠ 0) {j : ℕ}
    (hj : j < count) :
    (copies out count j : ℤ) = ⌊share weights count j⌋ ∨
      (copies out count j : ℤ) = ⌈share weights count j⌉ := by
  have hbelow : ∀ k ≤ count, (copiesBelow out count k : ℤ) =
      ⌊cumulativeShare weights count k - d.value⌋ + 1 := by
    intro k hk
    cases k with
    | zero =>
        rw [copiesBelow_zero, cumulativeShare_zero]
        have hfloor : ⌊(0 : ℚ) - d.value⌋ = -1 := by
          have hpos := d.value_pos hd
          have hone := d.value_lt_one
          rw [Int.floor_eq_iff]
          push_cast
          constructor <;> linarith
        rw [hfloor]
        rfl
    | succ k =>
        rw [copiesBelow_eq_reached h hout, reached_of_pos (d.value_pos hd) d.value_lt_one
          (cumulativeShare_nonneg _ _ _) (cumulativeShare_le h hk)]
  have hcount : (copies out count j : ℤ) = ⌊cumulativeShare weights count (j + 1) - d.value⌋ -
      ⌊cumulativeShare weights count j - d.value⌋ := by
    have hsucc := copiesBelow_succ out count j
    have hleft := hbelow j hj.le
    have hright := hbelow (j + 1) hj
    omega
  have hshare : share weights count j = cumulativeShare weights count (j + 1) - d.value -
      (cumulativeShare weights count j - d.value) := by
    rw [cumulativeShare_succ]
    ring
  rw [hcount, hshare]
  exact floor_sub_floor _ _

/-! ## A draw of zero -/

/-- The share is whole exactly when the total divides. -/
theorem exists_share_eq_iff (h : WeightsAdmitted wide weights count) (j : ℕ) :
    cumulativeWeight weights count ∣ count * weightCode (weights j) ↔
      ∃ k : ℤ, share weights count j = k := by
  have htotal : (cumulativeWeight weights count : ℚ) ≠ 0 := by
    exact_mod_cast h.total_pos.ne'
  rw [share]
  constructor
  · rintro ⟨k, hk⟩
    refine ⟨k, ?_⟩
    rw [div_eq_iff htotal]
    push_cast
    rw [mul_comm (k : ℚ)]
    exact_mod_cast hk
  · rintro ⟨k, hk⟩
    rw [div_eq_iff htotal] at hk
    have hint : ((count * weightCode (weights j) : ℕ) : ℤ) =
        k * (cumulativeWeight weights count : ℕ) := by
      exact_mod_cast hk
    exact Int.natCast_dvd_natCast.mp ⟨k, by rw [hint, mul_comm]⟩

theorem copiesBelow_of_zero (h : WeightsAdmitted wide weights count)
    (hout : ∀ i < count, LeastReaching weights count d i (out i)) (hd : d.mantissa = 0) {j : ℕ}
    (hj : cumulativeWeight weights (j + 1) < cumulativeWeight weights count) :
    (copiesBelow out count (j + 1) : ℤ) = ⌊cumulativeShare weights count (j + 1)⌋ + 1 := by
  rw [copiesBelow_eq_reached h hout, d.value_zero hd,
    reached_zero (cumulativeShare_nonneg _ _ _) (cumulativeShare_lt h hj)]

theorem copiesBelow_of_full (h : WeightsAdmitted wide weights count)
    (hout : ∀ i < count, LeastReaching weights count d i (out i)) {j : ℕ}
    (hj : cumulativeWeight weights (j + 1) = cumulativeWeight weights count) :
    copiesBelow out count (j + 1) = count := by
  rw [copiesBelow_eq_reached h hout, cumulativeShare_of_full h hj, reached_full d.value_lt_one]

theorem cumulativeWeight_one (weights : ℕ → Q) :
    cumulativeWeight weights 1 = weightCode (weights 0) := by
  rw [cumulativeWeight, sum_range_one]

theorem cumulativeShare_one (weights : ℕ → Q) (count : ℕ) :
    cumulativeShare weights count 1 = share weights count 0 := by
  rw [cumulativeShare_succ, cumulativeShare_zero, zero_add]

/-- Particle zero also takes the threshold at zero. -/
theorem copies_first (h : WeightsAdmitted wide weights count)
    (hout : ∀ i < count, LeastReaching weights count d i (out i)) (hd : d.mantissa = 0)
    (hfirst : weightCode (weights 0) < cumulativeWeight weights count) :
    (copies out count 0 : ℤ) = ⌊share weights count 0⌋ + 1 := by
  have hsucc := copiesBelow_succ out count 0
  have hbelow := copiesBelow_of_zero h hout hd (j := 0) (by rwa [cumulativeWeight_one])
  rw [zero_add, cumulativeShare_one] at hbelow
  rw [copiesBelow_zero, zero_add, zero_add] at hsucc
  rw [← hsucc, hbelow]

/-- Between the ends nothing is lost. -/
theorem copies_inner (h : WeightsAdmitted wide weights count)
    (hout : ∀ i < count, LeastReaching weights count d i (out i)) (hd : d.mantissa = 0) {k : ℕ}
    (hk : cumulativeWeight weights (k + 1 + 1) < cumulativeWeight weights count) :
    (copies out count (k + 1) : ℤ) = ⌊share weights count (k + 1)⌋ ∨
      (copies out count (k + 1) : ℤ) = ⌈share weights count (k + 1)⌉ := by
  have hmono := cumulativeWeight_mono weights (show k + 1 ≤ k + 1 + 1 by omega)
  have hsucc := copiesBelow_succ out count (k + 1)
  have hleft := copiesBelow_of_zero h hout hd (j := k) (by omega)
  have hright := copiesBelow_of_zero h hout hd hk
  have hcount : (copies out count (k + 1) : ℤ) =
      ⌊cumulativeShare weights count (k + 1 + 1)⌋ - ⌊cumulativeShare weights count (k + 1)⌋ := by
    omega
  have hshare : share weights count (k + 1) =
      cumulativeShare weights count (k + 1 + 1) - cumulativeShare weights count (k + 1) := by
    rw [cumulativeShare_succ weights count (k + 1)]
    ring
  rw [hcount, hshare]
  exact floor_sub_floor _ _

/-- The last particle with weight misses the threshold at the total. -/
theorem copies_last (h : WeightsAdmitted wide weights count)
    (hout : ∀ i < count, LeastReaching weights count d i (out i)) (hd : d.mantissa = 0) {k : ℕ}
    (hbefore : cumulativeWeight weights (k + 1) < cumulativeWeight weights count)
    (hfull : cumulativeWeight weights (k + 1 + 1) = cumulativeWeight weights count) :
    (copies out count (k + 1) : ℤ) = ⌈share weights count (k + 1)⌉ - 1 := by
  have hsucc := copiesBelow_succ out count (k + 1)
  have hleft := copiesBelow_of_zero h hout hd hbefore
  have hright := copiesBelow_of_full h hout hfull
  have hshare : share weights count (k + 1) =
      -cumulativeShare weights count (k + 1) + (count : ℤ) := by
    have hwhole := cumulativeShare_of_full h hfull
    rw [cumulativeShare_succ] at hwhole
    rw [Int.cast_natCast, ← hwhole]
    ring
  rw [hshare, Int.ceil_add_intCast, Int.ceil_neg]
  omega

/-- Nothing is left after the total is reached. -/
theorem copies_after (h : WeightsAdmitted wide weights count)
    (hout : ∀ i < count, LeastReaching weights count d i (out i)) {k : ℕ} (hk : k + 1 < count)
    (hfull : cumulativeWeight weights (k + 1) = cumulativeWeight weights count) :
    (copies out count (k + 1) : ℤ) = ⌊share weights count (k + 1)⌋ := by
  have hmono := cumulativeWeight_mono weights (show k + 1 + 1 ≤ count from hk)
  have hweight := cumulativeWeight_succ weights (k + 1)
  have hsucc := copiesBelow_succ out count (k + 1)
  have hleft := copiesBelow_of_full h hout hfull
  have hright := copiesBelow_of_full h hout (j := k + 1) (by omega)
  have hzero : weightCode (weights (k + 1)) = 0 := by omega
  rw [share, hzero, Nat.cast_zero, mul_zero, zero_div, Int.floor_zero]
  omega

/-- All weight on particle zero: it takes every threshold. -/
theorem copies_sole (h : WeightsAdmitted wide weights count)
    (hout : ∀ i < count, LeastReaching weights count d i (out i))
    (hfirst : weightCode (weights 0) = cumulativeWeight weights count) {j : ℕ} (hj : j < count) :
    (copies out count j : ℤ) = ⌊share weights count j⌋ := by
  have hone : cumulativeWeight weights 1 = cumulativeWeight weights count := by
    rwa [cumulativeWeight_one]
  cases j with
  | zero =>
      have hsucc := copiesBelow_succ out count 0
      rw [copiesBelow_zero, zero_add, zero_add, copiesBelow_of_full h hout (j := 0) hone] at hsucc
      rw [← cumulativeShare_one, cumulativeShare_of_full h hone, Int.floor_natCast, ← hsucc]
  | succ k =>
      apply copies_after h hout hj
      have hlow := cumulativeWeight_mono weights (show 1 ≤ k + 1 by omega)
      have hhigh := cumulativeWeight_mono weights hj.le
      omega

/-! ## The exact condition -/

theorem share_rounds_of_spreads (h : WeightsAdmitted wide weights count)
    (hout : ∀ i < count, LeastReaching weights count d i (out i))
    (hspreads : DrawSpreads weights count d) {j : ℕ} (hj : j < count) :
    (copies out count j : ℤ) = ⌊share weights count j⌋ ∨
      (copies out count j : ℤ) = ⌈share weights count j⌉ := by
  by_cases hd : d.mantissa = 0
  swap
  · exact copies_of_pos h hout hd hj
  rcases hspreads with hne | hsole | ⟨hfirst, hlast⟩
  · exact absurd hd hne
  · exact Or.inl (copies_sole h hout hsole hj)
  have hone := cumulativeWeight_mono weights (show 1 ≤ count from h.count_pos)
  rw [cumulativeWeight_one] at hone
  have hlt : weightCode (weights 0) < cumulativeWeight weights count := by
    apply lt_of_le_of_ne hone
    intro heq
    exact hfirst ⟨count, by rw [heq, Nat.mul_comm]⟩
  have hceil : ∀ k, ¬cumulativeWeight weights count ∣ count * weightCode (weights k) →
      ⌈share weights count k⌉ = ⌊share weights count k⌋ + 1 := by
    intro k hk
    rw [exists_share_eq_iff h] at hk
    rw [Int.ceil_eq_floor_add_one_iff_notMem]
    rintro ⟨n, hn⟩
    exact hk ⟨n, hn.symm⟩
  cases j with
  | zero =>
      right
      rw [copies_first h hout hd hlt, hceil 0 hfirst]
  | succ k =>
      have hbefore := cumulativeWeight_mono weights (show k + 1 ≤ count by omega)
      have hafter := cumulativeWeight_mono weights (show k + 1 + 1 ≤ count from hj)
      rcases Nat.lt_or_eq_of_le hbefore with hbefore | hbefore
      · rcases Nat.lt_or_eq_of_le hafter with hafter | hafter
        · exact copies_inner h hout hd hafter
        · left
          have hweight := cumulativeWeight_succ weights (k + 1)
          rw [copies_last h hout hd hbefore hafter,
            hceil (k + 1) (hlast (k + 1) hj hafter (by omega)), add_sub_cancel_right]
      · exact Or.inl (copies_after h hout hj hbefore)

theorem spreads_of_share_rounds (h : WeightsAdmitted wide weights count)
    (hout : ∀ i < count, LeastReaching weights count d i (out i))
    (hshare : ∀ j < count, (copies out count j : ℤ) = ⌊share weights count j⌋ ∨
      (copies out count j : ℤ) = ⌈share weights count j⌉) : DrawSpreads weights count d := by
  by_cases hd : d.mantissa = 0
  swap
  · exact Or.inl hd
  by_cases hsole : weightCode (weights 0) = cumulativeWeight weights count
  · exact Or.inr (Or.inl hsole)
  have hone := cumulativeWeight_mono weights (show 1 ≤ count from h.count_pos)
  rw [cumulativeWeight_one] at hone
  have hlt := lt_of_le_of_ne hone hsole
  -- a whole share would be missed by one at either end
  have hwhole : ∀ j < count, cumulativeWeight weights count ∣ count * weightCode (weights j) →
      ∃ k : ℤ, (copies out count j : ℤ) = k ∧ share weights count j = k := by
    intro j hj hdvd
    obtain ⟨k, hk⟩ := (exists_share_eq_iff h j).mp hdvd
    refine ⟨k, ?_, hk⟩
    have hj := hshare j hj
    rwa [hk, Int.floor_intCast, Int.ceil_intCast, or_self] at hj
  refine Or.inr (Or.inr ⟨fun hdvd => ?_, fun j hj hfull hpos hdvd => ?_⟩)
  · obtain ⟨k, hcopies, hk⟩ := hwhole 0 h.count_pos hdvd
    have hfirst := copies_first h hout hd hlt
    rw [hk, Int.floor_intCast] at hfirst
    omega
  · obtain ⟨k, hcopies, hk⟩ := hwhole j hj hdvd
    cases j with
    | zero => exact absurd (cumulativeWeight_one weights ▸ hfull) hsole
    | succ j =>
        have hweight := cumulativeWeight_succ weights (j + 1)
        have hlast := copies_last h hout hd (by omega) hfull
        rw [hk, Int.ceil_intCast] at hlast
        omega

theorem copiesShare_iff (h : WeightsAdmitted wide weights count)
    (hout : ∀ i < count, LeastReaching weights count d i (out i)) :
    CopiesShare weights count out ↔ DrawSpreads weights count d := by
  constructor
  · rintro ⟨hshare, -, -⟩
    exact spreads_of_share_rounds h hout hshare
  · intro hspreads
    refine ⟨fun j => share_rounds_of_spreads h hout hspreads,
      sum_copies fun i hi => (hout i hi).lt, fun j hj hzero => ?_⟩
    have hrounds := share_rounds_of_spreads h hout hspreads hj
    rw [share, hzero, Nat.cast_zero, mul_zero, zero_div, Int.floor_zero, Int.ceil_zero,
      or_self] at hrounds
    omega

end Copies

/-- The copies are the rounded shares exactly for the draws that spread. -/
theorem systematic_copies_iff (wide : Bool) (weights : ℕ → Q) (count : ℕ) (d : BinaryDraw)
    (indices : ℕ → ℕ) (capacity : ℕ) (h : WeightsAdmitted wide weights count)
    (hcapacity : count ≤ capacity) :
    ∃ out, resampleIndices weights count (.draw d) (some indices) capacity = .ok out ∧
      (CopiesShare weights count out ↔ DrawSpreads weights count d) := by
  obtain ⟨out, hcall, hleast⟩ := resampleIndices_least h d indices hcapacity
  exact ⟨out, hcall, copiesShare_iff h hleast⟩

/-- A draw of one half. -/
theorem systematic_copies_iff_half :
    ∃ out, resampleIndices (fun _ => (32767 : Int16)) 2 (.draw ⟨1, 1, by decide⟩)
        (some fun _ => 0) 2 = .ok out ∧
      (CopiesShare (fun _ => (32767 : Int16)) 2 out ↔
        DrawSpreads (fun _ => (32767 : Int16)) 2 ⟨1, 1, by decide⟩) :=
  systematic_copies_iff true (fun _ => (32767 : Int16)) 2 ⟨1, 1, by decide⟩ (fun _ => 0) 2
    ⟨by decide, by decide, by decide⟩ le_rfl

/-- Two equal weights and a draw of zero: both copies are of particle zero. -/
theorem systematic_copies_equal_weights :
    ¬∀ out, resampleIndices (fun _ => (32767 : Int16)) 2 (.draw ⟨0, 0, by decide⟩)
        (some fun _ => 0) 2 = .ok out → CopiesShare (fun _ => (32767 : Int16)) 2 out := by
  intro hall
  have hadmitted : WeightsAdmitted true (fun _ => (32767 : Int16)) 2 :=
    ⟨by decide, by decide, by decide⟩
  obtain ⟨out, hcall, hleast⟩ := resampleIndices_least hadmitted ⟨0, 0, by decide⟩ (fun _ => 0)
    le_rfl
  rcases (copiesShare_iff hadmitted hleast).mp (hall out hcall) with hne | hsole | ⟨hfirst, -⟩
  · exact hne rfl
  · exact absurd hsole (by decide)
  · exact hfirst (by decide)

end Xhive.Particles
