import Xhive.Fieldctrl.Turns

/-!
# The accuracy of sine and cosine

The loop turns a vector of the right length by the angle, but for the residual
that is left at the end and for the roundings.  Together they stay below two
units of the result.
-/

namespace Xhive.Fieldctrl

open Xhive.Support Xhive.Linears Complex

/-! ## The loop without overflow -/

/-- The registers of `fcqSincos` before a round. -/
def sincosRound (z : Int64) (n : ℕ) : Rotation :=
  foldRange 0 n ⟨700114967507363239, 0, z⟩ rotate

/-- The same registers as integers of any size. -/
def sincosRoundExact (z : ℤ) (n : ℕ) : IntRotation :=
  foldRange 0 n ⟨700114967507363239, 0, z⟩ rotateExact

theorem sincosRound_norm (z : Int64) {n : ℕ} (hn : n ≤ 32) :
    (sincosRound z n).norm ≤ normBound n := by
  refine foldRange_induction (fun i (v : Rotation) => v.norm ≤ normBound i) (Nat.zero_le n)
    (norm_start z).le ?_
  intro i v _ hi hv
  exact rotate_norm (hi.trans_le hn) hv

theorem sincosRound_small (z : Int64) {n : ℕ} (hn : n ≤ 32) : (sincosRound z n).Small := by
  obtain ⟨hx, hy⟩ := coordinate_le ((sincosRound_norm z hn).trans
    ((normBound_mono hn).trans normBound_last))
  exact ⟨hx.trans_lt (by norm_num), hy.trans_lt (by norm_num)⟩

/-- No register overflows, and the angle left is below the residual. -/
theorem sincosRound_exact {z : Int64} (hz : |z.toInt| ≤ 2 ^ 60) {n : ℕ} (hn : n ≤ 32) :
    (sincosRound z n).toInts = sincosRoundExact z.toInt n ∧
      |(sincosRound z n).z.toInt| ≤ residual n := by
  induction n with
  | zero => exact ⟨rfl, hz.trans residual_zero.1⟩
  | succ n ih =>
      obtain ⟨hexact, hresidual⟩ := ih (Nat.le_of_succ_le hn)
      have hround : |(sincosRound z n).z.toInt| ≤ 2 ^ 62 := by
        refine hresidual.trans ?_
        have hsum : ∀ i ≤ 32, residual i ≤ 2 ^ 62 := by decide +kernel
        exact hsum n (Nat.le_of_succ_le hn)
      have hstep := rotate_toInts hn (sincosRound_small z (Nat.le_of_succ_le hn)) hround
      have hnext : (sincosRound z (n + 1)).toInts = rotateExact n (sincosRound z n).toInts := by
        rw [← hstep]
        exact congrArg Rotation.toInts (foldRange_succ (Nat.zero_le n) _ _)
      constructor
      · rw [hnext, hexact]
        exact (foldRange_succ (Nat.zero_le n) _ _).symm
      · have hangle := abs_sub_turns_le hn hresidual
        have hz' : (sincosRound z (n + 1)).z.toInt =
            (rotateExact n (sincosRound z n).toInts).z := congrArg IntRotation.z hnext
        rw [hz']
        exact hangle

/-! ## The loop in the plane -/

/-- The growth of the vector in the rounds. -/
noncomputable def gain (n : ℕ) : ℝ :=
  ∏ j ∈ Finset.range n, Real.sqrt (1 + (1 / (2 : ℕ) ^ j) ^ 2)

theorem gain_succ (n : ℕ) : gain (n + 1) = gain n * Real.sqrt (1 + (1 / 2 ^ n) ^ 2) := by
  rw [gain, Finset.prod_range_succ, Nat.cast_ofNat]
  rfl

theorem gain_nonneg (n : ℕ) : 0 ≤ gain n :=
  Finset.prod_nonneg fun _ _ => Real.sqrt_nonneg _

/-- The square of the growth, which is rational. -/
def gainSquare (n : ℕ) : ℚ :=
  ∏ j ∈ Finset.range n, (1 + (1 / 2 ^ j) ^ 2)

theorem gain_sq (n : ℕ) : gain n ^ 2 = gainSquare n := by
  rw [gain, gainSquare, ← Finset.prod_pow]
  push_cast
  exact Finset.prod_congr rfl fun j _ => Real.sq_sqrt (by positivity)

/-- The length that the loop starts from grows to one. -/
theorem gainSquare_last :
    (2 ^ 60 - 2 ^ 10 : ℚ) ^ 2 ≤ 700114967507363239 ^ 2 * gainSquare 32 ∧
      700114967507363239 ^ 2 * gainSquare 32 ≤ (2 ^ 60 + 2 ^ 10 : ℚ) ^ 2 := by
  decide +kernel

theorem start_gain : |700114967507363239 * gain 32 - 2 ^ 60| ≤ 2 ^ 10 := by
  obtain ⟨hlow, hhigh⟩ := gainSquare_last
  have hlow' : ((2 : ℝ) ^ 60 - 2 ^ 10) ^ 2 ≤ (700114967507363239 * gain 32) ^ 2 := by
    rw [mul_pow, gain_sq]
    exact_mod_cast hlow
  have hhigh' : (700114967507363239 * gain 32) ^ 2 ≤ ((2 : ℝ) ^ 60 + 2 ^ 10) ^ 2 := by
    rw [mul_pow, gain_sq]
    exact_mod_cast hhigh
  have hnonneg := gain_nonneg 32
  rw [abs_le]
  constructor
  · have := abs_le_of_sq_le_sq' hlow' (by positivity)
    linarith [this.2]
  · have := abs_le_of_sq_le_sq' hhigh' (by positivity)
    linarith [this.2]

/-- After `n` rounds from the angle `z`, the vector is the start turned by what the
angle has lost, but for the roundings. -/
def TurnedBy (z : ℤ) (n : ℕ) (v : IntRotation) : Prop :=
  ∃ ψ : ℝ, ‖v.vec - (700114967507363239 : ℕ) * gain n * exp (ψ * I)‖ ≤ (8 : ℕ) * n ∧
    |ψ - (z - v.z : ℤ) * countAngle| ≤ n / (2 : ℕ) ^ 41

theorem turnedBy_iff {z : ℤ} {n : ℕ} {v : IntRotation} :
    TurnedBy z n v ↔ ∃ ψ : ℝ,
      ‖v.vec - 700114967507363239 * gain n * exp (ψ * I)‖ ≤ 8 * n ∧
        |ψ - (z - v.z : ℤ) * countAngle| ≤ n / 2 ^ 41 := by
  simp only [TurnedBy, Nat.cast_ofNat]

theorem turnedBy_start (z : ℤ) : TurnedBy z 0 ⟨700114967507363239, 0, z⟩ := by
  rw [turnedBy_iff]
  refine ⟨0, ?_, ?_⟩
  · simp [IntRotation.vec, gain]
  · simp

theorem le_four_pow (n : ℕ) : n ≤ 4 ^ n :=
  (Nat.lt_pow_self (by norm_num)).le

theorem TurnedBy.turn {z : ℤ} {n : ℕ} (hn : n < 32) {v : IntRotation} (h : TurnedBy z n v)
    {σ : ℤ} (hσ : σ = 1 ∨ σ = -1) : TurnedBy z (n + 1) (v.turn n σ) := by
  rw [turnedBy_iff] at h ⊢
  obtain ⟨ψ, hvec, hangle⟩ := h
  obtain ⟨e, hturn, he⟩ := vec_turn n hσ v
  refine ⟨ψ + σ * Real.arctan (1 / 2 ^ n), ?_, ?_⟩
  · -- the start turned by one more arctangent
    have hfactor : (700114967507363239 * gain (n + 1) *
        exp ((ψ + σ * Real.arctan (1 / 2 ^ n) : ℝ) * I) : ℂ) =
        700114967507363239 * gain n * exp (ψ * I) * (1 + (σ / 2 ^ n : ℝ) * I) := by
      have hone := one_add_mul_I (σ * (1 / 2 ^ n))
      rw [arctan_sign hσ] at hone
      have hsquare : ((σ : ℝ) * (1 / 2 ^ n)) ^ 2 = (1 / 2 ^ n) ^ 2 := by
        rcases hσ with rfl | rfl <;> simp
      rw [hsquare, mul_one_div] at hone
      rw [hone, gain_succ]
      push_cast
      rw [add_mul, exp_add]
      ring
    rw [hturn, hfactor]
    have hsplit : v.vec * (1 + (σ / 2 ^ n : ℝ) * I) + e -
        700114967507363239 * gain n * exp (ψ * I) * (1 + (σ / 2 ^ n : ℝ) * I) =
        (v.vec - 700114967507363239 * gain n * exp (ψ * I)) * (1 + (σ / 2 ^ n : ℝ) * I) + e := by
      ring
    rw [hsplit]
    have hgrowth := sqrt_growth_le n
    have hfour : (n : ℝ) * (1 / 4 ^ n) ≤ 1 := by
      rw [mul_one_div, div_le_one (by positivity)]
      exact_mod_cast le_four_pow n
    calc ‖(v.vec - 700114967507363239 * gain n * exp (ψ * I)) * (1 + (σ / 2 ^ n : ℝ) * I) + e‖
        ≤ ‖v.vec - 700114967507363239 * gain n * exp (ψ * I)‖ *
            ‖(1 + (σ / 2 ^ n : ℝ) * I : ℂ)‖ + ‖e‖ := by
          rw [← norm_mul]
          exact norm_add_le _ _
      _ ≤ 8 * n * (1 + 1 / (2 * 4 ^ n)) + 2 := by
          rw [norm_turn_factor hσ]
          gcongr
      _ = 8 * n + 4 * (n * (1 / 4 ^ n)) + 2 := by ring
      _ ≤ 8 * (n + 1 : ℕ) := by
          push_cast
          linarith
  · have hclose := turns_close hn
    have hz : (z - (v.turn n σ).z : ℤ) = z - v.z + σ * turns n := by
      rw [IntRotation.turn]
      ring
    have hsplit : ψ + σ * Real.arctan (1 / 2 ^ n) - ((z - v.z + σ * turns n : ℤ) : ℝ) * countAngle =
        (ψ - (z - v.z : ℤ) * countAngle) -
          σ * (turns n * countAngle - Real.arctan (1 / 2 ^ n)) := by
      push_cast
      ring
    have hσ' : |(σ : ℝ)| = 1 := by
      rcases hσ with rfl | rfl <;> norm_num
    rw [hz, hsplit]
    calc |(ψ - (z - v.z : ℤ) * countAngle) -
          σ * (turns n * countAngle - Real.arctan (1 / 2 ^ n))|
        ≤ |ψ - (z - v.z : ℤ) * countAngle| +
          |σ * (turns n * countAngle - Real.arctan (1 / 2 ^ n))| := abs_sub _ _
      _ ≤ n / 2 ^ 41 + 1 / 2 ^ 41 := by
          rw [abs_mul, hσ', one_mul]
          gcongr
      _ = (n + 1 : ℕ) / 2 ^ 41 := by
          push_cast
          ring

theorem sincosRoundExact_turned (z : ℤ) {n : ℕ} (hn : n ≤ 32) :
    TurnedBy z n (sincosRoundExact z n) := by
  refine foldRange_induction (fun i v => TurnedBy z i v) (Nat.zero_le n) (turnedBy_start z) ?_
  intro i v _ hi hv
  refine hv.turn (hi.trans_le hn) ?_
  split
  · exact .inl rfl
  · exact .inr rfl

/-- The residual angle is below one unit of the result, and the roundings are small
beside it. -/
theorem sincosRoundExact_close {z : ℤ} (hz : |(sincosRoundExact z 32).z| ≤ turns 31) :
    ‖(sincosRoundExact z 32).vec - 2 ^ 60 * exp ((z * countAngle : ℝ) * I)‖ ≤ 5 * 2 ^ 27 := by
  obtain ⟨ψ, hvec, hangle⟩ := turnedBy_iff.mp (sincosRoundExact_turned z (le_refl 32))
  set v := sincosRoundExact z 32
  have hlength : ‖(700114967507363239 * gain 32 * exp (ψ * I) - 2 ^ 60 * exp (ψ * I) : ℂ)‖ ≤
      2 ^ 10 := by
    rw [← sub_mul, norm_mul, norm_exp_ofReal_mul_I, mul_one]
    have hreal : (700114967507363239 * gain 32 - 2 ^ 60 : ℂ) =
        ((700114967507363239 * gain 32 - 2 ^ 60 : ℝ) : ℂ) := by push_cast; rfl
    rw [hreal, norm_real]
    exact start_gain
  have hresidual : |(v.z : ℝ) * countAngle| ≤ (101 / 100) / 2 ^ 31 := by
    have hcast : |(v.z : ℝ)| ≤ 341782638 := by
      have hlast : turns 31 = 341782638 := by decide
      rw [hlast] at hz
      exact_mod_cast hz
    have hpi := Real.pi_lt_d2
    rw [abs_mul, abs_of_pos countAngle_pos]
    calc |(v.z : ℝ)| * countAngle ≤ 341782638 * (2 * (63 / 20) / 2 ^ 62) := by
          rw [countAngle_eq]
          gcongr
          norm_num at hpi ⊢
          exact hpi.le
      _ ≤ (101 / 100) / 2 ^ 31 := by norm_num
  have hdirection : |ψ - z * countAngle| ≤ (101 / 100) / 2 ^ 31 + 32 / 2 ^ 41 := by
    have hsplit : ψ - z * countAngle = (ψ - (z - v.z : ℤ) * countAngle) - v.z * countAngle := by
      push_cast
      ring
    rw [hsplit]
    refine (abs_sub _ _).trans ?_
    have hangle' : |ψ - (z - v.z : ℤ) * countAngle| ≤ 32 / 2 ^ 41 := by exact_mod_cast hangle
    linarith
  have hturned : ‖(2 ^ 60 * exp (ψ * I) - 2 ^ 60 * exp ((z * countAngle : ℝ) * I) : ℂ)‖ ≤
      2 ^ 60 * ((101 / 100) / 2 ^ 31 + 32 / 2 ^ 41) := by
    rw [← mul_sub, norm_mul, norm_pow, norm_ofNat]
    gcongr
    exact (norm_exp_sub_exp_le _ _).trans hdirection
  calc ‖v.vec - 2 ^ 60 * exp ((z * countAngle : ℝ) * I)‖
      = ‖(v.vec - 700114967507363239 * gain 32 * exp (ψ * I)) +
          ((700114967507363239 * gain 32 * exp (ψ * I) - 2 ^ 60 * exp (ψ * I)) +
            (2 ^ 60 * exp (ψ * I) - 2 ^ 60 * exp ((z * countAngle : ℝ) * I)))‖ := by
        congr 1
        ring
    _ ≤ 8 * (32 : ℕ) + (2 ^ 10 + 2 ^ 60 * ((101 / 100) / 2 ^ 31 + 32 / 2 ^ 41)) :=
        (norm_add_le _ _).trans (add_le_add hvec
          ((norm_add_le _ _).trans (add_le_add hlength hturned)))
    _ ≤ 5 * 2 ^ 27 := by norm_num

theorem abs_parts_le {p q c : ℝ} (h : ‖(p : ℂ) + q * I‖ ≤ c) : |p| ≤ c ∧ |q| ≤ c := by
  constructor
  · simpa using (abs_re_le_norm ((p : ℂ) + q * I)).trans h
  · simpa using (abs_im_le_norm ((p : ℂ) + q * I)).trans h

theorem coordinates_close {z : ℤ} (hz : |(sincosRoundExact z 32).z| ≤ turns 31) :
    |((sincosRoundExact z 32).x : ℝ) - 2 ^ 60 * Real.cos (z * countAngle)| ≤ 5 * 2 ^ 27 ∧
      |((sincosRoundExact z 32).y : ℝ) - 2 ^ 60 * Real.sin (z * countAngle)| ≤ 5 * 2 ^ 27 := by
  have hclose := sincosRoundExact_close hz
  set v := sincosRoundExact z 32
  have hparts : v.vec - 2 ^ 60 * exp ((z * countAngle : ℝ) * I) =
      ((v.x - 2 ^ 60 * Real.cos (z * countAngle) : ℝ) : ℂ) +
        ((v.y - 2 ^ 60 * Real.sin (z * countAngle) : ℝ) : ℂ) * I := by
    rw [exp_mul_I, ← ofReal_cos, ← ofReal_sin, IntRotation.vec]
    push_cast
    ring
  rw [hparts] at hclose
  exact abs_parts_le hclose

/-! ## The quadrants -/

/-- The angle within a quarter turn that the loop starts from, and the sign of the
vector it turns. -/
def sincosFold (a : Int64) : Int64 × Int64 :=
  let turn : Int64 := 4611686018427387904
  let quarter : Int64 := 1152921504606846976
  let z := fcqWrap a * fixedOne
  let z := if z ≥ 2 * quarter then z - turn else z
  if z > quarter then (z - 2 * quarter, -1)
  else if z < -quarter then (z + 2 * quarter, -1)
  else (z, 1)

/-- The same for an angle in integers of any size. -/
def foldAngle (z : ℤ) : ℤ × ℤ :=
  let z := if 2 ^ 61 ≤ z then z - 2 ^ 62 else z
  if 2 ^ 60 < z then (z - 2 ^ 61, -1)
  else if z < -2 ^ 60 then (z + 2 ^ 61, -1)
  else (z, 1)

/-- The angle in counts. -/
def angleCounts (a : Int64) : ℤ :=
  (fcqWrap a).toInt * 2 ^ 31

theorem toInt_angleCounts (a : Int64) : (fcqWrap a * fixedOne).toInt = angleCounts a := by
  obtain ⟨hlow, hhigh⟩ := fcqWrap_range a
  rw [toInt_mul_of_fits, toInt_fixedOne]
  · rfl
  · rw [toInt_fixedOne]
    constructor <;> omega

theorem angleCounts_range (a : Int64) : 0 ≤ angleCounts a ∧ angleCounts a < 2 ^ 62 := by
  obtain ⟨hlow, hhigh⟩ := fcqWrap_range a
  rw [angleCounts]
  constructor <;> omega

/-- Wrapping takes off whole turns. -/
theorem fcqWrap_congr (a : Int64) : ∃ m : ℤ, a.toInt = (fcqWrap a).toInt + m * 2 ^ 31 := by
  have hrest : (a % fixedOne).toInt = a.toInt.tmod (2 ^ 31) := by
    rw [Int64.toInt_mod, toInt_fixedOne]
  have hsplit := Int.tmod_add_mul_tdiv a.toInt (2 ^ 31)
  have hlow := Int.lt_tmod_of_pos a.toInt (show (0 : ℤ) < 2 ^ 31 by norm_num)
  have hhigh := Int.tmod_lt_of_pos a.toInt (show (0 : ℤ) < 2 ^ 31 by norm_num)
  rw [fcqWrap]
  split
  · have hsum : (a % fixedOne + fixedOne).toInt = (a % fixedOne).toInt + 2 ^ 31 := by
      rw [toInt_add_of_fits, toInt_fixedOne]
      rw [toInt_fixedOne, hrest]
      constructor <;> omega
    refine ⟨a.toInt.tdiv (2 ^ 31) - 1, ?_⟩
    rw [hsum, hrest]
    linarith
  · refine ⟨a.toInt.tdiv (2 ^ 31), ?_⟩
    rw [hrest]
    linarith

theorem sincosFold_toInt (a : Int64) :
    ((sincosFold a).1.toInt, (sincosFold a).2.toInt) = foldAngle (angleCounts a) := by
  obtain ⟨hlow, hhigh⟩ := angleCounts_range a
  have hz := toInt_angleCounts a
  rw [← hz] at hlow hhigh ⊢
  rw [sincosFold]
  generalize fcqWrap a * fixedOne = z at *
  -- the quarters and the turn
  have hquarter : (1152921504606846976 : Int64).toInt = 2 ^ 60 := rfl
  have hhalf : (2 * 1152921504606846976 : Int64).toInt = 2 ^ 61 := by decide
  have hturn : (4611686018427387904 : Int64).toInt = 2 ^ 62 := rfl
  have hback : (-1152921504606846976 : Int64).toInt = -2 ^ 60 := by decide
  have hsecond : z ≥ 2 * 1152921504606846976 ↔ 2 ^ 61 ≤ z.toInt := by
    rw [ge_iff_le, Int64.le_iff_toInt_le, hhalf]
  have hcentred : (if z ≥ 2 * 1152921504606846976 then z - 4611686018427387904 else z).toInt =
      if 2 ^ 61 ≤ z.toInt then z.toInt - 2 ^ 62 else z.toInt := by
    simp only [hsecond]
    split
    · rw [toInt_sub_of_fits, hturn]
      rw [hturn]
      constructor <;> omega
    · rfl
  rw [foldAngle, ← hcentred]
  have hrange : -2 ^ 61 ≤ (if z ≥ 2 * 1152921504606846976 then z - 4611686018427387904
      else z).toInt ∧ (if z ≥ 2 * 1152921504606846976 then z - 4611686018427387904
      else z).toInt < 2 ^ 61 := by
    rw [hcentred]
    split <;> constructor <;> omega
  generalize (if z ≥ 2 * 1152921504606846976 then z - 4611686018427387904 else z) = c at *
  have hpast : c > 1152921504606846976 ↔ 2 ^ 60 < c.toInt := by
    rw [gt_iff_lt, Int64.lt_iff_toInt_lt, hquarter]
  have hbefore : c < -1152921504606846976 ↔ c.toInt < -2 ^ 60 := by
    rw [Int64.lt_iff_toInt_lt, hback]
  simp only [hpast, hbefore]
  split_ifs
  · rw [toInt_sub_of_fits, hhalf]
    · rfl
    · rw [hhalf]
      constructor <;> omega
  · rw [toInt_add_of_fits, hhalf]
    · rfl
    · rw [hhalf]
      constructor <;> omega
  · rfl

/-- Half a turn and a turn, in radians. -/
theorem counts_half (z : ℤ) :
    ((z - 2 ^ 61 : ℤ) : ℝ) * countAngle = z * countAngle - Real.pi ∧
      ((z + 2 ^ 61 : ℤ) : ℝ) * countAngle = z * countAngle + Real.pi ∧
      ((z - 2 ^ 62 : ℤ) : ℝ) * countAngle = z * countAngle - 2 * Real.pi := by
  rw [countAngle_eq]
  refine ⟨?_, ?_, ?_⟩ <;> push_cast <;> ring

/-- The folded angle lies within a quarter turn, and with the sign it has the sine and
the cosine of the whole angle. -/
theorem foldAngle_spec {z : ℤ} (hlow : 0 ≤ z) (hhigh : z < 2 ^ 62) :
    |(foldAngle z).1| ≤ 2 ^ 60 ∧ ((foldAngle z).2 = 1 ∨ (foldAngle z).2 = -1) ∧
      Real.sin (z * countAngle) = (foldAngle z).2 * Real.sin ((foldAngle z).1 * countAngle) ∧
      Real.cos (z * countAngle) = (foldAngle z).2 * Real.cos ((foldAngle z).1 * countAngle) := by
  -- the angle within half a turn
  have hcentred : ∃ c : ℤ, (if 2 ^ 61 ≤ z then z - 2 ^ 62 else z) = c ∧ -2 ^ 61 ≤ c ∧ c < 2 ^ 61 ∧
      Real.sin (z * countAngle) = Real.sin (c * countAngle) ∧
      Real.cos (z * countAngle) = Real.cos (c * countAngle) := by
    by_cases hz : 2 ^ 61 ≤ z
    · refine ⟨z - 2 ^ 62, if_pos hz, by omega, by omega, ?_, ?_⟩
      · rw [(counts_half z).2.2, Real.sin_sub_two_pi]
      · rw [(counts_half z).2.2, Real.cos_sub_two_pi]
    · exact ⟨z, if_neg hz, by omega, by omega, rfl, rfl⟩
  obtain ⟨c, hc, hclow, hchigh, hsin, hcos⟩ := hcentred
  obtain ⟨hsub, hadd, -⟩ := counts_half c
  rw [hsin, hcos, foldAngle, hc]
  split_ifs
  · refine ⟨abs_le.mpr ⟨by omega, by omega⟩, .inr rfl, ?_, ?_⟩
    · rw [hsub, Real.sin_sub_pi, Int.cast_neg, Int.cast_one, neg_one_mul, neg_neg]
    · rw [hsub, Real.cos_sub_pi, Int.cast_neg, Int.cast_one, neg_one_mul, neg_neg]
  · refine ⟨abs_le.mpr ⟨by omega, by omega⟩, .inr rfl, ?_, ?_⟩
    · rw [hadd, Real.sin_add_pi, Int.cast_neg, Int.cast_one, neg_one_mul, neg_neg]
    · rw [hadd, Real.cos_add_pi, Int.cast_neg, Int.cast_one, neg_one_mul, neg_neg]
  · exact ⟨abs_le.mpr ⟨by omega, by omega⟩, .inl rfl, by simp, by simp⟩

/-- The angle of the argument differs from the wrapped one by whole turns. -/
theorem angle_eq (a : Int64) :
    Real.sin (2 * Real.pi * a.toInt / 2 ^ 31) = Real.sin (angleCounts a * countAngle) ∧
      Real.cos (2 * Real.pi * a.toInt / 2 ^ 31) = Real.cos (angleCounts a * countAngle) := by
  obtain ⟨m, hm⟩ := fcqWrap_congr a
  have hangle : 2 * Real.pi * a.toInt / 2 ^ 31 =
      angleCounts a * countAngle + m * (2 * Real.pi) := by
    rw [hm, angleCounts, countAngle_eq]
    push_cast
    ring
  rw [hangle, Real.sin_add_int_mul_two_pi, Real.cos_add_int_mul_two_pi]
  exact ⟨rfl, rfl⟩

/-! ## The values -/

/-- Sine and cosine of an angle in counts, in integers of any size. -/
def sincosValue (z : ℤ) : ℤ × ℤ :=
  if z = 0 ∨ z = 2 ^ 60 ∨ z = 2 * 2 ^ 60 ∨ z = 3 * 2 ^ 60 then
    (if z = 2 ^ 60 then 2 ^ 31 else if z = 3 * 2 ^ 60 then -2 ^ 31 else 0,
      if z = 0 then 2 ^ 31 else if z = 2 * 2 ^ 60 then -2 ^ 31 else 0)
  else
    let fold := foldAngle z
    let v := sincosRoundExact fold.1 32
    (roundAway ((fold.2 * v.y : ℤ) / 2 ^ 29 : ℚ), roundAway ((fold.2 * v.x : ℤ) / 2 ^ 29 : ℚ))

theorem sincosFold_spec (a : Int64) :
    |(sincosFold a).1.toInt| ≤ 2 ^ 60 ∧ ((sincosFold a).2 = 1 ∨ (sincosFold a).2 = -1) := by
  obtain ⟨hlow, hhigh⟩ := angleCounts_range a
  obtain ⟨habs, hsign, -, -⟩ := foldAngle_spec hlow hhigh
  have hfold := sincosFold_toInt a
  generalize foldAngle (angleCounts a) = fold at *
  obtain ⟨angle, sign⟩ := fold
  obtain ⟨hangle, hsigned⟩ := Prod.mk.inj hfold
  rw [hangle]
  refine ⟨habs, hsign.imp (fun h => Int64.toInt_inj.mp ?_) fun h => Int64.toInt_inj.mp ?_⟩
  · exact hsigned.trans h
  · exact hsigned.trans h

theorem toInt_signed {sign x : Int64} (hsign : sign = 1 ∨ sign = -1) (hx : |x.toInt| < 2 ^ 62) :
    (sign * x).toInt = sign.toInt * x.toInt := by
  obtain ⟨hlow, hhigh⟩ := abs_lt.mp hx
  rw [toInt_mul_of_fits]
  rcases hsign with rfl | rfl
  · rw [show (1 : Int64).toInt = 1 from rfl]
    constructor <;> omega
  · rw [show (-1 : Int64).toInt = -1 from rfl]
    constructor <;> omega

/-- No step of `fcqSincos` overflows. -/
structure SincosExact (a : Int64) : Prop where
  wrapped : (fcqWrap a).toInt = a.toInt % 2 ^ 31
  scaled : (fcqWrap a * fixedOne).toInt = (fcqWrap a).toInt * 2 ^ 31
  folded : ((sincosFold a).1.toInt, (sincosFold a).2.toInt) = foldAngle (angleCounts a)
  rounds : ∀ n ≤ 32, (sincosRound (sincosFold a).1 n).toInts =
    sincosRoundExact (sincosFold a).1.toInt n
  signed : ∀ x : Int64, x = (sincosRound (sincosFold a).1 32).x ∨
    x = (sincosRound (sincosFold a).1 32).y →
      ((sincosFold a).2 * x).toInt = (sincosFold a).2.toInt * x.toInt

theorem sincosExact (a : Int64) : SincosExact a := by
  obtain ⟨hfold, hsign⟩ := sincosFold_spec a
  have hsmall := sincosRound_small (sincosFold a).1 (le_refl 32)
  have hwrapped : (fcqWrap a).toInt = a.toInt % 2 ^ 31 := by
    obtain ⟨m, hm⟩ := fcqWrap_congr a
    have hrange := fcqWrap_range a
    omega
  refine ⟨hwrapped, toInt_angleCounts a, sincosFold_toInt a,
    fun n hn => (sincosRound_exact hfold hn).1, ?_⟩
  generalize sincosRound (sincosFold a).1 32 = v at hsmall ⊢
  rintro x (rfl | rfl)
  · exact toInt_signed hsign hsmall.1
  · exact toInt_signed hsign hsmall.2

theorem fcqSincos_eq (a : Int64) :
    fcqSincos a =
      if fcqWrap a * fixedOne = 0 ∨ fcqWrap a * fixedOne = 1152921504606846976 ∨
          fcqWrap a * fixedOne = 2 * 1152921504606846976 ∨
          fcqWrap a * fixedOne = 3 * 1152921504606846976 then
        .ok (if fcqWrap a * fixedOne = 1152921504606846976 then fixedOne
            else if fcqWrap a * fixedOne = 3 * 1152921504606846976 then -fixedOne else 0,
          if fcqWrap a * fixedOne = 0 then fixedOne
            else if fcqWrap a * fixedOne = 2 * 1152921504606846976 then -fixedOne else 0)
      else (do
        let s ← checked (linearsFixedMuldiv
          ((sincosFold a).2 * (sincosRound (sincosFold a).1 32).y) 1 536870912 (some 0))
        let c ← checked (linearsFixedMuldiv
          ((sincosFold a).2 * (sincosRound (sincosFold a).1 32).x) 1 536870912 (some 0))
        .ok (s, c)) :=
  rfl

/-- The value that a coordinate is stored as. -/
theorem checked_coordinate_value {sign x : Int64} (hsign : sign = 1 ∨ sign = -1)
    (hx : |x.toInt| ≤ 2 ^ 60 + 2 ^ 27) :
    ∃ c : Int64, checked (linearsFixedMuldiv (sign * x) 1 536870912 (some 0)) = .ok c ∧
      c.toInt = roundAway ((sign.toInt * x.toInt : ℤ) / 2 ^ 29 : ℚ) := by
  obtain ⟨c, hc, -⟩ := checked_coordinate hsign hx
  refine ⟨c, hc, ?_⟩
  rw [checked_muldiv _ _ (by decide)] at hc
  rw [fixedResult_eq_ok hc, toInt_signed hsign (hx.trans_lt (by norm_num)),
    show (1 : Int64).toInt = 1 from rfl, show (536870912 : Int64).toInt = 2 ^ 29 from rfl]
  norm_num

/-- `fcqSincos` computes the values of the angle in counts. -/
theorem fcqSincos_value (a : Int64) :
    ∃ s c : Int64, fcqSincos a = .ok (s, c) ∧
      (s.toInt, c.toInt) = sincosValue (angleCounts a) := by
  have hz := toInt_angleCounts a
  have haxis : ∀ {k : Int64}, fcqWrap a * fixedOne = k ↔ angleCounts a = k.toInt := by
    intro k
    rw [← hz, Int64.toInt_inj]
  have hquarter : (1152921504606846976 : Int64).toInt = 2 ^ 60 := rfl
  have hhalf : (2 * 1152921504606846976 : Int64).toInt = 2 * 2 ^ 60 := by decide
  have hthird : (3 * 1152921504606846976 : Int64).toInt = 3 * 2 ^ 60 := by decide
  rw [fcqSincos_eq]
  simp only [haxis, hquarter, hhalf, hthird, Int64.toInt_zero]
  rw [sincosValue]
  by_cases hz : angleCounts a = 0 ∨ angleCounts a = 2 ^ 60 ∨ angleCounts a = 2 * 2 ^ 60 ∨
      angleCounts a = 3 * 2 ^ 60
  · rw [if_pos hz, if_pos hz]
    refine ⟨_, _, rfl, ?_⟩
    split_ifs <;> rfl
  · rw [if_neg hz, if_neg hz]
    obtain ⟨hfold, hsign⟩ := sincosFold_spec a
    have hnorm : (sincosRound (sincosFold a).1 32).norm ≤ (2 ^ 60 + 2 ^ 27) ^ 2 :=
      rotation_norm (sincosFold a).1
    have hexact := (sincosRound_exact hfold (le_refl 32)).1
    have hangle := sincosFold_toInt a
    generalize sincosRound (sincosFold a).1 32 = v at hnorm hexact ⊢
    generalize sincosFold a = fold at hsign hexact hangle ⊢
    obtain ⟨hx, hy⟩ := coordinate_le hnorm
    obtain ⟨s, hs, hsvalue⟩ := checked_coordinate_value hsign hy
    obtain ⟨c, hc, hcvalue⟩ := checked_coordinate_value hsign hx
    refine ⟨s, c, ?_, ?_⟩
    · rw [hs, ok_bind, hc, ok_bind]
    · rw [← hangle]
      dsimp only
      rw [← hexact, hsvalue, hcvalue]
      rfl

/-- Half a turn folds onto the same angle with the other sign. -/
theorem foldAngle_half {z : ℤ} (hlow : 0 < z) (hhigh : z < 2 ^ 61) (hz : z ≠ 2 ^ 60) :
    foldAngle (z + 2 ^ 61) = ((foldAngle z).1, -(foldAngle z).2) := by
  have hopposite : (if 2 ^ 61 ≤ z + 2 ^ 61 then z + 2 ^ 61 - 2 ^ 62 else z + 2 ^ 61) =
      z - 2 ^ 61 := by
    rw [if_pos (by omega)]
    ring
  have hsame : (if 2 ^ 61 ≤ z then z - 2 ^ 62 else z) = z := if_neg (by omega)
  rw [foldAngle, foldAngle, hopposite, hsame]
  rcases lt_or_gt_of_ne hz with hless | hmore
  · rw [if_neg (by omega), if_pos (by omega), if_neg (by omega), if_neg (by omega)]
    exact Prod.ext (sub_add_cancel z _) rfl
  · rw [if_neg (by omega), if_neg (by omega), if_pos hmore]
    exact Prod.ext rfl rfl

/-- The values of the opposite angle are the opposite ones. -/
theorem sincosValue_half {z : ℤ} (hlow : 0 ≤ z) (hhigh : z < 2 ^ 61) :
    sincosValue (z + 2 ^ 61) = (-(sincosValue z).1, -(sincosValue z).2) := by
  by_cases hzero : z = 0
  · subst hzero
    norm_num [sincosValue]
  · by_cases hquarter : z = 2 ^ 60
    · subst hquarter
      norm_num [sincosValue]
    · have haxis : ¬(z = 0 ∨ z = 2 ^ 60 ∨ z = 2 * 2 ^ 60 ∨ z = 3 * 2 ^ 60) := by omega
      have hopposite : ¬(z + 2 ^ 61 = 0 ∨ z + 2 ^ 61 = 2 ^ 60 ∨ z + 2 ^ 61 = 2 * 2 ^ 60 ∨
          z + 2 ^ 61 = 3 * 2 ^ 60) := by omega
      rw [sincosValue, if_neg hopposite, sincosValue, if_neg haxis,
        foldAngle_half (by omega) hhigh hquarter]
      dsimp only
      rw [neg_mul, neg_mul, Int.cast_neg, Int.cast_neg, neg_div, neg_div, roundAway_neg,
        roundAway_neg]

/-- A coordinate is stored within half a unit. -/
theorem stored_close {σ x : ℤ} (hσ : σ = 1 ∨ σ = -1) {t : ℝ}
    (hx : |(x : ℝ) - 2 ^ 60 * t| ≤ 5 * 2 ^ 27) :
    |(roundAway ((σ * x : ℤ) / 2 ^ 29 : ℚ) : ℝ) - 2 ^ 31 * (σ * t)| < 2 := by
  have hround := abs_sub_roundAway_le ((σ * x : ℤ) / 2 ^ 29 : ℚ)
  have hround' : |((σ * x : ℤ) : ℝ) / 2 ^ 29 - (roundAway ((σ * x : ℤ) / 2 ^ 29 : ℚ) : ℤ)| ≤
      1 / 2 := by
    have hcast := (Rat.cast_le (K := ℝ)).mpr hround
    push_cast at hcast ⊢
    exact hcast
  have hσ' : |(σ : ℝ)| = 1 := by
    rcases hσ with rfl | rfl <;> norm_num
  have hscaled : |((σ * x : ℤ) : ℝ) / 2 ^ 29 - 2 ^ 31 * (σ * t)| ≤ 5 / 4 := by
    have hsplit : ((σ * x : ℤ) : ℝ) / 2 ^ 29 - 2 ^ 31 * (σ * t) =
        σ * ((x - 2 ^ 60 * t) / 2 ^ 29) := by
      push_cast
      ring
    rw [hsplit, abs_mul, hσ', one_mul, abs_div, abs_of_pos (by positivity : (0 : ℝ) < 2 ^ 29),
      div_le_iff₀ (by positivity)]
    exact hx.trans (by norm_num)
  have htriangle := abs_sub_le (roundAway ((σ * x : ℤ) / 2 ^ 29 : ℚ) : ℝ)
    (((σ * x : ℤ) : ℝ) / 2 ^ 29) (2 ^ 31 * (σ * t))
  rw [abs_sub_comm] at hround'
  linarith

/-- The residual of the loop that the values come from. -/
theorem sincosRoundExact_residual {z : ℤ} (hz : |z| ≤ 2 ^ 60) :
    |(sincosRoundExact z 32).z| ≤ turns 31 := by
  rw [← residual_last]
  refine foldRange_induction (fun i (v : IntRotation) => |v.z| ≤ residual i) (Nat.zero_le 32)
    (hz.trans residual_zero.1) ?_
  intro i v _ hi hv
  exact abs_sub_turns_le hi hv

/-- On an axis the values are exact. -/
theorem sincosValue_axis {z : ℤ} (hz : z = 0 ∨ z = 2 ^ 60 ∨ z = 2 * 2 ^ 60 ∨ z = 3 * 2 ^ 60) :
    ((sincosValue z).1 : ℝ) = 2 ^ 31 * Real.sin (z * countAngle) ∧
      ((sincosValue z).2 : ℝ) = 2 ^ 31 * Real.cos (z * countAngle) := by
  have hquarter : ∀ k : ℕ, ((k * 2 ^ 60 : ℤ) : ℝ) * countAngle = k * (Real.pi / 2) := by
    intro k
    rw [countAngle_eq]
    push_cast
    ring
  rcases hz with rfl | rfl | rfl | rfl
  · norm_num [sincosValue]
  · have hangle := hquarter 1
    rw [Nat.cast_one, Nat.cast_one, one_mul, one_mul] at hangle
    rw [hangle, Real.sin_pi_div_two, Real.cos_pi_div_two]
    norm_num [sincosValue]
  · have hangle := hquarter 2
    have hpi : ((2 : ℕ) : ℝ) * (Real.pi / 2) = Real.pi := by
      push_cast
      ring
    rw [hpi] at hangle
    rw [show (2 * 2 ^ 60 : ℤ) = ((2 : ℕ) : ℤ) * 2 ^ 60 from rfl, hangle, Real.sin_pi,
      Real.cos_pi]
    norm_num [sincosValue]
  · have hangle := hquarter 3
    have hpi : ((3 : ℕ) : ℝ) * (Real.pi / 2) = Real.pi / 2 + Real.pi := by
      push_cast
      ring
    rw [hpi] at hangle
    rw [show (3 * 2 ^ 60 : ℤ) = ((3 : ℕ) : ℤ) * 2 ^ 60 from rfl, hangle, Real.sin_add_pi,
      Real.cos_add_pi, Real.sin_pi_div_two, Real.cos_pi_div_two]
    norm_num [sincosValue]

/-- The values are within two units. -/
theorem sincosValue_close {z : ℤ} (hlow : 0 ≤ z) (hhigh : z < 2 ^ 62) :
    |((sincosValue z).1 : ℝ) - 2 ^ 31 * Real.sin (z * countAngle)| < 2 ∧
      |((sincosValue z).2 : ℝ) - 2 ^ 31 * Real.cos (z * countAngle)| < 2 := by
  by_cases haxis : z = 0 ∨ z = 2 ^ 60 ∨ z = 2 * 2 ^ 60 ∨ z = 3 * 2 ^ 60
  · obtain ⟨hsin, hcos⟩ := sincosValue_axis haxis
    rw [hsin, hcos, sub_self, sub_self, abs_zero]
    norm_num
  · obtain ⟨hfold, hsign, hsin, hcos⟩ := foldAngle_spec hlow hhigh
    obtain ⟨hx, hy⟩ := coordinates_close (sincosRoundExact_residual hfold)
    rw [sincosValue, if_neg haxis, hsin, hcos]
    exact ⟨stored_close hsign hy, stored_close hsign hx⟩

/-! ## Sine and cosine -/

theorem toInt_neg_value {s : Int64} (hs : |s.toInt| ≤ 2 ^ 31) : (-s).toInt = -s.toInt := by
  obtain ⟨hlow, hhigh⟩ := abs_le.mp hs
  apply toInt_neg_of_fits
  constructor <;> omega

/-- The wrapped angle of an angle that is further by `d`. -/
theorem angleCounts_add {a b : Int64} {d : ℤ} (hb : b.toInt = a.toInt + d) :
    ∃ m : ℤ, angleCounts b = angleCounts a + d * 2 ^ 31 + m * 2 ^ 62 := by
  obtain ⟨m, hm⟩ := fcqWrap_congr a
  obtain ⟨n, hn⟩ := fcqWrap_congr b
  refine ⟨m - n, ?_⟩
  rw [angleCounts, angleCounts]
  linarith

/-- Sine and cosine of every angle: no step overflows, the results lie in `[-1, 1]` and
are within two units, the angle left over by the rounds is at most the last entry of the
table, and the results repeat after a turn and change sign after half a turn. -/
theorem fcqSincos_accurate (a : Int64) :
    ∃ s c : Int64, fcqSincos a = .ok (s, c) ∧ SincosExact a ∧
      (-2 ^ 31 ≤ s.toInt ∧ s.toInt ≤ 2 ^ 31) ∧ (-2 ^ 31 ≤ c.toInt ∧ c.toInt ≤ 2 ^ 31) ∧
      |(s.toInt : ℝ) - 2 ^ 31 * Real.sin (2 * Real.pi * a.toInt / 2 ^ 31)| < 2 ∧
      |(c.toInt : ℝ) - 2 ^ 31 * Real.cos (2 * Real.pi * a.toInt / 2 ^ 31)| < 2 ∧
      |(sincosRound (sincosFold a).1 32).z.toInt| ≤ (fcAtanTurns.getD 31 0).toInt ∧
      (∀ b : Int64, b.toInt = a.toInt + 2 ^ 31 → fcqSincos b = .ok (s, c)) ∧
      ∀ b : Int64, b.toInt = a.toInt + 2 ^ 30 → fcqSincos b = .ok (-s, -c) := by
  obtain ⟨s, c, hok, hvalue⟩ := fcqSincos_value a
  obtain ⟨s', c', hok', hs, hc⟩ := fcqSincos_ok a
  obtain ⟨rfl, rfl⟩ := Prod.mk.inj (Except.ok.inj (hok.symm.trans hok'))
  obtain ⟨hlow, hhigh⟩ := angleCounts_range a
  obtain ⟨hsin, hcos⟩ := sincosValue_close hlow hhigh
  obtain ⟨hsineq, hcoseq⟩ := angle_eq a
  obtain ⟨hfold, -⟩ := sincosFold_spec a
  have hlast := (sincosRound_exact hfold (le_refl 32)).2
  rw [residual_last] at hlast
  rw [← hvalue] at hsin hcos
  refine ⟨s, c, hok, sincosExact a, abs_le.mp hs, abs_le.mp hc, hsineq ▸ hsin, hcoseq ▸ hcos,
    hlast, fun b hb => ?_, fun b hb => ?_⟩
  · obtain ⟨s', c', hok', hvalue'⟩ := fcqSincos_value b
    have hcounts : angleCounts b = angleCounts a := by
      obtain ⟨m, hm⟩ := angleCounts_add hb
      have hrange := angleCounts_range b
      omega
    rw [hcounts, ← hvalue] at hvalue'
    obtain ⟨hs', hc'⟩ := Prod.mk.inj hvalue'
    rw [hok', Int64.toInt_inj.mp hs', Int64.toInt_inj.mp hc']
  · obtain ⟨s', c', hok', hvalue'⟩ := fcqSincos_value b
    have hopposite : sincosValue (angleCounts b) =
        (-(sincosValue (angleCounts a)).1, -(sincosValue (angleCounts a)).2) := by
      obtain ⟨m, hm⟩ := angleCounts_add hb
      have hrange := angleCounts_range b
      rcases lt_or_ge (angleCounts a) (2 ^ 61) with hfirst | hsecond
      · rw [← sincosValue_half hlow hfirst]
        congr 1
        omega
      · have hback : angleCounts a = angleCounts b + 2 ^ 61 := by omega
        rw [hback, sincosValue_half hrange.1 (by omega), neg_neg, neg_neg]
    rw [hopposite, ← hvalue] at hvalue'
    obtain ⟨hs', hc'⟩ := Prod.mk.inj hvalue'
    rw [← toInt_neg_value hs] at hs'
    rw [← toInt_neg_value hc] at hc'
    rw [hok', Int64.toInt_inj.mp hs', Int64.toInt_inj.mp hc']

end Xhive.Fieldctrl
