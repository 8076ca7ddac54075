import Xhive.Fieldctrl.SincosAccuracy

/-!
# The accuracy of the angle of a vector

The loop turns the vector toward the axis and adds up what it turns by.  The
direction that is left at the end, the rounded quotients it starts from and the
roundings stay together below one unit of the result.
-/

namespace Xhive.Fieldctrl

open Xhive.Support Xhive.Linears Complex

/-! ## One round in the plane -/

/-- A bound on the length of the vector before each round. -/
def lengthBound : ℕ → ℚ
  | 0 => 2 ^ 61
  | n + 1 => lengthBound n * (1 + 1 / (2 * 4 ^ n)) + 2

theorem lengthBound_lt : ∀ n ≤ 32, lengthBound n < 2 ^ 62 ∧ lengthBound n ≤ lengthBound (n + 1) := by
  decide +kernel

theorem residual_le_half : ∀ n ≤ 32, residual n ≤ 5 * 2 ^ 58 := by
  decide +kernel

/-- The vector has not shrunk and not outgrown its bound, and its direction `φ` is small
and, with the angle added up, the direction `θ` it started from. -/
structure Seeks (θ : ℝ) (z : ℤ) (n : ℕ) (v : IntRotation) (φ : ℝ) : Prop where
  points : Points v.vec φ
  small : |φ| ≤ residual n * countAngle + n / 2 ^ 40
  kept : |φ + (v.z - z : ℤ) * countAngle - θ| ≤ n / 2 ^ 40
  long : (2 : ℝ) ^ 60 - 2 * n ≤ ‖v.vec‖
  short : ‖v.vec‖ ≤ lengthBound n

theorem y_eq_sin {v : IntRotation} {φ : ℝ} (h : Points v.vec φ) :
    (v.y : ℝ) = ‖v.vec‖ * Real.sin φ := by
  have him := congrArg Complex.im h
  rw [im_ofReal_mul, exp_ofReal_mul_I_im] at him
  rw [← him]
  simp [IntRotation.vec]

/-- The direction is within half a turn, so that its sign is that of `y`. -/
theorem Seeks.lt_pi {θ φ : ℝ} {z : ℤ} {n : ℕ} {v : IntRotation} (h : Seeks θ z n v φ)
    (hn : n ≤ 32) : |φ| < Real.pi := by
  have hres : (residual n : ℝ) ≤ 5 * 2 ^ 58 := by exact_mod_cast residual_le_half n hn
  have hpi := Real.pi_gt_three
  have hcount : (residual n : ℝ) * countAngle ≤ 5 / 8 * Real.pi := by
    calc (residual n : ℝ) * countAngle ≤ 5 * 2 ^ 58 * countAngle := by
          have := countAngle_pos
          gcongr
      _ = 5 / 8 * Real.pi := by
          rw [countAngle_eq]
          ring
  have hsmall : (n : ℝ) / 2 ^ 40 ≤ 1 / 8 := by
    rw [div_le_iff₀ (by positivity)]
    have hcast : (n : ℝ) ≤ 32 := by exact_mod_cast hn
    linarith
  have := h.small
  linarith

theorem Seeks.sign {θ φ : ℝ} {z : ℤ} {n : ℕ} {v : IntRotation} (h : Seeks θ z n v φ)
    (hn : n ≤ 32) : (0 < v.y → 0 < φ) ∧ (v.y < 0 → φ < 0) ∧ (v.y = 0 → φ = 0) := by
  obtain ⟨hlow, hhigh⟩ := abs_lt.mp (h.lt_pi hn)
  have hy := y_eq_sin h.points
  have hpos : 0 < ‖v.vec‖ := by
    have hcast : (n : ℝ) ≤ 32 := by exact_mod_cast hn
    have := h.long
    linarith
  refine ⟨fun hy' => ?_, fun hy' => ?_, fun hy' => ?_⟩
  · by_contra hφ
    have hsin := Real.sin_nonpos_of_nonpos_of_neg_pi_le (not_lt.mp hφ) hlow.le
    have hyle : (v.y : ℝ) ≤ 0 := hy ▸ mul_nonpos_of_nonneg_of_nonpos hpos.le hsin
    exact absurd (by exact_mod_cast hyle : v.y ≤ 0) (not_le.mpr hy')
  · by_contra hφ
    have hsin := Real.sin_nonneg_of_nonneg_of_le_pi (not_lt.mp hφ) hhigh.le
    have hyle : (0 : ℝ) ≤ v.y := hy ▸ mul_nonneg hpos.le hsin
    exact absurd (by exact_mod_cast hyle : 0 ≤ v.y) (not_le.mpr hy')
  · rw [hy', Int.cast_zero] at hy
    have hsin : Real.sin φ = 0 := (mul_eq_zero.mp hy.symm).resolve_left hpos.ne'
    exact (Real.sin_eq_zero_iff_of_lt_of_lt hlow hhigh).mp hsin

theorem norm_le_turned {σ : ℤ} (hσ : σ = 1 ∨ σ = -1) (i : ℕ) (w : ℂ) :
    ‖w‖ ≤ ‖w * (1 + (σ / 2 ^ i : ℝ) * I)‖ := by
  rw [norm_mul, norm_turn_factor hσ]
  apply le_mul_of_one_le_right (norm_nonneg _)
  apply Real.one_le_sqrt.mpr
  have hsquare : (0 : ℝ) ≤ (1 / 2 ^ i) ^ 2 := by positivity
  linarith

/-- A turn turns the direction by the arctangent of the round. -/
theorem turn_points {i : ℕ} {σ : ℤ} (hσ : σ = 1 ∨ σ = -1) {v : IntRotation} {φ : ℝ}
    (h : Points v.vec φ) (hlong : (2 : ℝ) ^ 44 ≤ ‖v.vec‖) :
    ∃ φ', Points (v.turn i σ).vec φ' ∧ |φ' - (φ + σ * Real.arctan (1 / 2 ^ i))| ≤ 1 / 2 ^ 42 := by
  obtain ⟨e, hturn, he⟩ := vec_turn i hσ v
  have hturned := h.turn (σ / 2 ^ i)
  have hangle := arctan_sign hσ (1 / 2 ^ i)
  rw [mul_one_div] at hangle
  rw [hangle] at hturned
  have hgrown := norm_le_turned hσ i v.vec
  have hne : v.vec * (1 + (σ / 2 ^ i : ℝ) * I) ≠ 0 := by
    rw [← norm_pos_iff]
    linarith
  have hsmall : ‖e‖ ≤ 1 / 2 ^ 43 * ‖v.vec * (1 + (σ / 2 ^ i : ℝ) * I)‖ := by
    linarith
  obtain ⟨φ', hφ', hclose⟩ := hturned.perturb hne hsmall (by norm_num)
  refine ⟨φ', hturn ▸ hφ', hclose.trans (by norm_num)⟩

/-- A turn against the sign of `y` brings the direction within the next residual. -/
theorem Seeks.turn {θ φ : ℝ} {z : ℤ} {n : ℕ} {v : IntRotation} (h : Seeks θ z n v φ)
    (hn : n < 32) {σ : ℤ} (hσ : σ = 1 ∨ σ = -1) (hsign : |φ + σ * Real.arctan (1 / 2 ^ n)| =
      |(|φ|) - Real.arctan (1 / 2 ^ n)|) :
    ∃ φ', Seeks θ z (n + 1) (v.turn n σ) φ' := by
  have hcast : (n : ℝ) ≤ 32 := by exact_mod_cast hn.le
  have hlong : (2 : ℝ) ^ 44 ≤ ‖v.vec‖ := by
    have := h.long
    linarith
  obtain ⟨φ', hpoints, hturned⟩ := turn_points hσ h.points hlong
  obtain ⟨hclow, hchigh⟩ := abs_le.mp (turns_close hn)
  set α := Real.arctan (1 / 2 ^ n)
  have hσ' : |(σ : ℝ)| = 1 := by
    rcases hσ with rfl | rfl <;> norm_num
  have hresidual : (residual n : ℝ) * countAngle =
      turns n * countAngle + residual (n + 1) * countAngle := by
    rw [residual_succ hn]
    push_cast
    ring
  have hlast : (turns n : ℝ) * countAngle ≤ residual (n + 1) * countAngle := by
    have hle : (turns n : ℝ) ≤ residual (n + 1) := by exact_mod_cast (turns_le_residual n hn).2
    exact mul_le_mul_of_nonneg_right hle countAngle_pos.le
  obtain ⟨e, hvec, he⟩ := vec_turn n hσ v
  refine ⟨φ', hpoints, ?_, ?_, ?_, ?_⟩
  · have hstep : |(|φ|) - α| ≤ residual (n + 1) * countAngle + n / 2 ^ 40 + 1 / 2 ^ 41 := by
      have hnonneg : (0 : ℝ) ≤ n / 2 ^ 40 := by positivity
      have hsmall := h.small
      have hφ := abs_nonneg φ
      rw [abs_le]
      constructor <;> linarith
    have htriangle : |φ'| ≤ |φ' - (φ + σ * α)| + |φ + σ * α| := by
      simpa using abs_add_le (φ' - (φ + σ * α)) (φ + σ * α)
    rw [hsign] at htriangle
    push_cast
    rw [add_div]
    norm_num at hturned hstep ⊢
    linarith
  · have hz : ((v.turn n σ).z - z : ℤ) = v.z - z - σ * turns n := by
      rw [IntRotation.turn]
      ring
    have hsplit : φ' + ((v.z - z - σ * turns n : ℤ) : ℝ) * countAngle - θ =
        (φ' - (φ + σ * α)) + (φ + (v.z - z : ℤ) * countAngle - θ) -
          σ * (turns n * countAngle - α) := by
      push_cast
      ring
    have htable : |(σ : ℝ) * (turns n * countAngle - α)| ≤ 1 / 2 ^ 41 := by
      rw [abs_mul, hσ', one_mul]
      exact turns_close hn
    rw [hz, hsplit]
    refine (abs_sub _ _).trans ?_
    have hsum := abs_add_le (φ' - (φ + σ * α)) (φ + (v.z - z : ℤ) * countAngle - θ)
    have hkept := h.kept
    push_cast at hkept hsum ⊢
    rw [add_div]
    norm_num at hturned htable hkept ⊢
    linarith
  · rw [hvec]
    have hgrown := norm_le_turned hσ n v.vec
    have hless := norm_sub_le (v.vec * (1 + (σ / 2 ^ n : ℝ) * I) + e) e
    rw [add_sub_cancel_right] at hless
    have hlong' := h.long
    rw [Nat.cast_succ]
    linarith
  · rw [hvec, lengthBound]
    have hgrowth := sqrt_growth_le n
    have hshort := h.short
    calc ‖v.vec * (1 + (σ / 2 ^ n : ℝ) * I) + e‖
        ≤ ‖v.vec‖ * ‖(1 + (σ / 2 ^ n : ℝ) * I : ℂ)‖ + ‖e‖ := by
          rw [← norm_mul]
          exact norm_add_le _ _
      _ ≤ lengthBound n * (1 + 1 / (2 * 4 ^ n)) + 2 := by
          rw [norm_turn_factor hσ]
          have hnonneg : (0 : ℝ) ≤ lengthBound n := (norm_nonneg _).trans hshort
          gcongr
      _ = ((lengthBound n * (1 + 1 / (2 * 4 ^ n)) + 2 : ℚ) : ℝ) := by
          push_cast
          ring

/-- A vector on the axis stays there. -/
theorem Seeks.stay {θ φ : ℝ} {z : ℤ} {n : ℕ} {v : IntRotation} (h : Seeks θ z n v φ)
    (hn : n < 32) (hφ : φ = 0) : Seeks θ z (n + 1) v φ := by
  have hmono : (lengthBound n : ℝ) ≤ lengthBound (n + 1) := by
    exact_mod_cast (lengthBound_lt n hn.le).2
  have hresidual : (0 : ℝ) ≤ residual (n + 1) := by exact_mod_cast residual_nonneg (n + 1) hn
  have hcount := countAngle_pos
  have hkept := h.kept
  have hlong := h.long
  refine ⟨h.points, ?_, ?_, ?_, h.short.trans hmono⟩
  · rw [hφ, abs_zero]
    positivity
  · rw [Nat.cast_succ, add_div]
    have hstep : (0 : ℝ) ≤ 1 / 2 ^ 40 := by positivity
    linarith
  · rw [Nat.cast_succ]
    linarith

theorem Seeks.step {θ φ : ℝ} {z : ℤ} {n : ℕ} {v : IntRotation} (h : Seeks θ z n v φ)
    (hn : n < 32) : ∃ φ', Seeks θ z (n + 1) (vectorExact n v) φ' := by
  obtain ⟨hpos, hneg, hzero⟩ := h.sign hn.le
  have harctan : 0 ≤ Real.arctan (1 / 2 ^ n) := Real.arctan_nonneg.mpr (by positivity)
  rw [vectorExact]
  split_ifs with hy hy'
  · exact ⟨φ, h.stay hn (hzero hy)⟩
  · refine h.turn hn (.inr rfl) ?_
    rw [abs_of_pos (hpos hy'), Int.cast_neg, Int.cast_one, neg_one_mul, ← sub_eq_add_neg]
  · have hφ := hneg (lt_of_le_of_ne (not_lt.mp hy') hy)
    refine h.turn hn (.inl rfl) ?_
    rw [abs_of_neg hφ, Int.cast_one, one_mul, ← abs_neg]
    congr 1
    ring

/-! ## The loop without overflow -/

/-- The registers of `fcqAtan2` before a round. -/
def atanRound (start : Rotation) (n : ℕ) : Rotation :=
  foldRange 0 n start vector

/-- The same registers as integers of any size. -/
def atanRoundExact (start : IntRotation) (n : ℕ) : IntRotation :=
  foldRange 0 n start vectorExact

/-- A vector in the right half-plane with a component of one. -/
structure Started (v : IntRotation) : Prop where
  right : 0 ≤ v.x
  x_le : v.x ≤ 2 ^ 60
  y_le : |v.y| ≤ 2 ^ 60
  full : v.x = 2 ^ 60 ∨ |v.y| = 2 ^ 60
  angle : v.z = 0 ∨ v.z = 2 ^ 61

theorem Started.seeks {v : IntRotation} (h : Started v) :
    ∃ θ, |θ| ≤ Real.pi / 2 ∧ Points v.vec θ ∧ Seeks θ v.z 0 v θ := by
  have hre : v.vec.re = v.x := by simp [IntRotation.vec]
  have him : v.vec.im = v.y := by simp [IntRotation.vec]
  have hx : (0 : ℝ) ≤ v.x := by exact_mod_cast h.right
  have hx' : (v.x : ℝ) ≤ 2 ^ 60 := by exact_mod_cast h.x_le
  have hy : |(v.y : ℝ)| ≤ 2 ^ 60 := by exact_mod_cast h.y_le
  have harg : |v.vec.arg| ≤ Real.pi / 2 :=
    abs_arg_le_pi_div_two_iff.mpr (by rw [hre]; exact hx)
  refine ⟨v.vec.arg, harg, points_arg v.vec, points_arg v.vec, ?_, ?_, ?_, ?_⟩
  · have hzero : (2 : ℝ) ^ 60 ≤ residual 0 := by exact_mod_cast residual_zero.1
    have hcount := countAngle_pos
    calc |v.vec.arg| ≤ Real.pi / 2 := harg
      _ = 2 ^ 60 * countAngle := by
          rw [countAngle_eq]
          ring
      _ ≤ residual 0 * countAngle + (0 : ℕ) / 2 ^ 40 := by
          rw [Nat.cast_zero, zero_div, add_zero]
          gcongr
  · simp
  · rw [Nat.cast_zero, mul_zero, sub_zero]
    rcases h.full with hfull | hfull
    · have hle := abs_re_le_norm v.vec
      rw [hre, abs_of_nonneg hx, hfull] at hle
      exact_mod_cast hle
    · have hle := abs_im_le_norm v.vec
      rw [him] at hle
      have hcast : |(v.y : ℝ)| = 2 ^ 60 := by exact_mod_cast hfull
      exact hcast ▸ hle
  · have hle := norm_le_abs_re_add_abs_im v.vec
    rw [hre, him, abs_of_nonneg hx] at hle
    have hbound : ((lengthBound 0 : ℚ) : ℝ) = 2 ^ 61 := by
      rw [lengthBound]
      norm_num
    rw [hbound]
    linarith

theorem atanRoundExact_seeks {start : IntRotation} {θ : ℝ} (h : Seeks θ start.z 0 start θ) {n : ℕ}
    (hn : n ≤ 32) : ∃ φ, Seeks θ start.z n (atanRoundExact start n) φ := by
  refine foldRange_induction (fun i v => ∃ φ, Seeks θ start.z i v φ) (Nat.zero_le n) ⟨θ, h⟩ ?_
  rintro i v - hi ⟨φ, hφ⟩
  exact hφ.step (hi.trans_le hn)

/-- What the rounds have added to the angle. -/
theorem atanRoundExact_angle (start : IntRotation) {n : ℕ} (hn : n ≤ 32) :
    |(atanRoundExact start n).z - start.z| ≤ residual 0 - residual n := by
  refine foldRange_induction (fun i (v : IntRotation) => |v.z - start.z| ≤ residual 0 - residual i)
    (Nat.zero_le n) (by simp) ?_
  intro i v _ hi hv
  have hturns := turns_le_residual i (hi.trans_le hn)
  have hsucc := residual_succ (hi.trans_le hn)
  obtain ⟨hlow, hhigh⟩ := abs_le.mp hv
  rw [vectorExact]
  split_ifs
  · exact hv.trans (by linarith)
  · simp only [IntRotation.turn, neg_mul, one_mul, sub_neg_eq_add]
    rw [abs_le]
    constructor <;> linarith
  · simp only [IntRotation.turn, one_mul]
    rw [abs_le]
    constructor <;> linarith

theorem atanRoundExact_small {start : IntRotation} (h : Started start) {n : ℕ} (hn : n ≤ 32) :
    |(atanRoundExact start n).x| < 2 ^ 62 ∧ |(atanRoundExact start n).y| < 2 ^ 62 ∧
      |(atanRoundExact start n).z| ≤ 2 ^ 62 := by
  obtain ⟨θ, -, -, hseeks⟩ := h.seeks
  obtain ⟨φ, hφ⟩ := atanRoundExact_seeks hseeks hn
  have hangle := atanRoundExact_angle start hn
  generalize atanRoundExact start n = v at hφ hangle ⊢
  have hlt : (lengthBound n : ℝ) < 2 ^ 62 := by exact_mod_cast (lengthBound_lt n hn).1
  have hnorm := hφ.short.trans_lt hlt
  have hx := (abs_re_le_norm v.vec).trans_lt hnorm
  have hy := (abs_im_le_norm v.vec).trans_lt hnorm
  have hre : v.vec.re = v.x := by simp [IntRotation.vec]
  have him : v.vec.im = v.y := by simp [IntRotation.vec]
  rw [hre] at hx
  rw [him] at hy
  refine ⟨by exact_mod_cast hx, by exact_mod_cast hy, ?_⟩
  have hzero := residual_le_half 0 (Nat.zero_le 32)
  have hres := residual_nonneg n hn
  obtain ⟨hlow, hhigh⟩ := abs_le.mp hangle
  rw [abs_le]
  rcases h.angle with hz | hz <;> constructor <;> linarith

/-- No register overflows. -/
theorem atanRound_exact {start : Rotation} (h : Started start.toInts) {n : ℕ} (hn : n ≤ 32) :
    (atanRound start n).toInts = atanRoundExact start.toInts n := by
  induction n with
  | zero => rfl
  | succ n ih =>
      have hexact := ih (Nat.le_of_succ_le hn)
      obtain ⟨hx, hy, hz⟩ := atanRoundExact_small h (Nat.le_of_succ_le hn)
      rw [← hexact] at hx hy hz
      have hstep := vector_toInts hn (v := atanRound start n) ⟨hx, hy⟩ hz
      rw [hexact] at hstep
      calc (atanRound start (n + 1)).toInts
          = (vector n (atanRound start n)).toInts :=
            congrArg Rotation.toInts (foldRange_succ (Nat.zero_le n) _ _)
        _ = vectorExact n (atanRoundExact start.toInts n) := hstep
        _ = atanRoundExact start.toInts (n + 1) := (foldRange_succ (Nat.zero_le n) _ _).symm

/-- The angle that is added up is that of the start, but for the last entry of the table
and the roundings. -/
theorem atanRoundExact_close {start : IntRotation} (h : Started start) :
    ∃ θ, |θ| ≤ Real.pi / 2 ∧ Points start.vec θ ∧
      |((atanRoundExact start 32).z - start.z : ℤ) * countAngle - θ| ≤
        turns 31 * countAngle + 1 / 2 ^ 34 := by
  obtain ⟨θ, hθ, hpoints, hseeks⟩ := h.seeks
  obtain ⟨φ, hφ⟩ := atanRoundExact_seeks hseeks (le_refl 32)
  refine ⟨θ, hθ, hpoints, ?_⟩
  have hsmall := hφ.small
  have hkept := hφ.kept
  rw [residual_last] at hsmall
  generalize atanRoundExact start 32 = v at hkept ⊢
  have hsplit : ((v.z - start.z : ℤ) : ℝ) * countAngle - θ =
      (φ + (v.z - start.z : ℤ) * countAngle - θ) - φ := by ring
  rw [hsplit]
  refine (abs_sub _ _).trans ?_
  norm_num at hsmall hkept ⊢
  linarith

/-! ## The quotients -/

/-- The larger magnitude. -/
def largest (fy fx : Int64) : ℤ :=
  max |fx.toInt| |fy.toInt|

/-- The components as quotients by the larger magnitude. -/
def atanNormal (fy fx : Int64) : Except Status (Int64 × Int64) := do
  let ax ← fcqAbs fx
  let ay ← fcqAbs fy
  let largest := if ax ≥ ay then ax else ay
  let nx ← fcqDiv fx largest
  let ny ← fcqDiv fy largest
  .ok (nx, ny)

/-- The registers that the loop starts from: a vector in the left half-plane is turned
by half a turn. -/
def atanStart (n : Int64 × Int64) : Rotation :=
  if n.1 * 536870912 < 0 then
    ⟨-(n.1 * 536870912), -(n.2 * 536870912), 4611686018427387904 / 2⟩
  else ⟨n.1 * 536870912, n.2 * 536870912, 0⟩

/-- The angle of the loop as a value of `[0, 1)`. -/
def atanFinish (z : Int64) : Except Status Int64 := do
  let z := if z < 0 then z + 4611686018427387904 else z
  let z := if z ≥ 4611686018427387904 then z - 4611686018427387904 else z
  let a ← checked (linearsFixedMuldiv z 1 fixedOne (some 0))
  .ok (fcqWrap a)

theorem fcqAtan2_eq {fy fx : Int64} (hy : fy ≠ 0) (hx : fx ≠ 0) :
    fcqAtan2 fy fx = atanNormal fy fx >>= fun n => atanFinish (atanRound (atanStart n) 32).z := by
  -- the loop as a function of its start, which is not to be run
  obtain ⟨loop, hloop⟩ : ∃ loop : Rotation → Rotation, ∀ start,
      foldRange 0 32 start vector = loop start := ⟨_, fun _ => rfl⟩
  simp only [fcqAtan2, atanNormal, atanFinish, atanRound, atanStart, hloop, hx, hy, false_and,
    if_false, bind_assoc, ok_bind]

theorem abs_toInt_lt {a : Int64} (ha : a ≠ Int64.minValue) : |a.toInt| < 2 ^ 63 := by
  have hne : a.toInt ≠ -2 ^ 63 := fun h => ha (Int64.toInt_inj.mp h)
  have hlow := a.le_toInt
  have hhigh := a.toInt_lt
  rw [abs_lt]
  constructor <;> omega

theorem fcqAbs_of_ne {a : Int64} (ha : a ≠ Int64.minValue) :
    ∃ c : Int64, fcqAbs a = .ok c ∧ c.toInt = |a.toInt| := by
  have hlt := abs_toInt_lt ha
  have hnonneg := abs_nonneg a.toInt
  have hfits := fixedResult_of_fits (n := |a.toInt|) (by constructor <;> omega)
  rw [fcqAbs, fixed_abs]
  exact ⟨_, hfits, fixedResult_eq_ok hfits⟩

/-- A quotient by a magnitude that is no smaller. -/
theorem fcqDiv_of_le {a c : Int64} (hc : c ≠ 0) (hle : |a.toInt| ≤ c.toInt) :
    ∃ n : Int64, fcqDiv a c = .ok n ∧ n.toInt = roundAway ((a.toInt : ℚ) * 2 ^ 31 / c.toInt) ∧
      |n.toInt| ≤ 2 ^ 31 := by
  have hpos : 0 < c.toInt := by
    have hne : c.toInt ≠ 0 := fun h => hc (Int64.toInt_inj.mp h)
    exact lt_of_le_of_ne ((abs_nonneg _).trans hle) hne.symm
  have hquotient : |(a.toInt : ℚ) * 2 ^ 31 / c.toInt| ≤ ((2 ^ 31 : ℤ) : ℚ) := by
    have hcast : |(a.toInt : ℚ)| ≤ c.toInt := by exact_mod_cast hle
    have hcpos : (0 : ℚ) < c.toInt := by exact_mod_cast hpos
    rw [abs_div, abs_mul, abs_of_pos hcpos, div_le_iff₀ hcpos,
      abs_of_pos (show (0 : ℚ) < 2 ^ 31 by positivity)]
    norm_num
    linarith
  have hround := abs_roundAway_le hquotient
  obtain ⟨hlow, hhigh⟩ := abs_le.mp hround
  have hfits := fixedResult_of_fits
    (n := roundAway ((a.toInt : ℚ) * 2 ^ 31 / c.toInt)) (by constructor <;> omega)
  rw [fcqDiv, fixed_div a hc]
  refine ⟨_, hfits, fixedResult_eq_ok hfits, ?_⟩
  rw [fixedResult_eq_ok hfits]
  exact hround

/-- The quotients of a vector whose components have a magnitude. -/
theorem atanNormal_ok {fy fx : Int64} (hy : fy ≠ Int64.minValue) (hx : fx ≠ Int64.minValue)
    (hne : fx ≠ 0) :
    ∃ n : Int64 × Int64, atanNormal fy fx = .ok n ∧
      n.1.toInt = roundAway ((fx.toInt : ℚ) * 2 ^ 31 / largest fy fx) ∧
      n.2.toInt = roundAway ((fy.toInt : ℚ) * 2 ^ 31 / largest fy fx) ∧
      |n.1.toInt| ≤ 2 ^ 31 ∧ |n.2.toInt| ≤ 2 ^ 31 := by
  obtain ⟨ax, hax, haxvalue⟩ := fcqAbs_of_ne hx
  obtain ⟨ay, hay, hayvalue⟩ := fcqAbs_of_ne hy
  have hlargest : (if ax ≥ ay then ax else ay).toInt = largest fy fx := by
    have hle : ax ≥ ay ↔ |fy.toInt| ≤ |fx.toInt| := by
      rw [ge_iff_le, Int64.le_iff_toInt_le, haxvalue, hayvalue]
    rw [largest]
    split
    · rw [haxvalue, max_eq_left (hle.mp ‹_›)]
    · rw [hayvalue, max_eq_right (not_le.mp (mt hle.mpr ‹_›)).le]
  have hpos : 0 < largest fy fx := by
    have hfx : 0 < |fx.toInt| := abs_pos.mpr fun h => hne (Int64.toInt_inj.mp h)
    exact hfx.trans_le (le_max_left _ _)
  generalize hL : (if ax ≥ ay then ax else ay) = L at hlargest
  have hL0 : L ≠ 0 := by
    rintro rfl
    rw [Int64.toInt_zero] at hlargest
    omega
  obtain ⟨nx, hnx, hnxvalue, hnxle⟩ := fcqDiv_of_le (a := fx) hL0
    (hlargest ▸ le_max_left _ _)
  obtain ⟨ny, hny, hnyvalue, hnyle⟩ := fcqDiv_of_le (a := fy) hL0
    (hlargest ▸ le_max_right _ _)
  rw [hlargest] at hnxvalue hnyvalue
  refine ⟨(nx, ny), ?_, hnxvalue, hnyvalue, hnxle, hnyle⟩
  rw [atanNormal, hax, ok_bind, hay, ok_bind]
  dsimp only
  rw [hL, hnx, ok_bind, hny, ok_bind]

/-- A component as long as the larger magnitude becomes one, without rounding. -/
theorem roundAway_full {a L : ℤ} (hL : 0 < L) (ha : |a| = L) :
    (roundAway ((a : ℚ) * 2 ^ 31 / L) : ℚ) = (a : ℚ) * 2 ^ 31 / L ∧
      |roundAway ((a : ℚ) * 2 ^ 31 / L)| = 2 ^ 31 := by
  have hcast : (L : ℚ) ≠ 0 := by exact_mod_cast hL.ne'
  have hvalue : (a : ℚ) * 2 ^ 31 / L = ((2 ^ 31 : ℤ) : ℚ) ∨
      (a : ℚ) * 2 ^ 31 / L = ((-2 ^ 31 : ℤ) : ℚ) := by
    rcases (abs_eq hL.le).mp ha with rfl | rfl
    · left
      push_cast
      field_simp
      norm_num
    · right
      push_cast
      field_simp
      norm_num
  rcases hvalue with h | h
  · rw [h, roundAway_intCast]
    exact ⟨rfl, rfl⟩
  · rw [h, roundAway_intCast]
    exact ⟨rfl, rfl⟩

theorem toInt_scaled {n : Int64} (hn : |n.toInt| ≤ 2 ^ 31) :
    (n * 536870912).toInt = n.toInt * 2 ^ 29 := by
  obtain ⟨hlow, hhigh⟩ := abs_le.mp hn
  rw [toInt_mul_of_fits, show (536870912 : Int64).toInt = 2 ^ 29 from rfl]
  rw [show (536870912 : Int64).toInt = 2 ^ 29 from rfl]
  constructor <;> omega

/-- `atanStart`, without overflow. -/
def atanStartExact (nx ny : ℤ) : IntRotation :=
  if nx < 0 then ⟨-(nx * 2 ^ 29), -(ny * 2 ^ 29), 2 ^ 61⟩ else ⟨nx * 2 ^ 29, ny * 2 ^ 29, 0⟩

theorem atanStart_exact {n : Int64 × Int64} (hx : |n.1.toInt| ≤ 2 ^ 31) (hy : |n.2.toInt| ≤ 2 ^ 31) :
    (atanStart n).toInts = atanStartExact n.1.toInt n.2.toInt := by
  have hxvalue := toInt_scaled hx
  have hyvalue := toInt_scaled hy
  have hsign : n.1 * 536870912 < 0 ↔ n.1.toInt < 0 := by
    rw [lt_zero_iff_toInt, hxvalue]
    constructor <;> intro h <;> omega
  obtain ⟨hxlow, hxhigh⟩ := abs_le.mp hx
  obtain ⟨hylow, hyhigh⟩ := abs_le.mp hy
  rw [atanStart, atanStartExact]
  simp only [hsign]
  split
  · rw [Rotation.toInts, toInt_neg_of_fits, toInt_neg_of_fits, hxvalue, hyvalue]
    · rfl
    · rw [hyvalue]
      constructor <;> omega
    · rw [hxvalue]
      constructor <;> omega
  · rw [Rotation.toInts, hxvalue, hyvalue]
    rfl

theorem started_exact {nx ny : ℤ} (hx : |nx| ≤ 2 ^ 31) (hy : |ny| ≤ 2 ^ 31)
    (hfull : |nx| = 2 ^ 31 ∨ |ny| = 2 ^ 31) : Started (atanStartExact nx ny) := by
  obtain ⟨hxlow, hxhigh⟩ := abs_le.mp hx
  obtain ⟨hylow, hyhigh⟩ := abs_le.mp hy
  have hyscaled : |ny * 2 ^ 29| = |ny| * 2 ^ 29 := by
    rw [abs_mul]
    rfl
  rw [atanStartExact]
  split
  · refine ⟨by dsimp only; omega, by dsimp only; omega, ?_, ?_, .inr rfl⟩
    · rw [abs_neg, hyscaled]
      omega
    · rw [abs_neg, hyscaled]
      refine hfull.imp (fun h => ?_) fun h => by omega
      rw [abs_of_neg ‹_›] at h
      dsimp only
      omega
  · refine ⟨by dsimp only; omega, by dsimp only; omega, ?_, ?_, .inl rfl⟩
    · rw [hyscaled]
      omega
    · rw [hyscaled]
      refine hfull.imp (fun h => ?_) fun h => by omega
      rw [abs_of_nonneg (not_lt.mp ‹_›)] at h
      dsimp only
      omega

/-- The start of the loop has the direction of the quotients, with the angle it starts
from. -/
theorem atanStartExact_points {nx ny : ℤ} {φ θ : ℝ} (hφ : Points (nx + ny * I) φ)
    (hne : (nx + ny * I : ℂ) ≠ 0) (hθ : Points (atanStartExact nx ny).vec θ) :
    ∃ k : ℤ, (atanStartExact nx ny).z * countAngle + θ = φ + k * (2 * Real.pi) := by
  have hscaled := hφ.scale (show (0 : ℝ) ≤ 2 ^ 29 by positivity)
  have hne' : (nx + ny * I : ℂ) * ((2 ^ 29 : ℝ) : ℂ) ≠ 0 := mul_ne_zero hne (by norm_num)
  have hhalf : ((2 ^ 61 : ℤ) : ℝ) * countAngle = Real.pi := by
    rw [countAngle_eq]
    push_cast
    ring
  unfold atanStartExact at hθ ⊢
  split at hθ
  · rw [if_pos ‹_›, hhalf]
    have hvec : IntRotation.vec ⟨-(nx * 2 ^ 29), -(ny * 2 ^ 29), 2 ^ 61⟩ =
        -((nx + ny * I : ℂ) * ((2 ^ 29 : ℝ) : ℂ)) := by
      simp only [IntRotation.vec]
      push_cast
      ring
    rw [hvec] at hθ
    obtain ⟨k, hk⟩ := hθ.exists_turns hscaled.neg (neg_ne_zero.mpr hne')
    refine ⟨k + 1, ?_⟩
    rw [hk]
    push_cast
    ring
  · rw [if_neg ‹_›]
    have hvec : IntRotation.vec ⟨nx * 2 ^ 29, ny * 2 ^ 29, 0⟩ =
        (nx + ny * I : ℂ) * ((2 ^ 29 : ℝ) : ℂ) := by
      simp only [IntRotation.vec]
      push_cast
      ring
    rw [hvec] at hθ
    obtain ⟨k, hk⟩ := hθ.exists_turns hscaled hne'
    refine ⟨k, ?_⟩
    rw [hk]
    push_cast
    ring

/-- A rounded quotient, in real numbers. -/
theorem quotient_rounded (a L : ℤ) :
    |(roundAway ((a : ℚ) * 2 ^ 31 / L) : ℝ) - a * (2 ^ 31 / L)| ≤ 1 / 2 := by
  have hround := (Rat.cast_le (K := ℝ)).mpr (abs_sub_roundAway_le ((a : ℚ) * 2 ^ 31 / L))
  push_cast at hround
  rw [abs_sub_comm, ← mul_div_assoc]
  exact hround

/-- The rounded quotients point within half a unit of where the components do. -/
theorem quotients_points {fy fx L : ℤ} (hL : 0 < L) (hmax : L = max |fx| |fy|) :
    ∃ φ, Points (roundAway ((fx : ℚ) * 2 ^ 31 / L) + roundAway ((fy : ℚ) * 2 ^ 31 / L) * I) φ ∧
      |φ - (fx + fy * I : ℂ).arg| ≤ 3 / 2 * (1 / 2 ^ 32) := by
  have hLreal : (0 : ℝ) < L := by exact_mod_cast hL
  have hratio : (0 : ℝ) < 2 ^ 31 / L := by positivity
  have hxround := quotient_rounded fx L
  have hyround := quotient_rounded fy L
  have hfull : |fx| = L ∨ |fy| = L := by
    rw [hmax]
    exact (max_choice |fx| |fy|).imp Eq.symm Eq.symm
  -- one of the two quotients is not rounded
  have hexact : ∀ {a : ℤ}, |a| = L →
      (roundAway ((a : ℚ) * 2 ^ 31 / L) : ℝ) - a * (2 ^ 31 / L) = 0 := by
    intro a ha
    have hvalue := congrArg (fun q : ℚ => (q : ℝ)) (roundAway_full hL ha).1
    push_cast at hvalue
    rw [hvalue]
    ring
  set nx : ℤ := roundAway ((fx : ℚ) * 2 ^ 31 / L)
  set ny : ℤ := roundAway ((fy : ℚ) * 2 ^ 31 / L)
  have hvec : (nx + ny * I : ℂ) = (fx + fy * I) * ((2 ^ 31 / L : ℝ) : ℂ) +
      (((nx - fx * (2 ^ 31 / L) : ℝ) : ℂ) + ((ny - fy * (2 ^ 31 / L) : ℝ) : ℂ) * I) := by
    push_cast
    ring
  have herror : ‖(((nx - fx * (2 ^ 31 / L) : ℝ) : ℂ) + ((ny - fy * (2 ^ 31 / L) : ℝ) : ℂ) * I)‖ ≤
      1 / 2 := by
    rcases hfull with h | h
    · rw [hexact h, ofReal_zero, zero_add, norm_mul, norm_I, mul_one, norm_real]
      exact hyround
    · rw [hexact h, ofReal_zero, zero_mul, add_zero, norm_real]
      exact hxround
  have hlong : (2 : ℝ) ^ 31 ≤ ‖(fx + fy * I : ℂ) * ((2 ^ 31 / L : ℝ) : ℂ)‖ := by
    have hre : (fx + fy * I : ℂ).re = fx := by simp
    have him : (fx + fy * I : ℂ).im = fy := by simp
    have hle : (L : ℝ) ≤ ‖(fx + fy * I : ℂ)‖ := by
      rcases hfull with h | h
      · have habs : |(fx : ℝ)| = L := by exact_mod_cast h
        have hcomponent := abs_re_le_norm (fx + fy * I : ℂ)
        rwa [hre, habs] at hcomponent
      · have habs : |(fy : ℝ)| = L := by exact_mod_cast h
        have hcomponent := abs_im_le_norm (fx + fy * I : ℂ)
        rwa [him, habs] at hcomponent
    rw [norm_mul, norm_real, Real.norm_eq_abs, abs_of_pos hratio]
    calc (2 : ℝ) ^ 31 = L * (2 ^ 31 / L) := by field_simp
      _ ≤ ‖(fx + fy * I : ℂ)‖ * (2 ^ 31 / L) := by gcongr
  have hpoints := (points_arg (fx + fy * I : ℂ)).scale hratio.le
  have hne : (fx + fy * I : ℂ) * ((2 ^ 31 / L : ℝ) : ℂ) ≠ 0 := by
    rw [← norm_pos_iff]
    linarith
  have hsmall : (1 : ℝ) / 2 ≤ 1 / 2 ^ 32 * ‖(fx + fy * I : ℂ) * ((2 ^ 31 / L : ℝ) : ℂ)‖ := by
    calc (1 : ℝ) / 2 = 1 / 2 ^ 32 * 2 ^ 31 := by norm_num
      _ ≤ 1 / 2 ^ 32 * ‖(fx + fy * I : ℂ) * ((2 ^ 31 / L : ℝ) : ℂ)‖ := by gcongr
  obtain ⟨φ, hφ, hclose⟩ := hpoints.perturb hne (herror.trans hsmall) (by norm_num)
  exact ⟨φ, hvec ▸ hφ, hclose⟩

/-! ## The angle -/

/-- The angle within one turn, with no overflow. -/
theorem atanFinish_turn {z : Int64} (hlow : -2 ^ 62 < z.toInt) (hhigh : z.toInt < 2 * 2 ^ 62) :
    ∃ c : Int64, atanFinish z = (do
        let a ← checked (linearsFixedMuldiv c 1 fixedOne (some 0))
        .ok (fcqWrap a)) ∧
      (0 ≤ c.toInt ∧ c.toInt < 2 ^ 62) ∧ ∃ k : ℤ, c.toInt = z.toInt + k * 2 ^ 62 := by
  have hturn : (4611686018427387904 : Int64).toInt = 2 ^ 62 := rfl
  have hpast : ∀ {c : Int64}, c ≥ 4611686018427387904 ↔ 2 ^ 62 ≤ c.toInt := by
    intro c
    rw [ge_iff_le, Int64.le_iff_toInt_le, hturn]
  rw [atanFinish]
  by_cases hneg : z < 0
  · have hneg' := (lt_zero_iff_toInt z).mp hneg
    have hsum : (z + 4611686018427387904).toInt = z.toInt + 2 ^ 62 := by
      rw [toInt_add_of_fits, hturn]
      rw [hturn]
      constructor <;> omega
    refine ⟨z + 4611686018427387904, ?_, ?_, 1, by rw [hsum, one_mul]⟩
    · rw [if_pos hneg, if_neg]
      rw [hpast, hsum]
      omega
    · rw [hsum]
      constructor <;> omega
  · have hneg' := mt (lt_zero_iff_toInt z).mpr hneg
    rw [if_neg hneg]
    by_cases hturned : z ≥ 4611686018427387904
    · have hpast' := hpast.mp hturned
      have hdifference : (z - 4611686018427387904).toInt = z.toInt - 2 ^ 62 := by
        rw [toInt_sub_of_fits, hturn]
        rw [hturn]
        constructor <;> omega
      refine ⟨z - 4611686018427387904, by rw [if_pos hturned], ?_, -1, ?_⟩
      · rw [hdifference]
        constructor <;> omega
      · rw [hdifference]
        ring
    · have hpast' := mt hpast.mpr hturned
      refine ⟨z, by rw [if_neg hturned], ⟨by omega, by omega⟩, 0, by ring⟩

/-- The last steps round the angle to the nearest unit, modulo a turn. -/
theorem atanFinish_ok {z : Int64} (hlow : -2 ^ 62 < z.toInt) (hhigh : z.toInt < 2 * 2 ^ 62) :
    ∃ a : Int64, atanFinish z = .ok a ∧ (0 ≤ a.toInt ∧ a.toInt < 2 ^ 31) ∧
      ∃ m : ℤ, |(a.toInt : ℝ) - z.toInt / 2 ^ 31 - m * 2 ^ 31| ≤ 1 / 2 := by
  obtain ⟨c, hfinish, ⟨hclow, hchigh⟩, k, hk⟩ := atanFinish_turn hlow hhigh
  have hquotient : (c.toInt : ℚ) * (1 : Int64).toInt / fixedOne.toInt = (c.toInt : ℚ) / 2 ^ 31 := by
    rw [toInt_fixedOne, show (1 : Int64).toInt = 1 from rfl]
    norm_num
  have hnonneg : 0 ≤ roundAway ((c.toInt : ℚ) / 2 ^ 31) := by
    apply roundAway_nonneg
    have hcast : (0 : ℚ) ≤ c.toInt := by exact_mod_cast hclow
    positivity
  have hle : roundAway ((c.toInt : ℚ) / 2 ^ 31) ≤ 2 ^ 31 := by
    apply roundAway_le
    have hcast : (c.toInt : ℚ) ≤ 2 ^ 62 := by exact_mod_cast hchigh.le
    rw [div_le_iff₀ (by positivity)]
    norm_num at hcast ⊢
    exact hcast
  have hfits := fixedResult_of_fits (n := roundAway ((c.toInt : ℚ) / 2 ^ 31))
    (by constructor <;> omega)
  obtain ⟨m, hm⟩ := fcqWrap_congr (Int64.ofInt (roundAway ((c.toInt : ℚ) / 2 ^ 31)))
  rw [fixedResult_eq_ok hfits] at hm
  refine ⟨fcqWrap (Int64.ofInt (roundAway ((c.toInt : ℚ) / 2 ^ 31))), ?_, fcqWrap_range _,
    k - m, ?_⟩
  · rw [hfinish, checked_muldiv _ _ (by decide), hquotient, hfits, ok_bind]
  · have hround := (Rat.cast_le (K := ℝ)).mpr (abs_sub_roundAway_le ((c.toInt : ℚ) / 2 ^ 31))
    have hvalue : ((fcqWrap (Int64.ofInt (roundAway ((c.toInt : ℚ) / 2 ^ 31)))).toInt : ℝ) =
        roundAway ((c.toInt : ℚ) / 2 ^ 31) - m * 2 ^ 31 := by
      have hcast := congrArg (fun i : ℤ => (i : ℝ)) hm
      push_cast at hcast
      linarith
    have hturned : (c.toInt : ℝ) = z.toInt + k * 2 ^ 62 := by exact_mod_cast hk
    push_cast at hround
    rw [abs_sub_comm] at hround
    rw [hvalue]
    have hsplit : (roundAway ((c.toInt : ℚ) / 2 ^ 31) : ℝ) - m * 2 ^ 31 - z.toInt / 2 ^ 31 -
        ((k - m : ℤ) : ℝ) * 2 ^ 31 = roundAway ((c.toInt : ℚ) / 2 ^ 31) - c.toInt / 2 ^ 31 := by
      rw [hturned]
      push_cast
      ring
    rw [hsplit]
    exact hround

/-- The distance of a result from an angle in radians is at most one unit, modulo a turn. -/
def WithinUnit (a : Int64) (angle : ℝ) : Prop :=
  ∃ m : ℤ, |(a.toInt : ℝ) - (2 : ℕ) ^ 31 * angle / ((2 : ℕ) * Real.pi) - m * (2 : ℕ) ^ 31| ≤ 1

theorem withinUnit_iff {a : Int64} {angle : ℝ} :
    WithinUnit a angle ↔
      ∃ m : ℤ, |(a.toInt : ℝ) - 2 ^ 31 * angle / (2 * Real.pi) - m * 2 ^ 31| ≤ 1 := by
  rw [WithinUnit, Nat.cast_ofNat]

/-- No register of `fcqAtan2` overflows. -/
structure AtanExact (n : Int64 × Int64) : Prop where
  start : (atanStart n).toInts = atanStartExact n.1.toInt n.2.toInt
  rounds : ∀ i ≤ 32, (atanRound (atanStart n) i).toInts = atanRoundExact (atanStart n).toInts i
  angle : -2 ^ 62 < (atanRound (atanStart n) 32).z.toInt ∧
    (atanRound (atanStart n) 32).z.toInt < 2 * 2 ^ 62

theorem toInts_z (v : Rotation) : v.toInts.z = v.z.toInt :=
  rfl

theorem atanExact {n : Int64 × Int64} (hx : |n.1.toInt| ≤ 2 ^ 31) (hy : |n.2.toInt| ≤ 2 ^ 31)
    (hfull : |n.1.toInt| = 2 ^ 31 ∨ |n.2.toInt| = 2 ^ 31) : AtanExact n := by
  have hstart := atanStart_exact hx hy
  have hstarted : Started (atanStart n).toInts := hstart ▸ started_exact hx hy hfull
  refine ⟨hstart, fun i hi => atanRound_exact hstarted hi, ?_⟩
  have hz : (atanRound (atanStart n) 32).z.toInt = (atanRoundExact (atanStart n).toInts 32).z := by
    rw [← toInts_z, atanRound_exact hstarted (le_refl 32)]
  have hangle := atanRoundExact_angle (atanStart n).toInts (le_refl 32)
  have hzero := residual_le_half 0 (Nat.zero_le 32)
  have hlast := residual_nonneg 32 (le_refl 32)
  have hfrom := hstarted.angle
  rw [hz]
  generalize (atanRoundExact (atanStart n).toInts 32).z = z at hangle ⊢
  generalize (atanStart n).toInts.z = z₀ at hangle hfrom
  obtain ⟨hlow, hhigh⟩ := abs_le.mp hangle
  omega

/-- The errors of the table, the rounds, the quotients and the last rounding together. -/
theorem within_unit {a : Int64} {z z₀ k m : ℤ} {θ φ angle : ℝ}
    (hm : |(a.toInt : ℝ) - z / 2 ^ 31 - m * 2 ^ 31| ≤ 1 / 2)
    (hclose : |((z - z₀ : ℤ) : ℝ) * countAngle - θ| ≤ turns 31 * countAngle + 1 / 2 ^ 34)
    (hnear : |φ - angle| ≤ 3 / 2 * (1 / 2 ^ 32))
    (hk : z₀ * countAngle + θ = φ + k * (2 * Real.pi)) : WithinUnit a angle := by
  have hpi := Real.pi_gt_three
  have hpi0 : (0 : ℝ) < 2 * Real.pi := by linarith
  refine withinUnit_iff.mpr ⟨m + k, ?_⟩
  have hcounts : (z : ℝ) / 2 ^ 31 = 2 ^ 31 * (z * countAngle) / (2 * Real.pi) := by
    rw [countAngle_eq]
    field_simp
  -- the error of the angle in radians
  have hangle : |z * countAngle - angle - k * (2 * Real.pi)| ≤
      turns 31 * countAngle + 1 / 2 ^ 34 + 3 / 2 * (1 / 2 ^ 32) := by
    have hsplit : z * countAngle - angle - k * (2 * Real.pi) =
        (((z - z₀ : ℤ) : ℝ) * countAngle - θ) + (φ - angle) := by
      push_cast
      linarith
    rw [hsplit]
    exact (abs_add_le _ _).trans (add_le_add hclose hnear)
  have hunits : 2 ^ 31 * |z * countAngle - angle - k * (2 * Real.pi)| / (2 * Real.pi) ≤ 1 / 2 := by
    have hlast : (turns 31 : ℝ) * countAngle = 341782638 / 2 ^ 62 * (2 * Real.pi) := by
      rw [show turns 31 = 341782638 by decide, countAngle_eq]
      push_cast
      ring
    rw [hlast] at hangle
    rw [div_le_iff₀ hpi0]
    norm_num at hangle ⊢
    linarith
  have hsplit : (a.toInt : ℝ) - 2 ^ 31 * angle / (2 * Real.pi) - ((m + k : ℤ) : ℝ) * 2 ^ 31 =
      ((a.toInt : ℝ) - z / 2 ^ 31 - m * 2 ^ 31) +
        2 ^ 31 * (z * countAngle - angle - k * (2 * Real.pi)) / (2 * Real.pi) := by
    rw [hcounts]
    push_cast
    field_simp
    ring
  have hscaled : |2 ^ 31 * (z * countAngle - angle - k * (2 * Real.pi)) / (2 * Real.pi)| ≤
      1 / 2 := by
    rw [abs_div, abs_mul, abs_of_pos hpi0, abs_of_pos (show (0 : ℝ) < 2 ^ 31 by positivity)]
    exact hunits
  rw [hsplit]
  refine (abs_add_le _ _).trans ?_
  linarith

/-- The angle of a vector off the axes. -/
theorem fcqAtan2_off_axes {fy fx : Int64} (hy : fy ≠ Int64.minValue) (hx : fx ≠ Int64.minValue)
    (hy0 : fy ≠ 0) (hx0 : fx ≠ 0) :
    ∃ n a, atanNormal fy fx = .ok n ∧ AtanExact n ∧ fcqAtan2 fy fx = .ok a ∧
      (0 ≤ a.toInt ∧ a.toInt < 2 ^ 31) ∧ WithinUnit a (fx.toInt + fy.toInt * I : ℂ).arg := by
  obtain ⟨n, hnormal, hnx, hny, hnxle, hnyle⟩ := atanNormal_ok hy hx hx0
  have hL : 0 < largest fy fx :=
    (abs_pos.mpr fun h => hx0 (Int64.toInt_inj.mp h)).trans_le (le_max_left _ _)
  have hfull : |n.1.toInt| = 2 ^ 31 ∨ |n.2.toInt| = 2 ^ 31 := by
    rw [hnx, hny]
    exact (max_choice |fx.toInt| |fy.toInt|).imp
      (fun h => (roundAway_full hL h.symm).2) fun h => (roundAway_full hL h.symm).2
  have hexact := atanExact hnxle hnyle hfull
  obtain ⟨a, hfinish, hrange, m, hm⟩ := atanFinish_ok hexact.angle.1 hexact.angle.2
  refine ⟨n, a, hnormal, hexact, ?_, hrange, ?_⟩
  · rw [fcqAtan2_eq hy0 hx0, hnormal, ok_bind, hfinish]
  · have hstarted : Started (atanStartExact n.1.toInt n.2.toInt) :=
      started_exact hnxle hnyle hfull
    obtain ⟨θ, -, hθ, hclose⟩ := atanRoundExact_close hstarted
    obtain ⟨φ, hφ, hnear⟩ := quotients_points hL (rfl : largest fy fx = _)
    rw [← hnx, ← hny] at hφ
    have hne : (n.1.toInt + n.2.toInt * I : ℂ) ≠ 0 := by
      intro hzero
      have hre := congrArg Complex.re hzero
      have him := congrArg Complex.im hzero
      simp at hre him
      rw [hre, him] at hfull
      simp at hfull
    obtain ⟨k, hk⟩ := atanStartExact_points hφ hne hθ
    have hz : (atanRound (atanStart n) 32).z.toInt =
        (atanRoundExact (atanStartExact n.1.toInt n.2.toInt) 32).z := by
      rw [← hexact.start, ← toInts_z, hexact.rounds 32 (le_refl 32)]
    rw [hz] at hm
    generalize (atanRoundExact (atanStartExact n.1.toInt n.2.toInt) 32).z = z at hclose hm
    generalize (atanStartExact n.1.toInt n.2.toInt).z = z₀ at hclose hk
    exact within_unit hm hclose hnear hk

/-- A result that is exact, modulo a turn. -/
theorem withinUnit_of_quarters {a : Int64} {q m : ℤ} {angle : ℝ} (hangle : angle = q * (Real.pi / 2))
    (ha : a.toInt = q * 2 ^ 29 + m * 2 ^ 31) : WithinUnit a angle := by
  refine withinUnit_iff.mpr ⟨m, ?_⟩
  have hpi := Real.pi_ne_zero
  have hvalue : (2 : ℝ) ^ 31 * (q * (Real.pi / 2)) / (2 * Real.pi) = q * 2 ^ 29 := by
    field_simp
  have hzero : ((q * 2 ^ 29 + m * 2 ^ 31 : ℤ) : ℝ) - q * 2 ^ 29 - m * 2 ^ 31 = 0 := by
    push_cast
    ring
  rw [hangle, ha, hvalue, hzero, abs_zero]
  exact zero_le_one

/-- On an axis the angle is exact. -/
theorem fcqAtan2_on_axis {fy fx : Int64} (h : ¬(fx = 0 ∧ fy = 0)) (haxis : fy = 0 ∨ fx = 0) :
    ∃ a, fcqAtan2 fy fx = .ok a ∧ (0 ≤ a.toInt ∧ a.toInt < 2 ^ 31) ∧
      WithinUnit a (fx.toInt + fy.toInt * I : ℂ).arg := by
  have hsign : ∀ {x : Int64}, x > 0 ↔ 0 < x.toInt := Int64.lt_iff_toInt_lt
  rw [fcqAtan2, if_neg h]
  by_cases hy : fy = 0
  · subst hy
    rw [if_pos rfl, Int64.toInt_zero, Int.cast_zero, zero_mul, add_zero, ← ofReal_intCast]
    refine ⟨_, rfl, ?_⟩
    by_cases hx : fx > 0
    · rw [if_pos hx]
      refine ⟨by decide, withinUnit_of_quarters (q := 0) (m := 0) ?_ (by decide)⟩
      have hpos : (0 : ℝ) ≤ fx.toInt := by exact_mod_cast (hsign.mp hx).le
      rw [arg_ofReal_of_nonneg hpos, Int.cast_zero, zero_mul]
    · rw [if_neg hx]
      refine ⟨by decide, withinUnit_of_quarters (q := 2) (m := 0) ?_ (by decide)⟩
      have hne : fx.toInt ≠ 0 := fun hzero => h ⟨Int64.toInt_inj.mp hzero, rfl⟩
      have hneg : (fx.toInt : ℝ) < 0 := by
        have hlt := mt hsign.mpr hx
        exact_mod_cast (by omega : fx.toInt < 0)
      rw [arg_ofReal_of_neg hneg]
      push_cast
      ring
  · obtain rfl := haxis.resolve_left hy
    have hne : fy.toInt ≠ 0 := fun hzero => hy (Int64.toInt_inj.mp hzero)
    rw [if_neg hy, if_pos rfl, Int64.toInt_zero, Int.cast_zero, zero_add, ← ofReal_intCast]
    refine ⟨_, rfl, ?_⟩
    by_cases hpos : fy > 0
    · rw [if_pos hpos]
      refine ⟨by decide, withinUnit_of_quarters (q := 1) (m := 0) ?_ (by decide)⟩
      have hreal : (0 : ℝ) < fy.toInt := by exact_mod_cast hsign.mp hpos
      rw [arg_real_mul _ hreal, arg_I, Int.cast_one, one_mul]
    · rw [if_neg hpos]
      refine ⟨by decide, withinUnit_of_quarters (q := -1) (m := 1) ?_ (by decide)⟩
      have hreal : (0 : ℝ) < -fy.toInt := by
        have hlt := mt hsign.mpr hpos
        exact_mod_cast (by omega : 0 < -fy.toInt)
      have hopposite : ((fy.toInt : ℝ) : ℂ) * I = ((-fy.toInt : ℝ) : ℂ) * -I := by
        push_cast
        ring
      rw [hopposite, arg_real_mul _ hreal, arg_neg_I]
      push_cast
      ring

/-- The angle of every vector whose components have a magnitude: no register overflows,
and the result is within one unit, modulo a turn. -/
theorem fcqAtan2_accurate {fy fx : Int64} (hy : fy ≠ Int64.minValue) (hx : fx ≠ Int64.minValue)
    (h : ¬(fx = 0 ∧ fy = 0)) :
    ∃ a, fcqAtan2 fy fx = .ok a ∧ (0 ≤ a.toInt ∧ a.toInt < 2 ^ 31) ∧
      WithinUnit a (fx.toInt + fy.toInt * I : ℂ).arg ∧
      (fy ≠ 0 → fx ≠ 0 → ∃ n, atanNormal fy fx = .ok n ∧ AtanExact n) := by
  by_cases haxis : fy = 0 ∨ fx = 0
  · obtain ⟨a, hok, hrange, hunit⟩ := fcqAtan2_on_axis h haxis
    exact ⟨a, hok, hrange, hunit, fun hy0 hx0 => absurd haxis (not_or.mpr ⟨hy0, hx0⟩)⟩
  · obtain ⟨hy0, hx0⟩ := not_or.mp haxis
    obtain ⟨n, a, hnormal, hexact, hok, hrange, hunit⟩ := fcqAtan2_off_axes hy hx hy0 hx0
    exact ⟨a, hok, hrange, hunit, fun _ _ => ⟨n, hnormal, hexact⟩⟩

/-- A vector that points almost along an axis. -/
theorem fcqAtan2_accurate_slope :
    ∃ a, fcqAtan2 1 4000000000000 = .ok a ∧ (0 ≤ a.toInt ∧ a.toInt < 2 ^ 31) ∧
      WithinUnit a ((4000000000000 : Int64).toInt + (1 : Int64).toInt * I : ℂ).arg ∧
      ((1 : Int64) ≠ 0 → (4000000000000 : Int64) ≠ 0 →
        ∃ n, atanNormal 1 4000000000000 = .ok n ∧ AtanExact n) :=
  fcqAtan2_accurate (by decide) (by decide) (by decide)

end Xhive.Fieldctrl
