import Xhive.Kalman.Scalar

/-!
# The covariance of the scalar filter over a run

The gain is optimal for the rounded innovation variance, not for the exact one.
The exact variance is at most 7/4 of the rounded one, and a gain within twice
the optimal one does not increase the covariance; the half units lost by the
gain, `j`, `j*p` and `k*r` add eight units at most.
-/

namespace Xhive.Kalman

open Xhive.Support Xhive.Linears Xhive.Filters

/-! ## The Joseph form with a rounded gain

`N` is the unit of the working format, `H = h/N` the coefficient, `κ = k/N` the
gain and `τ = j/N`. -/

section Contraction

variable {N p r H n s κ τ J R : ℚ}

/-- The exact variance is at most 7/4 of the rounded one. -/
theorem variance_le (hr : 1 ≤ r) (hp : p = 0 ∨ 1 ≤ p) (hH : 0 ≤ H)
    (hn : |p * H - n| ≤ 1 / 2) (hn₁ : n = 0 ∨ 1 ≤ n) (hs : |n * H + r - s| ≤ 1 / 2)
    (hs₀ : n = 0 → s = r) (hrs : r ≤ s) : p * H * H + r ≤ 7 / 4 * s := by
  rw [abs_le] at hn hs
  rcases hn₁ with rfl | hn₁
  · -- nothing was added to the noise, and `H` is below one half
    rw [hs₀ rfl]
    rcases hp with rfl | hp
    · linarith
    · have hhalf : H ≤ 1 / 2 := by nlinarith
      nlinarith
  · have hratio : p * H ≤ 3 / 2 * n := by linarith
    nlinarith

/-- What the rounded gain loses against no update at all. -/
theorem gain_increase_le (hN : 2 ≤ N) (hs₁ : 1 ≤ s) (hs : s ≤ 2 * N ^ 2)
    (hvariance : p * H * H + r ≤ 7 / 4 * s) (hκ₀ : 0 ≤ κ) (hκ : |p * H / s - κ| ≤ 1 / (2 * N)) :
    (1 - κ * H) ^ 2 * p + κ ^ 2 * r + κ / 2 ≤ p + 4 := by
  have hNpos : 0 < N := by linarith
  have hspos : 0 < s := by linarith
  have hgain : s * κ - s / (2 * N) ≤ p * H := by
    have h := (abs_le.mp hκ).1
    have hscaled : s * (κ - 1 / (2 * N)) ≤ s * (p * H / s) :=
      mul_le_mul_of_nonneg_left (by linarith) hspos.le
    rw [mul_div_cancel₀ _ hspos.ne'] at hscaled
    have heq : s * (κ - 1 / (2 * N)) = s * κ - s / (2 * N) := by ring
    linarith
  -- the change is quadratic in the gain
  have hchange : (1 - κ * H) ^ 2 * p + κ ^ 2 * r ≤ p + s * (κ / N - κ ^ 2 / 4) := by
    have hexpand : (1 - κ * H) ^ 2 * p + κ ^ 2 * r =
        p + κ * (κ * (p * H * H + r) - 2 * (p * H)) := by ring
    have hinner : κ * (p * H * H + r) - 2 * (p * H) ≤ s * (1 / N - κ / 4) := by
      have hquad := mul_le_mul_of_nonneg_left hvariance hκ₀
      have heq : s / (2 * N) = s * (1 / N) / 2 := by field_simp
      rw [heq] at hgain
      linarith
    have hscaled := mul_le_mul_of_nonneg_left hinner hκ₀
    have heq : κ * (s * (1 / N - κ / 4)) = s * (κ / N - κ ^ 2 / 4) := by ring
    rw [hexpand]
    linarith
  rcases le_total κ 4 with hsmall | hlarge
  · -- the quadratic is largest at `2 / N`
    have hpeak : κ / N - κ ^ 2 / 4 ≤ 1 / N ^ 2 := by
      have hsq := sq_nonneg (1 / N - κ / 2)
      have heq : (1 / N - κ / 2) ^ 2 = 1 / N ^ 2 - κ / N + κ ^ 2 / 4 := by
        field_simp
        ring
      linarith
    have hbound : s * (κ / N - κ ^ 2 / 4) ≤ 2 := by
      calc
        s * (κ / N - κ ^ 2 / 4) ≤ s * (1 / N ^ 2) := mul_le_mul_of_nonneg_left hpeak hspos.le
        _ ≤ 2 * N ^ 2 * (1 / N ^ 2) := mul_le_mul_of_nonneg_right hs (by positivity)
        _ = 2 := by field_simp
    linarith
  · -- a large gain has lowered the covariance by more than its own rounding
    have hdrop : κ / N - κ ^ 2 / 4 ≤ -(κ / 2) := by
      have hunit : κ / N ≤ κ / 2 := div_le_div_of_nonneg_left hκ₀ (by norm_num) hN
      nlinarith
    have hscaled : s * (κ / N - κ ^ 2 / 4) ≤ -(κ / 2) := by nlinarith
    linarith

theorem complement_le (hN : 2 ≤ N) (hs₁ : 1 ≤ s) (hH : 0 ≤ H) (hH₁ : H ≤ 2 * N) (hr : 1 ≤ r)
    (hvariance : p * H * H + r ≤ 7 / 4 * s) (hκ₀ : 0 ≤ κ) (hκ : |p * H / s - κ| ≤ 1 / (2 * N)) :
    |1 - κ * H| ≤ 7 / 4 := by
  have hNpos : 0 < N := by linarith
  have hspos : 0 < s := by linarith
  have hupper : κ * H ≤ 11 / 4 := by
    have h := (abs_le.mp hκ).1
    have hratio : p * H / s * H ≤ 7 / 4 := by
      rw [div_mul_eq_mul_div, div_le_iff₀ hspos]
      linarith
    have hrounding : 1 / (2 * N) * H ≤ 1 := by
      rw [div_mul_eq_mul_div, one_mul, div_le_one (by linarith)]
      exact hH₁
    nlinarith
  rw [abs_le]
  constructor
  · linarith
  · have := mul_nonneg hκ₀ hH
    linarith

/-- The stored covariance, before its own rounding. -/
theorem joseph_le (hN : 2 ≤ N) (hp : p = 0 ∨ 1 ≤ p) (hpN : p ≤ N) (hr : 1 ≤ r) (hH : 0 ≤ H)
    (hH₁ : H ≤ 2 * N) (hn : |p * H - n| ≤ 1 / 2) (hn₁ : n = 0 ∨ 1 ≤ n)
    (hs : |n * H + r - s| ≤ 1 / 2) (hs₀ : n = 0 → s = r) (hrs : r ≤ s) (hs₁ : s ≤ 2 * N ^ 2)
    (hκ₀ : 0 ≤ κ) (hκ : |p * H / s - κ| ≤ 1 / (2 * N)) (hτ : |1 - κ * H - τ| ≤ 1 / (2 * N))
    (hJ : |τ * p - J| ≤ 1 / 2) (hR : |κ * r - R| ≤ 1 / 2) :
    J * τ + R * κ ≤ p + 8 := by
  have hNpos : 0 < N := by linarith
  have hp₀ : 0 ≤ p := by
    rcases hp with rfl | hp
    · exact le_rfl
    · linarith
  have hvariance := variance_le hr hp hH hn hn₁ hs hs₀ hrs
  have hincrease := gain_increase_le hN (hr.trans hrs) hs₁ hvariance hκ₀ hκ
  have hcomplement := complement_le hN (hr.trans hrs) hH hH₁ hr hvariance hκ₀ hκ
  have hhalf : 1 / (2 * N) ≤ 1 / 4 := by
    rw [div_le_div_iff₀ (by linarith) (by norm_num)]
    linarith
  obtain ⟨δ, hδ⟩ : ∃ δ, τ = 1 - κ * H + δ := ⟨τ - (1 - κ * H), by ring⟩
  have hδ₁ : |δ| ≤ 1 / (2 * N) := by
    rwa [show 1 - κ * H - τ = -δ by rw [hδ]; ring, abs_neg] at hτ
  have hτ₁ : |τ| ≤ 2 := by
    have htriangle := abs_add_le (1 - κ * H) δ
    rw [← hδ] at htriangle
    linarith
  -- the rounding of `j` reaches the covariance through `p`, at most one unit of `N`
  have hsquare : τ ^ 2 * p ≤ (1 - κ * H) ^ 2 * p + 2 := by
    have hcross : (2 * (1 - κ * H) + δ) * δ ≤ (15 / 4) * (1 / (2 * N)) := by
      have hfactor : |2 * (1 - κ * H) + δ| ≤ 15 / 4 := by
        have htriangle := abs_add_le (2 * (1 - κ * H)) δ
        rw [abs_mul, abs_of_pos (show (0 : ℚ) < 2 by norm_num)] at htriangle
        linarith
      calc
        (2 * (1 - κ * H) + δ) * δ ≤ |(2 * (1 - κ * H) + δ) * δ| := le_abs_self _
        _ = |2 * (1 - κ * H) + δ| * |δ| := abs_mul _ _
        _ ≤ (15 / 4) * (1 / (2 * N)) := mul_le_mul hfactor hδ₁ (abs_nonneg _) (by norm_num)
    have hscaled : (15 / 4) * (1 / (2 * N)) * p ≤ 2 := by
      have hunit : 1 / (2 * N) * p ≤ 1 / 2 := by
        rw [div_mul_eq_mul_div, one_mul, div_le_div_iff₀ (by linarith) (by norm_num)]
        linarith
      linarith
    have hmul := mul_le_mul_of_nonneg_right hcross hp₀
    have heq : τ ^ 2 * p = (1 - κ * H) ^ 2 * p + (2 * (1 - κ * H) + δ) * δ * p := by
      rw [hδ]
      ring
    linarith
  have hfirst : J * τ ≤ τ ^ 2 * p + 1 := by
    have hprod : |(τ * p - J) * τ| ≤ 1 / 2 * 2 := by
      rw [abs_mul]
      exact mul_le_mul hJ hτ₁ (abs_nonneg _) (by norm_num)
    have := (abs_le.mp hprod).1
    linarith [show (τ * p - J) * τ = τ ^ 2 * p - J * τ by ring]
  have hsecond : R * κ ≤ κ ^ 2 * r + κ / 2 := by
    have hlow := (abs_le.mp hR).1
    have := mul_le_mul_of_nonneg_right hlow hκ₀
    linarith [show (κ * r - R) * κ = κ ^ 2 * r - R * κ by ring]
  linarith

end Contraction

/-! ## The computed covariance -/

/-- The half unit of a rounding, on the scale of the working format. -/
theorem scaled_rounding_le (x : ℚ) :
    |x / 2 ^ 31 - (roundAway x : ℚ) / 2 ^ 31| ≤ 1 / (2 * 2 ^ 31) := by
  rw [← sub_div, abs_div, abs_of_pos (show (0 : ℚ) < 2 ^ 31 by norm_num),
    div_le_div_iff₀ (by norm_num) (by norm_num)]
  have := abs_sub_roundAway_le x
  linarith

/-- The sum of the two products of an update with its own gain. -/
theorem joseph_sum_le {p h r s k j jp kr : Int64} (hp : 0 ≤ p.toInt) (hpN : p.toInt ≤ 2 ^ 31)
    (hr : 0 < r.toInt) (hs : innovationVariance p h r = .ok s)
    (hk : k.toInt = roundAway ((h.toInt : ℚ) * p.toInt / s.toInt))
    (hj : kFixedSubProduct fixedOne k h = .ok j) (hjp : fixedAdapter.mul j p = .ok jp)
    (hkr : fixedAdapter.mul k r = .ok kr) :
    jp.toInt * j.toInt + kr.toInt * k.toInt ≤ (p.toInt + 8) * 2 ^ 31 := by
  obtain ⟨ph, hph, hsum, hrs⟩ := (ensures_innovationVariance hp).of_eq_ok hs
  have hspos : 0 < s.toInt := hr.trans_le hrs
  have hp' : (0 : ℚ) ≤ p.toInt := by exact_mod_cast hp
  have hr' : (0 : ℚ) ≤ r.toInt := by exact_mod_cast hr.le
  have hs' : (0 : ℚ) < s.toInt := by exact_mod_cast hspos
  -- `ph` and `k` have the sign of `h`, so the products are those of magnitudes
  have hphh : ph * h.toInt = |ph| * |h.toInt| := by
    rw [← abs_mul, abs_of_nonneg]
    rw [hph]
    exact roundAway_mul_self_nonneg h.toInt hp
  have hkh : k.toInt * h.toInt = |k.toInt| * |h.toInt| := by
    rw [← abs_mul, abs_of_nonneg]
    rw [hk]
    rcases le_total 0 h.toInt with hh | hh
    · have hh' : (0 : ℚ) ≤ h.toInt := by exact_mod_cast hh
      exact mul_nonneg (roundAway_nonneg (by positivity)) hh
    · have hh' : (h.toInt : ℚ) ≤ 0 := by exact_mod_cast hh
      refine mul_nonneg_of_nonpos_of_nonpos (roundAway_le ?_) hh
      rw [Int.cast_zero]
      exact div_nonpos_of_nonpos_of_nonneg (mul_nonpos_of_nonpos_of_nonneg hh' hp') hs'.le
  have hkr' := mul_ok hkr
  have hkrk : kr.toInt * k.toInt = |kr.toInt| * |k.toInt| := by
    rw [← abs_mul, abs_of_nonneg]
    rw [hkr']
    exact roundAway_mul_self_nonneg k.toInt hr.le
  have hphabs : |ph| = roundAway ((|h.toInt| : ℤ) * (p.toInt : ℚ) / 2 ^ 31) := by
    rw [hph, abs_roundAway, abs_div, abs_mul, abs_of_nonneg hp', Int.cast_abs]
    norm_num
  have hkabs : |k.toInt| = roundAway ((|h.toInt| : ℤ) * (p.toInt : ℚ) / s.toInt) := by
    rw [hk, abs_roundAway, abs_div, abs_mul, abs_of_nonneg hp', abs_of_pos hs', Int.cast_abs]
  have hkrabs : |kr.toInt| = roundAway ((|k.toInt| : ℤ) * (r.toInt : ℚ) / 2 ^ 31) := by
    rw [hkr', abs_roundAway, abs_div, abs_mul, abs_of_nonneg hr', Int.cast_abs]
    norm_num
  have hjv := kFixedSubProduct_ok hj
  have hjpv := mul_ok hjp
  have hh₁ : |h.toInt| ≤ 2 ^ 63 := abs_le.mpr ⟨by have := h.le_toInt; omega, h.toInt_lt.le⟩
  -- the facts of the contraction, on the scale of the working format
  have hp₁ : (p.toInt : ℚ) = 0 ∨ 1 ≤ (p.toInt : ℚ) := by
    rcases hp.eq_or_lt with hzero | hpos
    · exact Or.inl (by exact_mod_cast hzero.symm)
    · exact Or.inr (by exact_mod_cast hpos)
  have hH : (0 : ℚ) ≤ (|h.toInt| : ℤ) / 2 ^ 31 :=
    div_nonneg (by exact_mod_cast abs_nonneg _) (by norm_num)
  have hH₁ : ((|h.toInt| : ℤ) : ℚ) / 2 ^ 31 ≤ 2 * 2 ^ 31 := by
    rw [div_le_iff₀ (by norm_num)]
    have hcast : ((|h.toInt| : ℤ) : ℚ) ≤ ((2 ^ 63 : ℤ) : ℚ) := by exact_mod_cast hh₁
    exact hcast.trans (by norm_num)
  have hn : |(p.toInt : ℚ) * ((|h.toInt| : ℤ) / 2 ^ 31) - (|ph| : ℤ)| ≤ 1 / 2 := by
    rw [hphabs, ← mul_div_assoc, mul_comm (p.toInt : ℚ)]
    exact abs_sub_roundAway_le _
  have hn₁ : ((|ph| : ℤ) : ℚ) = 0 ∨ 1 ≤ ((|ph| : ℤ) : ℚ) := by
    rcases (abs_nonneg ph).eq_or_lt with hzero | hpos
    · exact Or.inl (by exact_mod_cast hzero.symm)
    · exact Or.inr (by exact_mod_cast hpos)
  have hs₂ : |((|ph| : ℤ) : ℚ) * ((|h.toInt| : ℤ) / 2 ^ 31) + r.toInt - s.toInt| ≤ 1 / 2 := by
    have hround := abs_sub_roundAway_le (((ph * h.toInt : ℤ) : ℚ) / 2 ^ 31)
    rw [hsum]
    rw [hphh] at hround ⊢
    push_cast at hround ⊢
    rw [← mul_div_assoc, add_sub_add_right_eq_sub]
    exact hround
  have hs₃ : ((|ph| : ℤ) : ℚ) = 0 → (s.toInt : ℚ) = r.toInt := by
    intro hzero
    have hph₀ : ph = 0 := abs_eq_zero.mp (by exact_mod_cast hzero)
    rw [hsum, hph₀, zero_mul, Int.cast_zero, zero_div, roundAway_zero, zero_add]
  have hs₄ : (s.toInt : ℚ) ≤ 2 * (2 ^ 31) ^ 2 := by
    have hlt : (s.toInt : ℚ) ≤ ((2 ^ 63 : ℤ) : ℚ) := by exact_mod_cast s.toInt_lt.le
    exact hlt.trans (by norm_num)
  have hκ₀ : (0 : ℚ) ≤ (|k.toInt| : ℤ) / 2 ^ 31 :=
    div_nonneg (by exact_mod_cast abs_nonneg _) (by norm_num)
  have hκ : |(p.toInt : ℚ) * ((|h.toInt| : ℤ) / 2 ^ 31) / s.toInt - (|k.toInt| : ℤ) / 2 ^ 31| ≤
      1 / (2 * 2 ^ 31) := by
    rw [hkabs, show (p.toInt : ℚ) * ((|h.toInt| : ℤ) / 2 ^ 31) / s.toInt =
      (|h.toInt| : ℤ) * (p.toInt : ℚ) / s.toInt / 2 ^ 31 by ring]
    exact scaled_rounding_le _
  have hτ : |1 - ((|k.toInt| : ℤ) : ℚ) / 2 ^ 31 * ((|h.toInt| : ℤ) / 2 ^ 31) - j.toInt / 2 ^ 31| ≤
      1 / (2 * 2 ^ 31) := by
    have hround := scaled_rounding_le
      (((fixedOne.toInt * 2 ^ 31 - k.toInt * h.toInt : ℤ) : ℚ) / 2 ^ 31)
    rw [← hjv, hkh, toInt_fixedOne] at hround
    push_cast at hround ⊢
    refine le_of_eq_of_le (congrArg abs ?_) hround
    ring
  have hJ : |(j.toInt : ℚ) / 2 ^ 31 * p.toInt - jp.toInt| ≤ 1 / 2 := by
    rw [hjpv, div_mul_eq_mul_div]
    exact abs_sub_roundAway_le _
  have hR : |((|k.toInt| : ℤ) : ℚ) / 2 ^ 31 * r.toInt - (|kr.toInt| : ℤ)| ≤ 1 / 2 := by
    rw [hkrabs, div_mul_eq_mul_div]
    exact abs_sub_roundAway_le _
  have hbound := joseph_le (by norm_num) hp₁ (by exact_mod_cast hpN) (by exact_mod_cast hr) hH hH₁
    hn hn₁ hs₂ hs₃ (by exact_mod_cast hrs) hs₄ hκ₀ hκ hτ hJ hR
  rw [hkrk]
  have hscaled := mul_le_mul_of_nonneg_right hbound (show (0 : ℚ) ≤ 2 ^ 31 by norm_num)
  have heq : ((jp.toInt : ℚ) * (j.toInt / 2 ^ 31) +
      (|kr.toInt| : ℤ) * ((|k.toInt| : ℤ) / 2 ^ 31)) * 2 ^ 31 =
      ((jp.toInt * j.toInt + |kr.toInt| * |k.toInt| : ℤ) : ℚ) := by
    push_cast
    ring
  rw [heq] at hscaled
  exact_mod_cast hscaled

/-! ## Storing a covariance -/

section Stored

variable {Q : Type} [FilterFormat Q]

theorem endpoint_nonneg {bits : ℕ} {n : ℤ} (hn : 0 ≤ n) : 0 ≤ endpoint bits n := by
  have hpow : (0 : ℤ) < 2 ^ bits := by positivity
  rw [endpoint]
  split
  · omega
  · exact hn

theorem endpoint_le (bits : ℕ) (n : ℤ) : endpoint bits n ≤ n := by
  rw [endpoint]
  split
  · omega
  · exact le_rfl

theorem quantizedCode_nonneg {bits : ℕ} {n : ℤ} (hn : 0 ≤ n) : 0 ≤ quantizedCode bits n := by
  have hn' : (0 : ℚ) ≤ n := by exact_mod_cast hn
  exact endpoint_nonneg (roundAway_nonneg (by positivity))

/-- Eight working units are eight of q31 and vanish in the rounding of q15. -/
theorem quantizedCode_le {P n : ℤ} (hn : 0 ≤ n)
    (hle : n ≤ (P * 2 ^ (31 - (QFormat.qBits Q).toNat) + 8) * 2 ^ 31) :
    quantizedCode (QFormat.qBits Q).toNat n ≤ P + 8 ∧
      (QFormat.qBits Q = 15 → quantizedCode (QFormat.qBits Q).toNat n ≤ P) := by
  have hn' : (0 : ℚ) ≤ n := by exact_mod_cast hn
  have hle' : (n : ℚ) ≤ (P * 2 ^ (31 - (QFormat.qBits Q).toNat) + 8) * 2 ^ 31 := by
    exact_mod_cast hle
  rcases QFormat.qBits_cases (Q := Q) with hb | hb
  · -- the sum is below the middle between two codes
    rw [hb, show (15 : UInt64).toNat = 15 from rfl] at hle' ⊢
    have hbelow : quantizedCode 15 n ≤ P := by
      apply (endpoint_le _ _).trans
      rw [roundAway_of_nonneg (by positivity)]
      apply Int.lt_add_one_iff.mp
      rw [Int.floor_lt]
      have hquot : (n : ℚ) / 2 ^ (62 - 15) ≤ P + 1 / 4 := by
        rw [div_le_iff₀ (by norm_num)]
        norm_num at hle' ⊢
        linarith
      push_cast
      linarith
    exact ⟨by omega, fun _ => hbelow⟩
  · rw [hb, show (31 : UInt64).toNat = 31 from rfl] at hle' ⊢
    refine ⟨(endpoint_le _ _).trans (roundAway_le ?_), fun h => absurd h (by decide)⟩
    rw [div_le_iff₀ (by norm_num)]
    norm_num at hle' ⊢
    linarith

/-! ## The calls -/

/-- The raw covariance of a state. -/
def KalmanScalar.code (s : KalmanScalar Q) : ℤ :=
  (QFormat.widen s.covariance).toInt

theorem toInt_load_nonneg_iff (x : Q) :
    0 ≤ (FilterFormat.load x).toInt ↔ 0 ≤ (QFormat.widen x).toInt := by
  have hpow : (0 : ℤ) < 2 ^ (31 - (QFormat.qBits Q).toNat) := by positivity
  rw [FilterFormat.toInt_load]
  exact mul_nonneg_iff_of_pos_right hpow

theorem toInt_load_le (x : Q) : (FilterFormat.load x).toInt ≤ 2 ^ 31 := by
  have hlt := QFormat.toInt_widen_lt x
  rw [FilterFormat.toInt_load]
  rcases QFormat.qBits_cases (Q := Q) with hb | hb
  · rw [hb, show (15 : UInt64).toNat = 15 from rfl] at hlt ⊢
    omega
  · rw [hb, show (31 : UInt64).toNat = 31 from rfl] at hlt ⊢
    omega

theorem int64_not_neg {x : Int64} : ¬x < 0 ↔ 0 ≤ x.toInt := by
  rw [Int64.lt_iff_toInt_lt, Int64.toInt_zero, not_lt]

theorem int64_not_nonpos {x : Int64} : ¬x ≤ 0 ↔ 0 < x.toInt := by
  rw [Int64.le_iff_toInt_le, Int64.toInt_zero, not_le]

/-- A reset stores a covariance it found nonnegative. -/
theorem scalarResetNext_nonneg {estimate covariance : Q} {t : KalmanScalar Q}
    (h : scalarResetNext estimate covariance = .ok t) : 0 ≤ t.code := by
  by_cases hneg : FilterFormat.load covariance < 0
  · rw [scalarResetNext, if_pos hneg] at h
    cases h
  · rw [scalarResetNext, if_neg hneg] at h
    obtain ⟨x, -, h⟩ := ok_of_bind h
    obtain ⟨p, hp, h⟩ := ok_of_bind h
    cases h
    have hload := int64_not_neg.mp hneg
    have hrange : |(FilterFormat.load covariance).toInt| ≤ 2 ^ 31 := by
      rw [abs_of_nonneg hload]
      exact toInt_load_le covariance
    obtain ⟨stored, hcall, hstored⟩ :=
      FilterFormat.exportFixed_ok (FilterFormat.load covariance) (FilterFormat.zero : Q) hrange
    rw [hcall] at hp
    cases hp
    have hload' : (0 : ℚ) ≤ (FilterFormat.load covariance).toInt := by exact_mod_cast hload
    rw [KalmanScalar.code, hstored]
    exact endpoint_nonneg (roundAway_nonneg (by positivity))

/-- Both terms of a prediction are nonnegative. -/
theorem scalarPredictNext_nonneg {transition : Int64} {noise : Q} {s t : KalmanScalar Q}
    (h : scalarPredictNext transition noise s = .ok t) : 0 ≤ t.code := by
  by_cases hneg : FilterFormat.load s.covariance < 0 ∨ FilterFormat.load noise < 0
  · rw [scalarPredictNext, if_pos hneg] at h
    cases h
  · rw [scalarPredictNext, if_neg hneg] at h
    obtain ⟨hp, hq⟩ := not_or.mp hneg
    obtain ⟨x, -, h⟩ := ok_of_bind h
    obtain ⟨ap, hap, h⟩ := ok_of_bind h
    obtain ⟨c, hc, h⟩ := ok_of_bind h
    cases h
    have hcode := (ensures_kTwoProducts _ fixedOne ap transition).of_eq_ok hc
    rw [KalmanScalar.code, hcode, mul_ok hap, toInt_fixedOne]
    have hsign := roundAway_mul_self_nonneg transition.toInt (int64_not_neg.mp hp)
    have hnoise := int64_not_neg.mp hq
    exact quantizedCode_nonneg (by omega)

/-- The covariance an update computes from the covariance `p` of a state. -/
theorem ensures_josephCovariance {p : Q} {h r s k : Int64} (hp : 0 ≤ (QFormat.widen p).toInt)
    (hr : 0 < r.toInt) (hs : innovationVariance (FilterFormat.load p) h r = .ok s)
    (hk : kGain (FilterFormat.load p) h s = .ok k) :
    Ensures (josephCovariance (FilterFormat.load p) h r k : Except Status Q)
      (fun c => 0 ≤ (QFormat.widen c).toInt ∧
        (QFormat.widen c).toInt ≤ (QFormat.widen p).toInt + 8 ∧
        (QFormat.qBits Q = 15 → (QFormat.widen c).toInt ≤ (QFormat.widen p).toInt))
      (· = .errorRange) := by
  have hload : 0 ≤ (FilterFormat.load p).toInt := (toInt_load_nonneg_iff p).mpr hp
  obtain ⟨-, -, -, hle⟩ := (ensures_innovationVariance hload).of_eq_ok hs
  have hs₀ : s ≠ 0 := by
    rintro rfl
    exact absurd (hr.trans_le hle) (lt_irrefl 0)
  rw [kGain_eq _ _ hs₀, mul_comm] at hk
  have hkv := fixedResult_eq_ok hk
  rw [josephCovariance]
  cases hj : kFixedSubProduct fixedOne k h with
  | error e => exact (fixed_subProduct _ _ _).of_eq_error hj
  | ok j =>
      rw [ok_bind]
      cases hjp : fixedAdapter.mul j (FilterFormat.load p) with
      | error e => exact mul_error hjp
      | ok jp =>
          rw [ok_bind]
          cases hkr : fixedAdapter.mul k r with
          | error e => exact mul_error hkr
          | ok kr =>
              rw [ok_bind]
              refine (ensures_kTwoProducts jp j kr k).imp fun c hc => ?_
              have hfirst := roundAway_mul_self_nonneg j.toInt hload
              have hsecond := roundAway_mul_self_nonneg k.toInt hr.le
              rw [← mul_ok hjp] at hfirst
              rw [← mul_ok hkr] at hsecond
              have hsum := joseph_sum_le hload (toInt_load_le p) hr hs hkv hj hjp hkr
              rw [FilterFormat.toInt_load] at hsum
              rw [hc]
              exact ⟨quantizedCode_nonneg (by omega), quantizedCode_le (by omega) hsum⟩

/-- An update from a nonnegative covariance with a positive noise. -/
theorem ensures_scalarUpdateNext {measurement noise : Q} {observation : Int64}
    {s : KalmanScalar Q} (hs : 0 ≤ s.code) (hnoise : 0 < (FilterFormat.load noise).toInt) :
    Ensures (scalarUpdateNext measurement observation noise s)
      (fun t => 0 ≤ t.code ∧ t.code ≤ s.code + 8 ∧
        (QFormat.qBits Q = 15 → t.code ≤ s.code)) (· = .errorRange) := by
  have hp : 0 ≤ (FilterFormat.load s.covariance).toInt := (toInt_load_nonneg_iff _).mpr hs
  rw [scalarUpdateNext, if_neg (not_or.mpr ⟨int64_not_neg.mpr hp, int64_not_nonpos.mpr hnoise⟩)]
  cases hvar : innovationVariance (FilterFormat.load s.covariance) observation
      (FilterFormat.load noise) with
  | error e => exact (ensures_innovationVariance hp).of_eq_error hvar
  | ok var =>
      obtain ⟨ph, -, -, hle⟩ := (ensures_innovationVariance hp).of_eq_ok hvar
      have hpos : 0 < var.toInt := hnoise.trans_le hle
      have hvar₀ : var ≠ 0 := by
        rintro rfl
        exact lt_irrefl 0 hpos
      simp only [ok_bind]
      rw [if_neg (int64_not_nonpos.mpr hpos)]
      cases hk : kGain (FilterFormat.load s.covariance) observation var with
      | error e =>
          rw [kGain_eq _ _ hvar₀] at hk
          exact fixedResult_eq_error hk
      | ok k =>
          rw [ok_bind]
          refine ((fixed_subProduct _ _ _).imp fun _ _ => trivial).seq
            fun residual (_ : True) => ?_
          refine ((ensures_kTwoProducts _ _ _ _).imp fun _ _ => trivial).seq
            fun estimate (_ : True) => ?_
          exact (ensures_josephCovariance hs hnoise hvar hk).seq fun covariance hc => hc

/-! ## Runs -/

theorem ScalarCall.perform_eq_ok {isNull : Bool} {call : ScalarCall Q} {s t : KalmanScalar Q}
    (h : call.perform isNull s = (.ok (), t)) : call.next s = .ok t := by
  rw [ScalarCall.perform] at h
  obtain ⟨_, -, h⟩ := Procedure.attempt_bind_eq_ok h
  rw [Procedure.read_bind] at h
  obtain ⟨next, hnext, h⟩ := Procedure.attempt_bind_eq_ok h
  cases h
  exact hnext

theorem ScalarCall.perform_eq_error {call : ScalarCall Q} {s : KalmanScalar Q} {e : Status}
    (h : (call.perform false s).1 = .error e) : call.next s = .error e := by
  cases hnext : call.next s with
  | ok t =>
      have hperform : call.perform false s = (.ok (), t) := by
        rw [ScalarCall.perform, if_neg nofun]
        exact (Procedure.attempt_bind_ok hnext _ s)
      rw [hperform] at h
      cases h
  | error e' =>
      have hperform : (call.perform false s).1 = .error e' := by
        rw [ScalarCall.perform, if_neg nofun]
        exact congrArg Prod.fst (Procedure.bind_error (s := s) (congrArg (·, s) hnext))
      rw [hperform] at h
      rw [Except.error.inj h]

theorem ScalarCall.perform_atomic (isNull : Bool) (call : ScalarCall Q) :
    (call.perform isNull).Atomic := by
  refine Procedure.Atomic.attempt_bind _ fun _ => ?_
  refine Procedure.Atomic.read_bind _ fun s => ?_
  exact Procedure.Atomic.attempt_bind _ fun next => (Procedure.Unfailing.write _).atomic

/-- No call stores a negative covariance. -/
theorem ScalarCall.next_nonneg {call : ScalarCall Q} {s t : KalmanScalar Q} (hs : 0 ≤ s.code)
    (h : call.next s = .ok t) : 0 ≤ t.code := by
  cases call with
  | reset estimate covariance => exact scalarResetNext_nonneg h
  | predict transition noise => exact scalarPredictNext_nonneg h
  | update measurement observation noise =>
      rcases lt_or_ge 0 (FilterFormat.load noise).toInt with hpos | hneg
      · exact ((ensures_scalarUpdateNext hs hpos).of_eq_ok h).1
      · rw [ScalarCall.next, scalarUpdateNext,
          if_pos (Or.inr (not_not.mp fun hn => hneg.not_gt (int64_not_nonpos.mp hn)))] at h
        cases h

theorem scalarMachine_preserves :
    (scalarMachine Q).Preserves fun s => 0 ≤ s.code := by
  intro call s hs
  exact (call.2.perform_atomic call.1).preserves hs fun _ _ hok =>
    call.2.next_nonneg hs (ScalarCall.perform_eq_ok hok)

/-- An update with a positive noise answers `RANGE` or stores a covariance that
has not grown beyond eight units. -/
theorem ScalarCall.perform_update {isNull : Bool} {measurement noise : Q} {observation : Int64}
    {s : KalmanScalar Q} (hs : 0 ≤ s.code) (hnoise : 0 < (QFormat.widen noise).toInt) :
    (∀ var, innovationVariance (FilterFormat.load s.covariance) observation
      (FilterFormat.load noise) = .ok var → 0 < var.toInt) ∧
    ((ScalarCall.update measurement observation noise).perform isNull s).1 ≠
      .error .errorDomain ∧
    ∀ t, (ScalarCall.update measurement observation noise).perform isNull s = (.ok (), t) →
      t.code ≤ s.code + 8 ∧ (QFormat.qBits Q = 15 → t.code ≤ s.code) := by
  have hload : 0 < (FilterFormat.load noise).toInt := by
    rw [FilterFormat.toInt_load]
    positivity
  have hspec : Ensures ((ScalarCall.update measurement observation noise).next s)
      (fun t => 0 ≤ t.code ∧ t.code ≤ s.code + 8 ∧ (QFormat.qBits Q = 15 → t.code ≤ s.code))
      (· = .errorRange) := ensures_scalarUpdateNext hs hload
  refine ⟨fun var hvar => ?_, ?_, fun t ht => ?_⟩
  · obtain ⟨-, -, -, hle⟩ :=
      (ensures_innovationVariance ((toInt_load_nonneg_iff _).mpr hs)).of_eq_ok hvar
    exact hload.trans_le hle
  · cases isNull with
    | true => exact nofun
    | false =>
        intro hdomain
        exact absurd (hspec.of_eq_error (ScalarCall.perform_eq_error hdomain)) nofun
  · exact (hspec.of_eq_ok (ScalarCall.perform_eq_ok ht)).2

/-- Over every run after a reset: the covariance is nonnegative, a failing call
changes nothing, and an update with a positive noise forms a positive variance
and does not raise the covariance by more than eight units of q31, or at all in
q15. -/
theorem kalman_scalar_run {estimate covariance : Q} {s t : KalmanScalar Q}
    (hreset : (ScalarCall.reset estimate covariance).perform false s = (.ok (), t))
    (calls : List (Bool × ScalarCall Q)) :
    ∀ u, ((scalarMachine Q).run calls t).2 = u →
      0 ≤ u.code ∧ ∀ isNull, ∀ next : ScalarCall Q,
        (∀ v, next.perform isNull u = (.ok (), v) → 0 ≤ v.code) ∧
        (∀ e v, next.perform isNull u = (.error e, v) → v = u) ∧
        ∀ measurement observation noise, next = .update measurement observation noise →
          0 < (QFormat.widen noise).toInt →
            (∀ var, innovationVariance (FilterFormat.load u.covariance) observation
              (FilterFormat.load noise) = .ok var → 0 < var.toInt) ∧
            (next.perform isNull u).1 ≠ .error .errorDomain ∧
            ∀ v, next.perform isNull u = (.ok (), v) →
              v.code ≤ u.code + 8 ∧ (QFormat.qBits Q = 15 → v.code ≤ u.code) := by
  rintro u rfl
  have ht : 0 ≤ t.code := scalarResetNext_nonneg (ScalarCall.perform_eq_ok hreset)
  have hu := scalarMachine_preserves.run calls ht
  refine ⟨hu, fun isNull next => ⟨fun v hv => ?_, fun e v hv => ?_, ?_⟩⟩
  · exact next.next_nonneg hu (ScalarCall.perform_eq_ok hv)
  · exact next.perform_atomic isNull _ e v hv
  · rintro measurement observation noise rfl hnoise
    exact ScalarCall.perform_update hu hnoise

/-- A q15 filter that starts at a variance of one half and makes an update. -/
theorem kalman_scalar_run_half :
    0 ≤ ((scalarMachine Int16).run [(false, .update 0 fixedOne 1)] ⟨0, 16384⟩).2.code :=
  (kalman_scalar_run (show (ScalarCall.reset 0 16384).perform false (⟨0, 0⟩ : KalmanScalar Int16) =
      (.ok (), ⟨0, 16384⟩) from Prod.ext (by decide +kernel) (by decide +kernel))
    [(false, .update 0 fixedOne 1)] _ rfl).1

end Stored

end Xhive.Kalman
