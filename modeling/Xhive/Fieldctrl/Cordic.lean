import Mathlib.Tactic.NormNum
import Xhive.Fieldctrl.Transforms

/-!
# What the CORDIC loops keep

A rotation by truncated shifts grows the squared length by the factor of an
exact one and a rounding that is small beside it, whichever way it turns.  So
the rotated unit vector stays inside the unit circle to half a unit of the
result, and a sine or a cosine never exceeds one.  Angles are wrapped into a
turn.
-/

namespace Xhive.Fieldctrl

open Xhive.Support Xhive.Linears Xhive.Filters

/-! ## Truncated shifts -/

/-- The parts of a truncated quotient: what it leaves, and its size. -/
theorem tdiv_spec (x : ℤ) {m : ℤ} (hm : 0 < m) :
    |x - m * x.tdiv m| < m ∧ |m * x.tdiv m| ≤ |x| := by
  constructor
  · rw [← Int.tmod_def, abs_lt]
    exact ⟨Int.lt_tmod_of_pos x hm, Int.tmod_lt_of_pos x hm⟩
  · have hquotient : |x.tdiv m| = |x| / m := by
      rw [Int.abs_eq_natAbs, Int.natAbs_tdiv, Int.abs_eq_natAbs]
      change ((x.natAbs / m.natAbs : ℕ) : ℤ) = _
      rw [Int.natCast_ediv, Int.natAbs_of_nonneg hm.le]
    rw [abs_mul, abs_of_pos hm, hquotient]
    exact Int.mul_ediv_self_le hm.ne'

theorem toInt_fcCoordShift {v : Int64} (hv : v ≠ Int64.minValue) {i : ℕ} (hi : i < 64) :
    (fcCoordShift v i).toInt = v.toInt.tdiv (2 ^ i) := by
  have hne : v.toInt ≠ -2 ^ 63 := fun h => hv (Int64.toInt_inj.mp h)
  have hlow := v.le_toInt
  have hhigh := v.toInt_lt
  have hmagnitude : (if v < 0 then 0 - v.toUInt64 else v.toUInt64).toNat = v.toInt.natAbs := by
    have hbits := toNat_toUInt64 v
    have hlt := v.toUInt64.toNat_lt
    simp only [lt_zero_iff_toInt]
    split
    · rw [if_pos ‹_›] at hbits
      rw [UInt64.toNat_sub, UInt64.toNat_zero]
      omega
    · rw [if_neg ‹_›] at hbits
      omega
  have hshift : ((if v < 0 then 0 - v.toUInt64 else v.toUInt64) >>> UInt64.ofNat i).toNat =
      v.toInt.natAbs / 2 ^ i := by
    rw [UInt64.toNat_shiftRight, hmagnitude, UInt64.toNat_ofNat', Nat.mod_mod_of_dvd _ (by decide),
      Nat.mod_eq_of_lt hi, Nat.shiftRight_eq_div_pow]
  have hsmall : v.toInt.natAbs / 2 ^ i < 2 ^ 63 := (Nat.div_le_self _ _).trans_lt (by omega)
  have hvalue := toInt_toInt64_of_lt (hshift ▸ hsmall)
  rw [hshift] at hvalue
  rw [fcCoordShift]
  have hdiv : ((v.toInt.natAbs / 2 ^ i : ℕ) : ℤ) = (v.toInt.natAbs : ℤ).tdiv (2 ^ i) := by
    rw [Int.ofNat_tdiv, Nat.cast_pow, Nat.cast_ofNat]
  rw [hdiv] at hvalue
  by_cases hneg : v < 0
  · have hsign := (lt_zero_iff_toInt v).mp hneg
    have hflip : (v.toInt.natAbs : ℤ) = -v.toInt := by omega
    rw [if_pos hneg, toInt_neg_of_fits, hvalue, hflip, Int.neg_tdiv, neg_neg]
    rw [hvalue, ← hdiv]
    constructor <;> omega
  · have hsign := not_lt.mp (mt (lt_zero_iff_toInt v).mpr hneg)
    rw [if_neg hneg, hvalue, Int.natAbs_of_nonneg hsign]

/-! ## The length of a rotated vector -/

/-- The squared length. -/
def Rotation.norm (v : Rotation) : ℤ := v.x.toInt ^ 2 + v.y.toInt ^ 2

/-- One turn in integers: the exact growth, and a rounding below four times the
larger coordinate. -/
theorem norm_turn_le {x y dx dy m b : ℤ} (hm : 0 < m) (hx : |x - m * dx| < m)
    (hdx : |m * dx| ≤ |x|) (hy : |y - m * dy| < m) (hdy : |m * dy| ≤ |y|)
    (hxb : |x| ≤ b) (hyb : |y| ≤ b) :
    (x - dy) ^ 2 + (y + dx) ^ 2 ≤ x ^ 2 + y ^ 2 + (x ^ 2 + y ^ 2) / m ^ 2 + 4 * b := by
  have hsquares : dx ^ 2 + dy ^ 2 ≤ (x ^ 2 + y ^ 2) / m ^ 2 := by
    rw [Int.le_ediv_iff_mul_le (by positivity)]
    have h₁ := sq_le_sq.mpr hdx
    have h₂ := sq_le_sq.mpr hdy
    linarith [mul_pow m dx 2, mul_pow m dy 2]
  have hrest : ∀ {r d c : ℤ}, |r| < m → |m * d| ≤ |c| → |c| ≤ b → |r * d| ≤ b := by
    intro r d c hr hd hc
    calc |r * d| = |r| * |d| := abs_mul r d
      _ ≤ m * |d| := mul_le_mul_of_nonneg_right hr.le (abs_nonneg d)
      _ = |m * d| := by rw [abs_mul, abs_of_pos hm]
      _ ≤ b := hd.trans hc
  have hcross : y * dx - x * dy ≤ 2 * b := by
    have h₁ := (abs_le.mp (hrest hy hdx hxb)).2
    have h₂ := (abs_le.mp (hrest hx hdy hyb)).1
    linarith
  linarith [sub_sq x dy, add_sq y dx]

/-- A bound on the squared length after each turn of the sine loop. -/
def normBound : ℕ → ℤ
  | 0 => 700114967507363239 ^ 2
  | i + 1 => normBound i + normBound i / 4 ^ i + 2 ^ 64

theorem normBound_mono : Monotone normBound := by
  apply monotone_nat_of_le_succ
  intro i
  have hpos : ∀ j, 0 ≤ normBound j := by
    intro j
    induction j with
    | zero => exact sq_nonneg _
    | succ j ih =>
        rw [normBound]
        have := Int.ediv_nonneg ih (show (0 : ℤ) ≤ 4 ^ j by positivity)
        linarith
  have := Int.ediv_nonneg (hpos i) (show (0 : ℤ) ≤ 4 ^ i by positivity)
  rw [normBound]
  linarith

/-- The last bound is the unit circle, to half a unit of the result. -/
theorem normBound_last : normBound 32 ≤ (2 ^ 60 + 2 ^ 27) ^ 2 := by
  norm_num [normBound]

theorem coordinate_le {v : Rotation} (h : v.norm ≤ (2 ^ 60 + 2 ^ 27) ^ 2) :
    |v.x.toInt| ≤ 2 ^ 60 + 2 ^ 27 ∧ |v.y.toInt| ≤ 2 ^ 60 + 2 ^ 27 := by
  rw [Rotation.norm] at h
  constructor
  · exact abs_le_of_sq_le_sq (by linarith [sq_nonneg v.y.toInt]) (by norm_num)
  · exact abs_le_of_sq_le_sq (by linarith [sq_nonneg v.x.toInt]) (by norm_num)

/-- A turn either way stays within the next bound. -/
theorem rotate_norm {i : ℕ} (hi : i < 32) {v : Rotation} (h : v.norm ≤ normBound i) :
    (rotate i v).norm ≤ normBound (i + 1) := by
  have hsmall := h.trans ((normBound_mono hi.le).trans normBound_last)
  obtain ⟨hx, hy⟩ := coordinate_le hsmall
  have hm : (0 : ℤ) < 2 ^ i := by positivity
  have hne : ∀ {a : Int64}, |a.toInt| ≤ 2 ^ 60 + 2 ^ 27 → a ≠ Int64.minValue := by
    rintro a ha rfl
    rw [Int64.toInt_minValue] at ha
    norm_num at ha
  have hdx := toInt_fcCoordShift (hne hx) (hi.trans (by decide))
  have hdy := toInt_fcCoordShift (hne hy) (hi.trans (by decide))
  obtain ⟨hxrest, hxquotient⟩ := tdiv_spec v.x.toInt hm
  obtain ⟨hyrest, hyquotient⟩ := tdiv_spec v.y.toInt hm
  rw [← hdx] at hxrest hxquotient
  rw [← hdy] at hyrest hyquotient
  have hshift : ∀ {d a : ℤ}, |2 ^ i * d| ≤ |a| → |d| ≤ |a| := by
    intro d a hd
    rw [abs_mul, abs_of_pos hm] at hd
    exact (le_mul_of_one_le_left (abs_nonneg d) hm).trans hd
  have hfits : ∀ {a d c : Int64}, |a.toInt| ≤ 2 ^ 60 + 2 ^ 27 → |c.toInt| ≤ 2 ^ 60 + 2 ^ 27 →
      |d.toInt| ≤ |c.toInt| → (a + d).toInt = a.toInt + d.toInt ∧
        (a - d).toInt = a.toInt - d.toInt := by
    intro a d c ha hc hd
    obtain ⟨halow, hahigh⟩ := abs_le.mp ha
    obtain ⟨hdlow, hdhigh⟩ := abs_le.mp (hd.trans hc)
    constructor
    · apply toInt_add_of_fits
      constructor <;> omega
    · apply toInt_sub_of_fits
      constructor <;> omega
  obtain ⟨hxadd, hxsub⟩ := hfits hx hy (hshift hyquotient)
  obtain ⟨hyadd, hysub⟩ := hfits hy hx (hshift hxquotient)
  have hquarter : ((2 : ℤ) ^ i) ^ 2 = 4 ^ i := by
    rw [← pow_mul, mul_comm, pow_mul]
    norm_num
  have hgrow : v.norm / 4 ^ i ≤ normBound i / 4 ^ i :=
    Int.ediv_le_ediv (by positivity) h
  rw [Rotation.norm] at h hgrow
  rw [rotate, Rotation.norm, normBound]
  split
  · have hturn := norm_turn_le hm hxrest hxquotient hyrest hyquotient hx hy
    rw [hquarter] at hturn
    dsimp only
    rw [hxsub, hyadd]
    linarith
  · have hturn := norm_turn_le hm hyrest hyquotient hxrest hxquotient hy hx
    rw [hquarter, add_comm (v.y.toInt ^ 2)] at hturn
    dsimp only
    rw [hxadd, hysub]
    linarith

theorem norm_start (z : Int64) :
    (⟨700114967507363239, 0, z⟩ : Rotation).norm = normBound 0 := by
  have hstart : (700114967507363239 : Int64).toInt = 700114967507363239 := rfl
  simp only [Rotation.norm, normBound, hstart, Int64.toInt_zero]
  rw [zero_pow two_ne_zero, add_zero]

/-- The rotated vector of the sine loop. -/
theorem rotation_norm (z : Int64) :
    (foldRange 0 32 ⟨700114967507363239, 0, z⟩ rotate).norm ≤ (2 ^ 60 + 2 ^ 27) ^ 2 := by
  refine le_trans ?_ normBound_last
  refine foldRange_induction (fun i (v : Rotation) => v.norm ≤ normBound i) (Nat.zero_le 32)
    (norm_start z).le ?_
  intro i v _ hi hv
  exact rotate_norm hi hv

/-! ## Sine and cosine -/

theorem checked_muldiv (a b : Int64) {divisor : Int64} (hd : divisor ≠ 0) :
    checked (linearsFixedMuldiv a b divisor (some 0)) =
      fixedResult (roundAway ((a.toInt : ℚ) * b.toInt / divisor.toInt)) := by
  rw [linearsFixedMuldiv_eq a b 0 hd, checked_checkedCall]

/-- A coordinate of the loop, with either sign, as a value of `[-1, 1]`. -/
theorem checked_coordinate {sign x : Int64} (hsign : sign = 1 ∨ sign = -1)
    (hx : |x.toInt| ≤ 2 ^ 60 + 2 ^ 27) :
    ∃ c : Int64, checked (linearsFixedMuldiv (sign * x) 1 536870912 (some 0)) = .ok c ∧
      |c.toInt| ≤ 2 ^ 31 := by
  have hproduct : |(sign * x).toInt| ≤ 2 ^ 60 + 2 ^ 27 := by
    obtain ⟨hlow, hhigh⟩ := abs_le.mp hx
    rcases hsign with rfl | rfl
    · rwa [toInt_mul_of_fits, show (1 : Int64).toInt = 1 from rfl, one_mul]
      rw [show (1 : Int64).toInt = 1 from rfl, one_mul]
      exact fitsInt64_toInt x
    · rwa [toInt_mul_of_fits, show (-1 : Int64).toInt = -1 from rfl, neg_one_mul, abs_neg]
      rw [show (-1 : Int64).toInt = -1 from rfl, neg_one_mul]
      constructor <;> omega
  have hround : |roundAway (((sign * x).toInt : ℚ) * (1 : Int64).toInt /
      (536870912 : Int64).toInt)| ≤ 2 ^ 31 := by
    apply abs_roundAway_le_of_lt
    have hcast : |((sign * x).toInt : ℚ)| ≤ 2 ^ 60 + 2 ^ 27 := by exact_mod_cast hproduct
    rw [show (1 : Int64).toInt = 1 from rfl, show (536870912 : Int64).toInt = 2 ^ 29 from rfl,
      Int.cast_one, mul_one, abs_div, div_lt_iff₀ (by norm_num)]
    norm_num at hcast ⊢
    linarith
  obtain ⟨hlow, hhigh⟩ := abs_le.mp hround
  have hfits := fixedResult_of_fits (show FitsInt64 (roundAway (((sign * x).toInt : ℚ) *
    (1 : Int64).toInt / (536870912 : Int64).toInt)) by constructor <;> omega)
  refine ⟨_, (checked_muldiv _ _ (by decide)).trans hfits, ?_⟩
  rwa [fixedResult_eq_ok hfits]

/-- What the loop leaves for an angle within a quarter turn, or its opposite. -/
theorem rotated_ok {turned : Int64 × Int64} (hsign : turned.2 = 1 ∨ turned.2 = -1) :
    let v := foldRange 0 32 ⟨700114967507363239, 0, turned.1⟩ rotate
    ∃ s c : Int64, (do
      let s ← checked (linearsFixedMuldiv (turned.2 * v.y) 1 536870912 (some 0))
      let c ← checked (linearsFixedMuldiv (turned.2 * v.x) 1 536870912 (some 0))
      .ok (s, c) : Except Status (Int64 × Int64)) = .ok (s, c) ∧
      |s.toInt| ≤ 2 ^ 31 ∧ |c.toInt| ≤ 2 ^ 31 := by
  obtain ⟨hx, hy⟩ := coordinate_le (rotation_norm turned.1)
  obtain ⟨s, hs, hsle⟩ := checked_coordinate hsign hy
  obtain ⟨c, hc, hcle⟩ := checked_coordinate hsign hx
  refine ⟨s, c, ?_, hsle, hcle⟩
  rw [hs, ok_bind, hc, ok_bind]

/-- Every sine and cosine lies in `[-1, 1]`. -/
theorem fcqSincos_ok (a : Int64) :
    ∃ s c, fcqSincos a = .ok (s, c) ∧ |s.toInt| ≤ 2 ^ 31 ∧ |c.toInt| ≤ 2 ^ 31 := by
  rw [fcqSincos]
  dsimp only
  split
  · refine ⟨_, _, rfl, ?_, ?_⟩
    · split
      · decide
      · split <;> decide
    · split
      · decide
      · split <;> decide
  · apply rotated_ok
    split_ifs <;> simp

/-! ## Angles -/

/-- A wrapped angle lies in a turn. -/
theorem fcqWrap_range (x : Int64) : 0 ≤ (fcqWrap x).toInt ∧ (fcqWrap x).toInt < 2 ^ 31 := by
  have hrest : (x % fixedOne).toInt = x.toInt.tmod (2 ^ 31) := by
    rw [Int64.toInt_mod, toInt_fixedOne]
  have hlow := Int.lt_tmod_of_pos x.toInt (show (0 : ℤ) < 2 ^ 31 by norm_num)
  have hhigh := Int.tmod_lt_of_pos x.toInt (show (0 : ℤ) < 2 ^ 31 by norm_num)
  rw [← hrest] at hlow hhigh
  rw [fcqWrap]
  split
  · rename_i hneg
    rw [lt_zero_iff_toInt] at hneg
    rw [toInt_add_of_fits, toInt_fixedOne]
    · omega
    · rw [toInt_fixedOne]
      constructor <;> omega
  · rename_i hneg
    rw [lt_zero_iff_toInt] at hneg
    omega

/-- A vector that is not zero has an angle in a turn, unless a coordinate has no
magnitude. -/
theorem fcqAtan2_spec {fy fx : Int64} (h : ¬(fx = 0 ∧ fy = 0)) :
    Ensures (fcqAtan2 fy fx) (fun a => 0 ≤ a.toInt ∧ a.toInt < 2 ^ 31) (· ≠ .errorDomain) := by
  rw [fcqAtan2]
  dsimp only
  rw [if_neg h]
  split
  · rw [ensures_ok]
    split <;> decide
  · split
    · rw [ensures_ok]
      split <;> decide
    · rename_i hy hx
      refine (fcqAbs_spec fx).seq fun ax hax => (fcqAbs_spec fy).seq fun ay hay => ?_
      have hlargest : (if ax ≥ ay then ax else ay) ≠ 0 := by
        have hxne : fx.toInt ≠ 0 := fun h => hx (Int64.toInt_inj.mp h)
        have hyne : fy.toInt ≠ 0 := fun h => hy (Int64.toInt_inj.mp h)
        split <;> rintro rfl
        · exact hxne (abs_eq_zero.mp hax.symm)
        · exact hyne (abs_eq_zero.mp hay.symm)
      refine (fcqDiv_spec fx hlargest).seq fun nx _ => (fcqDiv_spec fy hlargest).seq fun ny _ => ?_
      rw [checked_muldiv _ _ (by decide)]
      exact (ensures_result _).seq fun a _ => fcqWrap_range a

end Xhive.Fieldctrl
