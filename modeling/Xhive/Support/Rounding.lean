import Mathlib.Algebra.Order.Round
import Mathlib.Tactic.Linarith
import Mathlib.Tactic.FieldSimp
import Mathlib.Tactic.Ring
import Mathlib.Tactic.Positivity
import Mathlib.Data.Rat.Floor
import Xhive.Support.Words

/-!
# Rounding to the nearest integer, halfway cases away from zero

This is the rounding mode of every fixed-point operation in the development.
The abstract function is stated over an arbitrary ordered field with a floor;
the integer quotient form is what a restoring divider or a shift computes.
-/

namespace Xhive.Support

section Field

variable {K : Type*} [Field K] [LinearOrder K] [IsStrictOrderedRing K] [FloorRing K]

/-- Nearest integer, with halfway cases rounded away from zero. -/
def roundAway (x : K) : ℤ :=
  if 0 ≤ x then ⌊x + 1 / 2⌋ else -⌊-x + 1 / 2⌋

omit [IsStrictOrderedRing K] in
theorem roundAway_of_nonneg {x : K} (hx : 0 ≤ x) :
    roundAway x = ⌊x + 1 / 2⌋ := by
  rw [roundAway, if_pos hx]

omit [IsStrictOrderedRing K] in
theorem roundAway_of_neg {x : K} (hx : x < 0) :
    roundAway x = -⌊-x + 1 / 2⌋ := by
  rw [roundAway, if_neg (not_le.mpr hx)]

theorem roundAway_zero : roundAway (0 : K) = 0 := by
  rw [roundAway_of_nonneg le_rfl, Int.floor_eq_iff]
  norm_num

@[simp] theorem roundAway_neg (x : K) : roundAway (-x) = -roundAway x := by
  rcases lt_trichotomy x 0 with hx | rfl | hx
  · rw [roundAway_of_neg hx, roundAway_of_nonneg (by linarith), neg_neg]
  · rw [neg_zero, roundAway_zero, neg_zero]
  · rw [roundAway_of_nonneg hx.le, roundAway_of_neg (by linarith), neg_neg]

/-- The result is within half a unit of the exact value. -/
theorem abs_sub_roundAway_le (x : K) : |x - roundAway x| ≤ 1 / 2 := by
  rcases le_or_gt 0 x with hx | hx
  · rw [roundAway_of_nonneg hx]
    have hlow := Int.floor_le (x + 1 / 2)
    have hhigh := Int.lt_floor_add_one (x + 1 / 2)
    rw [abs_le]
    constructor <;> linarith
  · rw [roundAway_of_neg hx]
    have hlow := Int.floor_le (-x + 1 / 2)
    have hhigh := Int.lt_floor_add_one (-x + 1 / 2)
    push_cast
    rw [abs_le]
    constructor <;> linarith

/-- Integers are fixed points. -/
@[simp] theorem roundAway_intCast (n : ℤ) : roundAway (n : K) = n := by
  have hhalf : ⌊(1 / 2 : K)⌋ = 0 := by
    rw [Int.floor_eq_iff]
    norm_num
  rcases le_or_gt 0 n with hn | hn
  · rw [roundAway_of_nonneg (by exact_mod_cast hn), Int.floor_intCast_add, hhalf,
      add_zero]
  · rw [roundAway_of_neg (by exact_mod_cast hn), ← Int.cast_neg,
      Int.floor_intCast_add, hhalf, add_zero, neg_neg]

theorem roundAway_nonneg {x : K} (hx : 0 ≤ x) : 0 ≤ roundAway x := by
  rw [roundAway_of_nonneg hx]
  exact Int.floor_nonneg.mpr (by linarith)

/-- Rounding is monotone. -/
theorem roundAway_mono {x y : K} (hxy : x ≤ y) : roundAway x ≤ roundAway y := by
  rcases le_or_gt 0 x with hx | hx
  · rw [roundAway_of_nonneg hx, roundAway_of_nonneg (hx.trans hxy)]
    exact Int.floor_mono (by linarith)
  · rcases le_or_gt 0 y with hy | hy
    · have hleft : 0 ≤ roundAway (-x) := roundAway_nonneg (by linarith)
      rw [roundAway_neg] at hleft
      have hright := roundAway_nonneg hy
      omega
    · rw [roundAway_of_neg hx, roundAway_of_neg hy]
      have := Int.floor_mono (show -y + 1 / 2 ≤ -x + 1 / 2 by linarith)
      omega

/-- Rounding commutes with the absolute value. -/
theorem abs_roundAway (x : K) : |roundAway x| = roundAway |x| := by
  rcases le_or_gt 0 x with hx | hx
  · rw [abs_of_nonneg hx, abs_of_nonneg (roundAway_nonneg hx)]
  · have hpos : 0 ≤ roundAway (-x) := roundAway_nonneg (by linarith)
    rw [abs_of_neg hx]
    rw [roundAway_neg] at hpos ⊢
    rw [abs_of_nonpos (by omega)]

/-- A value bounded in magnitude by an integer rounds to one bounded by it. -/
theorem abs_roundAway_le {x : K} {n : ℤ} (hx : |x| ≤ n) : |roundAway x| ≤ n := by
  rw [abs_roundAway]
  calc
    roundAway |x| ≤ roundAway (n : K) := roundAway_mono hx
    _ = n := roundAway_intCast n

/-- Less than half a unit beyond an integer is rounded back to it. -/
theorem abs_roundAway_le_of_lt {x : K} {n : ℤ} (hx : |x| < n + 1 / 2) : |roundAway x| ≤ n := by
  have hclose := abs_sub_roundAway_le x
  have htriangle := abs_sub_abs_le_abs_sub ((roundAway x : ℤ) : K) x
  rw [abs_sub_comm] at htriangle
  have hlt : ((|roundAway x| : ℤ) : K) < ((n + 1 : ℤ) : K) := by
    push_cast
    linarith
  exact Int.lt_add_one_iff.mp (Int.cast_lt.mp hlt)

/-- A lower bound by an integer survives rounding. -/
theorem le_roundAway {x : K} {n : ℤ} (hx : (n : K) ≤ x) : n ≤ roundAway x := by
  calc
    n = roundAway (n : K) := (roundAway_intCast n).symm
    _ ≤ roundAway x := roundAway_mono hx

/-- An upper bound by an integer survives rounding. -/
theorem roundAway_le {x : K} {n : ℤ} (hx : x ≤ n) : roundAway x ≤ n := by
  calc
    roundAway x ≤ roundAway (n : K) := roundAway_mono hx
    _ = n := roundAway_intCast n

end Field

/-! ## The quotient form -/

/-- The rounded quotient as a divider computes it: floor and remainder, then
one increment when the remainder reaches half of the divisor. -/
def roundedQuotient (n d : ℕ) : ℕ :=
  n / d + if d - n % d ≤ n % d then 1 else 0

theorem roundedQuotient_eq (n : ℕ) {d : ℕ} (hd : 0 < d) :
    roundedQuotient n d = (2 * n + d) / (2 * d) := by
  have hmod := Nat.mod_lt n hd
  have hdiv := Nat.div_add_mod n d
  have hsplit : 2 * n + d = 2 * d * (n / d) + (2 * (n % d) + d) := by
    calc
      2 * n + d = 2 * (d * (n / d) + n % d) + d := by rw [hdiv]
      _ = 2 * d * (n / d) + (2 * (n % d) + d) := by ring
  rw [hsplit, Nat.mul_add_div (by omega), roundedQuotient]
  congr 1
  by_cases hhalf : d - n % d ≤ n % d
  · rw [if_pos hhalf]
    symm
    apply Nat.div_eq_of_lt_le <;> omega
  · rw [if_neg hhalf]
    symm
    apply Nat.div_eq_of_lt
    omega

theorem roundAway_natCast_div (n : ℕ) {d : ℕ} (hd : 0 < d) :
    roundAway ((n : ℚ) / d) = roundedQuotient n d := by
  have hd' : (0 : ℚ) < d := by exact_mod_cast hd
  rw [roundAway_of_nonneg (by positivity), roundedQuotient_eq n hd]
  have hrat : (n : ℚ) / d + 1 / 2 = ((2 * n + d : ℕ) : ℚ) / ((2 * d : ℕ) : ℚ) := by
    push_cast
    field_simp
  rw [hrat]
  exact Rat.floor_natCast_div_natCast _ _

/-- Rounding a signed quotient rounds its magnitude. -/
theorem roundAway_signed_div (negative : Bool) (n : ℕ) {d : ℕ} (hd : 0 < d) :
    roundAway (signed negative ((n : ℚ) / d)) =
      signed negative (roundedQuotient n d : ℤ) := by
  cases negative with
  | false => exact roundAway_natCast_div n hd
  | true =>
      rw [signed_true, signed_true, roundAway_neg, roundAway_natCast_div n hd]

/-! ## The sum form -/

/-- Half of the divisor is added before the division. -/
theorem div_add_half_eq (n : ℕ) {d : ℕ} (hd : 0 < d) : (n + d / 2) / d = roundedQuotient n d := by
  rw [roundedQuotient]
  have hmod := Nat.mod_lt n hd
  have hsplit : n + d / 2 = d * (n / d) + (n % d + d / 2) := by
    rw [← Nat.add_assoc, Nat.div_add_mod]
  rw [hsplit, Nat.mul_add_div hd]
  congr 1
  by_cases hhalf : d - n % d ≤ n % d
  · rw [if_pos hhalf]
    apply Nat.div_eq_of_lt_le <;> omega
  · rw [if_neg hhalf]
    apply Nat.div_eq_of_lt
    omega

@[simp] theorem roundedQuotient_one (n : ℕ) : roundedQuotient n 1 = n := by
  rw [roundedQuotient, Nat.mod_one, Nat.div_one, if_neg (by norm_num), Nat.add_zero]

/-- A shift is rounded by the last bit that it drops. -/
theorem roundedQuotient_two_pow_succ (n s : ℕ) :
    roundedQuotient n (2 ^ (s + 1)) = n / 2 ^ (s + 1) + n / 2 ^ s % 2 := by
  have hhalf : 2 ^ (s + 1) / 2 = 2 ^ s := by
    rw [pow_succ, Nat.mul_div_cancel _ (by norm_num)]
  rw [← div_add_half_eq n (Nat.two_pow_pos _), hhalf, pow_succ, ← Nat.div_div_eq_div_mul,
    ← Nat.div_div_eq_div_mul, Nat.add_div_right _ (Nat.two_pow_pos s)]
  omega

theorem toNat_div_add_half {n d : UInt64} (hd : 0 < d.toNat)
    (hfits : n.toNat + d.toNat / 2 < 2 ^ 64) :
    ((n + d / 2) / d).toNat = roundedQuotient n.toNat d.toNat := by
  rw [UInt64.toNat_div, UInt64.toNat_add, UInt64.toNat_div]
  change (n.toNat + d.toNat / 2) % 2 ^ 64 / d.toNat = _
  rw [Nat.mod_eq_of_lt hfits, div_add_half_eq _ hd]

theorem le_roundedQuotient_iff {n d m : ℕ} (hd : 0 < d) :
    m ≤ roundedQuotient n d ↔ 2 * m * d ≤ 2 * n + d := by
  rw [roundedQuotient_eq n hd, Nat.le_div_iff_mul_le (by omega), Nat.mul_left_comm, Nat.mul_assoc]

theorem roundedQuotient_le_iff {n d m : ℕ} (hd : 0 < d) :
    roundedQuotient n d ≤ m ↔ 2 * n < (2 * m + 1) * d := by
  rw [← Nat.lt_add_one_iff, ← not_le, le_roundedQuotient_iff hd, not_le]
  constructor <;> intro h <;> linarith

/-- The rounded quotient is monotone in the quotient. -/
theorem roundedQuotient_le {n d m e : ℕ} (hd : 0 < d) (he : 0 < e) (h : n * e ≤ m * d) :
    roundedQuotient n d ≤ roundedQuotient m e := by
  have hself := (le_roundedQuotient_iff hd).mp (le_refl (roundedQuotient n d))
  rw [le_roundedQuotient_iff he]
  refine Nat.le_of_mul_le_mul_right ?_ hd
  calc
    2 * roundedQuotient n d * e * d = 2 * roundedQuotient n d * d * e := by ring
    _ ≤ (2 * n + d) * e := Nat.mul_le_mul_right e hself
    _ = 2 * (n * e) + d * e := by ring
    _ ≤ 2 * (m * d) + d * e := Nat.add_le_add_right (Nat.mul_le_mul_left 2 h) _
    _ = (2 * m + e) * d := by ring

/-- The rounded quotient is within one half of the quotient. -/
theorem abs_roundedQuotient_sub_le (n : ℕ) {d : ℕ} (hd : 0 < d) :
    |(roundedQuotient n d : ℚ) - n / d| ≤ 1 / 2 := by
  have hclose := abs_sub_roundAway_le ((n : ℚ) / d)
  rwa [roundAway_natCast_div n hd, abs_sub_comm, Int.cast_natCast] at hclose

theorem roundedQuotient_le_of_le_mul {n d m : ℕ} (hd : 0 < d) (h : n ≤ d * m) :
    roundedQuotient n d ≤ m := by
  rw [roundedQuotient_le_iff hd, Nat.add_mul, Nat.one_mul, Nat.mul_assoc, Nat.mul_comm m]
  omega

/-- A rounded quotient is within half of the divisor, multiplied out. -/
theorem two_mul_abs_sub_mul_roundAway_le (n : ℤ) {d : ℕ} (hd : 0 < d) :
    2 * |n - d * roundAway ((n : ℚ) / d)| ≤ d := by
  have hd' : (0 : ℚ) < d := by exact_mod_cast hd
  have hnear := abs_sub_roundAway_le ((n : ℚ) / d)
  generalize roundAway ((n : ℚ) / d) = r at *
  have hscale : (n : ℚ) - d * r = (n / d - r) * d := by
    field_simp
  have habs : |(n : ℚ) - d * r| ≤ 1 / 2 * d := by
    rw [hscale, abs_mul, abs_of_pos hd']
    exact mul_le_mul_of_nonneg_right hnear hd'.le
  have hcast : ((2 * |n - d * r| : ℤ) : ℚ) ≤ d := by
    push_cast
    linarith
  exact_mod_cast hcast

theorem roundAway_div_bounds {n lo hi : ℤ} {d : ℕ} (hd : 0 < d) (hlo : d * lo ≤ n)
    (hhi : n ≤ d * hi) : lo ≤ roundAway ((n : ℚ) / d) ∧ roundAway ((n : ℚ) / d) ≤ hi := by
  have hd' : (0 : ℚ) < d := by exact_mod_cast hd
  constructor
  · apply le_roundAway
    rw [le_div_iff₀ hd', mul_comm]
    exact_mod_cast hlo
  · apply roundAway_le
    rw [div_le_iff₀ hd', mul_comm]
    exact_mod_cast hhi

end Xhive.Support

/-!
## Corrections that do not move a rounding

A quotient away from the halves keeps its rounded value when the numerator is
refined by a small correction, also when the correction changes its sign.
-/

namespace Xhive.Support

variable {n d scale c : ℕ}

/-- How far twice the remainder is from the divisor. -/
def halfDistance (n d : ℕ) : ℕ :=
  if d ≤ 2 * (n % d) then 2 * (n % d) - d else d - 2 * (n % d)

theorem halfDistance_le (hd : 0 < d) : halfDistance n d ≤ d := by
  have hlt := Nat.mod_lt n hd
  rw [halfDistance]
  split <;> omega

/-- The rounded quotient keeps this distance to both of its halves. -/
theorem roundedQuotient_slack (hd : 0 < d) :
    2 * roundedQuotient n d * d + halfDistance n d ≤ 2 * n + d ∧
      2 * n + halfDistance n d ≤ (2 * roundedQuotient n d + 1) * d := by
  have hlt := Nat.mod_lt n hd
  have hdiv := Nat.div_add_mod n d
  obtain ⟨product, hproduct⟩ : ∃ product, d * (n / d) = product := ⟨_, rfl⟩
  rw [hproduct] at hdiv
  rw [roundedQuotient, halfDistance]
  by_cases hup : d ≤ 2 * (n % d)
  · have hsecond : d - n % d ≤ n % d := by omega
    rw [if_pos hup, if_pos hsecond]
    have hdouble : 2 * (n / d + 1) * d = 2 * product + 2 * d := by
      rw [← hproduct]
      ring
    rw [Nat.add_mul (2 * (n / d + 1)) 1, hdouble]
    omega
  · have hsecond : ¬d - n % d ≤ n % d := by omega
    rw [if_neg hup, if_neg hsecond, Nat.add_zero]
    have hdouble : 2 * (n / d) * d = 2 * product := by
      rw [← hproduct]
      ring
    rw [Nat.add_mul (2 * (n / d)) 1, hdouble]
    omega

/-- A scaled numerator has its slack scaled. -/
theorem roundedQuotient_slack_mul (hd : 0 < d) (scale : ℕ) :
    2 * roundedQuotient n d * (d * scale) + halfDistance n d * scale ≤
        2 * (n * scale) + d * scale ∧
      2 * (n * scale) + halfDistance n d * scale ≤
        (2 * roundedQuotient n d + 1) * (d * scale) := by
  obtain ⟨hlow, hhigh⟩ := roundedQuotient_slack (n := n) hd
  have hlow := Nat.mul_le_mul_right scale hlow
  have hhigh := Nat.mul_le_mul_right scale hhigh
  rw [Nat.add_mul, Nat.add_mul, Nat.mul_assoc, Nat.mul_assoc 2 n] at hlow
  rw [Nat.add_mul, Nat.mul_assoc, Nat.mul_assoc (_ + 1)] at hhigh
  exact ⟨hlow, hhigh⟩

/-- A rounded quotient is known from its two bounds. -/
theorem roundedQuotient_eq_of_bounds {n d m : ℕ} (hd : 0 < d) (hlow : 2 * m * d ≤ 2 * n + d)
    (hhigh : 2 * n < (2 * m + 1) * d) : roundedQuotient n d = m :=
  le_antisymm ((roundedQuotient_le_iff hd).mpr hhigh) ((le_roundedQuotient_iff hd).mpr hlow)

theorem roundedQuotient_mul_right (hd : 0 < d) (hscale : 0 < scale) :
    roundedQuotient (n * scale) (d * scale) = roundedQuotient n d := by
  have hpos := Nat.mul_pos hd hscale
  exact le_antisymm (roundedQuotient_le hpos hd (by rw [Nat.mul_assoc, Nat.mul_comm scale]))
    (roundedQuotient_le hd hpos (by rw [Nat.mul_assoc, Nat.mul_comm scale]))

theorem roundedQuotient_add_correction (hd : 0 < d) (hscale : 0 < scale)
    (hsmall : 2 * c < halfDistance n d * scale) :
    roundedQuotient (n * scale + c) (d * scale) = roundedQuotient n d := by
  obtain ⟨hlow, hhigh⟩ := roundedQuotient_slack_mul (n := n) hd scale
  apply roundedQuotient_eq_of_bounds (Nat.mul_pos hd hscale) <;> omega

theorem roundedQuotient_sub_correction (hd : 0 < d) (hscale : 0 < scale)
    (hsmall : 2 * c < halfDistance n d * scale) (hle : c ≤ n * scale) :
    roundedQuotient (n * scale - c) (d * scale) = roundedQuotient n d := by
  obtain ⟨hlow, hhigh⟩ := roundedQuotient_slack_mul (n := n) hd scale
  apply roundedQuotient_eq_of_bounds (Nat.mul_pos hd hscale) <;> omega

/-- A correction above the numerator is met only where both round to zero. -/
theorem roundedQuotient_of_correction_gt (hd : 0 < d) (hscale : 0 < scale)
    (hsmall : 2 * c < halfDistance n d * scale) (hlt : n * scale < c) :
    roundedQuotient n d = 0 ∧ roundedQuotient (c - n * scale) (d * scale) = 0 := by
  have hpos := Nat.mul_pos hd hscale
  have hle := Nat.mul_le_mul_right scale (halfDistance_le (n := n) hd)
  have hzero : roundedQuotient n d = 0 := by
    rw [← roundedQuotient_mul_right hd hscale, ← Nat.le_zero, roundedQuotient_le_iff hpos]
    omega
  refine ⟨hzero, ?_⟩
  rw [← Nat.le_zero, roundedQuotient_le_iff hpos]
  omega

end Xhive.Support

/-!
## Rounded weighted means

The mean of two integers under complementary weights, rounded once to an
integer.  Rounding moves it past no integer, so it stays between the two, and
it is monotone in each of them.
-/

namespace Xhive.Support

/-- `((whole - weight) * a + weight * b) / whole`, rounded once. -/
def roundedBlend (whole weight a b : ℤ) : ℤ :=
  roundAway ((((whole - weight) * a + weight * b : ℤ) : ℚ) / whole)

section Blends

variable {whole weight : ℤ} (hwhole : 0 < whole) (hweight : 0 ≤ weight) (hle : weight ≤ whole)
include hwhole hweight hle

theorem le_roundedBlend {n a b : ℤ} (ha : n ≤ a) (hb : n ≤ b) :
    n ≤ roundedBlend whole weight a b := by
  apply le_roundAway
  rw [le_div_iff₀ (by exact_mod_cast hwhole)]
  have hsum : n * whole ≤ (whole - weight) * a + weight * b := by
    calc
      n * whole = (whole - weight) * n + weight * n := by ring
      _ ≤ (whole - weight) * a + weight * b :=
        add_le_add (mul_le_mul_of_nonneg_left ha (sub_nonneg.mpr hle))
          (mul_le_mul_of_nonneg_left hb hweight)
  exact_mod_cast hsum

theorem roundedBlend_le {n a b : ℤ} (ha : a ≤ n) (hb : b ≤ n) :
    roundedBlend whole weight a b ≤ n := by
  apply roundAway_le
  rw [div_le_iff₀ (by exact_mod_cast hwhole)]
  have hsum : (whole - weight) * a + weight * b ≤ n * whole := by
    calc
      (whole - weight) * a + weight * b ≤ (whole - weight) * n + weight * n :=
        add_le_add (mul_le_mul_of_nonneg_left ha (sub_nonneg.mpr hle))
          (mul_le_mul_of_nonneg_left hb hweight)
      _ = n * whole := by ring
  exact_mod_cast hsum

theorem roundedBlend_self (a : ℤ) : roundedBlend whole weight a a = a :=
  le_antisymm (roundedBlend_le hwhole hweight hle le_rfl le_rfl)
    (le_roundedBlend hwhole hweight hle le_rfl le_rfl)

theorem roundedBlend_mono {a a' b b' : ℤ} (ha : a ≤ a') (hb : b ≤ b') :
    roundedBlend whole weight a b ≤ roundedBlend whole weight a' b' := by
  apply roundAway_mono
  apply div_le_div_of_nonneg_right _ (by exact_mod_cast hwhole.le)
  have hsum : (whole - weight) * a + weight * b ≤ (whole - weight) * a' + weight * b' :=
    add_le_add (mul_le_mul_of_nonneg_left ha (sub_nonneg.mpr hle))
      (mul_le_mul_of_nonneg_left hb hweight)
  exact_mod_cast hsum

end Blends

end Xhive.Support
