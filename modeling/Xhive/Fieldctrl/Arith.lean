import Xhive.Filters.Memory

/-!
# The fixed-point glue of fieldctrl

`fieldctrl_arith.h` and `fieldctrl_variant.h` for the two Q variants.  The
helpers test the caller's `status` variable before they compute and latch the
first failure in it, so a failure is the error of the computation; the
comparisons and branches between a failure and the next test of `status` only
touch locals.  `FC_LOAD` and `FC_STORE` are the conversions of the storage
format, and the coefficients and the state are stored at working width.
-/

namespace Xhive.Fieldctrl

open Xhive.Support Xhive.Linears Xhive.Filters

/-! ## Checked arithmetic -/

abbrev fcqAdd : Int64 → Int64 → Except Status Int64 := fixedAdapter.add

abbrev fcqSub : Int64 → Int64 → Except Status Int64 := fixedAdapter.sub

abbrev fcqMul : Int64 → Int64 → Except Status Int64 := fixedAdapter.mul

abbrev fcqDiv : Int64 → Int64 → Except Status Int64 := fixedAdapter.div

abbrev fcqNeg : Int64 → Except Status Int64 := fixedAdapter.neg

abbrev fcqAbs : Int64 → Except Status Int64 := fixedAdapter.abs

abbrev fcqSqrt : Int64 → Except Status Int64 := fixedAdapter.sqrt

abbrev fcqI : ℤ → Except Status Int64 := fixedAdapter.constant

abbrev fcqCmp : Int64 → Int64 → ℤ := linearsFixedCompare

/-- `FC_STORE`. -/
def fcStore {Q : Type} [FilterFormat Q] (x : Int64) : Except Status Q :=
  checked (FilterFormat.exportFixed x (some FilterFormat.zero))

def fcqRescale (a numerator denominator : Int64) : Except Status Int64 :=
  checked (linearsFixedMuldiv a numerator denominator (some 0))

def fcqHypot (a b : Int64) : Except Status Int64 := do
  let aa ← fcqAbs a
  let bb ← fcqAbs b
  let hi := if fcqCmp aa bb ≥ 0 then aa else bb
  let lo := if fcqCmp aa bb ≥ 0 then bb else aa
  if hi = 0 then .ok 0
  else do
    let ratio ← fcqDiv lo hi
    let sum ← fcqMul ratio ratio
    let sum ← fcqAdd fixedOne sum
    let root ← fcqSqrt sum
    fcqMul hi root

def fcOverlap (a b : Extent) : Bool :=
  if a.address ≤ b.address then decide (b.address - a.address < a.bytes)
  else decide (a.address - b.address < b.bytes)

/-- The pointer checks of a step: NULL first, then a result inside the context. -/
def checkPointers (ctx output : Extent) : Except Status Unit :=
  if ctx.address = 0 ∨ output.address = 0 then .error .errorArgument
  else if fcOverlap ctx output then .error .errorAlias
  else .ok ()

def baseClamp (x lo hi : Int64) : Int64 :=
  if fcqCmp x lo < 0 then lo else if fcqCmp x hi > 0 then hi else x

/-! ## Comparisons -/

@[simp] theorem fcqCmp_lt (a b : Int64) : fcqCmp a b < 0 ↔ a.toInt < b.toInt := by
  rw [(linearsFixedCompare_iff a b).2.1, Int64.lt_iff_toInt_lt]

@[simp] theorem fcqCmp_gt (a b : Int64) : 0 < fcqCmp a b ↔ b.toInt < a.toInt := by
  rw [(linearsFixedCompare_iff a b).1, Int64.lt_iff_toInt_lt]

@[simp] theorem fcqCmp_le (a b : Int64) : fcqCmp a b ≤ 0 ↔ a.toInt ≤ b.toInt := by
  rw [← not_lt, fcqCmp_gt, not_lt]

@[simp] theorem fcqCmp_ge (a b : Int64) : 0 ≤ fcqCmp a b ↔ b.toInt ≤ a.toInt := by
  rw [← not_lt, fcqCmp_lt, not_lt]

@[simp] theorem fcqCmp_eq (a b : Int64) : fcqCmp a b = 0 ↔ a = b :=
  (linearsFixedCompare_iff a b).2.2

/-! ## Results -/

theorem fcqAdd_ok {a b c : Int64} (h : fcqAdd a b = .ok c) : c.toInt = a.toInt + b.toInt := by
  rw [fcqAdd, fixed_add] at h
  exact fixedResult_eq_ok h

theorem fcqSub_ok {a b c : Int64} (h : fcqSub a b = .ok c) : c.toInt = a.toInt - b.toInt := by
  rw [fcqSub, fixed_sub] at h
  exact fixedResult_eq_ok h

theorem fcqAbs_ok {a c : Int64} (h : fcqAbs a = .ok c) : c.toInt = |a.toInt| := by
  rw [fcqAbs, fixed_abs] at h
  exact fixedResult_eq_ok h

theorem fcqMul_ok {a b c : Int64} (h : fcqMul a b = .ok c) :
    c.toInt = roundAway ((a.toInt : ℚ) * b.toInt / 2 ^ 31) := by
  rw [fcqMul, fixed_mul] at h
  exact fixedResult_eq_ok h

theorem fcqMul_comm (a b : Int64) : fcqMul a b = fcqMul b a := by
  rw [fcqMul, fixed_mul, fixed_mul, mul_comm (a.toInt : ℚ)]

theorem fcqDiv_ok {a b c : Int64} (hb : b ≠ 0) (h : fcqDiv a b = .ok c) :
    c.toInt = roundAway ((a.toInt : ℚ) * 2 ^ 31 / b.toInt) := by
  rw [fcqDiv, fixed_div a hb] at h
  exact fixedResult_eq_ok h

/-! Away from a zero divisor and a negative radicand no operation leaves the
domain: what remains is a result out of range. -/

theorem ensures_result (n : ℤ) :
    Ensures (fixedResult n) (fun c => c.toInt = n) (· ≠ .errorDomain) := by
  refine (ensures_fixedResult n).mono (fun _ h => h) ?_
  rintro _ rfl
  decide

theorem fcqAdd_spec (a b : Int64) :
    Ensures (fcqAdd a b) (fun c => c.toInt = a.toInt + b.toInt) (· ≠ .errorDomain) := by
  rw [fcqAdd, fixed_add]
  exact ensures_result _

theorem fcqSub_spec (a b : Int64) :
    Ensures (fcqSub a b) (fun c => c.toInt = a.toInt - b.toInt) (· ≠ .errorDomain) := by
  rw [fcqSub, fixed_sub]
  exact ensures_result _

theorem fcqNeg_spec (a : Int64) :
    Ensures (fcqNeg a) (fun c => c.toInt = -a.toInt) (· ≠ .errorDomain) := by
  rw [fcqNeg, fixed_neg]
  exact ensures_result _

theorem fcqAbs_spec (a : Int64) :
    Ensures (fcqAbs a) (fun c => c.toInt = |a.toInt|) (· ≠ .errorDomain) := by
  rw [fcqAbs, fixed_abs]
  exact ensures_result _

theorem fcqMul_spec (a b : Int64) :
    Ensures (fcqMul a b) (fun c => c.toInt = roundAway ((a.toInt : ℚ) * b.toInt / 2 ^ 31))
      (· ≠ .errorDomain) := by
  rw [fcqMul, fixed_mul]
  exact ensures_result _

theorem fcqDiv_spec (a : Int64) {b : Int64} (hb : b ≠ 0) :
    Ensures (fcqDiv a b) (fun c => c.toInt = roundAway ((a.toInt : ℚ) * 2 ^ 31 / b.toInt))
      (· ≠ .errorDomain) := by
  rw [fcqDiv, fixed_div a hb]
  exact ensures_result _

/-- A nonnegative gain keeps the sign of what it multiplies. -/
theorem fcqMul_sign {gain x c : Int64} (h : fcqMul gain x = .ok c) (hgain : 0 ≤ gain.toInt) :
    (0 ≤ x.toInt → 0 ≤ c.toInt) ∧ (x.toInt ≤ 0 → c.toInt ≤ 0) := by
  have hg : (0 : ℚ) ≤ gain.toInt := by exact_mod_cast hgain
  rw [fcqMul_ok h]
  constructor
  · intro hx
    have hx' : (0 : ℚ) ≤ x.toInt := by exact_mod_cast hx
    exact roundAway_nonneg (by positivity)
  · intro hx
    have hx' : (x.toInt : ℚ) ≤ 0 := by exact_mod_cast hx
    apply roundAway_le
    have := mul_nonpos_of_nonneg_of_nonpos hg hx'
    rw [Int.cast_zero]
    exact div_nonpos_of_nonpos_of_nonneg this (by positivity)

/-- An error below two gives at most twice the gain. -/
theorem fcqMul_le {gain x c : Int64} (h : fcqMul gain x = .ok c) (hgain : 0 ≤ gain.toInt)
    (hx : |x.toInt| ≤ 2 ^ 32) : |c.toInt| ≤ 2 * gain.toInt := by
  have hg : (0 : ℚ) ≤ gain.toInt := by exact_mod_cast hgain
  have hx' : |(x.toInt : ℚ)| ≤ 2 ^ 32 := by exact_mod_cast hx
  rw [fcqMul_ok h]
  apply abs_roundAway_le
  rw [abs_div, abs_mul, abs_of_nonneg hg, abs_of_pos (show (0 : ℚ) < 2 ^ 31 by norm_num),
    div_le_iff₀ (by norm_num)]
  push_cast
  nlinarith

theorem fcqSqrt_ok {a c : Int64} (ha : 0 ≤ a.toInt) (h : fcqSqrt a = .ok c) :
    c.toInt = roundAway (Real.sqrt (a.toInt * 2 ^ 31)) := by
  rw [fcqSqrt, fixed_sqrt ha] at h
  cases h
  apply toInt_ofInt_of_fits
  have ha₀ : (0 : ℝ) ≤ a.toInt := by exact_mod_cast ha
  have hlt : (a.toInt : ℝ) ≤ 2 ^ 63 := by exact_mod_cast a.toInt_lt.le
  have hroot : Real.sqrt (a.toInt * 2 ^ 31) ≤ ((2 ^ 47 : ℤ) : ℝ) := by
    rw [Real.sqrt_le_left (by norm_num)]
    push_cast
    nlinarith
  have hupper := roundAway_le hroot
  have hlower := roundAway_nonneg (Real.sqrt_nonneg ((a.toInt : ℝ) * 2 ^ 31))
  constructor <;> omega

theorem fcqSqrt_total {a : Int64} (ha : 0 ≤ a.toInt) : ∃ c, fcqSqrt a = .ok c :=
  ⟨_, fixed_sqrt ha⟩

/-- A rounded value is at least its argument less one half. -/
theorem sub_half_le_roundAway (x : ℝ) : x - 1 / 2 ≤ roundAway x := by
  have h := abs_le.mp (abs_sub_roundAway_le x)
  linarith [h.2]

/-- Rounding a rational as a real. -/
theorem sub_half_le_ratCast (x : ℚ) : (x : ℝ) - 1 / 2 ≤ (roundAway x : ℤ) := by
  have h := (abs_le.mp (abs_sub_roundAway_le x)).2
  have hcast : ((x - (roundAway x : ℚ) : ℚ) : ℝ) ≤ ((1 / 2 : ℚ) : ℝ) := Rat.cast_le.mpr h
  push_cast at hcast
  linarith

/-! ## Operations in range -/

theorem fixedResult_total {n : ℤ} (hn : |n| < 2 ^ 63) : ∃ c, fixedResult n = .ok c := by
  rw [abs_lt] at hn
  exact ⟨_, fixedResult_of_fits ⟨hn.1.le, hn.2⟩⟩

theorem fcqAdd_total {a b : Int64} (h : |a.toInt + b.toInt| < 2 ^ 63) :
    ∃ c, fcqAdd a b = .ok c := by
  rw [fcqAdd, fixed_add]
  exact fixedResult_total h

theorem fcqSub_total {a b : Int64} (h : |a.toInt - b.toInt| < 2 ^ 63) :
    ∃ c, fcqSub a b = .ok c := by
  rw [fcqSub, fixed_sub]
  exact fixedResult_total h

theorem fcqNeg_ok {a c : Int64} (h : fcqNeg a = .ok c) : c.toInt = -a.toInt := by
  rw [fcqNeg, fixed_neg] at h
  exact fixedResult_eq_ok h

theorem fcqNeg_total {a : Int64} (h : |a.toInt| < 2 ^ 63) : ∃ c, fcqNeg a = .ok c := by
  rw [fcqNeg, fixed_neg]
  exact fixedResult_total (by rwa [abs_neg])

/-- The magnitude of every working integer but the least. -/
theorem fcqAbs_total {x : Int64} (hx : x ≠ Int64.minValue) :
    ∃ c, fcqAbs x = .ok c ∧ c.toInt = |x.toInt| := by
  have hlow := x.le_toInt
  have hhigh := x.toInt_lt
  have hne : x.toInt ≠ -2 ^ 63 := fun h => hx (Int64.toInt_inj.mp h)
  have hfits : |(|x.toInt|)| < 2 ^ 63 := by
    rw [abs_abs, abs_lt]
    omega
  obtain ⟨c, hc⟩ := fixedResult_total hfits
  exact ⟨c, (fixed_abs x).trans hc, fixedResult_eq_ok hc⟩

/-- A product is in range when its bound is. -/
theorem fcqMul_total {a b : Int64} {n : ℤ} (h : |a.toInt * b.toInt| ≤ n * 2 ^ 31)
    (hn : n < 2 ^ 63) : ∃ c, fcqMul a b = .ok c ∧ |c.toInt| ≤ n := by
  have hround : |roundAway ((a.toInt : ℚ) * b.toInt / 2 ^ 31)| ≤ n := by
    apply abs_roundAway_le
    rw [abs_div, abs_of_pos (show (0 : ℚ) < 2 ^ 31 by norm_num), div_le_iff₀ (by norm_num)]
    exact_mod_cast h
  obtain ⟨c, hc⟩ := fixedResult_total (hround.trans_lt hn)
  have hvalue := fixedResult_eq_ok hc
  rw [← fixed_mul] at hc
  exact ⟨c, hc, by rwa [hvalue]⟩

/-- A quotient is in range when its bound is. -/
theorem fcqDiv_total {a b : Int64} {n : ℤ} (hb : b ≠ 0) (h : |a.toInt| * 2 ^ 31 ≤ n * |b.toInt|)
    (hn : n < 2 ^ 63) : ∃ c, fcqDiv a b = .ok c ∧ |c.toInt| ≤ n := by
  have hpos : (0 : ℚ) < |(b.toInt : ℚ)| := by
    rw [abs_pos, Int.cast_ne_zero]
    exact fun hzero => hb (Int64.toInt_inj.mp hzero)
  have hround : |roundAway ((a.toInt : ℚ) * 2 ^ 31 / b.toInt)| ≤ n := by
    apply abs_roundAway_le
    rw [abs_div, abs_mul, abs_of_pos (show (0 : ℚ) < 2 ^ 31 by norm_num), div_le_iff₀ hpos]
    exact_mod_cast h
  obtain ⟨c, hc⟩ := fixedResult_total (hround.trans_lt hn)
  have hvalue := fixedResult_eq_ok hc
  rw [← fixed_div a hb] at hc
  exact ⟨c, hc, by rwa [hvalue]⟩

/-! ## Clamping -/

theorem toInt_baseClamp {x lo hi : Int64} :
    (baseClamp x lo hi).toInt =
      if x.toInt < lo.toInt then lo.toInt
      else if hi.toInt < x.toInt then hi.toInt
      else x.toInt := by
  simp only [baseClamp, fcqCmp_lt, gt_iff_lt, fcqCmp_gt]
  split
  · rfl
  · split <;> rfl

/-- A clamped value lies between its bounds. -/
theorem baseClamp_bounds {x lo hi : Int64} (h : lo.toInt ≤ hi.toInt) :
    lo.toInt ≤ (baseClamp x lo hi).toInt ∧ (baseClamp x lo hi).toInt ≤ hi.toInt := by
  rw [toInt_baseClamp]
  split
  · exact ⟨le_rfl, h⟩
  · split
    · exact ⟨h, le_rfl⟩
    · exact ⟨not_lt.mp ‹_›, not_lt.mp ‹_›⟩

/-! ## Storing -/

section Store

variable {Q : Type} [FilterFormat Q]

/-- A loaded scalar is a value of [-1, 1). -/
theorem load_bounds (x : Q) :
    -2 ^ 31 ≤ (FilterFormat.load x).toInt ∧ (FilterFormat.load x).toInt < 2 ^ 31 := by
  have hlow := QFormat.le_toInt_widen x
  have hhigh := QFormat.toInt_widen_lt x
  have hload := FilterFormat.toInt_load x
  rcases QFormat.qBits_cases (Q := Q) with hb | hb <;> rw [hb] at hlow hhigh hload
  · rw [show (15 : UInt64).toNat = 15 from rfl] at hlow hhigh hload
    omega
  · rw [show (31 : UInt64).toNat = 31 from rfl] at hlow hhigh hload
    omega

/-- A value that reaches no further than a loaded scalar is stored rounded. -/
theorem fcStore_rounded {x : Int64} {hi : Q} (hlo : -2 ^ 31 ≤ x.toInt)
    (hhi : x.toInt ≤ (FilterFormat.load hi).toInt) :
    ∃ stored : Q, fcStore x = .ok stored ∧
      (QFormat.widen stored).toInt =
        roundAway ((x.toInt : ℚ) / 2 ^ (31 - (QFormat.qBits Q).toNat)) := by
  have hrange : |x.toInt| ≤ 2 ^ 31 := abs_le.mpr ⟨hlo, hhi.trans (load_bounds hi).2.le⟩
  obtain ⟨stored, hcall, hstored⟩ := FilterFormat.exportFixed_ok x (FilterFormat.zero : Q) hrange
  have hscale : (0 : ℚ) < 2 ^ (31 - (QFormat.qBits Q).toNat) := by positivity
  have hhigh : roundAway ((x.toInt : ℚ) / 2 ^ (31 - (QFormat.qBits Q).toNat)) ≤
      (QFormat.widen hi).toInt := by
    apply roundAway_le
    rw [div_le_iff₀ hscale]
    rw [FilterFormat.toInt_load] at hhi
    exact_mod_cast hhi
  refine ⟨stored, by rw [fcStore, hcall]; rfl, ?_⟩
  rw [hstored, endpoint, if_neg (hhigh.trans_lt (QFormat.toInt_widen_lt hi)).ne]

/-- A value between two loaded scalars is stored between them. -/
theorem fcStore_between {x : Int64} {lo hi : Q}
    (hlo : (FilterFormat.load lo).toInt ≤ x.toInt) (hhi : x.toInt ≤ (FilterFormat.load hi).toInt) :
    ∃ stored : Q, fcStore x = .ok stored ∧
      (QFormat.widen lo).toInt ≤ (QFormat.widen stored).toInt ∧
      (QFormat.widen stored).toInt ≤ (QFormat.widen hi).toInt := by
  obtain ⟨stored, hcall, hstored⟩ := fcStore_rounded ((load_bounds lo).1.trans hlo) hhi
  rw [FilterFormat.toInt_load] at hlo hhi
  have hscale : (0 : ℚ) < 2 ^ (31 - (QFormat.qBits Q).toNat) := by positivity
  refine ⟨stored, hcall, ?_, ?_⟩
  · rw [hstored]
    apply le_roundAway
    rw [le_div_iff₀ hscale]
    exact_mod_cast hlo
  · rw [hstored]
    apply roundAway_le
    rw [div_le_iff₀ hscale]
    exact_mod_cast hhi

/-- Storing gives a loaded scalar back. -/
theorem fcStore_load (x : Q) : fcStore (FilterFormat.load x) = .ok x := by
  obtain ⟨stored, hstore, hlow, hhigh⟩ := fcStore_between (le_refl (FilterFormat.load x).toInt)
    (le_refl (FilterFormat.load x).toInt)
  rw [hstore, FilterFormat.widen_injective stored x (le_antisymm hhigh hlow)]

end Store

end Xhive.Fieldctrl
