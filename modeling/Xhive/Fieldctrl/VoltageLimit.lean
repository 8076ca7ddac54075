import Xhive.Fieldctrl.Transforms
import Xhive.Fieldctrl.Cordic
import Xhive.Fieldctrl.Lengths
import Xhive.Support.Radial
import Mathlib.Analysis.CStarAlgebra.Classes
import Mathlib.Analysis.InnerProductSpace.Basic

/-!
# The radial voltage limiter

`base_limit` scales a vector by its computed length, which is never below a
component and two units from the exact length at most.  The limited vector
therefore keeps its quadrant, shrinks, and stays on the circle up to the roundings.
-/

namespace Xhive.Fieldctrl

open Xhive.Support Xhive.Linears Xhive.Filters

/-! ## Rescaling -/

theorem fcqRescale_ok {x numerator denominator c : Int64} (hd : denominator ≠ 0)
    (h : fcqRescale x numerator denominator = .ok c) :
    c.toInt = roundAway ((x.toInt : ℚ) * numerator.toInt / denominator.toInt) := by
  rw [fcqRescale, checked_muldiv _ _ hd] at h
  exact fixedResult_eq_ok h

/-- What a component becomes when it is scaled down. -/
structure Shrunk (x y : Int64) : Prop where
  magnitude : |y.toInt| ≤ |x.toInt|
  sign : 0 ≤ x.toInt * y.toInt

theorem Shrunk.refl (x : Int64) : Shrunk x x :=
  ⟨le_rfl, mul_self_nonneg _⟩

/-- A component over a length that is not below it is rescaled within the limit. -/
theorem fcqRescale_shrinks {x limit magnitude : Int64} (hlimit : 0 ≤ limit.toInt)
    (hlt : limit.toInt < magnitude.toInt) (hx : |x.toInt| ≤ magnitude.toInt) :
    ∃ c, fcqRescale x limit magnitude = .ok c ∧ |c.toInt| ≤ limit.toInt ∧ Shrunk x c ∧
      |(c.toInt : ℝ) - limit.toInt / magnitude.toInt * x.toInt| ≤ 1 / 2 := by
  have hpos : 0 < magnitude.toInt := hlimit.trans_lt hlt
  have hne : magnitude ≠ 0 := by
    rintro rfl
    exact absurd hpos (by decide)
  have hposQ : (0 : ℚ) < magnitude.toInt := by exact_mod_cast hpos
  have hlimitQ : (0 : ℚ) ≤ limit.toInt := by exact_mod_cast hlimit
  have hltQ : (limit.toInt : ℚ) < magnitude.toInt := by exact_mod_cast hlt
  have hxQ : |(x.toInt : ℚ)| ≤ magnitude.toInt := by exact_mod_cast hx
  set value : ℚ := (x.toInt : ℚ) * limit.toInt / magnitude.toInt with hvalue
  have habs : |value| = |(x.toInt : ℚ)| * limit.toInt / magnitude.toInt := by
    rw [hvalue, abs_div, abs_mul, abs_of_nonneg hlimitQ, abs_of_pos hposQ]
  have hwithin : |roundAway value| ≤ limit.toInt := by
    apply abs_roundAway_le
    rw [habs, div_le_iff₀ hposQ, mul_comm]
    exact mul_le_mul_of_nonneg_left hxQ hlimitQ
  have hsmaller : |roundAway value| ≤ |x.toInt| := by
    apply abs_roundAway_le
    rw [habs, Int.cast_abs, div_le_iff₀ hposQ]
    exact mul_le_mul_of_nonneg_left hltQ.le (abs_nonneg _)
  obtain ⟨c, hc⟩ := fixedResult_total (hwithin.trans_lt limit.toInt_lt)
  have hresult := fixedResult_eq_ok hc
  rw [← checked_muldiv x limit hne] at hc
  refine ⟨c, hc, by rwa [hresult], ⟨by rwa [hresult], ?_⟩, ?_⟩
  · rw [hresult]
    rcases le_total 0 x.toInt with hsign | hsign
    · have hsignQ : (0 : ℚ) ≤ x.toInt := by exact_mod_cast hsign
      exact mul_nonneg hsign (roundAway_nonneg (by positivity))
    · have hsignQ : (x.toInt : ℚ) ≤ 0 := by exact_mod_cast hsign
      refine mul_nonneg_of_nonpos_of_nonpos hsign (roundAway_le ?_)
      rw [Int.cast_zero]
      exact div_nonpos_of_nonpos_of_nonneg (mul_nonpos_of_nonpos_of_nonneg hsignQ hlimitQ)
        hposQ.le
  · have hcast : (value : ℝ) = limit.toInt / magnitude.toInt * x.toInt := by
      rw [hvalue]
      push_cast
      ring
    rw [hresult, ← hcast]
    exact abs_ratCast_sub_le value

/-! ## The limiter -/

/-- A vector is hardly longer than the greater of its parts. -/
theorem norm_le_of_abs_parts {z : ℂ} {c : ℝ} (hre : |z.re| ≤ c) (him : |z.im| ≤ c) :
    ‖z‖ ≤ 3 / 2 * c := by
  have hroot : Real.sqrt 2 ≤ 3 / 2 := by
    rw [Real.sqrt_le_left (by norm_num)]
    norm_num
  calc ‖z‖ ≤ Real.sqrt 2 * max |z.re| |z.im| := Complex.norm_le_sqrt_two_mul_max z
    _ ≤ 3 / 2 * c := by
        gcongr
        exact max_le hre him

theorem norm_le_of_parts {z : ℂ} (hre : |z.re| ≤ 1 / 2) (him : |z.im| ≤ 1 / 2) : ‖z‖ ≤ 3 / 4 :=
  (norm_le_of_abs_parts hre him).trans_eq (by norm_num)

/-- What the limiter returns: the vector itself while the computed magnitude is
within the limit, and else its components over that magnitude, rounded. -/
structure Limited (a b limit magnitude a' b' : Int64) : Prop where
  alpha : Shrunk a a'
  beta : Shrunk b b'
  kept : magnitude.toInt ≤ limit.toInt → a' = a ∧ b' = b
  scaled : limit.toInt < magnitude.toInt →
    ‖planar a' b' - ((limit.toInt : ℝ) / magnitude.toInt) • planar a b‖ ≤ 3 / 4

theorem baseLimit_ok {a b limit : Int64} (hlimit : 0 ≤ limit.toInt) (ha : |a.toInt| ≤ 2 ^ 31)
    (hb : |b.toInt| ≤ 2 ^ 31) :
    ∃ magnitude a' b', fcqHypot a b = .ok magnitude ∧ baseLimit a b limit = .ok (a', b') ∧
      Limited a b limit magnitude a' b' := by
  obtain ⟨magnitude, hmagnitude, -⟩ := fcqHypot_total ha hb
  obtain ⟨haLe, hbLe, -⟩ := fcqHypot_ok hmagnitude
  rw [baseLimit, hmagnitude, ok_bind]
  by_cases hexceeds : limit.toInt < magnitude.toInt
  · obtain ⟨a', ha', -, hsa, hna⟩ := fcqRescale_shrinks hlimit hexceeds haLe
    obtain ⟨b', hb', -, hsb, hnb⟩ := fcqRescale_shrinks hlimit hexceeds hbLe
    refine ⟨magnitude, a', b', rfl, ?_, hsa, hsb, fun h => absurd hexceeds (not_lt.mpr h),
      fun _ => ?_⟩
    · rw [if_pos ((fcqCmp_gt _ _).mpr hexceeds), rescaleOnto, ha', ok_bind, hb', ok_bind]
    · apply norm_le_of_parts
      · simpa using hna
      · simpa using hnb
  · refine ⟨magnitude, a, b, rfl, ?_, .refl a, .refl b, fun _ => ⟨rfl, rfl⟩,
      fun h => absurd h hexceeds⟩
    rw [if_neg ((fcqCmp_gt _ _).not.mpr hexceeds)]

/-- The limited vector is within four units of the circle. -/
theorem Limited.norm_le {a b limit magnitude a' b' : Int64}
    (h : Limited a b limit magnitude a' b') (hmagnitude : fcqHypot a b = .ok magnitude)
    (hlimit : 0 ≤ limit.toInt) (ha : |a.toInt| ≤ 2 ^ 31) (hb : |b.toInt| ≤ 2 ^ 31) :
    ‖planar a' b'‖ ≤ limit.toInt + 4 := by
  obtain ⟨-, -, hclose⟩ := fcqHypot_ok hmagnitude
  have hlength := (abs_le.mp (hclose ha hb)).1
  have hlimitR : (0 : ℝ) ≤ limit.toInt := by exact_mod_cast hlimit
  rcases le_or_gt magnitude.toInt limit.toInt with hwithin | hexceeds
  · obtain ⟨rfl, rfl⟩ := h.kept hwithin
    have : (magnitude.toInt : ℝ) ≤ limit.toInt := by exact_mod_cast hwithin
    linarith
  · have hexceedsR : (limit.toInt : ℝ) < magnitude.toInt := by exact_mod_cast hexceeds
    have hscaled := norm_scaled_le hlimitR hexceedsR (show (0 : ℝ) ≤ 2 by norm_num)
      (by linarith)
    have hsum := norm_le_norm_sub_add (planar a' b')
      (((limit.toInt : ℝ) / magnitude.toInt) • planar a b)
    linarith [h.scaled hexceeds]

/-- The limiter is close to the exact limiter of a close radius. -/
theorem Limited.near_radial {a b limit magnitude a' b' : Int64} {R ε : ℝ}
    (h : Limited a b limit magnitude a' b') (hmagnitude : fcqHypot a b = .ok magnitude)
    (hlimit : 0 ≤ limit.toInt) (ha : |a.toInt| ≤ 2 ^ 31) (hb : |b.toInt| ≤ 2 ^ 31) (hR : 0 < R)
    (hε : |(limit.toInt : ℝ) - R| ≤ ε) :
    ‖planar a' b' - radial R (planar a b)‖ ≤ 11 / 4 + ε := by
  obtain ⟨-, -, hclose⟩ := fcqHypot_ok hmagnitude
  have hlength := hclose ha hb
  have hlimitR : (0 : ℝ) ≤ limit.toInt := by exact_mod_cast hlimit
  rcases le_or_gt magnitude.toInt limit.toInt with hwithin | hexceeds
  · obtain ⟨rfl, rfl⟩ := h.kept hwithin
    have hwithinR : (magnitude.toInt : ℝ) ≤ limit.toInt := by exact_mod_cast hwithin
    have := norm_unlimited_sub_radial_le hR (by norm_num) hε hlength hwithinR
    linarith
  · have hexceedsR : (limit.toInt : ℝ) < magnitude.toInt := by exact_mod_cast hexceeds
    have hradial := norm_scaled_sub_radial_le hR hlimitR (by norm_num) hε hlength hexceedsR
    have hsum := norm_sub_le_norm_sub_add_norm_sub (planar a' b')
      (((limit.toInt : ℝ) / magnitude.toInt) • planar a b) (radial R (planar a b))
    linarith [h.scaled hexceeds]

/-! ## The public limiter -/

section Public

variable {Q : Type} [FilterFormat Q]

/-- `limit_voltage`. -/
def limitVoltage (limited : Extent) (voltage : Ab Q) (limit : Q) : Except Status (Ab Q) :=
  let bound := FilterFormat.load limit
  if limited.address = 0 then .error .errorArgument
  else if fcqCmp bound 0 < 0 then .error .errorDomain
  else do
    let (a, b) ← baseLimit (FilterFormat.load voltage.alpha) (FilterFormat.load voltage.beta) bound
    let alpha ← fcStore a
    let beta ← fcStore b
    .ok ⟨alpha, beta⟩

/-- A working value of `[-1, 1]` is stored. -/
theorem fcStore_total {x : Int64} (hx : |x.toInt| ≤ 2 ^ 31) :
    ∃ stored : Q, fcStore x = .ok stored := by
  obtain ⟨stored, hcall, -⟩ := FilterFormat.exportFixed_ok x (FilterFormat.zero : Q) hx
  exact ⟨stored, by rw [fcStore, hcall]; rfl⟩

theorem abs_load_le (x : Q) : |(FilterFormat.load x).toInt| ≤ 2 ^ 31 := by
  obtain ⟨hlow, hhigh⟩ := load_bounds x
  exact abs_le.mpr ⟨hlow, hhigh.le⟩

/-- Every vector is limited: the call returns OK, the components keep their signs and
shrink, a magnitude within the limit leaves them alone, and the result is on the
circle up to four units.  Wherever a magnitude is computed it is at least both
components, so that a rescaled component stays within the limit. -/
theorem voltage_limit_radial :
    (∀ (limited : Extent) (voltage : Ab Q) (limit : Q), limited.address ≠ 0 →
      0 ≤ (QFormat.widen limit).toInt →
        ∃ (stored : Ab Q) (magnitude a' b' : Int64),
          limitVoltage limited voltage limit = .ok stored ∧
          fcStore a' = .ok stored.alpha ∧ fcStore b' = .ok stored.beta ∧
          baseLimit (FilterFormat.load voltage.alpha) (FilterFormat.load voltage.beta)
            (FilterFormat.load limit) = .ok (a', b') ∧
          fcqHypot (FilterFormat.load voltage.alpha) (FilterFormat.load voltage.beta) =
            .ok magnitude ∧
          Shrunk (FilterFormat.load voltage.alpha) a' ∧
          Shrunk (FilterFormat.load voltage.beta) b' ∧
          (magnitude.toInt ≤ (FilterFormat.load limit).toInt →
            a' = FilterFormat.load voltage.alpha ∧ b' = FilterFormat.load voltage.beta) ∧
          a'.toInt ^ 2 + b'.toInt ^ 2 ≤ ((FilterFormat.load limit).toInt + 4) ^ 2) ∧
    ∀ a b magnitude : Int64, fcqHypot a b = .ok magnitude →
      max |a.toInt| |b.toInt| ≤ magnitude.toInt ∧
      ∀ limit : Int64, 0 ≤ limit.toInt → limit.toInt < magnitude.toInt →
        ∃ a' b', rescaleOnto a b limit magnitude = .ok (a', b') ∧
          |a'.toInt| ≤ limit.toInt ∧ |b'.toInt| ≤ limit.toInt := by
  constructor
  · intro limited voltage limit haddress hlimit
    have hbound : 0 ≤ (FilterFormat.load limit).toInt := by
      rw [FilterFormat.toInt_load]
      positivity
    have ha := abs_load_le voltage.alpha
    have hb := abs_load_le voltage.beta
    obtain ⟨magnitude, a', b', hmagnitude, hbase, hlimited⟩ := baseLimit_ok hbound ha hb
    obtain ⟨alpha, halpha⟩ := fcStore_total (Q := Q) (hlimited.alpha.magnitude.trans ha)
    obtain ⟨beta, hbeta⟩ := fcStore_total (Q := Q) (hlimited.beta.magnitude.trans hb)
    refine ⟨⟨alpha, beta⟩, magnitude, a', b', ?_, halpha, hbeta, hbase, hmagnitude,
      hlimited.alpha, hlimited.beta, hlimited.kept, ?_⟩
    · have hnonneg : ¬fcqCmp (FilterFormat.load limit) 0 < 0 := by
        rw [fcqCmp_lt, Int64.toInt_zero, not_lt]
        exact hbound
      rw [limitVoltage, if_neg haddress, if_neg hnonneg, hbase, ok_bind]
      dsimp only
      rw [halpha, ok_bind, hbeta, ok_bind]
    · have hnorm := hlimited.norm_le hmagnitude hbound ha hb
      have hboundR : (0 : ℝ) ≤ (FilterFormat.load limit).toInt := by exact_mod_cast hbound
      rw [norm_planar, Real.sqrt_le_left (by linarith)] at hnorm
      exact_mod_cast hnorm
  · intro a b magnitude hmagnitude
    obtain ⟨ha, hb, -⟩ := fcqHypot_ok hmagnitude
    refine ⟨max_le ha hb, fun limit hlimit hexceeds => ?_⟩
    obtain ⟨a', ha', hla, -⟩ := fcqRescale_shrinks hlimit hexceeds ha
    obtain ⟨b', hb', hlb, -⟩ := fcqRescale_shrinks hlimit hexceeds hb
    exact ⟨a', b', by rw [rescaleOnto, ha', ok_bind, hb', ok_bind], hla, hlb⟩

theorem voltage_limit_radial_quarter :
    (∃ stored : Ab Int16, limitVoltage ⟨4096, 4⟩ ⟨16384, -16384⟩ (8192 : Int16) = .ok stored) ∧
      max |(3000 : Int64).toInt| |(-4000 : Int64).toInt| ≤ (5000 : Int64).toInt ∧
      ∃ a' b', rescaleOnto 3000 (-4000) 1000 5000 = .ok (a', b') ∧
        |a'.toInt| ≤ (1000 : Int64).toInt ∧ |b'.toInt| ≤ (1000 : Int64).toInt := by
  obtain ⟨hcall, hlength⟩ := voltage_limit_radial (Q := Int16)
  obtain ⟨stored, -, -, -, hstored, -⟩ :=
    hcall ⟨4096, 4⟩ ⟨16384, -16384⟩ (8192 : Int16) (by decide) (by decide)
  obtain ⟨hmax, hscaled⟩ := hlength 3000 (-4000) 5000 rfl
  exact ⟨⟨stored, hstored⟩, hmax, hscaled 1000 (by decide) (by decide)⟩

end Public

end Xhive.Fieldctrl
