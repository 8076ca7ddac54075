import Mathlib.Data.Rat.Cast.Order
import Mathlib.Tactic.IntervalCases
import Xhive.Shrtim.Outputs
import Xhive.Support.Rounding
import Xhive.Support.Searches

/-!
# The frequency of a PWM unit

`solve_timing` rounds a period at each of eight prescalers and takes the first
that fits its registers.  The prescalers overlap, so the accepted frequencies
form one interval, and the frequency read back is close to the one asked for.
-/

namespace Xhive.Shrtim

open Xhive.Support

/-! ## One candidate -/

/-- `s_ratio_num` and `s_ratio_den` as numbers. -/
def numerator (i : ℕ) : ℕ := (ratioNum.getD i 1).toNat

def denominator (i : ℕ) : ℕ := (ratioDen.getD i 1).toNat

theorem numerator_eq : ∀ i < 8, numerator i = 32 >>> min i 5 := by
  decide

theorem denominator_eq : ∀ i < 8, denominator i = 2 ^ (i - 5) := by
  decide

theorem ratio_bounds : ∀ i < 8, 0 < numerator i ∧ numerator i ≤ 32 ∧
    0 < denominator i ∧ denominator i ≤ 4 := by
  decide

/-- The rounded period at a candidate, `rate` counter cycles a second. -/
def roundedPeriod (clk rate i : ℕ) : ℕ :=
  roundedQuotient (clk * numerator i) (rate * denominator i)

/-- The least period that the registers accept at a candidate. -/
def periodMin (i : ℕ) : ℕ := 0x60 >>> min i 5

def PeriodFits (i p : ℕ) : Prop :=
  periodMin i ≤ p ∧ p ≤ 65535

theorem toNat_ticksMin : ∀ i < 8, (ticksMin i).toNat = periodMin i := by
  decide

theorem periodMin_bounds : ∀ i < 8, 3 ≤ periodMin i ∧ periodMin i ≤ 96 := by
  decide

section Candidate

variable {clk hz mult : UInt32} {i : ℕ}

theorem toNat_div (hmult : mult = 1 ∨ mult = 2) (hi : i < 8) :
    (hz.toUInt64 * mult.toUInt64 * ratioDen.getD i 1).toNat =
      hz.toNat * mult.toNat * denominator i := by
  obtain ⟨-, -, -, hden⟩ := ratio_bounds i hi
  have hhz := hz.toNat_lt
  have hrate : hz.toNat * mult.toNat ≤ 2 ^ 32 * 2 := by
    refine Nat.mul_le_mul hhz.le ?_
    rcases hmult with rfl | rfl <;> decide
  have hdiv : hz.toNat * mult.toNat * denominator i ≤ 2 ^ 32 * 2 * 4 := Nat.mul_le_mul hrate hden
  have hrateFits : hz.toNat * mult.toNat < 2 ^ 64 := by omega
  rw [UInt64.toNat_mul, UInt64.toNat_mul, UInt32.toNat_toUInt64, UInt32.toNat_toUInt64,
    Nat.mod_eq_of_lt hrateFits, ← denominator, Nat.mod_eq_of_lt (by omega)]

theorem toNat_cycles (hi : i < 8) :
    (clk.toUInt64 * ratioNum.getD i 1).toNat = clk.toNat * numerator i := by
  obtain ⟨-, hnum, -⟩ := ratio_bounds i hi
  have hcycles : clk.toNat * numerator i ≤ 2 ^ 32 * 32 := Nat.mul_le_mul clk.toNat_lt.le hnum
  rw [UInt64.toNat_mul, UInt32.toNat_toUInt64, ← numerator, Nat.mod_eq_of_lt (by omega)]

/-- The sum that is divided does not wrap. -/
theorem cycles_fit {div : ℕ} (hi : i < 8) (hdiv : div ≤ 2 ^ 35) :
    clk.toNat * numerator i + div / 2 < 2 ^ 64 := by
  obtain ⟨-, hnum, -⟩ := ratio_bounds i hi
  have hcycles : clk.toNat * numerator i ≤ 2 ^ 32 * 32 := Nat.mul_le_mul clk.toNat_lt.le hnum
  omega

theorem div_le (hmult : mult = 1 ∨ mult = 2) (hi : i < 8) :
    hz.toNat * mult.toNat * denominator i ≤ 2 ^ 35 := by
  obtain ⟨-, -, -, hden⟩ := ratio_bounds i hi
  have hrate : hz.toNat * mult.toNat ≤ 2 ^ 32 * 2 := by
    refine Nat.mul_le_mul hz.toNat_lt.le ?_
    rcases hmult with rfl | rfl <;> decide
  exact (Nat.mul_le_mul hrate hden).trans (by norm_num)

/-- A division of the HAL, in machine words, gives the rounded quotient. -/
theorem toNat_quotient (hhz : hz ≠ 0) (hmult : mult = 1 ∨ mult = 2) (hi : i < 8) :
    ((clk.toUInt64 * ratioNum.getD i 1 + hz.toUInt64 * mult.toUInt64 * ratioDen.getD i 1 / 2) /
      (hz.toUInt64 * mult.toUInt64 * ratioDen.getD i 1)).toNat =
      roundedPeriod clk.toNat (hz.toNat * mult.toNat) i := by
  obtain ⟨-, -, hden, -⟩ := ratio_bounds i hi
  have hpos : 0 < hz.toNat * mult.toNat * denominator i := by
    refine Nat.mul_pos (Nat.mul_pos ?_ ?_) hden
    · exact Nat.pos_of_ne_zero fun h => hhz (UInt32.toNat_inj.mp h)
    · rcases hmult with rfl | rfl <;> decide
  rw [toNat_div_add_half]
  · rw [toNat_div hmult hi, toNat_cycles hi, roundedPeriod]
  · rwa [toNat_div hmult hi]
  · rw [toNat_div hmult hi, toNat_cycles hi]
    exact cycles_fit hi (div_le hmult hi)

theorem timingCandidate_eq (hhz : hz ≠ 0) (hmult : mult = 1 ∨ mult = 2) (hi : i < 8)
    (timing : Timing) :
    timingCandidate clk hz mult i = some timing ↔
      PeriodFits i (roundedPeriod clk.toNat (hz.toNat * mult.toNat) i) ∧
        timing.ratio = ratioHw.getD i .div4 ∧ timing.ratioIdx = i ∧
        timing.period.toNat = roundedPeriod clk.toNat (hz.toNat * mult.toNat) i := by
  have hquotient := @toNat_quotient clk hz mult i hhz hmult hi
  unfold timingCandidate
  extract_lets div p
  change p.toNat = _ at hquotient
  have hfits : (ticksMin i).toUInt64 ≤ p ∧ p ≤ 0xFFFF ↔
      PeriodFits i (roundedPeriod clk.toNat (hz.toNat * mult.toNat) i) := by
    rw [UInt64.le_iff_toNat_le, UInt64.le_iff_toNat_le, UInt32.toNat_toUInt64,
      toNat_ticksMin i hi, hquotient]
    rfl
  by_cases hp : PeriodFits i (roundedPeriod clk.toNat (hz.toNat * mult.toNat) i)
  · have hperiod : p.toUInt32.toNat = roundedPeriod clk.toNat (hz.toNat * mult.toNat) i := by
      rw [UInt64.toNat_toUInt32, hquotient, Nat.mod_eq_of_lt (by have := hp.2; omega)]
    rw [if_pos (hfits.mpr hp), Option.some_inj]
    constructor
    · rintro rfl
      exact ⟨hp, rfl, rfl, hperiod⟩
    · rintro ⟨-, hratio, hidx, heq⟩
      obtain ⟨ratio, period, ratioIdx⟩ := timing
      obtain rfl : p.toUInt32 = period := UInt32.toNat_inj.mp (hperiod.trans heq.symm)
      exact congrArg₂ (fun r j => Timing.mk r _ j) hratio.symm hidx.symm
  · rw [if_neg (hfits.not.mpr hp)]
    exact iff_of_false nofun fun h => hp h.1

theorem timingCandidate_eq_none (hhz : hz ≠ 0) (hmult : mult = 1 ∨ mult = 2) (hi : i < 8) :
    timingCandidate clk hz mult i = none ↔
      ¬PeriodFits i (roundedPeriod clk.toNat (hz.toNat * mult.toNat) i) := by
  constructor
  · intro hnone hfits
    have hlt : roundedPeriod clk.toNat (hz.toNat * mult.toNat) i < 2 ^ 32 := by
      have := hfits.2
      omega
    have hsome := (@timingCandidate_eq clk hz mult i hhz hmult hi ⟨ratioHw.getD i .div4,
      UInt32.ofNat (roundedPeriod clk.toNat (hz.toNat * mult.toNat) i), i⟩).mpr
      ⟨hfits, rfl, rfl, UInt32.toNat_ofNat_of_lt' hlt⟩
    rw [hnone] at hsome
    cases hsome
  · intro hfits
    cases htiming : timingCandidate clk hz mult i with
    | none => rfl
    | some timing => exact absurd ((timingCandidate_eq hhz hmult hi timing).mp htiming).1 hfits

end Candidate

/-! ## The search -/

section Search

variable {clk hz mult : UInt32}

theorem solveTiming_eq_ok (hhz : hz ≠ 0) (timing : Timing) :
    solveTiming clk hz mult = .ok timing ↔
      (List.range 8).findSome? (timingCandidate clk hz mult) = some timing := by
  rw [solveTiming, if_neg hhz]
  cases (List.range 8).findSome? (timingCandidate clk hz mult) <;> simp

/-- Some prescaler has a period that fits, exactly between the two ends. -/
theorem exists_periodFits_iff (clk : ℕ) {rate : ℕ} (hrate : 0 < rate) :
    (∃ i < 8, PeriodFits i (roundedPeriod clk rate i)) ↔
      5 * rate ≤ 2 * clk ∧ 2 * clk < 524284 * rate := by
  have hfits : ∀ i, i < 8 → (PeriodFits i (roundedPeriod clk rate i) ↔
      2 * periodMin i * (rate * denominator i) ≤
          2 * (clk * numerator i) + rate * denominator i ∧
        2 * (clk * numerator i) < (2 * 65535 + 1) * (rate * denominator i)) := by
    intro i hi
    have hpos := Nat.mul_pos hrate (ratio_bounds i hi).2.2.1
    rw [PeriodFits, roundedPeriod, le_roundedQuotient_iff hpos, roundedQuotient_le_iff hpos]
  constructor
  · rintro ⟨i, hi, hperiod⟩
    rw [hfits i hi] at hperiod
    rw [numerator_eq i hi, denominator_eq i hi, periodMin] at hperiod
    interval_cases i <;> norm_num at hperiod <;> omega
  · rintro ⟨hlow, hhigh⟩
    -- the three slowest prescalers cover the interval
    have hcover : ∀ i, i < 8 → 2 * periodMin i * (rate * denominator i) ≤
          2 * (clk * numerator i) + rate * denominator i →
        2 * (clk * numerator i) < (2 * 65535 + 1) * (rate * denominator i) →
        ∃ i < 8, PeriodFits i (roundedPeriod clk rate i) :=
      fun i hi h h' => ⟨i, hi, (hfits i hi).mpr ⟨h, h'⟩⟩
    have hslow := hcover 7 (by norm_num)
    have hmiddle := hcover 6 (by norm_num)
    have hplain := hcover 5 (by norm_num)
    simp only [numerator_eq 7 (by norm_num), numerator_eq 6 (by norm_num),
      numerator_eq 5 (by norm_num), denominator_eq 7 (by norm_num), denominator_eq 6 (by norm_num),
      denominator_eq 5 (by norm_num), periodMin] at hslow hmiddle hplain
    norm_num at hslow hmiddle hplain
    by_cases h₅ : 2 * clk < 131071 * rate
    · exact hplain (by omega) (by omega)
    · by_cases h₆ : 2 * clk < 262142 * rate
      · exact hmiddle (by omega) (by omega)
      · exact hslow (by omega) (by omega)

/-- The frequency of a timer with a period at a candidate. -/
def programmedFrequency (clk mult period i : ℕ) : ℚ :=
  clk * numerator i / (mult * period * denominator i)

/-- What `solve_timing` does for a clock and a request, in exact arithmetic. -/
structure SolvesTiming (clk hz mult : UInt32) : Prop where
  divisor : ∀ i < 8, (hz.toUInt64 * mult.toUInt64 * ratioDen.getD i 1).toNat =
    hz.toNat * mult.toNat * denominator i
  dividend : ∀ i < 8,
    (clk.toUInt64 * ratioNum.getD i 1 +
        hz.toUInt64 * mult.toUInt64 * ratioDen.getD i 1 / 2).toNat =
      clk.toNat * numerator i + hz.toNat * mult.toNat * denominator i / 2
  accepts : (∃ timing, solveTiming clk hz mult = .ok timing) ↔
    5 * hz.toNat * mult.toNat ≤ 2 * clk.toNat ∧
      2 * clk.toNat < 524284 * hz.toNat * mult.toNat
  first : ∀ timing, solveTiming clk hz mult = .ok timing →
    timing.ratioIdx < 8 ∧ timing.ratio = ratioHw.getD timing.ratioIdx .div4 ∧
      timing.period.toNat =
        roundedPeriod clk.toNat (hz.toNat * mult.toNat) timing.ratioIdx ∧
      PeriodFits timing.ratioIdx timing.period.toNat ∧
      ∀ j < timing.ratioIdx,
        ¬PeriodFits j (roundedPeriod clk.toNat (hz.toNat * mult.toNat) j)
  programmed : ∀ timing, solveTiming clk hz mult = .ok timing →
    |programmedFrequency clk.toNat mult.toNat timing.period.toNat timing.ratioIdx - hz.toNat| ≤
      (hz.toNat : ℚ) / (2 * timing.period.toNat)

theorem solveTiming_first (hhz : hz ≠ 0) (hmult : mult = 1 ∨ mult = 2) {timing : Timing}
    (h : solveTiming clk hz mult = .ok timing) :
    timing.ratioIdx < 8 ∧ timing.ratio = ratioHw.getD timing.ratioIdx .div4 ∧
      timing.period.toNat =
        roundedPeriod clk.toNat (hz.toNat * mult.toNat) timing.ratioIdx ∧
      PeriodFits timing.ratioIdx timing.period.toNat ∧
      ∀ j < timing.ratioIdx,
        ¬PeriodFits j (roundedPeriod clk.toNat (hz.toNat * mult.toNat) j) := by
  obtain ⟨i, hi, hsome, hbefore⟩ := findSome?_range_eq_some.mp ((solveTiming_eq_ok hhz _).mp h)
  obtain ⟨hfits, hratio, hidx, hperiod⟩ := (timingCandidate_eq hhz hmult hi timing).mp hsome
  rw [hidx]
  refine ⟨hi, hratio, hperiod, hperiod ▸ hfits, fun j hj => ?_⟩
  exact (timingCandidate_eq_none hhz hmult (hj.trans hi)).mp (hbefore j hj)

theorem toNat_ne_zero {a : UInt32} (h : a ≠ 0) : 0 < a.toNat :=
  Nat.pos_of_ne_zero fun hzero => h (UInt32.toNat_inj.mp hzero)

theorem rate_pos (hhz : hz ≠ 0) (hmult : mult = 1 ∨ mult = 2) : 0 < hz.toNat * mult.toNat := by
  refine Nat.mul_pos (toNat_ne_zero hhz) ?_
  rcases hmult with rfl | rfl <;> decide

theorem solveTiming_accepts (hhz : hz ≠ 0) (hmult : mult = 1 ∨ mult = 2) :
    (∃ timing, solveTiming clk hz mult = .ok timing) ↔
      5 * hz.toNat * mult.toNat ≤ 2 * clk.toNat ∧
        2 * clk.toNat < 524284 * hz.toNat * mult.toNat := by
  rw [Nat.mul_assoc, Nat.mul_assoc, ← exists_periodFits_iff _ (rate_pos hhz hmult)]
  constructor
  · rintro ⟨timing, h⟩
    obtain ⟨hidx, -, hperiod, hfits, -⟩ := solveTiming_first hhz hmult h
    exact ⟨_, hidx, hperiod ▸ hfits⟩
  · rintro ⟨i, hi, hfits⟩
    cases hsearch : (List.range 8).findSome? (timingCandidate clk hz mult) with
    | some timing => exact ⟨timing, (solveTiming_eq_ok hhz _).mpr hsearch⟩
    | none =>
        have hnone := findSome?_range_eq_none.mp hsearch i hi
        exact absurd hfits ((timingCandidate_eq_none hhz hmult hi).mp hnone)

/-- A period within one half of the exact one gives a frequency this close. -/
theorem abs_programmedFrequency_sub_le (clk : ℕ) {hz mult i : ℕ} (hhz : 0 < hz) (hmult : 0 < mult)
    (hi : i < 8) (hperiod : 0 < roundedPeriod clk (hz * mult) i) :
    |programmedFrequency clk mult (roundedPeriod clk (hz * mult) i) i - hz| ≤
      (hz : ℚ) / (2 * roundedPeriod clk (hz * mult) i) := by
  obtain ⟨-, -, hden, -⟩ := ratio_bounds i hi
  have hclose := abs_roundedQuotient_sub_le (clk * numerator i)
    (Nat.mul_pos (Nat.mul_pos hhz hmult) hden)
  rw [← roundedPeriod] at hclose
  generalize roundedPeriod clk (hz * mult) i = p at hperiod hclose ⊢
  have hhz' : (0 : ℚ) < hz := Nat.cast_pos.mpr hhz
  have hmult' : (0 : ℚ) < mult := Nat.cast_pos.mpr hmult
  have hden' : (0 : ℚ) < denominator i := Nat.cast_pos.mpr hden
  have hp : (0 : ℚ) < p := Nat.cast_pos.mpr hperiod
  push_cast at hclose
  have hdifference : programmedFrequency clk mult p i - hz =
      -(p - (clk : ℚ) * numerator i / (hz * mult * denominator i)) * (hz / p) := by
    rw [programmedFrequency]
    field_simp
    ring
  rw [hdifference, abs_mul, abs_neg, abs_of_pos (div_pos hhz' hp)]
  calc
    _ ≤ 1 / 2 * (hz / p : ℚ) := mul_le_mul_of_nonneg_right hclose (by positivity)
    _ = hz / (2 * p) := by field_simp

theorem solveTiming_programmed (hhz : hz ≠ 0) (hmult : mult = 1 ∨ mult = 2) {timing : Timing}
    (h : solveTiming clk hz mult = .ok timing) :
    |programmedFrequency clk.toNat mult.toNat timing.period.toNat timing.ratioIdx - hz.toNat| ≤
      (hz.toNat : ℚ) / (2 * timing.period.toNat) := by
  obtain ⟨hidx, -, hperiod, hfits, -⟩ := solveTiming_first hhz hmult h
  have hpos : 0 < timing.period.toNat := by
    have := (periodMin_bounds _ hidx).1.trans hfits.1
    omega
  rw [hperiod] at hpos ⊢
  exact abs_programmedFrequency_sub_le _ (toNat_ne_zero hhz)
    (by rcases hmult with rfl | rfl <;> decide) hidx hpos

theorem solvesTiming (hhz : hz ≠ 0) (hmult : mult = 1 ∨ mult = 2) : SolvesTiming clk hz mult where
  divisor _ hi := toNat_div hmult hi
  dividend i hi := by
    rw [UInt64.toNat_add, toNat_cycles hi, UInt64.toNat_div, toNat_div hmult hi]
    exact Nat.mod_eq_of_lt (cycles_fit hi (div_le hmult hi))
  accepts := solveTiming_accepts hhz hmult
  first _ h := solveTiming_first hhz hmult h
  programmed _ h := solveTiming_programmed hhz hmult h

end Search

/-! ## The frequency read back -/

/-- What `shrtim_pwm_freq_get` reads for a unit. -/
def timed (unit : ℕ) (s : Hal) : PrescalerRatio × UInt32 × ℕ × Bool × UInt32 :=
  ((s.timers unit).prescaler, (s.timers unit).period, (s.units unit).align,
    (s.units unit).configured, s.clkHz)

section Timed

variable {unit : ℕ}

theorem timed_onTimer {f : TimerRegs → TimerRegs} (tmr : ℕ) (s : Hal)
    (hf : ∀ r, (f r).prescaler = r.prescaler ∧ (f r).period = r.period) :
    timed unit (onTimer tmr f s) = timed unit s := by
  by_cases h : unit = tmr
  · subst h
    simp [timed, onTimer, hf]
  · simp [timed, onTimer, h]

/-! The accessors that write neither prescaler nor period. -/

section Frame

variable (tmr : ℕ) (s : Hal)

@[simp] theorem timed_timCounterEnable :
    timed unit (timCounterEnable tmr s) = timed unit s :=
  timed_onTimer tmr s fun _ => ⟨rfl, rfl⟩

@[simp] theorem timed_timCounterDisable :
    timed unit (timCounterDisable tmr s) = timed unit s :=
  timed_onTimer tmr s fun _ => ⟨rfl, rfl⟩

@[simp] theorem timed_setUpdateDisabled (disabled : Bool) :
    timed unit (setUpdateDisabled tmr disabled s) = timed unit s :=
  timed_onTimer tmr s fun _ => ⟨rfl, rfl⟩

@[simp] theorem timed_timEnablePreload :
    timed unit (timEnablePreload tmr s) = timed unit s :=
  timed_onTimer tmr s fun _ => ⟨rfl, rfl⟩

@[simp] theorem timed_timSetUpdateTrig (trig : UpdateTrig) :
    timed unit (timSetUpdateTrig tmr trig s) = timed unit s :=
  timed_onTimer tmr s fun _ => ⟨rfl, rfl⟩

@[simp] theorem timed_outConfig (out : ℕ) (negative idleActive : Bool) :
    timed unit (outConfig out negative idleActive s) = timed unit s := rfl

@[simp] theorem timed_enableOutput (out : ℕ) : timed unit (enableOutput out s) = timed unit s := rfl

end Frame

theorem timed_onOutput (out : ℕ) (f : OutputRegs → OutputRegs) (s : Hal) :
    timed unit (onOutput out f s) = timed unit s := rfl

theorem timed_applyCrossbars (s : Hal) : timed unit (applyCrossbars unit s) = timed unit s := by
  have hcompare : ∀ (x : Crossbar) (t : Hal), timed unit (setCompareOf unit x t) = timed unit t := by
    intro x t
    rw [setCompareOf]
    split
    · exact timed_onTimer _ t fun _ => ⟨rfl, rfl⟩
    · rfl
  simp only [applyCrossbars, outSetOutputSetSrc, outSetOutputResetSrc, timed_onOutput, hcompare]

theorem timed_centerMasterSetup (hunit : unit < halUnits) (ratioIdx : ℕ) (period : UInt32)
    (s : Hal) : timed unit (centerMasterSetup ratioIdx period s) = timed unit s := by
  have hne : unit ≠ unitMaster := hunit.ne
  simp [centerMasterSetup_eq, timed, onTimer, hne]

theorem timed_pwmFreqApply (hunit : unit < halUnits) (timing : Timing) (s : Hal) :
    timed unit (pwmFreqApply unit timing s) =
      (timing.ratio, timing.period, (s.units unit).align, (s.units unit).configured, s.clkHz) := by
  unfold pwmFreqApply
  extract_lets restart s₁ s₂ s₃ s₄
  have h₂ : timed unit s₂ = timed unit s :=
    (timed_setUpdateDisabled _ s₁ _).trans (view_ite (timed_timCounterDisable _ s) rfl)
  have h₃ : timed unit s₃ = timed unit s :=
    view_ite ((timed_centerMasterSetup hunit _ _ s₂).trans h₂) h₂
  have h₄ : timed unit s₄ =
      (timing.ratio, timing.period, (s.units unit).align, (s.units unit).configured, s.clkHz) := by
    have hconfig := congrArg (fun v => v.2.2) h₃
    simp only [s₄, forceUpdate, timed_setUpdateDisabled, timed_applyCrossbars]
    simpa [timed, onUnit, timSetPeriod, timSetPrescaler, onTimer] using hconfig
  exact (view_ite (timed_timCounterEnable _ s₄) rfl).trans h₄

/-- What every turn keeps holds after the loop. -/
theorem turnsWhileNot_keeps {P : Hal → Prop} {done : Hal → Bool} {body : Hal → Hal}
    (hbody : ∀ s, P s → P (body s)) (count : ℕ) {s : Hal} (hs : P s) :
    P (turnsWhileNot done body count s) := by
  induction count generalizing s with
  | zero => exact hs
  | succ count ih =>
      rw [turnsWhileNot]
      split
      · exact hs
      · exact ih (hbody s hs)

theorem timed_pwmInitConfigure (cfg : PwmCfg) (timing : Timing) (s : Hal) :
    timed unit (pwmInitConfigure unit cfg timing s) =
      (timing.ratio, timing.period, cfg.align, true, s.clkHz) := by
  unfold pwmInitConfigure
  extract_lets s₁ s₂
  have h₁ : timed unit s₁ = (timing.ratio, timing.period, cfg.align, true, s.clkHz) := by
    refine turnsWhileNot_keeps
      (P := fun t => timed unit t = (timing.ratio, timing.period, cfg.align, true, s.clkHz)) ?_ 3 ?_
    · intro t ht
      have hconfig := congrArg (fun v => v.2.2) ht
      simp only [forceUpdate, timed_timEnablePreload, timed_timSetUpdateTrig]
      simpa [timed, timSetPeriod, timSetCountingMode, timSetPrescaler, timDisablePreload, onTimer]
        using hconfig
    · simp only [forceUpdate, timed_timEnablePreload, timed_timSetUpdateTrig, timed_outConfig,
        timed_applyCrossbars]
      simp [timed, onUnit, timSetCounterMode, timSetResetTrig, timSetCountingMode, timSetPeriod,
        timSetPrescaler, timDisablePreload, onTimer]
  have hwanted : ∀ (wanted : ℕ → Bool) (t : Hal),
      timed unit (onUnit unit (fun st => { st with outWanted := wanted }) t) = timed unit t := by
    intro wanted t
    simp [timed, onUnit]
  have h₂ : timed unit s₂ = timed unit s₁ := by
    refine view_ite ?_ (hwanted _ s₁)
    rw [hwanted, timed_enableOutput, timed_enableOutput]
  exact h₂.trans h₁

end Timed

/-- The unit has the prescaler and the period found for a frequency. -/
def ProgrammedFor (unit : ℕ) (hz : UInt32) (s : Hal) : Prop :=
  ∃ timing, solveTiming s.clkHz hz (cycleMult (s.units unit).align) = .ok timing ∧
    timed unit s = (timing.ratio, timing.period, (s.units unit).align, true, s.clkHz)

theorem programmedFor_pwmFreq {unit : ℕ} {hz : UInt32} {s t : Hal}
    (h : shrtimPwmFreq unit hz s = (.ok (), t)) :
    unit < halUnits ∧ t.clkHz ≠ 0 ∧ ProgrammedFor unit hz t := by
  obtain ⟨_, hunit, h⟩ := Procedure.attempt_bind_eq_ok h
  rw [Procedure.read_bind] at h
  obtain ⟨_, hconfigured, h⟩ := Procedure.attempt_bind_eq_ok h
  obtain ⟨timing, htiming, h⟩ := Procedure.attempt_bind_eq_ok h
  obtain ⟨_, -, h⟩ := Procedure.attempt_bind_eq_ok h
  have ht : t = pwmFreqApply unit timing s := (congrArg Prod.snd h).symm
  have hunit' : unit < halUnits := Nat.not_le.mp (reject_eq_ok.mp hunit)
  have hready := reject_eq_ok.mp hconfigured
  rw [not_or, Bool.not_eq_false] at hready
  have htimed := timed_pwmFreqApply hunit' timing s
  rw [← ht, show (s.units unit).configured = true from hready.2] at htimed
  have halign : (t.units unit).align = (s.units unit).align := congrArg (fun v => v.2.2.1) htimed
  have hclk : t.clkHz = s.clkHz := congrArg (fun v => v.2.2.2.2) htimed
  refine ⟨hunit', hclk.trans_ne hready.1, timing, ?_, ?_⟩
  · rw [halign, hclk]
    exact htiming
  · rw [htimed, halign, hclk]

theorem pwmInitChecks_timing {clkHz : UInt32} {unit : ℕ} {cfg : PwmCfg} {c : PwmCfg × Timing}
    (h : pwmInitChecks clkHz unit (some cfg) = .ok c) :
    clkHz ≠ 0 ∧ solveTiming clkHz c.1.freqHz (cycleMult c.1.align) = .ok c.2 := by
  obtain ⟨_, hcfg, h⟩ := ok_of_bind h
  cases hcfg
  obtain ⟨_, -, h⟩ := ok_of_bind h
  obtain ⟨_, -, h⟩ := ok_of_bind h
  obtain ⟨_, hclk, h⟩ := ok_of_bind h
  obtain ⟨timing, htiming, h⟩ := ok_of_bind h
  obtain ⟨_, -, h⟩ := ok_of_bind h
  cases h
  exact ⟨reject_eq_ok.mp hclk, htiming⟩

theorem untimed_clkHz : Untimed Hal.clkHz where
  timer _ _ _ := rfl
  output _ _ _ := rfl
  unit _ _ _ _ _ := rfl

theorem programmedFor_pwmInit {unit : ℕ} {cfg : PwmCfg} {s t : Hal}
    (h : shrtimPwmInit unit (some cfg) s = (.ok (), t)) :
    unit < halUnits ∧ t.clkHz ≠ 0 ∧ ProgrammedFor unit cfg.freqHz t := by
  cases hchecks : pwmInitChecks s.clkHz unit (some cfg) with
  | error e =>
      rw [shrtimPwmInit_of_rejected hchecks] at h
      cases h
  | ok c =>
      obtain ⟨hcfg, hunit⟩ := pwmInitChecks_ok hchecks
      obtain ⟨hclk, htiming⟩ := pwmInitChecks_timing hchecks
      cases hcfg
      rw [shrtimPwmInit_of_checks hchecks] at h
      obtain ⟨_, u, hdead, h⟩ := Procedure.bind_eq_ok h
      have hkept := untimed_clkHz.programDeadtime unit c.1.dtRiseNs c.1.dtFallNs
        (pwmInitStopped unit c.1 c.2 s)
      have hstopped : (pwmInitStopped unit c.1 c.2 s).clkHz = s.clkHz :=
        view_ite (untimed_clkHz.centerMasterSetup _ _ s) rfl
      rw [hdead, hstopped] at hkept
      have ht : t = pwmInitConfigure unit c.1 c.2 u := (congrArg Prod.snd h).symm
      have htimed : timed unit (pwmInitConfigure unit c.1 c.2 u) = _ :=
        timed_pwmInitConfigure c.1 c.2 u
      rw [← ht, show u.clkHz = s.clkHz from hkept] at htimed
      have halign : (t.units unit).align = c.1.align := congrArg (fun v => v.2.2.1) htimed
      have hclk' : t.clkHz = s.clkHz := congrArg (fun v => v.2.2.2.2) htimed
      refine ⟨hunit, hclk'.trans_ne hclk, c.2, ?_, ?_⟩
      · rw [halign, hclk']
        exact htiming
      · rw [htimed, halign, hclk']

theorem toNat_candidateFrequency {clkHz mult period : UInt32} {i : ℕ} (hperiod : period ≠ 0)
    (hmult : mult = 1 ∨ mult = 2) (hi : i < 8)
    (hfits : roundedPeriod clkHz.toNat (period.toNat * mult.toNat) i < 2 ^ 32) :
    (candidateFrequency clkHz mult period i).toNat =
      roundedPeriod clkHz.toNat (period.toNat * mult.toNat) i := by
  rw [candidateFrequency, UInt64.mul_comm mult.toUInt64, UInt64.toNat_toUInt32,
    toNat_quotient hperiod hmult hi, Nat.mod_eq_of_lt hfits]

theorem cycleMult_cases (align : ℕ) : cycleMult align = 1 ∨ cycleMult align = 2 := by
  rw [cycleMult]
  split
  · exact .inr rfl
  · exact .inl rfl

theorem ratioHw_injective : ∀ i < 8, ∀ j < i, ratioHw.getD j .div4 ≠ ratioHw.getD i .div4 := by
  decide

/-- The search for the prescaler that the register holds finds the candidate. -/
theorem shrtimPwmFreqGet_eq {unit : ℕ} {s : Hal} {timing : Timing} (hunit : unit < halUnits)
    (hclk : s.clkHz ≠ 0) (hidx : timing.ratioIdx < 8)
    (hratio : timing.ratio = ratioHw.getD timing.ratioIdx .div4) (hperiod : timing.period ≠ 0)
    (h : timed unit s = (timing.ratio, timing.period, (s.units unit).align, true, s.clkHz)) :
    shrtimPwmFreqGet unit s = candidateFrequency s.clkHz (cycleMult (s.units unit).align)
      timing.period timing.ratioIdx := by
  have hprescaler : (s.timers unit).prescaler = timing.ratio := congrArg (fun v => v.1) h
  have hregister : (s.timers unit).period = timing.period := congrArg (fun v => v.2.1) h
  have hconfigured : (s.units unit).configured = true := congrArg (fun v => v.2.2.2.1) h
  have hsearch : ((List.range 8).findSome? fun i =>
      if ratioHw.getD i .div4 = timing.ratio then
        some (candidateFrequency s.clkHz (cycleMult (s.units unit).align) timing.period i)
      else none) =
      some (candidateFrequency s.clkHz (cycleMult (s.units unit).align) timing.period
        timing.ratioIdx) := by
    rw [findSome?_range_eq_some]
    refine ⟨_, hidx, if_pos hratio.symm, fun j hj => if_neg fun heq => ?_⟩
    exact ratioHw_injective _ hidx j hj (heq.trans hratio)
  have hnot : ¬(unit = unitMaster ∨ halUnits ≤ unit) :=
    not_or.mpr ⟨hunit.ne, Nat.not_le.mpr hunit⟩
  rw [shrtimPwmFreqGet, if_neg hnot, if_neg (by simp [hclk, hconfigured])]
  simp only [hprescaler, hregister, if_neg hperiod, hsearch, Option.getD_some]

/-- The frequency read back is the one asked for, to half a hertz and half a unit of
the period. -/
def FrequencyKept (unit : ℕ) (hz : UInt32) (s : Hal) : Prop :=
  |((shrtimPwmFreqGet unit s).toNat : ℚ) - hz.toNat| ≤
    (hz.toNat : ℚ) / (2 * (s.timers unit).period.toNat) + 1 / 2

theorem ProgrammedFor.kept {unit : ℕ} {hz : UInt32} {s : Hal} (hunit : unit < halUnits)
    (hclk : s.clkHz ≠ 0) (h : ProgrammedFor unit hz s) : FrequencyKept unit hz s := by
  obtain ⟨timing, htiming, htimed⟩ := h
  have hregister : (s.timers unit).period = timing.period := congrArg (fun v => v.2.1) htimed
  have hmult := cycleMult_cases (s.units unit).align
  have hhz : hz ≠ 0 := by
    rintro rfl
    cases htiming
  obtain ⟨hidx, hratio, -, hfits, -⟩ := solveTiming_first hhz hmult htiming
  have hlow : 3 ≤ timing.period.toNat := (periodMin_bounds _ hidx).1.trans hfits.1
  have hperiod : timing.period ≠ 0 := by
    intro hzero
    rw [hzero] at hlow
    exact absurd hlow (by decide)
  have hget := shrtimPwmFreqGet_eq hunit hclk hidx hratio hperiod htimed
  generalize cycleMult (s.units unit).align = mult at htiming hmult hget
  have hmult_pos : 1 ≤ mult.toNat := by rcases hmult with rfl | rfl <;> decide
  -- the programmed frequency lies between the one asked for and the one read
  have hprogrammed := solveTiming_programmed hhz hmult htiming
  have hread := abs_roundedQuotient_sub_le (s.clkHz.toNat * numerator timing.ratioIdx)
    (Nat.mul_pos (Nat.mul_pos (toNat_ne_zero hperiod) hmult_pos) (ratio_bounds _ hidx).2.2.1)
  rw [← roundedPeriod] at hread
  push_cast at hread
  rw [mul_comm (timing.period.toNat : ℚ), ← programmedFrequency] at hread
  have hsum := (abs_sub_le (roundedPeriod s.clkHz.toNat (timing.period.toNat * mult.toNat)
    timing.ratioIdx : ℚ) _ (hz.toNat : ℚ)).trans (add_le_add hread hprogrammed)
  have hword : roundedPeriod s.clkHz.toNat (timing.period.toNat * mult.toNat) timing.ratioIdx <
      2 ^ 32 := by
    obtain ⟨hfast, -⟩ := (solveTiming_accepts hhz hmult).mp ⟨timing, htiming⟩
    have hhz_le : 5 * (hz.toNat : ℚ) ≤ 2 * s.clkHz.toNat := by
      exact_mod_cast (Nat.le_mul_of_pos_right _ hmult_pos).trans hfast
    have hclk_lt : (s.clkHz.toNat : ℚ) < 2 ^ 32 := by
      exact_mod_cast s.clkHz.toNat_lt
    have hslack : (hz.toNat : ℚ) / (2 * timing.period.toNat) ≤ hz.toNat / 6 := by
      have hlow' : (3 : ℚ) ≤ timing.period.toNat := by exact_mod_cast hlow
      exact div_le_div_of_nonneg_left (Nat.cast_nonneg _) (by norm_num) (by linarith)
    have hupper := (abs_le.mp hsum).2
    have hlt : (roundedPeriod s.clkHz.toNat (timing.period.toNat * mult.toNat) timing.ratioIdx
        : ℚ) < (2 ^ 32 : ℕ) := by
      push_cast
      linarith
    exact_mod_cast hlt
  rw [FrequencyKept, hget, toNat_candidateFrequency hperiod hmult hidx hword, hregister]
  linarith

/-- The search is exact, accepts one interval of frequencies and takes the finest
prescaler that fits; after `shrtim_pwm_init` and `shrtim_pwm_freq` the frequency read
back is the one asked for. -/
theorem timing_law :
    (∀ clk hz mult : UInt32, clk ≠ 0 → hz ≠ 0 → mult = 1 ∨ mult = 2 →
      SolvesTiming clk hz mult) ∧
    (∀ (unit : ℕ) (cfg : PwmCfg) (s t : Hal), shrtimPwmInit unit (some cfg) s = (.ok (), t) →
      FrequencyKept unit cfg.freqHz t) ∧
    ∀ (unit : ℕ) (hz : UInt32) (s t : Hal), shrtimPwmFreq unit hz s = (.ok (), t) →
      FrequencyKept unit hz t := by
  refine ⟨fun clk hz mult _ hhz hmult => solvesTiming hhz hmult, ?_, ?_⟩
  · intro unit cfg s t h
    obtain ⟨hunit, hclk, hprogrammed⟩ := programmedFor_pwmInit h
    exact hprogrammed.kept hunit hclk
  · intro unit hz s t h
    obtain ⟨hunit, hclk, hprogrammed⟩ := programmedFor_pwmFreq h
    exact hprogrammed.kept hunit hclk

/-- 10 kHz in center alignment, and a unit of a ready system at 20 kHz. -/
theorem timing_law_examples :
    SolvesTiming 240000000 10000 2 ∧
      FrequencyKept 0 20000 (shrtimPwmInit 0 (some pwmCfgDefault) readySystem.hal).2 :=
  ⟨timing_law.1 _ _ _ (by decide) (by decide) (.inr rfl),
    timing_law.2.1 0 pwmCfgDefault readySystem.hal _ (Prod.ext (by decide +kernel) rfl)⟩

end Xhive.Shrtim
