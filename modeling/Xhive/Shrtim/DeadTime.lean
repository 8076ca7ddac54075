import Xhive.Shrtim.Timing

/-!
# The dead time of a PWM unit

`program_deadtime` rounds both edges at each of eight prescalers and takes the
finest that holds both.  A long edge coarsens the other, which is programmed as
zero when it is shorter than half a tick.
-/

namespace Xhive.Shrtim

open Xhive.Support

/-! ## Ticks -/

/-- `num` and `den` of `program_deadtime` as numbers. -/
def deadNumerator (i : ℕ) : ℕ := (deadtimeNum.getD i 1).toNat

def deadDenominator (i : ℕ) : ℕ := (deadtimeDen.getD i 1).toNat

theorem dead_ratio_bounds : ∀ i < 8, 0 < deadNumerator i ∧ deadNumerator i ≤ 8 ∧
    0 < deadDenominator i ∧ deadDenominator i ≤ 16 := by
  decide

/-- The last prescaler is the slowest. -/
theorem dead_ratio_slowest : ∀ i < 8,
    deadNumerator 7 * deadDenominator i ≤ deadNumerator i * deadDenominator 7 := by
  decide

/-- The ticks of a prescaler in a number of nanoseconds. -/
def exactTicks (clk ns i : ℕ) : ℚ :=
  ns * clk * deadNumerator i / (deadDenominator i * 1000000000)

def roundedTicks (clk ns i : ℕ) : ℕ :=
  roundedQuotient (ns * clk * deadNumerator i) (deadDenominator i * 1000000000)

section Ticks

variable {clk ns i : ℕ}

theorem deadDiv_pos (hi : i < 8) : 0 < deadDenominator i * 1000000000 :=
  Nat.mul_pos (dead_ratio_bounds i hi).2.2.1 (by norm_num)

theorem abs_roundedTicks_sub_le (clk ns : ℕ) (hi : i < 8) :
    |(roundedTicks clk ns i : ℚ) - exactTicks clk ns i| ≤ 1 / 2 := by
  have hclose := abs_roundedQuotient_sub_le (ns * clk * deadNumerator i) (deadDiv_pos hi)
  rw [← roundedTicks] at hclose
  push_cast at hclose
  exact hclose

/-- Fewer than one half of a tick are rounded to none. -/
theorem roundedTicks_eq_zero_iff (clk ns : ℕ) (hi : i < 8) :
    roundedTicks clk ns i = 0 ↔ exactTicks clk ns i < 1 / 2 := by
  have hpos := deadDiv_pos hi
  have hpos' : (0 : ℚ) < deadDenominator i * 1000000000 := by exact_mod_cast hpos
  rw [← Nat.le_zero, roundedTicks, roundedQuotient_le_iff hpos, exactTicks,
    div_lt_div_iff₀ hpos' (by norm_num), mul_comm _ (2 : ℚ), Nat.mul_zero, Nat.zero_add]
  exact_mod_cast Iff.rfl

theorem roundedTicks_slowest_le (clk ns : ℕ) (hi : i < 8) :
    roundedTicks clk ns 7 ≤ roundedTicks clk ns i := by
  refine roundedQuotient_le (deadDiv_pos (by norm_num)) (deadDiv_pos hi) ?_
  have hratio := Nat.mul_le_mul_left (ns * clk * 1000000000) (dead_ratio_slowest i hi)
  linarith

end Ticks

/-! ## Machine words -/

section Words

variable {clkHz ns : UInt32} {i : ℕ}

theorem deadTicks_fit (hclk : clkHz.toNat ≤ 500000000) (hi : i < 8) :
    ns.toNat * clkHz.toNat * deadNumerator i + deadDenominator i * 1000000000 / 2 < 2 ^ 64 := by
  obtain ⟨-, hnum, -, hden⟩ := dead_ratio_bounds i hi
  have hns := Nat.le_pred_of_lt ns.toNat_lt
  have hproduct : ns.toNat * clkHz.toNat * deadNumerator i ≤ (2 ^ 32 - 1) * 500000000 * 8 :=
    Nat.mul_le_mul (Nat.mul_le_mul hns hclk) hnum
  have hhalf : deadDenominator i * 1000000000 ≤ 16 * 1000000000 := Nat.mul_le_mul_right _ hden
  omega

theorem toNat_deadProduct (hclk : clkHz.toNat ≤ 500000000) (hi : i < 8) :
    (ns.toUInt64 * clkHz.toUInt64 * deadtimeNum.getD i 1).toNat =
      ns.toNat * clkHz.toNat * deadNumerator i := by
  have hfit := @deadTicks_fit clkHz ns i hclk hi
  have hnum := (dead_ratio_bounds i hi).1
  have hfirst : ns.toNat * clkHz.toNat < 2 ^ 64 := by
    have := Nat.le_mul_of_pos_right (ns.toNat * clkHz.toNat) hnum
    omega
  rw [UInt64.toNat_mul, UInt64.toNat_mul, UInt32.toNat_toUInt64, UInt32.toNat_toUInt64,
    Nat.mod_eq_of_lt hfirst, ← deadNumerator, Nat.mod_eq_of_lt (by omega)]

theorem toNat_deadDiv (hi : i < 8) :
    (deadtimeDen.getD i 1 * 1000000000).toNat = deadDenominator i * 1000000000 := by
  have hden := (dead_ratio_bounds i hi).2.2.2
  have hdiv : deadDenominator i * 1000000000 ≤ 16 * 1000000000 := Nat.mul_le_mul_right _ hden
  rw [UInt64.toNat_mul, ← deadDenominator]
  exact Nat.mod_eq_of_lt (lt_of_le_of_lt hdiv (by norm_num))

theorem toNat_deadtimeTicks (hclk : clkHz.toNat ≤ 500000000) (hi : i < 8) :
    (deadtimeTicks clkHz ns i).toNat = roundedTicks clkHz.toNat ns.toNat i := by
  unfold deadtimeTicks
  rw [toNat_div_add_half]
  · rw [toNat_deadProduct hclk hi, toNat_deadDiv hi, roundedTicks]
  · rw [toNat_deadDiv hi]
    exact deadDiv_pos hi
  · rw [toNat_deadProduct hclk hi, toNat_deadDiv hi]
    exact deadTicks_fit hclk hi

end Words

/-! ## The search -/

/-- Both edges fit the fields of the dead-time register. -/
def TicksFit (clk rise fall i : ℕ) : Prop :=
  roundedTicks clk rise i ≤ 511 ∧ roundedTicks clk fall i ≤ 511

section Search

variable {clkHz rise fall : UInt32} {i : ℕ}

theorem deadtimeCandidate_eq (hclk : clkHz.toNat ≤ 500000000) (hi : i < 8) (d : DeadTime) :
    deadtimeCandidate clkHz rise fall i = some d ↔
      TicksFit clkHz.toNat rise.toNat fall.toNat i ∧ d.psc = deadtimePsc.getD i .div16 ∧
        d.rising.toNat = roundedTicks clkHz.toNat rise.toNat i ∧
        d.falling.toNat = roundedTicks clkHz.toNat fall.toNat i := by
  have hrise := @toNat_deadtimeTicks clkHz rise i hclk hi
  have hfall := @toNat_deadtimeTicks clkHz fall i hclk hi
  unfold deadtimeCandidate
  extract_lets tr tf
  change tr.toNat = _ at hrise
  change tf.toNat = _ at hfall
  have hfits : tr ≤ 0x1FF ∧ tf ≤ 0x1FF ↔ TicksFit clkHz.toNat rise.toNat fall.toNat i := by
    rw [UInt64.le_iff_toNat_le, UInt64.le_iff_toNat_le, hrise, hfall]
    rfl
  by_cases hboth : TicksFit clkHz.toNat rise.toNat fall.toNat i
  · obtain ⟨hr, hf⟩ := hboth
    have htr : tr.toUInt32.toNat = roundedTicks clkHz.toNat rise.toNat i := by
      rw [UInt64.toNat_toUInt32, hrise, Nat.mod_eq_of_lt (by omega)]
    have htf : tf.toUInt32.toNat = roundedTicks clkHz.toNat fall.toNat i := by
      rw [UInt64.toNat_toUInt32, hfall, Nat.mod_eq_of_lt (by omega)]
    rw [if_pos (hfits.mpr ⟨hr, hf⟩), Option.some_inj]
    constructor
    · rintro rfl
      exact ⟨⟨hr, hf⟩, rfl, htr, htf⟩
    · rintro ⟨-, hpsc, hrising, hfalling⟩
      obtain ⟨psc, rising, falling⟩ := d
      obtain rfl : tr.toUInt32 = rising := UInt32.toNat_inj.mp (htr.trans hrising.symm)
      obtain rfl : tf.toUInt32 = falling := UInt32.toNat_inj.mp (htf.trans hfalling.symm)
      exact congrArg (fun p => DeadTime.mk p _ _) hpsc.symm
  · rw [if_neg (hfits.not.mpr hboth)]
    exact iff_of_false nofun fun h => hboth h.1

theorem deadtimeCandidate_eq_none (hclk : clkHz.toNat ≤ 500000000) (hi : i < 8) :
    deadtimeCandidate clkHz rise fall i = none ↔
      ¬TicksFit clkHz.toNat rise.toNat fall.toNat i := by
  constructor
  · intro hnone hfits
    have hword : ∀ n, n ≤ 511 → (UInt32.ofNat n).toNat = n :=
      fun n hn => UInt32.toNat_ofNat_of_lt' (lt_of_le_of_lt hn (by norm_num))
    have hsome := (@deadtimeCandidate_eq clkHz rise fall i hclk hi ⟨deadtimePsc.getD i .div16,
      UInt32.ofNat _, UInt32.ofNat _⟩).mpr ⟨hfits, rfl, hword _ hfits.1, hword _ hfits.2⟩
    rw [hnone] at hsome
    cases hsome
  · intro hfits
    cases hd : deadtimeCandidate clkHz rise fall i with
    | none => rfl
    | some d => exact absurd ((deadtimeCandidate_eq hclk hi d).mp hd).1 hfits

/-- The search fails exactly when the slowest prescaler does not hold both edges. -/
theorem solveDeadtime_eq_none (hclk : clkHz.toNat ≤ 500000000) :
    solveDeadtime clkHz rise fall = none ↔ ¬TicksFit clkHz.toNat rise.toNat fall.toNat 7 := by
  rw [solveDeadtime, findSome?_range_eq_none]
  constructor
  · intro h
    exact (deadtimeCandidate_eq_none hclk (by norm_num)).mp (h 7 (by norm_num))
  · intro h i hi
    rw [deadtimeCandidate_eq_none hclk hi]
    intro hfits
    exact h ⟨(roundedTicks_slowest_le _ _ hi).trans hfits.1,
      (roundedTicks_slowest_le _ _ hi).trans hfits.2⟩

end Search

/-! ## The call -/

/-- The registers hold the requested edges at candidate `i`, the finest that fits. -/
structure Deadtimed (clk rise fall i : ℕ) (r : TimerRegs) : Prop where
  candidate : i < 8
  enabled : r.deadTimeEnabled = true
  prescaler : r.deadTimePrescaler = deadtimePsc.getD i .div16
  fits : r.deadTimeRising.toNat ≤ 511 ∧ r.deadTimeFalling.toNat ≤ 511
  finest : ∀ j < i, ¬TicksFit clk rise fall j
  rising : |(r.deadTimeRising.toNat : ℚ) - exactTicks clk rise i| ≤ 1 / 2
  falling : |(r.deadTimeFalling.toNat : ℚ) - exactTicks clk fall i| ≤ 1 / 2
  rising_zero : r.deadTimeRising = 0 ↔ exactTicks clk rise i < 1 / 2
  falling_zero : r.deadTimeFalling = 0 ↔ exactTicks clk fall i < 1 / 2

/-- What `program_deadtime` does at a clock up to 500 MHz. -/
structure DeadtimeLaw (unit : ℕ) (rise fall : UInt32) (s : Hal) : Prop where
  exact : ∀ i < 8, ∀ ns ∈ [rise, fall],
    (ns.toUInt64 * s.clkHz.toUInt64 * deadtimeNum.getD i 1).toNat =
        ns.toNat * s.clkHz.toNat * deadNumerator i ∧
      (deadtimeDen.getD i 1 * 1000000000).toNat = deadDenominator i * 1000000000 ∧
      ns.toNat * s.clkHz.toNat * deadNumerator i + deadDenominator i * 1000000000 / 2 < 2 ^ 64
  fails : (∃ t, programDeadtime unit rise fall s = (.error .errParam, t)) ↔
    511 < roundedTicks s.clkHz.toNat rise.toNat 7 ∨ 511 < roundedTicks s.clkHz.toNat fall.toNat 7
  disabled : rise = 0 → fall = 0 → ∃ t, programDeadtime unit rise fall s = (.ok (), t) ∧
    (t.timers unit).deadTimeEnabled = false ∧ (t.timers unit).deadTimeRising = 0 ∧
      (t.timers unit).deadTimeFalling = 0
  programmed : rise ≠ 0 ∨ fall ≠ 0 → ∀ t, programDeadtime unit rise fall s = (.ok (), t) →
    ∃ i, Deadtimed s.clkHz.toNat rise.toNat fall.toNat i (t.timers unit)

section Call

variable {unit : ℕ} {rise fall : UInt32} {s : Hal}

theorem programDeadtime_zero (unit : ℕ) (s : Hal) :
    ∃ t, programDeadtime unit 0 0 s = (.ok (), t) ∧
      (t.timers unit).deadTimeEnabled = false ∧ (t.timers unit).deadTimeRising = 0 ∧
      (t.timers unit).deadTimeFalling = 0 := by
  refine ⟨_, rfl, ?_⟩
  simp [timDisableDeadTime, dtSetRisingValue, dtSetFallingValue, onTimer]

theorem programDeadtime_of_none (hne : ¬(rise = 0 ∧ fall = 0))
    (h : solveDeadtime s.clkHz rise fall = none) :
    programDeadtime unit rise fall s = (.error .errParam, s) := by
  rw [programDeadtime, if_neg hne, Procedure.read_bind, h]
  rfl

theorem programDeadtime_of_some (hne : ¬(rise = 0 ∧ fall = 0)) {d : DeadTime}
    (h : solveDeadtime s.clkHz rise fall = some d) :
    ∃ t, programDeadtime unit rise fall s = (.ok (), t) ∧
      (t.timers unit).deadTimeEnabled = true ∧ (t.timers unit).deadTimePrescaler = d.psc ∧
      (t.timers unit).deadTimeRising = d.rising ∧ (t.timers unit).deadTimeFalling = d.falling := by
  rw [programDeadtime, if_neg hne, Procedure.read_bind, h]
  refine ⟨_, rfl, ?_⟩
  simp [timEnableDeadTime, dtSetPrescaler, dtSetRisingValue, dtSetFallingValue, onTimer]

theorem programDeadtime_fails_iff (hclk : s.clkHz.toNat ≤ 500000000) :
    (∃ t, programDeadtime unit rise fall s = (.error .errParam, t)) ↔
      511 < roundedTicks s.clkHz.toNat rise.toNat 7 ∨
        511 < roundedTicks s.clkHz.toNat fall.toNat 7 := by
  have hslowest : (511 < roundedTicks s.clkHz.toNat rise.toNat 7 ∨
      511 < roundedTicks s.clkHz.toNat fall.toNat 7) ↔
      ¬TicksFit s.clkHz.toNat rise.toNat fall.toNat 7 := by
    rw [TicksFit, not_and_or, not_le, not_le]
  rw [hslowest]
  by_cases hzero : rise = 0 ∧ fall = 0
  · obtain ⟨rfl, rfl⟩ := hzero
    obtain ⟨t, ht, -⟩ := programDeadtime_zero unit s
    refine iff_of_false ?_ fun hnot => hnot ?_
    · rintro ⟨u, hu⟩
      rw [ht] at hu
      cases hu
    · have hnone : roundedTicks s.clkHz.toNat 0 7 = 0 :=
        (roundedTicks_eq_zero_iff _ _ (by norm_num)).mpr (by simp [exactTicks])
      exact ⟨hnone.le.trans (Nat.zero_le _), hnone.le.trans (Nat.zero_le _)⟩
  · rw [← solveDeadtime_eq_none hclk]
    cases hsearch : solveDeadtime s.clkHz rise fall with
    | none => exact iff_of_true ⟨s, programDeadtime_of_none hzero hsearch⟩ rfl
    | some d =>
        obtain ⟨t, ht, -⟩ := @programDeadtime_of_some unit _ _ _ hzero _ hsearch
        refine iff_of_false ?_ nofun
        rintro ⟨u, hu⟩
        rw [ht] at hu
        cases hu

theorem programDeadtime_deadtimed (hclk : s.clkHz.toNat ≤ 500000000) (hne : rise ≠ 0 ∨ fall ≠ 0)
    {t : Hal} (h : programDeadtime unit rise fall s = (.ok (), t)) :
    ∃ i, Deadtimed s.clkHz.toNat rise.toNat fall.toNat i (t.timers unit) := by
  have hzero : ¬(rise = 0 ∧ fall = 0) := not_and_or.mpr hne
  cases hsearch : solveDeadtime s.clkHz rise fall with
  | none =>
      rw [programDeadtime_of_none hzero hsearch] at h
      cases h
  | some d =>
      obtain ⟨i, hi, hd, hbefore⟩ := findSome?_range_eq_some.mp hsearch
      obtain ⟨hfits, hpsc, hrising, hfalling⟩ := (deadtimeCandidate_eq hclk hi d).mp hd
      obtain ⟨u, hu, henabled, hprescaler, hrise, hfall⟩ :=
        @programDeadtime_of_some unit _ _ _ hzero _ hsearch
      obtain rfl : u = t := congrArg Prod.snd (hu.symm.trans h)
      have hzero_iff : ∀ (ticks : UInt32) (ns : ℕ), ticks.toNat = roundedTicks s.clkHz.toNat ns i →
          (ticks = 0 ↔ exactTicks s.clkHz.toNat ns i < 1 / 2) := by
        intro ticks ns hticks
        rw [← roundedTicks_eq_zero_iff _ _ hi, ← hticks]
        exact UInt32.toNat_inj.symm
      refine ⟨i, hi, henabled, hprescaler.trans hpsc, ?_, ?_, ?_, ?_, ?_, ?_⟩
      · rw [hrise, hfall, hrising, hfalling]
        exact hfits
      · exact fun j hj => (deadtimeCandidate_eq_none hclk (hj.trans hi)).mp (hbefore j hj)
      · rw [hrise, hrising]
        exact abs_roundedTicks_sub_le _ _ hi
      · rw [hfall, hfalling]
        exact abs_roundedTicks_sub_le _ _ hi
      · rw [hrise]
        exact hzero_iff _ _ hrising
      · rw [hfall]
        exact hzero_iff _ _ hfalling

end Call

/-- At every clock up to 500 MHz the dead time is programmed to half a tick, at the
finest prescaler that holds both edges; an edge is programmed as zero exactly when it
is shorter than half a tick. -/
theorem deadtime_law (unit : ℕ) (rise fall : UInt32) (s : Hal)
    (hclk : s.clkHz.toNat ≤ 500000000) : DeadtimeLaw unit rise fall s where
  exact _ hi _ _ := ⟨toNat_deadProduct hclk hi, toNat_deadDiv hi, deadTicks_fit hclk hi⟩
  fails := programDeadtime_fails_iff hclk
  disabled hrise hfall := by
    rw [hrise, hfall]
    exact programDeadtime_zero unit s
  programmed hne _ h := programDeadtime_deadtimed hclk hne h

theorem deadtime_law_ready : DeadtimeLaw 0 100 200 readySystem.hal :=
  deadtime_law 0 100 200 readySystem.hal (by decide +kernel)

/-- A rising edge of 4 ns is dropped beside a falling edge of 30 µs. -/
theorem deadtime_drops_edge :
    (programDeadtime 0 4 30000 readySystem.hal).1 = .ok () ∧
      ((programDeadtime 0 4 30000 readySystem.hal).2.timers 0).deadTimeEnabled = true ∧
      ((programDeadtime 0 4 30000 readySystem.hal).2.timers 0).deadTimeRising = 0 ∧
    ¬∀ (unit : ℕ) (rise fall : UInt32) (s t : Hal), s.clkHz.toNat ≤ 500000000 →
      programDeadtime unit rise fall s = (.ok (), t) → rise ≠ 0 →
      (t.timers unit).deadTimeRising ≠ 0 := by
  have hok : (programDeadtime 0 4 30000 readySystem.hal).1 = .ok () := rfl
  have hzero : ((programDeadtime 0 4 30000 readySystem.hal).2.timers 0).deadTimeRising = 0 := by
    decide +kernel
  refine ⟨hok, by decide +kernel, hzero, fun hclaim => ?_⟩
  exact hclaim 0 4 30000 readySystem.hal _ (by decide +kernel) (Prod.ext hok rfl) (by decide) hzero

end Xhive.Shrtim
