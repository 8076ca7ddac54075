import Xhive.C2.I2c
import Xhive.Support.Prescaling

/-!
# The PWM of the C2

The solver splits a clock into a prescaler and a period, and a duty into the
compare word of a channel.  Programs that touch the registers are in dialogue
with them.
-/

namespace Xhive.C2.Pwm

open Xhive.Support

/-! ## Registers and configurations -/

/-- The registers that the configuration writes. -/
inductive Register where
  | pscr
  | cmp
  | cr (channel : Fin 4)
  deriving DecidableEq, Repr

abbrev Port := Dialogue Register UInt32

def fieldMax : UInt32 := 0xffff
def dutyScale : UInt32 := 10000
def channelCount : UInt32 := 4

/-- `c2_pwm_config_t`. -/
structure Config where
  prescaler : UInt32
  period : UInt32
  compare : Fin 4 → UInt32

def channelValid (channel : UInt32) : Bool :=
  channel < channelCount

def writeCompare (channel compare : UInt32) : Port Unit :=
  if h : channel.toNat < 4 then Dialogue.put (.cr ⟨channel.toNat, h⟩) compare
  else pure ()

/-- A configuration is `none` where the source has a null pointer. -/
def validateConfig : Option Config → Status
  | none => .errorInvalidArgument
  | some config =>
      if config.prescaler > fieldMax ∨ config.period = 0 ∨ config.period > fieldMax then
        .errorInvalidArgument
      else if ∃ channel, config.compare channel > fieldMax ∨
          config.compare channel > config.period then
        .errorInvalidArgument
      else .ok

def initRaw (hasPwm : Bool) (config : Option Config) : Port Status :=
  if hasPwm = false then pure .errorInvalidArgument
  else
    match validateConfig config, config with
    | .ok, some config => do
        Dialogue.put .pscr config.prescaler
        Dialogue.put .cmp config.period
        Dialogue.put (.cr 0) (config.compare 0)
        Dialogue.put (.cr 1) (config.compare 1)
        Dialogue.put (.cr 2) (config.compare 2)
        Dialogue.put (.cr 3) (config.compare 3)
        pure .ok
    | status, _ => pure status

/-! ## The solver -/

/-- The divider before its clamps. -/
def ceilingDivider (clockHz frequencyHz : UInt32) : UInt64 :=
  let frequencyDenominator := frequencyHz.toUInt64 * fieldMax.toUInt64
  (clockHz.toUInt64 + frequencyDenominator - 1) / frequencyDenominator

def clampDivider (divider : UInt64) : UInt64 :=
  let divider := if divider = 0 then 1 else divider
  if divider > (fieldMax + 1).toUInt64 then (fieldMax + 1).toUInt64 else divider

/-- The period before its clamps. -/
def nearestPeriod (clockHz frequencyHz : UInt32) (divider : UInt64) : UInt64 :=
  let frequencyDenominator := frequencyHz.toUInt64 * divider
  (clockHz.toUInt64 + frequencyDenominator / 2) / frequencyDenominator

def clampPeriod (period : UInt64) : UInt64 :=
  if period = 0 then 1
  else if period > fieldMax.toUInt64 then fieldMax.toUInt64
  else period

/-- The clocks of a period in which the output is high. -/
def highClocks (period : UInt64) (duty : UInt32) : UInt64 :=
  (period * duty.toUInt64 + (dutyScale / 2).toUInt64) / dutyScale.toUInt64

def solveDivider (clockHz frequencyHz : UInt32) : UInt64 :=
  clampDivider (ceilingDivider clockHz frequencyHz)

def solvePeriod (clockHz frequencyHz : UInt32) : UInt64 :=
  clampPeriod (nearestPeriod clockHz frequencyHz (solveDivider clockHz frequencyHz))

/-- The configuration and the frequency that the hardware reaches.  A duty
array is `none` where the source has a null pointer. -/
def calculateConfig (clockHz frequencyHz : UInt32) (duty : Option (Fin 4 → UInt32))
    (hasConfig : Bool) : Except Status (Config × UInt32) :=
  match duty with
  | none => .error .errorInvalidArgument
  | some duty =>
      if clockHz = 0 ∨ frequencyHz = 0 ∨ frequencyHz > clockHz ∨ hasConfig = false then
        .error .errorInvalidArgument
      else if ∃ channel, duty channel > dutyScale then .error .errorInvalidArgument
      else
        let divider := solveDivider clockHz frequencyHz
        let period := solvePeriod clockHz frequencyHz
        let config : Config :=
          { prescaler := (divider - 1).toUInt32
            period := period.toUInt32
            compare := fun channel => (period - highClocks period (duty channel)).toUInt32 }
        .ok (config, (clockHz.toUInt64 / (divider * period)).toUInt32)

def configure (hasPwm : Bool) (clockHz frequencyHz : UInt32) (duty : Option (Fin 4 → UInt32)) :
    Port (Except Status (Config × UInt32)) :=
  if hasPwm = false then pure (.error .errorInvalidArgument)
  else
    match calculateConfig clockHz frequencyHz duty true with
    | .error status => pure (.error status)
    | .ok (config, actual) => do
        let status ← initRaw hasPwm (some config)
        if status ≠ .ok then pure (.error status) else pure (.ok (config, actual))

def setCompare (hasPwm : Bool) (channel compare : UInt32) : Port Status :=
  if hasPwm = false ∨ channelValid channel = false then pure .errorInvalidArgument
  else do
    let word ← Dialogue.get .cmp
    let period := word &&& fieldMax
    if period = 0 ∨ compare > period ∨ compare > fieldMax then pure .errorInvalidArgument
    else do
      writeCompare channel compare
      pure .ok

def setDuty (hasPwm : Bool) (channel duty : UInt32) : Port Status :=
  if hasPwm = false ∨ channelValid channel = false ∨ duty > dutyScale then
    pure .errorInvalidArgument
  else do
    let word ← Dialogue.get .cmp
    let period := word &&& fieldMax
    if period = 0 then pure .errorInvalidArgument
    else do
      writeCompare channel (period - (highClocks period.toUInt64 duty).toUInt32)
      pure .ok

end Xhive.C2.Pwm

/-!
## What the PWM solver computes

The words are the least divider and the rounded period of the clock, and the
rounded high clocks of each duty; the clamps act on clocks beyond both fields
only.
-/

namespace Xhive.C2.Pwm

open Xhive.Support

/-! ## The words -/

section Words

variable {clockHz frequencyHz : UInt32}

theorem toNat_ceilingDivider (hfrequency : 0 < frequencyHz.toNat) :
    (ceilingDivider clockHz frequencyHz).toNat =
      leastDivider clockHz.toNat frequencyHz.toNat 65535 := by
  have hclock := clockHz.toNat_lt
  have hbound := frequencyHz.toNat_lt
  have hmax : fieldMax.toUInt64.toNat = 65535 := by decide
  have hdenominator : (frequencyHz.toUInt64 * fieldMax.toUInt64).toNat =
      frequencyHz.toNat * 65535 := by
    rw [UInt64.toNat_mul, hmax, UInt32.toNat_toUInt64, Nat.mod_eq_of_lt (by omega)]
  have hsum : (clockHz.toUInt64 + frequencyHz.toUInt64 * fieldMax.toUInt64).toNat =
      clockHz.toNat + frequencyHz.toNat * 65535 := by
    rw [UInt64.toNat_add, hdenominator, UInt32.toNat_toUInt64, Nat.mod_eq_of_lt (by omega)]
  rw [ceilingDivider, UInt64.toNat_div, UInt64.toNat_sub_of_le, hsum, hdenominator,
    UInt64.toNat_one, leastDivider, Nat.ceilDiv_eq_add_pred_div]
  rw [UInt64.le_iff_toNat_le, hsum, UInt64.toNat_one]
  omega

theorem toNat_clampDivider (divider : UInt64) :
    (clampDivider divider).toNat = min (max divider.toNat 1) 65536 := by
  have hmax : (fieldMax + 1).toUInt64.toNat = 65536 := by decide
  rw [clampDivider]
  simp only [gt_iff_lt, UInt64.lt_iff_toNat_lt, hmax]
  by_cases hzero : divider = 0
  · rw [if_pos hzero, hzero, UInt64.toNat_one, UInt64.toNat_zero]
    rfl
  · have hpos : divider.toNat ≠ 0 := by rwa [← UInt64.toNat_zero, ne_eq, UInt64.toNat_inj]
    rw [if_neg hzero]
    split
    · rw [hmax]
      omega
    · omega

theorem toNat_solveDivider (hfrequency : 0 < frequencyHz.toNat) (hclock : 0 < clockHz.toNat) :
    (solveDivider clockHz frequencyHz).toNat =
      min (leastDivider clockHz.toNat frequencyHz.toNat 65535) 65536 := by
  have hpos := leastDivider_pos hclock hfrequency (by norm_num : 0 < 65535)
  rw [solveDivider, toNat_clampDivider, toNat_ceilingDivider hfrequency, max_eq_left hpos]

/-- The rounding term of the period does not overflow. -/
theorem toNat_nearestPeriod {divider : UInt64} (hpos : 0 < frequencyHz.toNat * divider.toNat)
    (hbound : divider.toNat ≤ 65536) :
    (nearestPeriod clockHz frequencyHz divider).toNat =
      roundedQuotient clockHz.toNat (frequencyHz.toNat * divider.toNat) := by
  have hclock := clockHz.toNat_lt
  have hproduct : frequencyHz.toNat * divider.toNat ≤ 2 ^ 32 * 65536 :=
    Nat.mul_le_mul frequencyHz.toNat_lt.le hbound
  have hdenominator : (frequencyHz.toUInt64 * divider).toNat =
      frequencyHz.toNat * divider.toNat := by
    rw [UInt64.toNat_mul, UInt32.toNat_toUInt64, Nat.mod_eq_of_lt (by omega)]
  rw [nearestPeriod, toNat_div_add_half (by rw [hdenominator]; exact hpos), hdenominator,
    UInt32.toNat_toUInt64]
  rw [hdenominator, UInt32.toNat_toUInt64]
  omega

theorem toNat_clampPeriod (period : UInt64) :
    (clampPeriod period).toNat = min (max period.toNat 1) 65535 := by
  have hmax : fieldMax.toUInt64.toNat = 65535 := by decide
  rw [clampPeriod]
  simp only [gt_iff_lt, UInt64.lt_iff_toNat_lt, hmax]
  by_cases hzero : period = 0
  · rw [if_pos hzero, hzero, UInt64.toNat_one, UInt64.toNat_zero]
    rfl
  · have hpos : period.toNat ≠ 0 := by rwa [← UInt64.toNat_zero, ne_eq, UInt64.toNat_inj]
    rw [if_neg hzero]
    split
    · rw [hmax]
      omega
    · omega

/-- Every period fits the field, with or without a clamp. -/
theorem solvePeriod_bounds (clockHz frequencyHz : UInt32) :
    0 < (solvePeriod clockHz frequencyHz).toNat ∧
      (solvePeriod clockHz frequencyHz).toNat ≤ 65535 := by
  rw [solvePeriod, toNat_clampPeriod]
  omega

theorem solveDivider_bounds (clockHz frequencyHz : UInt32) :
    0 < (solveDivider clockHz frequencyHz).toNat ∧
      (solveDivider clockHz frequencyHz).toNat ≤ 65536 := by
  rw [solveDivider, toNat_clampDivider]
  omega

end Words

section HighClocks

variable {period : UInt64} {duty : UInt32}

theorem toNat_highClocks (hperiod : period.toNat ≤ 65535) :
    (highClocks period duty).toNat = roundedQuotient (period.toNat * duty.toNat) 10000 := by
  have hduty := duty.toNat_lt
  have hproduct : period.toNat * duty.toNat ≤ 65535 * 2 ^ 32 :=
    Nat.mul_le_mul hperiod hduty.le
  have hscale : dutyScale.toUInt64.toNat = 10000 := by decide
  have hhalf : (dutyScale / 2).toUInt64.toNat = 5000 := by decide
  have hsum : (period * duty.toUInt64 + (dutyScale / 2).toUInt64).toNat =
      period.toNat * duty.toNat + 5000 := by
    rw [UInt64.toNat_add, UInt64.toNat_mul, hhalf, UInt32.toNat_toUInt64,
      Nat.mod_eq_of_lt (by omega), Nat.mod_eq_of_lt (by omega)]
  rw [highClocks, UInt64.toNat_div, hsum, hscale]
  exact div_add_half_eq (d := 10000) _ (by norm_num)

theorem roundedHigh_le {P D : ℕ} (hD : D ≤ 10000) : roundedQuotient (P * D) 10000 ≤ P := by
  have hproduct : P * D ≤ P * 10000 := Nat.mul_le_mul_left P hD
  rw [roundedQuotient_le_iff (by norm_num)]
  omega

/-- The compare word leaves the high clocks. -/
theorem toNat_compare (hperiod : period.toNat ≤ 65535) (hduty : duty.toNat ≤ 10000) :
    (period - highClocks period duty).toUInt32.toNat =
      period.toNat - roundedQuotient (period.toNat * duty.toNat) 10000 := by
  have hhigh := @toNat_highClocks period duty hperiod
  have hle : roundedQuotient (period.toNat * duty.toNat) 10000 ≤ period.toNat :=
    roundedHigh_le hduty
  rw [UInt64.toNat_toUInt32, UInt64.toNat_sub_of_le, hhigh, Nat.mod_eq_of_lt (by omega)]
  rw [UInt64.le_iff_toNat_le, hhigh]
  exact hle

end HighClocks

/-! ## The configuration -/

/-- The clocks of a period in which the output of a channel is high. -/
def highTime (config : Config) (channel : Fin 4) : ℤ :=
  config.period.toNat - (config.compare channel).toNat

/-- Every word of the solver is the number that it stands for. -/
structure WordsExact (clockHz frequencyHz : UInt32) (duty : Fin 4 → UInt32) (config : Config)
    (actual : UInt32) : Prop where
  ceiling : (ceilingDivider clockHz frequencyHz).toNat =
    (clockHz.toNat + frequencyHz.toNat * 65535 - 1) / (frequencyHz.toNat * 65535)
  prescaler : config.prescaler.toNat + 1 = (solveDivider clockHz frequencyHz).toNat
  nearest : (nearestPeriod clockHz frequencyHz (solveDivider clockHz frequencyHz)).toNat =
    (clockHz.toNat + frequencyHz.toNat * (config.prescaler.toNat + 1) / 2) /
      (frequencyHz.toNat * (config.prescaler.toNat + 1))
  period : config.period.toNat = (solvePeriod clockHz frequencyHz).toNat
  compare : ∀ channel, (config.period.toNat * (duty channel).toNat + 5000) / 10000 ≤
      config.period.toNat ∧
    (config.compare channel).toNat =
      config.period.toNat - (config.period.toNat * (duty channel).toNat + 5000) / 10000
  actual : actual.toNat =
    clockHz.toNat / ((config.prescaler.toNat + 1) * config.period.toNat)

/-- The least divider and the nearest period, which no clamp has changed. -/
structure Solved (clockHz frequencyHz : UInt32) (config : Config) : Prop where
  divider_unclamped : solveDivider clockHz frequencyHz = ceilingDivider clockHz frequencyHz
  period_unclamped : solvePeriod clockHz frequencyHz =
    nearestPeriod clockHz frequencyHz (solveDivider clockHz frequencyHz)
  least : IsLeast {d : ℕ | 0 < d ∧ (clockHz.toNat : ℚ) / (frequencyHz.toNat * d) ≤ 65535}
    (config.prescaler.toNat + 1)
  nearest : (config.period.toNat : ℤ) =
    round ((clockHz.toNat : ℚ) / (frequencyHz.toNat * (config.prescaler.toNat + 1)))
  resolution : config.prescaler.toNat + 1 = 1 ∨ 32768 ≤ config.period.toNat

/-- The high time of each channel is the nearest to its duty. -/
structure ChannelsExact (duty : Fin 4 → UInt32) (config : Config) : Prop where
  nearest : ∀ channel, highTime config channel =
    round ((config.period.toNat * (duty channel).toNat : ℚ) / 10000)
  zero : ∀ channel, duty channel = 0 → highTime config channel = 0
  full : ∀ channel, duty channel = 10000 → highTime config channel = config.period.toNat

/-- The configuration that the solver returns. -/
def solvedConfig (clockHz frequencyHz : UInt32) (duty : Fin 4 → UInt32) : Config :=
  { prescaler := (solveDivider clockHz frequencyHz - 1).toUInt32
    period := (solvePeriod clockHz frequencyHz).toUInt32
    compare := fun channel =>
      (solvePeriod clockHz frequencyHz -
        highClocks (solvePeriod clockHz frequencyHz) (duty channel)).toUInt32 }

def solvedFrequency (clockHz frequencyHz : UInt32) : UInt32 :=
  (clockHz.toUInt64 / (solveDivider clockHz frequencyHz * solvePeriod clockHz frequencyHz)).toUInt32

section Calculate

variable {clockHz frequencyHz : UInt32} {duty : Fin 4 → UInt32}

theorem calculateConfig_eq (hfrequency : 0 < frequencyHz) (hclock : frequencyHz ≤ clockHz)
    (hduty : ∀ channel, duty channel ≤ 10000) :
    calculateConfig clockHz frequencyHz (some duty) true =
      .ok (solvedConfig clockHz frequencyHz duty, solvedFrequency clockHz frequencyHz) := by
  rw [UInt32.lt_iff_toNat_lt, UInt32.toNat_zero] at hfrequency
  rw [UInt32.le_iff_toNat_le] at hclock
  have hvalid : ¬(clockHz = 0 ∨ frequencyHz = 0 ∨ frequencyHz > clockHz ∨ true = false) := by
    rw [gt_iff_lt, UInt32.lt_iff_toNat_lt, ← UInt32.toNat_inj, ← UInt32.toNat_inj,
      UInt32.toNat_zero]
    rintro (h | h | h | h)
    · omega
    · omega
    · omega
    · exact Bool.false_ne_true h.symm
  have hscale : ¬∃ channel, duty channel > dutyScale := by
    rintro ⟨channel, h⟩
    have hle := hduty channel
    rw [gt_iff_lt, UInt32.lt_iff_toNat_lt] at h
    rw [UInt32.le_iff_toNat_le] at hle
    exact absurd h (not_lt.mpr hle)
  simp only [calculateConfig, if_neg hvalid, if_neg hscale]
  rfl

/-- A configuration that is returned has admissible duties and is the solved one. -/
theorem calculateConfig_ok {config : Config} {actual : UInt32}
    (h : calculateConfig clockHz frequencyHz (some duty) true = .ok (config, actual)) :
    (∀ channel, duty channel ≤ 10000) ∧ config = solvedConfig clockHz frequencyHz duty := by
  simp only [calculateConfig] at h
  split at h
  · cases h
  split at h
  · cases h
  · rename_i hscale
    refine ⟨fun channel => ?_, (congrArg Prod.fst (Except.ok.inj h)).symm⟩
    exact UInt32.not_lt.mp fun hlt => hscale ⟨channel, hlt⟩

theorem toNat_prescaler : (solvedConfig clockHz frequencyHz duty).prescaler.toNat + 1 =
    (solveDivider clockHz frequencyHz).toNat := by
  obtain ⟨hpos, hle⟩ := solveDivider_bounds clockHz frequencyHz
  rw [solvedConfig, UInt64.toNat_toUInt32, UInt64.toNat_sub_of_le, UInt64.toNat_one,
    Nat.mod_eq_of_lt (by omega), Nat.sub_add_cancel hpos]
  rw [UInt64.le_iff_toNat_le, UInt64.toNat_one]
  exact hpos

theorem toNat_period : (solvedConfig clockHz frequencyHz duty).period.toNat =
    (solvePeriod clockHz frequencyHz).toNat := by
  obtain ⟨-, hle⟩ := solvePeriod_bounds clockHz frequencyHz
  rw [solvedConfig, UInt64.toNat_toUInt32, Nat.mod_eq_of_lt (by omega)]

/-- The period that is read back is the one that the solver computed with. -/
theorem period_sub_highClocks (channel : Fin 4) :
    (solvedConfig clockHz frequencyHz duty).period -
        (highClocks (solvedConfig clockHz frequencyHz duty).period.toUInt64
          (duty channel)).toUInt32 =
      (solvedConfig clockHz frequencyHz duty).compare channel := by
  have hwide : (solvedConfig clockHz frequencyHz duty).period.toUInt64 =
      solvePeriod clockHz frequencyHz := by
    rw [← UInt64.toNat_inj, UInt32.toNat_toUInt64, toNat_period]
  rw [hwide]
  exact (UInt64.toUInt32_sub _ _).symm

theorem toNat_solved_compare (hduty : ∀ channel, (duty channel).toNat ≤ 10000) (channel : Fin 4) :
    ((solvedConfig clockHz frequencyHz duty).compare channel).toNat =
      (solvePeriod clockHz frequencyHz).toNat -
        roundedQuotient ((solvePeriod clockHz frequencyHz).toNat * (duty channel).toNat) 10000 :=
  toNat_compare (solvePeriod_bounds clockHz frequencyHz).2 (hduty channel)

theorem highTime_solved (hduty : ∀ channel, (duty channel).toNat ≤ 10000) (channel : Fin 4) :
    highTime (solvedConfig clockHz frequencyHz duty) channel =
      roundedQuotient ((solvePeriod clockHz frequencyHz).toNat * (duty channel).toNat) 10000 := by
  have hle := roundedHigh_le (P := (solvePeriod clockHz frequencyHz).toNat) (hduty channel)
  rw [highTime, toNat_period, toNat_solved_compare hduty, Nat.cast_sub hle]
  ring

theorem validateConfig_solved (hduty : ∀ channel, (duty channel).toNat ≤ 10000) :
    validateConfig (some (solvedConfig clockHz frequencyHz duty)) = .ok := by
  have hmax : fieldMax.toNat = 65535 := by decide
  obtain ⟨hperiod, hperiod'⟩ := solvePeriod_bounds clockHz frequencyHz
  obtain ⟨-, hdivider⟩ := solveDivider_bounds clockHz frequencyHz
  have hprescaler := @toNat_prescaler clockHz frequencyHz duty
  have hcmp := @toNat_period clockHz frequencyHz duty
  have hcompare := @toNat_solved_compare clockHz frequencyHz duty hduty
  generalize solvedConfig clockHz frequencyHz duty = config at *
  have hfields : ¬(config.prescaler > fieldMax ∨ config.period = 0 ∨
      config.period > fieldMax) := by
    rw [gt_iff_lt, gt_iff_lt, UInt32.lt_iff_toNat_lt, UInt32.lt_iff_toNat_lt, ← UInt32.toNat_inj,
      UInt32.toNat_zero, hmax]
    omega
  have hchannels : ¬∃ channel, config.compare channel > fieldMax ∨
      config.compare channel > config.period := by
    rintro ⟨channel, h⟩
    have hvalue := hcompare channel
    rw [gt_iff_lt, gt_iff_lt, UInt32.lt_iff_toNat_lt, UInt32.lt_iff_toNat_lt, hmax] at h
    omega
  simp only [validateConfig, if_neg hfields, if_neg hchannels]

theorem wordsExact_solved (hfrequency : 0 < frequencyHz.toNat)
    (hclock : frequencyHz.toNat ≤ clockHz.toNat)
    (hduty : ∀ channel, (duty channel).toNat ≤ 10000) :
    WordsExact clockHz frequencyHz duty (solvedConfig clockHz frequencyHz duty)
      (solvedFrequency clockHz frequencyHz) := by
  obtain ⟨hdivider, hdivider'⟩ := solveDivider_bounds clockHz frequencyHz
  obtain ⟨hperiod, hperiod'⟩ := solvePeriod_bounds clockHz frequencyHz
  have hdenominator : 0 < frequencyHz.toNat * (solveDivider clockHz frequencyHz).toNat :=
    Nat.mul_pos hfrequency hdivider
  constructor
  case ceiling =>
    rw [toNat_ceilingDivider hfrequency]
    rfl
  case prescaler => exact toNat_prescaler
  case nearest =>
    rw [toNat_prescaler, toNat_nearestPeriod hdenominator hdivider', div_add_half_eq _ hdenominator]
  case period => exact toNat_period
  case compare =>
    intro channel
    have hhalf := div_add_half_eq (d := 10000)
      ((solvePeriod clockHz frequencyHz).toNat * (duty channel).toNat) (by norm_num)
    rw [toNat_period, toNat_solved_compare hduty, ← hhalf]
    refine ⟨?_, rfl⟩
    rw [hhalf]
    exact roundedHigh_le (hduty channel)
  case actual =>
    have hproduct : (solveDivider clockHz frequencyHz).toNat *
        (solvePeriod clockHz frequencyHz).toNat ≤ 65536 * 65535 :=
      Nat.mul_le_mul hdivider' hperiod'
    have hquotient := Nat.div_le_self clockHz.toNat
      ((solveDivider clockHz frequencyHz).toNat * (solvePeriod clockHz frequencyHz).toNat)
    have hlt := clockHz.toNat_lt
    rw [toNat_prescaler, toNat_period, solvedFrequency, UInt64.toNat_toUInt32, UInt64.toNat_div,
      UInt64.toNat_mul, UInt32.toNat_toUInt64, Nat.mod_eq_of_lt (a := _ * _) (by omega),
      Nat.mod_eq_of_lt (by omega)]

theorem solved_solved (hfrequency : 0 < frequencyHz.toNat)
    (hclock : frequencyHz.toNat ≤ clockHz.toNat)
    (hrange : clockHz.toNat ≤ 65535 * 65536 * frequencyHz.toNat) :
    Solved clockHz frequencyHz (solvedConfig clockHz frequencyHz duty) := by
  have hpositive : 0 < clockHz.toNat := hfrequency.trans_le hclock
  have hfield : 0 < 65535 := by norm_num
  have hceiling := @toNat_ceilingDivider clockHz frequencyHz hfrequency
  have hpos := leastDivider_pos hpositive hfrequency hfield
  have hfits : leastDivider clockHz.toNat frequencyHz.toNat 65535 ≤ 65536 := by
    rw [leastDivider_le_iff hfrequency hfield]
    linarith
  have hdivider := toNat_solveDivider hfrequency hpositive
  rw [min_eq_left hfits] at hdivider
  have hdenominator : 0 < frequencyHz.toNat * (solveDivider clockHz frequencyHz).toNat := by
    rw [hdivider]
    exact Nat.mul_pos hfrequency hpos
  have hnearest := @toNat_nearestPeriod clockHz _ _ hdenominator
    (hdivider.trans_le hfits)
  have hunclamped : (solvePeriod clockHz frequencyHz).toNat = roundedQuotient clockHz.toNat
      (frequencyHz.toNat * (solveDivider clockHz frequencyHz).toNat) := by
    have hle := roundedPeriod_le hfrequency hfield hpos le_rfl
    have hone := roundedPeriod_pos hfrequency hfield hclock
    rw [solvePeriod, toNat_clampPeriod, hnearest]
    rw [hdivider]
    omega
  constructor
  case divider_unclamped => rw [← UInt64.toNat_inj, hdivider, hceiling]
  case period_unclamped => rw [← UInt64.toNat_inj, hunclamped, hnearest]
  case least =>
    rw [toNat_prescaler, hdivider]
    exact leastDivider_isLeast hpositive hfrequency hfield
  case nearest =>
    have hprescaler : ((solvedConfig clockHz frequencyHz duty).prescaler.toNat : ℚ) + 1 =
        ((solveDivider clockHz frequencyHz).toNat : ℚ) := by
      exact_mod_cast toNat_prescaler
    rw [hprescaler, toNat_period, hunclamped, ← round_natCast_div _ hdenominator, Nat.cast_mul]
  case resolution =>
    rw [toNat_prescaler, toNat_period, hunclamped, hdivider]
    rcases Nat.lt_or_ge 1 (leastDivider clockHz.toNat frequencyHz.toNat 65535) with hbig | hsmall
    · have hhalf := field_le_two_mul_roundedPeriod hfrequency hfield hbig le_rfl
      right
      omega
    · left
      omega

theorem channelsExact_solved (hduty : ∀ channel, (duty channel).toNat ≤ 10000) :
    ChannelsExact duty (solvedConfig clockHz frequencyHz duty) := by
  constructor
  case nearest =>
    intro channel
    have hround := round_natCast_div
      ((solvePeriod clockHz frequencyHz).toNat * (duty channel).toNat) (by norm_num : 0 < 10000)
    rw [highTime_solved hduty, ← hround, toNat_period]
    norm_num
  case zero =>
    intro channel hzero
    rw [highTime_solved hduty, hzero, UInt32.toNat_zero, Nat.mul_zero]
    rfl
  case full =>
    intro channel hfull
    have hscale : (10000 : UInt32).toNat = 10000 := by decide
    rw [highTime_solved hduty, hfull, hscale, toNat_period, ← div_add_half_eq _ (by norm_num)]
    congr 1
    omega

end Calculate

/-! ## The registers -/

/-- The registers keep the words written to them; of a word that is read the
upper half means nothing. -/
def registers (upper : Register → UInt32) : Device (Register → UInt32) Register UInt32 where
  answer file r := (upper r &&& ~~~fieldMax) ||| (file r &&& fieldMax)
  after file
    | .write r v => Function.update file r v
    | .read _ _ => file

theorem answer_and_fieldMax (upper file : Register → UInt32) (r : Register) :
    (registers upper).answer file r &&& fieldMax = file r &&& fieldMax := by
  show ((upper r &&& ~~~fieldMax) ||| (file r &&& fieldMax)) &&& fieldMax = _
  rw [← UInt32.toBitVec_inj]
  ext i
  simp only [UInt32.toBitVec_and, UInt32.toBitVec_or, UInt32.toBitVec_not, BitVec.getElem_and,
    BitVec.getElem_or, BitVec.getElem_not]
  cases fieldMax.toBitVec[i] <;> simp

/-- The registers after a configuration: all of them are written. -/
def programmed (config : Config) : Register → UInt32
  | .pscr => config.prescaler
  | .cmp => config.period
  | .cr channel => config.compare channel

theorem serve_initRaw (upper file : Register → UInt32) {config : Config}
    (hvalid : validateConfig (some config) = .ok) :
    ((registers upper).serve (initRaw true (some config)) file).2 =
      (.ok, programmed config) := by
  have hrun : initRaw true (some config) = (do
      Dialogue.put .pscr config.prescaler
      Dialogue.put .cmp config.period
      Dialogue.put (.cr 0) (config.compare 0)
      Dialogue.put (.cr 1) (config.compare 1)
      Dialogue.put (.cr 2) (config.compare 2)
      Dialogue.put (.cr 3) (config.compare 3)
      pure .ok) := by
    simp only [initRaw, hvalid, Bool.true_eq_false, if_false]
  rw [hrun]
  refine Prod.ext rfl (funext fun r => ?_)
  cases r with
  | pscr => rfl
  | cmp => rfl
  | cr channel =>
      rcases channel with ⟨_ | _ | _ | _ | n, hn⟩
      · rfl
      · rfl
      · rfl
      · rfl
      · omega

/-- The period register holds the period of a valid configuration. -/
theorem answer_cmp (upper : Register → UInt32) {config : Config}
    (h : config.period.toNat ≤ 65535) :
    (registers upper).answer (programmed config) .cmp &&& fieldMax = config.period := by
  have hmask : fieldMax.toNat = 2 ^ 16 - 1 := by decide
  rw [answer_and_fieldMax, ← UInt32.toNat_inj, UInt32.toNat_and, hmask,
    Nat.and_two_pow_sub_one_eq_mod]
  exact Nat.mod_eq_of_lt (by rw [programmed]; omega)

theorem writeCompare_channel (channel : Fin 4) (compare : UInt32) :
    writeCompare (UInt32.ofNat channel) compare = Dialogue.put (.cr channel) compare := by
  have hchannel := channel.isLt
  have hvalue : (UInt32.ofNat channel).toNat = channel := by
    rw [UInt32.toNat_ofNat', Nat.mod_eq_of_lt (by omega)]
  rw [writeCompare, dif_pos (by omega)]
  congr 2
  exact Fin.ext hvalue

/-- A duty is programmed from the period that the registers hold. -/
theorem serve_setDuty {upper file : Register → UInt32} {period duty : UInt32} (channel : Fin 4)
    (hduty : duty.toNat ≤ 10000) (hperiod : 0 < period.toNat)
    (hcmp : (registers upper).answer file .cmp &&& fieldMax = period) :
    ((registers upper).serve (setDuty true (UInt32.ofNat channel) duty) file).2.1 = .ok ∧
      Device.writes ((registers upper).serve (setDuty true (UInt32.ofNat channel) duty) file).1 =
        [(.cr channel, period - (highClocks period.toUInt64 duty).toUInt32)] := by
  have hchannel := channel.isLt
  have hvalue : (UInt32.ofNat channel).toNat = channel := by
    rw [UInt32.toNat_ofNat', Nat.mod_eq_of_lt (by omega)]
  have hvalid : ¬(true = false ∨ channelValid (UInt32.ofNat channel) = false ∨
      duty > dutyScale) := by
    have hcount : channelCount.toNat = 4 := by decide
    have hscale : dutyScale.toNat = 10000 := by decide
    rintro (h | h | h)
    · exact Bool.false_ne_true h.symm
    · rw [channelValid, decide_eq_false_iff_not, UInt32.lt_iff_toNat_lt, hvalue, hcount] at h
      exact h hchannel
    · rw [gt_iff_lt, UInt32.lt_iff_toNat_lt, hscale] at h
      omega
  have hne : period ≠ 0 := by
    rw [ne_eq, ← UInt32.toNat_inj, UInt32.toNat_zero]
    omega
  have hrun : setDuty true (UInt32.ofNat channel) duty = (do
      let word ← Dialogue.get .cmp
      let period := word &&& fieldMax
      if period = 0 then pure .errorInvalidArgument
      else do
        writeCompare (UInt32.ofNat channel)
          (period - (highClocks period.toUInt64 duty).toUInt32)
        pure .ok) := by
    rw [setDuty, if_neg hvalid]
  rw [hrun]
  simp only [Device.serve_bind, Device.serve_get, hcmp, if_neg hne, writeCompare_channel]
  exact ⟨rfl, rfl⟩

/-- The solver never fails on an admissible clock.  Within the range of both
fields it finds the least divider and the nearest period; the high times are
the nearest ones, in order of the duties, and a duty that is set afterwards is
programmed as the configuration had it. -/
theorem pwm_solver_exact (clockHz frequencyHz : UInt32) (duty : Fin 4 → UInt32)
    (hfrequency : 0 < frequencyHz) (hclock : frequencyHz ≤ clockHz)
    (hduty : ∀ channel, duty channel ≤ 10000) :
    ∃ config actual,
      calculateConfig clockHz frequencyHz (some duty) true = .ok (config, actual) ∧
      validateConfig (some config) = .ok ∧
      WordsExact clockHz frequencyHz duty config actual ∧
      (clockHz.toNat ≤ 65535 * 65536 * frequencyHz.toNat → Solved clockHz frequencyHz config) ∧
      ChannelsExact duty config ∧
      (∀ other config' actual',
        calculateConfig clockHz frequencyHz (some other) true = .ok (config', actual') →
        ∀ channel channel', duty channel ≤ other channel' →
          highTime config channel ≤ highTime config' channel') ∧
      ∀ (upper file : Register → UInt32) (channel : Fin 4), ∃ written,
        ((registers upper).serve (configure true clockHz frequencyHz (some duty)) file).2 =
          (.ok (config, actual), written) ∧
        ((registers upper).serve (setDuty true (UInt32.ofNat channel) (duty channel))
          written).2.1 = .ok ∧
        Device.writes ((registers upper).serve
          (setDuty true (UInt32.ofNat channel) (duty channel)) written).1 =
            [(.cr channel, config.compare channel)] := by
  have hcalculate := calculateConfig_eq hfrequency hclock hduty
  have hscale : ∀ channel, (duty channel).toNat ≤ 10000 := fun channel =>
    UInt32.le_iff_toNat_le.mp (hduty channel)
  have hvalid := @validateConfig_solved clockHz frequencyHz duty hscale
  rw [UInt32.lt_iff_toNat_lt, UInt32.toNat_zero] at hfrequency
  rw [UInt32.le_iff_toNat_le] at hclock
  refine ⟨_, _, hcalculate, hvalid, wordsExact_solved hfrequency hclock hscale,
    solved_solved hfrequency hclock, channelsExact_solved hscale, ?ordered, ?programmed⟩
  case ordered =>
    intro other config' actual' hother channel channel' hle
    obtain ⟨hother', rfl⟩ := calculateConfig_ok hother
    have hscale' : ∀ channel, (other channel).toNat ≤ 10000 := fun channel =>
      UInt32.le_iff_toNat_le.mp (hother' channel)
    rw [UInt32.le_iff_toNat_le] at hle
    rw [highTime_solved hscale, highTime_solved hscale', Nat.cast_le]
    apply roundedQuotient_le (by norm_num) (by norm_num)
    exact Nat.mul_le_mul_right _ (Nat.mul_le_mul_left _ hle)
  case programmed =>
    intro upper file channel
    obtain ⟨hperiod, hperiod'⟩ := solvePeriod_bounds clockHz frequencyHz
    have hnat := @toNat_period clockHz frequencyHz duty
    have hcmp := @answer_cmp upper (solvedConfig clockHz frequencyHz duty) (by omega)
    obtain ⟨hset, hwrites⟩ := serve_setDuty channel (hscale channel)
      (show 0 < (solvedConfig clockHz frequencyHz duty).period.toNat by omega) hcmp
    refine ⟨programmed (solvedConfig clockHz frequencyHz duty), ?_, hset, ?_⟩
    · rw [configure, if_neg (by decide), hcalculate]
      simp only [Device.serve_bind, serve_initRaw upper file hvalid]
      rfl
    · rw [hwrites, period_sub_highClocks]

theorem pwm_solver_exact_seventyTwo :
    (0 : UInt32) < 1000 ∧ ∃ config actual,
      calculateConfig 72000000 1000 (some fun _ => 2500) true = .ok (config, actual) ∧
        validateConfig (some config) = .ok := by
  obtain ⟨config, actual, hcalculate, hvalid, -⟩ :=
    pwm_solver_exact 72000000 1000 (fun _ => 2500) (by decide) (by decide) (by decide)
  exact ⟨by decide, config, actual, hcalculate, hvalid⟩

end Xhive.C2.Pwm
