import Xhive.Particles.LogAccuracy

/-!
# The error budget of a determinant

A positive diagonal is its mantissa times a power of two, exactly, also below the
normal range.  The signed sum of all logarithms is exact as an integer, so that
the errors of the diagonals add up.
-/

namespace Xhive.Particles

open Finset
open Xhive.Support Xhive.Linears Xhive.Ukf

/-! ## Normalization -/

/-- Doubling until the unit is reached. -/
theorem logNormalize_spec {unit : ℕ} (rounds : ℕ) {a : ℕ} (e : ℤ) (hhigh : a < 2 * unit)
    (hrounds : unit ≤ a * 2 ^ rounds) :
    ∃ j ≤ rounds, logNormalize unit rounds (a, e) = (a * 2 ^ j, e - j) ∧
      unit ≤ a * 2 ^ j ∧ a * 2 ^ j < 2 * unit := by
  induction rounds generalizing a e with
  | zero =>
      rw [pow_zero, mul_one] at hrounds
      refine ⟨0, le_rfl, ?_, by omega, by omega⟩
      rw [logNormalize, pow_zero, mul_one, Nat.cast_zero, sub_zero]
  | succ rounds ih =>
      rw [logNormalize]
      by_cases hsmall : a < unit
      · rw [if_pos hsmall]
        rw [pow_succ', ← mul_assoc] at hrounds
        obtain ⟨j, hj, hvalue, hlow, hbelow⟩ := ih (e - 1) (by omega) hrounds
        have hstep : a * 2 ^ (j + 1) = a * 2 * 2 ^ j := by rw [pow_succ', mul_assoc]
        refine ⟨j + 1, by omega, ?_, by rw [hstep]; exact hlow, by rw [hstep]; exact hbelow⟩
        rw [hvalue, hstep, Nat.cast_succ]
        exact congrArg (Prod.mk _) (by ring)
      · rw [if_neg hsmall]
        refine ⟨0, Nat.zero_le _, ?_, by omega, by omega⟩
        rw [pow_zero, mul_one, Nat.cast_zero, sub_zero]

section Log

variable {Q : Type} [LogFormat Q]

/-- What the source promises of a diagonal. -/
structure PositiveFinite (value : WorkBits Q) : Prop where
  positive : 0 < workValue value
  finite : workFinite value = true

/-- A positive value has no sign bit. -/
theorem PositiveFinite.bits {value : WorkBits Q} (h : PositiveFinite value) :
    workMagnitude value = value.toNat ∧ 0 < value.toNat ∧
      workValue value = patternValue (fractionBits Q) (exponentBias Q) value.toNat := by
  have hpositive := h.positive
  have hunits := patternValue_eq (fractionBits Q) (exponentBias Q) (workMagnitude value)
  have hnonneg : 0 ≤ patternValue (fractionBits Q) (exponentBias Q) (workMagnitude value) := by
    rw [hunits]
    positivity
  cases hsign : value.msb with
  | true =>
      rw [workValue, hsign, signed_true] at hpositive
      linarith
  | false =>
      have hlt := BitVec.toNat_lt_of_msb_false hsign
      have hmagnitude : workMagnitude value = value.toNat := Nat.mod_eq_of_lt hlt
      have hvalue : workValue value =
          patternValue (fractionBits Q) (exponentBias Q) value.toNat := by
        rw [workValue, hsign, signed_false, hmagnitude]
      refine ⟨hmagnitude, Nat.pos_of_ne_zero fun hzero => ?_, hvalue⟩
      rw [hvalue, hzero, patternValue_eq, patternUnits, Nat.zero_div, if_pos rfl, Nat.zero_mod,
        Nat.cast_zero, zero_mul] at hpositive
      exact lt_irrefl _ hpositive

/-- A normalized diagonal. -/
structure InputExact (value : WorkBits Q) (input : UInt64 × ℤ) : Prop where
  low : 2 ^ LogFormat.logF Q ≤ input.1.toNat
  high : input.1.toNat < 2 ^ (LogFormat.logF Q + 1)
  exact_value : workValue value = (input.1.toNat : ℚ) / 2 ^ LogFormat.logF Q * 2 ^ input.2
  exponent_lt : input.2.natAbs < exponentBias Q + fractionBits Q

variable [LawfulLogFormat Q]

/-- The shifted mantissa on the grid. -/
theorem inputExact_of_mantissa {value : WorkBits Q} {mantissa : ℕ} {exponent : ℤ}
    (hlow : 2 ^ fractionBits Q ≤ mantissa) (hhigh : mantissa < 2 * 2 ^ fractionBits Q)
    (hvalue : workValue value = (mantissa : ℚ) / 2 ^ fractionBits Q * 2 ^ exponent)
    (hexponent : exponent.natAbs < exponentBias Q + fractionBits Q) :
    InputExact value (UInt64.ofNat mantissa <<<
      UInt64.ofNat (LogFormat.logF Q - fractionBits Q), exponent) := by
  have hle := LawfulLogFormat.fractionBits_le (Q := Q)
  have hbounds := LawfulLogFormat.logF_bounds (Q := Q)
  have hpow := (pow_logF_bounds Q).2
  have hlimit : 2 ^ (LogFormat.logF Q + 1) ≤ 2 ^ 55 := Nat.pow_le_pow_right two_pos (by omega)
  have hsplit : 2 ^ LogFormat.logF Q =
      2 ^ fractionBits Q * 2 ^ (LogFormat.logF Q - fractionBits Q) := by
    rw [← pow_add, Nat.add_sub_cancel' hle]
  have hpos := Nat.two_pow_pos (LogFormat.logF Q - fractionBits Q)
  have hfraction : 2 ^ fractionBits Q ≤ 2 ^ LogFormat.logF Q := Nat.pow_le_pow_right two_pos hle
  have hscaledLow : 2 ^ LogFormat.logF Q ≤
      mantissa * 2 ^ (LogFormat.logF Q - fractionBits Q) := by
    rw [hsplit]
    exact Nat.mul_le_mul_right _ hlow
  have hscaledHigh : mantissa * 2 ^ (LogFormat.logF Q - fractionBits Q) <
      2 ^ (LogFormat.logF Q + 1) := by
    rw [pow_succ', hsplit, ← mul_assoc]
    exact Nat.mul_lt_mul_of_pos_right hhigh hpos
  have hword : (UInt64.ofNat mantissa).toNat = mantissa :=
    UInt64.toNat_ofNat_of_lt' (show mantissa < 2 ^ 64 by omega)
  have hshift : (UInt64.ofNat mantissa <<<
      UInt64.ofNat (LogFormat.logF Q - fractionBits Q)).toNat =
        mantissa * 2 ^ (LogFormat.logF Q - fractionBits Q) := by
    rw [toNat_shiftLeft_of_fits (by omega) (by rw [hword]; omega), hword]
  refine ⟨by rw [hshift]; exact hscaledLow, by rw [hshift]; exact hscaledHigh, ?_, hexponent⟩
  have hreal : (2 : ℚ) ^ LogFormat.logF Q =
      2 ^ fractionBits Q * 2 ^ (LogFormat.logF Q - fractionBits Q) := by
    rw [← pow_add, Nat.add_sub_cancel' hle]
  rw [hvalue, hshift, hreal, Nat.cast_mul, Nat.cast_pow, Nat.cast_ofNat,
    mul_div_mul_right _ _ (by positivity)]

/-- Every positive finite diagonal is normalized exactly. -/
theorem logInput_exact {value : WorkBits Q} (h : PositiveFinite value) :
    InputExact value (logInput value) := by
  obtain ⟨hmagnitude, hpos, hvalue⟩ := h.bits
  have hfinite : value.toNat < (2 * exponentBias Q + 1) * 2 ^ fractionBits Q := by
    have hlt := h.finite
    rwa [workFinite, decide_eq_true_iff, hmagnitude, LawfulLogFormat.infinity_eq] at hlt
  have hunit := Nat.two_pow_pos (fractionBits Q)
  have hfraction := Nat.mod_lt value.toNat hunit
  have hbias := qBits_add_lt_bias Q
  have hbits := qBits_lt_fractionBits Q
  rw [logInput]
  rw [patternValue] at hvalue
  by_cases hsubnormal : value.toNat / 2 ^ fractionBits Q = 0
  · rw [if_pos hsubnormal]
    rw [if_pos hsubnormal] at hvalue
    have hmantissa : value.toNat % 2 ^ fractionBits Q = value.toNat := by
      have hsplit := Nat.div_add_mod value.toNat (2 ^ fractionBits Q)
      rwa [hsubnormal, mul_zero, zero_add] at hsplit
    rw [hmantissa] at hfraction hvalue ⊢
    obtain ⟨j, hj, hnormal, hlow, hhigh⟩ := @logNormalize_spec (2 ^ fractionBits Q)
      (fractionBits Q) value.toNat (1 - exponentBias Q) (by omega)
      (Nat.le_mul_of_pos_left _ hpos)
    rw [hnormal]
    refine inputExact_of_mantissa hlow hhigh ?_ (by dsimp only; omega)
    rw [hvalue, zpow_sub₀ two_ne_zero (1 - (exponentBias Q : ℤ)) j, zpow_natCast, Nat.cast_mul,
      Nat.cast_pow, Nat.cast_ofNat]
    field_simp
  · rw [if_neg hsubnormal]
    rw [if_neg hsubnormal] at hvalue
    have hencoded : value.toNat / 2 ^ fractionBits Q < 2 * exponentBias Q + 1 :=
      Nat.div_lt_of_lt_mul (by rwa [mul_comm] at hfinite)
    generalize value.toNat / 2 ^ fractionBits Q = encoded at *
    refine inputExact_of_mantissa (by omega) (by omega) ?_ (by omega)
    rw [hvalue, Nat.cast_add, Nat.cast_pow, Nat.cast_ofNat]
    field_simp
    ring

/-! ## One diagonal -/

section Diagonal

variable {value : WorkBits Q} {input : UInt64 × ℤ} (h : InputExact value input)
include h

omit [LawfulLogFormat Q] in
/-- The mantissa lies between one and two. -/
theorem InputExact.ratio_bounds : 1 ≤ (input.1.toNat : ℚ) / 2 ^ LogFormat.logF Q ∧
    (input.1.toNat : ℚ) / 2 ^ LogFormat.logF Q < 2 := by
  have hlow : (2 ^ LogFormat.logF Q : ℚ) ≤ input.1.toNat := by exact_mod_cast h.low
  have hhigh : (input.1.toNat : ℚ) < 2 * 2 ^ LogFormat.logF Q := by
    rw [← pow_succ']
    exact_mod_cast h.high
  have hpos : (0 : ℚ) < 2 ^ LogFormat.logF Q := by positivity
  exact ⟨(one_le_div hpos).mpr hlow, (div_lt_iff₀ hpos).mpr hhigh⟩

omit [LawfulLogFormat Q] in
/-- The exponent is the binary exponent of the diagonal. -/
theorem InputExact.exponent_eq (hpositive : 0 < workValue value) :
    input.2 = Int.log 2 (workValue value) := by
  obtain ⟨hone, htwo⟩ := h.ratio_bounds
  have hpow : (0 : ℚ) < 2 ^ input.2 := by positivity
  have hlow : ((2 : ℕ) : ℚ) ^ input.2 ≤ workValue value := by
    rw [h.exact_value, Nat.cast_ofNat]
    exact le_mul_of_one_le_left hpow.le hone
  have hhigh : workValue value < ((2 : ℕ) : ℚ) ^ (input.2 + 1) := by
    rw [h.exact_value, Nat.cast_ofNat, zpow_add_one₀ two_ne_zero, mul_comm ((2 : ℚ) ^ input.2)]
    exact mul_lt_mul_of_pos_right htwo hpow
  have hle := (Int.zpow_le_iff_le_log one_lt_two hpositive).mp hlow
  have hlt := (Int.lt_zpow_iff_log_lt one_lt_two hpositive).mp hhigh
  omega

omit [LawfulLogFormat Q] in
theorem InputExact.log_eq : Real.log (workValue value) =
    Real.log (input.1.toNat / logScale Q) + input.2 * Real.log 2 := by
  have hpos : (0 : ℝ) < input.1.toNat := by
    exact_mod_cast (Nat.two_pow_pos _).trans_le h.low
  have hratio : (input.1.toNat : ℝ) / 2 ^ LogFormat.logF Q ≠ 0 := by positivity
  rw [h.exact_value]
  push_cast
  rw [Real.log_mul hratio (by positivity), Real.log_zpow, logScale_eq]

end Diagonal

/-- The integer that one diagonal adds to the sum. -/
def logTerm (value : WorkBits Q) (log : UInt64) : ℤ :=
  log.toNat + (logInput value).2 * (LogFormat.logLn2 Q).toNat

/-- One diagonal: no operation leaves its words. -/
structure DiagonalExact (value : WorkBits Q) (sum : Accum) (log : UInt64) (next : Accum) :
    Prop where
  input : InputExact value (logInput value)
  mantissa : MantissaBudget Q (logInput value).1 log
  product : (UInt64.ofNat (logInput value).2.natAbs * LogFormat.logLn2 Q).toNat =
    (logInput value).2.natAbs * (LogFormat.logLn2 Q).toNat
  first : (pfQIadd sum log false).toInt = sum.toInt + log.toNat
  second : next.toInt = sum.toInt + logTerm value log

theorem exponent_product_lt {value : WorkBits Q} (h : PositiveFinite value) :
    (logInput value).2.natAbs * (LogFormat.logLn2 Q).toNat < 2 ^ 64 - 2 ^ 55 :=
  (Nat.mul_le_mul_right _ (logInput_exact h).exponent_lt.le).trans_lt
    LawfulLogFormat.exponent_room

theorem signed_exponent (e : ℤ) (factor : ℕ) :
    signed (decide (e < 0)) ((e.natAbs * factor : ℕ) : ℤ) = e * factor := by
  by_cases hnegative : e < 0
  · rw [decide_eq_true hnegative, signed_true, Nat.cast_mul,
      Int.ofNat_natAbs_of_nonpos hnegative.le]
    ring
  · rw [decide_eq_false hnegative, signed_false, Nat.cast_mul,
      Int.natAbs_of_nonneg (not_lt.mp hnegative)]

theorem abs_logTerm_lt {value : WorkBits Q} {log : UInt64} (h : PositiveFinite value)
    (hlog : MantissaBudget Q (logInput value).1 log) : |logTerm value log| < 2 ^ 64 := by
  have hproduct := exponent_product_lt h
  have habs : |(logInput value).2 * ((LogFormat.logLn2 Q).toNat : ℤ)| =
      ((logInput value).2.natAbs * (LogFormat.logLn2 Q).toNat : ℕ) := by
    rw [abs_mul, Nat.abs_cast, Int.abs_eq_natAbs, Nat.cast_mul]
  have hsmall := hlog.small
  have hlimit := (pow_logF_bounds Q).2
  rw [logTerm]
  calc |(log.toNat : ℤ) + (logInput value).2 * (LogFormat.logLn2 Q).toNat| ≤
        |(log.toNat : ℤ)| + |(logInput value).2 * (LogFormat.logLn2 Q).toNat| := abs_add_le _ _
    _ < 2 ^ 64 := by
      rw [habs, Nat.abs_cast]
      omega

/-- The error of one diagonal. -/
theorem logTerm_close {value : WorkBits Q} {log : UInt64} (h : PositiveFinite value)
    (hlog : MantissaBudget Q (logInput value).1 log) :
    |(logTerm value log : ℝ) - logScale Q * Real.log (workValue value)| <
      8 + logScale Q * LogFormat.logTail Q + (|Int.log 2 (workValue value)| : ℤ) / 2 := by
  have hinput := logInput_exact h
  have hln2 := LawfulLogFormat.ln2_close (Q := Q)
  rw [← logScale_eq] at hln2
  have hexponent : |((logInput value).2 : ℝ) *
      ((LogFormat.logLn2 Q).toNat - logScale Q * Real.log 2)| ≤
        (|Int.log 2 (workValue value)| : ℤ) / 2 := by
    rw [abs_mul, ← hinput.exponent_eq h.positive, Int.cast_abs, div_eq_mul_one_div]
    exact mul_le_mul_of_nonneg_left hln2 (abs_nonneg _)
  have hsplit : (logTerm value log : ℝ) - logScale Q * Real.log (workValue value) =
      ((log.toNat : ℝ) - logScale Q * Real.log ((logInput value).1.toNat / logScale Q)) +
        (logInput value).2 * ((LogFormat.logLn2 Q).toNat - logScale Q * Real.log 2) := by
    rw [hinput.log_eq, logTerm]
    push_cast
    ring
  rw [hsplit]
  exact (abs_add_le _ _).trans_lt (add_lt_add_of_lt_of_le hlog.close hexponent)

/-- A step on a sum with room. -/
theorem logStep_spec {lower : ℕ → WorkBits Q} {k i : ℕ} {sum : Accum}
    (h : PositiveFinite (lower (i * k + i))) (hsum : |sum.toInt| ≤ 2 ^ 126) :
    ∃ log next, logStep lower k i sum = .ok next ∧
      DiagonalExact (lower (i * k + i)) sum log next := by
  have hinput := logInput_exact h
  obtain ⟨log, hlog⟩ := logMantissa_budget hinput.low hinput.high
  have hterm := abs_lt.mp (abs_logTerm_lt h hlog)
  have hproduct := exponent_product_lt h
  have hword := log.toNat_lt
  obtain ⟨hbelow, habove⟩ := abs_le.mp hsum
  have hcount : (UInt64.ofNat (logInput (lower (i * k + i))).2.natAbs).toNat =
      (logInput (lower (i * k + i))).2.natAbs := by
    have hpositive : 0 < (LogFormat.logLn2 Q).toNat := LawfulLogFormat.ln2_pos
    exact UInt64.toNat_ofNat_of_lt' ((Nat.le_mul_of_pos_right _ hpositive).trans_lt
      (hproduct.trans (by norm_num)))
  have hexact : (UInt64.ofNat (logInput (lower (i * k + i))).2.natAbs * LogFormat.logLn2 Q).toNat =
      (logInput (lower (i * k + i))).2.natAbs * (LogFormat.logLn2 Q).toNat := by
    rw [toNat_mul_of_fits (by rw [hcount]; omega), hcount]
  have hfirst : (pfQIadd sum log false).toInt = sum.toInt + log.toNat := by
    rw [toInt_pfQIadd (by rw [signed_false]; constructor <;> omega), signed_false]
  have hsigned := signed_exponent (logInput (lower (i * k + i))).2 (LogFormat.logLn2 Q).toNat
  have hsecond : (pfQIadd (pfQIadd sum log false)
      (UInt64.ofNat (logInput (lower (i * k + i))).2.natAbs * LogFormat.logLn2 Q)
      (decide ((logInput (lower (i * k + i))).2 < 0))).toInt =
        sum.toInt + logTerm (lower (i * k + i)) log := by
    have htotal : (pfQIadd sum log false).toInt + signed
        (decide ((logInput (lower (i * k + i))).2 < 0))
        ((UInt64.ofNat (logInput (lower (i * k + i))).2.natAbs * LogFormat.logLn2 Q).toNat : ℤ) =
          sum.toInt + logTerm (lower (i * k + i)) log := by
      rw [hfirst, hexact, hsigned, logTerm, add_assoc]
    rw [toInt_pfQIadd (by rw [htotal]; constructor <;> omega), htotal]
  refine ⟨log, _, ?_, hinput, hlog, hexact, hfirst, hsecond⟩
  rw [logStep, hlog.value]
  rfl

/-! ## The determinant -/

section Determinant

variable {lower : ℕ → WorkBits Q} {k : ℕ}

/-- The logarithms of the first diagonals on the grid. -/
noncomputable def logTarget (lower : ℕ → WorkBits Q) (k count : ℕ) : ℝ :=
  logScale Q * ∑ i ∈ range count, Real.log (workValue (lower (i * k + i)))

/-- What the first diagonals may be off: the budget of each one, and half a unit for
every binary exponent. -/
noncomputable def logAllowance (lower : ℕ → WorkBits Q) (k count : ℕ) : ℝ :=
  count * ((8 : ℕ) + logScale Q * LogFormat.logTail Q) +
    (∑ i ∈ range count, |Int.log 2 (workValue (lower (i * k + i)))| : ℤ) / (2 : ℕ)

omit [LawfulLogFormat Q] in
theorem logAllowance_eq (count : ℕ) : logAllowance lower k count =
    count * (8 + logScale Q * LogFormat.logTail Q) +
      (∑ i ∈ range count, |Int.log 2 (workValue (lower (i * k + i)))| : ℤ) / 2 := by
  rw [logAllowance, Nat.cast_ofNat, Nat.cast_ofNat]

omit [LawfulLogFormat Q] in
theorem logTarget_succ (count : ℕ) : logTarget lower k (count + 1) =
    logTarget lower k count + logScale Q * Real.log (workValue (lower (count * k + count))) := by
  rw [logTarget, logTarget, sum_range_succ, mul_add]

omit [LawfulLogFormat Q] in
theorem logAllowance_succ (count : ℕ) : logAllowance lower k (count + 1) =
    logAllowance lower k count + (8 + logScale Q * LogFormat.logTail Q +
      (|Int.log 2 (workValue (lower (count * k + count)))| : ℤ) / 2) := by
  rw [logAllowance_eq, logAllowance_eq, sum_range_succ]
  push_cast
  ring

/-- The sum of the first diagonals. -/
structure LogPrefix (lower : ℕ → WorkBits Q) (k count : ℕ) (sum : Accum) : Prop where
  value : logDeterminant lower k count = .ok sum
  size : |sum.toInt| ≤ count * 2 ^ 64
  close : |(sum.toInt : ℝ) - logTarget lower k count| ≤ logAllowance lower k count
  strict : 0 < count → |(sum.toInt : ℝ) - logTarget lower k count| < logAllowance lower k count

omit [LawfulLogFormat Q] in
theorem logPrefix_zero : LogPrefix lower k 0 ⟨0, 0⟩ := by
  refine ⟨rfl, le_of_eq ?_, le_of_eq ?_, fun h => absurd h (lt_irrefl 0)⟩
  · rw [Accum.toInt_zero, abs_zero, Nat.cast_zero, zero_mul]
  · rw [Accum.toInt_zero, logTarget, logAllowance_eq, sum_range_zero, sum_range_zero]
    norm_num

/-- One more diagonal. -/
theorem logPrefix_succ {count : ℕ} {sum : Accum} (h : LogPrefix lower k count sum)
    (hcount : count ≤ 2 ^ 62) (hvalue : PositiveFinite (lower (count * k + count))) :
    ∃ log next, DiagonalExact (lower (count * k + count)) sum log next ∧
      LogPrefix lower k (count + 1) next := by
  have hsize := h.size
  have hroom : |sum.toInt| ≤ 2 ^ 126 := by
    have hcast : (count : ℤ) ≤ 2 ^ 62 := by exact_mod_cast hcount
    linarith
  obtain ⟨log, next, hstep, hexact⟩ := logStep_spec hvalue hroom
  have hterm := abs_logTerm_lt hvalue hexact.mantissa
  have hclose := logTerm_close hvalue hexact.mantissa
  have hsplit : (next.toInt : ℝ) - logTarget lower k (count + 1) =
      ((sum.toInt : ℝ) - logTarget lower k count) + ((logTerm (lower (count * k + count)) log : ℝ) -
        logScale Q * Real.log (workValue (lower (count * k + count)))) := by
    rw [hexact.second, logTarget_succ]
    push_cast
    ring
  have hstrict : |(next.toInt : ℝ) - logTarget lower k (count + 1)| <
      logAllowance lower k (count + 1) := by
    rw [hsplit, logAllowance_succ]
    exact (abs_add_le _ _).trans_lt (add_lt_add_of_le_of_lt h.close hclose)
  refine ⟨log, next, hexact, ?_, ?_, hstrict.le, fun _ => hstrict⟩
  · rw [logDeterminant, forRange_succ (Nat.zero_le count), ← logDeterminant, h.value]
    exact hstep
  · rw [hexact.second, Nat.cast_succ]
    have hadd := abs_add_le sum.toInt (logTerm (lower (count * k + count)) log)
    linarith

theorem exists_logPrefix {count : ℕ} (hcount : count ≤ 2 ^ 62)
    (hlower : ∀ i < count, PositiveFinite (lower (i * k + i))) :
    ∃ sum, LogPrefix lower k count sum := by
  induction count with
  | zero => exact ⟨_, logPrefix_zero⟩
  | succ count ih =>
      obtain ⟨sum, hsum⟩ := ih (by omega) fun i hi => hlower i (by omega)
      obtain ⟨-, next, -, hnext⟩ := logPrefix_succ hsum (by omega) (hlower count (by omega))
      exact ⟨next, hnext⟩

end Determinant

end Log

/-- What the header of the logarithm promises: every mantissa stays within its budget and
every operation within its words; the sum over the diagonals of a triangle is an exact
integer, and its error is the sum of the budgets. -/
structure LogBudget (Q : Type) [LogFormat Q] : Prop where
  mantissa : ∀ mantissa : UInt64, 2 ^ LogFormat.logF Q ≤ mantissa.toNat →
    mantissa.toNat < 2 ^ (LogFormat.logF Q + 1) → ∃ log, MantissaBudget Q mantissa log
  determinant : ∀ (lower : ℕ → WorkBits Q) (k : ℕ), 0 < k → k * k < 2 ^ 64 →
    (∀ i < k, PositiveFinite (lower (i * k + i))) →
      (∀ i < k, ∃ sum log next, LogPrefix lower k i sum ∧
        DiagonalExact (lower (i * k + i)) sum log next ∧ LogPrefix lower k (i + 1) next) ∧
      ∃ sum, logDeterminant lower k k = .ok sum ∧
        |(sum.toInt : ℝ) -
          2 ^ LogFormat.logF Q * ∑ i ∈ range k, Real.log (workValue (lower (i * k + i)))| <
            k * (8 + 2 ^ LogFormat.logF Q * LogFormat.logTail Q) +
              (∑ i ∈ range k, |Int.log 2 (workValue (lower (i * k + i)))| : ℤ) / 2

theorem logBudget_of_lawful (Q : Type) [LogFormat Q] [LawfulLogFormat Q] : LogBudget Q where
  mantissa _ hlow hhigh := logMantissa_budget hlow hhigh
  determinant lower k hk hwords hlower := by
    have hroom : k ≤ 2 ^ 62 := by
      by_contra hlarge
      have hsquare : 2 ^ 62 * 2 ^ 62 ≤ k * k := Nat.mul_le_mul (by omega) (by omega)
      omega
    refine ⟨fun i hi => ?_, ?_⟩
    · have hprefix : ∀ j < i, PositiveFinite (lower (j * k + j)) :=
        fun j hj => hlower j (by omega)
      obtain ⟨sum, hsum⟩ := exists_logPrefix (by omega) hprefix
      obtain ⟨log, next, hexact, hnext⟩ := logPrefix_succ hsum (by omega) (hlower i hi)
      exact ⟨sum, log, next, hsum, hexact, hnext⟩
    · obtain ⟨sum, hsum⟩ := exists_logPrefix hroom hlower
      have hclose := hsum.strict hk
      rw [logTarget, logAllowance_eq, logScale_eq] at hclose
      exact ⟨sum, hsum.value, hclose⟩

/-- Both builds keep the declared budget of the logarithm. -/
theorem log_budgets : LogBudget Int16 ∧ LogBudget Int32 :=
  ⟨logBudget_of_lawful Int16, logBudget_of_lawful Int32⟩

end Xhive.Particles
