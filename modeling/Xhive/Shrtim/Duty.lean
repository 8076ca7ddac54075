import Xhive.Shrtim.Timing

/-!
# The duty of a PWM unit

The compare value of a duty is clamped to the minimum of the registers.  It lies
inside the period, and the share of the cycle grows with the duty, unless the
period is so close to the minimum that the clamp decides.
-/

namespace Xhive.Shrtim

open Xhive.Support

/-! ## Compare values -/

section Compare

variable {period duty : UInt32} {i : ℕ}

/-- The compare value of a share in parts per thousand, before the clamps. -/
def roundedShare (period parts : ℕ) : ℕ :=
  roundedQuotient (period * parts) 1000

theorem roundedShare_mono {p a b : ℕ} (h : a ≤ b) : roundedShare p a ≤ roundedShare p b :=
  roundedQuotient_le (by norm_num) (by norm_num)
    (Nat.mul_le_mul_right _ (Nat.mul_le_mul_left _ h))

theorem toNat_roundedShare {parts : UInt64} (hperiod : period.toNat ≤ 65535)
    (hparts : parts.toNat ≤ 1000) :
    ((period.toUInt64 * parts + 500) / 1000).toNat = roundedShare period.toNat parts.toNat := by
  have hproduct : period.toNat * parts.toNat ≤ 65535 * 1000 := Nat.mul_le_mul hperiod hparts
  have hexact : (period.toUInt64 * parts).toNat = period.toNat * parts.toNat := by
    rw [UInt64.toNat_mul, UInt32.toNat_toUInt64, Nat.mod_eq_of_lt (by omega)]
  have hthousand : (1000 : UInt64).toNat = 1000 := rfl
  rw [show (500 : UInt64) = 1000 / 2 by decide, toNat_div_add_half, hexact, hthousand, roundedShare]
  · rw [hthousand]
    norm_num
  · rw [hexact, hthousand]
    omega

theorem roundedShare_le {p a : ℕ} (h : a ≤ 1000) : roundedShare p a ≤ p := by
  rw [roundedShare, roundedQuotient_le_iff (by norm_num)]
  have hproduct : p * a ≤ p * 1000 := Nat.mul_le_mul_left p h
  omega

/-- The duty as a compare value: below the period, and from the minimum on, which
takes precedence. -/
theorem toNat_edgeCompare (hi : i < 8) (hpos : 0 < period.toNat) (hperiod : period.toNat ≤ 65535)
    (hduty : duty.toNat ≤ 1000) :
    (edgeCompare period duty i).toNat =
      max (periodMin i) (min (period.toNat - 1) (roundedShare period.toNat duty.toNat)) := by
  have hshare : ((period.toUInt64 * duty.toUInt64 + 500) / 1000).toNat =
      roundedShare period.toNat duty.toNat := by
    rw [toNat_roundedShare hperiod (by simpa using hduty), UInt32.toNat_toUInt64]
  unfold edgeCompare
  extract_lets c c'
  change c.toNat = _ at hshare
  have hclamp : c'.toNat = min (period.toNat - 1) (roundedShare period.toNat duty.toNat) := by
    have hone : (1 : UInt64) ≤ period.toUInt64 := by
      rw [UInt64.le_iff_toNat_le, UInt32.toNat_toUInt64]
      exact hpos
    by_cases hover : period.toUInt64 ≤ c
    · rw [show c' = period.toUInt64 - 1 from if_pos hover, UInt64.toNat_sub_of_le _ _ hone,
        UInt32.toNat_toUInt64, UInt64.toNat_one, min_eq_left]
      rw [UInt64.le_iff_toNat_le, UInt32.toNat_toUInt64, hshare] at hover
      omega
    · rw [show c' = c from if_neg hover, hshare, min_eq_right]
      rw [UInt64.le_iff_toNat_le, UInt32.toNat_toUInt64, hshare] at hover
      omega
  have hmin := toNat_ticksMin i hi
  split
  · next hlow =>
      rw [UInt64.lt_iff_toNat_lt, UInt32.toNat_toUInt64, hmin, hclamp] at hlow
      rw [hmin, max_eq_left hlow.le]
  · next hlow =>
      rw [UInt64.lt_iff_toNat_lt, UInt32.toNat_toUInt64, hmin, hclamp] at hlow
      rw [UInt64.toNat_toUInt32, hclamp, max_eq_right (not_lt.mp hlow), Nat.mod_eq_of_lt]
      omega

/-- The parts of the cycle between the edge of the master and the compare event. -/
def centerParts (duty : ℕ) : ℕ := if duty ≤ 500 then duty else 1000 - duty

theorem centerParts_le (duty : ℕ) : centerParts duty ≤ 500 := by
  rw [centerParts]
  split <;> omega

theorem toNat_centerCompare (hi : i < 8) (hperiod : period.toNat ≤ 65535)
    (hduty : duty.toNat ≤ 1000) :
    (centerCompare period duty i).toNat =
      max (periodMin i) (roundedShare period.toNat (centerParts duty.toNat)) := by
  have hparts := centerParts_le duty.toNat
  unfold centerCompare
  extract_lets scaled c
  have hshare : c.toNat = roundedShare period.toNat (centerParts duty.toNat) := by
    have hhalf : duty ≤ 500 ↔ duty.toNat ≤ 500 := UInt32.le_iff_toNat_le
    by_cases hle : duty ≤ 500
    · have hc : c = (period.toUInt64 * duty.toUInt64 + 500) / 1000 := by
        rw [show c = (scaled + 500) / 1000 from rfl, show scaled = _ from if_pos hle]
      rw [hc, toNat_roundedShare hperiod (by simpa using hduty), UInt32.toNat_toUInt64, centerParts,
        if_pos (hhalf.mp hle)]
    · have hc : c = (period.toUInt64 * (1000 - duty.toUInt64) + 500) / 1000 := by
        rw [show c = (scaled + 500) / 1000 from rfl, show scaled = _ from if_neg hle]
      have hsub : (1000 - duty.toUInt64).toNat = 1000 - duty.toNat := by
        rw [UInt64.toNat_sub_of_le, UInt32.toNat_toUInt64]
        · rfl
        · rw [UInt64.le_iff_toNat_le, UInt32.toNat_toUInt64]
          exact hduty
      rw [hc, toNat_roundedShare hperiod (by rw [hsub]; omega), hsub, centerParts,
        if_neg (hhalf.not.mp hle)]
  have hmin := toNat_ticksMin i hi
  split
  · next hlow =>
      rw [UInt64.lt_iff_toNat_lt, UInt32.toNat_toUInt64, hmin, hshare] at hlow
      rw [hmin, max_eq_left hlow.le]
  · next hlow =>
      rw [UInt64.lt_iff_toNat_lt, UInt32.toNat_toUInt64, hmin, hshare] at hlow
      have hle := roundedShare_le (p := period.toNat) (hparts.trans (by norm_num : 500 ≤ 1000))
      rw [UInt64.toNat_toUInt32, hshare, max_eq_right (not_lt.mp hlow), Nat.mod_eq_of_lt]
      omega

end Compare

/-! ## Shares of the cycle -/

/-- The clamped compare values. -/
def edgeTicks (i p duty : ℕ) : ℕ :=
  max (periodMin i) (min (p - 1) (roundedShare p duty))

def centerTicks (i p duty : ℕ) : ℕ :=
  max (periodMin i) (roundedShare p (centerParts duty))

theorem edgeTicks_lt_iff {i p : ℕ} (hmin : 0 < periodMin i) (hfits : periodMin i ≤ p) (duty : ℕ) :
    edgeTicks i p duty < p ↔ periodMin i < p := by
  rw [edgeTicks]
  omega

theorem edgeTicks_mono (i p : ℕ) {a b : ℕ} (h : a ≤ b) : edgeTicks i p a ≤ edgeTicks i p b :=
  max_le_max le_rfl (min_le_min le_rfl (roundedShare_mono h))

theorem roundedShare_half (p : ℕ) : roundedShare p 500 = (p + 1) / 2 := by
  rw [roundedShare, roundedQuotient_eq _ (by norm_num)]
  omega

theorem roundedShare_below_half (p : ℕ) : roundedShare p 499 ≤ p / 2 := by
  rw [roundedShare, roundedQuotient_le_iff (by norm_num)]
  omega

theorem centerTicks_lt_iff {i p : ℕ} (hmin : 3 ≤ periodMin i) (hfits : periodMin i ≤ p)
    (duty : ℕ) : centerTicks i p duty < p ↔ periodMin i < p := by
  have hhalf := (roundedShare_mono (p := p) (centerParts_le duty)).trans_eq (roundedShare_half p)
  rw [centerTicks]
  omega

/-- The two sides of the switch of roles at one half add up to no more than a cycle. -/
theorem centerTicks_add_le {i p a b : ℕ} (hmin : 2 * periodMin i ≤ p) (hb : 500 < b) : centerTicks i p a + centerTicks i p b ≤ p := by
  have hlow := (roundedShare_mono (p := p) (centerParts_le a)).trans_eq (roundedShare_half p)
  have hparts : centerParts b ≤ 499 := by
    rw [centerParts, if_neg (not_le.mpr hb)]
    omega
  have hhigh := (roundedShare_mono (p := p) hparts).trans (roundedShare_below_half p)
  rw [centerTicks, centerTicks]
  omega

/-- The share of the cycle of a compare value: the pulse ends there, or starts. -/
def share (starts : Bool) (c p : ℕ) : ℚ :=
  if starts then 1 - c / p else c / p

theorem centerShare_mono {i p a b : ℕ} (hpos : 0 < p) (hmin : 2 * periodMin i ≤ p) (h : a ≤ b) :
    share (decide (500 < a)) (centerTicks i p a) p ≤
      share (decide (500 < b)) (centerTicks i p b) p := by
  have hp : (0 : ℚ) < p := Nat.cast_pos.mpr hpos
  rcases le_or_gt b 500 with hb | hb
  · have hticks : centerTicks i p a ≤ centerTicks i p b := by
      rw [centerTicks, centerTicks, centerParts, centerParts, if_pos (h.trans hb), if_pos hb]
      exact max_le_max le_rfl (roundedShare_mono h)
    rw [share, share, if_neg (by simpa using h.trans hb), if_neg (by simpa using hb)]
    gcongr
  · rcases le_or_gt a 500 with ha | ha
    · have hsum := centerTicks_add_le (a := a) hmin hb
      rw [share, share, if_neg (by simpa using ha), if_pos (by simpa using hb), le_sub_iff_add_le,
        ← add_div, div_le_one hp]
      exact_mod_cast hsum
    · have hticks : centerTicks i p b ≤ centerTicks i p a := by
        rw [centerTicks, centerTicks, centerParts, centerParts, if_neg (not_le.mpr ha),
          if_neg (not_le.mpr hb)]
        exact max_le_max le_rfl (roundedShare_mono (Nat.sub_le_sub_left h _))
      rw [share, share, if_pos (by simpa using ha), if_pos (by simpa using hb)]
      gcongr

theorem edgeShare_mono (i p : ℕ) {a b : ℕ} (h : a ≤ b) :
    share false (edgeTicks i p a) p ≤ share false (edgeTicks i p b) p := by
  have hticks := edgeTicks_mono i p h
  simp only [share, Bool.false_eq_true, if_false]
  gcongr

/-! ## The programmed outputs -/

/-- The compare register of a source. -/
def compareRegister : OutputSrc → Option ℕ
  | .timCmp1 => some 1
  | .timCmp2 => some 2
  | .timCmp3 => some 3
  | _ => none

/-- The compare value of an output, and whether its pulse starts there. -/
def compareEvent (unit out : ℕ) (s : Hal) : Option (Bool × ℕ) :=
  let ends := compareRegister (s.outputs out).resetSrc
  let starts := compareRegister (s.outputs out).setSrc
  (ends.map fun cmp => (false, ((s.timers unit).compare cmp).toNat)).or
    (starts.map fun cmp => (true, ((s.timers unit).compare cmp).toNat))

/-- The effective duty of an output with a compare event. -/
def activeShare (unit out : ℕ) (s : Hal) : ℚ :=
  (compareEvent unit out s).elim 0 fun event => share event.1 event.2 (s.units unit).period.toNat

/-- `apply_crossbars` after a duty is stored. -/
def programDuty (unit : ℕ) (duty : UInt32) (s : Hal) : Hal :=
  applyCrossbars unit (onUnit unit (fun st => { st with duty := duty }) s)

def programDuty2 (unit : ℕ) (duty : UInt32) (s : Hal) : Hal :=
  applyCrossbars unit (onUnit unit (fun st => { st with duty2 := duty }) s)

section Applied

variable (unit : ℕ) (s : Hal)

theorem applyCrossbars_units : (applyCrossbars unit s).units = s.units := by
  simp only [applyCrossbars, setCompareOf]
  split <;> split <;> rfl

theorem applyCrossbars_outputs :
    ((applyCrossbars unit s).outputs (outOf unit 0)).setSrc = (crossbar1 (s.units unit)).set ∧
      ((applyCrossbars unit s).outputs (outOf unit 0)).resetSrc =
        (crossbar1 (s.units unit)).reset ∧
      ((applyCrossbars unit s).outputs (outOf unit 1)).setSrc = (crossbar2 (s.units unit)).set ∧
      ((applyCrossbars unit s).outputs (outOf unit 1)).resetSrc =
        (crossbar2 (s.units unit)).reset := by
  have hne : outOf unit 0 ≠ outOf unit 1 := by
    simp [outOf]
  simp [applyCrossbars, outSetOutputSetSrc, outSetOutputResetSrc, onOutput, hne, hne.symm]

theorem applyCrossbars_compare :
    ((applyCrossbars unit s).timers unit).compare =
      ((setCompareOf unit (crossbar2 (s.units unit))
        (setCompareOf unit (crossbar1 (s.units unit)) s)).timers unit).compare := rfl

end Applied

section Crossbars

variable {unit : ℕ} {s : Hal} {st : UnitState}

theorem crossbar2_register {c : ℕ × UInt32} (h : (crossbar2 st).compare = some c) : c.1 ≠ 1 := by
  rw [crossbar2] at h
  split_ifs at h <;> simp at h <;> subst h <;> simp

theorem compare_of_crossbar1 {c : UInt32} (h : (crossbar1 (s.units unit)).compare = some (1, c)) :
    ((applyCrossbars unit s).timers unit).compare 1 = c := by
  rw [applyCrossbars_compare, setCompareOf]
  split
  · next other hother =>
      have hne := (crossbar2_register hother).symm
      simp [setCompareOf, h, timSetCompare, onTimer, hne]
  · simp [setCompareOf, h, timSetCompare, onTimer]

theorem compare_of_crossbar2 {cmp : ℕ} {c : UInt32}
    (h : (crossbar2 (s.units unit)).compare = some (cmp, c)) :
    ((applyCrossbars unit s).timers unit).compare cmp = c := by
  rw [applyCrossbars_compare]
  generalize setCompareOf unit (crossbar1 (s.units unit)) s = t
  simp [setCompareOf, h, timSetCompare, onTimer]

/-- A duty of neither none nor all of the cycle. -/
def Proper (duty : UInt32) : Prop := 1 ≤ duty ∧ duty ≤ 999

instance : DecidablePred Proper := fun _ => inferInstanceAs (Decidable (_ ∧ _))

theorem Proper.ne_zero {duty : UInt32} (h : Proper duty) : duty ≠ 0 := by
  rintro rfl
  exact absurd h.1 (by decide)

theorem Proper.lt {duty : UInt32} (h : Proper duty) : ¬1000 ≤ duty := by
  intro hlarge
  exact absurd (UInt32.le_trans hlarge h.2) (by decide)

theorem crossbar1_of_edge (h : st.edgeBranch = true) (hduty : Proper st.duty) :
    crossbar1 st = ⟨.timPer, .timCmp1, some (1, edgeCompare st.period st.duty st.ratioIdx)⟩ := by
  rw [crossbar1, if_pos h, if_neg hduty.ne_zero, if_neg hduty.lt]

theorem crossbar1_of_center (h : st.edgeBranch = false) :
    crossbar1 st =
      if st.duty ≤ 500 then
        ⟨.masterPer, .timCmp1, some (1, centerCompare st.period st.duty st.ratioIdx)⟩
      else
        ⟨.timCmp1, .masterPer, some (1, centerCompare st.period st.duty st.ratioIdx)⟩ := by
  rw [crossbar1, if_neg (by simp [h])]

theorem crossbar2_of_edge (h : st.edgeBranch = true) (hduty : Proper st.duty2) :
    crossbar2 st = ⟨.timPer, .timCmp2, some (2, edgeCompare st.period st.duty2 st.ratioIdx)⟩ := by
  rw [crossbar2, if_neg hduty.ne_zero, if_neg hduty.lt, if_pos h]

theorem crossbar2_of_center (h : st.edgeBranch = false) (hduty : Proper st.duty2) :
    crossbar2 st =
      if st.duty2 ≤ 500 then
        ⟨.masterPer, .timCmp3, some (3, centerCompare st.period st.duty2 st.ratioIdx)⟩
      else
        ⟨.timCmp3, .masterPer, some (3, centerCompare st.period st.duty2 st.ratioIdx)⟩ := by
  rw [crossbar2, if_neg hduty.ne_zero, if_neg hduty.lt, if_neg (by simp [h])]

/-- The event of a duty: its compare value, which starts the pulse of a center duty
above one half. -/
def dutyEvent (edge : Bool) (period : UInt32) (i : ℕ) (duty : UInt32) : Bool × ℕ :=
  if edge then (false, (edgeCompare period duty i).toNat)
  else (decide (500 < duty.toNat), (centerCompare period duty i).toNat)

theorem compareEvent_out1 (hduty : Proper (s.units unit).duty) :
    compareEvent unit (outOf unit 0) (applyCrossbars unit s) =
      some (dutyEvent (s.units unit).edgeBranch (s.units unit).period (s.units unit).ratioIdx
        (s.units unit).duty) := by
  obtain ⟨hset, hreset, -, -⟩ := applyCrossbars_outputs unit s
  rw [compareEvent, hset, hreset, dutyEvent]
  by_cases hedge : (s.units unit).edgeBranch = true
  · have hx := crossbar1_of_edge hedge hduty
    have hc := compare_of_crossbar1 (congrArg Crossbar.compare hx)
    simp [hx, hc, hedge, compareRegister]
  · have hx := crossbar1_of_center (Bool.not_eq_true _ ▸ hedge)
    have hhalf : (s.units unit).duty ≤ 500 ↔ (s.units unit).duty.toNat ≤ 500 :=
      UInt32.le_iff_toNat_le
    by_cases hle : (s.units unit).duty ≤ 500
    · rw [if_pos hle] at hx
      have hc := compare_of_crossbar1 (congrArg Crossbar.compare hx)
      simp [hx, hc, hedge, compareRegister, hhalf.mp hle]
    · rw [if_neg hle] at hx
      have hc := compare_of_crossbar1 (congrArg Crossbar.compare hx)
      simp [hx, hc, hedge, compareRegister, not_le.mp (hhalf.not.mp hle)]

theorem compareEvent_out2 (hduty : Proper (s.units unit).duty2) :
    compareEvent unit (outOf unit 1) (applyCrossbars unit s) =
      some (dutyEvent (s.units unit).edgeBranch (s.units unit).period (s.units unit).ratioIdx
        (s.units unit).duty2) := by
  obtain ⟨-, -, hset, hreset⟩ := applyCrossbars_outputs unit s
  rw [compareEvent, hset, hreset, dutyEvent]
  by_cases hedge : (s.units unit).edgeBranch = true
  · have hx := crossbar2_of_edge hedge hduty
    have hc := compare_of_crossbar2 (congrArg Crossbar.compare hx)
    simp [hx, hc, hedge, compareRegister]
  · have hx := crossbar2_of_center (Bool.not_eq_true _ ▸ hedge) hduty
    have hhalf : (s.units unit).duty2 ≤ 500 ↔ (s.units unit).duty2.toNat ≤ 500 :=
      UInt32.le_iff_toNat_le
    by_cases hle : (s.units unit).duty2 ≤ 500
    · rw [if_pos hle] at hx
      have hc := compare_of_crossbar2 (congrArg Crossbar.compare hx)
      simp [hx, hc, hedge, compareRegister, hhalf.mp hle]
    · rw [if_neg hle] at hx
      have hc := compare_of_crossbar2 (congrArg Crossbar.compare hx)
      simp [hx, hc, hedge, compareRegister, not_le.mp (hhalf.not.mp hle)]

theorem edgeBranch_of_proper (hduty : Proper st.duty) :
    st.edgeBranch = decide (st.align = alignEdge) := by
  simp [UnitState.edgeBranch, hduty.ne_zero, hduty.lt]

end Crossbars

/-! ## The duty law -/

/-- The duties from 1 to 999 give compare values inside the period `p` when the
minimum is, and shares that grow with the duty when `grows` holds. -/
structure DutyLaw (unit out : ℕ) (program : UInt32 → Hal) (edge : Bool) (i p : ℕ)
    (grows : Prop) : Prop where
  event : ∀ duty, Proper duty → ∃ c,
    compareEvent unit out (program duty) = some (!edge && decide (500 < duty.toNat), c) ∧
      0 < c ∧ (c < p ↔ periodMin i < p)
  nondecreasing : grows → ∀ a b, Proper a → Proper b → a ≤ b →
    activeShare unit out (program a) ≤ activeShare unit out (program b)

theorem dutyLaw_of_events {unit out : ℕ} {program : UInt32 → Hal} {edge : Bool} {i : ℕ}
    {period : UInt32} (hi : i < 8) (hfits : PeriodFits i period.toNat)
    (hevent : ∀ duty, Proper duty →
      compareEvent unit out (program duty) = some (dutyEvent edge period i duty))
    (hperiod : ∀ duty, ((program duty).units unit).period = period) :
    DutyLaw unit out program edge i period.toNat
      (edge = true ∨ 2 * periodMin i ≤ period.toNat) := by
  obtain ⟨hlow, hhigh⟩ := hfits
  have hmin := (periodMin_bounds i hi).1
  have hpos : 0 < period.toNat := by omega
  have hduty : ∀ duty, Proper duty → duty.toNat ≤ 1000 := by
    intro duty h
    have hle := UInt32.le_iff_toNat_le.mp h.2
    exact hle.trans (by decide)
  have hedge : ∀ duty, Proper duty → dutyEvent true period i duty =
      (false, edgeTicks i period.toNat duty.toNat) := by
    intro duty h
    rw [dutyEvent, if_pos rfl, toNat_edgeCompare hi hpos hhigh (hduty duty h), edgeTicks]
  have hcenter : ∀ duty, Proper duty → dutyEvent false period i duty =
      (decide (500 < duty.toNat), centerTicks i period.toNat duty.toNat) := by
    intro duty h
    rw [dutyEvent, if_neg Bool.false_ne_true, toNat_centerCompare hi hhigh (hduty duty h),
      centerTicks]
  constructor
  · intro duty h
    rw [hevent duty h]
    cases edge with
    | true =>
        rw [hedge duty h]
        have hle : periodMin i ≤ edgeTicks i period.toNat duty.toNat := le_max_left _ _
        exact ⟨_, rfl, by omega, edgeTicks_lt_iff (by omega) hlow _⟩
    | false =>
        rw [hcenter duty h]
        have hle : periodMin i ≤ centerTicks i period.toNat duty.toNat := le_max_left _ _
        exact ⟨_, rfl, by omega, centerTicks_lt_iff hmin hlow _⟩
  · intro hgrows a b ha hb hab
    have hab' := UInt32.le_iff_toNat_le.mp hab
    rw [activeShare, activeShare, hevent a ha, hevent b hb, hperiod, hperiod]
    cases edge with
    | true =>
        rw [hedge a ha, hedge b hb]
        exact edgeShare_mono i _ hab'
    | false =>
        rw [hcenter a ha, hcenter b hb]
        exact centerShare_mono hpos (hgrows.resolve_left Bool.false_ne_true) hab'

/-- For a timing that `solve_timing` returns: the compare values of both outputs lie
inside the period unless it is the minimum itself, and the effective duty grows with
the duty in edge alignment, and in center alignment when the period is at least twice
the minimum. -/
theorem duty_law {clk hz mult : UInt32} (hhz : hz ≠ 0) (hmult : mult = 1 ∨ mult = 2)
    {timing : Timing} (h : solveTiming clk hz mult = .ok timing) {unit : ℕ} {s : Hal}
    (hperiod : (s.units unit).period = timing.period)
    (hidx : (s.units unit).ratioIdx = timing.ratioIdx) :
    DutyLaw unit (outOf unit 0) (fun duty => programDuty unit duty s)
        (decide ((s.units unit).align = alignEdge)) timing.ratioIdx timing.period.toNat
        ((s.units unit).align = alignEdge ∨
          2 * periodMin timing.ratioIdx ≤ timing.period.toNat) ∧
      DutyLaw unit (outOf unit 1) (fun duty => programDuty2 unit duty s)
        (s.units unit).edgeBranch timing.ratioIdx timing.period.toNat
        ((s.units unit).edgeBranch = true ∨
          2 * periodMin timing.ratioIdx ≤ timing.period.toNat) := by
  obtain ⟨hlt, -, -, hfits, -⟩ := solveTiming_first hhz hmult h
  have hunits : ∀ f : UnitState → UnitState,
      ((onUnit unit f s).units unit) = f (s.units unit) := by
    intro f
    simp [onUnit]
  constructor
  · have hlaw : DutyLaw unit (outOf unit 0) (fun duty => programDuty unit duty s)
        (decide ((s.units unit).align = alignEdge)) timing.ratioIdx timing.period.toNat
        (decide ((s.units unit).align = alignEdge) = true ∨
          2 * periodMin timing.ratioIdx ≤ timing.period.toNat) := by
      refine dutyLaw_of_events hlt hfits ?_ ?_
      · intro duty hduty
        have hstored : Proper ((onUnit unit (fun st => { st with duty := duty }) s).units unit).duty := by
          rw [hunits]
          exact hduty
        rw [programDuty, compareEvent_out1 hstored, hunits, edgeBranch_of_proper hduty, hperiod,
          hidx]
      · intro duty
        rw [programDuty, applyCrossbars_units, hunits, hperiod]
    simpa only [decide_eq_true_eq] using hlaw
  · refine dutyLaw_of_events hlt hfits ?_ ?_
    · intro duty hduty
      have hstored :
          Proper ((onUnit unit (fun st => { st with duty2 := duty }) s).units unit).duty2 := by
        rw [hunits]
        exact hduty
      rw [programDuty2, compareEvent_out2 hstored, hunits, hperiod, hidx]
      rfl
    · intro duty
      rw [programDuty2, applyCrossbars_units, hunits, hperiod]

/-- Unit A of a ready system, initialised at a frequency. -/
def initialised (freqHz : UInt32) (align : ℕ) : Hal :=
  (shrtimPwmInit 0 (some { pwmCfgDefault with freqHz := freqHz, align := align })
    readySystem.hal).2

theorem duty_law_default :
    activeShare 0 (outOf 0 0) (programDuty 0 250 (initialised 20000 alignEdge)) ≤
      activeShare 0 (outOf 0 0) (programDuty 0 750 (initialised 20000 alignEdge)) := by
  have htiming : solveTiming 240000000 20000 1 = .ok ⟨.mul4, 48000, 3⟩ := rfl
  have hperiod : ((initialised 20000 alignEdge).units 0).period = 48000 := by decide +kernel
  have hidx : ((initialised 20000 alignEdge).units 0).ratioIdx = 3 := by decide +kernel
  exact (duty_law (by decide) (.inl rfl) htiming hperiod hidx).1.nondecreasing
    (.inl (by decide +kernel)) 250 750 (by decide) (by decide) (by decide)

/-- At 80 MHz the compare value is the period; at 38.4 MHz in center alignment the
effective duty falls from 96 % to 4 % where the duty passes one half. -/
theorem duty_law_at_minimum :
    (solveTiming 240000000 80000000 1 = .ok ⟨.mul32, 96, 0⟩ ∧
      compareEvent 0 (outOf 0 0) (programDuty 0 500 (initialised 80000000 alignEdge)) =
        some (false, 96)) ∧
    (solveTiming 240000000 38400000 2 = .ok ⟨.mul32, 100, 0⟩ ∧
      activeShare 0 (outOf 0 0) (programDuty 0 500 (initialised 38400000 alignCenter)) = 96 / 100 ∧
      activeShare 0 (outOf 0 0) (programDuty 0 501 (initialised 38400000 alignCenter)) = 4 / 100) ∧
    ¬∀ (clk hz mult : UInt32) (timing : Timing) (unit : ℕ) (s : Hal), hz ≠ 0 →
      mult = 1 ∨ mult = 2 → solveTiming clk hz mult = .ok timing →
      (s.units unit).period = timing.period → (s.units unit).ratioIdx = timing.ratioIdx →
      ∀ duty, Proper duty → ∃ event,
        compareEvent unit (outOf unit 0) (programDuty unit duty s) = some event ∧
          0 < event.2 ∧ event.2 < timing.period.toNat := by
  have htiming : solveTiming 240000000 80000000 1 = .ok ⟨.mul32, 96, 0⟩ := rfl
  have hevent : compareEvent 0 (outOf 0 0) (programDuty 0 500 (initialised 80000000 alignEdge)) =
      some (false, 96) := by
    decide +kernel
  refine ⟨⟨htiming, hevent⟩, ⟨rfl, by decide +kernel, by decide +kernel⟩,
    fun hclaim => ?_⟩
  obtain ⟨event, heq, -, hlt⟩ := hclaim _ _ _ _ 0 (initialised 80000000 alignEdge) (by decide)
    (.inl rfl) htiming (by decide +kernel) (by decide +kernel) 500 (by decide)
  rw [hevent, Option.some_inj] at heq
  rw [← heq] at hlt
  exact absurd hlt (by decide)

end Xhive.Shrtim
