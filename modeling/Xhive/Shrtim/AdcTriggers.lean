import Mathlib.Data.List.GetD
import Xhive.Shrtim.Pwm
import Xhive.Support.Words
import Xhive.Support.Traces

/-!
# Routing events to the ADC triggers

`shrtim_adc_trigger` routes an event of a unit to one of ten triggers.  Triggers 1
to 4 have a register for each of two groups of units, triggers 5 to 10 share two
registers of three fields, and the group that a trigger used last is remembered.
-/

namespace Xhive.Shrtim

open Xhive.Support

/-! ## Routing tables -/

/-- The four tables. -/
inductive AdcTable
  | adtg13 | adtg24 | adtg579 | adtg6810
  deriving DecidableEq

/-- `s_adtg13`, `s_adtg24`, `s_adtg579` and `s_adtg6810`: a row for the master and for
each of the units A to F, a column for each event. -/
def AdcTable.entries : AdcTable → List (List (BitVec 32))
  | .adtg13 =>
      [[0x20, 0x1, 0x2, 0x4, 0x8, 0],
        [0x1000, 0x80, 0x100, 0x200, 0x400, 0x2000],
        [0x80000, 0x4000, 0x8000, 0x10000, 0x20000, 0x100000],
        [0x4000000, 0x200000, 0x400000, 0x800000, 0x1000000, 0],
        [0x20, 0x1, 0x2, 0x4, 0x8, 0],
        [0x1000, 0x80, 0x100, 0x200, 0x400, 0],
        [0x80000, 0x4000, 0x8000, 0x10000, 0x20000, 0x100000]]
  | .adtg24 =>
      [[0x20, 0x1, 0x2, 0x4, 0x8, 0],
        [0x1000, 0x80, 0x100, 0x200, 0x400, 0],
        [0x80000, 0x4000, 0x8000, 0x10000, 0x20000, 0],
        [0x4000000, 0x200000, 0x400000, 0x800000, 0x1000000, 0x8000000],
        [0x20, 0x1, 0x2, 0x4, 0x8, 0x40],
        [0, 0x80, 0x100, 0x200, 0x400, 0x2000],
        [0x80000, 0x4000, 0x8000, 0x10000, 0x20000, 0]]
  | .adtg579 =>
      [[0x04, 0x00, 0x01, 0x02, 0x03, 0],
        [0x0F, 0x0A, 0x0B, 0x0C, 0x0D, 0x10],
        [0x16, 0x11, 0x12, 0x13, 0x14, 0x17],
        [0x1D, 0x18, 0x19, 0x1A, 0x1B, 0],
        [0x23, 0x1E, 0x1F, 0x20, 0x21, 0],
        [0x29, 0x24, 0x25, 0x26, 0x27, 0],
        [0x2F, 0x2A, 0x2B, 0x2C, 0x2D, 0x30]]
  | .adtg6810 =>
      [[0x04, 0x00, 0x01, 0x02, 0x03, 0],
        [0x0F, 0x0A, 0x0B, 0x0C, 0x0D, 0],
        [0x15, 0x10, 0x11, 0x12, 0x13, 0],
        [0x1B, 0x16, 0x17, 0x18, 0x19, 0x1C],
        [0x22, 0x1D, 0x1E, 0x1F, 0x20, 0x23],
        [0, 0x24, 0x25, 0x26, 0x27, 0x29],
        [0x2F, 0x2A, 0x2B, 0x2C, 0x2D, 0]]

/-- The switch on the trigger. -/
def adcTable (trig : ℕ) : AdcTable :=
  if trig = 1 ∨ trig = 3 then .adtg13
  else if trig = 2 ∨ trig = 4 then .adtg24
  else if trig = 5 ∨ trig = 7 ∨ trig = 9 then .adtg579
  else .adtg6810

/-- The switch on the event: `ADTG_SRC_U`, `ADTG_SRC_C1` to `ADTG_SRC_C4`, `ADTG_SRC_R`. -/
def adcEventIndex : Evt → Option ℕ
  | .update => some 0
  | .cmp1 => some 1
  | .cmp2 => some 2
  | .cmp3 => some 3
  | .cmp4 => some 4
  | .rstro => some 5
  | _ => none

/-- The tables start with the master. -/
def adcRow (unit : ℕ) : ℕ := if unit = unitMaster then 0 else unit + 1

/-- The entry of a table for a unit and an event index. -/
def AdcTable.source (table : AdcTable) (unit evi : ℕ) : BitVec 32 :=
  (table.entries.getD (adcRow unit) []).getD evi 0

/-- Zero marks an unavailable combination, except for the first compare of the
master in the extended tables. -/
def AdcTable.Unavailable (table : AdcTable) (unit evi : ℕ) : Prop :=
  table.source unit evi = 0 ∧
    ¬(adcRow unit = 0 ∧ evi = 1 ∧ (table = .adtg579 ∨ table = .adtg6810))

instance (table : AdcTable) (unit evi : ℕ) : Decidable (table.Unavailable unit evi) :=
  inferInstanceAs (Decidable (_ ∧ _))

/-! ## Registers -/

/-- The registers that the routing writes, and `s_adc_last_grp`. -/
structure AdcRegs where
  ctrl1 : BitVec 32
  /-- `ADTG1SRC1` to `ADTG4SRC2`, in the order of their addresses -/
  source : ℕ → BitVec 32
  /-- `ADTRGEX1` -/
  extended1 : BitVec 32
  /-- `ADTRGEX2` -/
  extended2 : BitVec 32
  /-- `ADTRGUPD` -/
  updates : BitVec 32
  /-- `s_adc_last_grp`, with `0` for none -/
  lastGrp : ℕ → ℕ

/-- The registers and the record after a reset. -/
def AdcRegs.reset : AdcRegs :=
  { ctrl1 := 0, source := fun _ => 0, extended1 := 0, extended2 := 0, updates := 0,
    lastGrp := fun _ => 0 }

/-- `MODIFY_REG`. -/
def modifyReg (reg clearMask setMask : BitVec 32) : BitVec 32 :=
  (reg &&& ~~~clearMask) ||| setMask

/-- `REG_SHIFT_TAB_ADTGUPD` and `REG_MASK_TAB_ADTGUPD`. -/
def adtgupdShift : List ℕ := [16, 19, 22, 25, 0, 4, 8, 12, 16, 20]

def adtgupdMask : List (BitVec 32) :=
  [0x00070000, 0x00380000, 0x01C00000, 0x0E000000, 0x00000007, 0x00000070, 0x00000700,
    0x00007000, 0x00070000, 0x00700000]

/-- `SHRTIM_SetADCTrigUpdate`; the offset table has `CTRL1` for the first four. -/
def setAdcTrigUpdate (adcTrig : ℕ) (update : BitVec 32) (s : AdcRegs) : AdcRegs :=
  let mask := adtgupdMask.getD adcTrig 0
  let value := update <<< adtgupdShift.getD adcTrig 0
  if adcTrig < 4 then { s with ctrl1 := modifyReg s.ctrl1 mask value }
  else { s with updates := modifyReg s.updates mask value }

/-- The register of a trigger up to 4 and a group. -/
def groupRegister (trig grp : ℕ) : ℕ := (trig - 1) * 2 + grp

/-- The master and the units A to C route through the first group. -/
def adcGroup (unit : ℕ) : ℕ := if adcRow unit ≤ 3 then 0 else 1

/-- The source of a trigger up to 4; the register of the group used before is cleared. -/
def writeGroup (trig grp : ℕ) (src : BitVec 32) (s : AdcRegs) : AdcRegs :=
  let last := s.lastGrp (trig - 1)
  let s := if last ≠ 0 ∧ last ≠ grp + 1 then
      { s with source := Function.update s.source (groupRegister trig (last - 1)) 0 }
    else s
  { s with
    lastGrp := Function.update s.lastGrp (trig - 1) (grp + 1)
    source := Function.update s.source (groupRegister trig grp) src }

def extendedShift (trig : ℕ) : ℕ := (trig - 5) / 2 * 8

/-- The source of a trigger from 5 on, in its field. -/
def writeExtended (trig : ℕ) (src : BitVec 32) (s : AdcRegs) : AdcRegs :=
  let shift := extendedShift trig
  let write := fun ex : BitVec 32 => modifyReg ex (0x3F <<< shift) ((src &&& 0x3F) <<< shift)
  if trig % 2 ≠ 0 then { s with extended1 := write s.extended1 }
  else { s with extended2 := write s.extended2 }

/-- The writes of a call that passes its checks. -/
def adcRoute (trig unit : ℕ) (src : BitVec 32) (s : AdcRegs) : AdcRegs :=
  let update := if unit = unitMaster then 0 else 1 + BitVec.ofNat 32 unit
  let s := setAdcTrigUpdate (trig - 1) update s
  if trig ≤ 4 then writeGroup trig (adcGroup unit) src s else writeExtended trig src s

def shrtimAdcTrigger (trig unit : ℕ) (evt : Evt) : Procedure Rc AdcRegs Unit := do
  .attempt (reject (trig < 1 ∨ 10 < trig ∨ unitMaster < unit) .errParam)
  let evi ← .attempt ((adcEventIndex evt).elim (.error .errParam) .ok)
  .attempt (reject ((adcTable trig).Unavailable unit evi) .errParam)
  .write (adcRoute trig unit ((adcTable trig).source unit evi))

/-! ## Calls -/

structure AdcCall where
  trig : ℕ
  unit : ℕ
  evt : Evt

/-- The sequence of calls. -/
def adcMachine : Machine AdcCall (Except Rc Unit) AdcRegs where
  react c s := shrtimAdcTrigger c.trig c.unit c.evt s

/-- The calls that succeed, with the event index they look up. -/
def AdcCall.Accepted (c : AdcCall) (evi : ℕ) : Prop :=
  (1 ≤ c.trig ∧ c.trig ≤ 10 ∧ c.unit ≤ unitMaster) ∧ adcEventIndex c.evt = some evi ∧
    ¬(adcTable c.trig).Unavailable c.unit evi

/-- A call writes the route when it is accepted, and otherwise nothing. -/
theorem react_cases (c : AdcCall) (s : AdcRegs) :
    (∃ evi, c.Accepted evi ∧ adcMachine.react c s =
      (.ok (), adcRoute c.trig c.unit ((adcTable c.trig).source c.unit evi) s)) ∨
    adcMachine.react c s = (.error .errParam, s) := by
  change (∃ evi, c.Accepted evi ∧ shrtimAdcTrigger c.trig c.unit c.evt s = _) ∨
    shrtimAdcTrigger c.trig c.unit c.evt s = _
  rw [shrtimAdcTrigger]
  by_cases hrange : c.trig < 1 ∨ 10 < c.trig ∨ unitMaster < c.unit
  · right
    rw [reject, if_pos hrange]
    rfl
  · rw [Procedure.attempt_bind_ok ((reject_eq_ok (u := ())).mpr hrange)]
    cases hevt : adcEventIndex c.evt with
    | none => exact .inr rfl
    | some evi =>
        have hindex : (some evi).elim (.error .errParam) .ok = (.ok evi : Except Rc ℕ) := rfl
        rw [Procedure.attempt_bind_ok hindex]
        by_cases hsource : (adcTable c.trig).Unavailable c.unit evi
        · right
          rw [reject, if_pos hsource]
          rfl
        · left
          refine ⟨evi, ⟨⟨by omega, by omega, by omega⟩, hevt, hsource⟩, ?_⟩
          rw [Procedure.attempt_bind_ok ((reject_eq_ok (u := ())).mpr hsource)]
          rfl

/-! ## Source fields -/

/-- The source of a trigger: both group registers, or its field. -/
def sourceField (trig : ℕ) (s : AdcRegs) : List (BitVec 32) :=
  if trig ≤ 4 then [s.source (groupRegister trig 0), s.source (groupRegister trig 1)]
  else if trig % 2 ≠ 0 then [getField (extendedShift trig) 6 s.extended1]
  else [getField (extendedShift trig) 6 s.extended2]

/-- The source of a trigger that routes a call, with the register of the other group
clear. -/
def AdcCall.sources (c : AdcCall) (evi : ℕ) : List (BitVec 32) :=
  let src := (adcTable c.trig).source c.unit evi
  if c.trig ≤ 4 then if adcGroup c.unit = 0 then [src, 0] else [0, src] else [src]

theorem adcGroup_le (unit : ℕ) : adcGroup unit ≤ 1 := by
  rw [adcGroup]
  split <;> decide

/-- The extended codes fit their fields. -/
theorem toNat_source_lt {trig : ℕ} (htrig : 4 < trig) (unit evi : ℕ) :
    ((adcTable trig).source unit evi).toNat < 2 ^ 6 := by
  have hentries : ∀ table, table = AdcTable.adtg579 ∨ table = AdcTable.adtg6810 →
      ∀ row ∈ table.entries, ∀ src ∈ row, src.toNat < 2 ^ 6 := by
    rintro table (rfl | rfl) <;> simp [AdcTable.entries]
  have htable : adcTable trig = .adtg579 ∨ adcTable trig = .adtg6810 := by
    rw [adcTable, if_neg (by omega), if_neg (by omega)]
    split
    · exact .inl rfl
    · exact .inr rfl
  rw [AdcTable.source]
  by_cases hrow : adcRow unit < (adcTable trig).entries.length
  · rw [List.getD_eq_getElem _ _ hrow]
    by_cases hcolumn : evi < (adcTable trig).entries[adcRow unit].length
    · rw [List.getD_eq_getElem _ _ hcolumn]
      exact hentries _ htable _ (List.getElem_mem hrow) _ (List.getElem_mem hcolumn)
    · rw [List.getD_eq_default _ _ (Nat.not_lt.mp hcolumn)]
      decide
  · rw [List.getD_eq_default _ _ (Nat.not_lt.mp hrow), List.getD_nil]
    decide

theorem sourceField_setAdcTrigUpdate (trig adcTrig : ℕ) (update : BitVec 32) (s : AdcRegs) :
    sourceField trig (setAdcTrigUpdate adcTrig update s) = sourceField trig s := by
  simp only [setAdcTrigUpdate]
  split <;> rfl

theorem source_setAdcTrigUpdate (adcTrig : ℕ) (update : BitVec 32) (s : AdcRegs) :
    (setAdcTrigUpdate adcTrig update s).source = s.source := by
  simp only [setAdcTrigUpdate]
  split <;> rfl

theorem lastGrp_setAdcTrigUpdate (adcTrig : ℕ) (update : BitVec 32) (s : AdcRegs) :
    (setAdcTrigUpdate adcTrig update s).lastGrp = s.lastGrp := by
  simp only [setAdcTrigUpdate]
  split <;> rfl

/-- An extended write sets the field of its trigger. -/
theorem writeExtended_eq (trig : ℕ) (src : BitVec 32) (s : AdcRegs) :
    writeExtended trig src s =
      if trig % 2 ≠ 0 then
        { s with extended1 := setField (extendedShift trig) 6 src s.extended1 }
      else { s with extended2 := setField (extendedShift trig) 6 src s.extended2 } := rfl

/-- The register of a group that a trigger up to 4 does not use is clear. -/
structure GroupClear (trig : ℕ) (s : AdcRegs) : Prop where
  last : s.lastGrp (trig - 1) ≤ 2
  clear : ∀ grp ≤ 1, s.lastGrp (trig - 1) ≠ grp + 1 → s.source (groupRegister trig grp) = 0

section WriteGroup

variable {trig grp : ℕ} {src : BitVec 32} {s : AdcRegs}

theorem source_writeGroup_of_ne (hlast : s.lastGrp (trig - 1) ≤ 2) (hgrp : grp ≤ 1) {r : ℕ}
    (h₀ : r ≠ groupRegister trig 0) (h₁ : r ≠ groupRegister trig 1) :
    (writeGroup trig grp src s).source r = s.source r := by
  have hne : ∀ g ≤ 1, r ≠ groupRegister trig g := by
    intro g hg
    obtain rfl | rfl : g = 0 ∨ g = 1 := by omega
    · exact h₀
    · exact h₁
  unfold writeGroup
  extract_lets last t
  have ht : t.source r = s.source r := by
    simp only [t]
    split
    · exact Function.update_of_ne (hne _ (by omega)) _ _
    · rfl
  exact (Function.update_of_ne (hne grp hgrp) _ _).trans ht

theorem source_writeGroup_self :
    (writeGroup trig grp src s).source (groupRegister trig grp) = src :=
  Function.update_self _ _ _

/-- The other group is clear afterwards. -/
theorem source_writeGroup_other (h : GroupClear trig s) {other : ℕ} (hother : other ≤ 1)
    (hne : other ≠ grp) :
    (writeGroup trig grp src s).source (groupRegister trig other) = 0 := by
  have hregister : groupRegister trig other ≠ groupRegister trig grp := by
    rw [groupRegister, groupRegister]
    omega
  unfold writeGroup
  extract_lets last t
  refine (Function.update_of_ne hregister _ _).trans ?_
  by_cases hlast : last = other + 1
  · have hold : last ≠ 0 ∧ last ≠ grp + 1 := by omega
    have hindex : last - 1 = other := by omega
    simp only [t, if_pos hold, hindex, Function.update_self]
  · have hclear := h.clear other hother hlast
    simp only [t]
    split
    · by_cases hindex : groupRegister trig other = groupRegister trig (last - 1)
      · rw [hindex]
        exact Function.update_self _ _ _
      · exact (Function.update_of_ne hindex _ _).trans hclear
    · exact hclear

theorem lastGrp_writeGroup :
    (writeGroup trig grp src s).lastGrp = Function.update s.lastGrp (trig - 1) (grp + 1) := by
  unfold writeGroup
  extract_lets last t
  have ht : t.lastGrp = s.lastGrp := by
    simp only [t]
    split <;> rfl
  exact congrArg (fun f => Function.update f (trig - 1) (grp + 1)) ht

end WriteGroup

/-! ## Routes -/

/-- The groups that are not in use are clear. -/
def GroupsClear (s : AdcRegs) : Prop :=
  ∀ trig, 1 ≤ trig → trig ≤ 4 → GroupClear trig s

theorem groupsClear_reset : GroupsClear .reset :=
  fun _ _ _ => ⟨Nat.zero_le _, fun _ _ _ => rfl⟩

section Route

variable {trig unit : ℕ} {src : BitVec 32} {s : AdcRegs}

/-- A route leaves the sources of the other triggers as they are. -/
theorem sourceField_adcRoute_of_ne (h : GroupsClear s) (htrig : 1 ≤ trig) (htrig' : trig ≤ 10)
    {other : ℕ} (hother : 1 ≤ other) (hne : other ≠ trig) :
    sourceField other (adcRoute trig unit src s) = sourceField other s := by
  unfold adcRoute
  extract_lets update t
  have ht : sourceField other t = sourceField other s := sourceField_setAdcTrigUpdate _ _ _ _
  have hlast : t.lastGrp = s.lastGrp := lastGrp_setAdcTrigUpdate _ _ _
  rw [← ht]
  by_cases hgroup : trig ≤ 4
  · rw [if_pos hgroup]
    have hkept : ∀ r, r ≠ groupRegister trig 0 → r ≠ groupRegister trig 1 →
        (writeGroup trig (adcGroup unit) src t).source r = t.source r := by
      refine fun r => source_writeGroup_of_ne ?_ (adcGroup_le unit)
      rw [hlast]
      exact (h trig htrig hgroup).last
    rw [sourceField, sourceField]
    split
    · rw [hkept, hkept] <;> rw [groupRegister, groupRegister] <;> omega
    · simp only [writeGroup]
      split <;> split <;> rfl
  · rw [if_neg hgroup, writeExtended_eq]
    rw [sourceField, sourceField]
    by_cases hlow : other ≤ 4
    · rw [if_pos hlow, if_pos hlow]
      split <;> rfl
    · rw [if_neg hlow, if_neg hlow]
      -- two triggers of one register have fields eight bits apart
      have hdisjoint : trig % 2 = other % 2 →
          extendedShift other + 6 ≤ extendedShift trig ∨
            extendedShift trig + 6 ≤ extendedShift other := by
        intro hparity
        rw [extendedShift, extendedShift]
        omega
      have hfits : extendedShift trig + 6 ≤ 32 := by
        rw [extendedShift]
        omega
      by_cases hodd : other % 2 ≠ 0 <;> by_cases hodd' : trig % 2 ≠ 0
      · rw [if_pos hodd, if_pos hodd, if_pos hodd',
          getField_setField_of_disjoint hfits (hdisjoint (by omega))]
      · rw [if_pos hodd, if_pos hodd, if_neg hodd']
      · rw [if_neg hodd, if_neg hodd, if_pos hodd']
      · rw [if_neg hodd, if_neg hodd, if_neg hodd',
          getField_setField_of_disjoint hfits (hdisjoint (by omega))]

theorem GroupsClear.setAdcTrigUpdate (h : GroupsClear s) (adcTrig : ℕ) (update : BitVec 32) :
    GroupsClear (setAdcTrigUpdate adcTrig update s) := by
  intro trig hlow hhigh
  obtain ⟨hlast, hclear⟩ := h trig hlow hhigh
  constructor
  · rwa [lastGrp_setAdcTrigUpdate]
  · rwa [lastGrp_setAdcTrigUpdate, source_setAdcTrigUpdate]

theorem GroupsClear.writeGroup (h : GroupsClear s) (hlow : 1 ≤ trig) (hhigh : trig ≤ 4)
    (unit : ℕ) (src : BitVec 32) : GroupsClear (writeGroup trig (adcGroup unit) src s) := by
  have hgroup := adcGroup_le unit
  have htrig := h trig hlow hhigh
  intro other hlow' hhigh'
  by_cases heq : other = trig
  · subst heq
    have hlast : (Shrtim.writeGroup other (adcGroup unit) src s).lastGrp (other - 1) =
        adcGroup unit + 1 := by
      rw [lastGrp_writeGroup, Function.update_self]
    refine ⟨by omega, fun grp hgrp hne => ?_⟩
    exact source_writeGroup_other htrig hgrp (by omega)
  · obtain ⟨hlast, hclear⟩ := h other hlow' hhigh'
    have hkept : (Shrtim.writeGroup trig (adcGroup unit) src s).lastGrp (other - 1) =
        s.lastGrp (other - 1) := by
      rw [lastGrp_writeGroup, Function.update_of_ne (by omega)]
    refine ⟨by omega, fun grp hgrp hne => ?_⟩
    rw [source_writeGroup_of_ne htrig.last hgroup]
    · exact hclear grp hgrp (hkept ▸ hne)
    · rw [groupRegister, groupRegister]
      omega
    · rw [groupRegister, groupRegister]
      omega

theorem GroupsClear.adcRoute (h : GroupsClear s) (hlow : 1 ≤ trig) :
    GroupsClear (adcRoute trig unit src s) := by
  unfold Shrtim.adcRoute
  extract_lets update t
  have ht : GroupsClear t := h.setAdcTrigUpdate _ _
  by_cases hgroup : trig ≤ 4
  · rw [if_pos hgroup]
    exact ht.writeGroup hlow hgroup unit src
  · rw [if_neg hgroup, writeExtended_eq]
    intro other hlow' hhigh'
    obtain ⟨hlast, hclear⟩ := ht other hlow' hhigh'
    split
    · exact ⟨hlast, hclear⟩
    · exact ⟨hlast, hclear⟩

/-- The source of the routed trigger is the one of the call. -/
theorem sourceField_adcRoute (h : GroupsClear s) {c : AdcCall} {evi : ℕ} (hc : c.Accepted evi) :
    sourceField c.trig (adcRoute c.trig c.unit ((adcTable c.trig).source c.unit evi) s) =
      c.sources evi := by
  obtain ⟨⟨hlow, hhigh, -⟩, -, -⟩ := hc
  have hcode : 4 < c.trig → ((adcTable c.trig).source c.unit evi).toNat < 2 ^ 6 :=
    fun htrig => toNat_source_lt htrig _ _
  rw [AdcCall.sources]
  generalize (adcTable c.trig).source c.unit evi = src at hcode
  unfold adcRoute
  extract_lets update t
  have ht : GroupsClear t := h.setAdcTrigUpdate _ _
  rw [sourceField]
  by_cases hgroup : c.trig ≤ 4
  · simp only [if_pos hgroup]
    have hself : ∀ grp, (writeGroup c.trig grp src t).source (groupRegister c.trig grp) = src :=
      fun grp => source_writeGroup_self
    have hother : ∀ grp other, other ≤ 1 → other ≠ grp →
        (writeGroup c.trig grp src t).source (groupRegister c.trig other) = 0 :=
      fun _ _ ho hne => source_writeGroup_other (ht c.trig hlow hgroup) ho hne
    obtain hzero | hone : adcGroup c.unit = 0 ∨ adcGroup c.unit = 1 := by
      have := adcGroup_le c.unit
      omega
    · rw [hzero, if_pos rfl, hself, hother 0 1 le_rfl Nat.one_ne_zero]
    · rw [hone, if_neg Nat.one_ne_zero, hself, hother 1 0 (Nat.zero_le 1) Nat.zero_ne_one]
  · simp only [if_neg hgroup]
    have hfits : extendedShift c.trig + 6 ≤ 32 := by
      rw [extendedShift]
      omega
    have hread : ∀ ex, getField (extendedShift c.trig) 6
        (setField (extendedShift c.trig) 6 src ex) = src := by
      intro ex
      rw [getField_setField hfits, and_fieldMask_of_lt (hcode (by omega))]
    rw [writeExtended_eq]
    by_cases hodd : c.trig % 2 ≠ 0
    · simp only [if_pos hodd, hread]
    · simp only [if_neg hodd, hread]

end Route

/-! ## Sequences of calls -/

/-- The last successful call for a trigger in a trace of calls and answers. -/
def lastSuccessful (trig : ℕ) : List (AdcCall × Except Rc Unit) → Option AdcCall
  | [] => none
  | entry :: rest =>
      (lastSuccessful trig rest).or
        (if entry.1.trig = trig ∧ entry.2.isOk then some entry.1 else none)

theorem GroupsClear.react {s : AdcRegs} (h : GroupsClear s) (c : AdcCall) :
    GroupsClear (adcMachine.react c s).2 := by
  obtain ⟨evi, ⟨⟨hlow, -, -⟩, -, -⟩, hreact⟩ | hreact := react_cases c s
  · rw [hreact]
    exact h.adcRoute hlow
  · rwa [hreact]

theorem groupsClear_run (calls : List AdcCall) : GroupsClear (adcMachine.run calls .reset).2 :=
  Machine.Preserves.run (fun c _ h => h.react c) calls groupsClear_reset

/-- A call leaves the sources of the other triggers as they are. -/
theorem sourceField_react_of_ne {s : AdcRegs} (h : GroupsClear s) (c : AdcCall) {trig : ℕ}
    (htrig : 1 ≤ trig) (hne : trig ≠ c.trig) :
    sourceField trig (adcMachine.react c s).2 = sourceField trig s := by
  obtain ⟨evi, ⟨⟨hlow, hhigh, -⟩, -, -⟩, hreact⟩ | hreact := react_cases c s
  · rw [hreact]
    exact sourceField_adcRoute_of_ne h hlow hhigh htrig hne
  · rw [hreact]

/-- After a run the source of a trigger is that of the last successful call for it,
and as before when there is none. -/
theorem sourceField_run (calls : List AdcCall) {s : AdcRegs} (h : GroupsClear s) {trig : ℕ}
    (htrig : 1 ≤ trig) :
    (∀ c, lastSuccessful trig (calls.zip (adcMachine.run calls s).1) = some c →
      ∃ evi, adcEventIndex c.evt = some evi ∧
        sourceField trig (adcMachine.run calls s).2 = c.sources evi) ∧
    (lastSuccessful trig (calls.zip (adcMachine.run calls s).1) = none →
      sourceField trig (adcMachine.run calls s).2 = sourceField trig s) := by
  induction calls generalizing s with
  | nil => exact ⟨nofun, fun _ => rfl⟩
  | cons call rest ih =>
      rw [Machine.run_cons, List.zip_cons_cons, lastSuccessful]
      dsimp only
      obtain ⟨hsome, hnone⟩ := ih (h.react call)
      cases hlast : lastSuccessful trig
        (rest.zip (adcMachine.run rest (adcMachine.react call s).2).1) with
      | some d =>
          rw [Option.some_or]
          exact ⟨fun c hc => Option.some_inj.mp hc ▸ hsome d hlast, nofun⟩
      | none =>
          rw [Option.none_or, hnone hlast]
          by_cases hmatch : call.trig = trig
          · subst hmatch
            obtain ⟨evi, haccepted, hreact⟩ | hreact := react_cases call s
            · rw [hreact, if_pos ⟨rfl, rfl⟩]
              refine ⟨fun c hc => ?_, nofun⟩
              obtain rfl := Option.some_inj.mp hc
              exact ⟨evi, haccepted.2.1, sourceField_adcRoute h haccepted⟩
            · rw [hreact, if_neg (by simp [Except.isOk, Except.toBool])]
              exact ⟨nofun, fun _ => rfl⟩
          · rw [if_neg fun hboth => hmatch hboth.1]
            exact ⟨nofun, fun _ => sourceField_react_of_ne h call htrig (Ne.symm hmatch)⟩

/-- For every sequence of calls from the reset state: the source of a trigger is that of
the last successful call for it, with the register of the other group clear; a call
changes no other trigger's source, and nothing when it fails. -/
theorem adc_routing (calls : List AdcCall) :
    (∀ trig c, 1 ≤ trig → trig ≤ 10 →
      lastSuccessful trig (calls.zip (adcMachine.run calls .reset).1) = some c →
      ∃ evi, adcEventIndex c.evt = some evi ∧
        sourceField trig (adcMachine.run calls .reset).2 = c.sources evi) ∧
    (∀ c trig, 1 ≤ trig → trig ≤ 10 → trig ≠ c.trig →
      sourceField trig (adcMachine.react c (adcMachine.run calls .reset).2).2 =
        sourceField trig (adcMachine.run calls .reset).2) ∧
    ∀ c e, (adcMachine.react c (adcMachine.run calls .reset).2).1 = .error e →
      (adcMachine.react c (adcMachine.run calls .reset).2).2 =
        (adcMachine.run calls .reset).2 := by
  have hclear := groupsClear_run calls
  refine ⟨?_, ?_, ?_⟩
  · intro trig c htrig _
    exact (sourceField_run calls groupsClear_reset htrig).1 c
  · intro c trig htrig _ hne
    exact sourceField_react_of_ne hclear c htrig hne
  · intro c e he
    obtain ⟨evi, -, hreact⟩ | hreact := react_cases c (adcMachine.run calls .reset).2
    · rw [hreact] at he
      cases he
    · rw [hreact]

/-- A trigger is routed from unit A to unit D, and then a call for it fails. -/
theorem adc_routing_regrouped :
    sourceField 1 (adcMachine.run [⟨1, 0, .cmp1⟩, ⟨6, unitMaster, .cmp1⟩, ⟨1, 3, .cmp2⟩,
      ⟨1, 3, .rstro⟩] .reset).2 = [0, 0x2] := by
  obtain ⟨evi, hevi, hsource⟩ := (adc_routing [⟨1, 0, .cmp1⟩, ⟨6, unitMaster, .cmp1⟩,
    ⟨1, 3, .cmp2⟩, ⟨1, 3, .rstro⟩]).1 1 ⟨1, 3, .cmp2⟩ (by decide) (by decide) rfl
  obtain rfl : 2 = evi := Option.some_inj.mp hevi
  exact hsource

end Xhive.Shrtim
