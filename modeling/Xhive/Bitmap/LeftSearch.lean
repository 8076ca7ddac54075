import Xhive.Bitmap.Queries
import Xhive.Support.Searches

/-!
# Searching to the left

Both left searches test a bit of a 64-bit word with the mask `1U << j`, which has
32 bits, and the search for either value skips the words that are not zero when
it looks for a clear bit.  The indices they return are the right ones exactly
where neither matters.
-/

namespace Xhive.Bitmap

open Xhive.Support Xhive.Linears

/-! ## The searches -/

/-- What a 32-bit shift by 32 or more is. -/
inductive ShiftRule where
  | undefined
  | modulo
  deriving DecidableEq

inductive SearchFault where
  | bitmap (fault : Fault)
  | undefinedShift
  deriving DecidableEq

/-- `1U << j`. -/
def shiftOneU (rule : ShiftRule) (j : ℕ) : Except SearchFault UInt64 :=
  if 32 ≤ j ∧ rule = .undefined then .error .undefinedShift
  else .ok ((1 : UInt32) <<< UInt32.ofNat j).toUInt64

/-- The loop over the bits of a word, from `count - 1` down to 0. -/
def leftInWord (rule : ShiftRule) (stops : Bool → Bool) (word : UInt64) :
    ℕ → Except SearchFault (Option ℕ)
  | 0 => .ok none
  | j + 1 => do
      let mask ← shiftOneU rule j
      if stops (word &&& mask ≠ 0) then .ok (some j) else leftInWord rule stops word j

/-- The loop over the words, from `count - 1` down to 0; the first one is searched
from `startRem`.  After index 0 the counter wraps to `BITDAT_MAX`, which ends it. -/
def leftFrom (rule : ShiftRule) (skips : UInt64 → Bool) (stops : Bool → Bool) (b : XhBitmap)
    (startQty startRem : ℕ) : ℕ → Except SearchFault UInt64
  | 0 => .ok bitdatMax
  | i + 1 => do
      let word ← (b.read i).mapError .bitmap
      if skips word then leftFrom rule skips stops b startQty startRem i
      else
        let found ← leftInWord rule stops word (if i = startQty then startRem + 1 else 64)
        match found with
        | some j => .ok ((UInt64.ofNat i * 64) ||| UInt64.ofNat j)
        | none => leftFrom rule skips stops b startQty startRem i

/-- Both searches. -/
def leftSearch (rule : ShiftRule) (skips : UInt64 → Bool) (stops : Bool → Bool) (b : XhBitmap)
    (startIndex : UInt64) : Except SearchFault UInt64 := do
  (assertIndex b startIndex).mapError .bitmap
  let startQty := (startIndex / 64).toNat
  leftFrom rule skips stops b startQty (startIndex % 64).toNat (startQty + 1)

def xhBitmapIndexOfLeftSet (rule : ShiftRule) (b : XhBitmap) (startIndex : UInt64) :
    Except SearchFault UInt64 :=
  leftSearch rule (fun word => word = 0) (fun bit => bit) b startIndex

def xhBitmapIndexOfLeft (rule : ShiftRule) (b : XhBitmap) (startIndex : UInt64)
    (bitValue : Bool) : Except SearchFault UInt64 :=
  leftSearch rule (fun word => (bitValue && word = 0) || (!bitValue && word ≠ 0))
    (fun bit => (bitValue && bit) || (!bitValue && !bit)) b startIndex

/-! ## One word -/

theorem toNat_oneU_shiftLeft (j : ℕ) :
    ((1 : UInt32) <<< UInt32.ofNat j).toUInt64.toNat = 2 ^ (j % 32) := by
  have hmod : (UInt32.ofNat j).toNat % 32 = j % 32 := by
    rw [UInt32.toNat_ofNat']
    omega
  have hlt : (2 : ℕ) ^ (j % 32) < 2 ^ 32 :=
    Nat.pow_lt_pow_right (by norm_num) (Nat.mod_lt j (by norm_num))
  rw [UInt32.toNat_toUInt64, UInt32.toNat_shiftLeft, hmod, UInt32.toNat_one, Nat.shiftLeft_eq,
    Nat.one_mul, Nat.mod_eq_of_lt hlt]

/-- The mask reads the lower half of the word. -/
theorem and_oneU_shiftLeft_ne_zero (word : UInt64) (j : ℕ) :
    (decide (word &&& ((1 : UInt32) <<< UInt32.ofNat j).toUInt64 ≠ 0)) =
      word.toNat.testBit (j % 32) := by
  have hiff : word &&& ((1 : UInt32) <<< UInt32.ofNat j).toUInt64 ≠ 0 ↔
      word.toNat.testBit (j % 32) = true := by
    rw [Ne, ← UInt64.toNat_inj, UInt64.toNat_and, toNat_oneU_shiftLeft, UInt64.toNat_zero,
      Nat.and_two_pow]
    cases word.toNat.testBit (j % 32) <;> simp
  exact Bool.eq_iff_iff.mpr (decide_eq_true_iff.trans hiff)

theorem leftInWord_eq (rule : ShiftRule) (stops : Bool → Bool) (word : UInt64) (count : ℕ) :
    leftInWord rule stops word count =
      if 32 < count ∧ rule = .undefined then .error .undefinedShift
      else .ok (lastHit (fun j => stops (word.toNat.testBit (j % 32))) count) := by
  induction count with
  | zero => rfl
  | succ j ih =>
      rw [leftInWord, shiftOneU]
      by_cases hundefined : 32 ≤ j ∧ rule = .undefined
      · rw [if_pos hundefined, if_pos ⟨Nat.lt_succ_of_le hundefined.1, hundefined.2⟩]
        rfl
      · have hnext : ¬(32 < j + 1 ∧ rule = .undefined) := by
          rintro ⟨hlt, hrule⟩
          exact hundefined ⟨Nat.le_of_lt_succ hlt, hrule⟩
        have hrest : ¬(32 < j ∧ rule = .undefined) := by
          rintro ⟨hlt, hrule⟩
          exact hundefined ⟨hlt.le, hrule⟩
        rw [if_neg hundefined, if_neg hnext, ok_bind, lastHit, and_oneU_shiftLeft_ne_zero, ih,
          if_neg hrest]
        split_ifs <;> rfl

/-! ## All words -/

/-- An index, or all ones. -/
def answerOf (found : Option ℕ) : UInt64 :=
  found.elim bitdatMax UInt64.ofNat

section Search

variable (skips : UInt64 → Bool) (stops : Bool → Bool) (b : XhBitmap)

/-- The places where a search stops that reads bit `k mod 32` for index `k`. -/
def codeHit (k : ℕ) : Bool :=
  !skips (b.data (k / 64)) && stops (storageBit b (64 * (k / 64) + k % 32))

theorem codeHit_place {i j : ℕ} (hj : j < 64) :
    codeHit skips stops b (64 * i + j) =
      (!skips (b.data i) && stops ((b.data i).toNat.testBit (j % 32))) := by
  have hword : (64 * i + j) / 64 = i := by omega
  have hplace : (64 * i + j) % 32 = j % 32 := by omega
  have hrow : (64 * i + j % 32) / 64 = i ∧ (64 * i + j % 32) % 64 = j % 32 := by omega
  rw [codeHit, hword, hplace, storageBit, hrow.1, hrow.2]

/-- The hits of one word. -/
theorem lastHit_word (i : ℕ) {count : ℕ} (hcount : count ≤ 64) :
    lastHit (codeHit skips stops b) (64 * i + count) =
      ((if skips (b.data i) then none
        else lastHit (fun j => stops ((b.data i).toNat.testBit (j % 32))) count).map
          (64 * i + ·)).or (lastHit (codeHit skips stops b) (64 * i)) := by
  rw [lastHit_add]
  congr 2
  split_ifs with hskip
  · rw [lastHit_eq_none]
    intro j hj
    rw [codeHit_place skips stops b (by omega), hskip, Bool.not_true, Bool.false_and]
  · apply lastHit_congr
    intro j hj
    have hread : skips (b.data i) = false := Bool.not_eq_true _ ▸ hskip
    rw [codeHit_place skips stops b (by omega), hread, Bool.not_false, Bool.true_and]

theorem answerOf_place {i j : ℕ} (hi : 64 * i + 63 < 2 ^ 64) (hj : j < 64) :
    (UInt64.ofNat i * 64) ||| UInt64.ofNat j = answerOf (some (64 * i + j)) := by
  rw [← UInt64.toNat_inj, toNat_index hi hj, answerOf, Option.elim, UInt64.toNat_ofNat',
    Nat.mod_eq_of_lt (by omega)]

variable {skips stops b} {rule : ShiftRule} {q r : ℕ}

/-- One turn of the loop over the words. -/
theorem leftFrom_succ {i : ℕ} (hi : i < b.words) (hfits : 64 * i + 63 < 2 ^ 64) (hr : r < 64) :
    leftFrom rule skips stops b q r (i + 1) =
      if skips (b.data i) then leftFrom rule skips stops b q r i
      else if (i ≠ q ∨ 32 ≤ r) ∧ rule = .undefined then .error .undefinedShift
      else
        (lastHit (fun j => stops ((b.data i).toNat.testBit (j % 32)))
          (if i = q then r + 1 else 64)).elim (leftFrom rule skips stops b q r i)
            fun j => .ok (answerOf (some (64 * i + j))) := by
  have hcount : (if i = q then r + 1 else 64) ≤ 64 := by
    split_ifs <;> omega
  have hbeyond : 32 < (if i = q then r + 1 else 64) ↔ i ≠ q ∨ 32 ≤ r := by
    split_ifs with hq
    · simp only [hq, ne_eq, not_true_eq_false, false_or]
      omega
    · simp [hq]
  rw [leftFrom, XhBitmap.read_eq hi]
  change (if skips (b.data i) = true then _ else _) = _
  generalize (if i = q then r + 1 else 64) = count at hcount hbeyond ⊢
  split_ifs with hskip hundefined
  · rfl
  · rw [leftInWord_eq, if_pos (hundefined.imp_left hbeyond.mpr)]
    rfl
  · rw [leftInWord_eq, if_neg fun h => hundefined (h.imp_left hbeyond.mp), ok_bind]
    cases hfound : lastHit (fun j => stops ((b.data i).toNat.testBit (j % 32))) count with
    | none => rfl
    | some j =>
        have hj := (lastHit_eq_some.mp hfound).1
        rw [Option.elim, ← answerOf_place hfits (show j < 64 by omega)]

/-- Below the word of the start a search reads whole words. -/
theorem leftFrom_lower {i : ℕ} (hi : i ≤ b.words) (hq : i ≤ q) (hfits : 64 * i ≤ 2 ^ 64)
    (hr : r < 64) :
    leftFrom rule skips stops b q r i =
      if (∃ k < i, skips (b.data k) = false) ∧ rule = .undefined then .error .undefinedShift
      else .ok (answerOf (lastHit (codeHit skips stops b) (64 * i))) := by
  induction i with
  | zero => simp [leftFrom, lastHit, answerOf]
  | succ i ih =>
      have hne : i ≠ q := by omega
      rw [leftFrom_succ (by omega) (by omega) hr, ih (by omega) (by omega) (by omega), Nat.mul_succ,
        lastHit_word skips stops b i le_rfl]
      cases hskip : skips (b.data i) with
      | true =>
          have hiff : (∃ k < i + 1, skips (b.data k) = false) ↔
              ∃ k < i, skips (b.data k) = false := by
            constructor
            · rintro ⟨k, hk, hclear⟩
              have hki : k ≠ i := by
                rintro rfl
                rw [hskip] at hclear
                cases hclear
              exact ⟨k, by omega, hclear⟩
            · rintro ⟨k, hk, hclear⟩
              exact ⟨k, by omega, hclear⟩
          simp only [hiff, if_true, Option.map_none, Option.none_or]
      | false =>
          have hexists : ∃ k < i + 1, skips (b.data k) = false := ⟨i, Nat.lt_succ_self i, hskip⟩
          by_cases hrule : rule = .undefined
          · rw [if_neg Bool.false_ne_true, if_pos ⟨.inl hne, hrule⟩, if_pos ⟨hexists, hrule⟩]
          · simp only [hrule, and_false, if_false, Bool.false_eq_true, if_neg hne]
            cases lastHit (fun j => stops ((b.data i).toNat.testBit (j % 32))) 64 with
            | none => simp
            | some j => simp

variable {start : UInt64}

theorem startIndex_words (hwords : b.words = wordsNeeded b.bits) (hstart : start < b.bits) :
    start.toNat / 64 < b.words ∧ 64 * (start.toNat / 64) + 63 < 2 ^ 64 := by
  have hlt := start.toNat_lt
  rw [UInt64.lt_iff_toNat_lt] at hstart
  rw [hwords, wordsNeeded]
  omega

/-- The word of the start, and then the words below it. -/
theorem leftSearch_eq (hstart : start < b.bits) :
    leftSearch rule skips stops b start =
      leftFrom rule skips stops b (start.toNat / 64) (start.toNat % 64)
        (start.toNat / 64 + 1) := by
  have hmod : (start % 64).toNat = start.toNat % 64 := UInt64.toNat_mod start 64
  rw [leftSearch, assertIndex_eq hstart, toNat_div_sixtyFour, hmod]
  rfl

/-- With shifts modulo 32 a search stops at the last hit. -/
theorem leftSearch_modulo (hwords : b.words = wordsNeeded b.bits) (hstart : start < b.bits) :
    leftSearch .modulo skips stops b start =
      .ok (answerOf (lastHit (codeHit skips stops b) (start.toNat + 1))) := by
  obtain ⟨hq, hfits⟩ := startIndex_words hwords hstart
  have hr : start.toNat % 64 < 64 := Nat.mod_lt _ (by norm_num)
  have hsplit : start.toNat + 1 = 64 * (start.toNat / 64) + (start.toNat % 64 + 1) := by omega
  rw [leftSearch_eq hstart, leftFrom_succ hq hfits hr, if_pos rfl, hsplit,
    lastHit_word skips stops b _ (show start.toNat % 64 + 1 ≤ 64 by omega),
    leftFrom_lower hq.le le_rfl (by omega) hr]
  simp only [reduceCtorEq, and_false, if_false]
  cases skips (b.data (start.toNat / 64)) with
  | true => simp
  | false =>
      cases lastHit (fun j => stops ((b.data (start.toNat / 64)).toNat.testBit (j % 32)))
          (start.toNat % 64 + 1) with
      | none => simp
      | some j => simp

/-- No shift by 32 or more is evaluated. -/
def ShiftsDefined (skips : UInt64 → Bool) (stops : Bool → Bool) (b : XhBitmap) (start : ℕ) : Prop :=
  (skips (b.data (start / 64)) = true ∨ start % 64 < 32) ∧
    ((∃ k, k / 64 = start / 64 ∧ k ≤ start ∧ codeHit skips stops b k = true) ∨
      ∀ i < start / 64, skips (b.data i) = true)

theorem lastHit_ne_none_iff (hr : start.toNat % 64 + 1 ≤ 64)
    (hread : skips (b.data (start.toNat / 64)) = false) :
    lastHit (fun j => stops ((b.data (start.toNat / 64)).toNat.testBit (j % 32)))
        (start.toNat % 64 + 1) ≠ none ↔
      ∃ k, k / 64 = start.toNat / 64 ∧ k ≤ start.toNat ∧ codeHit skips stops b k = true := by
  rw [Ne, lastHit_eq_none]
  have hplace : ∀ j < start.toNat % 64 + 1,
      codeHit skips stops b (64 * (start.toNat / 64) + j) =
        stops ((b.data (start.toNat / 64)).toNat.testBit (j % 32)) := by
    intro j hj
    rw [codeHit_place skips stops b (by omega), hread, Bool.not_false, Bool.true_and]
  constructor
  · intro h
    by_contra hnone
    refine h fun j hj => Bool.eq_false_iff.mpr fun hset => hnone ⟨_, ?_, ?_, (hplace j hj).trans hset⟩
    · omega
    · omega
  · rintro ⟨k, hword, hle, hset⟩ hclear
    have hk : k = 64 * (start.toNat / 64) + k % 64 := by omega
    have hj : k % 64 < start.toNat % 64 + 1 := by omega
    rw [hk, hplace _ hj, hclear _ hj] at hset
    cases hset

/-- With shifts of 32 or more undefined a search returns exactly when it meets none,
and then the same. -/
theorem leftSearch_undefined (hwords : b.words = wordsNeeded b.bits) (hstart : start < b.bits)
    (answer : UInt64) :
    leftSearch .undefined skips stops b start = .ok answer ↔
      ShiftsDefined skips stops b start.toNat ∧
        leftSearch .modulo skips stops b start = .ok answer := by
  obtain ⟨hq, hfits⟩ := startIndex_words hwords hstart
  have hr : start.toNat % 64 < 64 := Nat.mod_lt _ (by norm_num)
  have hnone := @lastHit_ne_none_iff skips stops b start hr
  rw [leftSearch_eq hstart, leftSearch_eq hstart, leftFrom_succ hq hfits hr,
    leftFrom_succ hq hfits hr, if_pos rfl, leftFrom_lower hq.le le_rfl (by omega) hr,
    leftFrom_lower hq.le le_rfl (by omega) hr, ShiftsDefined]
  have hall : (∀ i < start.toNat / 64, skips (b.data i) = true) ↔
      ¬∃ i < start.toNat / 64, skips (b.data i) = false := by
    simp only [not_exists, not_and, Bool.not_eq_false]
  simp only [reduceCtorEq, and_false, if_false, and_true, ne_eq, not_true_eq_false, false_or]
  cases hread : skips (b.data (start.toNat / 64)) with
  | true =>
      have hword : ¬∃ k, k / 64 = start.toNat / 64 ∧ k ≤ start.toNat ∧
          codeHit skips stops b k = true := by
        rintro ⟨k, hk, -, hset⟩
        rw [codeHit, hk, hread] at hset
        cases hset
      simp only [if_true, true_or, true_and, hword, false_or, hall]
      split_ifs with hlower <;> simp [hlower]
  | false =>
      rw [← hnone hread]
      simp only [Bool.false_eq_true, if_false, false_or]
      by_cases hhigh : 32 ≤ start.toNat % 64
      · have hnot : ¬start.toNat % 64 < 32 := Nat.not_lt.mpr hhigh
        simp [hhigh, hnot]
      · have hlow : start.toNat % 64 < 32 := Nat.not_le.mp hhigh
        simp only [hhigh, if_false, hlow, true_and]
        cases lastHit (fun j => stops ((b.data (start.toNat / 64)).toNat.testBit (j % 32)))
            (start.toNat % 64 + 1) with
        | none =>
            simp only [Option.elim, ne_eq, not_true_eq_false, false_or, hall]
            split_ifs with hlower <;> simp [hlower]
        | some j => simp

end Search

/-! ## The right answers -/

/-- `a` is the greatest index up to `start` whose bit is `value`. -/
structure IsLast (b : XhBitmap) (value : Bool) (start a : ℕ) : Prop where
  le : a ≤ start
  bit : storageBit b a = value
  above : ∀ k, a < k → k ≤ start → storageBit b k = !value

/-- The answer is the greatest such index, or all ones. -/
def IsLeft (b : XhBitmap) (value : Bool) (start : ℕ) (answer : UInt64) : Prop :=
  IsLast b value start answer.toNat ∨
    (answer = bitdatMax ∧ ∀ k ≤ start, storageBit b k = !value)

section Answers

variable {b : XhBitmap} {value : Bool} {start : ℕ}

/-- The places with the value. -/
def hasValue (b : XhBitmap) (value : Bool) (k : ℕ) : Bool := storageBit b k == value

theorem hasValue_eq_true {k : ℕ} : hasValue b value k = true ↔ storageBit b k = value := by
  rw [hasValue, beq_iff_eq]

theorem hasValue_eq_false {k : ℕ} : hasValue b value k = false ↔ storageBit b k = !value := by
  rw [hasValue]
  cases storageBit b k <;> cases value <;> decide

theorem isLast_iff {a : ℕ} :
    IsLast b value start a ↔ lastHit (hasValue b value) (start + 1) = some a := by
  rw [lastHit_eq_some]
  constructor
  · intro h
    exact ⟨Nat.lt_succ_of_le h.le, hasValue_eq_true.mpr h.bit,
      fun k hk hkn => hasValue_eq_false.mpr (h.above k hk (Nat.le_of_lt_succ hkn))⟩
  · rintro ⟨hlt, hbit, habove⟩
    exact ⟨Nat.le_of_lt_succ hlt, hasValue_eq_true.mp hbit,
      fun k hk hkn => hasValue_eq_false.mp (habove k hk (Nat.lt_succ_of_le hkn))⟩

theorem none_iff : (∀ k ≤ start, storageBit b k = !value) ↔
    lastHit (hasValue b value) (start + 1) = none := by
  rw [lastHit_eq_none]
  simp only [hasValue_eq_false, Nat.lt_succ_iff]

/-- The answer of a search is the right one exactly when it stops at the right place. -/
theorem isLeft_answerOf {p : ℕ → Bool} (hstart : start < 2 ^ 64 - 1) :
    IsLeft b value start (answerOf (lastHit p (start + 1))) ↔
      lastHit p (start + 1) = lastHit (hasValue b value) (start + 1) := by
  have hmax : bitdatMax.toNat = 2 ^ 64 - 1 := rfl
  rw [IsLeft, isLast_iff, none_iff]
  cases hp : lastHit p (start + 1) with
  | none =>
      have htoo : lastHit (hasValue b value) (start + 1) ≠ some bitdatMax.toNat := by
        intro h
        have hlt := (lastHit_eq_some.mp h).1
        omega
      rw [answerOf, Option.elim, or_iff_right htoo, and_iff_right rfl, eq_comm]
  | some a =>
      have hlt := (lastHit_eq_some.mp hp).1
      have ha : (UInt64.ofNat a).toNat = a := by
        rw [UInt64.toNat_ofNat', Nat.mod_eq_of_lt (by omega)]
      have hne : UInt64.ofNat a ≠ bitdatMax := by
        intro h
        rw [h, hmax] at ha
        omega
      rw [answerOf, Option.elim, ha, eq_comm]
      simp [hne]

end Answers

/-! ## Where the searches are right -/

section Searches

variable {b : XhBitmap} {start : UInt64}

/-- A search meets its contract. -/
def Finds (search : Except SearchFault UInt64) (b : XhBitmap) (value : Bool) (start : ℕ) : Prop :=
  ∃ answer, search = .ok answer ∧ IsLeft b value start answer

theorem finds_modulo_iff {skips : UInt64 → Bool} {stops : Bool → Bool} {value : Bool}
    (hwords : b.words = wordsNeeded b.bits) (hstart : start < b.bits) :
    Finds (leftSearch .modulo skips stops b start) b value start.toNat ↔
      lastHit (codeHit skips stops b) (start.toNat + 1) =
        lastHit (hasValue b value) (start.toNat + 1) := by
  have hlt : start.toNat < 2 ^ 64 - 1 := by
    have hbits := b.bits.toNat_lt
    rw [UInt64.lt_iff_toNat_lt] at hstart
    omega
  rw [Finds, leftSearch_modulo hwords hstart, ← isLeft_answerOf hlt]
  constructor
  · rintro ⟨answer, hanswer, hleft⟩
    cases hanswer
    exact hleft
  · intro hleft
    exact ⟨_, rfl, hleft⟩

theorem finds_undefined_iff {skips : UInt64 → Bool} {stops : Bool → Bool} {value : Bool}
    (hwords : b.words = wordsNeeded b.bits) (hstart : start < b.bits) :
    Finds (leftSearch .undefined skips stops b start) b value start.toNat ↔
      ShiftsDefined skips stops b start.toNat ∧
        Finds (leftSearch .modulo skips stops b start) b value start.toNat := by
  simp only [Finds, leftSearch_undefined hwords hstart, and_assoc, exists_and_left]

/-! ### Set bits -/

/-- The greatest set index is one whose bit is also what bit `k mod 32` says, and so
are the indices above it in its word. -/
def Folds (b : XhBitmap) (start : ℕ) : Prop :=
  ∀ a, IsLast b true start a →
    (32 ≤ a % 64 → storageBit b (a - 32) = true) ∧
      ∀ k, a < k → k ≤ start → k / 64 = a / 64 → 32 ≤ k % 64 → storageBit b (k - 32) = false

/-- The word of the start is read from bit 31 on or is zero, and the search ends in it or
the words below are zero. -/
def StaysLow (b : XhBitmap) (start : ℕ) : Prop :=
  (b.data (start / 64) = 0 ∨ start % 64 < 32) ∧
    ((∃ k, k / 64 = start / 64 ∧ k ≤ start ∧ storageBit b k = true) ∨
      ∀ i < start / 64, b.data i = 0)

def LeftSetRight (rule : ShiftRule) (b : XhBitmap) (start : ℕ) : Prop :=
  match rule with
  | .modulo => Folds b start
  | .undefined => StaysLow b start

theorem zero_word {b : XhBitmap} {k : ℕ} (h : b.data (k / 64) = 0) : storageBit b k = false := by
  rw [storageBit, h, UInt64.toNat_zero, Nat.zero_testBit]

theorem setBit_word {b : XhBitmap} {k : ℕ} (h : storageBit b k = true) : b.data (k / 64) ≠ 0 := by
  intro hzero
  rw [zero_word hzero] at h
  cases h

/-- The hits of the search for a set bit. -/
theorem setHit_eq (b : XhBitmap) (k : ℕ) :
    codeHit (fun word => decide (word = 0)) (fun bit => bit) b k =
      storageBit b (64 * (k / 64) + k % 32) := by
  rw [codeHit]
  cases hbit : storageBit b (64 * (k / 64) + k % 32) with
  | false => rw [Bool.and_false]
  | true =>
      have hne := setBit_word hbit
      rw [show (64 * (k / 64) + k % 32) / 64 = k / 64 by omega] at hne
      simp [hne]

theorem setHit_low {k : ℕ} (h : k % 64 < 32) : 64 * (k / 64) + k % 32 = k := by
  omega

theorem setHit_high {k : ℕ} (h : 32 ≤ k % 64) : 64 * (k / 64) + k % 32 = k - 32 := by
  omega

/-- A hit is a set index, of the same word and not above. -/
theorem setHit_place {a k : ℕ} (h : ∀ j, a < j → j ≤ start.toNat → storageBit b j = false)
    (hk : a < k) (hle : k ≤ start.toNat) :
    storageBit b (64 * (k / 64) + k % 32) = true ↔
      k / 64 = a / 64 ∧ 32 ≤ k % 64 ∧ storageBit b (k - 32) = true := by
  rcases Nat.lt_or_ge (k % 64) 32 with hlow | hhigh
  · rw [setHit_low hlow, h k hk hle]
    exact iff_of_false Bool.false_ne_true fun hset => absurd hset.2.1 (Nat.not_le.mpr hlow)
  · rw [setHit_high hhigh]
    constructor
    · intro hset
      refine ⟨?_, hhigh, hset⟩
      by_contra hword
      rw [h (k - 32) (by omega) (by omega)] at hset
      cases hset
    · intro hset
      exact hset.2.2

theorem folds_iff : lastHit (fun k => storageBit b (64 * (k / 64) + k % 32)) (start.toNat + 1) =
    lastHit (hasValue b true) (start.toNat + 1) ↔ Folds b start.toNat := by
  cases hlast : lastHit (hasValue b true) (start.toNat + 1) with
  | none =>
      have hclear := none_iff.mpr hlast
      refine iff_of_true (lastHit_eq_none.mpr fun k hk => hclear _ (by omega)) ?_
      intro a ha
      rw [isLast_iff, hlast] at ha
      cases ha
  | some a =>
      have ha := isLast_iff.mpr hlast
      have habove : ∀ j, a < j → j ≤ start.toNat → storageBit b j = false := ha.above
      have hplace : storageBit b (64 * (a / 64) + a % 32) = true ↔
          (32 ≤ a % 64 → storageBit b (a - 32) = true) := by
        rcases Nat.lt_or_ge (a % 64) 32 with hlow | hhigh
        · rw [setHit_low hlow]
          exact iff_of_true ha.bit fun h => absurd h (Nat.not_le.mpr hlow)
        · rw [setHit_high hhigh]
          exact ⟨fun h _ => h, fun h => h hhigh⟩
      rw [lastHit_eq_some]
      constructor
      · rintro ⟨-, hhit, hnone⟩ a' ha'
        rw [isLast_iff, hlast, Option.some_inj] at ha'
        subst ha'
        refine ⟨hplace.mp hhit, fun k hk hle hword hhigh => ?_⟩
        rw [← setHit_high hhigh]
        exact hnone k hk (by omega)
      · intro hfolds
        obtain ⟨hhit, hnone⟩ := hfolds a ha
        refine ⟨by have := ha.le; omega, hplace.mpr hhit, fun k hk hkn => ?_⟩
        refine Bool.eq_false_iff.mpr fun hset => ?_
        obtain ⟨hword, hhigh, hset⟩ := (setHit_place habove hk (by omega)).mp hset
        rw [hnone k hk (by omega) hword hhigh] at hset
        cases hset

/-- A search for a set bit that stays in the lower halves is right. -/
theorem folds_of_staysLow (h : StaysLow b start.toNat) : Folds b start.toNat := by
  obtain ⟨hstart, hword⟩ := h
  intro a ha
  have hset := setBit_word ha.bit
  have hsame : a / 64 = start.toNat / 64 := by
    have hle := ha.le
    rcases hword with ⟨k, hk, hkle, hkset⟩ | hlower
    · by_contra hne
      have habove := ha.above k (by omega) hkle
      rw [hkset] at habove
      cases habove
    · by_contra hne
      exact hset (hlower (a / 64) (by omega))
  have hlow : start.toNat % 64 < 32 := hstart.resolve_left (hsame ▸ hset)
  have hle := ha.le
  constructor
  · intro hhigh
    omega
  · intro k hk hkle hkword hhigh
    omega

theorem shiftsDefined_set_iff :
    ShiftsDefined (fun word => decide (word = 0)) (fun bit => bit) b start.toNat ↔
      StaysLow b start.toNat := by
  rw [ShiftsDefined, StaysLow]
  simp only [setHit_eq, decide_eq_true_eq]
  refine and_congr_right fun hstart => or_congr_left ?_
  have hlow : ∀ k, k / 64 = start.toNat / 64 → k ≤ start.toNat → b.data (start.toNat / 64) ≠ 0 →
      k % 64 < 32 := by
    intro k hk hle hne
    have := hstart.resolve_left hne
    omega
  constructor
  · rintro ⟨k, hk, hle, hset⟩
    have hne := setBit_word hset
    rw [show (64 * (k / 64) + k % 32) / 64 = start.toNat / 64 by omega] at hne
    rw [setHit_low (hlow k hk hle hne)] at hset
    exact ⟨k, hk, hle, hset⟩
  · rintro ⟨k, hk, hle, hset⟩
    have hne := setBit_word hset
    rw [hk] at hne
    refine ⟨k, hk, hle, ?_⟩
    rwa [setHit_low (hlow k hk hle hne)]

theorem findsSet_iff (rule : ShiftRule) (hwords : b.words = wordsNeeded b.bits)
    (hstart : start < b.bits) :
    Finds (leftSearch rule (fun word => decide (word = 0)) (fun bit => bit) b start) b true
      start.toNat ↔ LeftSetRight rule b start.toNat := by
  have hmodulo : Finds (leftSearch .modulo (fun word => decide (word = 0)) (fun bit => bit) b start)
      b true start.toNat ↔ Folds b start.toNat := by
    rw [finds_modulo_iff hwords hstart, ← folds_iff]
    simp only [funext (setHit_eq b)]
  cases rule with
  | modulo => exact hmodulo
  | undefined =>
      rw [finds_undefined_iff hwords hstart, hmodulo, shiftsDefined_set_iff]
      exact and_iff_left_of_imp folds_of_staysLow

/-! ### Clear bits -/

/-- The greatest clear index lies in a word that is zero. -/
def ClearRight (rule : ShiftRule) (b : XhBitmap) (start : ℕ) : Prop :=
  ∀ a, IsLast b false start a → b.data (a / 64) = 0 ∧ (rule = .undefined → a % 64 < 32)

/-- The hits of the search for a clear bit are in the words that are zero. -/
theorem clearHit_eq (b : XhBitmap) (k : ℕ) :
    codeHit (fun word => decide (word ≠ 0)) (fun bit => !bit) b k =
      decide (b.data (k / 64) = 0) := by
  by_cases hzero : b.data (k / 64) = 0
  · have hbit : storageBit b (64 * (k / 64) + k % 32) = false := by
      apply zero_word
      rwa [show (64 * (k / 64) + k % 32) / 64 = k / 64 by omega]
    simp [codeHit, hzero, hbit]
  · simp [codeHit, hzero]

theorem clearHit_iff : lastHit (fun k => decide (b.data (k / 64) = 0)) (start.toNat + 1) =
    lastHit (hasValue b false) (start.toNat + 1) ↔ ClearRight .modulo b start.toNat := by
  cases hlast : lastHit (hasValue b false) (start.toNat + 1) with
  | none =>
      have hset := none_iff.mpr hlast
      refine iff_of_true (lastHit_eq_none.mpr fun k hk => ?_) ?_
      · exact decide_eq_false (setBit_word (hset k (Nat.le_of_lt_succ hk)))
      · intro a ha
        rw [isLast_iff, hlast] at ha
        cases ha
  | some a =>
      have ha := isLast_iff.mpr hlast
      rw [lastHit_eq_some]
      constructor
      · rintro ⟨-, hzero, -⟩ a' ha'
        rw [isLast_iff, hlast, Option.some_inj] at ha'
        subst ha'
        exact ⟨of_decide_eq_true hzero, nofun⟩
      · intro hright
        refine ⟨Nat.lt_succ_of_le ha.le, decide_eq_true (hright a ha).1, fun k hk hkn => ?_⟩
        exact decide_eq_false (setBit_word (ha.above k hk (Nat.le_of_lt_succ hkn)))

/-- Whether some bit up to the start is clear. -/
theorem clear_cases (b : XhBitmap) (start : ℕ) :
    (∃ a, IsLast b false start a) ∨ ∀ k ≤ start, storageBit b k = true := by
  cases hlast : lastHit (hasValue b false) (start + 1) with
  | none => exact .inr (none_iff.mpr hlast)
  | some a => exact .inl ⟨a, isLast_iff.mpr hlast⟩

theorem shiftsDefined_clear_iff (hright : ClearRight .modulo b start.toNat) :
    ShiftsDefined (fun word => decide (word ≠ 0)) (fun bit => !bit) b start.toNat ↔
      ClearRight .undefined b start.toNat := by
  rw [ShiftsDefined]
  simp only [clearHit_eq, decide_eq_true_eq]
  rcases clear_cases b start.toNat with ⟨a, ha⟩ | hset
  · have hzero := (hright a ha).1
    have hle := ha.le
    constructor
    · rintro ⟨hstart, hword⟩ a' ha'
      refine ⟨(hright a' ha').1, fun _ => ?_⟩
      have heq : a' = a := by
        rw [isLast_iff] at ha ha'
        exact Option.some_inj.mp (ha'.symm.trans ha)
      rw [heq]
      -- the start word is zero, so that the start itself is clear
      have hsame : a / 64 = start.toNat / 64 := by
        rcases hword with ⟨k, hk, -, hkzero⟩ | hlower
        · by_contra hne
          rw [hk] at hkzero
          have habove := ha.above start.toNat (by omega) le_rfl
          rw [zero_word hkzero] at habove
          cases habove
        · by_contra hne
          exact hlower (a / 64) (by omega) hzero
      have hlow := hstart.resolve_left (not_not.mpr (hsame ▸ hzero))
      omega
    · intro hundefined
      have hlow := (hundefined a ha).2 rfl
      have hstart : a = start.toNat := by
        by_contra hne
        -- the next index lies in the same word and is clear
        have habove := ha.above (a + 1) (Nat.lt_succ_self a) (by omega)
        rw [zero_word (by rwa [show (a + 1) / 64 = a / 64 by omega])] at habove
        cases habove
      rw [← hstart]
      exact ⟨.inr hlow, .inl ⟨a, rfl, le_rfl, hzero⟩⟩
  · refine iff_of_true ⟨.inl (setBit_word (hset start.toNat le_rfl)), .inr fun i hi => ?_⟩ ?_
    · have hword := setBit_word (hset (64 * i) (by omega))
      rwa [show 64 * i / 64 = i by omega] at hword
    · intro a ha
      have hbit := hset a ha.le
      rw [ha.bit] at hbit
      cases hbit

theorem findsClear_iff (rule : ShiftRule) (hwords : b.words = wordsNeeded b.bits)
    (hstart : start < b.bits) :
    Finds (leftSearch rule (fun word => decide (word ≠ 0)) (fun bit => !bit) b start) b false
      start.toNat ↔ ClearRight rule b start.toNat := by
  have hmodulo : Finds (leftSearch .modulo (fun word => decide (word ≠ 0)) (fun bit => !bit) b
      start) b false start.toNat ↔ ClearRight .modulo b start.toNat := by
    rw [finds_modulo_iff hwords hstart, ← clearHit_iff]
    simp only [funext (clearHit_eq b)]
  cases rule with
  | modulo => exact hmodulo
  | undefined =>
      rw [finds_undefined_iff hwords hstart, hmodulo]
      constructor
      · rintro ⟨hdefined, hright⟩
        exact (shiftsDefined_clear_iff hright).mp hdefined
      · intro hright
        have hweak : ClearRight .modulo b start.toNat := fun a ha => ⟨(hright a ha).1, nofun⟩
        exact ⟨(shiftsDefined_clear_iff hweak).mpr hright, hweak⟩

/-! ### Both searches -/

/-- Where the search for `value` is right. -/
def LeftRight (rule : ShiftRule) (b : XhBitmap) (value : Bool) (start : ℕ) : Prop :=
  if value then LeftSetRight rule b start else ClearRight rule b start

theorem xhBitmapIndexOfLeft_true (rule : ShiftRule) :
    xhBitmapIndexOfLeft rule b start true = xhBitmapIndexOfLeftSet rule b start := by
  simp [xhBitmapIndexOfLeft, xhBitmapIndexOfLeftSet]

theorem left_search_right_iff (rule : ShiftRule) (value : Bool)
    (hwords : b.words = wordsNeeded b.bits) (hstart : start < b.bits) :
    (Finds (xhBitmapIndexOfLeft rule b start value) b value start.toNat ∧
      (value = true →
        xhBitmapIndexOfLeft rule b start value = xhBitmapIndexOfLeftSet rule b start)) ↔
      LeftRight rule b value start.toNat := by
  cases value with
  | true =>
      rw [xhBitmapIndexOfLeft_true, LeftRight, if_pos rfl, ← findsSet_iff rule hwords hstart]
      exact and_iff_left fun _ => rfl
  | false =>
      have hclear : xhBitmapIndexOfLeft rule b start false =
          leftSearch rule (fun word => decide (word ≠ 0)) (fun bit => !bit) b start := by
        simp [xhBitmapIndexOfLeft]
      rw [hclear, LeftRight, if_neg Bool.false_ne_true, ← findsClear_iff rule hwords hstart]
      exact and_iff_left nofun

/-- For every bitmap with its words and every start in range, the search for a set bit
is right exactly where the folded mask makes no difference. -/
theorem left_set_right_iff (rule : ShiftRule) (hwords : b.words = wordsNeeded b.bits)
    (hstart : start < b.bits) :
    Finds (xhBitmapIndexOfLeftSet rule b start) b true start.toNat ↔
      LeftSetRight rule b start.toNat :=
  findsSet_iff rule hwords hstart

end Searches

/-- 65 bits, of which 0, 31, 32 and 64 are set. -/
def boundaryBitmap : XhBitmap := ⟨fun i => if i = 0 then 0x180000001 else 1, 2, 65⟩

theorem left_set_right_boundary :
    Finds (xhBitmapIndexOfLeftSet .undefined boundaryBitmap 31) boundaryBitmap true 31 := by
  have hwords : boundaryBitmap.words = wordsNeeded boundaryBitmap.bits := rfl
  have hstart : (31 : UInt64) < boundaryBitmap.bits := by decide
  refine (left_set_right_iff .undefined hwords hstart).mpr ?_
  exact ⟨.inr (by decide), .inl ⟨31, by decide⟩⟩

/-- From 63 on, where the greatest set index is 32, the answer is 63. -/
theorem left_set_wrong_boundary :
    xhBitmapIndexOfLeftSet .modulo boundaryBitmap 63 = .ok 63 ∧
      ¬Finds (xhBitmapIndexOfLeftSet .modulo boundaryBitmap 63) boundaryBitmap true 63 ∧
      ¬Finds (xhBitmapIndexOfLeftSet .undefined boundaryBitmap 63) boundaryBitmap true 63 := by
  have hmodulo : xhBitmapIndexOfLeftSet .modulo boundaryBitmap 63 = .ok 63 := rfl
  have hundefined : xhBitmapIndexOfLeftSet .undefined boundaryBitmap 63 =
      .error .undefinedShift := rfl
  refine ⟨hmodulo, ?_, ?_⟩
  · rintro ⟨answer, hcall, hleft⟩
    rw [hmodulo] at hcall
    cases hcall
    rcases hleft with hlast | ⟨hmax, -⟩
    · exact absurd hlast.bit (by decide)
    · exact absurd hmax (by decide)
  · rintro ⟨answer, hcall, -⟩
    rw [hundefined] at hcall
    cases hcall

/-- 64 bits, of which 0 is set. -/
def mixedBitmap : XhBitmap := ⟨fun _ => 1, 1, 64⟩

theorem left_search_right_mixed :
    Finds (xhBitmapIndexOfLeft .modulo mixedBitmap 0 true) mixedBitmap true 0 := by
  have hwords : mixedBitmap.words = wordsNeeded mixedBitmap.bits := rfl
  have hstart : (0 : UInt64) < mixedBitmap.bits := by decide
  refine ((left_search_right_iff .modulo true hwords hstart).mpr ?_).1
  intro a ha
  obtain rfl : a = 0 := Nat.le_zero.mp ha.le
  exact ⟨fun h => absurd h (by decide), fun k hk hle => absurd hle (Nat.not_le.mpr hk)⟩

theorem mixedBitmap_not_found (rule : ShiftRule) :
    ¬Finds (xhBitmapIndexOfLeft rule mixedBitmap 31 false) mixedBitmap false 31 := by
  have hcall : xhBitmapIndexOfLeft rule mixedBitmap 31 false = .ok bitdatMax := rfl
  rintro ⟨answer, hanswer, hleft⟩
  rw [hcall] at hanswer
  cases hanswer
  rcases hleft with hlast | ⟨-, hnone⟩
  · exact absurd hlast.le (by decide)
  · exact absurd (hnone 31 le_rfl) (by decide)

/-- Bit 31 is clear, but its word is not zero. -/
theorem left_search_wrong_mixed :
    xhBitmapIndexOfLeft .modulo mixedBitmap 31 false = .ok bitdatMax ∧
      ¬Finds (xhBitmapIndexOfLeft .modulo mixedBitmap 31 false) mixedBitmap false 31 ∧
      ¬Finds (xhBitmapIndexOfLeft .undefined mixedBitmap 31 false) mixedBitmap false 31 :=
  ⟨rfl, mixedBitmap_not_found .modulo, mixedBitmap_not_found .undefined⟩

end Xhive.Bitmap
