import Xhive.Bitmap.Bitmap

/-!
# The bits of the storage

What each operation does to the bits of the words, and the relation between the
storage and the array of bits it stands for: the bits above the last index are
zero.
-/

namespace Xhive.Bitmap

open Xhive.Support Xhive.Linears

/-! ## Single words -/

theorem toNat_one_shiftLeft {k : ℕ} (hk : k < 64) :
    ((1 : UInt64) <<< UInt64.ofNat k).toNat = 2 ^ k := by
  have hshift : (UInt64.ofNat k).toNat % 64 = k := by
    rw [UInt64.toNat_ofNat', Nat.mod_eq_of_lt (hk.trans (by norm_num)), Nat.mod_eq_of_lt hk]
  rw [UInt64.toNat_shiftLeft, hshift, UInt64.toNat_one, Nat.shiftLeft_eq, Nat.one_mul]
  exact Nat.mod_eq_of_lt (Nat.pow_lt_pow_right (by norm_num) hk)

theorem testBit_set (word : UInt64) {k j : ℕ} (hk : k < 64) :
    (word ||| (1 <<< UInt64.ofNat k)).toNat.testBit j =
      (word.toNat.testBit j || decide (k = j)) := by
  rw [UInt64.toNat_or, toNat_one_shiftLeft hk, Nat.testBit_or, Nat.testBit_two_pow]

theorem testBit_not (x : UInt64) {j : ℕ} (hj : j < 64) :
    (~~~x).toNat.testBit j = !x.toNat.testBit j := by
  rw [← UInt64.toNat_toBitVec, ← UInt64.toNat_toBitVec, UInt64.toBitVec_not, BitVec.testBit_toNat,
    BitVec.testBit_toNat, BitVec.getLsbD_not, decide_eq_true hj, Bool.true_and]

theorem testBit_clear (word : UInt64) {k j : ℕ} (hk : k < 64) (hj : j < 64) :
    (word &&& ~~~(1 <<< UInt64.ofNat k)).toNat.testBit j =
      (word.toNat.testBit j && !decide (k = j)) := by
  rw [UInt64.toNat_and, Nat.testBit_and, testBit_not _ hj, toNat_one_shiftLeft hk,
    Nat.testBit_two_pow]

/-- Testing a bit reads it. -/
theorem and_one_shiftLeft_ne_zero (word : UInt64) {k : ℕ} (hk : k < 64) :
    word &&& (1 <<< UInt64.ofNat k) ≠ 0 ↔ word.toNat.testBit k = true := by
  rw [Ne, ← UInt64.toNat_inj, UInt64.toNat_and, toNat_one_shiftLeft hk, UInt64.toNat_zero,
    Nat.and_two_pow]
  cases word.toNat.testBit k <;> simp

/-- The two shifts of `all_to` leave the low `rem` bits. -/
theorem testBit_tail {rem : UInt64} (hpos : rem ≠ 0) (hrem : rem.toNat < 64) (j : ℕ) :
    ((bitdatMax <<< (64 - rem)) >>> (64 - rem)).toNat.testBit j = decide (j < rem.toNat) := by
  have hne : rem.toNat ≠ 0 := fun h => hpos (UInt64.toNat_inj.mp h)
  have hshift : (64 - rem).toNat % 64 = 64 - rem.toNat := by
    rw [toNat_sixtyFour_sub rem hrem.le, Nat.mod_eq_of_lt (by omega)]
  have hmax : ∀ i, bitdatMax.toNat.testBit i = decide (i < 64) := Nat.testBit_two_pow_sub_one 64
  rw [UInt64.toNat_shiftRight, UInt64.toNat_shiftLeft, hshift, Nat.testBit_shiftRight,
    Nat.testBit_mod_two_pow, Nat.testBit_shiftLeft, hmax]
  by_cases hj : j < rem.toNat
  · simp [hj]
    omega
  · simp [hj]
    omega

theorem testBit_bitdatMax {j : ℕ} (hj : j < 64) : bitdatMax.toNat.testBit j = true := by
  have hmax := Nat.testBit_two_pow_sub_one 64 j
  rw [decide_eq_true hj] at hmax
  exact hmax

/-! ## The storage -/

/-- Bit `i` of the words. -/
def storageBit (b : XhBitmap) (i : ℕ) : Bool :=
  (b.data (i / 64)).toNat.testBit (i % 64)

/-- The words that `bits` bits need. -/
def wordsNeeded (bits : UInt64) : ℕ := (bits.toNat + 63) / 64

/-- The words hold the bits of the array, and zeros above them. -/
structure Represents (b : XhBitmap) (model : ℕ → Bool) : Prop where
  fits : b.bits.toNat + 63 < 2 ^ 64
  words : b.words = wordsNeeded b.bits
  bit : ∀ i < 64 * b.words, storageBit b i = (decide (i < b.bits.toNat) && model i)

theorem toNat_wordCount (bits : UInt64) :
    (wordCount bits).toNat = (bits.toNat + 63) % 2 ^ 64 / 64 := by
  have hsum : (bits + 64 - 1).toNat = (bits.toNat + 63) % 2 ^ 64 := by
    have hlt := bits.toNat_lt
    rw [UInt64.toNat_sub, UInt64.toNat_add]
    change (2 ^ 64 - 1 + (bits.toNat + 64) % 2 ^ 64) % 2 ^ 64 = _
    omega
  rw [wordCount, UInt64.toNat_div, hsum]
  rfl

theorem toNat_div_sixtyFour (x : UInt64) : (x / 64).toNat = x.toNat / 64 := UInt64.toNat_div x 64

theorem mod_sixtyFour_eq (x : UInt64) : x % 64 = UInt64.ofNat (x.toNat % 64) := by
  rw [← UInt64.toNat_inj, UInt64.toNat_mod, UInt64.toNat_ofNat',
    Nat.mod_eq_of_lt (show x.toNat % 64 < 2 ^ 64 by omega)]
  rfl

theorem XhBitmap.read_eq {b : XhBitmap} {i : ℕ} (h : i < b.words) : b.read i = .ok (b.data i) :=
  if_pos h

theorem XhBitmap.write_eq {b : XhBitmap} {i : ℕ} {v : UInt64} (h : i < b.words) :
    b.write i v = .ok { b with data := Function.update b.data i v } :=
  if_pos h

/-- A word in range of an index. -/
theorem Represents.word_lt {b : XhBitmap} {model : ℕ → Bool} (h : Represents b model)
    {index : UInt64} (hindex : index < b.bits) : index.toNat / 64 < b.words := by
  rw [h.words, wordsNeeded]
  rw [UInt64.lt_iff_toNat_lt] at hindex
  omega

/-- The bits after one word is written. -/
theorem storageBit_update (b : XhBitmap) (w : ℕ) (v : UInt64) (i : ℕ) :
    storageBit { b with data := Function.update b.data w v } i =
      if i / 64 = w then v.toNat.testBit (i % 64) else storageBit b i := by
  rw [storageBit]
  dsimp only
  rw [Function.update_apply]
  split <;> rfl

/-- An operation on one bit of the word of an index. -/
theorem Represents.update {b : XhBitmap} {model : ℕ → Bool} (h : Represents b model)
    {index : UInt64} {v : UInt64} {value : Bool} (hindex : index < b.bits)
    (hv : ∀ j < 64, v.toNat.testBit j = if index.toNat % 64 = j then value
      else (b.data (index.toNat / 64)).toNat.testBit j) :
    Represents { b with data := Function.update b.data (index.toNat / 64) v }
      (Function.update model index.toNat value) := by
  refine ⟨h.fits, h.words, fun i hi => ?_⟩
  rw [UInt64.lt_iff_toNat_lt] at hindex
  rw [storageBit_update, Function.update_apply]
  have hbit := h.bit i hi
  by_cases hword : i / 64 = index.toNat / 64
  · rw [if_pos hword, hv _ (Nat.mod_lt _ (by norm_num)), ← hword]
    by_cases hplace : index.toNat % 64 = i % 64
    · have heq : i = index.toNat := by omega
      rw [if_pos hplace, if_pos heq, heq, decide_eq_true hindex, Bool.true_and]
    · have hne : i ≠ index.toNat := by
        rintro rfl
        exact hplace rfl
      rw [if_neg hplace, if_neg hne]
      exact hbit
  · have hne : i ≠ index.toNat := by
      rintro rfl
      exact hword rfl
    rw [if_neg hword, if_neg hne]
    exact hbit

theorem assertIndex_eq {b : XhBitmap} {index : UInt64} (h : index < b.bits) :
    assertIndex b index = .ok () :=
  if_pos h

theorem xhBitmapSet_represents {b : XhBitmap} {model : ℕ → Bool} (h : Represents b model)
    {index : UInt64} (hindex : index < b.bits) :
    ∃ next, xhBitmapSet b index = .ok next ∧ next.bits = b.bits ∧
      Represents next (Function.update model index.toNat true) := by
  have hword := h.word_lt hindex
  rw [xhBitmapSet, assertIndex_eq hindex, ok_bind, toNat_div_sixtyFour, XhBitmap.read_eq hword,
    ok_bind, XhBitmap.write_eq hword, mod_sixtyFour_eq]
  refine ⟨_, rfl, rfl, h.update hindex fun j hj => ?_⟩
  rw [testBit_set _ (Nat.mod_lt _ (by norm_num))]
  by_cases hplace : index.toNat % 64 = j <;> simp [hplace]

theorem xhBitmapClear_represents {b : XhBitmap} {model : ℕ → Bool} (h : Represents b model)
    {index : UInt64} (hindex : index < b.bits) :
    ∃ next, xhBitmapClear b index = .ok next ∧ next.bits = b.bits ∧
      Represents next (Function.update model index.toNat false) := by
  have hword := h.word_lt hindex
  rw [xhBitmapClear, assertIndex_eq hindex, ok_bind, toNat_div_sixtyFour, XhBitmap.read_eq hword,
    ok_bind, XhBitmap.write_eq hword, mod_sixtyFour_eq]
  refine ⟨_, rfl, rfl, h.update hindex fun j hj => ?_⟩
  rw [testBit_clear _ (Nat.mod_lt _ (by norm_num)) hj]
  by_cases hplace : index.toNat % 64 = j <;> simp [hplace]

/-- Testing an index reads the array. -/
theorem xhBitmapTest_eq {b : XhBitmap} {model : ℕ → Bool} (h : Represents b model)
    {index : UInt64} (hindex : index < b.bits) :
    xhBitmapTest b index = .ok (model index.toNat) := by
  have hword := h.word_lt hindex
  have hlt := hindex
  rw [UInt64.lt_iff_toNat_lt] at hlt
  have hbit := h.bit index.toNat (by omega)
  rw [decide_eq_true hlt, Bool.true_and] at hbit
  rw [xhBitmapTest, assertIndex_eq hindex, ok_bind, toNat_div_sixtyFour, XhBitmap.read_eq hword,
    ok_bind, mod_sixtyFour_eq, ← hbit, storageBit]
  congr 1
  exact Bool.eq_iff_iff.mpr (decide_eq_true_iff.trans
    (and_one_shiftLeft_ne_zero _ (Nat.mod_lt _ (by norm_num))))

end Xhive.Bitmap
