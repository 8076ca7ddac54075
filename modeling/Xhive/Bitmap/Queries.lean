import Xhive.Bitmap.Bits

/-!
# Filling, counting and searching

`all_to` writes every word that the bits need, so it also finds out whether they
were allocated.  The count and the search run over the words and answer for the
array, since the bits above the last index are zero.
-/

namespace Xhive.Bitmap

open Xhive.Support Xhive.Linears

/-! ## All bits -/

theorem wordsNeeded_eq (bits : UInt64) :
    wordsNeeded bits = (bits / 64).toNat + if bits % 64 ≠ 0 then 1 else 0 := by
  have hmod : (bits % 64).toNat = bits.toNat % 64 := UInt64.toNat_mod bits 64
  have hzero : bits % 64 ≠ 0 ↔ bits.toNat % 64 ≠ 0 := by
    rw [← hmod, Ne, ← UInt64.toNat_inj]
    rfl
  rw [wordsNeeded, toNat_div_sixtyFour]
  simp only [hzero]
  split <;> omega

/-- The words before `k` are filled. -/
structure Filled (b : XhBitmap) (v : UInt64) (k : ℕ) (next : XhBitmap) : Prop where
  words : next.words = b.words
  bits : next.bits = b.bits
  room : k ≤ b.words
  data : ∀ i < k, next.data i = v

theorem fill_spec (b : XhBitmap) (v : UInt64) (qty : ℕ) :
    Ensures (forRange 0 qty b fun i b => b.write i v) (Filled b v qty)
      (fun _ => b.words < qty) := by
  refine Ensures.forRange (Filled b v) (Nat.zero_le _) ⟨rfl, rfl, Nat.zero_le _, nofun⟩ ?_
  intro i t _ hi ht
  rw [XhBitmap.write]
  split
  · rename_i hroom
    rw [ht.words] at hroom
    refine ⟨ht.words, ht.bits, hroom, fun j hj => ?_⟩
    dsimp only
    rw [Function.update_apply]
    split
    · rfl
    · exact ht.data j (by omega)
  · rename_i hroom
    rw [ht.words] at hroom
    rw [ensures_error]
    omega

/-- The word of a fill, at its place. -/
def fillWord (bits : UInt64) (value : Bool) (i : ℕ) : UInt64 :=
  if value then
    if i = (bits / 64).toNat then (bitdatMax <<< (64 - bits % 64)) >>> (64 - bits % 64)
    else bitdatMax
  else 0

/-- `all_to` returns when its words are there, with all of them written. -/
theorem xhBitmapAllTo_spec (b : XhBitmap) (value : Bool) :
    Ensures (xhBitmapAllTo b value)
      (fun next => next.words = b.words ∧ next.bits = b.bits ∧ wordsNeeded b.bits ≤ b.words ∧
        ∀ i < wordsNeeded b.bits, next.data i = fillWord b.bits value i)
      (fun _ => b.words < wordsNeeded b.bits) := by
  have hneeded := wordsNeeded_eq b.bits
  have hloop := fill_spec b (if value then bitdatMax else 0) (b.bits / 64).toNat
  have hword : ∀ i < (b.bits / 64).toNat,
      (if value then bitdatMax else 0) = fillWord b.bits value i := by
    intro i hi
    rw [fillWord, if_neg hi.ne]
  rw [xhBitmapAllTo]
  refine (hloop.mono (fun _ h => h) fun e he => ?_).seq fun t ht => ?_
  · omega
  · by_cases hrem : b.bits % 64 ≠ 0
    · rw [if_pos hrem] at hneeded ⊢
      rw [XhBitmap.write, ht.words]
      split
      · refine ⟨rfl, ht.bits, by omega, fun i hi => ?_⟩
        dsimp only
        rw [Function.update_apply]
        split
        · rename_i hlast
          rw [fillWord, if_pos hlast]
        · rw [ht.data i (by omega), hword i (by omega)]
      · rw [ensures_error]
        omega
    · rw [if_neg hrem] at hneeded ⊢
      refine ⟨ht.words, ht.bits, hneeded ▸ ht.room, fun i hi => ?_⟩
      rw [ht.data i (by omega), hword i (by omega)]

theorem testBit_fillWord {bits : UInt64} {i : ℕ} (value : Bool) (hi : i < 64 * wordsNeeded bits) :
    (fillWord bits value (i / 64)).toNat.testBit (i % 64) =
      (decide (i < bits.toNat) && value) := by
  have hplace : i % 64 < 64 := Nat.mod_lt _ (by norm_num)
  have hqty := toNat_div_sixtyFour bits
  have hmod : (bits % 64).toNat = bits.toNat % 64 := UInt64.toNat_mod bits 64
  rw [wordsNeeded] at hi
  cases value with
  | false => simp [fillWord]
  | true =>
      rw [fillWord, if_pos rfl, Bool.and_true]
      split
      · rename_i hlast
        have hrem : bits % 64 ≠ 0 := by
          intro hzero
          rw [hzero, UInt64.toNat_zero] at hmod
          omega
        rw [testBit_tail hrem (by omega), hmod, decide_eq_decide]
        omega
      · rw [testBit_bitdatMax hplace, eq_comm, decide_eq_true_iff]
        omega

theorem xhBitmapAllTo_represents {b : XhBitmap} {model : ℕ → Bool} (h : Represents b model)
    (value : Bool) :
    ∃ next, xhBitmapAllTo b value = .ok next ∧ next.bits = b.bits ∧
      Represents next fun _ => value := by
  have hspec : Ensures (xhBitmapAllTo b value) _ fun _ => False :=
    (xhBitmapAllTo_spec b value).mono (fun _ h => h) fun _ he => he.ne h.words
  obtain ⟨next, hcall, hwords, hbits, -, hdata⟩ := hspec.exists_ok
  refine ⟨next, hcall, hbits, ⟨by rw [hbits]; exact h.fits, by rw [hwords, hbits, h.words], ?_⟩⟩
  intro i hi
  rw [hwords, h.words] at hi
  rw [storageBit, hdata _ (Nat.div_lt_of_lt_mul hi), testBit_fillWord value hi, hbits]

/-! ## Counting -/

/-- The set bits of the storage are those of the array. -/
theorem Represents.count {b : XhBitmap} {model : ℕ → Bool} (h : Represents b model) :
    Nat.count (fun i => storageBit b i = true) (64 * b.words) =
      Nat.count (fun i => model i = true) b.bits.toNat := by
  have hle : b.bits.toNat ≤ 64 * b.words := by
    rw [h.words, wordsNeeded]
    omega
  obtain ⟨tail, htail⟩ := Nat.exists_eq_add_of_le hle
  have hzero : Nat.count (fun k => storageBit b (b.bits.toNat + k) = true) tail = 0 := by
    refine Nat.count_iff_forall_not.mpr fun k hk => ?_
    rw [h.bit _ (by omega), decide_eq_false (by omega)]
    exact Bool.false_ne_true
  rw [htail, Nat.count_add, hzero, Nat.add_zero]
  refine count_congr fun i hi => ?_
  rw [h.bit i (by omega), decide_eq_true hi, Bool.true_and]

/-- The count of the array, by either population count. -/
theorem xhBitmapCountSetBits_eq {b : XhBitmap} {model : ℕ → Bool} (h : Represents b model)
    {popcount64 : UInt64 → UInt64}
    (hpopcount : popcount64 = builtinPopcountll ∨ popcount64 = popcountSwar64) :
    xhBitmapCountSetBits popcount64 b =
      .ok (UInt64.ofNat (Nat.count (fun i => model i = true) b.bits.toNat)) := by
  have hpop : popcount64 = builtinPopcountll := by
    rcases hpopcount with rfl | rfl
    · rfl
    · exact funext popcountSwar64_eq
  have hwords : (wordCount b.bits).toNat = b.words := by
    rw [toNat_wordCount, h.words, wordsNeeded, Nat.mod_eq_of_lt h.fits]
  have hloop : Ensures (xhBitmapCountSetBits popcount64 b) (fun count : UInt64 =>
      count.toNat = Nat.count (fun i => storageBit b i = true) (64 * b.words))
      fun _ => False := by
    rw [xhBitmapCountSetBits, hwords, hpop]
    refine Ensures.forRange (fun k (count : UInt64) =>
      count.toNat = Nat.count (fun i => storageBit b i = true) (64 * k)) (Nat.zero_le _) rfl ?_
    intro k count _ hk hcount
    have hword : (builtinPopcountll (b.data k)).toNat =
        Nat.count (fun j => storageBit b (64 * k + j) = true) 64 := by
      have hle : Nat.count (fun j => (b.data k).toNat.testBit j = true) 64 ≤ 64 := Nat.count_le _
      rw [builtinPopcountll, UInt64.toNat_ofNat', Nat.mod_eq_of_lt (hle.trans_lt (by norm_num))]
      refine count_congr fun j hj => ?_
      rw [storageBit, Nat.mul_add_div (by norm_num), Nat.div_eq_of_lt hj, Nat.add_zero,
        Nat.mul_add_mod, Nat.mod_eq_of_lt hj]
    have hbound : Nat.count (fun i => storageBit b i = true) (64 * (k + 1)) ≤ b.bits.toNat :=
      calc Nat.count (fun i => storageBit b i = true) (64 * (k + 1))
          ≤ Nat.count (fun i => storageBit b i = true) (64 * b.words) :=
            Nat.count_monotone _ (Nat.mul_le_mul_left 64 hk)
        _ = Nat.count (fun i => model i = true) b.bits.toNat := h.count
        _ ≤ b.bits.toNat := Nat.count_le _
    have hfits := b.bits.toNat_lt
    rw [XhBitmap.read_eq hk, ok_bind, ensures_ok]
    rw [Nat.mul_succ, Nat.count_add] at hbound ⊢
    rw [UInt64.toNat_add, hcount, hword, Nat.mod_eq_of_lt (hbound.trans_lt hfits)]
  obtain ⟨count, hcall, hcount⟩ := hloop.exists_ok
  rw [hcall, ← h.count, ← hcount, UInt64.ofNat_toNat]

/-! ## Searching -/

/-- The answer is the least set index from `start` on, or all ones. -/
def IsRightSet (model : ℕ → Bool) (bits start : ℕ) (answer : UInt64) : Prop :=
  (start ≤ answer.toNat ∧ answer.toNat < bits ∧ model answer.toNat = true ∧
      ∀ k, start ≤ k → k < answer.toNat → model k = false) ∨
    (answer = bitdatMax ∧ ∀ k, start ≤ k → k < bits → model k = false)

theorem IsRightSet.skip {model : ℕ → Bool} {bits start next : ℕ} {answer : UInt64}
    (h : IsRightSet model bits next answer) (hle : start ≤ next)
    (hclear : ∀ k, start ≤ k → k < next → k < bits → model k = false) :
    IsRightSet model bits start answer := by
  rcases h with ⟨hlow, hhigh, hset, hbelow⟩ | ⟨hnone, hbelow⟩
  · refine .inl ⟨hle.trans hlow, hhigh, hset, fun k hk hka => ?_⟩
    rcases Nat.lt_or_ge k next with hlt | hge
    · exact hclear k hk hlt (hka.trans hhigh)
    · exact hbelow k hge hka
  · refine .inr ⟨hnone, fun k hk hkb => ?_⟩
    rcases Nat.lt_or_ge k next with hlt | hge
    · exact hclear k hk hlt hkb
    · exact hbelow k hge hkb

/-- What a search of the places `lo` to `hi` of a word finds. -/
def FoundIn (word : UInt64) (lo hi : ℕ) : Option ℕ → Prop
  | some m => lo ≤ m ∧ m < hi ∧ word.toNat.testBit m = true ∧
      ∀ k, lo ≤ k → k < m → word.toNat.testBit k = false
  | none => ∀ k, lo ≤ k → k < hi → word.toNat.testBit k = false

theorem rightSetInWord_found (word : UInt64) {count j : ℕ} (hj : j + count ≤ 64) :
    FoundIn word j (j + count) (rightSetInWord word count j) := by
  induction count generalizing j with
  | zero => exact fun k hlow hhigh => by omega
  | succ count ih =>
      have hbit := and_one_shiftLeft_ne_zero word (show j < 64 by omega)
      rw [rightSetInWord]
      split_ifs with hclear
      · have hzero : word.toNat.testBit j = false :=
          Bool.eq_false_iff.mpr fun hset => hbit.mpr hset hclear
        have hrest := ih (j := j + 1) (by omega)
        have hafter : ∀ k, j ≤ k → k = j ∨ j + 1 ≤ k := fun k hk => by omega
        cases hfound : rightSetInWord word count (j + 1) with
        | some m =>
            rw [hfound] at hrest
            obtain ⟨hlow, hhigh, hset, hbelow⟩ := hrest
            refine ⟨by omega, by omega, hset, fun k hk hkm => ?_⟩
            rcases hafter k hk with rfl | hk
            · exact hzero
            · exact hbelow k hk hkm
        | none =>
            rw [hfound] at hrest
            intro k hk hhigh
            rcases hafter k hk with rfl | hk
            · exact hzero
            · exact hrest k hk (by omega)
      · exact ⟨le_rfl, by omega, hbit.mp hclear, fun k hk hkj => by omega⟩

/-- The bits of one word, as the array has them. -/
theorem Represents.word_bit {b : XhBitmap} {model : ℕ → Bool} (h : Represents b model)
    {i j : ℕ} (hi : i < b.words) (hj : j < 64) :
    (b.data i).toNat.testBit j = (decide (64 * i + j < b.bits.toNat) && model (64 * i + j)) := by
  rw [← h.bit (64 * i + j) (by omega), storageBit, Nat.mul_add_div (by norm_num),
    Nat.div_eq_of_lt hj, Nat.add_zero, Nat.mul_add_mod, Nat.mod_eq_of_lt hj]

/-- A word with no set bit from `first` on can be skipped. -/
theorem Represents.clear {b : XhBitmap} {model : ℕ → Bool} (h : Represents b model) {i first : ℕ}
    (hi : i < b.words) (hclear : ∀ j, first ≤ j → j < 64 → (b.data i).toNat.testBit j = false) :
    ∀ k, 64 * i + first ≤ k → k < 64 * (i + 1) → k < b.bits.toNat → model k = false := by
  intro k hlow hhigh hk
  obtain ⟨j, rfl⟩ := Nat.exists_eq_add_of_le (show 64 * i ≤ k by omega)
  have hbit := h.word_bit hi (show j < 64 by omega)
  rw [hclear j (by omega) (by omega), decide_eq_true hk, Bool.true_and] at hbit
  exact hbit.symm

theorem toNat_index {i j : ℕ} (hi : 64 * i + 63 < 2 ^ 64) (hj : j < 64) :
    ((UInt64.ofNat i * 64) ||| UInt64.ofNat j).toNat = 64 * i + j := by
  have hproduct : (UInt64.ofNat i * 64).toNat = i * 2 ^ 6 := by
    rw [UInt64.toNat_mul, UInt64.toNat_ofNat', Nat.mod_eq_of_lt (show i < 2 ^ 64 by omega)]
    change i * 64 % 2 ^ 64 = i * 2 ^ 6
    omega
  rw [UInt64.toNat_or, hproduct, UInt64.toNat_ofNat', Nat.mod_eq_of_lt (show j < 2 ^ 64 by omega),
    mul_two_pow_lor _ hj]
  ring

/-- The first bit that the search reads in word `i`. -/
def searchFirst (startQty startRem i : ℕ) : ℕ :=
  if i = startQty then startRem else 0

theorem rightSetFrom_spec {b : XhBitmap} {model : ℕ → Bool} (h : Represents b model)
    {startQty startRem : ℕ} (hrem : startRem < 64) {count i : ℕ} (hi : startQty ≤ i)
    (hcount : i + count = b.words) :
    Ensures (rightSetFrom b startQty startRem count i)
      (IsRightSet model b.bits.toNat (64 * i + searchFirst startQty startRem i))
      fun _ => False := by
  have hwords := h.words
  rw [wordsNeeded] at hwords
  induction count generalizing i with
  | zero =>
      rw [rightSetFrom, ensures_ok]
      exact .inr ⟨rfl, fun k hlow hhigh => by omega⟩
  | succ count ih =>
      have hword : i < b.words := by omega
      have hfirst : searchFirst startQty startRem i < 64 := by
        rw [searchFirst]
        split <;> omega
      have hnext := ih (i := i + 1) (by omega) (by omega)
      rw [searchFirst, if_neg (by omega), Nat.add_zero] at hnext
      have hskip : (∀ j, searchFirst startQty startRem i ≤ j → j < 64 →
          (b.data i).toNat.testBit j = false) →
          Ensures (rightSetFrom b startQty startRem count (i + 1))
            (IsRightSet model b.bits.toNat (64 * i + searchFirst startQty startRem i))
            fun _ => False :=
        fun hclear => hnext.imp fun answer hanswer =>
          hanswer.skip (by omega) (h.clear hword hclear)
      rw [rightSetFrom, XhBitmap.read_eq hword, ok_bind, ← searchFirst]
      split_ifs with hzero
      · refine hskip fun j _ _ => ?_
        rw [hzero, UInt64.toNat_zero, Nat.zero_testBit]
      · have hsearch := rightSetInWord_found (b.data i)
          (show searchFirst startQty startRem i + (64 - searchFirst startQty startRem i) ≤ 64 by
            omega)
        dsimp only
        cases hfound : rightSetInWord (b.data i) (64 - searchFirst startQty startRem i)
            (searchFirst startQty startRem i) with
        | none =>
            rw [hfound] at hsearch
            exact hskip fun j hlow hhigh => hsearch j hlow (by omega)
        | some j =>
            rw [hfound] at hsearch
            obtain ⟨hlow, hhigh, hset, hbelow⟩ := hsearch
            have hj : j < 64 := by omega
            have hindex := toNat_index (show 64 * i + 63 < 2 ^ 64 by have := h.fits; omega) hj
            have hbit := h.word_bit hword hj
            rw [hset, eq_comm, Bool.and_eq_true, decide_eq_true_iff] at hbit
            dsimp only
            rw [if_pos (by rw [UInt64.lt_iff_toNat_lt, hindex]; exact hbit.1), ensures_ok]
            refine .inl ⟨by omega, by omega, by rw [hindex]; exact hbit.2, fun k hk hka => ?_⟩
            obtain ⟨l, rfl⟩ := Nat.exists_eq_add_of_le (show 64 * i ≤ k by omega)
            have hother := h.word_bit hword (show l < 64 by omega)
            rw [hbelow l (by omega) (by omega), decide_eq_true (by omega), Bool.true_and] at hother
            exact hother.symm

/-- The search answers for the array. -/
theorem xhBitmapIndexOfRightSet_spec {b : XhBitmap} {model : ℕ → Bool} (h : Represents b model)
    {start : UInt64} (hstart : start < b.bits) :
    ∃ answer, xhBitmapIndexOfRightSet b start = .ok answer ∧
      IsRightSet model b.bits.toNat start.toNat answer := by
  have hword := h.word_lt hstart
  have hmod : (start % 64).toNat = start.toNat % 64 := UInt64.toNat_mod start 64
  have hstop : (b.bits / 64 + if b.bits % 64 ≠ 0 then 1 else 0).toNat = b.words := by
    have hneeded := wordsNeeded_eq b.bits
    have hfits := h.fits
    have hwords := h.words
    have hbound := b.bits.toNat_lt
    have hqty := toNat_div_sixtyFour b.bits
    rw [hwords, hneeded]
    by_cases hrem : b.bits % 64 ≠ 0
    · rw [if_pos hrem, if_pos hrem, UInt64.toNat_add, UInt64.toNat_one]
      exact Nat.mod_eq_of_lt (by omega)
    · rw [if_neg hrem, if_neg hrem, UInt64.add_zero, Nat.add_zero]
  have hspec := rightSetFrom_spec h (Nat.mod_lt start.toNat (show 0 < 64 by norm_num))
    (le_refl (start.toNat / 64)) (Nat.add_sub_cancel' hword.le)
  obtain ⟨answer, hcall, hanswer⟩ := hspec.exists_ok
  refine ⟨answer, ?_, ?_⟩
  · rw [xhBitmapIndexOfRightSet, assertIndex_eq hstart, ok_bind]
    dsimp only
    rw [hstop, toNat_div_sixtyFour, hmod]
    exact hcall
  · rwa [searchFirst, if_pos rfl, Nat.div_add_mod] at hanswer

end Xhive.Bitmap
