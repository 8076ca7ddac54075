import Xhive.Particles.Wide
import Xhive.Support.LongDivision
import Xhive.Support.Outcome

/-!
# The wide words of the moments

`moment_wide_t` of `pf_q_moments_impl.h` and its operations.  The number of
32-bit words, `PM_WORDS`, is a parameter; a wide value is its row of words.
-/

namespace Xhive.Particles

open Xhive.Support Xhive.Linears

/-- `moment_wide_t`; only the first `PM_WORDS` words are read. -/
structure MomentWide where
  word : ℕ → UInt32

/-- `{{0}}`. -/
def MomentWide.zero : MomentWide :=
  ⟨fun _ => 0⟩

/-- `word[k] = value`. -/
def MomentWide.set (wide : MomentWide) (k : ℕ) (value : UInt32) : MomentWide :=
  ⟨Function.update wide.word k value⟩

theorem MomentWide.set_self (wide : MomentWide) (k : ℕ) (value : UInt32) :
    (wide.set k value).word k = value :=
  Function.update_self ..

theorem MomentWide.set_of_ne (wide : MomentWide) {k i : ℕ} (h : i ≠ k) (value : UInt32) :
    (wide.set k value).word i = wide.word i :=
  Function.update_of_ne h ..

/-! ## The operations -/

/-- The words from `i - 1` down to `0`. -/
def momentCompareWide (a b : MomentWide) : ℕ → ℤ
  | 0 => 0
  | i + 1 =>
      if a.word i ≠ b.word i then (if a.word i < b.word i then -1 else 1)
      else momentCompareWide a b i

/-- The four 32-bit words of a two-word scalar. -/
def momentLimbs (a : Accum) : MomentWide where
  word
    | 0 => a.low.toUInt32
    | 1 => (a.low >>> 32).toUInt32
    | 2 => a.high.toUInt32
    | 3 => (a.high >>> 32).toUInt32
    | _ => 0

/-- Store the low half of `value` in word `k` and carry the high half. -/
def momentStore (wide : MomentWide) (k : ℕ) (value : UInt64) : MomentWide × UInt64 :=
  (wide.set k value.toUInt32, value >>> 32)

/-- `for (; carry != 0u && j < PM_WORDS; ++j)`, with `left` words to go. -/
def momentCarry (words : ℕ) : ℕ → MomentWide × UInt64 → MomentWide
  | 0, s => s.1
  | left + 1, s =>
      let j := words - (left + 1)
      if s.2 = 0 then s.1
      else momentCarry words left (momentStore s.1 j ((s.1.word j).toUInt64 + s.2))

/-- One word of a partial product and its carry are added to word `i + j`. -/
def momentRowStep (x : UInt32) (y : MomentWide) (i j : ℕ) (s : MomentWide × UInt64) :
    MomentWide × UInt64 :=
  momentStore s.1 (i + j) (x.toUInt64 * (y.word j).toUInt64 + (s.1.word (i + j)).toUInt64 + s.2)

/-- One row of the product: `x * y` shifted by `i` words is added. -/
def momentRow (words : ℕ) (x : UInt32) (y : MomentWide) (i : ℕ) (result : MomentWide) :
    MomentWide :=
  let steps := min 4 (words - i)
  let s := foldRange 0 steps (result, 0) (momentRowStep x y i)
  momentCarry words (words - (i + steps)) s

def momentMultiplyWide (words : ℕ) (a b : Accum) : MomentWide :=
  foldRange 0 4 .zero fun i result =>
    momentRow words ((momentLimbs a).word i) (momentLimbs b) i result

def momentLeftStep (value : MomentWide) (shift i : ℕ) (s : MomentWide × UInt64) :
    MomentWide × UInt64 :=
  momentStore s.1 i (((value.word i).toUInt64 <<< UInt64.ofNat shift) ||| s.2)

def momentLeftWide (words : ℕ) (value : MomentWide) (shift : ℕ) : MomentWide :=
  (foldRange 0 words (.zero, 0) (momentLeftStep value shift)).1

/-- The words from `i - 1` down to `0` lose one bit; `carry` comes from above. -/
def momentRightLoop : ℕ → MomentWide → UInt32 → MomentWide
  | 0, value, _ => value
  | i + 1, value, carry =>
      momentRightLoop i (value.set i ((value.word i >>> 1) ||| (carry <<< 31)))
        (value.word i &&& 1)

def momentRightWide (words : ℕ) (value : MomentWide) : MomentWide :=
  momentRightLoop words value 0

def momentAddStep (a b : MomentWide) (i : ℕ) (s : MomentWide × UInt64) : MomentWide × UInt64 :=
  momentStore s.1 i ((a.word i).toUInt64 + (b.word i).toUInt64 + s.2)

def momentAddWide (words : ℕ) (a b : MomentWide) : MomentWide :=
  (foldRange 0 words (.zero, 0) (momentAddStep a b)).1

/-- The second component is the borrow. -/
def momentSubStep (a b : MomentWide) (i : ℕ) (s : MomentWide × UInt64) : MomentWide × UInt64 :=
  let subtrahend := (b.word i).toUInt64 + s.2
  (s.1.set i ((a.word i).toUInt64 - subtrahend).toUInt32,
    if (a.word i).toUInt64 < subtrahend then 1 else 0)

def momentSubWide (words : ℕ) (a b : MomentWide) : MomentWide :=
  (foldRange 0 words (.zero, 0) (momentSubStep a b)).1

/-- The position above the highest bit of the first `i` words. -/
def momentBitsWide (value : MomentWide) : ℕ → ℕ
  | 0 => 0
  | i + 1 =>
      if value.word i ≠ 0 then i * 32 + filtersQBitLength (value.word i).toUInt64
      else momentBitsWide value i

/-! ## What they compute -/

/-- The number that the first `n` words stand for. -/
def wideValue (n : ℕ) (value : MomentWide) : ℕ :=
  digitSum (2 ^ 32) n fun i => (value.word i).toNat

variable {words n : ℕ} {a b value : MomentWide}

theorem wideValue_lt (n : ℕ) (value : MomentWide) : wideValue n value < 2 ^ (32 * n) := by
  rw [pow_mul]
  exact digitSum_lt fun i _ => (value.word i).toNat_lt

theorem wideValue_succ (n : ℕ) (value : MomentWide) :
    wideValue (n + 1) value = wideValue n value + (value.word n).toNat * 2 ^ (32 * n) := by
  rw [pow_mul]
  exact digitSum_succ _ _ _

theorem wideValue_update_of_le {k : ℕ} (h : n ≤ k) (value : MomentWide) (word : UInt32) :
    wideValue n (value.set k word) = wideValue n value := by
  apply digitSum_congr
  intro i hi
  rw [value.set_of_ne (by omega)]

/-- Writing word `k` exchanges its contribution. -/
theorem wideValue_update {k : ℕ} (h : k < n) (value : MomentWide) (word : UInt32) :
    wideValue n (value.set k word) + (value.word k).toNat * 2 ^ (32 * k) =
      wideValue n value + word.toNat * 2 ^ (32 * k) := by
  have hother : ∀ i < n, i ≠ k →
      ((value.set k word).word i).toNat = (value.word i).toNat := fun i _ hne => by
    rw [value.set_of_ne hne]
  have hexchange := digitSum_exchange (B := 2 ^ 32) h hother
  rw [MomentWide.set_self, ← pow_mul] at hexchange
  exact hexchange

theorem momentCompareWide_lt_iff (a b : MomentWide) (n : ℕ) :
    (momentCompareWide a b n < 0 ↔ wideValue n a < wideValue n b) ∧
      (0 < momentCompareWide a b n ↔ wideValue n b < wideValue n a) := by
  induction n with
  | zero => simp [momentCompareWide, wideValue]
  | succ n ih =>
      have hdigit : ∀ c : MomentWide, ∀ i < n, (c.word i).toNat < 2 ^ 32 := fun c i _ => (c.word i).toNat_lt
      have htop : ∀ c d : MomentWide, c.word n < d.word n → wideValue (n + 1) c < wideValue (n + 1) d := by
        intro c d h
        exact digitSum_succ_lt (hdigit c) (UInt32.lt_iff_toNat_lt.mp h)
      rw [momentCompareWide]
      by_cases heq : a.word n = b.word n
      · rw [if_neg (not_not.mpr heq), wideValue_succ, wideValue_succ, heq,
          Nat.add_lt_add_iff_right, Nat.add_lt_add_iff_right]
        exact ih
      · rw [if_pos heq]
        by_cases hlt : a.word n < b.word n
        · have h := htop a b hlt
          rw [if_pos hlt]
          omega
        · have hgt : b.word n < a.word n := by
            rw [UInt32.lt_iff_toNat_lt] at hlt ⊢
            rw [← UInt32.toNat_inj] at heq
            omega
          have h := htop b a hgt
          rw [if_neg hlt]
          omega

theorem toNat_toUInt32_word (value : UInt64) : value.toUInt32.toNat = value.toNat % 2 ^ 32 :=
  UInt64.toNat_toUInt32 value

theorem toNat_toUInt64_word (word : UInt32) : word.toUInt64.toNat = word.toNat :=
  UInt32.toNat_toUInt64 word

theorem wideValue_momentLimbs (a : Accum) : wideValue 4 (momentLimbs a) = a.toNat := by
  have hlow := a.low.toNat_lt
  have hhigh := a.high.toNat_lt
  simp only [wideValue, digitSum_succ, digitSum_zero, momentLimbs, toNat_toUInt32_word,
    toNat_shiftRight_32, Accum.toNat]
  omega

/-- The stored half and the carried half make up the value. -/
theorem momentStore_spec {k : ℕ} (h : k < n) (word : MomentWide) (value : UInt64) :
    wideValue n (momentStore word k value).1 +
        (momentStore word k value).2.toNat * 2 ^ (32 * (k + 1)) +
        (word.word k).toNat * 2 ^ (32 * k) =
      wideValue n word + value.toNat * 2 ^ (32 * k) := by
  have hupdate := wideValue_update h word value.toUInt32
  have hsplit := Nat.mod_add_div value.toNat (2 ^ 32)
  have hpow : 2 ^ (32 * (k + 1)) = 2 ^ 32 * 2 ^ (32 * k) := by
    rw [← pow_add]
    congr 1
    omega
  rw [toNat_toUInt32_word] at hupdate
  rw [momentStore, toNat_shiftRight_32, hpow]
  dsimp only
  calc _ = wideValue n (word.set k value.toUInt32) + (word.word k).toNat * 2 ^ (32 * k) +
        value.toNat / 2 ^ 32 * (2 ^ 32 * 2 ^ (32 * k)) := by ring
    _ = wideValue n word + (value.toNat % 2 ^ 32 + 2 ^ 32 * (value.toNat / 2 ^ 32)) *
        2 ^ (32 * k) := by
      rw [hupdate]
      ring
    _ = _ := by rw [hsplit]

theorem carry_lt (word : MomentWide) (k : ℕ) (value : UInt64) :
    (momentStore word k value).2.toNat < 2 ^ 32 := by
  have hlt := value.toNat_lt
  rw [momentStore, toNat_shiftRight_32]
  omega

/-- Stores from the lowest word up build a numeral. -/
theorem momentStore_top (k : ℕ) (word : MomentWide) (value : UInt64) :
    wideValue (k + 1) (momentStore word k value).1 +
        (momentStore word k value).2.toNat * 2 ^ (32 * (k + 1)) =
      wideValue k word + value.toNat * 2 ^ (32 * k) := by
  have hstore := momentStore_spec (Nat.lt_add_one k) word value
  rw [wideValue_succ k word] at hstore
  omega

/-! ### Sums and differences -/

theorem momentAddStep_loop (a b : MomentWide) (n : ℕ) :
    let s := foldRange 0 n (.zero, 0) (momentAddStep a b)
    wideValue n s.1 + s.2.toNat * 2 ^ (32 * n) = wideValue n a + wideValue n b ∧
      s.2.toNat < 2 ^ 32 := by
  refine foldRange_induction (fun i (s : MomentWide × UInt64) =>
    wideValue i s.1 + s.2.toNat * 2 ^ (32 * i) = wideValue i a + wideValue i b ∧
      s.2.toNat < 2 ^ 32) (Nat.zero_le n) ⟨rfl, by decide⟩ ?_
  rintro i s - - ⟨hs, hcarry⟩
  have ha := (a.word i).toNat_lt
  have hb := (b.word i).toNat_lt
  refine ⟨?_, carry_lt _ _ _⟩
  rw [momentAddStep, momentStore_top, UInt64.toNat_add, UInt64.toNat_add, toNat_toUInt64_word,
    toNat_toUInt64_word, Nat.mod_eq_of_lt (by omega), Nat.mod_eq_of_lt (by omega),
    wideValue_succ, wideValue_succ]
  linarith

/-- A numeral with a carry above it has none if it fits. -/
theorem wideValue_of_carry {s : MomentWide × UInt64} {total : ℕ}
    (h : wideValue words s.1 + s.2.toNat * 2 ^ (32 * words) = total)
    (hfits : total < 2 ^ (32 * words)) : wideValue words s.1 = total := by
  have hzero : s.2.toNat = 0 := by
    by_contra hne
    have := Nat.mul_le_mul_right (2 ^ (32 * words)) (Nat.pos_of_ne_zero hne)
    omega
  rw [hzero, Nat.zero_mul, Nat.add_zero] at h
  exact h

theorem wideValue_momentAddWide (h : wideValue words a + wideValue words b < 2 ^ (32 * words)) :
    wideValue words (momentAddWide words a b) = wideValue words a + wideValue words b :=
  wideValue_of_carry (momentAddStep_loop a b words).1 h

theorem momentSubStep_loop (a b : MomentWide) (n : ℕ) :
    let s := foldRange 0 n (.zero, 0) (momentSubStep a b)
    wideValue n s.1 + wideValue n b = wideValue n a + s.2.toNat * 2 ^ (32 * n) ∧
      s.2.toNat ≤ 1 := by
  refine foldRange_induction (fun i (s : MomentWide × UInt64) =>
    wideValue i s.1 + wideValue i b = wideValue i a + s.2.toNat * 2 ^ (32 * i) ∧
      s.2.toNat ≤ 1) (Nat.zero_le n) ⟨rfl, by decide⟩ ?_
  rintro i s - - ⟨hs, hborrow⟩
  have ha := (a.word i).toNat_lt
  have hb := (b.word i).toNat_lt
  have hsum : ((b.word i).toUInt64 + s.2).toNat = (b.word i).toNat + s.2.toNat := by
    rw [UInt64.toNat_add, toNat_toUInt64_word, Nat.mod_eq_of_lt (by omega)]
  have hpow : 2 ^ (32 * (i + 1)) = 2 ^ 32 * 2 ^ (32 * i) := by
    rw [← pow_add]
    congr 1
    omega
  have hword : ((a.word i).toUInt64 - ((b.word i).toUInt64 + s.2)).toUInt32.toNat =
      (a.word i).toNat + (if (a.word i).toNat < (b.word i).toNat + s.2.toNat then 2 ^ 32 else 0) -
        ((b.word i).toNat + s.2.toNat) := by
    rw [toNat_toUInt32_word, UInt64.toNat_sub, hsum, toNat_toUInt64_word]
    split <;> omega
  have hguard : (a.word i).toUInt64 < (b.word i).toUInt64 + s.2 ↔
      (a.word i).toNat < (b.word i).toNat + s.2.toNat := by
    rw [UInt64.lt_iff_toNat_lt, hsum, toNat_toUInt64_word]
  rw [momentSubStep]
  simp only [hguard]
  rw [wideValue_succ, wideValue_update_of_le le_rfl, MomentWide.set_self, hword,
    wideValue_succ, wideValue_succ, hpow]
  split
  · rename_i hlt
    have hdigit : (a.word i).toNat + 2 ^ 32 - ((b.word i).toNat + s.2.toNat) +
        (b.word i).toNat + s.2.toNat = (a.word i).toNat + 2 ^ 32 := by omega
    have hmul := congrArg (· * 2 ^ (32 * i)) hdigit
    rw [UInt64.toNat_one]
    refine ⟨?_, le_rfl⟩
    linarith
  · rename_i hge
    have hdigit : (a.word i).toNat + 0 - ((b.word i).toNat + s.2.toNat) +
        (b.word i).toNat + s.2.toNat = (a.word i).toNat := by omega
    have hmul := congrArg (· * 2 ^ (32 * i)) hdigit
    rw [UInt64.toNat_zero]
    refine ⟨?_, Nat.zero_le _⟩
    linarith

theorem wideValue_momentSubWide (h : wideValue words b ≤ wideValue words a) :
    wideValue words (momentSubWide words a b) = wideValue words a - wideValue words b := by
  obtain ⟨heq, -⟩ := momentSubStep_loop a b words
  rw [momentSubWide]
  generalize foldRange 0 words _ _ = s at heq ⊢
  have hlt := wideValue_lt words s.1
  have hzero : s.2.toNat = 0 := by
    by_contra hne
    have := Nat.mul_le_mul_right (2 ^ (32 * words)) (Nat.pos_of_ne_zero hne)
    omega
  rw [hzero, Nat.zero_mul, Nat.add_zero] at heq
  omega

/-! ### Shifts -/

theorem momentLeftStep_loop (value : MomentWide) {shift : ℕ} (hshift : shift < 32) (n : ℕ) :
    let s := foldRange 0 n (.zero, 0) (momentLeftStep value shift)
    wideValue n s.1 + s.2.toNat * 2 ^ (32 * n) = wideValue n value * 2 ^ shift ∧
      s.2.toNat < 2 ^ shift := by
  have hamount : (UInt64.ofNat shift).toNat = shift := by
    rw [UInt64.toNat_ofNat', Nat.mod_eq_of_lt (by omega)]
  refine foldRange_induction (fun i (s : MomentWide × UInt64) =>
    wideValue i s.1 + s.2.toNat * 2 ^ (32 * i) = wideValue i value * 2 ^ shift ∧
      s.2.toNat < 2 ^ shift) (Nat.zero_le n) ⟨by simp [wideValue], Nat.two_pow_pos _⟩ ?_
  rintro i s - - ⟨hs, hcarry⟩
  have hv := (value.word i).toNat_lt
  have hroom : (value.word i).toNat * 2 ^ shift + 2 ^ shift ≤ 2 ^ 32 * 2 ^ shift := by
    rw [← Nat.succ_mul]
    exact Nat.mul_le_mul_right _ hv
  have htop : 2 ^ 32 * 2 ^ shift ≤ 2 ^ 32 * 2 ^ 31 :=
    Nat.mul_le_mul_left _ (Nat.pow_le_pow_right (by norm_num) (by omega))
  have hword : (((value.word i).toUInt64 <<< UInt64.ofNat shift) ||| s.2).toNat =
      (value.word i).toNat * 2 ^ shift + s.2.toNat := by
    rw [UInt64.toNat_or, toNat_shiftLeft_eq _ _ (by omega), hamount, toNat_toUInt64_word,
      Nat.mod_eq_of_lt (by omega), mul_two_pow_lor _ hcarry]
  rw [momentLeftStep]
  constructor
  · rw [momentStore_top, hword, wideValue_succ, Nat.add_mul, Nat.add_mul, ← hs]
    ring
  · rw [momentStore, toNat_shiftRight_32, hword]
    apply Nat.div_lt_of_lt_mul
    omega

theorem wideValue_momentLeftWide {shift : ℕ} (hshift : shift < 32)
    (h : wideValue words value * 2 ^ shift < 2 ^ (32 * words)) :
    wideValue words (momentLeftWide words value shift) = wideValue words value * 2 ^ shift :=
  wideValue_of_carry (momentLeftStep_loop value hshift words).1 h

/-- The words below `i` with the incoming bit above them are halved. -/
theorem momentRightLoop_spec (i : ℕ) (value : MomentWide) {carry : UInt32}
    (hcarry : carry.toNat ≤ 1) :
    wideValue i (momentRightLoop i value carry) =
        (wideValue i value + carry.toNat * 2 ^ (32 * i)) / 2 ∧
      ∀ k, i ≤ k → (momentRightLoop i value carry).word k = value.word k := by
  induction i generalizing value carry with
  | zero =>
      refine ⟨?_, fun k _ => rfl⟩
      simp only [wideValue, digitSum_zero, Nat.mul_zero, pow_zero, Nat.mul_one]
      omega
  | succ i ih =>
      have hv := (value.word i).toNat_lt
      have hbit : (value.word i &&& 1).toNat = (value.word i).toNat % 2 := by
        rw [UInt32.toNat_and]
        exact Nat.and_one_is_mod _
      have hnew : ((value.word i >>> 1) ||| (carry <<< 31)).toNat =
          (value.word i).toNat / 2 + carry.toNat * 2 ^ 31 := by
        have hshift : (value.word i >>> 1).toNat = (value.word i).toNat / 2 := by
          rw [UInt32.toNat_shiftRight, Nat.shiftRight_eq_div_pow]
          rfl
        have hcarried : (carry <<< 31).toNat = carry.toNat * 2 ^ 31 := by
          rw [UInt32.toNat_shiftLeft, Nat.shiftLeft_eq]
          exact Nat.mod_eq_of_lt (by change carry.toNat * 2 ^ 31 < 2 ^ 32; omega)
        rw [UInt32.toNat_or, hshift, hcarried, lor_mul_two_pow _ (by omega), Nat.add_comm]
      have hone : (value.word i &&& 1).toNat ≤ 1 := by
        rw [hbit]
        omega
      obtain ⟨hlow, hframe⟩ := ih (value.set i ((value.word i >>> 1) ||| (carry <<< 31))) hone
      rw [wideValue_update_of_le le_rfl, hbit] at hlow
      constructor
      · rw [momentRightLoop, wideValue_succ, hlow, hframe i le_rfl, MomentWide.set_self, hnew,
          wideValue_succ]
        have hpow : 2 ^ (32 * (i + 1)) = 2 ^ 32 * 2 ^ (32 * i) := by
          rw [← pow_add]
          congr 1
          omega
        have hvalue := Nat.mod_add_div (value.word i).toNat 2
        rw [hpow, show wideValue i value + (value.word i).toNat * 2 ^ (32 * i) +
            carry.toNat * (2 ^ 32 * 2 ^ (32 * i)) =
          wideValue i value + (value.word i).toNat % 2 * 2 ^ (32 * i) +
            2 * (((value.word i).toNat / 2 + carry.toNat * 2 ^ 31) * 2 ^ (32 * i)) by
          nth_rewrite 1 [← hvalue]
          ring]
        rw [Nat.add_mul_div_left _ _ (by norm_num)]
      · intro k hk
        rw [momentRightLoop, hframe k (by omega), value.set_of_ne (by omega)]

theorem wideValue_momentRightWide (words : ℕ) (value : MomentWide) :
    wideValue words (momentRightWide words value) = wideValue words value / 2 := by
  have hzero : (0 : UInt32).toNat ≤ 1 := by decide
  have hloop := (momentRightLoop_spec words value hzero).1
  rw [UInt32.toNat_zero, Nat.zero_mul, Nat.add_zero] at hloop
  exact hloop

theorem momentBitsWide_eq (value : MomentWide) (n : ℕ) :
    momentBitsWide value n = (wideValue n value).size := by
  induction n with
  | zero => simp [momentBitsWide, wideValue]
  | succ n ih =>
      rw [momentBitsWide, wideValue_succ]
      by_cases hzero : value.word n = 0
      · rw [if_neg (not_not.mpr hzero), hzero, UInt32.toNat_zero, Nat.zero_mul, Nat.add_zero, ih]
      · have hne : (value.word n).toNat ≠ 0 := by
          rwa [← UInt32.toNat_zero, ne_eq, UInt32.toNat_inj]
        rw [if_pos hzero, filtersQBitLength_eq, toNat_toUInt64_word, Nat.add_comm (wideValue n _),
          size_mul_pow_add hne (wideValue_lt n value), Nat.mul_comm]

/-! ### Products -/

/-- The remaining words take the carry; what leaves the last one is lost. -/
theorem momentCarry_modEq {left : ℕ} (hleft : left ≤ words) (s : MomentWide × UInt64)
    (hs : s.2.toNat < 2 ^ 32) :
    wideValue words (momentCarry words left s) ≡
      wideValue words s.1 + s.2.toNat * 2 ^ (32 * (words - left)) [MOD 2 ^ (32 * words)] := by
  induction left generalizing s with
  | zero =>
      rw [momentCarry, Nat.sub_zero]
      exact (Nat.add_mul_mod_self_right _ _ _).symm
  | succ left ih =>
      rw [momentCarry]
      by_cases hzero : s.2 = 0
      · rw [if_pos hzero, hzero, UInt64.toNat_zero, Nat.zero_mul, Nat.add_zero]
      · rw [if_neg hzero]
        have hword := (s.1.word (words - (left + 1))).toNat_lt
        have hsum : ((s.1.word (words - (left + 1))).toUInt64 + s.2).toNat =
            (s.1.word (words - (left + 1))).toNat + s.2.toNat := by
          rw [UInt64.toNat_add, toNat_toUInt64_word, Nat.mod_eq_of_lt (by omega)]
        have hstore := momentStore_spec (n := words) (k := words - (left + 1)) (by omega) s.1
          ((s.1.word (words - (left + 1))).toUInt64 + s.2)
        rw [hsum, Nat.add_mul, show words - (left + 1) + 1 = words - left by omega] at hstore
        have hnext := ih (by omega) (momentStore s.1 (words - (left + 1))
          ((s.1.word (words - (left + 1))).toUInt64 + s.2)) (carry_lt _ _ _)
        rw [show wideValue words s.1 + s.2.toNat * 2 ^ (32 * (words - (left + 1))) =
          wideValue words (momentStore s.1 (words - (left + 1))
              ((s.1.word (words - (left + 1))).toUInt64 + s.2)).1 +
            (momentStore s.1 (words - (left + 1))
              ((s.1.word (words - (left + 1))).toUInt64 + s.2)).2.toNat * 2 ^ (32 * (words - left)) by
          omega]
        exact hnext

theorem momentRowStep_loop (x : UInt32) (y result : MomentWide) {i steps : ℕ}
    (hsteps : i + steps ≤ words) :
    let s := foldRange 0 steps (result, 0) (momentRowStep x y i)
    wideValue words s.1 + s.2.toNat * 2 ^ (32 * (i + steps)) =
        wideValue words result + x.toNat * 2 ^ (32 * i) * wideValue steps y ∧
      s.2.toNat < 2 ^ 32 := by
  refine foldRange_induction (fun j (s : MomentWide × UInt64) =>
    wideValue words s.1 + s.2.toNat * 2 ^ (32 * (i + j)) =
        wideValue words result + x.toNat * 2 ^ (32 * i) * wideValue j y ∧
      s.2.toNat < 2 ^ 32) (Nat.zero_le steps) ⟨by simp [wideValue], Nat.two_pow_pos _⟩ ?_
  rintro j s - hj ⟨hs, hcarry⟩
  have hx := x.toNat_lt
  have hy := (y.word j).toNat_lt
  have hw := (s.1.word (i + j)).toNat_lt
  have hxy := mul_lt_of_lt_two_pow_32 hx hy
  have hvalue : (x.toUInt64 * (y.word j).toUInt64 + (s.1.word (i + j)).toUInt64 + s.2).toNat =
      x.toNat * (y.word j).toNat + (s.1.word (i + j)).toNat + s.2.toNat := by
    rw [UInt64.toNat_add, UInt64.toNat_add, UInt64.toNat_mul, toNat_toUInt64_word,
      toNat_toUInt64_word, toNat_toUInt64_word, Nat.mod_eq_of_lt (by omega),
      Nat.mod_eq_of_lt (by omega), Nat.mod_eq_of_lt (by omega)]
  refine ⟨?_, carry_lt _ _ _⟩
  have hroom : i + j < words := by omega
  have hstore := momentStore_spec hroom s.1
    (x.toUInt64 * (y.word j).toUInt64 + (s.1.word (i + j)).toUInt64 + s.2)
  have hterm : x.toNat * 2 ^ (32 * i) * ((y.word j).toNat * 2 ^ (32 * j)) =
      x.toNat * (y.word j).toNat * 2 ^ (32 * (i + j)) := by
    rw [show 32 * (i + j) = 32 * i + 32 * j by omega, pow_add]
    ring
  rw [hvalue, Nat.add_mul, Nat.add_mul, Nat.add_assoc i j 1] at hstore
  rw [momentRowStep, wideValue_succ j y, Nat.mul_add (x.toNat * 2 ^ (32 * i)),
    ← Nat.add_assoc (wideValue words result), ← hs, hterm]
  omega

/-- One row adds its partial product, up to what does not fit. -/
theorem momentRow_modEq {i : ℕ} (hi : i ≤ words) (x : UInt32) (y result : MomentWide) :
    wideValue words (momentRow words x y i result) ≡
      wideValue words result + x.toNat * 2 ^ (32 * i) * wideValue 4 y [MOD 2 ^ (32 * words)] := by
  have hsteps : i + min 4 (words - i) ≤ words := by omega
  obtain ⟨heq, hcarry⟩ := momentRowStep_loop x y result hsteps
  have hleft : words - (i + min 4 (words - i)) ≤ words := Nat.sub_le _ _
  have htail := momentCarry_modEq hleft _ hcarry
  rw [Nat.sub_sub_self hsteps, heq] at htail
  rw [momentRow]
  refine htail.trans (Nat.ModEq.add_left _ ?_)
  rcases Nat.le_total 4 (words - i) with hle | hle
  · rw [min_eq_left hle]
  · -- the partial products beyond the last word
    rw [min_eq_right hle]
    have hsplit : wideValue 4 y = wideValue (words - i) y +
        2 ^ (32 * (words - i)) * digitSum (2 ^ 32) (4 - (words - i)) fun k =>
          (y.word (words - i + k)).toNat := by
      have hadd := digitSum_add (2 ^ 32) (4 - (words - i)) (words - i) fun k => (y.word k).toNat
      rw [Nat.add_sub_cancel' hle, ← pow_mul] at hadd
      exact hadd
    rw [hsplit, Nat.mul_add]
    rw [show x.toNat * 2 ^ (32 * i) * (2 ^ (32 * (words - i)) *
        digitSum (2 ^ 32) (4 - (words - i)) fun k => (y.word (words - i + k)).toNat) =
      (x.toNat * digitSum (2 ^ 32) (4 - (words - i)) fun k => (y.word (words - i + k)).toNat) *
        2 ^ (32 * words) by
      rw [show 32 * words = 32 * i + 32 * (words - i) by omega, pow_add]
      ring]
    exact (Nat.add_mul_mod_self_right _ _ _).symm

theorem momentRow_loop (words : ℕ) (hwords : 4 ≤ words) (x y : MomentWide) :
    wideValue words (foldRange 0 4 MomentWide.zero fun i result =>
        momentRow words (x.word i) y i result) ≡
      wideValue 4 x * wideValue 4 y [MOD 2 ^ (32 * words)] := by
  refine foldRange_induction (fun i result => wideValue words result ≡
    wideValue i x * wideValue 4 y [MOD 2 ^ (32 * words)]) (Nat.zero_le 4) ?_ ?_
  · have hzero : wideValue words .zero = 0 := by
      rw [wideValue, digitSum_eq_zero_iff (by norm_num)]
      exact fun i _ => rfl
    rw [hzero]
    simp [wideValue, Nat.ModEq]
  · intro i result _ hi hresult
    refine (momentRow_modEq (by omega) _ _ _).trans ?_
    rw [wideValue_succ i, Nat.add_mul]
    exact hresult.add_right _

/-- A product that fits the words is exact. -/
theorem wideValue_momentMultiplyWide {x y : Accum} (hwords : 4 ≤ words)
    (h : x.toNat * y.toNat < 2 ^ (32 * words)) :
    wideValue words (momentMultiplyWide words x y) = x.toNat * y.toNat := by
  have hloop := momentRow_loop words hwords (momentLimbs x) (momentLimbs y)
  rw [wideValue_momentLimbs, wideValue_momentLimbs] at hloop
  exact Nat.ModEq.eq_of_lt_of_lt hloop (wideValue_lt _ _) h

/-- The wide words as numbers of the division. -/
def wideUnsigned (words : ℕ) : Unsigned MomentWide where
  toNat := wideValue words
  less a b := momentCompareWide a b words < 0
  sub := momentSubWide words
  half := momentRightWide words

theorem wideUnsigned_exact (words : ℕ) : (wideUnsigned words).Exact where
  less_iff a b := by
    rw [wideUnsigned, decide_eq_true_iff]
    exact (momentCompareWide_lt_iff a b words).1
  toNat_sub a b h := wideValue_momentSubWide h
  toNat_half a := wideValue_momentRightWide words a

end Xhive.Particles
