import Xhive.Linears.Numeric.Fixed
import Xhive.Support.Radix
import Mathlib.Data.Nat.Size

/-!
# Two-word scalars of the particle filters

`q_integer_wide.h`, `q_integer_bits.h` and the first part of `pf_q_internal.h`.
A `pf_q_u128_t` is the pair of limbs that `Accum` already is, read unsigned.
-/

namespace Xhive.Particles

open Xhive.Support Xhive.Linears

/-! ## Sums, comparisons and products -/

def pfQUadd (a b : Accum) : Accum :=
  let lo := a.low + b.low
  { low := lo
    high := a.high + b.high + if lo < a.low then 1 else 0 }

def pfQUcmp (a b : Accum) : ℤ :=
  if a.high ≠ b.high then (if a.high < b.high then -1 else 1)
  else if a.low = b.low then 0
  else if a.low < b.low then -1
  else 1

/-- A sum that fits two words is exact. -/
theorem toNat_pfQUadd {a b : Accum} (h : a.toNat + b.toNat < 2 ^ 128) :
    (pfQUadd a b).toNat = a.toNat + b.toNat := by
  have hsum := toNat_lnAddUnchecked a b
  rw [Nat.mod_eq_of_lt h] at hsum
  exact hsum

theorem pfQUcmp_neg_iff (a b : Accum) : pfQUcmp a b < 0 ↔ a.toNat < b.toNat := by
  have hal := a.low.toNat_lt
  have hbl := b.low.toNat_lt
  rw [pfQUcmp, Accum.toNat, Accum.toNat]
  simp only [ne_eq, ← UInt64.toNat_inj, UInt64.lt_iff_toNat_lt]
  split_ifs <;> constructor <;> omega

theorem pfQUcmp_pos_iff (a b : Accum) : 0 < pfQUcmp a b ↔ b.toNat < a.toNat := by
  have hal := a.low.toNat_lt
  have hbl := b.low.toNat_lt
  rw [pfQUcmp, Accum.toNat, Accum.toNat]
  simp only [ne_eq, ← UInt64.toNat_inj, UInt64.lt_iff_toNat_lt]
  split_ifs <;> constructor <;> omega

theorem pfQUcmp_eq_zero_iff (a b : Accum) : pfQUcmp a b = 0 ↔ a.toNat = b.toNat := by
  have hneg := pfQUcmp_neg_iff a b
  have hpos := pfQUcmp_pos_iff a b
  omega

/-- A word as a two-word scalar. -/
theorem toNat_word (x : UInt64) : (⟨x, 0⟩ : Accum).toNat = x.toNat := by
  rw [Accum.toNat, UInt64.toNat_zero, Nat.zero_mul, Nat.zero_add]

/-- `filters_q_multiply_u64`: the full product from 32-bit limbs. -/
def filtersQMultiplyU64 (a b : UInt64) : Accum :=
  let a0 := a &&& 0xffffffff
  let a1 := a >>> 32
  let b0 := b &&& 0xffffffff
  let b1 := b >>> 32
  let low := a0 * b0
  let middle := a1 * b0 + (low >>> 32)
  let carry := middle >>> 32
  let middle' := (middle &&& 0xffffffff) + a0 * b1
  { low := (middle' <<< 32) ||| (low &&& 0xffffffff)
    high := a1 * b1 + carry + (middle' >>> 32) }

def pfQUmul (a b : UInt64) : Accum :=
  filtersQMultiplyU64 a b

theorem toNat_pfQUmul (a b : UInt64) : (pfQUmul a b).toNat = a.toNat * b.toNat :=
  toNat_lnMultiplySchoolbook a b

/-! ## Bit counts -/

/-- The loop of `filters_q_bit_length`; a word is shifted out in 64 rounds. -/
def bitLengthLoop : ℕ → UInt64 → ℕ
  | 0, _ => 0
  | rounds + 1, value => if value = 0 then 0 else bitLengthLoop rounds (value >>> 1) + 1

def filtersQBitLength (value : UInt64) : ℕ :=
  bitLengthLoop 64 value

def filtersQU128BitLength (value : Accum) : ℕ :=
  if value.high ≠ 0 then 64 + filtersQBitLength value.high else filtersQBitLength value.low

def pfQUbits (a : Accum) : ℕ :=
  filtersQU128BitLength a

theorem size_half {n : ℕ} (hn : n ≠ 0) : n.size = (n / 2).size + 1 := by
  conv_lhs => rw [← Nat.bit_bodd_div2 n]
  rw [Nat.size_bit, Nat.div2_val]
  rwa [Nat.bit_bodd_div2]

theorem bitLengthLoop_eq (rounds : ℕ) (value : UInt64) (h : value.toNat < 2 ^ rounds) :
    bitLengthLoop rounds value = value.toNat.size := by
  induction rounds generalizing value with
  | zero =>
      rw [bitLengthLoop, show value.toNat = 0 by omega, Nat.size_zero]
  | succ rounds ih =>
      have hhalf : (value >>> 1).toNat = value.toNat / 2 := by
        rw [toNat_shiftRight_eq _ _ (by decide)]
        rfl
      rw [bitLengthLoop]
      split
      · rw [‹value = 0›, UInt64.toNat_zero, Nat.size_zero]
      · have hne : value.toNat ≠ 0 := by
          rwa [← UInt64.toNat_zero, ne_eq, UInt64.toNat_inj]
        rw [ih (value >>> 1) (by rw [hhalf]; omega), hhalf, ← size_half hne]

theorem filtersQBitLength_eq (value : UInt64) : filtersQBitLength value = value.toNat.size :=
  bitLengthLoop_eq 64 value value.toNat_lt

theorem size_mul_pow_add {high low : ℕ} (hhigh : high ≠ 0) {s : ℕ} (hlow : low < 2 ^ s) :
    (high * 2 ^ s + low).size = s + high.size := by
  apply le_antisymm
  · rw [Nat.size_le, pow_add]
    have h := Nat.lt_size_self high
    calc high * 2 ^ s + low < (high + 1) * 2 ^ s := by rw [Nat.succ_mul]; omega
      _ ≤ 2 ^ high.size * 2 ^ s := Nat.mul_le_mul_right _ h
      _ = 2 ^ s * 2 ^ high.size := Nat.mul_comm _ _
  · obtain ⟨k, hk⟩ := Nat.exists_eq_succ_of_ne_zero (Nat.size_pos.mpr (Nat.pos_of_ne_zero hhigh)).ne'
    rw [hk, Nat.add_succ, Nat.succ_le_iff, Nat.lt_size, pow_add]
    have hpow : 2 ^ k ≤ high := Nat.lt_size.mp (by omega)
    calc 2 ^ s * 2 ^ k = 2 ^ k * 2 ^ s := Nat.mul_comm _ _
      _ ≤ high * 2 ^ s := Nat.mul_le_mul_right _ hpow
      _ ≤ high * 2 ^ s + low := Nat.le_add_right _ _

/-- The count of significant bits of both words. -/
theorem pfQUbits_eq (a : Accum) : pfQUbits a = a.toNat.size := by
  rw [pfQUbits, filtersQU128BitLength, Accum.toNat, filtersQBitLength_eq, filtersQBitLength_eq]
  split
  · have hne : a.high.toNat ≠ 0 := by
      rwa [← UInt64.toNat_zero, ne_eq, UInt64.toNat_inj]
    rw [size_mul_pow_add hne a.low.toNat_lt]
  · rename_i hzero
    rw [not_not.mp hzero, UInt64.toNat_zero, Nat.zero_mul, Nat.zero_add]

/-! ## Division -/

/-- The bit that `pf_q_udiv` brings down. -/
def udivDigit (a : Accum) (bit : ℕ) : UInt64 :=
  if bit ≥ 64 then (a.high >>> UInt64.ofNat (bit - 64)) &&& 1
  else (a.low >>> UInt64.ofNat bit) &&& 1

/-- One step of `pf_q_udiv`: subtract the divisor if it goes. -/
def pfQUdivStep (a : Accum) (d : UInt64) (bit : ℕ) (r q : UInt64) : UInt64 × UInt64 :=
  let r := (r <<< 1) ||| udivDigit a bit
  if r ≥ d then (r - d, if bit < 64 then q ||| (1 <<< UInt64.ofNat bit) else q) else (r, q)

/-- The bits below `bit`, most significant first. -/
def pfQUdivLoop (a : Accum) (d : UInt64) : ℕ → UInt64 × UInt64 → UInt64 × UInt64
  | 0, s => s
  | bit + 1, s => pfQUdivLoop a d bit (pfQUdivStep a d bit s.1 s.2)

/-- Quotient and remainder. -/
def pfQUdiv (a : Accum) (d : UInt64) : UInt64 × UInt64 :=
  let s := pfQUdivLoop a d (pfQUbits a) (0, 0)
  (s.2, s.1)

theorem toNat_udivDigit (a : Accum) (bit : ℕ) (hbit : bit < 128) :
    (udivDigit a bit).toNat = a.toNat / 2 ^ bit % 2 := by
  have hlow := a.low.toNat_lt
  rw [udivDigit, Accum.toNat]
  split
  · have hpow : 2 ^ bit = 2 ^ 64 * 2 ^ (bit - 64) := by
      rw [← pow_add]
      congr 1
      omega
    rw [toNat_bit _ (by omega), hpow, ← Nat.div_div_eq_div_mul, Nat.mul_comm,
      Nat.mul_add_div (by norm_num), Nat.div_eq_of_lt hlow, Nat.add_zero]
  · have hpow : 2 ^ 64 = 2 ^ bit * (2 * 2 ^ (63 - bit)) := by
      rw [← pow_succ', ← pow_add]
      congr 1
      omega
    rw [toNat_bit _ (by omega), hpow, ← Nat.mul_assoc, Nat.mul_comm _ (2 ^ bit), Nat.mul_assoc,
      Nat.mul_add_div (Nat.two_pow_pos _), ← Nat.mul_assoc, Nat.mul_comm _ 2, Nat.mul_assoc,
      Nat.mul_add_mod]

/-- The state above `bit`: the remainder and the quotient of the bits that were
brought down. -/
structure UdivState (a : Accum) (d : UInt64) (bit : ℕ) (s : UInt64 × UInt64) : Prop where
  remainder : s.1.toNat = a.toNat / 2 ^ bit % d.toNat
  quotient : s.2.toNat = a.toNat / 2 ^ bit / d.toNat * 2 ^ bit

/-- Below `2 ^ 63` the doubled remainder has room for the next bit. -/
theorem UdivState.doubled {a : Accum} {d : UInt64} {bit : ℕ} {s : UInt64 × UInt64}
    (h : UdivState a d bit s) (hd : 0 < d.toNat) (hroom : d.toNat ≤ 2 ^ 63) :
    2 * s.1.toNat + 1 < 2 ^ 64 := by
  have hlt := Nat.mod_lt (a.toNat / 2 ^ bit) hd
  rw [← h.remainder] at hlt
  omega

theorem pfQUdivStep_spec {a : Accum} {d : UInt64} {bit : ℕ} {s : UInt64 × UInt64}
    (hd : 0 < d.toNat) (hroom : d.toNat ≤ 2 ^ 63) (hbit : bit < 128)
    (hquotient : a.toNat / d.toNat < 2 ^ 64) (h : UdivState a d (bit + 1) s) :
    UdivState a d bit (pfQUdivStep a d bit s.1 s.2) := by
  have hdoubled := h.doubled hd hroom
  have hdigit := toNat_udivDigit a bit hbit
  have hlast := Nat.mod_lt (a.toNat / 2 ^ bit) (by decide : 0 < 2)
  have hnext := toNat_shiftLeft_one_or (x := s.1) (hdigit.trans_lt hlast)
  rw [hdigit, Nat.mod_eq_of_lt (by omega), h.remainder] at hnext
  obtain ⟨hq, hr⟩ := div_mod_bit a.toNat bit hd
  rw [pfQUdivStep]
  simp only [ge_iff_le, UInt64.le_iff_toNat_le]
  split
  · rename_i hge
    rw [hnext] at hge
    rw [if_pos hge] at hq hr
    constructor
    · rw [hr, UInt64.toNat_sub_of_le _ _ (by rw [UInt64.le_iff_toNat_le, hnext]; exact hge), hnext]
    · rw [hq]
      by_cases hlow : bit < 64
      · rw [if_pos hlow, toNat_or_bit hlow h.quotient, h.quotient, pow_succ]
        ring
      · -- a quotient of one word has no bit up here
        have hzero : a.toNat / 2 ^ bit / d.toNat = 0 := by
          rw [Nat.div_div_eq_div_mul, Nat.mul_comm, ← Nat.div_div_eq_div_mul]
          apply Nat.div_eq_of_lt
          exact hquotient.trans_le (Nat.pow_le_pow_right (by decide) (by omega))
        omega
  · rename_i hlt
    rw [hnext] at hlt
    rw [if_neg hlt] at hq hr
    constructor
    · rw [hr, hnext, Nat.sub_zero]
    · rw [hq, h.quotient, pow_succ, Nat.add_zero]
      ring

/-- The state of the loop after its first `k` steps. -/
def udivAfter (a : Accum) (d : UInt64) : ℕ → UInt64 × UInt64
  | 0 => (0, 0)
  | k + 1 => pfQUdivStep a d (pfQUbits a - (k + 1)) (udivAfter a d k).1 (udivAfter a d k).2

theorem pfQUdivLoop_after (a : Accum) (d : UInt64) (k : ℕ) (hk : k ≤ pfQUbits a) :
    pfQUdivLoop a d (pfQUbits a) (0, 0) = pfQUdivLoop a d (pfQUbits a - k) (udivAfter a d k) := by
  induction k with
  | zero => rfl
  | succ k ih =>
      have hbit : pfQUbits a - k = pfQUbits a - (k + 1) + 1 := by omega
      rw [ih (by omega), hbit]
      rfl

theorem udivState_start (a : Accum) (d : UInt64) : UdivState a d (pfQUbits a) (0, 0) := by
  have hzero : a.toNat / 2 ^ pfQUbits a = 0 := by
    rw [pfQUbits_eq]
    exact Nat.div_eq_of_lt (Nat.lt_size_self _)
  constructor
  · rw [hzero, Nat.zero_mod]
    rfl
  · rw [hzero, Nat.zero_div, Nat.zero_mul]
    rfl

theorem pfQUbits_le (a : Accum) : pfQUbits a ≤ 128 := by
  rw [pfQUbits_eq, Nat.size_le]
  exact a.toNat_lt

theorem udivState_after {a : Accum} {d : UInt64} (hd : 0 < d.toNat) (hroom : d.toNat ≤ 2 ^ 63)
    (hquotient : a.toNat / d.toNat < 2 ^ 64) (k : ℕ) (hk : k ≤ pfQUbits a) :
    UdivState a d (pfQUbits a - k) (udivAfter a d k) := by
  induction k with
  | zero => exact udivState_start a d
  | succ k ih =>
      have hbits := pfQUbits_le a
      have hbit : pfQUbits a - k = pfQUbits a - (k + 1) + 1 := by omega
      have hprevious := ih (by omega)
      rw [hbit] at hprevious
      exact pfQUdivStep_spec hd hroom (by omega) hquotient hprevious

/-- Quotient and remainder are exact. -/
theorem pfQUdiv_spec {a : Accum} {d : UInt64} (hd : 0 < d.toNat) (hroom : d.toNat ≤ 2 ^ 63)
    (hquotient : a.toNat / d.toNat < 2 ^ 64) :
    (pfQUdiv a d).1.toNat = a.toNat / d.toNat ∧ (pfQUdiv a d).2.toNat = a.toNat % d.toNat := by
  have h := udivState_after hd hroom hquotient (pfQUbits a) le_rfl
  have hr := h.remainder
  have hq := h.quotient
  rw [Nat.sub_self, pow_zero, Nat.div_one] at hr
  rw [Nat.sub_self, pow_zero, Nat.div_one, Nat.mul_one] at hq
  rw [pfQUdiv, pfQUdivLoop_after a d (pfQUbits a) le_rfl, Nat.sub_self]
  exact ⟨hq, hr⟩

/-! ## The product with a binary fraction -/

/-- The three words of `a * mantissa`. -/
def uniformWords (a : Accum) (mantissa : UInt64) (i : ℕ) : UInt64 :=
  let p := pfQUmul a.low mantissa
  let q := pfQUmul a.high mantissa
  let middle := p.high + q.low
  match i with
  | 0 => p.low
  | 1 => middle
  | 2 => q.high + if middle < p.high then 1 else 0
  | _ => 0

/-- One output word of the shift. -/
def shiftedWord (words : ℕ → UInt64) (tail : UInt64) (source : ℕ) : UInt64 :=
  if source < 3 then
    (words source >>> tail) |||
      (if tail ≠ 0 ∧ source + 1 < 3 then words (source + 1) <<< (64 - tail) else 0)
  else 0

/-- `floor(a * mantissa / 2 ^ shift)`, and whether a fraction was discarded. -/
def pfQUniformProduct (a : Accum) (mantissa : UInt64) (shift : ℕ) : Accum × Bool :=
  let words := uniformWords a mantissa
  let whole := shift / 64
  let tail := UInt64.ofNat (shift % 64)
  let below := (List.range whole).any fun i => decide (i < 3 ∧ words i ≠ 0)
  let cut := decide (whole < 3 ∧ tail ≠ 0 ∧ words whole &&& ((1 <<< tail) - 1) ≠ 0)
  (⟨shiftedWord words tail whole, shiftedWord words tail (whole + 1)⟩, below || cut)

theorem toNat_ne_zero_iff (x : UInt64) : x.toNat ≠ 0 ↔ x ≠ 0 := by
  rw [← UInt64.toNat_zero, ne_eq, UInt64.toNat_inj]

theorem uniformWords_above (a : Accum) (mantissa : UInt64) {i : ℕ} (hi : 3 ≤ i) :
    uniformWords a mantissa i = 0 := by
  obtain ⟨k, rfl⟩ := Nat.exists_eq_add_of_le hi
  rw [Nat.add_comm]
  rfl

/-- The words hold the whole product. -/
theorem digitSum_uniformWords (a : Accum) (mantissa : UInt64) :
    digitSum (2 ^ 64) 3 (fun i => (uniformWords a mantissa i).toNat) =
      a.toNat * mantissa.toNat := by
  have hp := toNat_pfQUmul a.low mantissa
  have hq := toNat_pfQUmul a.high mantissa
  have hbound : a.high.toNat * mantissa.toNat ≤ (2 ^ 64 - 1) * (2 ^ 64 - 1) :=
    Nat.mul_le_mul (by have := a.high.toNat_lt; omega) (by have := mantissa.toNat_lt; omega)
  have hexact : a.toNat * mantissa.toNat =
      a.high.toNat * mantissa.toNat * 2 ^ 64 + a.low.toNat * mantissa.toNat := by
    rw [Accum.toNat]
    ring
  rw [hexact, ← hp, ← hq]
  rw [← hq] at hbound
  simp only [digitSum_succ, digitSum_zero, uniformWords, toNat_add_lt_iff]
  generalize pfQUmul a.low mantissa = p at *
  generalize pfQUmul a.high mantissa = q at *
  have hpl := p.low.toNat_lt
  have hph := p.high.toNat_lt
  have hql := q.low.toNat_lt
  have hqh := q.high.toNat_lt
  rw [Accum.toNat] at hbound ⊢
  rw [Accum.toNat]
  split
  · rw [UInt64.toNat_add, UInt64.toNat_add, UInt64.toNat_one]
    omega
  · rw [UInt64.toNat_add, UInt64.toNat_add, UInt64.toNat_zero]
    omega

theorem toNat_uniformWords (a : Accum) (mantissa : UInt64) (i : ℕ) :
    (uniformWords a mantissa i).toNat = a.toNat * mantissa.toNat / 2 ^ (64 * i) % 2 ^ 64 := by
  have hword : ∀ i < 3, (uniformWords a mantissa i).toNat < 2 ^ 64 := fun i _ =>
    UInt64.toNat_lt _
  have hdigit := digitSum_digit hword (by norm_num) i
  rw [digitSum_uniformWords, ← pow_mul] at hdigit
  rw [hdigit]
  split
  · rfl
  · rw [uniformWords_above a mantissa (by omega), UInt64.toNat_zero]

theorem toNat_ofNat_tail (shift : ℕ) : (UInt64.ofNat (shift % 64)).toNat = shift % 64 := by
  rw [UInt64.toNat_ofNat', Nat.mod_eq_of_lt (by omega)]

theorem toNat_shiftedWord (a : Accum) (mantissa : UInt64) (shift source : ℕ) :
    (shiftedWord (uniformWords a mantissa) (UInt64.ofNat (shift % 64)) source).toNat =
      a.toNat * mantissa.toNat / 2 ^ (64 * source + shift % 64) % 2 ^ 64 := by
  have htail := toNat_ofNat_tail shift
  have hlt : shift % 64 < 64 := Nat.mod_lt _ (by norm_num)
  have hsource := toNat_uniformWords a mantissa source
  have hnext := toNat_uniformWords a mantissa (source + 1)
  rw [Nat.mul_succ, pow_add, ← Nat.div_div_eq_div_mul] at hnext
  have hwords := div_mod_of_words (a.toNat * mantissa.toNat / 2 ^ (64 * source)) hlt.le
  rw [Nat.div_div_eq_div_mul, ← pow_add] at hwords
  have hupper : (if UInt64.ofNat (shift % 64) ≠ 0 ∧ source + 1 < 3 then
      uniformWords a mantissa (source + 1) <<< (64 - UInt64.ofNat (shift % 64)) else 0).toNat =
      a.toNat * mantissa.toNat / 2 ^ (64 * source) / 2 ^ 64 % 2 ^ (shift % 64) *
        2 ^ (64 - shift % 64) := by
    by_cases hzero : shift % 64 = 0
    · have hword : UInt64.ofNat (shift % 64) = 0 := by
        rw [hzero]
        rfl
      rw [if_neg (fun h => h.1 hword), hzero, pow_zero, Nat.mod_one, Nat.zero_mul,
        UInt64.toNat_zero]
    · have hword : UInt64.ofNat (shift % 64) ≠ 0 := by
        rwa [ne_eq, ← UInt64.toNat_inj, htail, UInt64.toNat_zero]
      by_cases habove : source + 1 < 3
      · have hsub := toNat_sixtyFour_sub (UInt64.ofNat (shift % 64)) (by omega)
        have hpow : (2 : ℕ) ^ 64 = 2 ^ (shift % 64) * 2 ^ (64 - shift % 64) := by
          rw [← pow_add, Nat.add_sub_cancel' hlt.le]
        rw [if_pos ⟨hword, habove⟩, toNat_shiftLeft_eq _ _ (by omega), hsub, htail, hnext]
        conv_lhs => rw [hpow, Nat.mul_mod_mul_right, Nat.mod_mod_of_dvd _ (Nat.dvd_mul_right _ _)]
        rw [← hpow]
      · have habove' := uniformWords_above a mantissa (show 3 ≤ source + 1 by omega)
        rw [habove', UInt64.toNat_zero] at hnext
        have hmod : a.toNat * mantissa.toNat / 2 ^ (64 * source) / 2 ^ 64 % 2 ^ (shift % 64) = 0 := by
          rw [← Nat.mod_mod_of_dvd _ (pow_dvd_pow 2 hlt.le), ← hnext, Nat.zero_mod]
        rw [if_neg (fun h => habove h.2), hmod, Nat.zero_mul, UInt64.toNat_zero]
  have hlow : a.toNat * mantissa.toNat / 2 ^ (64 * source) % 2 ^ 64 / 2 ^ (shift % 64) <
      2 ^ (64 - shift % 64) := by
    apply Nat.div_lt_of_lt_mul
    rw [← pow_add, Nat.add_sub_cancel' hlt.le]
    exact Nat.mod_lt _ (Nat.two_pow_pos _)
  rw [hwords, shiftedWord]
  split
  · rw [UInt64.toNat_or, toNat_shiftRight_eq _ _ (by omega), hupper, htail, hsource,
      lor_mul_two_pow _ hlow, Nat.add_comm]
  · rename_i hout
    rw [uniformWords_above a mantissa (by omega), UInt64.toNat_zero] at hsource
    rw [if_neg (fun h => hout (by omega)), UInt64.toNat_zero] at hupper
    rw [← hsource, ← hupper, Nat.zero_div, UInt64.toNat_zero]

/-- What the shift discards, word by word. -/
theorem discarded_iff (a : Accum) (mantissa : UInt64) (whole : ℕ) :
    a.toNat * mantissa.toNat % 2 ^ (64 * whole) ≠ 0 ↔
      ∃ i < whole, uniformWords a mantissa i ≠ 0 := by
  induction whole with
  | zero =>
      rw [Nat.mul_zero, pow_zero, Nat.mod_one]
      simp
  | succ whole ih =>
      have hword := toNat_uniformWords a mantissa whole
      have hsplit := mod_pow_add (a.toNat * mantissa.toNat) (64 * whole) 64
      rw [← hword] at hsplit
      rw [Nat.mul_succ, hsplit]
      constructor
      · intro h
        by_cases hlow : a.toNat * mantissa.toNat % 2 ^ (64 * whole) = 0
        · refine ⟨whole, by omega, ?_⟩
          rintro hzero
          rw [hlow, hzero, UInt64.toNat_zero, Nat.mul_zero] at h
          exact h rfl
        · obtain ⟨i, hi, hne⟩ := ih.mp hlow
          exact ⟨i, by omega, hne⟩
      · rintro ⟨i, hi, hne⟩ hsum
        obtain ⟨hlow, hhigh⟩ := Nat.add_eq_zero_iff.mp hsum
        rcases Nat.lt_succ_iff_lt_or_eq.mp hi with hi | rfl
        · exact ih.mpr ⟨i, hi, hne⟩ hlow
        · rcases Nat.mul_eq_zero.mp hhigh with hpow | hzero
          · exact absurd hpow (Nat.two_pow_pos _).ne'
          · exact hne (UInt64.toNat_inj.mp hzero)

/-- The product is cut exactly, and the flag tells whether anything was lost. -/
theorem pfQUniformProduct_spec {a : Accum} {mantissa : UInt64} {shift : ℕ}
    (hfits : a.toNat * mantissa.toNat / 2 ^ shift < 2 ^ 128) :
    (pfQUniformProduct a mantissa shift).1.toNat = a.toNat * mantissa.toNat / 2 ^ shift ∧
      ((pfQUniformProduct a mantissa shift).2 = true ↔
        a.toNat * mantissa.toNat % 2 ^ shift ≠ 0) := by
  have hshift : 64 * (shift / 64) + shift % 64 = shift := Nat.div_add_mod _ _
  have htail := toNat_ofNat_tail shift
  have hlt : shift % 64 < 64 := Nat.mod_lt _ (by norm_num)
  constructor
  · have hfirst := toNat_shiftedWord a mantissa shift (shift / 64)
    have hsecond := toNat_shiftedWord a mantissa shift (shift / 64 + 1)
    rw [hshift] at hfirst
    rw [Nat.mul_succ, Nat.add_right_comm, hshift, pow_add, ← Nat.div_div_eq_div_mul] at hsecond
    rw [pfQUniformProduct, Accum.toNat, hfirst, hsecond]
    generalize a.toNat * mantissa.toNat / 2 ^ shift = value at hfits
    omega
  · have hdiscarded := discarded_iff a mantissa (shift / 64)
    have hsplit := mod_pow_add (a.toNat * mantissa.toNat) (64 * (shift / 64)) (shift % 64)
    have hword := toNat_uniformWords a mantissa (shift / 64)
    have hmask : (uniformWords a mantissa (shift / 64) &&&
        ((1 <<< UInt64.ofNat (shift % 64)) - 1)).toNat =
        a.toNat * mantissa.toNat / 2 ^ (64 * (shift / 64)) % 2 ^ (shift % 64) := by
      rw [toNat_and_lowMask _ (by omega), htail, hword,
        Nat.mod_mod_of_dvd _ (pow_dvd_pow 2 hlt.le)]
    have hcut : (shift / 64 < 3 ∧ UInt64.ofNat (shift % 64) ≠ 0 ∧
        uniformWords a mantissa (shift / 64) &&& ((1 <<< UInt64.ofNat (shift % 64)) - 1) ≠ 0) ↔
        a.toNat * mantissa.toNat / 2 ^ (64 * (shift / 64)) % 2 ^ (shift % 64) ≠ 0 := by
      rw [← hmask, toNat_ne_zero_iff]
      refine ⟨fun h => h.2.2, fun h => ⟨?_, ?_, h⟩⟩
      · by_contra hout
        rw [uniformWords_above a mantissa (by omega), UInt64.zero_and] at h
        exact h rfl
      · intro hzero
        rw [hzero] at h
        exact h (UInt64.and_zero)
    have hbelow : (∃ i ∈ List.range (shift / 64), decide (i < 3 ∧ uniformWords a mantissa i ≠ 0)) ↔
        ∃ i < shift / 64, uniformWords a mantissa i ≠ 0 := by
      constructor
      · rintro ⟨i, hi, h⟩
        exact ⟨i, List.mem_range.mp hi, (of_decide_eq_true h).2⟩
      · rintro ⟨i, hi, hne⟩
        refine ⟨i, List.mem_range.mpr hi, decide_eq_true ⟨?_, hne⟩⟩
        by_contra hout
        exact hne (uniformWords_above a mantissa (by omega))
    rw [hshift] at hsplit
    rw [hsplit, pfQUniformProduct]
    dsimp only
    rw [Bool.or_eq_true, List.any_eq_true, hbelow, ← hdiscarded, decide_eq_true_iff, hcut]
    constructor
    · rintro (h | h) hsum
      · exact h (Nat.add_eq_zero_iff.mp hsum).1
      · rcases Nat.mul_eq_zero.mp (Nat.add_eq_zero_iff.mp hsum).2 with hpow | hzero
        · exact absurd hpow (Nat.two_pow_pos _).ne'
        · exact h hzero
    · intro hsum
      by_contra hnone
      obtain ⟨hlow, hhigh⟩ := not_or.mp hnone
      rw [not_not.mp hlow, not_not.mp hhigh, Nat.mul_zero] at hsum
      exact hsum rfl

end Xhive.Particles
