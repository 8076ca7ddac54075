import Mathlib.Data.Nat.Bitwise
import Mathlib.Algebra.Field.Basic
import Mathlib.Data.Int.Cast.Lemmas
import Mathlib.Tactic.Ring
import Mathlib.Tactic.Linarith
import Mathlib.Tactic.Zify

/-!
# Fixed-width words as integers

Numeric readings of the machine-word operations used by multi-limb
arithmetic.  Every lemma turns one word operation into a statement about
`toNat` or `toInt`, so that later proofs are about numbers only.
-/

namespace Xhive.Support

/-! ## Bit operations on natural numbers -/

theorem mul_two_pow_lor (a : ℕ) {b s : ℕ} (hb : b < 2 ^ s) :
    a * 2 ^ s ||| b = a * 2 ^ s + b := by
  have h := Nat.shiftLeft_add_eq_or_of_lt hb a
  rw [Nat.shiftLeft_eq] at h
  exact h.symm

theorem lor_mul_two_pow (a : ℕ) {b s : ℕ} (hb : b < 2 ^ s) :
    b ||| a * 2 ^ s = a * 2 ^ s + b := by
  rw [Nat.lor_comm, mul_two_pow_lor a hb]

/-! ## Unsigned words -/

theorem toNat_shiftLeft_eq (a s : UInt64) (hs : s.toNat < 64) :
    (a <<< s).toNat = a.toNat * 2 ^ s.toNat % 2 ^ 64 := by
  rw [UInt64.toNat_shiftLeft, Nat.mod_eq_of_lt hs, Nat.shiftLeft_eq]

theorem toNat_shiftRight_eq (a s : UInt64) (hs : s.toNat < 64) :
    (a >>> s).toNat = a.toNat / 2 ^ s.toNat := by
  rw [UInt64.toNat_shiftRight, Nat.mod_eq_of_lt hs, Nat.shiftRight_eq_div_pow]

theorem toNat_sixtyFour_sub (s : UInt64) (hs : s.toNat ≤ 64) :
    (64 - s).toNat = 64 - s.toNat := by
  rw [UInt64.toNat_sub_of_le]
  · rfl
  · exact UInt64.le_iff_toNat_le.mpr hs

/-- A wrapped sum is the exact sum less one modulus, when it wraps. -/
theorem toNat_add_lt_iff (a b : UInt64) :
    a + b < a ↔ 2 ^ 64 ≤ a.toNat + b.toNat := by
  rw [UInt64.lt_iff_toNat_lt, UInt64.toNat_add]
  have ha := a.toNat_lt
  have hb := b.toNat_lt
  omega

theorem toNat_or_lt_iff (a b : UInt64) (s : ℕ) :
    (a ||| b).toNat < 2 ^ s ↔ a.toNat < 2 ^ s ∧ b.toNat < 2 ^ s := by
  rw [UInt64.toNat_or]
  constructor
  · intro h
    exact ⟨lt_of_le_of_lt Nat.left_le_or h, lt_of_le_of_lt Nat.right_le_or h⟩
  · rintro ⟨ha, hb⟩
    exact Nat.or_lt_two_pow ha hb

/-- Setting a bit below all the set ones adds it. -/
theorem toNat_or_bit {q : UInt64} {bit : ℕ} (hbit : bit < 64) {high : ℕ}
    (hq : q.toNat = high * 2 ^ (bit + 1)) :
    (q ||| (1 <<< UInt64.ofNat bit)).toNat = q.toNat + 2 ^ bit := by
  have hnat : (UInt64.ofNat bit).toNat = bit := by
    rw [UInt64.toNat_ofNat', Nat.mod_eq_of_lt (by omega)]
  have hpow : 2 ^ bit < 2 ^ (bit + 1) := Nat.pow_lt_pow_right (by norm_num) (Nat.lt_succ_self _)
  have hword : 2 ^ bit < 2 ^ 64 := Nat.pow_lt_pow_right (by norm_num) hbit
  rw [UInt64.toNat_or, toNat_shiftLeft_eq _ _ (by omega), hnat, UInt64.toNat_one, Nat.one_mul,
    Nat.mod_eq_of_lt hword, hq, mul_two_pow_lor _ hpow]

/-! ## Sign and magnitude -/

section Signed

variable {R : Type*}

/-- A magnitude with a sign flag. -/
def signed [Neg R] (negative : Bool) (x : R) : R :=
  if negative then -x else x

@[simp] theorem signed_true [Neg R] (x : R) : signed true x = -x := rfl

@[simp] theorem signed_false [Neg R] (x : R) : signed false x = x := rfl

theorem natAbs_signed (negative : Bool) (x : ℤ) : (signed negative x).natAbs = x.natAbs := by
  cases negative with
  | true => rw [signed_true, Int.natAbs_neg]
  | false => rw [signed_false]

theorem abs_signed_natCast (negative : Bool) (n : ℕ) : |signed negative (n : ℤ)| = n := by
  cases negative with
  | true => rw [signed_true, abs_neg, Nat.abs_cast]
  | false => rw [signed_false, Nat.abs_cast]

/-- Signs combine by exclusive or in a product. -/
theorem signed_mul_signed [Ring R] (s t : Bool) (x y : R) :
    signed s x * signed t y = signed (s != t) (x * y) := by
  cases s <;> cases t <;> simp

theorem signed_mul [Ring R] (s : Bool) (x y : R) :
    signed s x * y = signed s (x * y) := by
  cases s <;> simp

/-- Signs combine by exclusive or in a quotient. -/
theorem signed_div_signed [Field R] (s t : Bool) (x y : R) :
    signed s x / signed t y = signed (s != t) (x / y) := by
  cases s <;> cases t <;> simp [div_neg, neg_div]

theorem cast_signed [Ring R] (s : Bool) (n : ℤ) :
    ((signed s n : ℤ) : R) = signed s (n : R) := by
  cases s <;> simp

theorem signed_natAbs (n : ℤ) :
    signed (decide (n < 0)) (n.natAbs : ℤ) = n := by
  rcases lt_or_ge n 0 with hn | hn
  · rw [decide_eq_true hn, signed_true]
    omega
  · rw [decide_eq_false (not_lt.mpr hn), signed_false]
    omega

end Signed

/-! ## Signed words -/

theorem lt_zero_iff_toInt (a : Int64) : a < 0 ↔ a.toInt < 0 := by
  rw [Int64.lt_iff_toInt_lt, Int64.toInt_zero]

/-- A signed word is its sign flag applied to its magnitude. -/
theorem signed_natAbs_toInt (a : Int64) :
    signed (decide (a < 0)) (a.toInt.natAbs : ℤ) = a.toInt := by
  simp only [lt_zero_iff_toInt]
  exact signed_natAbs a.toInt

/-- The values of a signed 64-bit word. -/
def FitsInt64 (n : ℤ) : Prop :=
  -2 ^ 63 ≤ n ∧ n < 2 ^ 63

instance (n : ℤ) : Decidable (FitsInt64 n) :=
  inferInstanceAs (Decidable (_ ∧ _))

theorem fitsInt64_toInt (x : Int64) : FitsInt64 x.toInt :=
  ⟨x.le_toInt, x.toInt_lt⟩

theorem toInt_ofInt_of_fits {n : ℤ} (hn : FitsInt64 n) :
    (Int64.ofInt n).toInt = n :=
  Int64.toInt_ofInt_of_le hn.1 hn.2

theorem bmod_of_fits {n : ℤ} (hn : FitsInt64 n) : n.bmod (2 ^ 64) = n :=
  Int.bmod_eq_of_le (by have := hn.1; omega) (by have := hn.2; omega)

theorem toInt_add_of_fits {a b : Int64} (h : FitsInt64 (a.toInt + b.toInt)) :
    (a + b).toInt = a.toInt + b.toInt := by
  rw [Int64.toInt_add, bmod_of_fits h]

theorem toInt_sub_of_fits {a b : Int64} (h : FitsInt64 (a.toInt - b.toInt)) :
    (a - b).toInt = a.toInt - b.toInt := by
  rw [Int64.toInt_sub, bmod_of_fits h]

theorem toInt_mul_of_fits {a b : Int64} (h : FitsInt64 (a.toInt * b.toInt)) :
    (a * b).toInt = a.toInt * b.toInt := by
  rw [Int64.toInt_mul, bmod_of_fits h]

theorem toInt_neg_of_fits {a : Int64} (h : FitsInt64 (-a.toInt)) :
    (-a).toInt = -a.toInt := by
  rw [Int64.toInt_neg, bmod_of_fits h]

/-- Division truncates toward zero. -/
theorem toInt_div_of_nonneg {a b : Int64} (hb : b ≠ -1) (ha : 0 ≤ a.toInt) :
    (a / b).toInt = a.toInt / b.toInt := by
  rw [Int64.toInt_div_of_ne_right a b hb, Int.tdiv_eq_ediv_of_nonneg ha]

theorem toInt_div_of_neg {a b : Int64} (hb : b ≠ -1) (ha : a.toInt < 0) :
    (a / b).toInt = -(-a.toInt / b.toInt) := by
  rw [Int64.toInt_div_of_ne_right a b hb, ← Int.tdiv_eq_ediv_of_nonneg (by omega), Int.neg_tdiv,
    neg_neg]

/-- Reinterpreting a signed word as unsigned adds one modulus to negatives. -/
theorem toNat_toUInt64 (x : Int64) :
    (x.toUInt64.toNat : ℤ) = if x.toInt < 0 then x.toInt + 2 ^ 64 else x.toInt := by
  have h : x.toInt = x.toUInt64.toBitVec.toInt := rfl
  have hlt := x.toUInt64.toNat_lt
  rw [BitVec.toInt_eq_toNat_cond] at h
  rw [UInt64.toNat_toBitVec] at h
  split at h <;> split <;> omega

/-- Reinterpreting a small unsigned word as signed keeps its value. -/
theorem toInt_toInt64_of_lt {x : UInt64} (hx : x.toNat < 2 ^ 63) :
    x.toInt64.toInt = x.toNat := by
  have h : x.toInt64.toInt = x.toBitVec.toInt := rfl
  rw [h, BitVec.toInt_eq_toNat_cond, UInt64.toNat_toBitVec, if_pos (by omega)]

end Xhive.Support

/-!
## Bit fields of a word

A field of `w` bits from bit `s` on is read by a shift and a mask, and written by
clearing its bits and setting those of the value.  What is written is read back,
and no field beside it changes.
-/

namespace Xhive.Support

variable {n : ℕ}

/-- The low `w` bits. -/
def fieldMask (n w : ℕ) : BitVec n := BitVec.ofNat n (2 ^ w - 1)

def getField (s w : ℕ) (x : BitVec n) : BitVec n := (x >>> s) &&& fieldMask n w

def setField (s w : ℕ) (v x : BitVec n) : BitVec n :=
  (x &&& ~~~(fieldMask n w <<< s)) ||| ((v &&& fieldMask n w) <<< s)

theorem getLsbD_fieldMask (w i : ℕ) :
    (fieldMask n w).getLsbD i = (decide (i < n) && decide (i < w)) := by
  rw [fieldMask, BitVec.getLsbD_ofNat, Nat.testBit_two_pow_sub_one]

theorem getLsbD_getField (s w i : ℕ) (x : BitVec n) :
    (getField s w x).getLsbD i = (x.getLsbD (s + i) && decide (i < w)) := by
  rw [getField, BitVec.getLsbD_and, BitVec.getLsbD_ushiftRight, getLsbD_fieldMask]
  by_cases hi : i < n
  · simp [hi]
  · rw [BitVec.getLsbD_of_ge x (s + i) (by omega)]
    simp

/-- The bits of the field are those of the value, and the others are kept. -/
theorem getLsbD_setField {s w : ℕ} (h : s + w ≤ n) (v x : BitVec n) (i : ℕ) :
    (setField s w v x).getLsbD i =
      if s ≤ i ∧ i < s + w then v.getLsbD (i - s) else x.getLsbD i := by
  simp only [setField, BitVec.getLsbD_or, BitVec.getLsbD_and, BitVec.getLsbD_not,
    BitVec.getLsbD_shiftLeft, getLsbD_fieldMask]
  by_cases hi : i < n
  · by_cases hlow : i < s
    · have hout : ¬(s ≤ i ∧ i < s + w) := by omega
      simp [hi, hlow, hout]
    · by_cases hhigh : i < s + w
      · have hin : i - s < n ∧ i - s < w := by omega
        simp [hi, hlow, hhigh, hin, Nat.not_lt.mp hlow]
      · have hout : ¬i - s < w := by omega
        simp [hi, hlow, hhigh, hout]
  · have hout : ¬(s ≤ i ∧ i < s + w) := by omega
    rw [BitVec.getLsbD_of_ge x i (by omega)]
    simp [hi, hout]

theorem and_fieldMask_of_lt {w : ℕ} {v : BitVec n} (h : v.toNat < 2 ^ w) :
    v &&& fieldMask n w = v := by
  refine BitVec.eq_of_getLsbD_eq fun i hi => ?_
  rw [BitVec.getLsbD_and, getLsbD_fieldMask]
  by_cases hw : i < w
  · simp [hi, hw]
  · have hhigh : v.getLsbD i = false :=
      Nat.testBit_lt_two_pow
        (Nat.lt_of_lt_of_le h (Nat.pow_le_pow_right Nat.two_pos (Nat.not_lt.mp hw)))
    rw [hhigh, Bool.false_and]

/-- What is written is read back. -/
theorem getField_setField {s w : ℕ} (h : s + w ≤ n) (v x : BitVec n) :
    getField s w (setField s w v x) = v &&& fieldMask n w := by
  refine BitVec.eq_of_getLsbD_eq fun i hi => ?_
  rw [getLsbD_getField, getLsbD_setField h, BitVec.getLsbD_and, getLsbD_fieldMask]
  by_cases hw : i < w
  · simp [hw, hi]
  · simp [hw]

/-- A field beside the one that is written is kept. -/
theorem getField_setField_of_disjoint {s w t u : ℕ} (ht : t + u ≤ n)
    (h : s + w ≤ t ∨ t + u ≤ s) (v x : BitVec n) :
    getField s w (setField t u v x) = getField s w x := by
  refine BitVec.eq_of_getLsbD_eq fun i _ => ?_
  rw [getLsbD_getField, getLsbD_getField, getLsbD_setField ht]
  by_cases hw : i < w
  · have hout : ¬(t ≤ s + i ∧ s + i < t + u) := by omega
    rw [if_neg hout]
  · simp [hw]

end Xhive.Support
