import Xhive.Linears.Numeric.Fixed
import Mathlib.Analysis.SpecialFunctions.Pow.NNReal

/-!
# Integer square roots

The restoring square root on one word, the base-4 restoring loop on a two-limb
radicand, and the rounding step they share.  Both loops return the exact floor
root together with its remainder.
-/

namespace Xhive.Linears

open Xhive.Support

/-! ## One-word radicands -/

/-- `while (bit > value) bit >>= 2`; the count bounds the iterations. -/
def sqrtSkip (value : UInt64) : ℕ → UInt64 → UInt64
  | 0, bit => bit
  | count + 1, bit => if bit > value then sqrtSkip value count (bit >>> 2) else bit

/-- `while (bit != 0)`: returns the root and the remaining value. -/
def sqrtLoop : ℕ → UInt64 → UInt64 → UInt64 → UInt64 × UInt64
  | 0, _, value, root => (root, value)
  | count + 1, bit, value, root =>
      if bit = 0 then (root, value)
      else if value ≥ root + bit then
        sqrtLoop count (bit >>> 2) (value - (root + bit)) ((root >>> 1) + bit)
      else
        sqrtLoop count (bit >>> 2) value (root >>> 1)

/-- Exact floor root and nonnegative remainder. -/
def lnSqrtFloor64 (value : UInt64) : UInt64 × UInt64 :=
  sqrtLoop 32 (sqrtSkip value 32 ((1 : UInt64) <<< 62)) value 0

def lnSqrtNearest64 (value : UInt64) : UInt64 :=
  let root := (lnSqrtFloor64 value).1
  let remainder := (lnSqrtFloor64 value).2
  root + if remainder ≥ root + 1 then 1 else 0

theorem toNat_shiftRight_one (x : UInt64) : (x >>> 1).toNat = x.toNat / 2 := by
  rw [toNat_shiftRight_eq _ _ (by decide)]
  rfl

theorem toNat_shiftRight_two (x : UInt64) : (x >>> 2).toNat = x.toNat / 4 := by
  rw [toNat_shiftRight_eq _ _ (by decide)]
  rfl

/-- The first loop ends on a power of four that dominates the value. -/
theorem sqrtSkip_spec (value : UInt64) (j : ℕ) (bit : UInt64)
    (hbit : bit.toNat = 4 ^ j / 4) (hvalue : value.toNat < 4 ^ j) :
    ∃ i ≤ j, (sqrtSkip value j bit).toNat = 4 ^ i / 4 ∧ value.toNat < 4 ^ i := by
  induction j generalizing bit with
  | zero => exact ⟨0, le_rfl, hbit, hvalue⟩
  | succ j ih =>
      rw [sqrtSkip]
      split
      · rename_i hgt
        rw [gt_iff_lt, UInt64.lt_iff_toNat_lt, hbit] at hgt
        have hshift : (bit >>> 2).toNat = 4 ^ j / 4 := by
          rw [toNat_shiftRight_two, hbit, pow_succ, Nat.mul_div_cancel _ (by decide)]
        rw [pow_succ, Nat.mul_div_cancel _ (by decide)] at hgt
        obtain ⟨i, hi, hspec⟩ := ih (bit >>> 2) hshift hgt
        exact ⟨i, by omega, hspec⟩
      · exact ⟨j + 1, le_rfl, hbit, hvalue⟩

/-- Loop invariant of the restoring root: with `bit = 4 ^ j / 4`, the partial
root is `m * 2 ^ j` and `root` holds `m * 4 ^ j`. -/
structure RootInvariant (n j m : ℕ) (bit value root : UInt64) : Prop where
  bit_eq : bit.toNat = 4 ^ j / 4
  root_eq : root.toNat = m * 4 ^ j
  value_eq : value.toNat + m * m * 4 ^ j = n
  lt_next : n < (m + 1) * (m + 1) * 4 ^ j
  partial_le : (m + 1) * 2 ^ j ≤ 2 ^ 32

namespace RootInvariant

variable {n j m : ℕ} {bit value root : UInt64}

theorem eq_sqrt (h : RootInvariant n 0 m bit value root) :
    bit = 0 ∧ root.toNat = Nat.sqrt n ∧ value.toNat = n - Nat.sqrt n * Nat.sqrt n := by
  have hvalue := h.value_eq
  have hlt := h.lt_next
  have hroot := h.root_eq
  rw [pow_zero, mul_one] at hvalue hlt hroot
  have hsqrt : m = Nat.sqrt n := by
    rw [Nat.eq_sqrt]
    omega
  refine ⟨UInt64.toNat_inj.mp (by rw [h.bit_eq]; rfl), ?_, ?_⟩
  · rw [hroot, hsqrt]
  · rw [← hsqrt]
    omega

variable (h : RootInvariant n (j + 1) m bit value root) (hj : j + 1 ≤ 32)
include h

theorem bit_toNat : bit.toNat = 4 ^ j := by
  rw [h.bit_eq, pow_succ', Nat.mul_div_cancel_left _ (by decide)]

theorem bit_ne_zero : bit ≠ 0 := by
  have hpos : 0 < 4 ^ j := Nat.pow_pos (by decide)
  rw [ne_eq, ← UInt64.toNat_inj, h.bit_toNat, UInt64.toNat_zero]
  omega

theorem toNat_half : (root >>> 1).toNat = 2 * m * 4 ^ j := by
  have hroot : root.toNat = 2 * (2 * m * 4 ^ j) := by
    rw [h.root_eq]
    ring
  rw [toNat_shiftRight_one]
  omega

include hj in
/-- The partial root stays a multiple of `2 ^ (j + 1)` below `2 ^ 32`. -/
theorem scaled_le : (m + 1) * 4 ^ (j + 1) ≤ 2 ^ 64 := by
  have hpow : 4 ^ (j + 1) = 2 ^ (j + 1) * 2 ^ (j + 1) := by
    rw [← mul_pow]
    norm_num
  calc
    (m + 1) * 4 ^ (j + 1) = (m + 1) * 2 ^ (j + 1) * 2 ^ (j + 1) := by
      rw [hpow, mul_assoc]
    _ ≤ 2 ^ 32 * 2 ^ 32 :=
      Nat.mul_le_mul h.partial_le (Nat.pow_le_pow_right (by decide) hj)
    _ = 2 ^ 64 := by norm_num

include hj in
theorem trial_lt : root.toNat + bit.toNat < 2 ^ 64 := by
  have hsmall := h.scaled_le hj
  have hpos : 0 < 4 ^ j := Nat.pow_pos (by decide)
  have hsplit : (m + 1) * 4 ^ (j + 1) = m * 4 ^ (j + 1) + 4 * 4 ^ j := by ring
  rw [h.root_eq, h.bit_toNat]
  omega

include hj in
theorem toNat_trial : (root + bit).toNat = (4 * m + 1) * 4 ^ j := by
  rw [UInt64.toNat_add, Nat.mod_eq_of_lt (h.trial_lt hj), h.root_eq, h.bit_toNat]
  ring

include hj in
theorem taken_lt : root.toNat / 2 + bit.toNat < 2 ^ 64 := by
  have htrial := h.trial_lt hj
  omega

include hj in
theorem toNat_taken : ((root >>> 1) + bit).toNat = (2 * m + 1) * 4 ^ j := by
  have hlt := h.taken_lt hj
  rw [← toNat_shiftRight_one] at hlt
  rw [UInt64.toNat_add, Nat.mod_eq_of_lt hlt, h.toNat_half, h.bit_toNat]
  ring

include hj in
/-- The digit is one. -/
theorem taken (hge : root + bit ≤ value) :
    RootInvariant n j (2 * m + 1) (bit >>> 2) (value - (root + bit)) ((root >>> 1) + bit) where
  bit_eq := by rw [toNat_shiftRight_two, h.bit_toNat]
  root_eq := h.toNat_taken hj
  value_eq := by
    have hle := UInt64.le_iff_toNat_le.mp hge
    have hsum := h.value_eq
    have hsquare : (2 * m + 1) * (2 * m + 1) * 4 ^ j =
        m * m * 4 ^ (j + 1) + (4 * m + 1) * 4 ^ j := by ring
    rw [UInt64.toNat_sub_of_le _ _ hge, hsquare]
    rw [h.toNat_trial hj] at hle ⊢
    omega
  lt_next := by
    have hlt := h.lt_next
    have hsquare : (2 * m + 1 + 1) * (2 * m + 1 + 1) * 4 ^ j =
        (m + 1) * (m + 1) * 4 ^ (j + 1) := by ring
    rw [hsquare]
    exact hlt
  partial_le := by
    have hle := h.partial_le
    have hdouble : (2 * m + 1 + 1) * 2 ^ j = (m + 1) * 2 ^ (j + 1) := by ring
    rw [hdouble]
    exact hle

include hj in
/-- The digit is zero. -/
theorem skipped (hlt : ¬root + bit ≤ value) :
    RootInvariant n j (2 * m) (bit >>> 2) value (root >>> 1) where
  bit_eq := by rw [toNat_shiftRight_two, h.bit_toNat]
  root_eq := h.toNat_half
  value_eq := by
    rw [← h.value_eq]
    ring
  lt_next := by
    have hsum := h.value_eq
    have hsquare : (2 * m + 1) * (2 * m + 1) * 4 ^ j =
        m * m * 4 ^ (j + 1) + (4 * m + 1) * 4 ^ j := by ring
    rw [UInt64.le_iff_toNat_le, h.toNat_trial hj] at hlt
    omega
  partial_le := by
    have hle := h.partial_le
    calc
      (2 * m + 1) * 2 ^ j ≤ (2 * m + 2) * 2 ^ j := Nat.mul_le_mul_right _ (by omega)
      _ = (m + 1) * 2 ^ (j + 1) := by ring
      _ ≤ 2 ^ 32 := hle

end RootInvariant

theorem sqrtLoop_spec {n j m : ℕ} (count : ℕ) {bit value root : UInt64}
    (hcount : j ≤ count) (hj : j ≤ 32) (h : RootInvariant n j m bit value root) :
    (sqrtLoop count bit value root).1.toNat = Nat.sqrt n ∧
      (sqrtLoop count bit value root).2.toNat = n - Nat.sqrt n * Nat.sqrt n := by
  induction j generalizing count m bit value root with
  | zero =>
      obtain ⟨hzero, hroot, hvalue⟩ := h.eq_sqrt
      have hstop : sqrtLoop count bit value root = (root, value) := by
        cases count with
        | zero => rfl
        | succ count => rw [sqrtLoop, if_pos hzero]
      rw [hstop]
      exact ⟨hroot, hvalue⟩
  | succ j ih =>
      obtain ⟨count, rfl⟩ := Nat.exists_eq_add_of_le' (show 1 ≤ count by omega)
      rw [sqrtLoop, if_neg h.bit_ne_zero]
      split
      · exact ih count (by omega) (by omega) (h.taken hj ‹_›)
      · exact ih count (by omega) (by omega) (h.skipped hj ‹_›)

/-- The invariant on entry: `bit` is the power of four that the first loop ends
on. -/
theorem rootInvariant_start (value : UInt64) :
    ∃ j ≤ 32, RootInvariant value.toNat j 0 (sqrtSkip value 32 ((1 : UInt64) <<< 62)) value 0 := by
  obtain ⟨j, hj, hbit, hvalue⟩ := sqrtSkip_spec value 32 ((1 : UInt64) <<< 62)
    (by decide) (by have := value.toNat_lt; omega)
  refine ⟨j, hj, hbit, by simp, by simp, by simpa using hvalue, ?_⟩
  simpa using Nat.pow_le_pow_right (by decide : 0 < 2) hj

theorem lnSqrtFloor64_spec (value : UInt64) :
    (lnSqrtFloor64 value).1.toNat = Nat.sqrt value.toNat ∧
      (lnSqrtFloor64 value).2.toNat =
        value.toNat - Nat.sqrt value.toNat * Nat.sqrt value.toNat := by
  obtain ⟨j, hj, hinv⟩ := rootInvariant_start value
  exact sqrtLoop_spec 32 hj hj hinv

/-! ## The rounding step -/

/-- Incrementing the floor root when the remainder exceeds it gives the nearest
integer to the real root; an integer radicand has no halfway case. -/
theorem roundAway_sqrt (n : ℕ) :
    roundAway (Real.sqrt n) =
      (Nat.sqrt n + if Nat.sqrt n + 1 ≤ n - Nat.sqrt n * Nat.sqrt n then 1 else 0 : ℕ) := by
  have hle := Nat.sqrt_le n
  have hlt' := Nat.lt_succ_sqrt n
  generalize hr : Nat.sqrt n = r at *
  have hnonneg : (0 : ℝ) ≤ Real.sqrt n := Real.sqrt_nonneg _
  have hsq : Real.sqrt n * Real.sqrt n = n := Real.mul_self_sqrt (Nat.cast_nonneg n)
  rw [roundAway_of_nonneg hnonneg, Int.floor_eq_iff]
  split
  · rename_i hup
    have h1 : (r * r + r + 1 : ℕ) ≤ n := by omega
    have h2 : n < (r + 1) * (r + 1) := by simpa using hlt'
    have h1' : (r : ℝ) * r + r + 1 ≤ n := by exact_mod_cast h1
    have h2' : (n : ℝ) < (r + 1) * (r + 1) := by exact_mod_cast h2
    push_cast
    constructor
    · nlinarith
    · nlinarith
  · rename_i hup
    have h1 : n ≤ r * r + r := by omega
    have h1' : (n : ℝ) ≤ r * r + r := by exact_mod_cast h1
    have h2' : (r : ℝ) * r ≤ n := by exact_mod_cast hle
    push_cast
    constructor
    · nlinarith
    · nlinarith

/-- The nearest root misses the radicand by at most itself. -/
theorem abs_sub_sq_roundAway_sqrt_le (n : ℕ) :
    |(n : ℤ) - roundAway (Real.sqrt n) * roundAway (Real.sqrt n)| ≤ roundAway (Real.sqrt n) := by
  have hle := Nat.sqrt_le n
  have hlt := Nat.lt_succ_sqrt n
  rw [roundAway_sqrt]
  rw [Nat.succ_mul, Nat.mul_succ] at hlt
  split
  · have hsquare : ((Nat.sqrt n + 1 : ℕ) : ℤ) * (Nat.sqrt n + 1 : ℕ) =
        (Nat.sqrt n * Nat.sqrt n : ℕ) + (2 * Nat.sqrt n + 1 : ℕ) := by
      push_cast
      ring
    rw [hsquare, abs_le]
    omega
  · have hsquare : ((Nat.sqrt n + 0 : ℕ) : ℤ) * (Nat.sqrt n + 0 : ℕ) =
        (Nat.sqrt n * Nat.sqrt n : ℕ) := by
      push_cast
      ring
    rw [hsquare, abs_le]
    omega

theorem toNat_lnSqrtNearest64 (value : UInt64) :
    ((lnSqrtNearest64 value).toNat : ℤ) = roundAway (Real.sqrt value.toNat) := by
  obtain ⟨hroot, hrem⟩ := lnSqrtFloor64_spec value
  have hlt : Nat.sqrt value.toNat < 2 ^ 32 := by
    rw [Nat.sqrt_lt]
    have := value.toNat_lt
    omega
  have hsucc : ((lnSqrtFloor64 value).1 + 1).toNat = Nat.sqrt value.toNat + 1 := by
    rw [UInt64.toNat_add, hroot, UInt64.toNat_one, Nat.mod_eq_of_lt (by omega)]
  rw [roundAway_sqrt, lnSqrtNearest64]
  simp only [ge_iff_le, UInt64.le_iff_toNat_le, hsucc, hrem]
  split
  · rw [hsucc]
  · rw [UInt64.toNat_add, hroot, UInt64.toNat_zero, Nat.mod_eq_of_lt (by omega)]

/-! ## Two-limb radicands -/

/-- The base-4 restoring loop over the digit pairs of the radicand: returns the
root and the remainder. -/
def sqrtPairs (radicand : Accum) : ℕ → UInt64 → UInt64 → UInt64 × UInt64
  | 0, root, remainder => (root, remainder)
  | pair + 1, root, remainder =>
      let position := 2 * pair
      let digit :=
        if position ≥ 64 then (radicand.high >>> UInt64.ofNat (position - 64)) &&& 3
        else (radicand.low >>> UInt64.ofNat position) &&& 3
      let remainder := (remainder <<< 2) ||| digit
      let root := root <<< 1
      let trial := (root <<< 1) ||| 1
      if remainder ≥ trial then sqrtPairs radicand pair (root + 1) (remainder - trial)
      else sqrtPairs radicand pair root remainder

def linearsFixedSqrt (value : Int64) (out : Option Int64) : Status × Option Int64 :=
  withOut out fun old =>
    if value < 0 then (.errorDomain, old)
    else
      let radicand := lnShiftU64 value.toUInt64 31
      if radicand.high = 0 then
        (.ok, (lnSqrtNearest64 radicand.low).toInt64)
      else
        let root := (sqrtPairs radicand 48 0 0).1
        let remainder := (sqrtPairs radicand 48 0 0).2
        (.ok, (root + if remainder ≥ root + 1 then 1 else 0).toInt64)

theorem toNat_shiftRight_and_three (x : UInt64) {i : ℕ} (hi : i < 64) :
    ((x >>> UInt64.ofNat i) &&& 3).toNat = x.toNat / 2 ^ i % 4 := by
  have hnat : (UInt64.ofNat i).toNat = i := by
    rw [UInt64.toNat_ofNat', Nat.mod_eq_of_lt (by omega)]
  rw [UInt64.toNat_and, toNat_shiftRight_eq _ _ (by omega), hnat]
  exact Nat.and_two_pow_sub_one_eq_mod _ 2

/-- The selected digit is the base-4 digit of the whole radicand. -/
theorem sqrtPairs_digit (radicand : Accum) {pair : ℕ} (hpair : pair < 64) :
    (if 2 * pair ≥ 64 then (radicand.high >>> UInt64.ofNat (2 * pair - 64)) &&& 3
      else (radicand.low >>> UInt64.ofNat (2 * pair)) &&& 3).toNat =
      radicand.toNat / 4 ^ pair % 4 := by
  have hlow := radicand.low.toNat_lt
  have hfour : 4 ^ pair = 2 ^ (2 * pair) := by
    rw [pow_mul]
    norm_num
  rw [hfour, Accum.toNat]
  split
  · rename_i hge
    have hsplit : 2 ^ (2 * pair) = 2 ^ 64 * 2 ^ (2 * pair - 64) := by
      rw [← pow_add]
      congr 1
      omega
    rw [toNat_shiftRight_and_three _ (by omega), hsplit, ← Nat.div_div_eq_div_mul]
    congr 2
    omega
  · rename_i hlt
    have hsplit : 2 ^ 64 = 4 * 2 ^ (62 - 2 * pair) * 2 ^ (2 * pair) := by
      rw [show (4 : ℕ) = 2 ^ 2 by norm_num, ← pow_add, ← pow_add]
      congr 1
      omega
    rw [toNat_shiftRight_and_three _ (by omega), hsplit, ← mul_assoc,
      Nat.add_comm, Nat.add_mul_div_right _ _ (Nat.two_pow_pos _), mul_left_comm,
      Nat.add_mul_mod_self_left]

/-- Loop invariant: the consumed leading digits are `root ^ 2 + remainder` with
the remainder at most twice the root. -/
structure PairInvariant (radicand : Accum) (pair : ℕ) (root remainder : UInt64) : Prop where
  sum_eq : root.toNat * root.toNat + remainder.toNat = radicand.toNat / 4 ^ pair
  remainder_le : remainder.toNat ≤ 2 * root.toNat

namespace PairInvariant

variable {radicand : Accum} {pair : ℕ} {root remainder digit : UInt64}

theorem eq_sqrt (h : PairInvariant radicand 0 root remainder) :
    root.toNat = Nat.sqrt radicand.toNat ∧ remainder.toNat =
      radicand.toNat - Nat.sqrt radicand.toNat * Nat.sqrt radicand.toNat := by
  have hsum := h.sum_eq
  have hrem := h.remainder_le
  rw [pow_zero, Nat.div_one] at hsum
  have hsqrt : root.toNat = Nat.sqrt radicand.toNat := by
    rw [Nat.eq_sqrt]
    constructor
    · omega
    · have : (root.toNat + 1) * (root.toNat + 1) =
          root.toNat * root.toNat + 2 * root.toNat + 1 := by ring
      omega
  refine ⟨hsqrt, ?_⟩
  rw [← hsqrt]
  omega

theorem root_lt (h : PairInvariant radicand pair root remainder)
    (hsmall : radicand.toNat < 2 ^ 94) : root.toNat < 2 ^ 47 := by
  by_contra hge
  have h1 : 2 ^ 47 * 2 ^ 47 ≤ root.toNat * root.toNat :=
    Nat.mul_le_mul (not_lt.mp hge) (not_lt.mp hge)
  have h2 := Nat.div_le_self radicand.toNat (4 ^ pair)
  have h3 := h.sum_eq
  omega

variable (h : PairInvariant radicand (pair + 1) root remainder)
  (hsmall : radicand.toNat < 2 ^ 94) (hdigit : digit.toNat = radicand.toNat / 4 ^ pair % 4)
include h hsmall

theorem toNat_double : (root <<< 1).toNat = 2 * root.toNat := by
  have hlt := h.root_lt hsmall
  rw [toNat_shiftLeft_one]
  omega

theorem toNat_trial : ((root <<< 1) <<< 1 ||| 1).toNat = 4 * root.toNat + 1 := by
  have hlt := h.root_lt hsmall
  rw [toNat_shiftLeft_one_or (by decide), h.toNat_double hsmall, UInt64.toNat_one]
  omega

theorem toNat_next : (root <<< 1 + 1).toNat = 2 * root.toNat + 1 := by
  have hlt := h.root_lt hsmall
  rw [UInt64.toNat_add, h.toNat_double hsmall, UInt64.toNat_one, Nat.mod_eq_of_lt (by omega)]

include hdigit

theorem toNat_remainder : ((remainder <<< 2) ||| digit).toNat =
    4 * remainder.toNat + digit.toNat := by
  have hlt := h.root_lt hsmall
  have hrem := h.remainder_le
  have hdlt : digit.toNat < 4 := by
    rw [hdigit]
    exact Nat.mod_lt _ (by decide)
  have hlor := mul_two_pow_lor remainder.toNat (show digit.toNat < 2 ^ 2 from hdlt)
  rw [UInt64.toNat_or, toNat_shiftLeft_eq _ _ (by decide),
    show (2 : UInt64).toNat = 2 from rfl, Nat.mod_eq_of_lt (by omega), hlor]
  omega

omit hsmall in
/-- The consumed part of the radicand after one more digit. -/
theorem consumed : radicand.toNat / 4 ^ pair =
    4 * (root.toNat * root.toNat + remainder.toNat) + digit.toNat := by
  rw [h.sum_eq, hdigit, pow_succ, ← Nat.div_div_eq_div_mul]
  omega

theorem taken (hge : ((root <<< 1) <<< 1 ||| 1 : UInt64) ≤ (remainder <<< 2) ||| digit) :
    PairInvariant radicand pair (root <<< 1 + 1)
      (((remainder <<< 2) ||| digit) - ((root <<< 1) <<< 1 ||| 1)) := by
  have hrem := h.remainder_le
  have hle := UInt64.le_iff_toNat_le.mp hge
  have hconsumed := h.consumed hdigit
  have hdlt : digit.toNat < 4 := by
    rw [hdigit]
    exact Nat.mod_lt _ (by decide)
  have hsquare : (2 * root.toNat + 1) * (2 * root.toNat + 1) =
      4 * (root.toNat * root.toNat) + (4 * root.toNat + 1) := by ring
  rw [h.toNat_trial hsmall, h.toNat_remainder hsmall hdigit] at hle
  constructor
  · rw [UInt64.toNat_sub_of_le _ _ hge, h.toNat_next hsmall, h.toNat_trial hsmall,
      h.toNat_remainder hsmall hdigit, hsquare]
    omega
  · rw [UInt64.toNat_sub_of_le _ _ hge, h.toNat_next hsmall, h.toNat_trial hsmall,
      h.toNat_remainder hsmall hdigit]
    omega

theorem skipped (hlt : ¬((root <<< 1) <<< 1 ||| 1 : UInt64) ≤ (remainder <<< 2) ||| digit) :
    PairInvariant radicand pair (root <<< 1) ((remainder <<< 2) ||| digit) := by
  have hconsumed := h.consumed hdigit
  have hsquare : 2 * root.toNat * (2 * root.toNat) = 4 * (root.toNat * root.toNat) := by
    ring
  rw [UInt64.le_iff_toNat_le, h.toNat_trial hsmall, h.toNat_remainder hsmall hdigit] at hlt
  constructor
  · rw [h.toNat_double hsmall, h.toNat_remainder hsmall hdigit, hsquare]
    omega
  · rw [h.toNat_double hsmall, h.toNat_remainder hsmall hdigit]
    omega

end PairInvariant

theorem sqrtPairs_spec {radicand : Accum} (hsmall : radicand.toNat < 2 ^ 94)
    {pair : ℕ} (hpair : pair ≤ 48) {root remainder : UInt64}
    (h : PairInvariant radicand pair root remainder) :
    (sqrtPairs radicand pair root remainder).1.toNat = Nat.sqrt radicand.toNat ∧
      (sqrtPairs radicand pair root remainder).2.toNat =
        radicand.toNat - Nat.sqrt radicand.toNat * Nat.sqrt radicand.toNat := by
  induction pair generalizing root remainder with
  | zero => exact h.eq_sqrt
  | succ pair ih =>
      have hdigit := sqrtPairs_digit radicand (show pair < 64 by omega)
      rw [sqrtPairs]
      generalize (if 2 * pair ≥ 64 then
          (radicand.high >>> UInt64.ofNat (2 * pair - 64)) &&& 3
        else (radicand.low >>> UInt64.ofNat (2 * pair)) &&& 3) = digit at *
      split
      · exact ih (by omega) (h.taken hsmall hdigit ‹_›)
      · exact ih (by omega) (h.skipped hsmall hdigit ‹_›)

/-- No digit is consumed on entry. -/
theorem pairInvariant_start {radicand : Accum} (hsmall : radicand.toNat < 2 ^ 94) :
    PairInvariant radicand 48 0 0 where
  sum_eq := by
    rw [Nat.div_eq_of_lt (by norm_num; omega)]
    rfl
  remainder_le := by decide

theorem toInt64_eq_ofInt {x : UInt64} (hx : x.toNat < 2 ^ 63) :
    x.toInt64 = Int64.ofInt x.toNat := by
  rw [← Int64.toInt_inj, toInt_toInt64_of_lt hx,
    toInt_ofInt_of_fits (by constructor <;> omega)]

/-- The two-limb path rounds like the one-word path. -/
theorem toNat_sqrtPairs_nearest {radicand : Accum} (hsmall : radicand.toNat < 2 ^ 94) :
    (((sqrtPairs radicand 48 0 0).1 +
      if (sqrtPairs radicand 48 0 0).2 ≥ (sqrtPairs radicand 48 0 0).1 + 1 then 1 else 0).toNat
        : ℤ) = roundAway (Real.sqrt radicand.toNat) := by
  obtain ⟨hroot, hrem⟩ := sqrtPairs_spec hsmall le_rfl (pairInvariant_start hsmall)
  have hlt : Nat.sqrt radicand.toNat < 2 ^ 47 := by
    rw [Nat.sqrt_lt]
    omega
  have hsucc : ((sqrtPairs radicand 48 0 0).1 + 1).toNat = Nat.sqrt radicand.toNat + 1 := by
    rw [UInt64.toNat_add, hroot, UInt64.toNat_one, Nat.mod_eq_of_lt (by omega)]
  rw [roundAway_sqrt]
  simp only [ge_iff_le, UInt64.le_iff_toNat_le, hsucc, hrem]
  split
  · rw [hsucc]
  · rw [UInt64.toNat_add, hroot, UInt64.toNat_zero, Nat.mod_eq_of_lt (by omega)]

/-- On every nonnegative operand the square root is the correctly rounded root
of `value * 2 ^ 31`, whichever path computes it. -/
theorem linearsFixedSqrt_eq (old : Int64) {value : Int64} (hvalue : 0 ≤ value.toInt) :
    linearsFixedSqrt value (some old) =
      (.ok, some (Int64.ofInt (roundAway (Real.sqrt (value.toInt * 2 ^ 31))))) := by
  have hlt := value.toInt_lt
  have hnat : (value.toUInt64.toNat : ℤ) = value.toInt := by
    rw [toNat_toUInt64, if_neg (not_lt.mpr hvalue)]
  have hradicand : (lnShiftU64 value.toUInt64 31).toNat = value.toUInt64.toNat * 2 ^ 31 := by
    rw [toNat_lnShiftU64 _ _ (by decide) (by decide), toNat_thirtyOne]
  have hsmall : (lnShiftU64 value.toUInt64 31).toNat < 2 ^ 94 := by
    rw [hradicand]
    omega
  have hreal : (value.toInt * 2 ^ 31 : ℝ) = ((lnShiftU64 value.toUInt64 31).toNat : ℕ) := by
    rw [hradicand, ← hnat]
    push_cast
    ring
  have hbound : roundAway (Real.sqrt ((lnShiftU64 value.toUInt64 31).toNat : ℕ)) < 2 ^ 63 := by
    have hroot : Nat.sqrt (lnShiftU64 value.toUInt64 31).toNat < 2 ^ 47 := by
      rw [Nat.sqrt_lt]
      omega
    rw [roundAway_sqrt]
    split <;> omega
  rw [linearsFixedSqrt, withOut_some, if_neg (by rw [lt_zero_iff_toInt]; omega), hreal]
  by_cases hhigh : (lnShiftU64 value.toUInt64 31).high = 0
  · have hlow : (lnShiftU64 value.toUInt64 31).low.toNat =
        (lnShiftU64 value.toUInt64 31).toNat := by
      rw [Accum.toNat, hhigh, UInt64.toNat_zero, zero_mul, zero_add]
    have hspec := toNat_lnSqrtNearest64 (lnShiftU64 value.toUInt64 31).low
    rw [hlow] at hspec
    simp only [if_pos hhigh]
    rw [toInt64_eq_ofInt (by omega), hspec]
  · have hspec := toNat_sqrtPairs_nearest hsmall
    simp only [if_neg hhigh]
    rw [toInt64_eq_ofInt (by omega), hspec]

/-- The radicand as a natural number. -/
theorem radicand_eq {value : Int64} (hvalue : 0 ≤ value.toInt) :
    (value.toInt * 2 ^ 31 : ℝ) = ((value.toInt.toNat * 2 ^ 31 : ℕ) : ℝ) := by
  have hcast : ((value.toInt.toNat : ℤ) : ℝ) = value.toInt := by
    rw [Int.toNat_of_nonneg hvalue]
  push_cast
  rw [← hcast]
  norm_num

/-- The root is representable. -/
theorem toInt_root {value : Int64} (hvalue : 0 ≤ value.toInt) :
    (Int64.ofInt (roundAway (Real.sqrt (value.toInt * 2 ^ 31)))).toInt =
      roundAway (Real.sqrt (value.toInt * 2 ^ 31)) := by
  have hlt := value.toInt_lt
  have hfloor : Nat.sqrt (value.toInt.toNat * 2 ^ 31) < 2 ^ 47 := by
    rw [Nat.sqrt_lt]
    omega
  apply toInt_ofInt_of_fits
  rw [radicand_eq hvalue, roundAway_sqrt]
  constructor <;> split <;> omega

end Xhive.Linears
