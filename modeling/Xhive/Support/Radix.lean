import Mathlib.Algebra.BigOperators.Intervals
import Mathlib.Algebra.BigOperators.Ring.Finset
import Mathlib.Data.Nat.Bitwise
import Mathlib.Tactic.Ring
import Mathlib.Tactic.Linarith
import Mathlib.Algebra.Order.BigOperators.Group.Finset
import Mathlib.Data.Nat.Count
import Mathlib.Tactic.NormNum

/-!
# Numerals in a fixed radix

The number that a row of digits stands for, least significant digit first, and
what the digitwise operations of multi-limb arithmetic do to it.
-/

namespace Xhive.Support

open Finset

/-- The first `n` digits in radix `B`. -/
def digitSum (B n : ℕ) (digit : ℕ → ℕ) : ℕ :=
  ∑ i ∈ range n, digit i * B ^ i

variable {B n : ℕ} {digit : ℕ → ℕ}

@[simp] theorem digitSum_zero (B : ℕ) (digit : ℕ → ℕ) : digitSum B 0 digit = 0 := rfl

theorem digitSum_succ (B n : ℕ) (digit : ℕ → ℕ) :
    digitSum B (n + 1) digit = digitSum B n digit + digit n * B ^ n :=
  sum_range_succ _ n

theorem digitSum_congr {digit' : ℕ → ℕ} (h : ∀ i < n, digit i = digit' i) :
    digitSum B n digit = digitSum B n digit' := by
  apply sum_congr rfl
  intro i hi
  rw [h i (mem_range.mp hi)]

theorem digitSum_lt (h : ∀ i < n, digit i < B) : digitSum B n digit < B ^ n := by
  induction n with
  | zero => exact Nat.one_pos
  | succ n ih =>
      have hlow := ih fun i hi => h i (by omega)
      have htop : digit n * B ^ n ≤ (B - 1) * B ^ n :=
        Nat.mul_le_mul_right _ (by have := h n (by omega); omega)
      have hB : 0 < B := lt_of_le_of_lt (Nat.zero_le _) (h n (by omega))
      have hsplit : B ^ (n + 1) = (B - 1) * B ^ n + B ^ n := by
        rw [pow_succ, ← Nat.succ_mul, Nat.succ_eq_add_one, Nat.sub_add_cancel hB, Nat.mul_comm]
      rw [digitSum_succ, hsplit]
      omega

/-- The digits from position `k` on are the quotient. -/
theorem digitSum_add (B n k : ℕ) (digit : ℕ → ℕ) :
    digitSum B (k + n) digit =
      digitSum B k digit + B ^ k * digitSum B n fun i => digit (k + i) := by
  induction n with
  | zero => simp
  | succ n ih =>
      rw [← Nat.add_assoc, digitSum_succ, ih, digitSum_succ, pow_add]
      ring

theorem digitSum_div {k : ℕ} (h : ∀ i < k, digit i < B) :
    digitSum B (k + n) digit / B ^ k = digitSum B n fun i => digit (k + i) := by
  have hlow := digitSum_lt h
  rw [digitSum_add, Nat.add_mul_div_left _ _ (by omega), Nat.div_eq_of_lt hlow, Nat.zero_add]

/-- Each digit is read back; there is nothing above the last one. -/
theorem digitSum_digit (h : ∀ i < n, digit i < B) (hB : 0 < B) (i : ℕ) :
    digitSum B n digit / B ^ i % B = if i < n then digit i else 0 := by
  split
  · obtain ⟨m, rfl⟩ := Nat.exists_eq_add_of_lt ‹i < n›
    have hdiv : digitSum B (i + m + 1) digit / B ^ i =
        digitSum B (m + 1) fun k => digit (i + k) :=
      digitSum_div (n := m + 1) fun k hk => h k (by omega)
    have hone := digitSum_add B m 1 fun k => digit (i + k)
    rw [Nat.add_comm 1 m] at hone
    rw [hdiv, hone, digitSum_succ, digitSum_zero, pow_zero, pow_one, Nat.zero_add, Nat.mul_one,
      Nat.add_mul_mod_self_left, Nat.add_zero, Nat.mod_eq_of_lt (h i (by omega))]
  · have hpow : B ^ n ≤ B ^ i := Nat.pow_le_pow_right hB (by omega)
    rw [Nat.div_eq_of_lt ((digitSum_lt h).trans_le hpow), Nat.zero_mod]

/-- A sum of digits is zero when all of them are. -/
theorem digitSum_eq_zero_iff (hB : 0 < B) :
    digitSum B n digit = 0 ↔ ∀ i < n, digit i = 0 := by
  rw [digitSum, sum_eq_zero_iff]
  constructor
  · intro h i hi
    rcases Nat.mul_eq_zero.mp (h i (mem_range.mpr hi)) with hdigit | hpow
    · exact hdigit
    · exact absurd hpow (Nat.pow_pos hB).ne'
  · intro h i hi
    rw [h i (mem_range.mp hi), Nat.zero_mul]

/-- Two numerals that differ in one digit. -/
theorem digitSum_exchange {digit' : ℕ → ℕ} {k : ℕ} (hk : k < n)
    (h : ∀ i < n, i ≠ k → digit' i = digit i) :
    digitSum B n digit' + digit k * B ^ k = digitSum B n digit + digit' k * B ^ k := by
  have hmem : k ∈ range n := mem_range.mpr hk
  have hrest : ∑ i ∈ (range n).erase k, digit' i * B ^ i = ∑ i ∈ (range n).erase k, digit i * B ^ i := by
    apply sum_congr rfl
    intro i hi
    obtain ⟨hne, hi⟩ := mem_erase.mp hi
    rw [h i (mem_range.mp hi) hne]
  rw [digitSum, digitSum, ← add_sum_erase _ _ hmem, ← add_sum_erase (range n) _ hmem, hrest]
  ring

/-- The highest digit decides. -/
theorem digitSum_succ_lt {digit' : ℕ → ℕ} (h : ∀ i < n, digit i < B)
    (htop : digit n < digit' n) : digitSum B (n + 1) digit < digitSum B (n + 1) digit' := by
  have hlow := digitSum_lt h
  have hmul := Nat.mul_le_mul_right (B ^ n) (Nat.succ_le_of_lt htop)
  rw [Nat.succ_mul] at hmul
  rw [digitSum_succ, digitSum_succ]
  omega

/-! ## Shifting binary words -/

/-- A word of a shifted number is put together from two words. -/
theorem div_mod_of_words (x : ℕ) {width tail : ℕ} (htail : tail ≤ width) :
    x / 2 ^ tail % 2 ^ width =
      x % 2 ^ width / 2 ^ tail + x / 2 ^ width % 2 ^ tail * 2 ^ (width - tail) := by
  have hwidth : 2 ^ width = 2 ^ tail * 2 ^ (width - tail) := by
    rw [← pow_add, Nat.add_sub_cancel' htail]
  have hlow : x % 2 ^ width / 2 ^ tail = x / 2 ^ tail % 2 ^ (width - tail) := by
    rw [hwidth, Nat.mod_mul_right_div_self]
  have hhigh : x / 2 ^ width = x / 2 ^ tail / 2 ^ (width - tail) := by
    rw [Nat.div_div_eq_div_mul, ← hwidth]
  have hsplit : 2 ^ width = 2 ^ (width - tail) * 2 ^ tail := by
    rw [hwidth, Nat.mul_comm]
  rw [hlow, hhigh, hsplit, Nat.mod_mul, Nat.mul_comm (2 ^ (width - tail))]

/-- What a shift drops. -/
theorem mod_pow_add (x width tail : ℕ) :
    x % 2 ^ (width + tail) = x % 2 ^ width + 2 ^ width * (x / 2 ^ width % 2 ^ tail) := by
  rw [pow_add, Nat.mod_mul]

/-! ## Restoring division -/

/-- The next digit of the quotient is one exactly when the divisor goes into
the doubled remainder with the next bit brought down. -/
theorem div_mod_bit (a n : ℕ) {d : ℕ} (hd : 0 < d) :
    a / 2 ^ n / d = 2 * (a / 2 ^ (n + 1) / d) +
        (if d ≤ 2 * (a / 2 ^ (n + 1) % d) + a / 2 ^ n % 2 then 1 else 0) ∧
      a / 2 ^ n % d = 2 * (a / 2 ^ (n + 1) % d) + a / 2 ^ n % 2 -
        (if d ≤ 2 * (a / 2 ^ (n + 1) % d) + a / 2 ^ n % 2 then d else 0) := by
  have hhalf : a / 2 ^ (n + 1) = a / 2 ^ n / 2 := by
    rw [pow_succ, Nat.div_div_eq_div_mul]
  have hbit := Nat.div_add_mod (a / 2 ^ n) 2
  have hrest := Nat.div_add_mod (a / 2 ^ n / 2) d
  have hlt := Nat.mod_lt (a / 2 ^ n / 2) hd
  rw [hhalf]
  generalize a / 2 ^ n / 2 / d = quotient at *
  generalize a / 2 ^ n / 2 % d = rest at *
  generalize a / 2 ^ n % 2 = bit at *
  have hvalue : a / 2 ^ n = d * (2 * quotient) + (2 * rest + bit) := by
    rw [← hbit, ← hrest]
    ring
  have hbound : bit < 2 := by
    have := Nat.mod_lt (a / 2 ^ n) (by decide : 0 < 2)
    omega
  rw [hvalue, Nat.mul_add_div hd, Nat.mul_add_mod]
  split
  · have hone : (2 * rest + bit) / d = 1 := Nat.div_eq_of_lt_le (by omega) (by omega)
    rw [hone, Nat.mod_eq_sub_mod ‹_›, Nat.mod_eq_of_lt (by omega)]
    exact ⟨rfl, rfl⟩
  · rw [Nat.div_eq_of_lt (by omega), Nat.mod_eq_of_lt (by omega)]
    exact ⟨rfl, rfl⟩

end Xhive.Support

/-!
## Lanes of a word

A word is read as a row of lanes of one width, and a mask that repeats one
pattern acts on each lane alone.  Sums and differences act on each lane when no
lane overflows.
-/

namespace Xhive.Support

/-- The lane at place `i`. -/
def lane (k x i : ℕ) : ℕ :=
  x / 2 ^ (k * i) % 2 ^ k

theorem lane_lt (k x i : ℕ) : lane k x i < 2 ^ k :=
  Nat.mod_lt _ (Nat.two_pow_pos k)

theorem testBit_lane {k j : ℕ} (x i : ℕ) (hj : j < k) :
    (lane k x i).testBit j = x.testBit (k * i + j) := by
  rw [lane, Nat.testBit_mod_two_pow, Nat.testBit_div_two_pow, decide_eq_true hj, Bool.true_and,
    Nat.add_comm]

theorem digitSum_lane_mod (k n x : ℕ) : digitSum (2 ^ k) n (lane k x) = x % 2 ^ (k * n) := by
  induction n with
  | zero => simp [Nat.mod_one]
  | succ n ih =>
      rw [digitSum_succ, ih, lane, ← pow_mul, Nat.mul_succ, pow_add, Nat.mod_mul,
        Nat.mul_comm (2 ^ (k * n))]

/-- A word is the sum of its lanes. -/
theorem digitSum_lane {k n x : ℕ} (h : x < 2 ^ (k * n)) : digitSum (2 ^ k) n (lane k x) = x := by
  rw [digitSum_lane_mod, Nat.mod_eq_of_lt h]

theorem lane_digitSum {k n : ℕ} {digit : ℕ → ℕ} (h : ∀ i < n, digit i < 2 ^ k) (i : ℕ) :
    lane k (digitSum (2 ^ k) n digit) i = if i < n then digit i else 0 := by
  rw [lane, pow_mul, digitSum_digit h (Nat.two_pow_pos k)]

/-- Words are equal when their lanes are. -/
theorem eq_of_lane {k n x y : ℕ} (hx : x < 2 ^ (k * n)) (hy : y < 2 ^ (k * n))
    (h : ∀ i < n, lane k x i = lane k y i) : x = y := by
  rw [← digitSum_lane hx, ← digitSum_lane hy]
  exact digitSum_congr h

theorem lt_of_testBit {m j k : ℕ} (hbit : m.testBit j = true) (hm : m < 2 ^ k) : j < k := by
  by_contra hle
  rw [Nat.testBit_eq_false_of_lt (hm.trans_le (Nat.pow_le_pow_right (by norm_num) (not_lt.mp hle)))]
    at hbit
  exact absurd hbit (by decide)

/-- A repeated mask, after a shift that stays in the lanes, acts on each lane. -/
theorem shiftRight_and_mask {k s m : ℕ} (n x : ℕ) (hm : m * 2 ^ s < 2 ^ k) :
    (x >>> s) &&& digitSum (2 ^ k) n (fun _ => m) =
      digitSum (2 ^ k) n fun i => (lane k x i >>> s) &&& m := by
  have hmask : m < 2 ^ k := (Nat.le_mul_of_pos_right m (Nat.two_pow_pos s)).trans_lt hm
  have hdigit : ∀ i < n, (lane k x i >>> s) &&& m < 2 ^ k :=
    fun i _ => Nat.and_le_right.trans_lt hmask
  have hwhole := digitSum_lt fun i (_ : i < n) => hmask
  have hsum := digitSum_lt hdigit
  rw [← pow_mul] at hwhole hsum
  refine eq_of_lane (Nat.and_le_right.trans_lt hwhole) hsum fun i hi => ?_
  rw [lane_digitSum hdigit, if_pos hi]
  apply Nat.eq_of_testBit_eq
  intro j
  by_cases hj : j < k
  · have hbit : (digitSum (2 ^ k) n fun _ => m).testBit (k * i + j) = m.testBit j := by
      rw [← testBit_lane _ i hj, lane_digitSum (fun _ _ => hmask), if_pos hi]
    rw [testBit_lane _ i hj, Nat.testBit_and, Nat.testBit_and, Nat.testBit_shiftRight,
      Nat.testBit_shiftRight, hbit]
    cases hset : m.testBit j with
    | false => simp
    | true =>
        -- the shifted pattern stays in the lane
        have hshifted : (m * 2 ^ s).testBit (s + j) = true := by
          rw [Nat.testBit_mul_two_pow, Nat.add_sub_cancel_left, hset]
          simp
        rw [testBit_lane _ i (lt_of_testBit hshifted hm)]
        congr 2
        omega
  · have hle : 2 ^ k ≤ 2 ^ j := Nat.pow_le_pow_right (by norm_num) (not_lt.mp hj)
    rw [Nat.testBit_eq_false_of_lt ((lane_lt k _ i).trans_le hle),
      Nat.testBit_eq_false_of_lt ((hdigit i hi).trans_le hle)]

/-! ## Arithmetic on lanes -/

variable {B n : ℕ} {f g : ℕ → ℕ}

theorem digitSum_add_digits (B n : ℕ) (f g : ℕ → ℕ) :
    digitSum B n f + digitSum B n g = digitSum B n fun i => f i + g i := by
  rw [digitSum, digitSum, digitSum, ← Finset.sum_add_distrib]
  exact Finset.sum_congr rfl fun i _ => (Nat.add_mul _ _ _).symm

theorem digitSum_sub_digits (h : ∀ i < n, g i ≤ f i) :
    digitSum B n f - digitSum B n g = digitSum B n fun i => f i - g i := by
  rw [Nat.sub_eq_iff_eq_add]
  · rw [digitSum_add_digits]
    exact digitSum_congr fun i hi => (Nat.sub_add_cancel (h i hi)).symm
  · exact Finset.sum_le_sum fun i hi =>
      Nat.mul_le_mul_right _ (h i (Finset.mem_range.mp hi))

/-- A lane of twice the width is a pair of lanes. -/
theorem lane_even (k x i : ℕ) : lane k x (2 * i) = lane (2 * k) x i % 2 ^ k := by
  rw [lane, lane, Nat.mod_mod_of_dvd _ (pow_dvd_pow 2 (by omega))]
  congr 3
  ring

theorem lane_odd (k x i : ℕ) : lane k x (2 * i + 1) = lane (2 * k) x i / 2 ^ k := by
  rw [lane, lane, two_mul k, pow_add 2 k k, Nat.mod_mul_right_div_self, Nat.div_div_eq_div_mul,
    ← pow_add]
  congr 3
  ring

/-- Neighbouring lanes, added where no sum overflows. -/
theorem lane_add_shift {k x : ℕ} (hx : x < 2 ^ (k * n))
    (h : ∀ i, lane k x i + lane k x (i + 1) < 2 ^ k) {i : ℕ} (hi : i < n) :
    lane k (x + x >>> k) i = lane k x i + lane k x (i + 1) := by
  have hshift : ∀ i, lane k (x >>> k) i = lane k x (i + 1) := by
    intro i
    rw [lane, lane, Nat.shiftRight_eq_div_pow, Nat.div_div_eq_div_mul, ← pow_add]
    congr 3
    ring
  have hlow : x >>> k < 2 ^ (k * n) := (Nat.shiftRight_le x k).trans_lt hx
  have hsum : x + x >>> k = digitSum (2 ^ k) n fun i => lane k x i + lane k x (i + 1) := by
    calc x + x >>> k = digitSum (2 ^ k) n (lane k x) + digitSum (2 ^ k) n (lane k (x >>> k)) := by
          rw [digitSum_lane hx, digitSum_lane hlow]
      _ = digitSum (2 ^ k) n fun i => lane k x i + lane k x (i + 1) := by
          rw [digitSum_add_digits]
          exact digitSum_congr fun i _ => by rw [hshift]
  rw [hsum, lane_digitSum fun i _ => h i, if_pos hi]

/-! ## Set bits -/

theorem count_congr {p q : ℕ → Prop} [DecidablePred p] [DecidablePred q] {n : ℕ}
    (h : ∀ i < n, p i ↔ q i) : Nat.count p n = Nat.count q n := by
  rw [Nat.count_eq_card_filter_range, Nat.count_eq_card_filter_range]
  congr 1
  exact Finset.filter_congr fun i hi => h i (Finset.mem_range.mp hi)

/-- The set bits of a word are those of its lanes. -/
theorem count_lanes (k n x : ℕ) :
    Nat.count (fun i => x.testBit i = true) (k * n) =
      ∑ i ∈ Finset.range n, Nat.count (fun j => (lane k x i).testBit j = true) k := by
  induction n with
  | zero => rfl
  | succ n ih =>
      rw [Nat.mul_succ, Nat.count_add, ih, Finset.sum_range_succ]
      congr 1
      exact count_congr fun j hj => by rw [testBit_lane x n hj]

/-! ## Products -/

section Products

open Finset

/-- The column of a product of two rows of `n` digits. -/
def columnSum (n : ℕ) (f g : ℕ → ℕ) (k : ℕ) : ℕ :=
  ∑ i ∈ Ico (k + 1 - n) (min (k + 1) n), f i * g (k - i)

theorem columnSum_le {B n : ℕ} {f g : ℕ → ℕ} (hf : ∀ i < n, f i < B) (hg : ∀ i < n, g i < B)
    (k : ℕ) : columnSum n f g k ≤ n * ((B - 1) * (B - 1)) := by
  have hterm : ∀ i ∈ Ico (k + 1 - n) (min (k + 1) n), f i * g (k - i) ≤ (B - 1) * (B - 1) := by
    intro i hi
    rw [mem_Ico] at hi
    have hfi := hf i (by omega)
    have hgi := hg (k - i) (by omega)
    exact Nat.mul_le_mul (by omega) (by omega)
  calc columnSum n f g k ≤ (Ico (k + 1 - n) (min (k + 1) n)).card • ((B - 1) * (B - 1)) :=
        sum_le_card_nsmul _ _ _ hterm
    _ = (min (k + 1) n - (k + 1 - n)) * ((B - 1) * (B - 1)) := by
        rw [Nat.card_Ico]
        rfl
    _ ≤ n * ((B - 1) * (B - 1)) := Nat.mul_le_mul_right _ (by omega)

/-- A product of numerals, column by column. -/
theorem digitSum_mul (B n : ℕ) (f g : ℕ → ℕ) :
    digitSum B n f * digitSum B n g = ∑ k ∈ range (n * 2 - 1), columnSum n f g k * B ^ k := by
  have hcolumns : ∀ k, columnSum n f g k * B ^ k =
      ∑ p ∈ (range n ×ˢ range n).filter (fun p => p.1 + p.2 = k),
        f p.1 * B ^ p.1 * (g p.2 * B ^ p.2) := by
    intro k
    rw [columnSum, sum_mul]
    refine sum_bij' (fun i _ => (i, k - i)) (fun p _ => p.1) ?_ ?_ ?_ ?_ ?_
    · intro i hi
      simp only [mem_Ico] at hi
      simp only [mem_filter, mem_product, mem_range]
      omega
    · intro p hp
      simp only [mem_filter, mem_product, mem_range] at hp
      simp only [mem_Ico]
      omega
    · intro i _
      rfl
    · intro p hp
      simp only [mem_filter, mem_product, mem_range] at hp
      ext
      · rfl
      · show k - p.1 = p.2
        omega
    · intro i hi
      simp only [mem_Ico] at hi
      have hk : B ^ k = B ^ i * B ^ (k - i) := by
        rw [← pow_add]
        congr 1
        omega
      rw [hk]
      ring
  rw [sum_congr rfl fun k _ => hcolumns k, digitSum, digitSum, sum_mul_sum, ← sum_product']
  symm
  apply sum_fiberwise_of_maps_to
  intro p hp
  simp only [mem_product, mem_range] at hp ⊢
  omega

end Products

end Xhive.Support
