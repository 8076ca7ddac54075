import Xhive.Support.Words
import Mathlib.Data.Nat.Size
import Mathlib.Tactic.Ring
import Mathlib.Tactic.Linarith

/-!
# Division by a divisor that is shifted down

The divisor starts aligned with the numerator and loses one bit a round; it is
subtracted whenever it goes.  The loop is stated over any type of unsigned
numbers that compares, subtracts and halves.
-/

namespace Xhive.Support

/-- A type of unsigned numbers: what it stands for and what the loop does to it. -/
structure Unsigned (W : Type) where
  toNat : W → ℕ
  /-- `a < b`. -/
  less : W → W → Bool
  sub : W → W → W
  half : W → W

/-- The operations are exact on the numbers below `bound`. -/
structure Unsigned.Exact {W : Type} (U : Unsigned W) : Prop where
  less_iff : ∀ a b, U.less a b = true ↔ U.toNat a < U.toNat b
  toNat_sub : ∀ a b, U.toNat b ≤ U.toNat a → U.toNat (U.sub a b) = U.toNat a - U.toNat b
  toNat_half : ∀ a, U.toNat (U.half a) = U.toNat a / 2

/-- What the loop carries from round to round. -/
structure Division (W : Type) where
  remainder : W
  divisor : W
  quotient : UInt64

section Loop

variable {W : Type}

/-- The round of bit `k`: subtract the divisor if it goes. -/
def Unsigned.divideRound (U : Unsigned W) (k : ℕ) (s : Division W) : Division W :=
  if U.less s.remainder s.divisor then s
  else
    { s with
      remainder := U.sub s.remainder s.divisor
      quotient := s.quotient ||| (1 <<< UInt64.ofNat k) }

/-- The rounds from bit `k` down to bit zero; the divisor is halved between them. -/
def Unsigned.divideFrom (U : Unsigned W) : ℕ → Division W → Division W
  | 0, s => U.divideRound 0 s
  | k + 1, s =>
      let t := U.divideRound (k + 1) s
      U.divideFrom k { t with divisor := U.half t.divisor }

/-- Before the round of bit `k` the divisor is `d` shifted by `k`, the remainder
is below its double, and the quotient has no bit below `k + 1`. -/
structure Unsigned.Dividing (U : Unsigned W) (d k : ℕ) (s : Division W) : Prop where
  divisor : U.toNat s.divisor = d * 2 ^ k
  remainder : U.toNat s.remainder < d * 2 ^ (k + 1)
  quotient : ∃ high, s.quotient.toNat = high * 2 ^ (k + 1)

/-- Quotient and remainder are unique, also when part of the quotient is known. -/
theorem divMod_of_eq {d q r a b : ℕ} (hr : r < d) (h : q * d + r = a * d + b) :
    q = a + b / d ∧ r = b % d := by
  have hd : 0 < d := by omega
  constructor
  · have hdiv := congrArg (· / d) h
    rwa [Nat.mul_comm q, Nat.mul_comm a, Nat.mul_add_div hd, Nat.mul_add_div hd,
      Nat.div_eq_of_lt hr, Nat.add_zero] at hdiv
  · have hmod := congrArg (· % d) h
    rwa [Nat.mul_comm q, Nat.mul_comm a, Nat.mul_add_mod, Nat.mul_add_mod,
      Nat.mod_eq_of_lt hr] at hmod

namespace Unsigned.Exact

variable {U : Unsigned W} {d k : ℕ} {s : Division W}

/-- One round keeps the number that quotient and remainder stand for. -/
theorem divideRound_spec (hU : U.Exact) (h : U.Dividing d k s) (hk : k < 64) :
    let t := U.divideRound k s
    t.divisor = s.divisor ∧ U.toNat t.remainder < d * 2 ^ k ∧
      (∃ high, t.quotient.toNat = high * 2 ^ k) ∧
      t.quotient.toNat * d + U.toNat t.remainder = s.quotient.toNat * d + U.toNat s.remainder := by
  obtain ⟨high, hhigh⟩ := h.quotient
  have hdouble : d * 2 ^ (k + 1) = 2 * (d * 2 ^ k) := by ring
  have hrem := h.remainder
  rw [hdouble] at hrem
  dsimp only
  rw [Unsigned.divideRound]
  by_cases hless : U.less s.remainder s.divisor = true
  · rw [if_pos hless]
    rw [hU.less_iff, h.divisor] at hless
    refine ⟨rfl, hless, ⟨2 * high, ?_⟩, rfl⟩
    rw [hhigh]
    ring
  · rw [if_neg hless]
    rw [hU.less_iff, h.divisor, not_lt] at hless
    have hsub := hU.toNat_sub s.remainder s.divisor (by rw [h.divisor]; exact hless)
    have hor := toNat_or_bit hk hhigh
    rw [h.divisor] at hsub
    refine ⟨rfl, ?_, ⟨2 * high + 1, ?_⟩, ?_⟩
    · dsimp only
      omega
    · rw [hor, hhigh]
      ring
    · rw [hor, hsub, Nat.add_mul, Nat.mul_comm (2 ^ k)]
      omega

/-- The loop leaves quotient and remainder of the number it started from. -/
theorem divideFrom_spec (hU : U.Exact) (hk : k < 64) (h : U.Dividing d k s) :
    (U.divideFrom k s).quotient.toNat = s.quotient.toNat + U.toNat s.remainder / d ∧
      U.toNat (U.divideFrom k s).remainder = U.toNat s.remainder % d := by
  induction k generalizing s with
  | zero =>
      obtain ⟨-, hlt, -, heq⟩ := hU.divideRound_spec h hk
      rw [pow_zero, Nat.mul_one] at hlt
      exact divMod_of_eq hlt heq
  | succ k ih =>
      obtain ⟨hdivisor, hlt, hbits, heq⟩ := hU.divideRound_spec h hk
      have hhalf : U.toNat (U.half (U.divideRound (k + 1) s).divisor) = d * 2 ^ k := by
        rw [hU.toNat_half, hdivisor, h.divisor, pow_succ, ← Nat.mul_assoc,
          Nat.mul_div_cancel _ (by norm_num)]
      obtain ⟨hquotient, hremainder⟩ := ih (by omega) (s := { U.divideRound (k + 1) s with
        divisor := U.half (U.divideRound (k + 1) s).divisor }) ⟨hhalf, hlt, hbits⟩
      dsimp only at hquotient hremainder
      have hd : 0 < d := Nat.pos_of_mul_pos_right (lt_of_le_of_lt (Nat.zero_le _) hlt)
      refine divMod_of_eq ?_ ?_
      · rw [Unsigned.divideFrom, hremainder]
        exact Nat.mod_lt _ hd
      · rw [Unsigned.divideFrom, hquotient, hremainder, Nat.add_mul, ← heq, Nat.add_assoc,
          Nat.mul_comm (_ / d), Nat.div_add_mod]

/-- The loop divides from the aligned divisor when the quotient fits one word;
rounds above it do nothing. -/
theorem divideFrom_fits (hU : U.Exact) (hdivisor : U.toNat s.divisor = d * 2 ^ k)
    (hquotient : s.quotient = 0) (hremainder : U.toNat s.remainder < d * 2 ^ (k + 1))
    (hfits : U.toNat s.remainder < d * 2 ^ 64) :
    (U.divideFrom k s).quotient.toNat = U.toNat s.remainder / d ∧
      U.toNat (U.divideFrom k s).remainder = U.toNat s.remainder % d := by
  have hzero : s.quotient.toNat = 0 := by rw [hquotient, UInt64.toNat_zero]
  induction k generalizing s with
  | zero =>
      have hspec := hU.divideFrom_spec (by norm_num)
        (⟨hdivisor, hremainder, 0, by omega⟩ : U.Dividing d 0 s)
      rwa [hzero, Nat.zero_add] at hspec
  | succ k ih =>
      by_cases hk : k + 1 < 64
      · have hspec := hU.divideFrom_spec hk
          (⟨hdivisor, hremainder, 0, by omega⟩ : U.Dividing d (k + 1) s)
        rwa [hzero, Nat.zero_add] at hspec
      · have hless : U.toNat s.remainder < d * 2 ^ (k + 1) :=
          hfits.trans_le (Nat.mul_le_mul_left d (Nat.pow_le_pow_right (by norm_num) (by omega)))
        have hskip : U.divideRound (k + 1) s = s := by
          rw [Unsigned.divideRound, if_pos ((hU.less_iff _ _).mpr (hdivisor.symm ▸ hless))]
        have hhalf : U.toNat (U.half s.divisor) = d * 2 ^ k := by
          rw [hU.toNat_half, hdivisor, pow_succ, ← Nat.mul_assoc,
            Nat.mul_div_cancel _ (by norm_num)]
        rw [Unsigned.divideFrom, hskip]
        exact ih (s := { s with divisor := U.half s.divisor }) hhalf hquotient hless hfits hzero

end Unsigned.Exact

end Loop

/-- A divisor aligned with the numerator does not reach beyond it, and its
double does. -/
theorem aligned_bounds {n d : ℕ} (hd : 0 < d) (hle : d ≤ n) :
    d * 2 ^ (n.size - d.size) < 2 ^ n.size ∧ n < d * 2 ^ (n.size - d.size + 1) := by
  have hsize : d.size ≤ n.size := Nat.size_le_size hle
  obtain ⟨k, hk⟩ := Nat.exists_eq_succ_of_ne_zero (Nat.size_pos.mpr hd).ne'
  have hlow : 2 ^ k ≤ d := Nat.lt_size.mp (by omega)
  have hsum : n.size = k + (n.size - d.size + 1) := by omega
  constructor
  · calc d * 2 ^ (n.size - d.size) < 2 ^ d.size * 2 ^ (n.size - d.size) :=
        Nat.mul_lt_mul_of_pos_right (Nat.lt_size_self d) (Nat.two_pow_pos _)
      _ = 2 ^ n.size := by rw [← pow_add, Nat.add_sub_cancel' hsize]
  · calc n < 2 ^ n.size := Nat.lt_size_self n
      _ = 2 ^ k * 2 ^ (n.size - d.size + 1) := by
        rw [← pow_add]
        exact congrArg (2 ^ ·) hsum
      _ ≤ d * 2 ^ (n.size - d.size + 1) := Nat.mul_le_mul_right _ hlow

end Xhive.Support

/-!
## Quotients from an estimate

Two ways to a quotient over a base `B`: a digit from the leading digits with
corrections, and a word from a product with a reciprocal.  Both are about
natural numbers; a machine version only has to keep its words in range.
-/

namespace Xhive.Support

/-- The shift that brings the highest bit to the top of a word. -/
theorem normalized_bounds {w x : ℕ} (hpos : 0 < x) (hx : x < 2 ^ w) :
    w - x.size < w ∧ 2 ^ (w - 1) ≤ x * 2 ^ (w - x.size) ∧ x * 2 ^ (w - x.size) < 2 ^ w := by
  obtain ⟨k, hk⟩ := Nat.exists_eq_succ_of_ne_zero (Nat.size_pos.mpr hpos).ne'
  have hle : x.size ≤ w := Nat.size_le.mpr hx
  have hlow : 2 ^ k ≤ x := Nat.lt_size.mp (by omega)
  have hhigh := Nat.lt_size_self x
  refine ⟨by omega, ?_, ?_⟩
  · calc 2 ^ (w - 1) = 2 ^ k * 2 ^ (w - x.size) := by
          rw [← pow_add]
          congr 1
          omega
      _ ≤ x * 2 ^ (w - x.size) := Nat.mul_le_mul_right _ hlow
  · calc x * 2 ^ (w - x.size) < 2 ^ x.size * 2 ^ (w - x.size) :=
          Nat.mul_lt_mul_of_pos_right hhigh (Nat.two_pow_pos _)
      _ = 2 ^ w := by rw [← pow_add, Nat.add_sub_cancel' hle]

/-! ## A digit from the leading digits -/

section Digit

variable {B leading v1 v0 c q r : ℕ}

/-- An estimate of the digit of `leading * B + c` over `v1 * B + v0`: `r` is
what `q` leaves of the leading digits. -/
structure DigitEstimate (B leading v1 q r : ℕ) : Prop where
  splits : q * v1 + r = leading
  top : q ≤ B + 1

/-- The quotient of the leading digits is an estimate. -/
theorem DigitEstimate.start (hhalf : B ≤ 2 * v1) (hpos : 0 < v1)
    (hfits : leading < (v1 + 1) * B) :
    DigitEstimate B leading v1 (leading / v1) (leading % v1) where
  splits := by rw [Nat.mul_comm, Nat.div_add_mod]
  top := by
    rw [← Nat.lt_add_one_iff, Nat.div_lt_iff_lt_mul hpos]
    calc leading < (v1 + 1) * B := hfits
      _ ≤ (B + 1 + 1) * v1 := by linarith

/-- The quotient of the leading digits is not below the digit. -/
theorem digit_le_leading (hpos : 0 < v1) (hc : c < B) :
    (leading * B + c) / (v1 * B + v0) ≤ leading / v1 := by
  have hB : 0 < B := by omega
  calc (leading * B + c) / (v1 * B + v0) ≤ (leading * B + c) / (v1 * B) :=
        Nat.div_le_div_left (Nat.le_add_right _ _) (Nat.mul_pos hpos hB)
    _ = (leading * B + c) / B / v1 := by rw [Nat.mul_comm v1, Nat.div_div_eq_div_mul]
    _ = leading / v1 := by
      rw [Nat.mul_comm leading, Nat.mul_add_div hB, Nat.div_eq_of_lt hc, Nat.add_zero]

/-- The test on the second digit of the divisor is exact. -/
theorem DigitEstimate.overestimates_iff (h : DigitEstimate B leading v1 q r)
    (hpos : 0 < v1 * B + v0) :
    r * B + c < q * v0 ↔ (leading * B + c) / (v1 * B + v0) < q := by
  rw [Nat.div_lt_iff_lt_mul hpos, ← h.splits]
  constructor <;> intro hlt <;> nlinarith

/-- A correction that leaves a whole base reaches the digit. -/
theorem DigitEstimate.reached (h : DigitEstimate B leading v1 q r) (hpos : 0 < v1 * B + v0)
    (hv0 : v0 < B) (hq : q ≤ B) (hr : B ≤ r) :
    q ≤ (leading * B + c) / (v1 * B + v0) := by
  have hproduct : q * v0 ≤ r * B := Nat.mul_le_mul hq hv0.le |>.trans (Nat.mul_le_mul_right B hr)
  rw [Nat.le_div_iff_mul_le hpos, ← h.splits]
  nlinarith

/-- A correction. -/
theorem DigitEstimate.correct (h : DigitEstimate B leading v1 q r) (hq : 0 < q) :
    DigitEstimate B leading v1 (q - 1) (r + v1) where
  splits := by
    obtain ⟨k, rfl⟩ := Nat.exists_eq_succ_of_ne_zero hq.ne'
    rw [← h.splits, Nat.succ_sub_one, Nat.succ_mul]
    ring
  top := (Nat.sub_le _ _).trans h.top

end Digit

/-! ## A quotient from a reciprocal -/

section Reciprocal

variable {B v r n a b : ℕ}

/-- What the product with the reciprocal is, digit by digit. -/
theorem reciprocal_product (hB : 0 < B) (a b r : ℕ) :
    a + (a * r + b + b * r / B) / B = (a * B + b) * (B + r) / (B * B) := by
  have hexpand : (a * B + b) * (B + r) = B * B * a + (B * (a * r + b) + b * r) := by ring
  rw [hexpand, Nat.mul_add_div (Nat.mul_pos hB hB), ← Nat.div_div_eq_div_mul,
    Nat.mul_add_div hB]

/-- The estimate is not high and at most one low. -/
theorem reciprocal_estimate (hv : 0 < v) (hvB : v ≤ B) (hn : n < v * B)
    (hreciprocal : B + r = B * B / v) :
    n * (B + r) / (B * B) ≤ n / v ∧ n / v ≤ n * (B + r) / (B * B) + 1 := by
  have hB : 0 < B := by omega
  have hBB : 0 < B * B := Nat.mul_pos hB hB
  have hdiv := Nat.div_add_mod (B * B) v
  have hmod := Nat.mod_lt (B * B) hv
  rw [← hreciprocal] at hdiv
  have hquotient := Nat.div_add_mod (n * (B + r)) (B * B)
  have hrest := Nat.mod_lt (n * (B + r)) hBB
  generalize n * (B + r) / (B * B) = q at *
  generalize n * (B + r) % (B * B) = rest at *
  generalize B * B % v = left at *
  constructor
  · rw [Nat.le_div_iff_mul_le hv]
    refine Nat.le_of_mul_le_mul_right ?_ hBB
    calc q * v * (B * B) ≤ n * (B + r) * v := by
          rw [← hquotient]
          nlinarith
      _ = n * (v * (B + r)) := by ring
      _ ≤ n * (B * B) := Nat.mul_le_mul_left n (by omega)
  · rw [← Nat.lt_add_one_iff, Nat.div_lt_iff_lt_mul hv]
    refine Nat.lt_of_mul_lt_mul_right (a := B * B) ?_
    have hsmall : n * left ≤ B * B * v := by
      calc n * left ≤ v * B * v := Nat.mul_le_mul hn.le hmod.le
        _ ≤ B * B * v := Nat.mul_le_mul_right v (Nat.mul_le_mul_right B hvB)
    calc n * (B * B) = n * (B + r) * v + n * left := by
          rw [← hdiv]
          ring
      _ = (B * B * q + rest) * v + n * left := by rw [hquotient]
      _ < (B * B * q + B * B) * v + n * left := by
        have := Nat.mul_lt_mul_of_pos_right (Nat.add_lt_add_left hrest (B * B * q)) hv
        omega
      _ ≤ (B * B * q + B * B) * v + B * B * v := Nat.add_le_add_left hsmall _
      _ = (q + 1 + 1) * v * (B * B) := by ring

/-- The reciprocal without its leading one. -/
theorem reciprocal_rest (hv : 0 < v) (hvB : v ≤ B) :
    B + (B - v) * B / v = B * B / v := by
  have hsplit : B * B = v * B + (B - v) * B := by
    rw [← Nat.add_mul, Nat.add_sub_cancel' hvB]
  rw [hsplit, Nat.mul_add_div hv]

/-- An estimate that is at most one low, and what it leaves. -/
theorem quotient_or_next {q : ℕ} (hv : 0 < v) (hle : q ≤ n / v) (hnext : n / v ≤ q + 1) :
    q * v ≤ n ∧ ((n - q * v = n % v ∧ n / v = q) ∨ (n - q * v = n % v + v ∧ n / v = q + 1)) := by
  have hdiv := Nat.div_add_mod n v
  rw [Nat.mul_comm] at hdiv
  have hcases : n / v = q ∨ n / v = q + 1 := by omega
  obtain hq | hq := hcases
  · rw [hq] at hdiv
    omega
  · rw [hq, Nat.succ_mul] at hdiv
    omega

/-- The sum that carries into the estimate stays below two digits. -/
theorem reciprocal_sum_lt (hv : 2 ≤ v) (hvB : v ≤ B) (ha : a < v) (hb : b < B)
    (hr : r * v ≤ (B - v) * B) :
    a * r + b + b * r / B < B * B := by
  have hcarry : b * r / B ≤ r := by
    apply Nat.div_le_of_le_mul
    exact Nat.mul_le_mul_right r hb.le
  have hproduct : a * r + r ≤ (B - v) * B := by
    calc a * r + r = (a + 1) * r := by ring
      _ ≤ v * r := Nat.mul_le_mul_right r ha
      _ = r * v := Nat.mul_comm _ _
      _ ≤ (B - v) * B := hr
  have hroom : (B - v) * B + 2 * B ≤ B * B := by
    rw [← Nat.add_mul]
    exact Nat.mul_le_mul_right B (by omega)
  omega

end Reciprocal

end Xhive.Support
