import Xhive.MicroEcc.Residues
import Mathlib.Data.Int.ModEq
import Mathlib.Tactic.LinearCombination

/-!
# Reductions by the primes of the curves

The functions of `curve-specific.inc` for words of 64 bits.  Each adds and
subtracts rearranged halves of the upper words and then corrects the sum by the
prime until it is a residue; the correcting loops are bounded by fuel.
-/

namespace Xhive.MicroEcc

open Xhive.Support

variable {w n : ℕ}

/-- Words stored one after the other. -/
def Vli.fill (vli : Vli w) : ℕ → List (BitVec w) → Vli w
  | _, [] => vli
  | base, x :: words => Vli.fill (Function.update vli base x) (base + 1) words

/-- A sum in place whose carry is counted. -/
def addCounted (n : ℕ) (s : Vli w × ℤ) (tmp : Vli w) : Vli w × ℤ :=
  let r := vliAdd n s.1 s.1 tmp
  (r.1, s.2 + r.2.toNat)

/-- A difference in place whose borrow is counted. -/
def subCounted (n : ℕ) (s : Vli w × ℤ) (tmp : Vli w) : Vli w × ℤ :=
  let r := vliSub n s.1 s.1 tmp
  (r.1, s.2 - r.2.toNat)

/-- `do carry += uECC_vli_add(result, result, p) while (carry < 0)`. -/
def addUntil (n : ℕ) (p : Vli w) : ℕ → Vli w × ℤ → Option (Vli w)
  | 0, _ => none
  | fuel + 1, s =>
    let s := addCounted n s p
    if s.2 < 0 then addUntil n p fuel s else some s.1

/-- `while (carry || uECC_vli_cmp_unsafe(p, result) != 1)
carry -= uECC_vli_sub(result, result, p)`. -/
def subWhile (n : ℕ) (p : Vli w) : ℕ → Vli w × ℤ → Option (Vli w)
  | fuel, s =>
    if s.2 ≠ 0 ∨ vliCmpUnsafe p s.1 n ≠ 1 then
      match fuel with
      | 0 => none
      | fuel + 1 => subWhile n p fuel (subCounted n s p)
    else some s.1

/-- `while (uECC_vli_cmp_unsafe(p, result) != 1) uECC_vli_sub(result, result, p)`. -/
def subUncounted (n : ℕ) (p : Vli w) : ℕ → Vli w → Option (Vli w)
  | fuel, result =>
    if vliCmpUnsafe p result n ≠ 1 then
      match fuel with
      | 0 => none
      | fuel + 1 => subUncounted n p fuel (vliSub n result result p).1
    else some result

/-! ## The NIST primes -/

/-- `curve_secp192r1.p`. -/
def secp192r1 : Vli 64 :=
  Vli.fill (fun _ => 0) 0 [0xffffffffffffffff, 0xfffffffffffffffe, 0xffffffffffffffff]

/-- `vli_mmod_fast_secp192r1`. -/
def vliMmodFastSecp192r1 (fuel : ℕ) (result product tmp : Vli 64) : Option (Vli 64) :=
  let result := vliSet 3 result product
  let tmp := vliSet 3 tmp (product.drop 3)
  let s := addCounted 3 (result, 0) tmp
  let tmp := tmp.fill 0 [0, product 3, product 4]
  let s := addCounted 3 s tmp
  let tmp := tmp.fill 0 [product 5, product 5, 0]
  let s := addCounted 3 s tmp
  subWhile 3 secp192r1 fuel s

/-- `curve_secp224r1.p`. -/
def secp224r1 : Vli 64 :=
  Vli.fill (fun _ => 0) 0
    [0x0000000000000001, 0xffffffff00000000, 0xffffffffffffffff, 0x00000000ffffffff]

/-- `vli_mmod_fast_secp224r1`. -/
def vliMmodFastSecp224r1 (fuel : ℕ) (result product tmp : Vli 64) : Option (Vli 64) :=
  -- t
  let result := vliSet 4 result product
  let result := Function.update result 3 (result 3 &&& 0xffffffff)
  -- s1
  let tmp := tmp.fill 0
    [0, product 3 &&& 0xffffffff00000000, product 4, product 5 &&& 0xffffffff]
  let result := (vliAdd 4 result result tmp).1
  -- s2
  let tmp := tmp.fill 1 [product 5 &&& 0xffffffff00000000, product 6, 0]
  let result := (vliAdd 4 result result tmp).1
  -- d1
  let tmp := tmp.fill 0
    [product 3 >>> 32 ||| product 4 <<< 32, product 4 >>> 32 ||| product 5 <<< 32,
      product 5 >>> 32 ||| product 6 <<< 32, product 6 >>> 32]
  let s := subCounted 4 (result, 0) tmp
  -- d2
  let tmp := tmp.fill 0 [product 5 >>> 32 ||| product 6 <<< 32, product 6 >>> 32, 0, 0]
  let s := subCounted 4 s tmp
  if s.2 < 0 then addUntil 4 secp224r1 fuel s else subUncounted 4 secp224r1 fuel s.1

/-- `curve_secp256r1.p`. -/
def secp256r1 : Vli 64 :=
  Vli.fill (fun _ => 0) 0
    [0xffffffffffffffff, 0x00000000ffffffff, 0x0000000000000000, 0xffffffff00000001]

/-- `vli_mmod_fast_secp256r1`. -/
def vliMmodFastSecp256r1 (fuel : ℕ) (result product tmp : Vli 64) : Option (Vli 64) :=
  -- t
  let result := vliSet 4 result product
  -- s1
  let tmp := tmp.fill 0 [0, product 5 &&& 0xffffffff00000000, product 6, product 7]
  let double := vliAdd 4 tmp tmp tmp
  let s := addCounted 4 (result, double.2.toNat) double.1
  -- s2
  let tmp := double.1.fill 1
    [product 6 <<< 32, product 6 >>> 32 ||| product 7 <<< 32, product 7 >>> 32]
  let double := vliAdd 4 tmp tmp tmp
  let s := addCounted 4 (s.1, s.2 + double.2.toNat) double.1
  -- s3
  let tmp := double.1.fill 0 [product 4, product 5 &&& 0xffffffff, 0, product 7]
  let s := addCounted 4 s tmp
  -- s4
  let tmp := tmp.fill 0
    [product 4 >>> 32 ||| product 5 <<< 32,
      product 5 >>> 32 ||| (product 6 &&& (0xffffffff00000000 : BitVec 64)), product 7,
      product 6 >>> 32 ||| product 4 <<< 32]
  let s := addCounted 4 s tmp
  -- d1
  let tmp := tmp.fill 0
    [product 5 >>> 32 ||| product 6 <<< 32, product 6 >>> 32, 0,
      (product 4 &&& (0xffffffff : BitVec 64)) ||| product 5 <<< 32]
  let s := subCounted 4 s tmp
  -- d2
  let tmp := tmp.fill 0
    [product 6, product 7, 0,
      product 4 >>> 32 ||| (product 5 &&& (0xffffffff00000000 : BitVec 64))]
  let s := subCounted 4 s tmp
  -- d3
  let tmp := tmp.fill 0
    [product 6 >>> 32 ||| product 7 <<< 32, product 7 >>> 32 ||| product 4 <<< 32,
      product 4 >>> 32 ||| product 5 <<< 32, product 6 <<< 32]
  let s := subCounted 4 s tmp
  -- d4
  let tmp := tmp.fill 0
    [product 7, product 4 &&& 0xffffffff00000000, product 5, product 6 &&& 0xffffffff00000000]
  let s := subCounted 4 s tmp
  if s.2 < 0 then addUntil 4 secp256r1 fuel s else subWhile 4 secp256r1 fuel s

/-! ## Counted sums -/

/-- What the words and the counted carries stand for. -/
def total (n : ℕ) (s : Vli w × ℤ) : ℤ := s.2 * (2 ^ w) ^ n + value n s.1

theorem addCounted_total (hw : 0 < w) (s : Vli w × ℤ) (tmp : Vli w) :
    total n (addCounted n s tmp) = total n s + value n tmp := by
  have h := (vliAdd_spec hw n s.1 s.1 tmp).sum
  have hcast : (value n (vliAdd n s.1 s.1 tmp).1 : ℤ) +
      (2 ^ w) ^ n * ((vliAdd n s.1 s.1 tmp).2.toNat : ℤ) = value n s.1 + value n tmp := by
    exact_mod_cast h
  rw [total, total, addCounted]
  linear_combination hcast

theorem subCounted_total (hw : 0 < w) (s : Vli w × ℤ) (tmp : Vli w) :
    total n (subCounted n s tmp) = total n s - value n tmp := by
  have h := (vliSub_spec hw n s.1 s.1 tmp).sum
  have hcast : (value n (vliSub n s.1 s.1 tmp).1 : ℤ) + value n tmp =
      value n s.1 + (2 ^ w) ^ n * ((vliSub n s.1 s.1 tmp).2.toNat : ℤ) := by
    exact_mod_cast h
  rw [total, total, subCounted]
  linear_combination hcast

/-- The sign of the total is the one of the counted carries. -/
theorem total_neg_iff (s : Vli w × ℤ) : total n s < 0 ↔ s.2 < 0 := by
  have hlt : (value n s.1 : ℤ) < (2 ^ w) ^ n := by exact_mod_cast value_lt n s.1
  have hpos : (0 : ℤ) ≤ value n s.1 := Int.natCast_nonneg _
  rw [total]
  constructor
  · intro h
    by_contra hge
    have hmul : 0 ≤ s.2 * (2 ^ w) ^ n := Int.mul_nonneg (not_lt.mp hge) (hpos.trans hlt.le)
    omega
  · intro h
    have hmul : s.2 * (2 ^ w) ^ n ≤ -1 * (2 ^ w) ^ n :=
      Int.mul_le_mul_of_nonneg_right (by omega) (hpos.trans hlt.le)
    omega

/-- A total that fits into the words has no carry left. -/
theorem carry_eq_zero {s : Vli w × ℤ} (hpos : 0 ≤ total n s) (hlt : total n s < (2 ^ w) ^ n) :
    s.2 = 0 := by
  have hge : 0 ≤ s.2 := not_lt.mp fun h => not_lt.mpr hpos ((total_neg_iff s).mpr h)
  by_contra hne
  have hmul : 1 * (2 ^ w) ^ n ≤ s.2 * (2 ^ w) ^ n :=
    Int.mul_le_mul_of_nonneg_right (by omega) (by positivity)
  have hvalue : (0 : ℤ) ≤ value n s.1 := Int.natCast_nonneg _
  rw [total] at hlt
  omega

theorem total_of_carry {s : Vli w × ℤ} (h : s.2 = 0) : total n s = value n s.1 := by
  rw [total, h, Int.zero_mul, Int.zero_add]

/-- Adding the prime while the total is negative. -/
theorem addUntil_spec (hw : 0 < w) (p : Vli w) {fuel : ℕ} {s : Vli w × ℤ}
    (hneg : total n s < 0) (hfuel : -(fuel * value n p : ℤ) ≤ total n s) :
    ∃ r, addUntil n p fuel s = some r ∧ (value n r : ℤ) = total n s % value n p := by
  have hP : (value n p : ℤ) < (2 ^ w) ^ n := by exact_mod_cast value_lt n p
  induction fuel generalizing s with
  | zero =>
      rw [Nat.cast_zero, Int.zero_mul] at hfuel
      omega
  | succ fuel ih =>
      have htotal := addCounted_total (n := n) hw s p
      rw [addUntil]
      by_cases hless : (addCounted n s p).2 < 0
      · obtain ⟨r, hr, hvalue⟩ := ih ((total_neg_iff _).mpr hless)
          (by rw [htotal]; push_cast at hfuel; linarith)
        rw [if_pos hless]
        exact ⟨r, hr, by rw [hvalue, htotal, Int.add_emod_right]⟩
      · have hge : 0 ≤ total n (addCounted n s p) :=
          not_lt.mp fun h => hless ((total_neg_iff _).mp h)
        have hzero := carry_eq_zero hge (by omega)
        rw [if_neg hless]
        refine ⟨_, rfl, ?_⟩
        rw [← total_of_carry hzero, ← Int.add_emod_right, ← htotal,
          Int.emod_eq_of_lt hge (by omega)]

/-- The loop goes on exactly while the total is not below the prime. -/
theorem again_iff {p : Vli w} {s : Vli w × ℤ} (hpos : 0 ≤ total n s) :
    (s.2 ≠ 0 ∨ vliCmpUnsafe p s.1 n ≠ 1) ↔ (value n p : ℤ) ≤ total n s := by
  have hP : (value n p : ℤ) < (2 ^ w) ^ n := by exact_mod_cast value_lt n p
  have hcmp := vliCmpUnsafe_one_iff p s.1 n
  by_cases hzero : s.2 = 0
  · rw [total_of_carry hzero, or_iff_right (not_not.mpr hzero), Ne, hcmp]
    omega
  · have hlarge : (2 ^ w) ^ n ≤ total n s := not_lt.mp fun h => hzero (carry_eq_zero hpos h)
    exact ⟨fun _ => by omega, fun _ => .inl hzero⟩

/-- Subtracting the prime while the total is not below it. -/
theorem subWhile_spec (hw : 0 < w) (p : Vli w) {fuel : ℕ} {s : Vli w × ℤ}
    (hpos : 0 ≤ total n s) (hfuel : total n s < (fuel + 1) * value n p) :
    ∃ r, subWhile n p fuel s = some r ∧ (value n r : ℤ) = total n s % value n p := by
  have hP : (value n p : ℤ) < (2 ^ w) ^ n := by exact_mod_cast value_lt n p
  induction fuel generalizing s with
  | zero =>
      rw [Nat.cast_zero, Int.zero_add, Int.one_mul] at hfuel
      rw [subWhile, if_neg (fun h => not_lt.mpr ((again_iff hpos).mp h) hfuel)]
      refine ⟨_, rfl, ?_⟩
      rw [Int.emod_eq_of_lt hpos hfuel, total_of_carry (carry_eq_zero hpos (by omega))]
  | succ fuel ih =>
      rw [subWhile]
      by_cases hge : (value n p : ℤ) ≤ total n s
      · have htotal := subCounted_total (n := n) hw s p
        rw [if_pos ((again_iff hpos).mpr hge)]
        obtain ⟨r, hr, hvalue⟩ := ih (s := subCounted n s p) (by omega)
          (by rw [htotal]; push_cast at hfuel; linarith)
        exact ⟨r, hr, by rw [hvalue, htotal, Int.sub_emod_right]⟩
      · rw [if_neg (fun h => hge ((again_iff hpos).mp h))]
        refine ⟨_, rfl, ?_⟩
        rw [Int.emod_eq_of_lt hpos (by omega), total_of_carry (carry_eq_zero hpos (by omega))]

theorem subUncounted_spec (hw : 0 < w) (p : Vli w) {fuel : ℕ} {result : Vli w}
    (hfuel : value n result < (fuel + 1) * value n p) :
    ∃ r, subUncounted n p fuel result = some r ∧ value n r = value n result % value n p := by
  have hcmp := fun result => vliCmpUnsafe_one_iff p result n
  induction fuel generalizing result with
  | zero =>
      rw [Nat.zero_add, Nat.one_mul] at hfuel
      rw [subUncounted, if_neg (not_not.mpr ((hcmp _).mpr hfuel))]
      exact ⟨_, rfl, (Nat.mod_eq_of_lt hfuel).symm⟩
  | succ fuel ih =>
      rw [subUncounted]
      by_cases hlt : value n result < value n p
      · rw [if_neg (not_not.mpr ((hcmp _).mpr hlt))]
        exact ⟨_, rfl, (Nat.mod_eq_of_lt hlt).symm⟩
      · have hsub := value_vliSub_of_le hw result result p (not_lt.mp hlt)
        rw [if_pos (fun h => hlt ((hcmp _).mp h))]
        have hless : value n (vliSub n result result p).1 < (fuel + 1) * value n p := by
          rw [Nat.add_mul, Nat.one_mul] at hfuel
          omega
        obtain ⟨r, hr, hvalue⟩ := ih hless
        exact ⟨r, hr, by rw [hvalue, hsub, ← Nat.mod_eq_sub_mod (not_lt.mp hlt)]⟩

/-! ## Halves of words -/

theorem value_fill (vli : Vli w) (base : ℕ) (words : List (BitVec w)) :
    value (base + words.length) (vli.fill base words) =
      value base vli + (2 ^ w) ^ base * words.foldr (fun x rest => x.toNat + 2 ^ w * rest) 0 := by
  induction words generalizing vli base with
  | nil =>
      rw [List.foldr_nil, Nat.mul_zero]
      rfl
  | cons x words ih =>
      have h := ih (Function.update vli base x) (base + 1)
      rw [value_update_succ] at h
      rw [List.length_cons, Nat.add_comm words.length, ← Nat.add_assoc, Vli.fill, h,
        List.foldr_cons, pow_succ]
      ring

/-- The lower half of a word. -/
def low (x : BitVec 64) : ℕ := x.toNat % 2 ^ 32

/-- The upper half of a word. -/
def high (x : BitVec 64) : ℕ := x.toNat / 2 ^ 32

theorem toNat_halves (x : BitVec 64) : x.toNat = low x + 2 ^ 32 * high x :=
  (Nat.mod_add_div _ _).symm

theorem low_lt (x : BitVec 64) : low x < 2 ^ 32 := Nat.mod_lt _ (by decide)

theorem high_lt (x : BitVec 64) : high x < 2 ^ 32 :=
  Nat.div_lt_of_lt_mul x.isLt

theorem toNat_and_low (x : BitVec 64) : (x &&& 0xffffffff).toNat = low x := toNat_low_half x

theorem toNat_shiftRight_high (x : BitVec 64) : (x >>> 32).toNat = high x := toNat_high_half x

theorem toNat_shiftLeft_low (x : BitVec 64) : (x <<< 32).toNat = low x * 2 ^ 32 := by
  rw [BitVec.toNat_shiftLeft, Nat.shiftLeft_eq, show 2 ^ 64 = 2 ^ 32 * 2 ^ 32 by decide,
    Nat.mul_mod_mul_right]
  rfl

theorem toNat_and_high (x : BitVec 64) :
    (x &&& 0xffffffff00000000).toNat = high x * 2 ^ 32 := by
  have hmask : x &&& (0xffffffff00000000 : BitVec 64) = (x >>> 32) <<< 32 := by
    have hbits : ∀ i : Fin 64,
        (0xffffffff00000000 : BitVec 64).getLsbD i = decide (32 ≤ i.val) := by decide
    refine BitVec.eq_of_getLsbD_eq fun i hi => ?_
    rw [BitVec.getLsbD_and, hbits ⟨i, hi⟩, BitVec.getLsbD_shiftLeft, BitVec.getLsbD_ushiftRight]
    by_cases hge : 32 ≤ i
    · simp [hi, hge, Nat.add_sub_cancel' hge]
    · simp [hge]
  rw [hmask, BitVec.toNat_shiftLeft, toNat_shiftRight_high, Nat.shiftLeft_eq]
  exact Nat.mod_eq_of_lt (by have := high_lt x; omega)

/-- A half below another. -/
theorem toNat_or_halves {x y : BitVec 64} {l h : ℕ} (hx : x.toNat = l) (hy : y.toNat = h * 2 ^ 32)
    (hl : l < 2 ^ 32) : (x ||| y).toNat = l + 2 ^ 32 * h := by
  rw [BitVec.toNat_or, hx, hy, lor_mul_two_pow _ hl]
  ring

theorem toNat_high_low (x y : BitVec 64) :
    (x >>> 32 ||| y <<< 32).toNat = high x + 2 ^ 32 * low y :=
  toNat_or_halves (toNat_shiftRight_high x) (toNat_shiftLeft_low y) (high_lt x)

theorem toNat_high_high (x y : BitVec 64) :
    (x >>> 32 ||| (y &&& (0xffffffff00000000 : BitVec 64))).toNat = high x + 2 ^ 32 * high y :=
  toNat_or_halves (toNat_shiftRight_high x) (toNat_and_high y) (high_lt x)

theorem toNat_low_low (x y : BitVec 64) :
    ((x &&& (0xffffffff : BitVec 64)) ||| y <<< 32).toNat = low x + 2 ^ 32 * low y :=
  toNat_or_halves (toNat_and_low x) (toNat_shiftLeft_low y) (low_lt x)

/-! ## The NIST primes -/

theorem value_secp192r1 : value 3 secp192r1 = 2 ^ 192 - 2 ^ 64 - 1 := by decide +kernel

theorem value_secp224r1 : value 4 secp224r1 = 2 ^ 224 - 2 ^ 96 + 1 := by decide +kernel

theorem value_secp256r1 : value 4 secp256r1 = 2 ^ 256 - 2 ^ 224 + 2 ^ 192 + 2 ^ 96 - 1 := by
  decide +kernel

/-- Words that the prime reduces to a residue of the total. -/
theorem residue_of_total {p product : Vli w} {m : ℕ} {r : Vli w} {S q : ℤ}
    (hr : (value n r : ℤ) = S % value n p) (hS : (value m product : ℤ) = S + value n p * q) :
    value n r = value m product % value n p := by
  have h : (value n r : ℤ) = (value m product : ℤ) % value n p := by
    rw [hr, hS, Int.add_mul_emod_self_left]
  exact_mod_cast h

/-- A running sum: what it stands for, between two multiples of the radix of the words. -/
structure Tallied (n : ℕ) (s : Vli w × ℤ) (S lo hi : ℤ) : Prop where
  total : total n s = S
  lower : lo * (2 ^ w) ^ n ≤ S
  upper : S < hi * (2 ^ w) ^ n

namespace Tallied

variable {s : Vli w × ℤ} {S lo hi : ℤ}

theorem plain (result : Vli w) : Tallied n (result, 0) (value n result) 0 1 :=
  { total := by rw [MicroEcc.total, Int.zero_mul, Int.zero_add]
    lower := by
      rw [Int.zero_mul]
      exact Int.natCast_nonneg _
    upper := by
      rw [Int.one_mul]
      exact_mod_cast value_lt n result }

theorem start (result product : Vli w) :
    Tallied n (vliSet n result product, 0) (value n product) 0 1 := by
  have h := plain (n := n) (vliSet n result product)
  rwa [value_vliSet] at h

theorem add (h : Tallied n s S lo hi) (hw : 0 < w) (tmp : Vli w) :
    Tallied n (addCounted n s tmp) (S + value n tmp) lo (hi + 1) := by
  have hlt : (value n tmp : ℤ) < (2 ^ w) ^ n := by exact_mod_cast value_lt n tmp
  have hlower := h.lower
  have hupper := h.upper
  exact
    { total := by rw [addCounted_total hw, h.total]
      lower := by linarith [Int.natCast_nonneg (value n tmp)]
      upper := by linarith }

theorem sub (h : Tallied n s S lo hi) (hw : 0 < w) (tmp : Vli w) :
    Tallied n (subCounted n s tmp) (S - value n tmp) (lo - 1) hi := by
  have hlt : (value n tmp : ℤ) < (2 ^ w) ^ n := by exact_mod_cast value_lt n tmp
  have hlower := h.lower
  have hupper := h.upper
  exact
    { total := by rw [subCounted_total hw, h.total]
      lower := by linarith
      upper := by linarith [Int.natCast_nonneg (value n tmp)] }

/-- A number doubled before it is added; both carries are counted. -/
theorem addDouble (h : Tallied n s S lo hi) (hw : 0 < w) (result tmp : Vli w) :
    Tallied n (addCounted n (s.1, s.2 + (vliAdd n result tmp tmp).2.toNat)
      (vliAdd n result tmp tmp).1) (S + 2 * value n tmp) lo (hi + 2) := by
  have hlt : (value n tmp : ℤ) < (2 ^ w) ^ n := by exact_mod_cast value_lt n tmp
  have hlower := h.lower
  have hupper := h.upper
  have htotal := h.total
  have hsum := (vliAdd_spec hw n result tmp tmp).sum
  have hdouble : (value n (vliAdd n result tmp tmp).1 : ℤ) +
      (2 ^ w) ^ n * ((vliAdd n result tmp tmp).2.toNat : ℤ) = value n tmp + value n tmp := by
    exact_mod_cast hsum
  exact
    { total := by
        rw [addCounted_total hw]
        rw [MicroEcc.total] at htotal ⊢
        linear_combination htotal + hdouble
      lower := by linarith [Int.natCast_nonneg (value n tmp)]
      upper := by linarith }

/-- The same for the first number, before there is a carry. -/
theorem startDouble (hw : 0 < w) (result product result' tmp : Vli w) :
    Tallied n (addCounted n (vliSet n result product, (vliAdd n result' tmp tmp).2.toNat)
      (vliAdd n result' tmp tmp).1) (value n product + 2 * value n tmp) 0 (1 + 2) := by
  have h := (start (n := n) result product).addDouble hw result' tmp
  rwa [Int.zero_add] at h

variable {p product : Vli w} {m fuel : ℕ} {q : ℤ}

/-- A sum that is not negative becomes the residue of the product. -/
theorem subWhile (h : Tallied n s S lo hi) (hw : 0 < w) (hpos : 0 ≤ S)
    (hfuel : hi * (2 ^ w) ^ n ≤ (fuel + 1) * value n p)
    (hS : (value m product : ℤ) = S + value n p * q) :
    ∃ r, MicroEcc.subWhile n p fuel s = some r ∧ value n r = value m product % value n p := by
  have htotal := h.total
  have hupper := h.upper
  obtain ⟨r, hr, hvalue⟩ := subWhile_spec hw p (s := s) (by rwa [htotal])
    (by rw [htotal]; exact hupper.trans_le hfuel)
  rw [htotal] at hvalue
  exact ⟨r, hr, residue_of_total hvalue hS⟩

theorem subWhile_of_nonneg (h : Tallied n s S 0 hi) (hw : 0 < w)
    (hfuel : hi * (2 ^ w) ^ n ≤ (fuel + 1) * value n p)
    (hS : (value m product : ℤ) = S + value n p * q) :
    ∃ r, MicroEcc.subWhile n p fuel s = some r ∧ value n r = value m product % value n p := by
  have hlower := h.lower
  rw [Int.zero_mul] at hlower
  exact h.subWhile hw hlower hfuel hS

/-- A negative sum becomes the residue of the product. -/
theorem addUntil (h : Tallied n s S lo hi) (hw : 0 < w) (hneg : S < 0)
    (hfuel : -(fuel * value n p : ℤ) ≤ lo * (2 ^ w) ^ n)
    (hS : (value m product : ℤ) = S + value n p * q) :
    ∃ r, MicroEcc.addUntil n p fuel s = some r ∧ value n r = value m product % value n p := by
  have htotal := h.total
  have hlower := h.lower
  obtain ⟨r, hr, hvalue⟩ := addUntil_spec hw p (s := s) (by rwa [htotal])
    (by rw [htotal]; exact hfuel.trans hlower)
  rw [htotal] at hvalue
  exact ⟨r, hr, residue_of_total hvalue hS⟩

/-- Any sum becomes the residue, by the loop that its sign selects. -/
theorem correct (h : Tallied n s S lo hi) (hw : 0 < w)
    (hless : -(fuel * value n p : ℤ) ≤ lo * (2 ^ w) ^ n)
    (hfuel : hi * (2 ^ w) ^ n ≤ (fuel + 1) * value n p)
    (hS : (value m product : ℤ) = S + value n p * q) :
    ∃ r, (if s.2 < 0 then MicroEcc.addUntil n p fuel s else MicroEcc.subWhile n p fuel s) =
      some r ∧ value n r = value m product % value n p := by
  have hsign := total_neg_iff (n := n) s
  rw [h.total] at hsign
  by_cases hneg : s.2 < 0
  · rw [if_pos hneg]
    exact h.addUntil hw (hsign.mpr hneg) hless hS
  · rw [if_neg hneg]
    exact h.subWhile hw (not_lt.mp fun hlt => hneg (hsign.mp hlt)) hfuel hS

end Tallied

theorem value_three (vli : Vli 64) :
    value 3 vli = (vli 0).toNat + (vli 1).toNat * 2 ^ 64 + (vli 2).toNat * (2 ^ 64) ^ 2 := by
  rw [value_succ, value_succ, value_succ, pow_zero, pow_one, Nat.mul_one]
  show 0 + _ + _ + _ = _
  rw [Nat.zero_add]

theorem value_four (vli : Vli 64) :
    value 4 vli = (vli 0).toNat + (vli 1).toNat * 2 ^ 64 + (vli 2).toNat * (2 ^ 64) ^ 2 +
      (vli 3).toNat * (2 ^ 64) ^ 3 := by
  rw [value_succ, value_three]

theorem value_fill_three (vli : Vli 64) (a b c : BitVec 64) :
    value 3 (vli.fill 0 [a, b, c]) = a.toNat + b.toNat * 2 ^ 64 + c.toNat * (2 ^ 64) ^ 2 := by
  have h := value_fill vli 0 [a, b, c]
  rw [pow_zero, Nat.one_mul] at h
  refine h.trans ?_
  show 0 + (a.toNat + 2 ^ 64 * (b.toNat + 2 ^ 64 * (c.toNat + 2 ^ 64 * 0))) = _
  ring

theorem value_fill_four (vli : Vli 64) (a b c d : BitVec 64) :
    value 4 (vli.fill 0 [a, b, c, d]) =
      a.toNat + b.toNat * 2 ^ 64 + c.toNat * (2 ^ 64) ^ 2 + d.toNat * (2 ^ 64) ^ 3 := by
  have h := value_fill vli 0 [a, b, c, d]
  rw [pow_zero, Nat.one_mul] at h
  refine h.trans ?_
  show 0 + (a.toNat + 2 ^ 64 * (b.toNat + 2 ^ 64 * (c.toNat + 2 ^ 64 * (d.toNat + 2 ^ 64 * 0)))) = _
  ring

/-- `vli_mmod_fast_secp192r1` is the residue of every product. -/
theorem fast_secp192r1 (result product tmp : Vli 64) :
    ∃ r, vliMmodFastSecp192r1 4 result product tmp = some r ∧
      value 3 r = value 6 product % value 3 secp192r1 := by
  have hw : 0 < 64 := by decide
  refine Tallied.subWhile_of_nonneg (q := (product 3).toNat + (product 4).toNat * 2 ^ 64 +
      (product 5).toNat * (1 + (2 ^ 64) ^ 2))
    ((((Tallied.start _ product).add hw _).add hw _).add hw _) hw ?_ ?_
  · rw [value_secp192r1]
    norm_num
  · have hhigh : value 6 product = value 3 product + (2 ^ 64) ^ 3 * value 3 (product.drop 3) :=
      value_add 3 3 product
    rw [hhigh, value_vliSet, value_fill_three, value_fill_three, value_three, value_three]
    rw [value_secp192r1]
    simp only [Vli.drop]
    push_cast
    ring

/-- The lowest word of a doubled number whose lowest word is zero. -/
theorem vliAdd_double_zero {tmp : Vli 64} (h : tmp 0 = 0) (result : Vli 64) :
    ((vliAdd 4 result tmp tmp).1 0).toNat = 0 := by
  have hsum := (vliAdd_spec (by decide) 4 result tmp tmp).sum
  have hzero : (tmp 0).toNat = 0 := by rw [h]; rfl
  have hlt := ((vliAdd 4 result tmp tmp).1 0).isLt
  rw [value_four, value_four, hzero] at hsum
  omega

theorem value_fill_above (vli : Vli 64) (b c d : BitVec 64) :
    value 4 (vli.fill 1 [b, c, d]) = (vli 0).toNat + b.toNat * 2 ^ 64 +
      c.toNat * (2 ^ 64) ^ 2 + d.toNat * (2 ^ 64) ^ 3 := by
  have h := value_fill vli 1 [b, c, d]
  have hone : value 1 vli = (vli 0).toNat := by
    rw [value_succ, pow_zero, Nat.mul_one]
    exact Nat.zero_add _
  rw [hone] at h
  refine h.trans ?_
  show (vli 0).toNat +
    (2 ^ 64) ^ 1 * (b.toNat + 2 ^ 64 * (c.toNat + 2 ^ 64 * (d.toNat + 2 ^ 64 * 0))) = _
  ring

/-- A sum that the words hold. -/
theorem value_vliAdd_of_lt (hw : 0 < w) (result left right : Vli w)
    (h : value n left + value n right < (2 ^ w) ^ n) :
    value n (vliAdd n result left right).1 = value n left + value n right := by
  rcases vliAdd_cases (n := n) hw result left right with ⟨-, hsum⟩ | ⟨-, hsum⟩ <;> omega

theorem value_fill_two (vli : Vli 64) (a b : BitVec 64) :
    value 4 (vli.fill 0 [a, b, 0, 0]) = a.toNat + b.toNat * 2 ^ 64 := by
  have h := value_fill vli 0 [a, b, 0, 0]
  have hnone : (0 : BitVec 64).toNat = 0 := rfl
  rw [pow_zero, Nat.one_mul, List.foldr_cons, List.foldr_cons, List.foldr_cons, List.foldr_cons,
    List.foldr_nil, hnone, Nat.mul_zero, Nat.mul_zero] at h
  rw [Nat.mul_comm b.toNat]
  exact h.trans (Nat.zero_add _)

/-- The sum of `vli_mmod_fast_secp224r1`, where `z` stands for the radix of the halves. -/
theorem identity_secp224r1 (z t c7 c8 c9 c10 c11 c12 c13 : ℤ) :
    t + c7 * z ^ 7 + c8 * z ^ 8 + c9 * z ^ 9 + c10 * z ^ 10 + c11 * z ^ 11 + c12 * z ^ 12 +
        c13 * z ^ 13 =
      t + (c7 * z ^ 3 + c8 * z ^ 4 + c9 * z ^ 5 + c10 * z ^ 6) +
        (c11 * z ^ 3 + c12 * z ^ 4 + c13 * z ^ 5) -
        (c7 + c8 * z + c9 * z ^ 2 + c10 * z ^ 3 + c11 * z ^ 4 + c12 * z ^ 5 + c13 * z ^ 6) -
        (c11 + c12 * z + c13 * z ^ 2) +
      (z ^ 7 - z ^ 3 + 1) *
        (c7 + c8 * z + c9 * z ^ 2 + c10 * z ^ 3 + c11 * (1 + z ^ 4) + c12 * (z + z ^ 5) +
          c13 * (z ^ 2 + z ^ 6)) := by
  ring

/-- A number below 224 bits in four words. -/
theorem value_masked (result product : Vli 64) :
    value 4 (Function.update (vliSet 4 result product) 3
      (vliSet 4 result product 3 &&& 0xffffffff)) =
      value 3 product + low (product 3) * (2 ^ 64) ^ 3 := by
  have htop : vliSet 4 result product 3 = product 3 := vliSet_apply 4 result product 3
  have hrest : value 3 (vliSet 4 result product) = value 3 product :=
    value_congr fun i hi => by rw [vliSet_apply, if_pos (by omega)]
  rw [value_update_succ, htop, hrest, toNat_and_low]

/-- `vli_mmod_fast_secp224r1` is the residue of every product of 448 bits. -/
theorem fast_secp224r1 (result product tmp : Vli 64) :
    ∃ r, vliMmodFastSecp224r1 3 result product tmp = some r ∧
      value 4 r = value 7 product % value 4 secp224r1 := by
  have hw : 0 < 64 := by decide
  have hP := value_secp224r1
  have ht := value_masked result product
  rw [vliMmodFastSecp224r1]
  generalize Function.update (vliSet 4 result product) 3
    (vliSet 4 result product 3 &&& 0xffffffff) = t at ht ⊢
  generalize hs1 : tmp.fill 0
    [0, product 3 &&& 0xffffffff00000000, product 4, product 5 &&& 0xffffffff] = s1
  generalize hs2 : s1.fill 1 [product 5 &&& 0xffffffff00000000, product 6, 0] = s2
  generalize hd1 : s2.fill 0
    [product 3 >>> 32 ||| product 4 <<< 32, product 4 >>> 32 ||| product 5 <<< 32,
      product 5 >>> 32 ||| product 6 <<< 32, product 6 >>> 32] = d1
  generalize hd2 : d1.fill 0 [product 5 >>> 32 ||| product 6 <<< 32, product 6 >>> 32, 0, 0] = d2
  have hnone : (0 : BitVec 64).toNat = 0 := rfl
  have hzero : (s1 0).toNat = 0 := by
    rw [← hs1]
    exact hnone
  have h1 : value 4 s1 = high (product 3) * 2 ^ 32 * 2 ^ 64 +
      (low (product 4) + 2 ^ 32 * high (product 4)) * (2 ^ 64) ^ 2 +
        low (product 5) * (2 ^ 64) ^ 3 := by
    rw [← hs1, value_fill_four, hnone, toNat_and_high, toNat_halves (product 4), toNat_and_low,
      Nat.zero_add]
  have h2 : value 4 s2 = high (product 5) * 2 ^ 32 * 2 ^ 64 +
      (low (product 6) + 2 ^ 32 * high (product 6)) * (2 ^ 64) ^ 2 := by
    rw [← hs2, value_fill_above, hzero, hnone, toNat_and_high, toNat_halves (product 6),
      Nat.zero_add, Nat.zero_mul, Nat.add_zero]
  have h3 : value 4 d1 = high (product 3) + 2 ^ 32 * low (product 4) +
      (high (product 4) + 2 ^ 32 * low (product 5)) * 2 ^ 64 +
        (high (product 5) + 2 ^ 32 * low (product 6)) * (2 ^ 64) ^ 2 +
          high (product 6) * (2 ^ 64) ^ 3 := by
    rw [← hd1, value_fill_four, toNat_high_low, toNat_high_low, toNat_high_low,
      toNat_shiftRight_high]
  have h4 : value 4 d2 = high (product 5) + 2 ^ 32 * low (product 6) +
      high (product 6) * 2 ^ 64 := by
    rw [← hd2, value_fill_two, toNat_high_low, toNat_shiftRight_high]
  have hlow := value_lt 3 product
  have b3 := low_lt (product 3)
  have b4 := high_lt (product 3)
  have b5 := low_lt (product 4)
  have b6 := high_lt (product 4)
  have b7 := low_lt (product 5)
  have b8 := high_lt (product 5)
  have b9 := low_lt (product 6)
  have b10 := high_lt (product 6)
  have hr1 := value_vliAdd_of_lt (n := 4) hw t t s1 (by rw [ht, h1]; omega)
  have hr2 := value_vliAdd_of_lt (n := 4) hw (vliAdd 4 t t s1).1 (vliAdd 4 t t s1).1 s2
    (by rw [hr1, ht, h1, h2]; omega)
  have hbound1 : value 4 d1 < 2 ^ 224 := by
    rw [h3]
    omega
  have hbound2 : value 4 d2 < 2 ^ 96 := by
    rw [h4]
    omega
  have hboundr : value 4 t + value 4 s1 + value 4 s2 < 3 * 2 ^ 224 := by
    rw [ht, h1, h2]
    omega
  rw [hr1] at hr2
  generalize (vliAdd 4 (vliAdd 4 t t s1).1 (vliAdd 4 t t s1).1 s2).1 = r at hr2 ⊢
  have htally := ((Tallied.plain (n := 4) r).sub hw d1).sub hw d2
  have hS : (value 7 product : ℤ) = value 4 r - value 4 d1 - value 4 d2 + value 4 secp224r1 *
      (high (product 3) + low (product 4) * 2 ^ 32 + high (product 4) * (2 ^ 32) ^ 2 +
        low (product 5) * (2 ^ 32) ^ 3 + high (product 5) * (1 + (2 ^ 32) ^ 4) +
          low (product 6) * (2 ^ 32 + (2 ^ 32) ^ 5) +
            high (product 6) * ((2 ^ 32) ^ 2 + (2 ^ 32) ^ 6)) := by
    have hhigh : value 7 product = value 3 product + (2 ^ 64) ^ 3 * value 4 (product.drop 3) :=
      value_add 3 4 product
    have hidentity := identity_secp224r1 (2 ^ 32)
      (value 3 product + low (product 3) * (2 ^ 64) ^ 3) (high (product 3)) (low (product 4))
      (high (product 4)) (low (product 5)) (high (product 5)) (low (product 6)) (high (product 6))
    rw [hhigh, value_four (product.drop 3), hP, hr2, ht, h1, h2, h3, h4]
    simp only [Vli.drop, toNat_halves (product 3), toNat_halves (product 4),
      toNat_halves (product 5), toNat_halves (product 6)]
    push_cast
    linear_combination hidentity
  generalize subCounted 4 (subCounted 4 (r, 0) d1) d2 = s at htally ⊢
  have htotal := htally.total
  have hsign := total_neg_iff (n := 4) s
  by_cases hneg : s.2 < 0
  · rw [if_pos hneg]
    have hless : -((3 : ℕ) * value 4 secp224r1 : ℤ) ≤ total 4 s := by
      rw [htotal, hP]
      omega
    obtain ⟨x, hx, hvalue⟩ := addUntil_spec hw secp224r1 (hsign.mpr hneg) hless
    exact ⟨x, hx, residue_of_total (hvalue.trans (congrArg (· % _) htotal)) hS⟩
  · have hpos : 0 ≤ total 4 s := not_lt.mp fun h => hneg (hsign.mp h)
    have hplain : (value 4 s.1 : ℤ) = value 4 r - value 4 d1 - value 4 d2 := by
      rw [← htotal, total_of_carry (carry_eq_zero hpos (by rw [htotal]; omega))]
    have hfew : value 4 s.1 < (3 + 1) * value 4 secp224r1 := by
      rw [hP]
      omega
    obtain ⟨x, hx, hvalue⟩ := subUncounted_spec hw secp224r1 hfew
    rw [if_neg hneg]
    refine ⟨x, hx, residue_of_total ?_ hS⟩
    rw [hvalue, ← hplain]
    rfl
/-- The sum of `vli_mmod_fast_secp256r1`, where `z` stands for the radix of the halves. -/
theorem identity_secp256r1 (z t c8 c9 c10 c11 c12 c13 c14 c15 : ℤ) :
    t + c8 * z ^ 8 + c9 * z ^ 9 + c10 * z ^ 10 + c11 * z ^ 11 + c12 * z ^ 12 + c13 * z ^ 13 +
        c14 * z ^ 14 + c15 * z ^ 15 =
      t + 2 * (c11 * z ^ 3 + c12 * z ^ 4 + c13 * z ^ 5 + c14 * z ^ 6 + c15 * z ^ 7) +
        2 * (c12 * z ^ 3 + c13 * z ^ 4 + c14 * z ^ 5 + c15 * z ^ 6) +
        (c8 + c9 * z + c10 * z ^ 2 + c14 * z ^ 6 + c15 * z ^ 7) +
        (c9 + c10 * z + c11 * z ^ 2 + c13 * z ^ 3 + c14 * z ^ 4 + c15 * z ^ 5 + c13 * z ^ 6 +
          c8 * z ^ 7) -
        (c11 + c12 * z + c13 * z ^ 2 + c8 * z ^ 6 + c10 * z ^ 7) -
        (c12 + c13 * z + c14 * z ^ 2 + c15 * z ^ 3 + c9 * z ^ 6 + c11 * z ^ 7) -
        (c13 + c14 * z + c15 * z ^ 2 + c8 * z ^ 3 + c9 * z ^ 4 + c10 * z ^ 5 + c12 * z ^ 7) -
        (c14 + c15 * z + c9 * z ^ 3 + c10 * z ^ 4 + c11 * z ^ 5 + c13 * z ^ 7) +
      (z ^ 8 - z ^ 7 + z ^ 6 + z ^ 3 - 1) *
        (c8 + c9 * (1 + z) + c10 * (z + z ^ 2) + c11 * (-1 + z ^ 2 + z ^ 3) +
          c12 * (-1 - z + z ^ 3 + z ^ 4) + c13 * (-1 - z - z ^ 2 + z ^ 4 + z ^ 5) +
          c14 * (-1 - z - z ^ 2 - z ^ 3 + z ^ 5 + z ^ 6) +
          c15 * (-z - z ^ 2 - z ^ 3 - z ^ 4 + z ^ 6 + z ^ 7)) := by
  ring

/-- `vli_mmod_fast_secp256r1` is the residue of every product. -/
theorem fast_secp256r1 (result product tmp : Vli 64) :
    ∃ r, vliMmodFastSecp256r1 7 result product tmp = some r ∧
      value 4 r = value 8 product % value 4 secp256r1 := by
  have hw : 0 < 64 := by decide
  refine Tallied.correct (q := low (product 4) + high (product 4) * (1 + 2 ^ 32) +
      low (product 5) * (2 ^ 32 + (2 ^ 32) ^ 2) +
      high (product 5) * (-1 + (2 ^ 32) ^ 2 + (2 ^ 32) ^ 3) +
      low (product 6) * (-1 - 2 ^ 32 + (2 ^ 32) ^ 3 + (2 ^ 32) ^ 4) +
      high (product 6) * (-1 - 2 ^ 32 - (2 ^ 32) ^ 2 + (2 ^ 32) ^ 4 + (2 ^ 32) ^ 5) +
      low (product 7) *
        (-1 - 2 ^ 32 - (2 ^ 32) ^ 2 - (2 ^ 32) ^ 3 + (2 ^ 32) ^ 5 + (2 ^ 32) ^ 6) +
      high (product 7) *
        (-2 ^ 32 - (2 ^ 32) ^ 2 - (2 ^ 32) ^ 3 - (2 ^ 32) ^ 4 + (2 ^ 32) ^ 6 + (2 ^ 32) ^ 7))
    ((((((((Tallied.startDouble hw _ product _ _).addDouble hw _ _).add hw _).add hw _).sub hw
      _).sub hw _).sub hw _).sub hw _) hw ?_ ?_ ?_
  · rw [value_secp256r1]
    norm_num
  · rw [value_secp256r1]
    norm_num
  · have hhigh : value 8 product = value 4 product + (2 ^ 64) ^ 4 * value 4 (product.drop 4) :=
      value_add 4 4 product
    have hidentity := identity_secp256r1 (2 ^ 32) (value 4 product) (low (product 4))
      (high (product 4)) (low (product 5)) (high (product 5)) (low (product 6))
      (high (product 6)) (low (product 7)) (high (product 7))
    rw [hhigh, value_four (product.drop 4), value_secp256r1, value_fill_above,
      vliAdd_double_zero (by rfl)]
    simp only [value_fill_four, Vli.drop, toNat_and_low, toNat_and_high, toNat_shiftLeft_low,
      toNat_shiftRight_high, toNat_high_low, toNat_high_high, toNat_low_low,
      toNat_halves (product 4), toNat_halves (product 5), toNat_halves (product 6),
      toNat_halves (product 7)]
    push_cast
    linear_combination hidentity

/-- The fast reductions by the NIST primes end, and give the residue of every product: of 384 bits,
of 448 bits and of 512 bits. -/
theorem nist_reductions (result product tmp : Vli 64) :
    (∃ r, vliMmodFastSecp192r1 4 result product tmp = some r ∧
        value 3 r = value 6 product % value 3 secp192r1) ∧
      (∃ r, vliMmodFastSecp224r1 3 result product tmp = some r ∧
        value 4 r = value 7 product % value 4 secp224r1) ∧
      ∃ r, vliMmodFastSecp256r1 7 result product tmp = some r ∧
        value 4 r = value 8 product % value 4 secp256r1 :=
  ⟨fast_secp192r1 result product tmp, fast_secp224r1 result product tmp,
    fast_secp256r1 result product tmp⟩

end Xhive.MicroEcc
