import Xhive.MicroEcc.FastReduction

/-!
# The reduction by the prime of secp256k1

The prime is a small number below a power of two.  `vli_mmod_fast_secp256k1`
folds the upper half of a product into the lower one twice, and takes the prime
back for each carry of the two sums.
-/

namespace Xhive.MicroEcc

open Xhive.Support

variable {w n : ℕ}

/-- `curve_secp256k1.p`. -/
def secp256k1 : Vli 64 :=
  Vli.fill (fun _ => 0) 0
    [0xfffffffefffffc2f, 0xffffffffffffffff, 0xffffffffffffffff, 0xffffffffffffffff]

/-- `omega_mult_secp256k1`. -/
def omegaMultSecp256k1 (result right : Vli 64) : Vli 64 :=
  let s := foldRange 0 4 (result, (⟨0, 0, 0⟩ : Column 64)) fun k s =>
    storeColumn k (s.1, muladd 0x1000003d1 (right k) s.2)
  Function.update s.1 4 s.2.r0

/-- `while (carry > 0) { --carry; uECC_vli_sub(result, result, p); }`. -/
def subTimes (n : ℕ) (p : Vli w) : ℕ → Vli w → Vli w
  | 0, result => result
  | carry + 1, result => subTimes n p carry (vliSub n result result p).1

/-- `vli_mmod_fast_secp256k1`. -/
def vliMmodFastSecp256k1 (result product tmp : Vli 64) : Vli 64 :=
  let tmp := vliClear 4 tmp
  let tmp := tmp.replace 4 (vliClear 4 (tmp.drop 4))
  let tmp := omegaMultSecp256k1 tmp (product.drop 4)
  let r := vliAdd 4 result product tmp
  let product := vliClear 4 product
  let product := omegaMultSecp256k1 product (tmp.drop 4)
  let r' := vliAdd 4 r.1 r.1 product
  let result := subTimes 4 secp256k1 (r.2 + r'.2).toNat r'.1
  if vliCmpUnsafe result secp256k1 4 > 0 then (vliSub 4 result result secp256k1).1 else result

/-! ## The multiple of the upper half -/

theorem value_secp256k1 : value 4 secp256k1 = 2 ^ 256 - 0x1000003d1 := by decide +kernel

/-- The words of a multiple so far, and the column with its carries. -/
structure Scaled (result right : Vli 64) (k : ℕ) (s : Vli 64 × Column 64) : Prop where
  sum : value k s.1 + (2 ^ 64) ^ k * s.2.value = 0x1000003d1 * value k right
  small : s.2.value < 0x1000003d1
  frame : ∀ i, k ≤ i → s.1 i = result i

theorem scaled_run (result right : Vli 64) :
    Scaled result right 4 (foldRange 0 4 (result, (⟨0, 0, 0⟩ : Column 64)) fun k s =>
      storeColumn k (s.1, muladd 0x1000003d1 (right k) s.2)) := by
  refine foldRange_induction (Scaled result right) (Nat.zero_le 4) ?_ fun k s _ _ h => ?_
  · have hzero : Column.value (⟨0, 0, 0⟩ : Column 64) = 0 := by
      rw [Column.value]
      show 0 + 0 * 2 ^ 64 + 0 * (2 ^ 64) ^ 2 = 0
      rw [Nat.zero_mul, Nat.zero_mul]
    exact
      { sum := by
          rw [hzero, Nat.mul_zero]
          rfl
        small := by
          rw [hzero]
          decide
        frame := fun _ _ => rfl }
  · have hword := (right k).isLt
    have hsmall := h.small
    have hfactor : (0x1000003d1 : BitVec 64).toNat = 0x1000003d1 := rfl
    have hmuladd := muladd_value (by decide) 0x1000003d1 (right k) s.2 (by rw [hfactor]; omega)
    have hnext := (muladd 0x1000003d1 (right k) s.2).next_value
    rw [hfactor] at hmuladd
    rw [hmuladd] at hnext
    refine ⟨?_, ?_, fun i hi => ?_⟩
    · rw [storeColumn, value_update_succ, value_succ, pow_succ]
      linear_combination h.sum + (2 ^ 64) ^ k * hnext
    · rw [storeColumn]
      dsimp only
      omega
    · rw [storeColumn]
      exact (Function.update_of_ne (by omega) _ _).trans (h.frame i (by omega))

/-- `omega_mult_secp256k1` multiplies by the difference of the prime from a power of two. -/
theorem value_omegaMult (result right : Vli 64) :
    value 5 (omegaMultSecp256k1 result right) = 0x1000003d1 * value 4 right ∧
      ∀ i, 5 ≤ i → omegaMultSecp256k1 result right i = result i := by
  have h := scaled_run result right
  rw [omegaMultSecp256k1]
  generalize foldRange 0 4 (result, (⟨0, 0, 0⟩ : Column 64)) _ = s at h ⊢
  have hsmall := h.small
  have hcolumn : s.2.r0.toNat = s.2.value := by
    rw [Column.value] at hsmall ⊢
    omega
  refine ⟨?_, fun i hi => (Function.update_of_ne (by omega) _ _).trans (h.frame i (by omega))⟩
  rw [value_update_succ, hcolumn, ← h.sum, Nat.mul_comm s.2.value]

/-- Each subtraction is exact modulo the radix of the words. -/
theorem value_subTimes (hw : 0 < w) (p : Vli w) (k : ℕ) (result : Vli w) :
    (value n (subTimes n p k result) : ℤ) =
      ((value n result : ℤ) - k * value n p) % (2 ^ w) ^ n := by
  have hlt : ∀ v : Vli w, (value n v : ℤ) < (2 ^ w) ^ n := fun v => by exact_mod_cast value_lt n v
  induction k generalizing result with
  | zero =>
      rw [subTimes, Nat.cast_zero, Int.zero_mul, Int.sub_zero,
        Int.emod_eq_of_lt (Int.natCast_nonneg _) (hlt result)]
  | succ k ih =>
      rw [subTimes, ih]
      have hsub : ((value n (vliSub n result result p).1 : ℤ) - k * value n p) ≡
          (value n result : ℤ) - (k + 1 : ℕ) * value n p [ZMOD (2 ^ w) ^ n] := by
        have hsum := (vliSub_spec hw n result result p).sum
        have hcast : (value n (vliSub n result result p).1 : ℤ) + value n p =
            value n result + (2 ^ w) ^ n * ((vliSub n result result p).2.toNat : ℤ) := by
          exact_mod_cast hsum
        refine (Int.modEq_iff_dvd.mpr ⟨-((vliSub n result result p).2.toNat : ℤ), ?_⟩)
        push_cast
        linear_combination -hcast
      exact hsub

/-! ## Two folds -/

/-- The product with its upper half folded twice into the lower one. -/
def foldedSecp256k1 (product : Vli 64) : ℕ :=
  let folded := 0x1000003d1 * value 4 (product.drop 4)
  value 4 product + folded % 2 ^ 256 + 0x1000003d1 * (folded / 2 ^ 256)


/-- Folding keeps the residue. -/
theorem folded_modEq (product : Vli 64) :
    foldedSecp256k1 product ≡ value 8 product [MOD value 4 secp256k1] := by
  have hhigh : value 8 product = value 4 product + (2 ^ 64) ^ 4 * value 4 (product.drop 4) :=
    value_add 4 4 product
  rw [foldedSecp256k1, hhigh, value_secp256k1]
  generalize value 4 (product.drop 4) = upper
  generalize hfolded : 0x1000003d1 * upper = folded
  have hsplit := Nat.div_add_mod folded (2 ^ 256)
  refine (Nat.modEq_iff_dvd.mpr ⟨upper + (folded / 2 ^ 256 : ℕ), ?_⟩)
  push_cast
  omega

/-- The two halves of the first multiple. -/
theorem omegaMult_halves (tmp right : Vli 64) :
    value 4 (omegaMultSecp256k1 ((vliClear 4 tmp).replace 4 (vliClear 4 ((vliClear 4 tmp).drop 4)))
        right) + (2 ^ 64) ^ 4 * value 4 ((omegaMultSecp256k1 ((vliClear 4 tmp).replace 4
          (vliClear 4 ((vliClear 4 tmp).drop 4))) right).drop 4) = 0x1000003d1 * value 4 right := by
  generalize hbase : (vliClear 4 tmp).replace 4 (vliClear 4 ((vliClear 4 tmp).drop 4)) = base
  obtain ⟨hvalue, hframe⟩ := value_omegaMult base right
  have hrest : value 3 ((omegaMultSecp256k1 base right).drop 5) = 0 :=
    value_zero_words fun i hi => by
      rw [Vli.drop, hframe (5 + i) (by omega), ← hbase, Vli.replace, if_pos (by omega),
        vliClear_apply, if_pos (by omega)]
  have hlower : value 8 (omegaMultSecp256k1 base right) = value 5 (omegaMultSecp256k1 base right) +
      (2 ^ 64) ^ 5 * value 3 ((omegaMultSecp256k1 base right).drop 5) := value_add 5 3 _
  have hhalves : value 8 (omegaMultSecp256k1 base right) = value 4 (omegaMultSecp256k1 base right) +
      (2 ^ 64) ^ 4 * value 4 ((omegaMultSecp256k1 base right).drop 4) := value_add 4 4 _
  rw [← hhalves, hlower, hrest, hvalue, Nat.mul_zero, Nat.add_zero]

/-- The sum of the two carries. -/
theorem carries_toNat {c c' : BitVec 64} (h : c.toNat ≤ 1) (h' : c'.toNat ≤ 1) :
    (c + c').toNat = c.toNat + c'.toNat := by
  rw [BitVec.toNat_add]
  exact Nat.mod_eq_of_lt (by omega)

/-- The carries of the two sums count the powers of two in the folded product. -/
theorem folded_sum {L H q R a t r c r' c' : ℕ} (hscaled : q + 2 ^ 256 * R = 0x1000003d1 * H)
    (hq : q < 2 ^ 256) (hH : H < 2 ^ 256) (hagain : a + t * 2 ^ 256 = 0x1000003d1 * R)
    (hsum : r + 2 ^ 256 * c = L + q) (hsum' : r' + 2 ^ 256 * c' = r + a) (ha : a < 2 ^ 256) :
    L + 0x1000003d1 * H % 2 ^ 256 + 0x1000003d1 * (0x1000003d1 * H / 2 ^ 256) =
      r' + 2 ^ 256 * (c + c') := by
  have hmod : 0x1000003d1 * H % 2 ^ 256 = q := by
    rw [← hscaled, Nat.add_mul_mod_self_left, Nat.mod_eq_of_lt hq]
  have hdiv : 0x1000003d1 * H / 2 ^ 256 = R := by
    rw [← hscaled, Nat.add_mul_div_left _ _ (Nat.two_pow_pos 256), Nat.div_eq_of_lt hq,
      Nat.zero_add]
  have hsmall : R < 0x1000003d1 := by omega
  have ht : t = 0 := by omega
  rw [hmod, hdiv, ← hagain, ht, Nat.zero_mul, Nat.add_zero]
  linarith

/-- Taking the prime back once for each carry, modulo a power of two. -/
theorem wrapped_of_carries {S r k x : ℕ} (hS : S = r + 2 ^ 256 * k) (hr : r < 2 ^ 256)
    (hx : (x : ℤ) = ((r : ℤ) - k * (2 ^ 256 - 0x1000003d1 : ℕ)) % 2 ^ 256) :
    x = (S + S / 2 ^ 256 * 0x1000003d1) % 2 ^ 256 := by
  have hk : S / 2 ^ 256 = k := by
    rw [hS, Nat.add_mul_div_left _ _ (Nat.two_pow_pos 256), Nat.div_eq_of_lt hr, Nat.zero_add]
  have hshift : (r : ℤ) - k * (2 ^ 256 - 0x1000003d1 : ℕ) =
      (S + k * 0x1000003d1 : ℕ) + 2 ^ 256 * (-2 * k) := by
    rw [hS]
    push_cast
    ring
  rw [hshift, Int.add_mul_emod_self_left] at hx
  rw [hk]
  exact_mod_cast hx

/-- The number before the last comparison: the carries of the folded product are taken back
modulo a power of two. -/
def wrappedSecp256k1 (product : Vli 64) : ℕ :=
  (foldedSecp256k1 product + foldedSecp256k1 product / 2 ^ 256 * 0x1000003d1) % 2 ^ 256

/-- What `vli_mmod_fast_secp256k1` computes. -/
theorem value_fast_secp256k1 (result product tmp : Vli 64) :
    value 4 (vliMmodFastSecp256k1 result product tmp) =
      if value 4 secp256k1 < wrappedSecp256k1 product then
        wrappedSecp256k1 product - value 4 secp256k1
      else wrappedSecp256k1 product := by
  have hw : 0 < 64 := by decide
  have hP := value_secp256k1
  have hscaled := omegaMult_halves tmp (product.drop 4)
  rw [vliMmodFastSecp256k1]
  generalize omegaMultSecp256k1 ((vliClear 4 tmp).replace 4
    (vliClear 4 ((vliClear 4 tmp).drop 4))) (product.drop 4) = scaled at hscaled ⊢
  have hupper := value_lt 4 (product.drop 4)
  have hlower := value_lt 4 scaled
  have hagain := (value_omegaMult (vliClear 4 product) (scaled.drop 4)).1
  rw [value_succ] at hagain
  generalize omegaMultSecp256k1 (vliClear 4 product) (scaled.drop 4) = again at hagain ⊢
  have hfirst := vliAdd_spec hw 4 result product scaled
  generalize vliAdd 4 result product scaled = r at hfirst ⊢
  have hsecond := vliAdd_spec hw 4 r.1 r.1 again
  generalize vliAdd 4 r.1 r.1 again = r' at hsecond ⊢
  have hsum := hfirst.sum
  have hsum' := hsecond.sum
  have hcarries := carries_toNat hfirst.carry hsecond.carry
  have htimes := value_subTimes (n := 4) hw secp256k1 (r.2 + r'.2).toNat r'.1
  have hword := value_lt 4 r'.1
  have hfolded : foldedSecp256k1 product = value 4 r'.1 + 2 ^ 256 * (r.2 + r'.2).toNat := by
    rw [hcarries]
    exact folded_sum hscaled hlower hupper hagain hsum hsum' (value_lt 4 again)
  have hwrapped : value 4 (subTimes 4 secp256k1 (r.2 + r'.2).toNat r'.1) =
      wrappedSecp256k1 product := by
    rw [hP] at htimes
    exact wrapped_of_carries hfolded hword htimes
  generalize subTimes 4 secp256k1 (r.2 + r'.2).toNat r'.1 = x at hwrapped ⊢
  have hcmp := vliCmpUnsafe_pos_iff x secp256k1 4
  rw [← hwrapped]
  by_cases hlt : value 4 secp256k1 < value 4 x
  · rw [if_pos (hcmp.mpr hlt), if_pos hlt, value_vliSub_of_le hw x x secp256k1 hlt.le]
  · rw [if_neg (fun h => hlt (hcmp.mp h)), if_neg hlt]

/-! ## When the residue is met -/

theorem mod_of_lt_three {x m : ℕ} (h : x < 3 * m) :
    x % m = if x < m then x else if x < 2 * m then x - m else x - 2 * m := by
  split_ifs with hone htwo
  · exact Nat.mod_eq_of_lt hone
  · rw [Nat.mod_eq_sub_mod (by omega), Nat.mod_eq_of_lt (by omega)]
  · rw [Nat.mod_eq_sub_mod (by omega), Nat.mod_eq_sub_mod (by omega), Nat.mod_eq_of_lt (by omega)]
    omega

/-- By the number of carries, which is at most two; the prime `P` is `K` below the radix `B`. -/
theorem wrapped_residue_iff {S P K B : ℕ} (hB : P + K = B) (hpos : 0 < K) (hK : 4 * K < P)
    (hS : S < 3 * P) :
    (if P < (S + S / B * K) % B then (S + S / B * K) % B - P else (S + S / B * K) % B) = S % P ↔
      ¬ (S = P ∨ S = 2 * P ∨ 2 * B ≤ S + K ∧ S < 2 * B) := by
  have hresidue := mod_of_lt_three hS
  rcases Nat.lt_or_ge S B with hnone | hsome
  · have hk : S / B = 0 := Nat.div_eq_of_lt hnone
    rw [hk, Nat.zero_mul, Nat.add_zero, Nat.mod_eq_of_lt hnone, hresidue]
    split_ifs <;> omega
  rcases Nat.lt_or_ge S (2 * B) with hone | htwo
  · have hk : S / B = 1 := Nat.div_eq_of_lt_le (by omega) (by omega)
    rw [hk, Nat.one_mul, mod_of_lt_three (x := S + K) (m := B) (by omega), hresidue]
    split_ifs <;> omega
  · have hk : S / B = 2 := Nat.div_eq_of_lt_le (by omega) (by omega)
    rw [hk, mod_of_lt_three (x := S + 2 * K) (m := B) (by omega), hresidue]
    split_ifs <;> omega

/-- `vli_mmod_fast_secp256k1` gives the residue unless the folded product is the prime or its
double, which stay unreduced, or a borrow of the subtraction for the carry is missed. -/
theorem fast_secp256k1_iff (result product tmp : Vli 64) :
    value 4 (vliMmodFastSecp256k1 result product tmp) = value 8 product % value 4 secp256k1 ↔
      ¬ (foldedSecp256k1 product = value 4 secp256k1 ∨
        foldedSecp256k1 product = 2 * value 4 secp256k1 ∨
        2 * 2 ^ 256 ≤ foldedSecp256k1 product + 0x1000003d1 ∧
          foldedSecp256k1 product < 2 * 2 ^ 256) := by
  have hresidue : foldedSecp256k1 product % value 4 secp256k1 =
      value 8 product % value 4 secp256k1 := folded_modEq product
  have hbound : foldedSecp256k1 product < 3 * (2 ^ 256 - 0x1000003d1) := by
    have hlower := value_lt 4 product
    have hupper := value_lt 4 (product.drop 4)
    rw [foldedSecp256k1]
    omega
  rw [value_fast_secp256k1, ← hresidue, wrappedSecp256k1, value_secp256k1]
  exact wrapped_residue_iff (by norm_num) (by norm_num) (by norm_num) hbound

end Xhive.MicroEcc
