import Xhive.MicroEcc.Vli
import Xhive.Support.Radix
import Xhive.Support.Words
import Mathlib.Tactic.LinearCombination

/-!
# What the operations on large integers compute

Each loop is followed through the number that its finished words stand for
together with its carry.
-/

namespace Xhive.MicroEcc

open Xhive.Support

variable {w n : ℕ}

/-- The number in the first words. -/
def value (n : ℕ) (vli : Vli w) : ℕ :=
  digitSum (2 ^ w) n fun i => (vli i).toNat

theorem value_succ (n : ℕ) (vli : Vli w) :
    value (n + 1) vli = value n vli + (vli n).toNat * (2 ^ w) ^ n :=
  digitSum_succ _ _ _

theorem value_lt (n : ℕ) (vli : Vli w) : value n vli < (2 ^ w) ^ n :=
  digitSum_lt fun i _ => (vli i).isLt

theorem value_congr {vli vli' : Vli w} (h : ∀ i < n, vli i = vli' i) :
    value n vli = value n vli' :=
  digitSum_congr fun i hi => by rw [h i hi]

theorem value_update_of_le (vli : Vli w) {k : ℕ} (h : n ≤ k) (x : BitVec w) :
    value n (Function.update vli k x) = value n vli :=
  value_congr fun _ hi => Function.update_of_ne (by omega) _ _

theorem value_update_succ (vli : Vli w) (k : ℕ) (x : BitVec w) :
    value (k + 1) (Function.update vli k x) = value k vli + x.toNat * (2 ^ w) ^ k := by
  rw [value_succ, value_update_of_le vli le_rfl, Function.update_self]

theorem value_add (m k : ℕ) (vli : Vli w) :
    value (m + k) vli = value m vli + (2 ^ w) ^ m * value k (vli.drop m) :=
  digitSum_add _ _ _ _

theorem value_zero_words {vli : Vli w} (h : ∀ i < n, vli i = 0) : value n vli = 0 :=
  (digitSum_eq_zero_iff (Nat.two_pow_pos w)).mpr fun i hi => by
    rw [h i hi]
    rfl

/-! ## Words of one number -/

theorem vliClear_apply (n : ℕ) (vli : Vli w) (i : ℕ) :
    vliClear n vli i = if i < n then 0 else vli i := by
  refine foldRange_induction
    (fun k (t : Vli w) => t i = if i < k then 0 else vli i) (Nat.zero_le n) ?_ ?_
  · rw [if_neg (Nat.not_lt_zero i)]
  · intro k t _ _ ht
    rw [Function.update_apply]
    by_cases hik : i = k
    · rw [if_pos hik, if_pos (by omega)]
    · rw [if_neg hik, ht]
      exact if_congr (by omega) rfl rfl

theorem vliSet_apply (n : ℕ) (dest src : Vli w) (i : ℕ) :
    vliSet n dest src i = if i < n then src i else dest i := by
  refine foldRange_induction
    (fun k (t : Vli w) => t i = if i < k then src i else dest i) (Nat.zero_le n) ?_ ?_
  · rw [if_neg (Nat.not_lt_zero i)]
  · intro k t _ _ ht
    rw [Function.update_apply]
    by_cases hik : i = k
    · rw [if_pos hik, if_pos (by omega), hik]
    · rw [if_neg hik, ht]
      exact if_congr (by omega) rfl rfl

theorem value_vliClear (n : ℕ) (vli : Vli w) : value n (vliClear n vli) = 0 :=
  value_zero_words fun i hi => by rw [vliClear_apply, if_pos hi]

theorem value_vliSet (n : ℕ) (dest src : Vli w) : value n (vliSet n dest src) = value n src :=
  value_congr fun i hi => by rw [vliSet_apply, if_pos hi]

theorem vliIsZero_iff (n : ℕ) (vli : Vli w) : vliIsZero n vli ↔ value n vli = 0 := by
  have hor : (foldRange 0 n 0 fun i (bits : BitVec w) => bits ||| vli i) = 0 ↔
      ∀ i < n, vli i = 0 := by
    refine foldRange_induction (fun k (bits : BitVec w) => bits = 0 ↔ ∀ i < k, vli i = 0)
      (Nat.zero_le n) ?_ ?_
    · exact ⟨fun _ i hi => absurd hi (Nat.not_lt_zero i), fun _ => rfl⟩
    · intro k bits _ _ h
      have hzero : bits ||| vli k = 0 ↔ bits = 0 ∧ vli k = 0 := BitVec.or_eq_zero_iff
      rw [hzero, h]
      constructor
      · rintro ⟨hlow, htop⟩ i hi
        rcases Nat.lt_succ_iff_lt_or_eq.mp hi with hlt | rfl
        · exact hlow i hlt
        · exact htop
      · intro hall
        exact ⟨fun i hi => hall i (by omega), hall k (by omega)⟩
  rw [vliIsZero, beq_iff_eq, hor]
  constructor
  · exact value_zero_words
  · intro hzero i hi
    have hdigit := (digitSum_eq_zero_iff (Nat.two_pow_pos w)).mp hzero i hi
    exact BitVec.eq_of_toNat_eq hdigit

/-- The first words that differ, from the top, decide. -/
theorem vliCmpUnsafe_eq (left right : Vli w) (n : ℕ) :
    vliCmpUnsafe left right n = ((value n left : ℤ) - value n right).sign := by
  induction n with
  | zero => rfl
  | succ n ih =>
      rw [vliCmpUnsafe]
      by_cases hgt : left n > right n
      · have hlt : value (n + 1) right < value (n + 1) left :=
          digitSum_succ_lt (fun i _ => (right i).isLt) (BitVec.lt_def.mp hgt)
        rw [if_pos hgt, Int.sign_eq_one_of_pos (by omega)]
      · rw [if_neg hgt]
        by_cases hlt : left n < right n
        · have hvalue : value (n + 1) left < value (n + 1) right :=
            digitSum_succ_lt (fun i _ => (left i).isLt) (BitVec.lt_def.mp hlt)
          rw [if_pos hlt, Int.sign_eq_neg_one_of_neg (by omega)]
        · have heq : (left n).toNat = (right n).toNat := by
            rw [gt_iff_lt, BitVec.lt_def] at hgt
            rw [BitVec.lt_def] at hlt
            omega
          rw [if_neg hlt, ih, value_succ, value_succ, heq]
          congr 1
          push_cast
          ring

theorem vliCmpUnsafe_pos_iff (left right : Vli w) (n : ℕ) :
    vliCmpUnsafe left right n > 0 ↔ value n right < value n left := by
  rw [vliCmpUnsafe_eq, gt_iff_lt, Int.sign_pos_iff]
  omega

theorem vliCmpUnsafe_neg_iff (left right : Vli w) (n : ℕ) :
    vliCmpUnsafe left right n < 0 ↔ value n left < value n right := by
  rw [vliCmpUnsafe_eq, Int.sign_neg_iff]
  omega

theorem vliCmpUnsafe_zero_iff (left right : Vli w) (n : ℕ) :
    vliCmpUnsafe left right n = 0 ↔ value n left = value n right := by
  rw [vliCmpUnsafe_eq, Int.sign_eq_zero_iff_zero]
  omega

theorem vliCmpUnsafe_one_iff (left right : Vli w) (n : ℕ) :
    vliCmpUnsafe left right n = 1 ↔ value n right < value n left := by
  rw [vliCmpUnsafe_eq, Int.sign_eq_one_iff_pos]
  omega

/-! ## Halving -/

theorem two_pow_pred (hw : 0 < w) : 2 ^ w = 2 * 2 ^ (w - 1) := by
  rw [← Nat.pow_succ']
  congr 1
  omega

/-- A word above one bit and below another. -/
theorem toNat_shiftRight_or (hw : 0 < w) (x carry : BitVec w) {b : ℕ}
    (hcarry : carry.toNat = b * 2 ^ (w - 1)) :
    ((x >>> 1) ||| carry).toNat = x.toNat / 2 + b * 2 ^ (w - 1) := by
  have hpow := two_pow_pred hw
  have hlt : x.toNat / 2 < 2 ^ (w - 1) := by
    have := x.isLt
    omega
  rw [BitVec.toNat_or, BitVec.toNat_ushiftRight, Nat.shiftRight_eq_div_pow, pow_one, hcarry,
    lor_mul_two_pow b hlt, Nat.add_comm]

theorem toNat_shiftLeft_top (hw : 0 < w) (x : BitVec w) :
    (x <<< (w - 1)).toNat = x.toNat % 2 * 2 ^ (w - 1) := by
  have hpow := two_pow_pred hw
  rw [BitVec.toNat_shiftLeft, Nat.shiftLeft_eq, hpow, Nat.mul_mod_mul_right]

theorem rshiftBelow_apply (vli : Vli w) (carry : BitVec w) {n i : ℕ} (h : n ≤ i) :
    (rshiftBelow n (vli, carry)).1 i = vli i := by
  induction n generalizing vli carry with
  | zero => rfl
  | succ n ih =>
      rw [rshiftBelow, ih _ _ (by omega), Function.update_of_ne (by omega)]

/-- The words with a bit above them, halved. -/
theorem value_rshiftBelow (hw : 0 < w) (n : ℕ) (vli : Vli w) (carry : BitVec w) {b : ℕ}
    (hcarry : carry.toNat = b * 2 ^ (w - 1)) :
    value n (rshiftBelow n (vli, carry)).1 = (value n vli + b * (2 ^ w) ^ n) / 2 := by
  induction n generalizing vli carry b with
  | zero =>
      have hb : b < 2 := by
        have hlt := carry.isLt
        have hpow := two_pow_pred hw
        rw [hcarry, hpow] at hlt
        exact Nat.lt_of_mul_lt_mul_right hlt
      show 0 = (0 + b * 1) / 2
      omega
  | succ n ih =>
      have hpow := two_pow_pred hw
      have htop : (rshiftBelow (n + 1) (vli, carry)).1 n = (vli n >>> 1) ||| carry := by
        rw [rshiftBelow, rshiftBelow_apply _ _ le_rfl, Function.update_self]
      have hsplit := Nat.div_add_mod (vli n).toNat 2
      rw [value_succ, htop, toNat_shiftRight_or hw _ _ hcarry, rshiftBelow,
        ih _ _ (toNat_shiftLeft_top hw (vli n)), value_update_of_le _ le_rfl, value_succ]
      have heven : value n vli + (vli n).toNat * (2 ^ w) ^ n + b * (2 ^ w) ^ (n + 1) =
          value n vli + (vli n).toNat % 2 * (2 ^ w) ^ n +
            ((vli n).toNat / 2 + b * 2 ^ (w - 1)) * (2 ^ w) ^ n * 2 := by
        rw [pow_succ (2 ^ w) n]
        nth_rewrite 3 [hpow]
        nth_rewrite 1 [← hsplit]
        ring
      rw [heven, Nat.add_mul_div_right _ _ (by decide)]

theorem value_vliRshift1 (hw : 0 < w) (n : ℕ) (vli : Vli w) :
    value n (vliRshift1 n vli) = value n vli / 2 := by
  rw [vliRshift1, value_rshiftBelow hw n vli 0 (b := 0) (by rw [Nat.zero_mul]; rfl),
    Nat.zero_mul, Nat.add_zero]

theorem vliRshift1_apply (vli : Vli w) {n i : ℕ} (h : n ≤ i) : vliRshift1 n vli i = vli i :=
  rshiftBelow_apply vli 0 h

/-! ## Sums and differences -/

theorem toNat_one (hw : 0 < w) : (1 : BitVec w).toNat = 1 :=
  BitVec.toNat_one hw

/-- The carry out of one word: a sum that equals its first operand carries on
what came in. -/
theorem add_carry (hw : 0 < w) (l r c : BitVec w) (hc : c.toNat ≤ 1) :
    (l + r + c).toNat + 2 ^ w *
        (if l + r + c ≠ l then (if l + r + c < l then (1 : BitVec w) else 0) else c).toNat =
      l.toNat + r.toNat + c.toNat ∧
      (if l + r + c ≠ l then (if l + r + c < l then (1 : BitVec w) else 0) else c).toNat ≤ 1 := by
  have hl := l.isLt
  have hr := r.isLt
  have hone := toNat_one hw
  have hzero : (0 : BitVec w).toNat = 0 := rfl
  have hsum : (l + r + c).toNat = (l.toNat + r.toNat + c.toNat) % 2 ^ w := by
    rw [BitVec.toNat_add, BitVec.toNat_add, Nat.mod_add_mod]
  have hwrap : (l + r + c).toNat = l.toNat + r.toNat + c.toNat ∨
      (l + r + c).toNat + 2 ^ w = l.toNat + r.toNat + c.toNat := by
    rcases Nat.lt_or_ge (l.toNat + r.toNat + c.toNat) (2 ^ w) with hlt | hge
    · exact .inl (hsum.trans (Nat.mod_eq_of_lt hlt))
    · rw [Nat.mod_eq_sub_mod hge, Nat.mod_eq_of_lt (by omega)] at hsum
      exact .inr (by omega)
  by_cases hsame : l + r + c = l
  · rw [if_neg (not_not.mpr hsame)]
    rw [hsame] at hwrap ⊢
    refine ⟨?_, hc⟩
    rcases hwrap with h | h
    · have : c.toNat = 0 := by omega
      rw [this, Nat.mul_zero]
      omega
    · have : c.toNat = 1 := by omega
      rw [this, Nat.mul_one]
      omega
  · rw [if_pos hsame]
    have hne : (l + r + c).toNat ≠ l.toNat := fun h => hsame (BitVec.eq_of_toNat_eq h)
    by_cases hlt : l + r + c < l
    · rw [if_pos hlt, hone, Nat.mul_one]
      rw [BitVec.lt_def] at hlt
      omega
    · rw [if_neg hlt, hzero, Nat.mul_zero]
      rw [BitVec.lt_def] at hlt
      omega

/-- The borrow out of one word. -/
theorem sub_borrow (hw : 0 < w) (l r c : BitVec w) (hc : c.toNat ≤ 1) :
    (l - r - c).toNat + r.toNat + c.toNat = l.toNat + 2 ^ w *
        (if l - r - c ≠ l then (if l - r - c > l then (1 : BitVec w) else 0) else c).toNat ∧
      (if l - r - c ≠ l then (if l - r - c > l then (1 : BitVec w) else 0) else c).toNat ≤ 1 := by
  have hl := l.isLt
  have hr := r.isLt
  have hdiff := (l - r - c).isLt
  have hone := toNat_one hw
  have hzero : (0 : BitVec w).toNat = 0 := rfl
  have hsum : ((l - r - c).toNat + r.toNat + c.toNat) % 2 ^ w = l.toNat := by
    have hback : l - r - c + r + c = l := by
      rw [BitVec.sub_sub, BitVec.add_assoc, BitVec.sub_add_cancel]
    rw [← congrArg BitVec.toNat hback, BitVec.toNat_add, BitVec.toNat_add, Nat.mod_add_mod]
  have hwrap : (l - r - c).toNat + r.toNat + c.toNat = l.toNat ∨
      (l - r - c).toNat + r.toNat + c.toNat = l.toNat + 2 ^ w := by
    rcases Nat.lt_or_ge ((l - r - c).toNat + r.toNat + c.toNat) (2 ^ w) with hlt | hge
    · exact .inl ((Nat.mod_eq_of_lt hlt).symm.trans hsum)
    · rw [Nat.mod_eq_sub_mod hge, Nat.mod_eq_of_lt (by omega)] at hsum
      exact .inr (by omega)
  by_cases hsame : l - r - c = l
  · rw [if_neg (not_not.mpr hsame)]
    rw [hsame] at hwrap ⊢
    refine ⟨?_, hc⟩
    rcases hwrap with h | h
    · have : c.toNat = 0 := by omega
      rw [this, Nat.mul_zero]
      omega
    · have : c.toNat = 1 := by omega
      rw [this, Nat.mul_one]
      omega
  · rw [if_pos hsame]
    have hne : (l - r - c).toNat ≠ l.toNat := fun h => hsame (BitVec.eq_of_toNat_eq h)
    by_cases hlt : l - r - c > l
    · rw [if_pos hlt, hone, Nat.mul_one]
      rw [gt_iff_lt, BitVec.lt_def] at hlt
      omega
    · rw [if_neg hlt, hzero, Nat.mul_zero]
      rw [gt_iff_lt, BitVec.lt_def] at hlt
      omega

/-- Words that were added up to a place. -/
structure Added (result left right : Vli w) (k : ℕ) (s : Vli w × BitVec w) : Prop where
  sum : value k s.1 + (2 ^ w) ^ k * s.2.toNat = value k left + value k right
  carry : s.2.toNat ≤ 1
  frame : ∀ i, k ≤ i → s.1 i = result i

/-- Words that were subtracted up to a place. -/
structure Subtracted (result left right : Vli w) (k : ℕ) (s : Vli w × BitVec w) : Prop where
  sum : value k s.1 + value k right = value k left + (2 ^ w) ^ k * s.2.toNat
  borrow : s.2.toNat ≤ 1
  frame : ∀ i, k ≤ i → s.1 i = result i

theorem vliAdd_spec (hw : 0 < w) (n : ℕ) (result left right : Vli w) :
    Added result left right n (vliAdd n result left right) := by
  refine foldRange_induction (Added result left right) (Nat.zero_le n) ?_ ?_
  · exact ⟨rfl, Nat.zero_le 1, fun _ _ => rfl⟩
  · intro k s _ _ h
    obtain ⟨hword, hcarry⟩ := add_carry hw (left k) (right k) s.2 h.carry
    refine ⟨?_, hcarry, ?_⟩
    · rw [addWord, value_update_succ, value_succ, value_succ, pow_succ]
      linear_combination (2 ^ w) ^ k * hword + h.sum
    · intro i hi
      exact (Function.update_of_ne (by omega) _ _).trans (h.frame i (by omega))

theorem subWords_spec (hw : 0 < w) (n : ℕ) (result left right : Vli w) :
    Subtracted result left right n (foldRange 0 n (result, 0) (subWord left right)) := by
  refine foldRange_induction (Subtracted result left right) (Nat.zero_le n) ?_ ?_
  · exact ⟨rfl, Nat.zero_le 1, fun _ _ => rfl⟩
  · intro k s _ _ h
    obtain ⟨hword, hborrow⟩ := sub_borrow hw (left k) (right k) s.2 h.borrow
    refine ⟨?_, hborrow, ?_⟩
    · rw [subWord, value_update_succ, value_succ, value_succ, pow_succ]
      linear_combination (2 ^ w) ^ k * hword + h.sum
    · intro i hi
      exact (Function.update_of_ne (by omega) _ _).trans (h.frame i (by omega))

theorem vliSub_spec (hw : 0 < w) (n : ℕ) (result left right : Vli w) :
    Subtracted result left right n (vliSub n result left right) :=
  subWords_spec hw n result left right

/-! ## Columns of a product -/

/-- The number in the three words. -/
def Column.value (c : Column w) : ℕ :=
  c.r0.toNat + c.r1.toNat * 2 ^ w + c.r2.toNat * (2 ^ w) ^ 2

/-- A sum of double words with its carry. -/
theorem double_carry (hw : 0 < w) (x p : BitVec (2 * w)) :
    (x + p).toNat + (2 ^ w) ^ 2 * (if x + p < p then (1 : BitVec w) else 0).toNat =
      x.toNat + p.toNat ∧ (if x + p < p then (1 : BitVec w) else 0).toNat ≤ 1 := by
  have hx := x.isLt
  have hp := p.isLt
  have hone := toNat_one hw
  have hzero : (0 : BitVec w).toNat = 0 := rfl
  have hdouble : (2 ^ w) ^ 2 = 2 ^ (2 * w) := by
    rw [← pow_mul, Nat.mul_comm]
  have hlt : x + p < p ↔ 2 ^ (2 * w) ≤ x.toNat + p.toNat := by
    rw [BitVec.lt_def, BitVec.toNat_add]
    rcases Nat.lt_or_ge (x.toNat + p.toNat) (2 ^ (2 * w)) with h | h
    · rw [Nat.mod_eq_of_lt h]
      omega
    · rw [Nat.mod_eq_sub_mod h, Nat.mod_eq_of_lt (by omega)]
      omega
  rw [hdouble, BitVec.toNat_add]
  by_cases hc : 2 ^ (2 * w) ≤ x.toNat + p.toNat
  · rw [if_pos (hlt.mpr hc), hone, Nat.mod_eq_sub_mod hc, Nat.mod_eq_of_lt (by omega)]
    omega
  · rw [if_neg (fun h => hc (hlt.mp h)), hzero, Nat.mod_eq_of_lt (by omega)]
    omega

/-- The words of a double word. -/
theorem double_words (S : BitVec (2 * w)) :
    (S.setWidth w).toNat + ((S >>> w).setWidth w).toNat * 2 ^ w = S.toNat := by
  have hS := S.isLt
  have hdouble : 2 ^ (2 * w) = 2 ^ w * 2 ^ w := by
    rw [Nat.two_mul, pow_add]
  have hhigh : S.toNat / 2 ^ w < 2 ^ w := Nat.div_lt_of_lt_mul (by omega)
  rw [BitVec.toNat_setWidth, BitVec.toNat_setWidth, BitVec.toNat_ushiftRight,
    Nat.shiftRight_eq_div_pow, Nat.mod_eq_of_lt hhigh]
  exact Nat.mod_add_div' _ _

theorem toNat_setWidth_double (x : BitVec w) : (x.setWidth (2 * w)).toNat = x.toNat := by
  rw [BitVec.toNat_setWidth]
  exact Nat.mod_eq_of_lt (x.isLt.trans_le (Nat.pow_le_pow_right (by decide) (by omega)))

theorem Column.low (c : Column w) :
    (c.r1.setWidth (2 * w) <<< w ||| c.r0.setWidth (2 * w)).toNat =
      c.r0.toNat + c.r1.toNat * 2 ^ w := by
  have hdouble : 2 ^ (2 * w) = 2 ^ w * 2 ^ w := by
    rw [Nat.two_mul, pow_add]
  have hhigh : c.r1.toNat * 2 ^ w < 2 ^ (2 * w) := by
    rw [hdouble]
    exact Nat.mul_lt_mul_of_pos_right c.r1.isLt (Nat.two_pow_pos w)
  rw [BitVec.toNat_or, BitVec.toNat_shiftLeft, toNat_setWidth_double, toNat_setWidth_double,
    Nat.shiftLeft_eq, Nat.mod_eq_of_lt hhigh, mul_two_pow_lor _ c.r0.isLt, Nat.add_comm]

/-- A carry into the third word of a column that has room for it. -/
theorem toNat_add_carry (r2 k : BitVec w) {l : ℕ}
    (h : r2.toNat * (2 ^ w) ^ 2 + (2 ^ w) ^ 2 * k.toNat + l < (2 ^ w) ^ 3) :
    (r2 + k).toNat = r2.toNat + k.toNat := by
  have hB : 0 < (2 ^ w) ^ 2 := Nat.pow_pos (Nat.two_pow_pos w)
  rw [BitVec.toNat_add]
  apply Nat.mod_eq_of_lt
  apply Nat.lt_of_mul_lt_mul_right (a := (2 ^ w) ^ 2)
  calc (r2.toNat + k.toNat) * (2 ^ w) ^ 2
      = r2.toNat * (2 ^ w) ^ 2 + (2 ^ w) ^ 2 * k.toNat := by ring
    _ ≤ r2.toNat * (2 ^ w) ^ 2 + (2 ^ w) ^ 2 * k.toNat + l := Nat.le_add_right _ _
    _ < (2 ^ w) ^ 3 := h
    _ = 2 ^ w * (2 ^ w) ^ 2 := by ring

/-- A double word added to the low words of a column, with its carry. -/
theorem addDouble_value (hw : 0 < w) (c : Column w) {x p : BitVec (2 * w)}
    (hx : x.toNat = c.r0.toNat + c.r1.toNat * 2 ^ w) (hfits : c.value + p.toNat < (2 ^ w) ^ 3) :
    Column.value
      { r0 := (x + p).setWidth w
        r1 := ((x + p) >>> w).setWidth w
        r2 := c.r2 + if x + p < p then 1 else 0 } =
      c.value + p.toNat := by
  obtain ⟨hsum, -⟩ := double_carry hw x p
  have hwords := double_words (x + p)
  rw [Column.value] at hfits ⊢
  have hcarry := toNat_add_carry c.r2 (if x + p < p then 1 else 0) (l := (x + p).toNat) (by omega)
  dsimp only
  rw [hwords, hcarry, Column.value, Nat.add_mul]
  linear_combination hsum + hx

theorem toNat_mul_double (a b : BitVec w) :
    (a.setWidth (2 * w) * b.setWidth (2 * w)).toNat = a.toNat * b.toNat := by
  have hdouble : 2 ^ (2 * w) = 2 ^ w * 2 ^ w := by
    rw [Nat.two_mul, pow_add]
  rw [BitVec.toNat_mul, toNat_setWidth_double, toNat_setWidth_double, hdouble]
  exact Nat.mod_eq_of_lt (Nat.mul_lt_mul'' a.isLt b.isLt)

theorem muladd_value (hw : 0 < w) (a b : BitVec w) (c : Column w)
    (hfits : c.value + a.toNat * b.toNat < (2 ^ w) ^ 3) :
    (muladd a b c).value = c.value + a.toNat * b.toNat := by
  rw [← toNat_mul_double] at hfits ⊢
  exact addDouble_value hw c c.low hfits

/-- A product that is added twice overflows into the third word. -/
theorem mul2add_value (hw : 0 < w) (a b : BitVec w) (c : Column w)
    (hfits : c.value + 2 * (a.toNat * b.toNat) < (2 ^ w) ^ 3) :
    (mul2add a b c).value = c.value + 2 * (a.toNat * b.toNat) := by
  rw [← toNat_mul_double] at hfits ⊢
  rw [mul2add]
  generalize a.setWidth (2 * w) * b.setWidth (2 * w) = p at hfits ⊢
  have hp := p.isLt
  have hhalf := two_pow_pred (w := 2 * w) (by omega)
  have hdouble : 2 ^ (2 * w) = (2 ^ w) ^ 2 := by
    rw [← pow_mul, Nat.mul_comm]
  have htop : ((p >>> (w * 2 - 1)).setWidth w).toNat = p.toNat / 2 ^ (2 * w - 1) := by
    rw [BitVec.toNat_setWidth, BitVec.toNat_ushiftRight, Nat.shiftRight_eq_div_pow,
      Nat.mul_comm w 2]
    apply Nat.mod_eq_of_lt
    calc p.toNat / 2 ^ (2 * w - 1) < 2 := Nat.div_lt_of_lt_mul (by omega)
      _ ≤ 2 ^ w := Nat.le_self_pow (by omega) 2
  have hbit : p.toNat / 2 ^ (2 * w - 1) ≤ 1 :=
    Nat.le_of_lt_succ (Nat.div_lt_of_lt_mul (by omega))
  have htwice : (p * 2).toNat + (2 ^ w) ^ 2 * (p.toNat / 2 ^ (2 * w - 1)) = 2 * p.toNat := by
    have htwo : (2 : BitVec (2 * w)).toNat = 2 :=
      Nat.mod_eq_of_lt (Nat.lt_of_lt_of_le (by decide) (Nat.pow_le_pow_right (by decide)
        (show 2 ≤ 2 * w by omega)))
    have hsplit := Nat.div_add_mod (p.toNat * 2) (2 ^ (2 * w))
    have hquot : p.toNat * 2 / 2 ^ (2 * w) = p.toNat / 2 ^ (2 * w - 1) := by
      rw [hhalf, Nat.mul_comm p.toNat, Nat.mul_div_mul_left _ _ (by decide)]
    rw [BitVec.toNat_mul, htwo, ← hdouble, ← hquot]
    omega
  have hcarry := toNat_add_carry c.r2 ((p >>> (w * 2 - 1)).setWidth w) (l := (p * 2).toNat)
    (by
      rw [Column.value] at hfits
      rw [htop]
      omega)
  have hvalue : (⟨c.r0, c.r1, c.r2 + (p >>> (w * 2 - 1)).setWidth w⟩ : Column w).value =
      c.value + (2 ^ w) ^ 2 * (p.toNat / 2 ^ (2 * w - 1)) := by
    rw [Column.value, hcarry, htop, Column.value]
    ring
  have hadd := addDouble_value hw ⟨c.r0, c.r1, c.r2 + (p >>> (w * 2 - 1)).setWidth w⟩
    (x := c.r1.setWidth (2 * w) <<< w ||| c.r0.setWidth (2 * w)) (p := p * 2) c.low (by omega)
  exact hadd.trans (by omega)

theorem toNat_low_half (x : BitVec 64) : (x &&& 0xffffffff).toNat = x.toNat % 2 ^ 32 := by
  rw [BitVec.toNat_and]
  exact Nat.and_two_pow_sub_one_eq_mod _ 32

theorem toNat_high_half (x : BitVec 64) : (x >>> 32).toNat = x.toNat / 2 ^ 32 := by
  rw [BitVec.toNat_ushiftRight, Nat.shiftRight_eq_div_pow]

theorem half_product_le {x y : ℕ} (hx : x < 2 ^ 32) (hy : y < 2 ^ 32) :
    x * y ≤ (2 ^ 32 - 1) * (2 ^ 32 - 1) :=
  Nat.mul_le_mul (by omega) (by omega)

theorem toNat_mul_halves {x y : BitVec 64} (hx : x.toNat < 2 ^ 32) (hy : y.toNat < 2 ^ 32) :
    (x * y).toNat = x.toNat * y.toNat := by
  rw [BitVec.toNat_mul]
  apply Nat.mod_eq_of_lt
  have := half_product_le hx hy
  omega

/-- The product of halves is the whole product. -/
theorem productHalves_eq (a b : BitVec 64) :
    (productHalves a b).1.toNat + (productHalves a b).2.toNat * 2 ^ 64 = a.toNat * b.toNat := by
  have ha := toNat_low_half a
  have ha' := toNat_high_half a
  have hb := toNat_low_half b
  have hb' := toNat_high_half b
  have hlt := a.isLt
  have hlt' := b.isLt
  rw [productHalves]
  generalize a &&& 0xffffffff = a0 at ha ⊢
  generalize a >>> 32 = a1 at ha' ⊢
  generalize b &&& 0xffffffff = b0 at hb ⊢
  generalize b >>> 32 = b1 at hb' ⊢
  have ha0 : a0.toNat < 2 ^ 32 := by omega
  have ha1 : a1.toNat < 2 ^ 32 := by omega
  have hb0 : b0.toNat < 2 ^ 32 := by omega
  have hb1 : b1.toNat < 2 ^ 32 := by omega
  have hprod : a.toNat * b.toNat = a0.toNat * b0.toNat +
      (a0.toNat * b1.toNat + a1.toNat * b0.toNat) * 2 ^ 32 + a1.toNat * b1.toNat * 2 ^ 64 := by
    have hsplit : a.toNat = a0.toNat + a1.toNat * 2 ^ 32 := by omega
    have hsplit' : b.toNat = b0.toNat + b1.toNat * 2 ^ 32 := by omega
    rw [hsplit, hsplit']
    ring
  have h00 := toNat_mul_halves ha0 hb0
  have h01 := toNat_mul_halves ha0 hb1
  have h10 := toNat_mul_halves ha1 hb0
  have h11 := toNat_mul_halves ha1 hb1
  have hle00 := half_product_le ha0 hb0
  have hle01 := half_product_le ha0 hb1
  have hle10 := half_product_le ha1 hb0
  have hle11 := half_product_le ha1 hb1
  rw [← h00, ← h01, ← h10, ← h11] at hprod
  rw [← h00] at hle00
  rw [← h01] at hle01
  rw [← h10] at hle10
  rw [← h11] at hle11
  rw [hprod]
  generalize a0 * b0 = i0 at hle00 ⊢
  generalize a0 * b1 = i1 at hle01 ⊢
  generalize a1 * b0 = i2 at hle10 ⊢
  generalize a1 * b1 = i3 at hle11 ⊢
  have hmiddle : (i2 + (i0 >>> 32) + i1).toNat =
      (i2.toNat + i0.toNat / 2 ^ 32 + i1.toNat) % 2 ^ 64 := by
    rw [BitVec.toNat_add, BitVec.toNat_add, Nat.mod_add_mod, toNat_high_half]
  generalize i2 + (i0 >>> 32) + i1 = m at hmiddle ⊢
  have hlow : ((i0 &&& (0xffffffff : BitVec 64)) ||| (m <<< 32)).toNat =
      i0.toNat % 2 ^ 32 + m.toNat % 2 ^ 32 * 2 ^ 32 := by
    have hshift : (m <<< 32).toNat = m.toNat % 2 ^ 32 * 2 ^ 32 := by
      rw [BitVec.toNat_shiftLeft, Nat.shiftLeft_eq]
      omega
    rw [BitVec.toNat_or, toNat_low_half, hshift, lor_mul_two_pow _ (Nat.mod_lt _ (by decide)),
      Nat.add_comm]
  have hhigh : ((if m < i1 then i3 + 0x100000000 else i3) + (m >>> 32)).toNat =
      i3.toNat + (if m.toNat < i1.toNat then 2 ^ 32 else 0) + m.toNat / 2 ^ 32 := by
    have hm := m.isLt
    rw [BitVec.toNat_add, toNat_high_half]
    by_cases hc : m < i1
    · have hcarry : (0x100000000 : BitVec 64).toNat = 2 ^ 32 := by decide
      have hwrap := BitVec.lt_def.mp hc
      rw [if_pos hc, if_pos hwrap, BitVec.toNat_add, hcarry]
      omega
    · rw [if_neg hc, if_neg (fun h => hc (BitVec.lt_def.mpr h))]
      omega
  dsimp only
  rw [hlow, hhigh]
  split <;> omega

/-- The halves and the double word give the same column. -/
theorem muladdHalves_eq (a b : BitVec 64) (c : Column 64) :
    muladdHalves a b c = muladd a b c := by
  have hprod := productHalves_eq a b
  have hdouble : (a.setWidth (2 * 64) * b.setWidth (2 * 64)).toNat = a.toNat * b.toNat :=
    toNat_mul_double a b
  have hcol := c.low
  rw [← hprod] at hdouble
  rcases hpair : productHalves a b with ⟨p0, p1⟩
  rw [hpair] at hdouble
  rw [muladdHalves, muladd, hpair]
  dsimp only at hdouble ⊢
  generalize a.setWidth (2 * 64) * b.setWidth (2 * 64) = p at hdouble ⊢
  generalize c.r1.setWidth (2 * 64) <<< 64 ||| c.r0.setWidth (2 * 64) = x at hcol ⊢
  have hr0 := c.r0.isLt
  have hr1 := c.r1.isLt
  have hp0 := p0.isLt
  have hp1 := p1.isLt
  have hwidth : (2 : ℕ) ^ (2 * 64) = 2 ^ 64 * 2 ^ 64 := by decide
  have hsum : (x + p).toNat = (x.toNat + p.toNat) % (2 ^ 64 * 2 ^ 64) := by
    rw [BitVec.toNat_add, hwidth]
  have hlow : (c.r0 + p0).toNat = (c.r0.toNat + p0.toNat) % 2 ^ 64 := BitVec.toNat_add _ _
  have hcarry : (if c.r0 + p0 < p0 then (1 : BitVec 64) else 0).toNat =
      (c.r0.toNat + p0.toNat) / 2 ^ 64 := by
    by_cases hc : c.r0 + p0 < p0
    · have hwrap := BitVec.lt_def.mp hc
      have hone : (1 : BitVec 64).toNat = 1 := rfl
      rw [if_pos hc, hone]
      omega
    · have hwrap : ¬(c.r0 + p0).toNat < p0.toNat := fun h => hc (BitVec.lt_def.mpr h)
      have hzero : (0 : BitVec 64).toNat = 0 := rfl
      rw [if_neg hc, hzero]
      omega
  generalize (if c.r0 + p0 < p0 then (1 : BitVec 64) else 0) = k at hcarry ⊢
  have hhigh : (c.r1 + (p1 + k)).toNat =
      (c.r1.toNat + p1.toNat + (c.r0.toNat + p0.toNat) / 2 ^ 64) % 2 ^ 64 := by
    rw [BitVec.toNat_add, BitVec.toNat_add, hcarry]
    omega
  have hdrop : (c.r1 + (p1 + k) < p1 ∨ c.r1 + (p1 + k) = p1 ∧ c.r0 + p0 < p0) ↔ x + p < p := by
    rw [BitVec.lt_def, BitVec.lt_def, BitVec.lt_def, ← BitVec.toNat_inj, hhigh, hlow, hsum, hcol,
      hdouble]
    omega
  ext : 1
  · apply BitVec.eq_of_toNat_eq
    rw [BitVec.toNat_setWidth, hlow, hsum, hcol, hdouble]
    omega
  · apply BitVec.eq_of_toNat_eq
    rw [BitVec.toNat_setWidth, BitVec.toNat_ushiftRight, Nat.shiftRight_eq_div_pow, hsum, hcol,
      hdouble]
    dsimp only
    rw [hhigh]
    omega
  · exact congrArg (c.r2 + ·) (if_congr hdrop rfl rfl)

/-! ## Products -/

/-- The columns below a place are stored and their carry waits. -/
structure Columns (n : ℕ) (left right : Vli w) (k : ℕ) (s : Vli w × Column w) : Prop where
  sum : value k s.1 + (2 ^ w) ^ k * s.2.value =
    ∑ j ∈ Finset.range k,
      columnSum n (fun i => (left i).toNat) (fun i => (right i).toNat) j * (2 ^ w) ^ j
  carry : s.2.value ≤ n * (2 ^ w - 1)

theorem Column.next_value (c : Column w) :
    c.r0.toNat + 2 ^ w * c.next.value = c.value := by
  have hzero : (0 : BitVec w).toNat = 0 := rfl
  rw [Column.next, Column.value, Column.value, hzero]
  ring

theorem columns_start (n : ℕ) (result left right : Vli w) :
    Columns n left right 0 (result, ⟨0, 0, 0⟩) := by
  have hzero : (⟨0, 0, 0⟩ : Column w).value = 0 := by
    have hword : (0 : BitVec w).toNat = 0 := rfl
    rw [Column.value, hword, Nat.zero_mul, Nat.zero_mul]
  constructor
  · rw [hzero]
    rfl
  · rw [hzero]
    exact Nat.zero_le _

theorem columnSum_words_le (n : ℕ) (left right : Vli w) (k : ℕ) :
    columnSum n (fun i => (left i).toNat) (fun i => (right i).toNat) k ≤
      n * ((2 ^ w - 1) * (2 ^ w - 1)) :=
  columnSum_le (fun i _ => (left i).isLt) (fun i _ => (right i).isLt) k

/-- A column has room for its sum. -/
theorem Columns.fits {left right : Vli w} {k : ℕ} {s : Vli w × Column w}
    (h : Columns n left right k s) (hw : 0 < w) (hn : n ≤ 2 ^ w) :
    s.2.value + columnSum n (fun i => (left i).toNat) (fun i => (right i).toNat) k <
      (2 ^ w) ^ 3 := by
  have hcarry := h.carry
  have hsum := columnSum_words_le n left right k
  have hB : 2 ≤ 2 ^ w := Nat.le_self_pow (by omega) 2
  obtain ⟨b, hb⟩ := Nat.exists_eq_add_of_le hB
  calc s.2.value + columnSum n (fun i => (left i).toNat) (fun i => (right i).toNat) k
      ≤ n * (2 ^ w - 1) + n * ((2 ^ w - 1) * (2 ^ w - 1)) := Nat.add_le_add hcarry hsum
    _ = n * ((2 ^ w - 1) * 2 ^ w) := by
        rw [hb, show 2 + b - 1 = b + 1 by omega]
        ring
    _ ≤ 2 ^ w * ((2 ^ w - 1) * 2 ^ w) := Nat.mul_le_mul_right _ hn
    _ < (2 ^ w) ^ 3 := by
        have hlt : 2 ^ w - 1 < 2 ^ w := by omega
        calc 2 ^ w * ((2 ^ w - 1) * 2 ^ w) < 2 ^ w * (2 ^ w * 2 ^ w) := by gcongr
          _ = (2 ^ w) ^ 3 := by ring

/-- A finished column moves its carry on. -/
theorem Columns.store {left right : Vli w} {k : ℕ} {s : Vli w × Column w}
    (h : Columns n left right k s) (hw : 0 < w) {c : Column w}
    (hc : c.value = s.2.value +
      columnSum n (fun i => (left i).toNat) (fun i => (right i).toNat) k) :
    Columns n left right (k + 1) (storeColumn k (s.1, c)) := by
  have hnext := c.next_value
  constructor
  · rw [Finset.sum_range_succ, ← h.sum, storeColumn]
    dsimp only
    rw [value_update_succ, pow_succ]
    linear_combination (2 ^ w) ^ k * hnext + (2 ^ w) ^ k * hc
  · have hcarry := h.carry
    have hsum := columnSum_words_le n left right k
    have hB : 2 ≤ 2 ^ w := Nat.le_self_pow (by omega) 2
    obtain ⟨b, hb⟩ := Nat.exists_eq_add_of_le hB
    have hmul : 2 ^ w * c.next.value ≤ 2 ^ w * (n * (2 ^ w - 1)) := by
      calc 2 ^ w * c.next.value ≤ c.value := by omega
        _ ≤ n * (2 ^ w - 1) + n * ((2 ^ w - 1) * (2 ^ w - 1)) := by omega
        _ = 2 ^ w * (n * (2 ^ w - 1)) := by
            rw [hb, show 2 + b - 1 = b + 1 by omega]
            ring
    exact Nat.le_of_mul_le_mul_left hmul (Nat.two_pow_pos w)

/-- The last word takes the carry that is left. -/
theorem Columns.finish {left right : Vli w} {s : Vli w × Column w} (hn : 0 < n)
    (h : Columns n left right (n * 2 - 1) s) :
    value (2 * n) (Function.update s.1 (n * 2 - 1) s.2.r0) = value n left * value n right := by
  have hprod : value n left * value n right =
      value (n * 2 - 1) s.1 + (2 ^ w) ^ (n * 2 - 1) * s.2.value := by
    rw [h.sum]
    exact digitSum_mul _ _ _ _
  have hlt : value n left * value n right < (2 ^ w) ^ (n * 2 - 1) * 2 ^ w := by
    calc value n left * value n right < (2 ^ w) ^ n * (2 ^ w) ^ n :=
          Nat.mul_lt_mul'' (value_lt n left) (value_lt n right)
      _ = (2 ^ w) ^ (n * 2 - 1) * 2 ^ w := by
          rw [← pow_add, ← pow_succ]
          congr 1
          omega
  have hcarry : s.2.value < 2 ^ w := by
    apply Nat.lt_of_mul_lt_mul_left (a := (2 ^ w) ^ (n * 2 - 1))
    omega
  have hword : s.2.r0.toNat = s.2.value := by
    have hnext := s.2.next_value
    have hzero : s.2.next.value = 0 := by
      by_contra hne
      have := Nat.mul_le_mul_left (2 ^ w) (Nat.one_le_iff_ne_zero.mpr hne)
      omega
    rw [hzero] at hnext
    omega
  have hlength : 2 * n = n * 2 - 1 + 1 := by omega
  rw [hlength, value_update_succ, hword, hprod, Nat.mul_comm s.2.value]

/-- The inner loop of `uECC_vli_mult` adds its column. -/
theorem foldRange_muladd (hw : 0 < w) (left right : Vli w) (k : ℕ) {lo hi : ℕ} (c : Column w)
    (hle : lo ≤ hi)
    (hfits : c.value + ∑ i ∈ Finset.Ico lo hi, (left i).toNat * (right (k - i)).toNat <
      (2 ^ w) ^ 3) :
    (foldRange lo hi c fun i c => muladd (left i) (right (k - i)) c).value =
      c.value + ∑ i ∈ Finset.Ico lo hi, (left i).toNat * (right (k - i)).toNat := by
  refine foldRange_induction (fun m (t : Column w) =>
    t.value = c.value + ∑ i ∈ Finset.Ico lo m, (left i).toNat * (right (k - i)).toNat) hle ?_ ?_
  · rw [Finset.Ico_self, Finset.sum_empty, Nat.add_zero]
  · intro m t hlo hhi ht
    have hsub : ∑ i ∈ Finset.Ico lo (m + 1), (left i).toNat * (right (k - i)).toNat ≤
        ∑ i ∈ Finset.Ico lo hi, (left i).toNat * (right (k - i)).toNat :=
      Finset.sum_le_sum_of_subset (Finset.Ico_subset_Ico_right hhi)
    rw [Finset.sum_Ico_succ_top hlo] at hsub ⊢
    rw [muladd_value hw _ _ _ (by omega), ht, Nat.add_assoc]

/-- `uECC_vli_mult` stores the product. -/
theorem value_vliMult (hw : 0 < w) (hpos : 0 < n) (hn : n ≤ 2 ^ w) (result left right : Vli w) :
    value (2 * n) (vliMult n result left right) = value n left * value n right := by
  apply Columns.finish hpos
  have hlow : Columns n left right n
      (foldRange 0 n (result, (⟨0, 0, 0⟩ : Column w)) fun k s => storeColumn k (s.1,
        foldRange 0 (k + 1) s.2 fun i c => muladd (left i) (right (k - i)) c)) := by
    refine foldRange_induction (Columns n left right) (Nat.zero_le n)
      (columns_start n result left right) ?_
    intro k s _ hk h
    apply h.store hw
    have hfits := h.fits hw hn
    rw [columnSum, Nat.sub_eq_zero_of_le hk, Nat.min_eq_left hk] at hfits ⊢
    exact foldRange_muladd hw left right k s.2 (Nat.zero_le _) hfits
  refine foldRange_induction (Columns n left right) (by omega) hlow ?_
  intro k s hnk hk h
  apply h.store hw
  have hfits := h.fits hw hn
  rw [columnSum, Nat.min_eq_right (by omega)] at hfits ⊢
  exact foldRange_muladd hw left right k s.2 (by omega) hfits

/-- The places of a column of a square meet in the middle. -/
theorem squareColumn_value (hw : 0 < w) (left : Vli w) (k : ℕ) {fuel i : ℕ} (c : Column w)
    (hfuel : k < i + fuel)
    (hfits : c.value + ∑ t ∈ Finset.Ico i (k + 1 - i), (left t).toNat * (left (k - t)).toNat <
      (2 ^ w) ^ 3) :
    (squareColumn left k fuel i c).value =
      c.value + ∑ t ∈ Finset.Ico i (k + 1 - i), (left t).toNat * (left (k - t)).toNat := by
  induction fuel generalizing i c with
  | zero => rw [squareColumn, Finset.Ico_eq_empty (by omega), Finset.sum_empty, Nat.add_zero]
  | succ fuel ih =>
      rw [squareColumn]
      by_cases hin : i ≤ k ∧ i ≤ k - i
      · rw [if_pos hin]
        have hlast : k + 1 - (i + 1) = k - i := by omega
        by_cases hlt : i < k - i
        · have hsplit : ∑ t ∈ Finset.Ico i (k + 1 - i), (left t).toNat * (left (k - t)).toNat =
              2 * ((left i).toNat * (left (k - i)).toNat) +
                ∑ t ∈ Finset.Ico (i + 1) (k - i), (left t).toNat * (left (k - t)).toNat := by
            have hend : k + 1 - i = k - i + 1 := by omega
            have hback : k - (k - i) = i := by omega
            rw [hend, Finset.sum_Ico_succ_top (by omega), Finset.sum_eq_sum_Ico_succ_bot hlt,
              hback]
            ring
          have hvalue := mul2add_value hw (left i) (left (k - i)) c (by omega)
          rw [if_pos hlt, ih _ (by omega) (by rw [hlast, hvalue]; omega), hlast, hvalue, hsplit,
            Nat.add_assoc]
        · have hmiddle : k + 1 - i = i + 1 := by omega
          have hempty : Finset.Ico (i + 1) (k - i) = ∅ := Finset.Ico_eq_empty (by omega)
          rw [hmiddle, Finset.sum_Ico_succ_top le_rfl, Finset.Ico_self, Finset.sum_empty,
            Nat.zero_add] at hfits ⊢
          have hvalue := muladd_value hw (left i) (left (k - i)) c hfits
          rw [if_neg hlt, ih _ (by omega) (by
            rw [hlast, hempty, Finset.sum_empty, Nat.add_zero, hvalue]
            exact hfits), hlast, hempty, Finset.sum_empty, Nat.add_zero, hvalue]
      · rw [if_neg hin, Finset.Ico_eq_empty (by omega), Finset.sum_empty, Nat.add_zero]

/-- `uECC_vli_square` stores the square. -/
theorem value_vliSquare (hw : 0 < w) (hpos : 0 < n) (hn : n ≤ 2 ^ w) (result left : Vli w) :
    value (2 * n) (vliSquare n result left) = value n left * value n left := by
  apply Columns.finish hpos
  refine foldRange_induction (Columns n left left) (Nat.zero_le _)
    (columns_start n result left left)
    ?_
  intro k s _ hk h
  apply h.store hw
  have hfits := h.fits hw hn
  have hfirst : (if k < n then 0 else k + 1 - n) = k + 1 - n := by
    split <;> omega
  have hlast : min (k + 1) n = k + 1 - (k + 1 - n) := by omega
  rw [columnSum, hlast] at hfits ⊢
  rw [hfirst]
  exact squareColumn_value hw left k s.2 (by omega) hfits

/-- Words that stand for the same number are the same. -/
theorem words_eq {vli vli' : Vli w} (h : value n vli = value n vli') : ∀ i < n, vli i = vli' i := by
  intro i hi
  have hleft := lane_digitSum (fun k (_ : k < n) => (vli k).isLt) i
  have hright := lane_digitSum (fun k (_ : k < n) => (vli' k).isLt) i
  rw [if_pos hi] at hleft hright
  exact BitVec.eq_of_toNat_eq (hleft.symm.trans ((congrArg (lane w · i) h).trans hright))

/-- `uECC_vli_mult` is the product, and `uECC_vli_square` the product with itself. -/
theorem products_exact (hw : 0 < w) (hpos : 0 < n) (hn : n ≤ 2 ^ w) (result left right : Vli w) :
    value (2 * n) (vliMult n result left right) = value n left * value n right ∧
      ∀ i < 2 * n, vliSquare n result left i = vliMult n result left left i := by
  have hsquare := value_vliSquare hw hpos hn result left
  have hmult := value_vliMult hw hpos hn result left left
  exact ⟨value_vliMult hw hpos hn result left right, words_eq (hsquare.trans hmult.symm)⟩

/-- Two words of eight bits, all ones. -/
theorem products_exact_ones :
    (0 < 8 ∧ 0 < 2 ∧ 2 ≤ 2 ^ 8) ∧
      value (2 * 2) (vliMult (w := 8) 2 (fun _ => 0) (fun _ => 255) fun _ => 255) =
        value 2 (fun _ => (255 : BitVec 8)) * value 2 (fun _ => (255 : BitVec 8)) ∧
      ∀ i < 2 * 2, vliSquare (w := 8) 2 (fun _ => 0) (fun _ => 255) i =
        vliMult (w := 8) 2 (fun _ => 0) (fun _ => 255) (fun _ => 255) i :=
  ⟨by decide, products_exact (by decide) (by decide) (by decide) _ _ _⟩

/-- A bit of the words is that of their value. -/
theorem vliTestBit_ne_zero_iff (hw : 0 < w) (vli : Vli w) {bit : ℕ} (hbit : bit / w < n) :
    vliTestBit vli bit ≠ 0 ↔ (value n vli).testBit bit = true := by
  have hplace := Nat.mod_lt bit hw
  have hword : lane w (value n vli) (bit / w) = (vli (bit / w)).toNat := by
    rw [value, lane_digitSum (fun i _ => (vli i).isLt), if_pos hbit]
  have hvalue : (value n vli).testBit bit = (vli (bit / w)).getLsbD (bit % w) := by
    rw [BitVec.getLsbD, ← hword, testBit_lane _ _ hplace, Nat.div_add_mod]
  have hget : ∀ j < w, (vliTestBit vli bit).getLsbD j =
      ((vli (bit / w)).getLsbD j && decide (j = bit % w)) := fun j hj => by
    have hone : ((1#w) <<< (bit % w)).getLsbD j = decide (j = bit % w) := by
      rw [← BitVec.twoPow_eq, BitVec.getLsbD_twoPow, decide_eq_true hplace, Bool.true_and]
      exact decide_eq_decide.mpr eq_comm
    exact BitVec.getLsbD_and.trans (congrArg _ hone)
  rw [hvalue]
  constructor
  · intro hne
    by_contra hclear
    refine hne (BitVec.eq_of_getLsbD_eq fun j hj => ?_)
    rw [hget j hj]
    by_cases heq : j = bit % w
    · rw [heq, Bool.eq_false_of_not_eq_true hclear]
      simp
    · simp [heq]
  · intro hset hzero
    have h := hget (bit % w) hplace
    rw [hzero, hset] at h
    simp at h

end Xhive.MicroEcc
