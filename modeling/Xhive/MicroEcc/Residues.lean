import Xhive.MicroEcc.VliExact
import Mathlib.Data.Nat.Size
import Mathlib.Data.Nat.ModEq
import Mathlib.Data.Nat.Prime.Basic

/-!
# Residues of large integers

Sums and differences are reduced by one multiple of the modulus, products by its
shifted multiples.
-/

namespace Xhive.MicroEcc

open Xhive.Support

variable {w n : ℕ}

/-! ## Sums and differences -/

/-- The carry of a sum tells whether it left the words. -/
theorem vliAdd_cases (hw : 0 < w) (result left right : Vli w) :
    ((vliAdd n result left right).2 = 0 ∧
      value n (vliAdd n result left right).1 = value n left + value n right) ∨
    ((vliAdd n result left right).2 ≠ 0 ∧
      value n (vliAdd n result left right).1 + (2 ^ w) ^ n = value n left + value n right) := by
  have h := vliAdd_spec hw n result left right
  have hsum := h.sum
  have hcarry := h.carry
  have hzero : (0 : BitVec w).toNat = 0 := rfl
  by_cases hc : (vliAdd n result left right).2 = 0
  · rw [hc, hzero, Nat.mul_zero] at hsum
    exact .inl ⟨hc, hsum⟩
  · have hne : (vliAdd n result left right).2.toNat ≠ 0 :=
      fun heq => hc (BitVec.eq_of_toNat_eq heq)
    have hone : (vliAdd n result left right).2.toNat = 1 := by omega
    rw [hone, Nat.mul_one] at hsum
    exact .inr ⟨hc, hsum⟩

/-- The borrow of a difference tells whether it fell below zero. -/
theorem subWords_cases (hw : 0 < w) (result left right : Vli w) :
    ((foldRange 0 n (result, 0) (subWord left right)).2 = 0 ∧
      value n (foldRange 0 n (result, 0) (subWord left right)).1 + value n right = value n left) ∨
    ((foldRange 0 n (result, 0) (subWord left right)).2 ≠ 0 ∧
      value n (foldRange 0 n (result, 0) (subWord left right)).1 + value n right =
        value n left + (2 ^ w) ^ n) := by
  have h := subWords_spec hw n result left right
  generalize foldRange 0 n (result, 0) (subWord left right) = s at h ⊢
  have hsum := h.sum
  have hborrow := h.borrow
  have hzero : (0 : BitVec w).toNat = 0 := rfl
  by_cases hc : s.2 = 0
  · rw [hc, hzero, Nat.mul_zero, Nat.add_zero] at hsum
    exact .inl ⟨hc, hsum⟩
  · have hne : s.2.toNat ≠ 0 := fun heq => hc (BitVec.eq_of_toNat_eq heq)
    have hone : s.2.toNat = 1 := by omega
    rw [hone, Nat.mul_one] at hsum
    exact .inr ⟨hc, hsum⟩

theorem vliSub_cases (hw : 0 < w) (result left right : Vli w) :
    ((vliSub n result left right).2 = 0 ∧
      value n (vliSub n result left right).1 + value n right = value n left) ∨
    ((vliSub n result left right).2 ≠ 0 ∧
      value n (vliSub n result left right).1 + value n right = value n left + (2 ^ w) ^ n) :=
  subWords_cases hw result left right

/-- The comparison in constant time is the one that stops at the first word that differs. -/
theorem vliCmp_eq (hw : 0 < w) (tmp left right : Vli w) :
    vliCmp n tmp left right = vliCmpUnsafe left right n := by
  have hleft := value_lt n left
  have hright := value_lt n right
  have hdiff := value_lt n (vliSub n tmp left right).1
  rw [vliCmp, vliCmpUnsafe_eq]
  rcases vliSub_cases (n := n) hw tmp left right with ⟨hborrow, h⟩ | ⟨hborrow, h⟩
  · rw [if_neg (not_not.mpr hborrow)]
    by_cases hzero : value n (vliSub n tmp left right).1 = 0
    · rw [if_pos ((vliIsZero_iff _ _).mpr hzero), show value n left = value n right by omega,
        sub_self, Int.sign_zero]
      rfl
    · rw [if_neg (fun h' => hzero ((vliIsZero_iff _ _).mp h')),
        Int.sign_eq_one_of_pos (show (0 : ℤ) < value n left - value n right by omega)]
      rfl
  · have hzero : value n (vliSub n tmp left right).1 ≠ 0 := by omega
    rw [if_pos hborrow, if_neg (fun h' => hzero ((vliIsZero_iff _ _).mp h')),
      Int.sign_eq_neg_one_of_neg (show (value n left : ℤ) - value n right < 0 by omega)]
    rfl

/-- A difference that does not fall below zero. -/
theorem value_vliSub_of_le (hw : 0 < w) (result left right : Vli w)
    (hle : value n right ≤ value n left) :
    value n (vliSub n result left right).1 = value n left - value n right := by
  have hlt := value_lt n left
  have hlt' := value_lt n (vliSub n result left right).1
  rcases vliSub_cases (n := n) hw result left right with ⟨-, h⟩ | ⟨-, h⟩ <;> omega

theorem value_vliModAdd (hw : 0 < w) (result left right mod : Vli w)
    (hl : value n left < value n mod) (hr : value n right < value n mod) :
    value n (vliModAdd n result left right mod) = (value n left + value n right) % value n mod := by
  have hM := value_lt n mod
  have hsum := value_lt n (vliAdd n result left right).1
  rw [vliModAdd]
  have hsub := vliSub_cases (n := n) hw (vliAdd n result left right).1
    (vliAdd n result left right).1 mod
  have hdiff := value_lt n (vliSub n (vliAdd n result left right).1
    (vliAdd n result left right).1 mod).1
  rcases vliAdd_cases (n := n) hw result left right with ⟨hcarry, h⟩ | ⟨hcarry, h⟩
  · by_cases hlt : value n (vliAdd n result left right).1 < value n mod
    · have hone := (vliCmpUnsafe_one_iff mod (vliAdd n result left right).1 n).mpr hlt
      rw [if_neg (by simp [hcarry, hone]), h, Nat.mod_eq_of_lt (by omega)]
    · have hone : vliCmpUnsafe mod (vliAdd n result left right).1 n ≠ 1 :=
        fun heq => hlt ((vliCmpUnsafe_one_iff _ _ n).mp heq)
      rw [if_pos (.inr hone), Nat.mod_eq_sub_mod (by omega), Nat.mod_eq_of_lt (by omega)]
      rcases hsub with ⟨-, h'⟩ | ⟨-, h'⟩ <;> omega
  · rw [if_pos (.inl hcarry), Nat.mod_eq_sub_mod (by omega), Nat.mod_eq_of_lt (by omega)]
    rcases hsub with ⟨-, h'⟩ | ⟨-, h'⟩ <;> omega

theorem value_vliModSub (hw : 0 < w) (result left right mod : Vli w)
    (hl : value n left < value n mod) (hr : value n right < value n mod) :
    value n (vliModSub n result left right mod) =
      (value n left + (value n mod - value n right)) % value n mod := by
  have hM := value_lt n mod
  have hdiff := value_lt n (vliSub n result left right).1
  rw [vliModSub]
  have hadd := vliAdd_cases (n := n) hw (vliSub n result left right).1
    (vliSub n result left right).1 mod
  have hsum := value_lt n (vliAdd n (vliSub n result left right).1
    (vliSub n result left right).1 mod).1
  rcases vliSub_cases (n := n) hw result left right with ⟨hborrow, h⟩ | ⟨hborrow, h⟩
  · rw [if_neg (not_not.mpr hborrow), Nat.mod_eq_sub_mod (by omega), Nat.mod_eq_of_lt (by omega)]
    omega
  · rw [if_pos hborrow, Nat.mod_eq_of_lt (by omega)]
    rcases hadd with ⟨-, h'⟩ | ⟨-, h'⟩ <;> omega

/-! ## The length of a number -/

theorem countBits_eq (fuel : ℕ) (digit : BitVec w) (h : digit.toNat < 2 ^ fuel) :
    countBits fuel digit = digit.toNat.size := by
  induction fuel generalizing digit with
  | zero =>
      have hzero : digit.toNat = 0 := by simpa using h
      rw [countBits, hzero, Nat.size_zero]
  | succ fuel ih =>
      rw [countBits]
      by_cases hzero : digit = 0
      · rw [if_pos hzero, hzero]
        exact Nat.size_zero.symm
      · have hne : digit.toNat ≠ 0 := fun heq => hzero (BitVec.eq_of_toNat_eq heq)
        have hhalf : (digit >>> 1).toNat = digit.toNat / 2 := by
          rw [BitVec.toNat_ushiftRight, Nat.shiftRight_eq_div_pow, pow_one]
        have hbit : Nat.bit (digit.toNat.bodd) (digit.toNat / 2) = digit.toNat := by
          rw [← Nat.div2_val]
          exact Nat.bit_bodd_div2 _
        rw [if_neg hzero, ih _ (by rw [hhalf]; rw [pow_succ] at h; omega), hhalf]
        conv_rhs => rw [← hbit]
        rw [Nat.size_bit (by rw [hbit]; exact hne)]

/-- A number with a part above `k` bits. -/
theorem size_add_mul {low top k : ℕ} (hlow : low < 2 ^ k) (htop : top ≠ 0) :
    (low + top * 2 ^ k).size = k + top.size := by
  refine le_antisymm (Nat.size_le.mpr ?_) ?_
  · have hsize : top + 1 ≤ 2 ^ top.size := Nat.lt_size_self top
    have hmul := Nat.mul_le_mul_right (2 ^ k) hsize
    rw [Nat.add_mul, Nat.one_mul] at hmul
    rw [pow_add, Nat.mul_comm (2 ^ k)]
    omega
  · obtain ⟨j, hj⟩ : ∃ j, top.size = j + 1 :=
      Nat.exists_eq_add_one_of_ne_zero (fun h => htop (Nat.size_eq_zero.mp h))
    have hle : 2 ^ j ≤ top := Nat.lt_size.mp (by omega)
    have hmul := Nat.mul_le_mul_right (2 ^ k) hle
    have hlt : k + j < (low + top * 2 ^ k).size :=
      Nat.lt_size.mpr (by rw [pow_add, Nat.mul_comm (2 ^ k)]; omega)
    omega

/-- The words above the counted ones are zero, and the highest one counted is not. -/
theorem vliNumDigits_spec (vli : Vli w) (n : ℕ) :
    value n vli = value (vliNumDigits vli n) vli ∧
      (vliNumDigits vli n ≠ 0 → vli (vliNumDigits vli n - 1) ≠ 0) := by
  induction n with
  | zero => exact ⟨rfl, fun h => absurd rfl h⟩
  | succ n ih =>
      rw [vliNumDigits]
      by_cases hzero : vli n = 0
      · have hnat : (vli n).toNat = 0 := by rw [hzero]; rfl
        rw [if_pos hzero, value_succ, hnat, Nat.zero_mul, Nat.add_zero]
        exact ih
      · rw [if_neg hzero]
        exact ⟨rfl, fun _ => hzero⟩

/-- `uECC_vli_numBits` is the length of the number. -/
theorem vliNumBits_eq (n : ℕ) (vli : Vli w) : vliNumBits n vli = (value n vli).size := by
  obtain ⟨hvalue, htop⟩ := vliNumDigits_spec vli n
  rw [vliNumBits, hvalue]
  by_cases hzero : vliNumDigits vli n = 0
  · rw [if_pos hzero, hzero]
    exact Nat.size_zero.symm
  · obtain ⟨d, hd⟩ := Nat.exists_eq_add_one_of_ne_zero hzero
    have hword := htop hzero
    have hlow := value_lt d vli
    rw [hd, Nat.add_sub_cancel] at hword
    have hne : (vli d).toNat ≠ 0 := fun heq => hword (BitVec.eq_of_toNat_eq heq)
    rw [if_neg hzero, hd, Nat.add_sub_cancel, value_succ, countBits_eq w _ (vli d).isLt, ← pow_mul]
    rw [← pow_mul] at hlow
    rw [size_add_mul hlow hne, Nat.mul_comm d w]

/-- A modulus whose highest word is not zero fills its words but for less than one. -/
theorem numBits_bounds {mod : Vli w} (hn : 0 < n) (htop : mod (n - 1) ≠ 0) :
    (n - 1) * w < vliNumBits n mod ∧ vliNumBits n mod ≤ n * w := by
  obtain ⟨m, rfl⟩ := Nat.exists_eq_add_one_of_ne_zero hn.ne'
  rw [Nat.add_sub_cancel] at htop ⊢
  have hne : (mod m).toNat ≠ 0 := fun heq => htop (BitVec.eq_of_toNat_eq heq)
  rw [vliNumBits_eq]
  constructor
  · refine Nat.lt_size.mpr ?_
    rw [value_succ, Nat.mul_comm m w, pow_mul]
    exact le_add_left (Nat.le_mul_of_pos_left _ (Nat.pos_of_ne_zero hne))
  · refine Nat.size_le.mpr ?_
    rw [Nat.mul_comm, pow_mul]
    exact value_lt _ _

/-! ## The shifted modulus -/

theorem value_replace (vli words : Vli w) (base : ℕ) :
    value base (vli.replace base words) = value base vli :=
  value_congr fun _ hi => if_neg (by omega)

theorem drop_replace (vli words : Vli w) (base : ℕ) :
    (vli.replace base words).drop base = words := by
  funext i
  rw [Vli.drop, Vli.replace, if_pos (Nat.le_add_right _ _), Nat.add_sub_cancel_left]

/-- A word moved up, with the bits that the word below it lost. -/
theorem shiftedWord {s : ℕ} (hs : s < w) (word carry : BitVec w) (hcarry : carry.toNat < 2 ^ s) :
    ((word <<< s) ||| carry).toNat + (word >>> (w - s)).toNat * 2 ^ w =
      word.toNat * 2 ^ s + carry.toNat := by
  have hpow : 2 ^ w = 2 ^ (w - s) * 2 ^ s := by
    rw [← pow_add]
    congr 1
    omega
  have hsplit := Nat.div_add_mod word.toNat (2 ^ (w - s))
  rw [BitVec.toNat_or, BitVec.toNat_shiftLeft, Nat.shiftLeft_eq, BitVec.toNat_ushiftRight,
    Nat.shiftRight_eq_div_pow, hpow, Nat.mul_mod_mul_right, Nat.lor_comm,
    lor_mul_two_pow _ hcarry]
  nth_rewrite 3 [← hsplit]
  ring

theorem shiftedWord_carry {s : ℕ} (hs : s < w) (word : BitVec w) :
    (word >>> (w - s)).toNat < 2 ^ s := by
  rw [BitVec.toNat_ushiftRight, Nat.shiftRight_eq_div_pow,
    Nat.div_lt_iff_lt_mul (Nat.two_pow_pos _), ← pow_add, Nat.add_sub_cancel' hs.le]
  exact word.isLt

theorem drop_update_add (vli : Vli w) (base k : ℕ) (x : BitVec w) :
    (Vli.drop (Function.update vli (base + k) x) base) = Function.update (vli.drop base) k x := by
  funext i
  rw [Vli.drop, Function.update_apply, Function.update_apply, Vli.drop]
  exact if_congr (by omega) rfl rfl

/-- The shifted modulus so far. -/
structure Shifted (n s : ℕ) (mod : Vli w) (k : ℕ) (t : Vli w × BitVec w) : Prop where
  sum : value k (t.1.drop n) + t.2.toNat * (2 ^ w) ^ k = value k mod * 2 ^ s
  carry : t.2.toNat < 2 ^ s
  low : ∀ i < n, t.1 i = 0

theorem shifted_run {s : ℕ} (hsw : s < w) (memory mod : Vli w) :
    Shifted n s mod n (foldRange 0 n (vliClear n memory, (0 : BitVec w)) fun index t =>
      (Function.update t.1 (n + index) ((mod index <<< s) ||| t.2), mod index >>> (w - s))) := by
  refine foldRange_induction (Shifted n s mod) (Nat.zero_le n) ?_ fun k t _ _ ht => ?_
  · exact
      { sum := by
          show 0 + 0 * _ = 0 * 2 ^ s
          rw [Nat.zero_mul, Nat.zero_mul]
        carry := Nat.two_pow_pos s
        low := fun i hi => (vliClear_apply n memory i).trans (if_pos hi) }
  · exact
      { sum := by
          have hword := shiftedWord hsw (mod k) t.2 ht.carry
          have hsum := ht.sum
          rw [drop_update_add, value_update_succ, value_succ, pow_succ]
          linear_combination hsum + (2 ^ w) ^ k * hword
        carry := shiftedWord_carry hsw (mod k)
        low := fun i hi => (Function.update_of_ne (by omega) _ _).trans (ht.low i hi) }

/-- The modulus stands at the top of the double number. -/
theorem value_shiftedMod (hw : 0 < w) (hn : 0 < n) (memory mod : Vli w) (htop : mod (n - 1) ≠ 0) :
    value (n * 2) (shiftedMod n memory mod) =
      value n mod * 2 ^ (n * 2 * w - vliNumBits n mod) := by
  obtain ⟨hlo, hhi⟩ := numBits_bounds hn htop
  obtain ⟨m, rfl⟩ := Nat.exists_eq_add_one_of_ne_zero hn.ne'
  rw [Nat.add_sub_cancel] at hlo
  obtain ⟨s, hs⟩ := Nat.exists_eq_add_of_le hhi
  generalize hbits : vliNumBits (m + 1) mod = bits at hlo hhi hs
  have hsw : s < w := by
    rw [Nat.add_mul, Nat.one_mul] at hs
    omega
  have hshift : (m + 1) * 2 * w - bits = (m + 1) * w + s := by
    have hdouble : (m + 1) * 2 * w = (m + 1) * w * 2 := Nat.mul_right_comm _ _ _
    omega
  have hdiv : ((m + 1) * w + s) / w = m + 1 := by
    rw [Nat.mul_comm, Nat.mul_add_div hw, Nat.div_eq_of_lt hsw, Nat.add_zero]
  have hmod : ((m + 1) * w + s) % w = s := by
    rw [Nat.mul_comm, Nat.mul_add_mod, Nat.mod_eq_of_lt hsw]
  have hfits : value (m + 1) mod * 2 ^ s < (2 ^ w) ^ (m + 1) := by
    have hlt : value (m + 1) mod < 2 ^ bits := by
      rw [← hbits, vliNumBits_eq]
      exact Nat.lt_size_self _
    rw [← pow_mul, Nat.mul_comm w, hs, pow_add]
    exact Nat.mul_lt_mul_of_pos_right hlt (Nat.two_pow_pos s)
  rw [shiftedMod, hbits, hshift, hdiv, hmod, pow_add, Nat.mul_comm (m + 1) w, pow_mul,
    Nat.mul_left_comm, Nat.mul_two, value_add]
  by_cases hzero : 0 < s
  · have hrun := shifted_run (n := m + 1) hsw memory mod
    rw [if_pos hzero]
    generalize foldRange 0 (m + 1) _ _ = t at hrun ⊢
    have hsum := hrun.sum
    have hcarry : t.2.toNat = 0 := by
      by_contra hne
      have hle := Nat.le_mul_of_pos_left ((2 ^ w) ^ (m + 1)) (Nat.pos_of_ne_zero hne)
      omega
    rw [hcarry, Nat.zero_mul, Nat.add_zero] at hsum
    rw [value_zero_words hrun.low, hsum, Nat.zero_add]
  · have hs0 : s = 0 := by omega
    rw [if_neg hzero, value_replace, value_vliClear, drop_replace, value_vliSet, hs0, pow_zero,
      Nat.mul_one, Nat.zero_add]

/-! ## Subtracting the multiples -/

/-- Halved words below a bit that stands above them. -/
theorem value_vliRshift1_or (hw : 0 < w) (m : ℕ) (vli : Vli w) (carry : BitVec w) {b : ℕ}
    (hcarry : carry.toNat = b * 2 ^ (w - 1)) :
    value (m + 1) (Function.update (vliRshift1 (m + 1) vli) m
      (vliRshift1 (m + 1) vli m ||| carry)) = (value (m + 1) vli + b * (2 ^ w) ^ (m + 1)) / 2 := by
  have hword : vliRshift1 (m + 1) vli m = vli m >>> 1 := by
    rw [vliRshift1, rshiftBelow, rshiftBelow_apply _ _ le_rfl, Function.update_self]
    exact BitVec.or_zero
  have hlow : ∀ c : BitVec w, value m (rshiftBelow (m + 1) (vli, c)).1 =
      (value m vli + (vli m).toNat % 2 * (2 ^ w) ^ m) / 2 := fun c => by
    rw [rshiftBelow, value_rshiftBelow hw m _ _ (toNat_shiftLeft_top hw (vli m)),
      value_update_of_le _ le_rfl]
  rw [value_update_succ, hword, vliRshift1, hlow, ← value_rshiftBelow hw (m + 1) vli carry hcarry,
    value_succ, hlow, rshiftBelow, rshiftBelow_apply _ _ le_rfl, Function.update_self]

/-- The lowest bit of a number is the one of its lowest word. -/
theorem value_mod_two (hw : 0 < w) (m : ℕ) (vli : Vli w) :
    value (m + 1) vli % 2 = (vli 0).toNat % 2 := by
  have hone : value 1 vli = (vli 0).toNat := by
    rw [value_succ, pow_zero, Nat.mul_one]
    exact Nat.zero_add _
  rw [Nat.add_comm, value_add, hone, pow_one, two_pow_pred hw, Nat.mul_assoc,
    Nat.add_mul_mod_self_left]

/-- The multiple in the two halves of a double number, halved. -/
theorem value_halved (hw : 0 < w) (m : ℕ) {multiple low : Vli w}
    (hlow : low = Function.update (vliRshift1 (m + 1) multiple) m
      (vliRshift1 (m + 1) multiple m ||| (vliRshift1 (m + 1) multiple (m + 1) <<< (w - 1)))) :
    value ((m + 1) * 2) (low.replace (m + 1) (vliRshift1 (m + 1) (low.drop (m + 1)))) =
      value ((m + 1) * 2) multiple / 2 := by
  have hhigh : value (m + 1) (low.drop (m + 1)) = value (m + 1) (multiple.drop (m + 1)) :=
    value_congr fun i _ => by
      rw [hlow, Vli.drop, Vli.drop, Function.update_of_ne (by omega), vliRshift1_apply _ (by omega)]
  have hparity : value (m + 1) (multiple.drop (m + 1)) % 2 = (multiple (m + 1)).toNat % 2 :=
    value_mod_two hw m _
  have hlower := value_vliRshift1_or hw m multiple _ (toNat_shiftLeft_top hw (multiple (m + 1)))
  rw [Nat.mul_two, value_add (m + 1) (m + 1), value_add (m + 1) (m + 1), value_replace,
    drop_replace, value_vliRshift1 hw, hhigh, hlow, vliRshift1_apply _ le_rfl, hlower, ← hparity]
  generalize value (m + 1) (multiple.drop (m + 1)) = high
  have hsplit := Nat.div_add_mod high 2
  have heven : value (m + 1) multiple + (2 ^ w) ^ (m + 1) * high =
      value (m + 1) multiple + high % 2 * (2 ^ w) ^ (m + 1) +
        (2 ^ w) ^ (m + 1) * (high / 2) * 2 := by
    nth_rewrite 1 [← hsplit]
    ring
  rw [heven, Nat.add_mul_div_right _ _ (by decide)]

/-- One round: the multiple is halved after it was subtracted where it fits. -/
theorem mmodRound_spec (hw : 0 < w) (hn : 0 < n) (multiple v spare : Vli w) :
    value (n * 2) (mmodRound n (multiple, v, spare)).1 = value (n * 2) multiple / 2 ∧
      value (n * 2) (mmodRound n (multiple, v, spare)).2.1 =
        if value (n * 2) v < value (n * 2) multiple then value (n * 2) v
        else value (n * 2) v - value (n * 2) multiple := by
  obtain ⟨m, rfl⟩ := Nat.exists_eq_add_one_of_ne_zero hn.ne'
  have hdiff := value_lt ((m + 1) * 2) (foldRange 0 ((m + 1) * 2) (spare, 0) (subWord v multiple)).1
  rw [mmodRound]
  rcases subWords_cases (n := (m + 1) * 2) hw spare v multiple with ⟨hborrow, h⟩ | ⟨hborrow, h⟩
  · rw [if_pos hborrow, if_neg (by omega)]
    exact ⟨value_halved hw m rfl, Nat.eq_sub_of_add_eq h⟩
  · rw [if_neg hborrow, if_pos (by omega)]
    exact ⟨value_halved hw m rfl, rfl⟩

/-- Between two rounds: the multiple after `j` of `shift + 1` halvings, and a number below twice
that multiple with the residue of the product. -/
structure Reduced (n : ℕ) (mod product : Vli w) (shift j : ℕ) (s : Vli w × Vli w × Vli w) :
    Prop where
  multiple : value (n * 2) s.1 = value n mod * 2 ^ shift / 2 ^ j
  bound : value (n * 2) s.2.1 < value n mod * 2 ^ (shift + 1 - j)
  residue : value (n * 2) s.2.1 % value n mod = value (n * 2) product % value n mod

theorem Reduced.next (hw : 0 < w) (hn : 0 < n) {mod product : Vli w} {shift j : ℕ}
    {s : Vli w × Vli w × Vli w} (h : Reduced n mod product shift j s) (hj : j ≤ shift) :
    Reduced n mod product shift (j + 1) (mmodRound n s) := by
  obtain ⟨multiple, v, spare⟩ := s
  obtain ⟨hmultiple, hv⟩ := mmodRound_spec hw hn multiple v spare
  obtain ⟨k, rfl⟩ := Nat.exists_eq_add_of_le hj
  have hshifted : value n mod * 2 ^ (j + k) / 2 ^ j = value n mod * 2 ^ k := by
    rw [pow_add, Nat.mul_left_comm, Nat.mul_div_cancel_left _ (Nat.two_pow_pos j)]
  have hmult := h.multiple.trans hshifted
  have hbound := h.bound
  have hresidue := h.residue
  rw [show j + k + 1 - j = k + 1 by omega, pow_succ, ← Nat.mul_assoc] at hbound
  dsimp only at hmult hbound hresidue
  have hexp : j + k + 1 - (j + 1) = k := by omega
  refine { multiple := ?_, bound := ?_, residue := ?_ }
  · rw [hmultiple, h.multiple, Nat.div_div_eq_div_mul, pow_succ]
  · rw [hv, hexp, hmult]
    split <;> omega
  · rw [hv, ← hresidue, hmult]
    split
    · rfl
    · rename_i hge
      have hle : value n mod * 2 ^ k ≤ value (n * 2) v := by omega
      exact Nat.sub_mul_mod hle

/-- A double number below the words of a single one is in its lower half. -/
theorem value_eq_of_lt {vli : Vli w} (h : value (n * 2) vli < (2 ^ w) ^ n) :
    value n vli = value (n * 2) vli := by
  rw [Nat.mul_two, value_add] at h ⊢
  have hzero : value n (vli.drop n) = 0 := by
    by_contra hne
    have hle := Nat.le_mul_of_pos_right ((2 ^ w) ^ n) (Nat.pos_of_ne_zero hne)
    omega
  rw [hzero, Nat.mul_zero, Nat.add_zero]

/-- `uECC_vli_mmod` is the remainder of the product, for any product. -/
theorem value_vliMmod (hw : 0 < w) (hn : 0 < n) (result product mod multiple tmp : Vli w)
    (htop : mod (n - 1) ≠ 0) :
    value n (vliMmod n result product mod multiple tmp) =
      value (n * 2) product % value n mod := by
  have hbits := vliNumBits_eq n mod
  obtain ⟨hlo, hhi⟩ := numBits_bounds hn htop
  have hdouble : n * 2 * w = n * w * 2 := Nat.mul_right_comm _ _ _
  generalize hshift : n * 2 * w - vliNumBits n mod = shift
  have hstart : Reduced n mod product shift 0 (shiftedMod n multiple mod, product, tmp) :=
    { multiple := by
        rw [pow_zero, Nat.div_one, ← hshift]
        exact value_shiftedMod hw hn multiple mod htop
      bound := by
        obtain ⟨k, hk⟩ := Nat.exists_eq_add_one_of_ne_zero (Nat.ne_zero_of_lt hlo)
        have hle : 2 ^ k ≤ value n mod := Nat.lt_size.mp (by omega)
        calc value (n * 2) product < (2 ^ w) ^ (n * 2) := value_lt _ _
          _ = 2 ^ k * 2 ^ (shift + 1) := by
            rw [← pow_mul, ← pow_add, Nat.mul_comm w]
            congr 1
            omega
          _ ≤ value n mod * 2 ^ (shift + 1) := Nat.mul_le_mul_right _ hle
      residue := rfl }
  have hrun := foldRange_induction (Reduced n mod product shift) (Nat.zero_le (shift + 1)) hstart
    fun j s _ hj h => h.next hw hn (Nat.lt_succ_iff.mp hj)
  rw [vliMmod, hshift, value_vliSet]
  have hbound := hrun.bound
  rw [Nat.sub_self, pow_zero, Nat.mul_one] at hbound
  rw [← hrun.residue, Nat.mod_eq_of_lt hbound]
  exact value_eq_of_lt (hbound.trans (value_lt n mod))

/-- `uECC_vli_modMult` is the residue of the product, for arrays with any contents. -/
theorem value_vliModMult (hw : 0 < w) (hn : 0 < n) (hsmall : n ≤ 2 ^ w)
    (result left right mod product multiple tmp : Vli w) (htop : mod (n - 1) ≠ 0) :
    value n (vliModMult n result left right mod product multiple tmp) =
      value n left * value n right % value n mod := by
  rw [vliModMult, value_vliMmod hw hn _ _ _ _ _ htop, Nat.mul_comm n 2,
    value_vliMult hw hn hsmall]

/-- The operations on residues, whatever their arrays hold; the modulus fills its words. -/
theorem residues_exact (hw : 0 < w) (hn : 0 < n) (hsmall : n ≤ 2 ^ w)
    (result left right mod product multiple tmp : Vli w) (htop : mod (n - 1) ≠ 0) :
    value n (vliModMult n result left right mod product multiple tmp) =
        value n left * value n right % value n mod ∧
      (value n left < value n mod → value n right < value n mod →
        value n (vliModAdd n result left right mod) =
            (value n left + value n right) % value n mod ∧
          value n (vliModSub n result left right mod) =
            (value n left + (value n mod - value n right)) % value n mod) :=
  ⟨value_vliModMult hw hn hsmall result left right mod product multiple tmp htop,
    fun hl hr => ⟨value_vliModAdd hw result left right mod hl hr,
      value_vliModSub hw result left right mod hl hr⟩⟩

/-- Sixteen bits in two words, modulo 65521. -/
theorem residues_exact_words :
    (0 < 8 ∧ 0 < 2 ∧ 2 ≤ 2 ^ 8 ∧ (if 2 - 1 = 0 then (241 : BitVec 8) else 255) ≠ 0) ∧
      value 2 (vliModMult (w := 8) 2 (fun _ => 0) (fun _ => 200) (fun _ => 100)
          (fun i => if i = 0 then 241 else 255) (fun _ => 7) (fun _ => 7) (fun _ => 7)) =
        value 2 (fun _ => (200 : BitVec 8)) * value 2 (fun _ => (100 : BitVec 8)) %
          value 2 (fun i => if i = 0 then (241 : BitVec 8) else 255) :=
  ⟨by decide, (residues_exact (by decide) (by decide) (by decide) _ _ _ _ _ _ _ (by decide)).1⟩

/-! ## Inverses -/

theorem even_word_iff (hw : 0 < w) (m : ℕ) (vli : Vli w) :
    vli 0 &&& 1 = 0 ↔ value (m + 1) vli % 2 = 0 := by
  have hnat : (vli 0 &&& 1).toNat = (vli 0).toNat % 2 := by
    rw [BitVec.toNat_and, toNat_one hw, Nat.and_one_is_mod]
  rw [value_mod_two hw, ← hnat]
  exact ⟨fun h => by rw [h]; rfl, fun h => BitVec.eq_of_toNat_eq h⟩

/-- `vli_modInv_update` halves, after the modulus made the number even. -/
theorem value_vliModInvUpdate (hw : 0 < w) (m : ℕ) (uv mod : Vli w) :
    value (m + 1) (vliModInvUpdate (m + 1) uv mod) =
      (if value (m + 1) uv % 2 = 0 then value (m + 1) uv
        else value (m + 1) uv + value (m + 1) mod) / 2 := by
  have htop : ((1 : BitVec w) <<< (w - 1)).toNat = 1 * 2 ^ (w - 1) := by
    rw [toNat_shiftLeft_top hw, toNat_one hw]
  rw [vliModInvUpdate]
  by_cases heven : uv 0 &&& 1 = 0
  · rw [if_neg (not_not.mpr heven), if_pos ((even_word_iff hw m uv).mp heven),
      if_neg (not_not.mpr rfl), value_vliRshift1 hw]
  · rw [if_pos heven, if_neg (fun h => heven ((even_word_iff hw m uv).mpr h))]
    rcases vliAdd_cases (n := m + 1) hw uv uv mod with ⟨hcarry, h⟩ | ⟨hcarry, h⟩
    · rw [if_neg (not_not.mpr hcarry), value_vliRshift1 hw, h]
    · rw [if_pos hcarry, ← h]
      have hor := value_vliRshift1_or hw m (vliAdd (m + 1) uv uv mod).1 _ htop
      rw [Nat.one_mul] at hor
      exact hor

/-- A factor below the modulus that takes the input to a number. -/
structure Factor (M x a u : ℕ) : Prop where
  lt : u < M
  congr : u * x ≡ a [MOD M]

theorem Factor.halve {M x a u : ℕ} (hM : M % 2 = 1) (h : Factor M x a u) (ha : a % 2 = 0) :
    Factor M x (a / 2) ((if u % 2 = 0 then u else u + M) / 2) := by
  have hlt := h.lt
  have hcop : M.gcd 2 = 1 := Nat.coprime_two_right.mpr (Nat.odd_iff.mpr hM)
  have hdouble : 2 * ((if u % 2 = 0 then u else u + M) / 2) ≡ u [MOD M] := by
    split
    · rw [show 2 * (u / 2) = u by omega]
    · rw [show 2 * ((u + M) / 2) = u + M by omega]
      exact Nat.add_modEq_right
  refine { lt := by split <;> omega, congr := Nat.ModEq.cancel_left_of_coprime hcop ?_ }
  have heven : 2 * (a / 2) = a := by omega
  rw [heven, ← Nat.mul_assoc]
  exact (hdouble.mul_right x).trans h.congr

theorem Factor.sub {M x a b u v d : ℕ} (hu : Factor M x a u) (hv : Factor M x b v) (hle : b ≤ a)
    (hd : d = if u < v then u + M - v else u - v) : Factor M x (a - b) d := by
  have hult := hu.lt
  have hvlt := hv.lt
  have hsum : d + v ≡ u [MOD M] := by
    rw [hd]
    split
    · rw [Nat.sub_add_cancel (by omega)]
      exact Nat.add_modEq_right
    · rw [Nat.sub_add_cancel (by omega)]
  refine { lt := by rw [hd]; split <;> omega, congr := Nat.ModEq.add_right_cancel hv.congr ?_ }
  rw [← Nat.add_mul, Nat.sub_add_cancel hle]
  exact (hsum.mul_right x).trans hu.congr

/-- A difference of factors, with the modulus added where it would fall below zero; the carry of
the sum and the borrow of the difference cancel. -/
theorem value_subFactor (hw : 0 < w) (u v mod : Vli w)
    (hv : value n v < value n mod) :
    value n (vliSub n (if vliCmpUnsafe u v n < 0 then (vliAdd n u u mod).1 else u)
        (if vliCmpUnsafe u v n < 0 then (vliAdd n u u mod).1 else u) v).1 =
      if value n u < value n v then value n u + value n mod - value n v
      else value n u - value n v := by
  have hmod := value_lt n mod
  by_cases hlt : value n u < value n v
  · rw [if_pos ((vliCmpUnsafe_neg_iff u v n).mpr hlt), if_pos hlt]
    have hdiff := value_lt n (vliSub n (vliAdd n u u mod).1 (vliAdd n u u mod).1 v).1
    rcases vliAdd_cases (n := n) hw u u mod with ⟨-, h⟩ | ⟨-, h⟩ <;>
      rcases vliSub_cases (n := n) hw (vliAdd n u u mod).1 (vliAdd n u u mod).1 v
        with ⟨-, h'⟩ | ⟨-, h'⟩ <;> omega
  · rw [if_neg (fun h => hlt ((vliCmpUnsafe_neg_iff u v n).mp h)), if_neg hlt]
    exact value_vliSub_of_le hw u u v (by omega)

/-- The numbers of the loop: the greatest common divisor stays, and each has its factor. -/
structure Inverting (n x M : ℕ) (s : Inversion w) : Prop where
  pos : 0 < value n s.a ∧ 0 < value n s.b
  gcd : (value n s.a).gcd (value n s.b) = x.gcd M
  left : Factor M x (value n s.a) (value n s.u)
  right : Factor M x (value n s.b) (value n s.v)

/-- Half of an even number has the same divisors in common with an odd one. -/
theorem gcd_half {a b : ℕ} (ha : a % 2 = 0) (hb : b % 2 = 1) : (a / 2).gcd b = a.gcd b := by
  have hcop : Nat.Coprime 2 b := Nat.coprime_two_left.mpr (Nat.odd_iff.mpr hb)
  have heven : 2 * (a / 2) = a := by omega
  conv_rhs => rw [← heven]
  exact (Nat.Coprime.gcd_mul_left_cancel _ hcop).symm

theorem odd_of_gcd {a b M x : ℕ} (hM : M % 2 = 1) (hgcd : a.gcd b = x.gcd M) (ha : a % 2 = 0) :
    b % 2 = 1 := by
  by_contra hb
  have htwo : 2 ∣ x.gcd M := hgcd ▸ Nat.dvd_gcd (Nat.dvd_of_mod_eq_zero ha)
    (Nat.dvd_of_mod_eq_zero (by omega))
  have := Nat.mod_eq_zero_of_dvd (htwo.trans (Nat.gcd_dvd_right x M))
  omega

/-- A number and its factor halved. -/
theorem Factor.halved (hw : 0 < w) {m x : ℕ} {mod vli uv : Vli w}
    (hmod : value (m + 1) mod % 2 = 1)
    (h : Factor (value (m + 1) mod) x (value (m + 1) vli) (value (m + 1) uv))
    (heven : value (m + 1) vli % 2 = 0) :
    Factor (value (m + 1) mod) x (value (m + 1) (vliRshift1 (m + 1) vli))
      (value (m + 1) (vliModInvUpdate (m + 1) uv mod)) := by
  rw [value_vliRshift1 hw, value_vliModInvUpdate hw]
  exact h.halve hmod heven

/-- The larger of two odd numbers after one round of the loop. -/
theorem Factor.reduced (hw : 0 < w) {m x : ℕ} {mod a b u v : Vli w}
    (hmod : value (m + 1) mod % 2 = 1)
    (ha : Factor (value (m + 1) mod) x (value (m + 1) a) (value (m + 1) u))
    (hb : Factor (value (m + 1) mod) x (value (m + 1) b) (value (m + 1) v))
    (hodd : value (m + 1) a % 2 = 1 ∧ value (m + 1) b % 2 = 1)
    (hlt : value (m + 1) b < value (m + 1) a) :
    Factor (value (m + 1) mod) x
      (value (m + 1) (vliRshift1 (m + 1) (vliSub (m + 1) a a b).1))
      (value (m + 1) (vliModInvUpdate (m + 1)
        (vliSub (m + 1) (if vliCmpUnsafe u v (m + 1) < 0 then (vliAdd (m + 1) u u mod).1 else u)
          (if vliCmpUnsafe u v (m + 1) < 0 then (vliAdd (m + 1) u u mod).1 else u) v).1 mod)) := by
  have hdiff := value_vliSub_of_le hw a a b hlt.le
  refine Factor.halved hw hmod ?_ (by omega)
  rw [hdiff]
  exact ha.sub hb hlt.le (value_subFactor hw u v mod hb.lt)

/-- The greatest common divisor and the size of the numbers after such a round. -/
theorem reduced_spec (hw : 0 < w) (m : ℕ) {a b : Vli w}
    (hodd : value (m + 1) a % 2 = 1 ∧ value (m + 1) b % 2 = 1)
    (hlt : value (m + 1) b < value (m + 1) a) :
    0 < value (m + 1) (vliRshift1 (m + 1) (vliSub (m + 1) a a b).1) ∧
      (value (m + 1) (vliRshift1 (m + 1) (vliSub (m + 1) a a b).1)).gcd (value (m + 1) b) =
        (value (m + 1) a).gcd (value (m + 1) b) ∧
      2 * value (m + 1) (vliRshift1 (m + 1) (vliSub (m + 1) a a b).1) ≤ value (m + 1) a := by
  rw [value_vliRshift1 hw, value_vliSub_of_le hw a a b hlt.le]
  refine ⟨by omega, ?_, by omega⟩
  rw [gcd_half (by omega) hodd.2, Nat.gcd_comm, Nat.gcd_comm (value (m + 1) a)]
  exact Nat.gcd_sub_self_right hlt.le

/-- One iteration keeps the invariant, and the product of the two numbers at least halves. -/
theorem Inverting.step (hw : 0 < w) {m x : ℕ} {mod : Vli w} {s : Inversion w}
    (hmod : value (m + 1) mod % 2 = 1) (h : Inverting (m + 1) x (value (m + 1) mod) s)
    (hne : value (m + 1) s.a ≠ value (m + 1) s.b) :
    Inverting (m + 1) x (value (m + 1) mod) (s.step (m + 1) mod) ∧
      2 * (value (m + 1) (s.step (m + 1) mod).a * value (m + 1) (s.step (m + 1) mod).b) ≤
        value (m + 1) s.a * value (m + 1) s.b := by
  obtain ⟨hapos, hbpos⟩ := h.pos
  have hgcd := h.gcd
  have ha := even_word_iff hw m s.a
  have hb := even_word_iff hw m s.b
  have hcmp := vliCmpUnsafe_pos_iff s.a s.b (m + 1)
  rw [Inversion.step]
  by_cases hae : s.a 0 &&& 1 = 0
  · have heven := ha.mp hae
    have hodd := odd_of_gcd hmod hgcd heven
    rw [if_pos hae]
    constructor
    · exact
        { pos := ⟨by rw [value_vliRshift1 hw]; omega, hbpos⟩
          gcd := by rw [value_vliRshift1 hw, gcd_half heven hodd, hgcd]
          left := h.left.halved hw hmod heven
          right := h.right }
    · rw [value_vliRshift1 hw, ← Nat.mul_assoc]
      exact Nat.mul_le_mul_right _ (Nat.mul_div_le _ 2)
  rw [if_neg hae]
  have haodd : value (m + 1) s.a % 2 = 1 := Nat.mod_two_ne_zero.mp fun h => hae (ha.mpr h)
  by_cases hbe : s.b 0 &&& 1 = 0
  · have heven := hb.mp hbe
    rw [if_pos hbe]
    constructor
    · exact
        { pos := ⟨hapos, by rw [value_vliRshift1 hw]; omega⟩
          gcd := by rw [value_vliRshift1 hw, Nat.gcd_comm, gcd_half heven haodd, Nat.gcd_comm, hgcd]
          left := h.left
          right := h.right.halved hw hmod heven }
    · rw [value_vliRshift1 hw, Nat.mul_left_comm]
      exact Nat.mul_le_mul_left _ (Nat.mul_div_le _ 2)
  rw [if_neg hbe]
  have hbodd : value (m + 1) s.b % 2 = 1 := Nat.mod_two_ne_zero.mp fun h => hbe (hb.mpr h)
  by_cases hgt : value (m + 1) s.b < value (m + 1) s.a
  · obtain ⟨hpos, hsame, hle⟩ := reduced_spec hw m ⟨haodd, hbodd⟩ hgt
    rw [if_pos (hcmp.mpr hgt)]
    constructor
    · exact
        { pos := ⟨hpos, hbpos⟩
          gcd := hsame.trans hgcd
          left := h.left.reduced hw hmod h.right ⟨haodd, hbodd⟩ hgt
          right := h.right }
    · rw [← Nat.mul_assoc]
      exact Nat.mul_le_mul_right _ hle
  · have hlt : value (m + 1) s.a < value (m + 1) s.b := lt_of_le_of_ne (not_lt.mp hgt) hne
    obtain ⟨hpos, hsame, hle⟩ := reduced_spec hw m ⟨hbodd, haodd⟩ hlt
    rw [if_neg (fun h => hgt (hcmp.mp h))]
    constructor
    · exact
        { pos := ⟨hapos, hpos⟩
          gcd := by rw [Nat.gcd_comm, hsame, Nat.gcd_comm, hgcd]
          left := h.left
          right := h.right.reduced hw hmod h.left ⟨hbodd, haodd⟩ hlt }
    · rw [Nat.mul_left_comm]
      exact Nat.mul_le_mul_left _ hle

/-- The loop stops within as many iterations as the product of its numbers has bits. -/
theorem Inverting.loop (hw : 0 < w) {m x : ℕ} {mod : Vli w} (hmod : value (m + 1) mod % 2 = 1)
    {fuel : ℕ} {s : Inversion w} (h : Inverting (m + 1) x (value (m + 1) mod) s)
    (hfuel : value (m + 1) s.a * value (m + 1) s.b < 2 ^ fuel) :
    ∃ s', Inversion.loop (m + 1) mod fuel s = some s' ∧
      Inverting (m + 1) x (value (m + 1) mod) s' ∧ value (m + 1) s'.a = value (m + 1) s'.b := by
  induction fuel generalizing s with
  | zero =>
      have hpos := Nat.mul_pos h.pos.1 h.pos.2
      omega
  | succ fuel ih =>
      rw [Inversion.loop]
      by_cases heq : value (m + 1) s.a = value (m + 1) s.b
      · rw [if_pos ((vliCmpUnsafe_zero_iff _ _ _).mpr heq)]
        exact ⟨s, rfl, h, heq⟩
      · rw [if_neg (fun hzero => heq ((vliCmpUnsafe_zero_iff _ _ _).mp hzero))]
        obtain ⟨hstep, hhalf⟩ := h.step hw hmod heq
        exact ih hstep (by rw [pow_succ] at hfuel; omega)

theorem value_one (hw : 0 < w) (m : ℕ) (vli : Vli w) :
    value (m + 1) (Function.update (vliClear (m + 1) vli) 0 1) = 1 := by
  have hhigh : value m (Vli.drop (Function.update (vliClear (m + 1) vli) 0 1) 1) = 0 :=
    value_zero_words fun i hi => by
      rw [Vli.drop, Function.update_of_ne (by omega), vliClear_apply, if_pos (by omega)]
  have hsplit := value_add 1 m (Function.update (vliClear (m + 1) vli) 0 1)
  have hlow := value_update_succ (vliClear (m + 1) vli) 0 1
  rw [toNat_one hw, pow_zero, Nat.mul_one] at hlow
  rw [Nat.add_comm 1 m] at hsplit
  rw [hsplit, hhigh, Nat.mul_zero, Nat.add_zero]
  exact hlow

/-- `uECC_vli_modInv` ends, and takes the input to the greatest common divisor that it has with an
odd modulus: to one, where they have no other. -/
theorem value_vliModInv (hw : 0 < w) (hn : 0 < n) (result input mod : Vli w)
    (memory : Inversion w) (hodd : value n mod % 2 = 1) (hone : 1 < value n mod) {fuel : ℕ}
    (hfuel : 2 * (n * w) ≤ fuel) :
    ∃ inverse, vliModInv fuel n result input mod memory = some inverse ∧
      value n inverse < value n mod ∧
      value n inverse * value n input ≡ (value n input).gcd (value n mod) [MOD value n mod] := by
  obtain ⟨m, rfl⟩ := Nat.exists_eq_add_one_of_ne_zero hn.ne'
  rw [vliModInv]
  by_cases hzero : value (m + 1) input = 0
  · rw [if_pos ((vliIsZero_iff _ _).mpr hzero)]
    refine ⟨_, rfl, by rw [value_vliClear]; omega, ?_⟩
    rw [value_vliClear, hzero, Nat.zero_mul, Nat.gcd_zero_left]
    exact (Nat.modEq_zero_iff_dvd.mpr dvd_rfl).symm
  · have hstart : Inverting (m + 1) (value (m + 1) input) (value (m + 1) mod)
        { a := vliSet (m + 1) memory.a input
          b := vliSet (m + 1) memory.b mod
          u := Function.update (vliClear (m + 1) memory.u) 0 1
          v := vliClear (m + 1) memory.v } :=
      { pos := by
          rw [value_vliSet, value_vliSet]
          omega
        gcd := by rw [value_vliSet, value_vliSet]
        left :=
          { lt := by rwa [value_one hw]
            congr := by
              rw [value_one hw, Nat.one_mul, value_vliSet] }
        right :=
          { lt := by
              rw [value_vliClear]
              omega
            congr := by
              rw [value_vliClear, Nat.zero_mul, value_vliSet]
              exact (Nat.modEq_zero_iff_dvd.mpr dvd_rfl).symm } }
    have hsize : value (m + 1) (vliSet (m + 1) memory.a input) *
        value (m + 1) (vliSet (m + 1) memory.b mod) < 2 ^ fuel := by
      have hinput := value_lt (m + 1) (vliSet (m + 1) memory.a input)
      have hmod := value_lt (m + 1) (vliSet (m + 1) memory.b mod)
      calc _ < (2 ^ w) ^ (m + 1) * (2 ^ w) ^ (m + 1) := Nat.mul_lt_mul'' hinput hmod
        _ = 2 ^ (2 * ((m + 1) * w)) := by
          rw [← pow_mul, ← pow_add, Nat.mul_comm w, Nat.two_mul]
        _ ≤ 2 ^ fuel := Nat.pow_le_pow_right (by decide) hfuel
    obtain ⟨s, hloop, hs, heq⟩ := hstart.loop hw hodd hsize
    have hgcd := hs.gcd
    rw [← heq, Nat.gcd_self] at hgcd
    rw [if_neg (fun h => hzero ((vliIsZero_iff _ _).mp h))]
    refine ⟨_, congrArg (Option.map fun s => vliSet (m + 1) result s.u) hloop, ?_, ?_⟩
    · rw [value_vliSet]
      exact hs.left.lt
    · rw [value_vliSet, ← hgcd]
      exact hs.left.congr

/-- The inverse of three modulo seven, in one word of eight bits. -/
theorem value_vliModInv_seven :
    (0 < 8 ∧ 0 < 1 ∧ value 1 (fun _ => (7 : BitVec 8)) % 2 = 1 ∧
        1 < value 1 (fun _ => (7 : BitVec 8)) ∧ 2 * (1 * 8) ≤ 16) ∧
      ∃ inverse, vliModInv (w := 8) 16 1 (fun _ => 0) (fun _ => 3) (fun _ => 7)
          ⟨fun _ => 0, fun _ => 0, fun _ => 0, fun _ => 0⟩ = some inverse ∧
        value 1 inverse < value 1 (fun _ => (7 : BitVec 8)) ∧
        value 1 inverse * value 1 (fun _ => (3 : BitVec 8)) ≡
          (value 1 (fun _ => (3 : BitVec 8))).gcd (value 1 (fun _ => (7 : BitVec 8)))
            [MOD value 1 (fun _ => (7 : BitVec 8))] :=
  ⟨by decide, value_vliModInv (by decide) (by decide) _ _ _ _ (by decide) (by decide) (by decide)⟩

end Xhive.MicroEcc
