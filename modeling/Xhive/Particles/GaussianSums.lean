import Xhive.Particles.GaussianDivision
import Xhive.Particles.GaussianSolver
import Xhive.Particles.MomentSums
import Xhive.Support.Outcome

/-!
# Native sums and 128-bit sums

While a sum fits one word, the checked 128-bit operations work on that word
alone.  The loops are followed from the first partial sum to the last.
-/

namespace Xhive.Particles

open Xhive.Support Xhive.Linears
open Finset hiding orderEmbOfFin

/-! ## Words -/

theorem toNat_ofNat_count {count : ℕ} (h : count < 2 ^ 64) :
    (UInt64.ofNat count).toNat = count := by
  rw [UInt64.toNat_ofNat', Nat.mod_eq_of_lt h]

theorem word_eq_zero_iff (x : UInt64) : x = 0 ↔ x.toNat = 0 := by
  rw [← UInt64.toNat_inj, UInt64.toNat_zero]

/-- A product whose upper word is zero is its lower word. -/
theorem toNat_low_pfQUmul {a b : UInt64} (h : (pfQUmul a b).high = 0) :
    (pfQUmul a b).low.toNat = a.toNat * b.toNat := by
  rw [← toNat_pfQUmul, Accum.toNat, h, UInt64.toNat_zero, Nat.zero_mul, Nat.zero_add]

theorem toNat_mul_of_fits {a b : UInt64} (h : a.toNat * b.toNat < 2 ^ 64) :
    (a * b).toNat = a.toNat * b.toNat := by
  rw [UInt64.toNat_mul, Nat.mod_eq_of_lt h]

theorem toNat_add_of_fits {a b : UInt64} (h : a.toNat + b.toNat < 2 ^ 64) :
    (a + b).toNat = a.toNat + b.toNat := by
  rw [UInt64.toNat_add, Nat.mod_eq_of_lt h]

theorem toNat_shiftLeft_of_fits {x : UInt64} {shift : ℕ} (hshift : shift < 64)
    (h : x.toNat * 2 ^ shift < 2 ^ 64) :
    (x <<< UInt64.ofNat shift).toNat = x.toNat * 2 ^ shift := by
  have hamount := toNat_ofNat_shift hshift
  rw [toNat_shiftLeft_eq _ _ (by omega), hamount, Nat.mod_eq_of_lt h]

/-- A running maximum. -/
theorem toNat_larger (value old : UInt64) :
    (if value > old then value else old).toNat = max old.toNat value.toNat := by
  by_cases hlt : old < value
  · rw [if_pos hlt]
    exact (max_eq_right (UInt64.lt_iff_toNat_lt.mp hlt).le).symm
  · rw [if_neg hlt]
    rw [UInt64.lt_iff_toNat_lt, not_lt] at hlt
    exact (max_eq_left hlt).symm

/-! ## Checked operations on words -/

theorem addUnsigned_word {a x : UInt64} (h : a.toNat + x.toNat < 2 ^ 64) :
    addUnsigned ⟨a, 0⟩ ⟨x, 0⟩ = some ⟨a + x, 0⟩ := by
  have hcarry : ¬a + x < a := by
    rw [UInt64.lt_iff_toNat_lt, toNat_add_of_fits h]
    omega
  have hsum : pfQUadd ⟨a, 0⟩ ⟨x, 0⟩ = ⟨a + x, 0⟩ := by
    rw [pfQUadd, if_neg hcarry]
    rfl
  rw [addUnsigned, hsum, if_neg (show ¬((0 : UInt64) < 0 ∨ (0 : UInt64) < 0) by decide)]

theorem addWhen_word {exit : SolverExit} {c : Bool} {sum x : UInt64}
    (h : sum.toNat + (if c then x else 0).toNat < 2 ^ 64) :
    addWhen exit c ⟨sum, 0⟩ x = .ok ⟨sum + if c then x else 0, 0⟩ := by
  rw [addWhen]
  cases c with
  | true =>
      have hword : sum.toNat + x.toNat < 2 ^ 64 := h
      rw [if_pos rfl, if_pos rfl, addUnsigned_word hword, orStop]
  | false => rw [if_neg Bool.false_ne_true, if_neg Bool.false_ne_true, UInt64.add_zero]

theorem shiftLeftChecked_word {x : UInt64} {shift : ℕ} (hshift : shift < 64)
    (h : x.toNat * 2 ^ shift < 2 ^ 64) :
    shiftLeftChecked ⟨x, 0⟩ shift = some ⟨x <<< UInt64.ofNat shift, 0⟩ := by
  have hvalue := toNat_shiftLeft_of_fits hshift h
  rw [shiftLeftChecked]
  split
  · rename_i hzero
    have hx : x = 0 := hzero.1
    have hshifted : x <<< UInt64.ofNat shift = 0 := by
      rw [word_eq_zero_iff, hvalue, hx, UInt64.toNat_zero, Nat.zero_mul]
    rw [hshifted, hx]
  · have hbits : pfQUbits ⟨x, 0⟩ ≤ 64 := by
      rw [pfQUbits_eq, toNat_word]
      exact Nat.size_le.mpr x.toNat_lt
    rw [if_neg (by omega), Option.some_inj, ← Accum.toNat_inj, toNat_word, hvalue]
    rw [toNat_expShl (by rw [toNat_word]; omega) (by omega), toNat_word]

theorem shiftRightWide_word (x : UInt64) : shiftRightWide ⟨x, 0⟩ 32 = ⟨x >>> 32, 0⟩ := by
  have hlow : (0 : UInt64) <<< UInt64.ofNat (64 - 32) = 0 := by decide
  have hhigh : (0 : UInt64) >>> UInt64.ofNat 32 = 0 := by decide
  rw [shiftRightWide, if_neg (by decide), if_pos (by decide)]
  dsimp only
  rw [hlow, hhigh, UInt64.or_zero]
  rfl

/-- The signed magnitude of a native sum is known from its value. -/
theorem nativeWide_eq {v : Int64} {w : GaussianWide}
    (hmagnitude : w.magnitude.toNat = v.toInt.natAbs)
    (hnegative : w.negative = decide (v.toInt < 0)) : w = nativeWide v := by
  obtain ⟨magnitude, negative⟩ := w
  rw [nativeWide, GaussianWide.mk.injEq]
  constructor
  · rw [← Accum.toNat_inj, toNat_word, toNat_pfQMagnitude]
    exact hmagnitude
  · rw [show negative = decide (v.toInt < 0) from hnegative]
    exact decide_eq_decide.mpr (lt_zero_iff_toInt v).symm

/-- A term is added to a native sum that keeps its word. -/
theorem addWide_native {a t : Int64} {magnitude : UInt64} {negative : Bool}
    (hmagnitude : magnitude.toNat = t.toInt.natAbs)
    (hnegative : t.toInt ≠ 0 → negative = decide (t.toInt < 0))
    (hfits : FitsInt64 (a.toInt + t.toInt)) :
    addWide (nativeWide a) ⟨magnitude, 0⟩ negative = some (nativeWide (a + t)) := by
  have hsum := toInt_add_of_fits hfits
  have ha : (pfQMagnitude a).toNat = a.toInt.natAbs := toNat_pfQMagnitude a
  have hsign : (nativeWide a).negative = decide (a.toInt < 0) :=
    decide_eq_decide.mpr (lt_zero_iff_toInt a)
  have hazero : (nativeWide a).magnitude.low = 0 ∧ (nativeWide a).magnitude.high = 0 ↔
      a.toInt = 0 := by
    show pfQMagnitude a = 0 ∧ (0 : UInt64) = 0 ↔ a.toInt = 0
    rw [word_eq_zero_iff, ha]
    simp
  have htzero : magnitude = 0 ∧ (0 : UInt64) = 0 ↔ t.toInt = 0 := by
    rw [word_eq_zero_iff, hmagnitude]
    simp
  have hmagnitudes : (nativeWide a).magnitude.toNat = a.toInt.natAbs := (toNat_word _).trans ha
  have hterm : (⟨magnitude, 0⟩ : Accum).toNat = t.toInt.natAbs := (toNat_word _).trans hmagnitude
  rw [FitsInt64] at hfits
  rw [addWide]
  by_cases ht : t.toInt = 0
  · rw [if_pos (htzero.mpr ht), Option.some_inj]
    exact nativeWide_eq (by rw [hmagnitudes, hsum, ht, add_zero])
      (by rw [hsign, hsum, ht, add_zero])
  rw [if_neg (htzero.not.mpr ht)]
  have hneg := hnegative ht
  by_cases hz : a.toInt = 0
  · rw [if_pos (hazero.mpr hz), Option.some_inj]
    exact nativeWide_eq (by rw [hsum, hz, zero_add]; exact hterm)
      (by rw [hsum, hz, zero_add]; exact hneg)
  rw [if_neg (hazero.not.mpr hz), hsign, hneg]
  by_cases hsame : decide (a.toInt < 0) = decide (t.toInt < 0)
  · have hboth := decide_eq_decide.mp hsame
    have hword : (pfQMagnitude a).toNat + magnitude.toNat < 2 ^ 64 := by omega
    have htotal : addUnsigned (nativeWide a).magnitude ⟨magnitude, 0⟩ =
        some ⟨pfQMagnitude a + magnitude, 0⟩ := addUnsigned_word hword
    rw [if_pos hsame, htotal, Option.map_some, Option.some_inj]
    apply nativeWide_eq
    · rw [toNat_word, toNat_add_of_fits hword, hsum]
      omega
    · rw [hsum]
      exact decide_eq_decide.mpr (by omega)
  · have hopposite : ¬(a.toInt < 0 ↔ t.toInt < 0) := fun h => hsame (decide_eq_decide.mpr h)
    have hpos := pfQUcmp_pos_iff (nativeWide a).magnitude ⟨magnitude, 0⟩
    have hequal := pfQUcmp_eq_zero_iff (nativeWide a).magnitude ⟨magnitude, 0⟩
    rw [hmagnitudes, hterm] at hpos hequal
    rw [if_neg hsame]
    dsimp only
    split
    · rename_i hcompare
      rw [hequal] at hcompare
      rw [Option.some_inj]
      exact nativeWide_eq (by rw [hsum, toNat_word, UInt64.toNat_zero]; omega)
        (by rw [hsum]; exact (decide_eq_false (by omega)).symm)
    · rename_i hcompare
      rw [hequal] at hcompare
      split
      · rename_i hlarger
        rw [gt_iff_lt, hpos] at hlarger
        rw [Option.some_inj]
        apply nativeWide_eq
        · rw [toNat_momentSub128 (by omega), hmagnitudes, hterm, hsum]
          omega
        · rw [hsum]
          exact decide_eq_decide.mpr (by omega)
      · rename_i hsmaller
        rw [gt_iff_lt, hpos] at hsmaller
        rw [Option.some_inj]
        apply nativeWide_eq
        · rw [toNat_momentSub128 (by omega), hmagnitudes, hterm, hsum]
          omega
        · rw [hsum]
          exact decide_eq_decide.mpr (by omega)

/-! ## Loops -/

/-- A sum of words is exact when the whole sum fits. -/
theorem toNat_sum_loop {init : UInt64} {term : ℕ → UInt64} {count : ℕ}
    (h : init.toNat + ∑ j ∈ range count, (term j).toNat < 2 ^ 64) :
    ∀ n ≤ count, (foldRange 0 n init fun j sum => sum + term j).toNat =
      init.toNat + ∑ j ∈ range n, (term j).toNat := by
  intro n
  induction n with
  | zero =>
      intro _
      rw [foldRange_of_le le_rfl, range_zero, sum_empty, add_zero]
  | succ n ih =>
      intro hn
      have hprefix : ∑ j ∈ range (n + 1), (term j).toNat ≤ ∑ j ∈ range count, (term j).toNat :=
        sum_le_sum_of_subset (range_subset_range.mpr hn)
      have hsum := ih (by omega)
      rw [sum_range_succ] at hprefix ⊢
      rw [foldRange_succ (Nat.zero_le n), toNat_add_of_fits (by rw [hsum]; omega), hsum, add_assoc]

theorem sum_le_mul_of_le {term : ℕ → ℕ} {bound count : ℕ} (h : ∀ j < count, term j ≤ bound) :
    ∑ j ∈ range count, term j ≤ bound * count := by
  have hsum := sum_le_card_nsmul (range count) term bound fun j hj => h j (mem_range.mp hj)
  rwa [card_range, smul_eq_mul, mul_comm] at hsum

/-- Differences in one word are exact when no partial result can leave it. -/
theorem toInt_difference_loop {init : Int64} {term : ℕ → Int64} {bound : ℤ} {count : ℕ}
    (hterm : ∀ k < count, |(term k).toInt| ≤ bound)
    (hroom : |init.toInt| + count * bound < 2 ^ 63) :
    ∀ n ≤ count, (foldRange 0 n init fun k sum => sum - term k).toInt =
      init.toInt - ∑ k ∈ range n, (term k).toInt := by
  intro n
  induction n with
  | zero =>
      intro _
      rw [foldRange_of_le le_rfl, range_zero, sum_empty, sub_zero]
  | succ n ih =>
      intro hn
      have hsum := ih (by omega)
      have hprefix := abs_sum_range_le (i := n + 1) fun k hk => hterm k (by omega)
      have hbound : 0 ≤ bound := (abs_nonneg _).trans (hterm n hn)
      have hfull : ((n + 1 : ℕ) : ℤ) * bound ≤ count * bound :=
        mul_le_mul_of_nonneg_right (by exact_mod_cast hn) hbound
      have hinit := abs_le.mp (le_refl |init.toInt|)
      rw [sum_range_succ, abs_le] at hprefix
      rw [foldRange_succ (Nat.zero_le n), sum_range_succ]
      rw [toInt_sub_of_fits (by rw [hsum]; constructor <;> linarith), hsum]
      ring

end Xhive.Particles
