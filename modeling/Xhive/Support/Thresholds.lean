import Mathlib.Algebra.Order.Floor.Ring
import Mathlib.Data.Rat.Floor
import Mathlib.Algebra.BigOperators.Group.Finset.Basic
import Mathlib.Tactic.Ring
import Mathlib.Tactic.Linarith

/-!
# Equally spaced thresholds on an interval

`count` thresholds at distance one, the first at `u`, are cut by points of the
interval from zero to `count`.  How many fall between two points is the floor
or the ceiling of their distance, except at the two ends when `u` is zero.
-/

namespace Xhive.Support

open Finset

/-- The thresholds `u, u + 1, ..` among the first `count` that `x` reaches. -/
def reached (u : ℚ) (count : ℕ) (x : ℚ) : ℕ :=
  ((range count).filter fun i : ℕ => (i : ℚ) + u ≤ x).card

theorem reached_eq (u : ℚ) (count : ℕ) (x : ℚ) :
    reached u count x = min count (⌊x - u⌋ + 1).toNat := by
  have hset : ((range count).filter fun i : ℕ => (i : ℚ) + u ≤ x) =
      range (min count (⌊x - u⌋ + 1).toNat) := by
    ext i
    rw [mem_filter, mem_range, mem_range, lt_min_iff]
    apply and_congr_right
    intro _
    rw [← le_sub_iff_add_le, ← Int.cast_natCast (R := ℚ) i, ← Int.le_floor]
    omega
  rw [reached, hset, card_range]

/-- A positive offset keeps every threshold inside. -/
theorem reached_of_pos {u : ℚ} (hu : 0 < u) (hu1 : u < 1) {count : ℕ} {x : ℚ} (hx : 0 ≤ x)
    (hcount : x ≤ count) : (reached u count x : ℤ) = ⌊x - u⌋ + 1 := by
  have hlow : -1 ≤ ⌊x - u⌋ := by
    rw [Int.le_floor]
    push_cast
    linarith
  have hhigh : ⌊x - u⌋ < count := by
    rw [Int.floor_lt]
    push_cast
    linarith
  rw [reached_eq]
  omega

/-- With offset zero the threshold at zero is reached by every point. -/
theorem reached_zero {count : ℕ} {x : ℚ} (hx : 0 ≤ x) (hcount : x < count) :
    (reached 0 count x : ℤ) = ⌊x⌋ + 1 := by
  have hlow : 0 ≤ ⌊x⌋ := Int.floor_nonneg.mpr hx
  have hhigh : ⌊x⌋ < count := by
    rw [Int.floor_lt]
    exact_mod_cast hcount
  rw [reached_eq, sub_zero]
  omega

theorem reached_full {u : ℚ} (hu1 : u < 1) (count : ℕ) : reached u count count = count := by
  have hlow : (count : ℤ) - 1 ≤ ⌊(count : ℚ) - u⌋ := by
    rw [Int.le_floor]
    push_cast
    linarith
  rw [reached_eq]
  omega

/-- An integer closer than one to `x` is its floor or its ceiling. -/
theorem eq_floor_or_ceil {k : ℤ} {x : ℚ} (hlow : x - 1 < k) (hhigh : (k : ℚ) < x + 1) :
    k = ⌊x⌋ ∨ k = ⌈x⌉ := by
  rcases le_or_gt (k : ℚ) x with h | h
  · left
    symm
    rw [Int.floor_eq_iff]
    exact ⟨h, by linarith⟩
  · right
    symm
    rw [Int.ceil_eq_iff]
    exact ⟨by linarith, h.le⟩

theorem floor_sub_floor (x y : ℚ) : ⌊x⌋ - ⌊y⌋ = ⌊x - y⌋ ∨ ⌊x⌋ - ⌊y⌋ = ⌈x - y⌉ := by
  have hx := Int.floor_le x
  have hx' := Int.lt_floor_add_one x
  have hy := Int.floor_le y
  have hy' := Int.lt_floor_add_one y
  apply eq_floor_or_ceil <;> push_cast <;> linarith

/-- Rounding a quotient up, with a discarded fraction to carry. -/
theorem ceil_le_iff {count scale quotient rest extra w : ℕ} (hrest : rest < count)
    (hextra : extra < scale) :
    quotient + (if rest ≠ 0 ∨ extra ≠ 0 then 1 else 0) ≤ w ↔
      (count * quotient + rest) * scale + extra ≤ w * count * scale := by
  have hpart : rest * scale + extra < count * scale := by
    calc rest * scale + extra < (rest + 1) * scale := by rw [Nat.succ_mul]; omega
      _ ≤ count * scale := Nat.mul_le_mul_right _ hrest
  have hsum : (count * quotient + rest) * scale + extra =
      quotient * (count * scale) + (rest * scale + extra) := by ring
  have hright : w * count * scale = w * (count * scale) := Nat.mul_assoc _ _ _
  rw [hsum, hright]
  by_cases hexact : rest = 0 ∧ extra = 0
  · obtain ⟨rfl, rfl⟩ := hexact
    rw [if_neg (by simp), Nat.zero_mul, Nat.add_zero, Nat.add_zero]
    exact (Nat.mul_le_mul_right_iff (by omega)).symm
  · have hpositive : 0 < rest * scale + extra := by
      rcases Nat.eq_zero_or_pos rest with hzero | hpos
      · have : extra ≠ 0 := fun h => hexact ⟨hzero, h⟩
        omega
      · have := Nat.mul_pos hpos (show 0 < scale by omega)
        omega
    rw [if_pos (by omega)]
    constructor
    · intro h
      have := Nat.mul_le_mul_right (count * scale) h
      rw [Nat.succ_mul] at this
      omega
    · intro h
      by_contra hlt
      have := Nat.mul_le_mul_right (count * scale) (show w ≤ quotient by omega)
      omega

end Xhive.Support
