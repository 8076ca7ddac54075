import Mathlib.Algebra.Order.Floor.Div
import Xhive.Support.Rounding

/-!
# A divider and a period

A clock is divided twice: by a divider that brings it into the range of a
field, and by a period that is rounded to a value of the field.  The least
divider leaves the period at least half of the field.
-/

namespace Xhive.Support

/-- The least divider after which `clock` counts at most `field` in a cycle of `frequency`. -/
def leastDivider (clock frequency field : ℕ) : ℕ :=
  clock ⌈/⌉ (frequency * field)

section Prescaling

variable {clock frequency field d : ℕ}

theorem leastDivider_le_iff (hfrequency : 0 < frequency) (hfield : 0 < field) :
    leastDivider clock frequency field ≤ d ↔ clock ≤ frequency * field * d :=
  ceilDiv_le_iff_le_mul (Nat.mul_pos hfrequency hfield)

theorem leastDivider_pos (hclock : 0 < clock) (hfrequency : 0 < frequency) (hfield : 0 < field) :
    0 < leastDivider clock frequency field := by
  rw [← not_le, leastDivider_le_iff hfrequency hfield, Nat.mul_zero, not_le]
  exact hclock

/-- The period fits the field after the least divider and after every greater one. -/
theorem roundedPeriod_le (hfrequency : 0 < frequency) (hfield : 0 < field) (hd : 0 < d)
    (h : leastDivider clock frequency field ≤ d) :
    roundedQuotient clock (frequency * d) ≤ field := by
  have hle := (leastDivider_le_iff hfrequency hfield).mp h
  have hpos : 0 < frequency * d := Nat.mul_pos hfrequency hd
  rw [roundedQuotient_le_iff hpos]
  have hproduct : frequency * field * d = field * (frequency * d) := by ring
  rw [hproduct] at hle
  rw [Nat.add_mul, Nat.one_mul, Nat.mul_assoc]
  omega

/-- Below a divider above one the clock counts more than the field. -/
theorem field_mul_lt_of_lt (hfrequency : 0 < frequency) (hfield : 0 < field)
    (h : d < leastDivider clock frequency field) : frequency * field * d < clock := by
  rwa [← not_le, leastDivider_le_iff hfrequency hfield, not_le] at h

/-- The least divider does not stop the clock: it counts at least one. -/
theorem roundedPeriod_pos (hfrequency : 0 < frequency) (hfield : 0 < field)
    (hclock : frequency ≤ clock) :
    0 < roundedQuotient clock (frequency * leastDivider clock frequency field) := by
  have hpos := leastDivider_pos (hfrequency.trans_le hclock) hfrequency hfield
  have hbelow := field_mul_lt_of_lt hfrequency hfield
    (show leastDivider clock frequency field - 1 < leastDivider clock frequency field by omega)
  generalize leastDivider clock frequency field = d at *
  have hdouble : frequency * d ≤ 2 * clock := by
    rcases Nat.lt_or_ge 1 d with hbig | hsmall
    · calc frequency * d ≤ frequency * (field * (2 * (d - 1))) :=
            Nat.mul_le_mul_left _ ((show d ≤ 2 * (d - 1) by omega).trans
              (Nat.le_mul_of_pos_left _ hfield))
        _ = 2 * (frequency * field * (d - 1)) := by ring
        _ ≤ 2 * clock := Nat.mul_le_mul_left 2 hbelow.le
    · calc frequency * d ≤ frequency * 1 := Nat.mul_le_mul_left _ hsmall
        _ ≤ 2 * clock := by omega
  rw [Nat.lt_iff_add_one_le, le_roundedQuotient_iff (Nat.mul_pos hfrequency hpos)]
  omega

/-- A divider above one that is the least leaves at least half of the field. -/
theorem field_le_two_mul_roundedPeriod (hfrequency : 0 < frequency) (hfield : 0 < field)
    (hd : 1 < d) (h : d ≤ leastDivider clock frequency field) :
    field ≤ 2 * roundedQuotient clock (frequency * d) := by
  have hbelow := field_mul_lt_of_lt hfrequency hfield
    (show d - 1 < leastDivider clock frequency field by omega)
  have hpos : 0 < frequency * d := Nat.mul_pos hfrequency (by omega)
  have hhalf : field * (frequency * d) ≤ 2 * clock := by
    calc field * (frequency * d) = frequency * field * d := by ring
      _ ≤ frequency * field * (2 * (d - 1)) := Nat.mul_le_mul_left _ (by omega)
      _ = 2 * (frequency * field * (d - 1)) := by ring
      _ ≤ 2 * clock := Nat.mul_le_mul_left 2 hbelow.le
  by_contra hlt
  rw [not_le] at hlt
  -- a field that is odd or even leaves the half of it below the next period
  have hnext : roundedQuotient clock (frequency * d) ≤ (field - 1) / 2 := by omega
  rw [roundedQuotient_le_iff hpos] at hnext
  have hodd : 2 * ((field - 1) / 2) + 1 ≤ field := by omega
  have := Nat.mul_le_mul_right (frequency * d) hodd
  omega

/-- The least divider is the least one whose quotient fits the field. -/
theorem leastDivider_isLeast (hclock : 0 < clock) (hfrequency : 0 < frequency)
    (hfield : 0 < field) :
    IsLeast {d : ℕ | 0 < d ∧ (clock : ℚ) / (frequency * d) ≤ field}
      (leastDivider clock frequency field) := by
  have hiff : ∀ d : ℕ, 0 < d → ((clock : ℚ) / (frequency * d) ≤ field ↔
      leastDivider clock frequency field ≤ d) := by
    intro d hd
    have hpos : (0 : ℚ) < frequency * d := by exact_mod_cast Nat.mul_pos hfrequency hd
    rw [div_le_iff₀ hpos, leastDivider_le_iff hfrequency hfield]
    have hproduct : (field : ℚ) * (frequency * d) = ((frequency * field * d : ℕ) : ℚ) := by
      push_cast
      ring
    rw [hproduct, Nat.cast_le]
  have hpositive := leastDivider_pos hclock hfrequency hfield
  refine ⟨⟨hpositive, (hiff _ hpositive).mpr le_rfl⟩, ?_⟩
  rintro d ⟨hd, hle⟩
  exact (hiff d hd).mp hle

end Prescaling

/-- Rounding a quotient of naturals, halves up. -/
theorem round_natCast_div (n : ℕ) {d : ℕ} (hd : 0 < d) :
    round ((n : ℚ) / d) = roundedQuotient n d := by
  have hd' : (0 : ℚ) < d := by exact_mod_cast hd
  rw [← roundAway_natCast_div n hd, roundAway_of_nonneg (by positivity), round_eq]

end Xhive.Support
