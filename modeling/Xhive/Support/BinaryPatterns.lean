import Xhive.Support.Rounding
import Mathlib.Order.Monotone.Basic

/-!
# Magnitudes of binary floating patterns

A pattern without its sign is an encoded exponent over a fraction of `f` bits.
Its value is a whole number of the least subnormal; the number grows with the
pattern, and an integer of up to `f + 1` bits has patterns of its own.
-/

namespace Xhive.Support

/-- The value of a finite pattern of fraction width `f` and exponent bias `bias`. -/
def patternValue (f bias m : ℕ) : ℚ :=
  let exponent := m / 2 ^ f
  let fraction := m % 2 ^ f
  if exponent = 0 then (fraction : ℚ) / 2 ^ f * 2 ^ (1 - bias : ℤ)
  else (1 + (fraction : ℚ) / 2 ^ f) * 2 ^ (exponent - bias : ℤ)

/-- The value counted in least subnormals. -/
def patternUnits (f m : ℕ) : ℕ :=
  if m / 2 ^ f = 0 then m % 2 ^ f else (m % 2 ^ f + 2 ^ f) * 2 ^ (m / 2 ^ f - 1)

theorem patternValue_eq (f bias m : ℕ) :
    patternValue f bias m = patternUnits f m * 2 ^ (1 - bias - f : ℤ) := by
  have htwo : (2 : ℚ) ≠ 0 := two_ne_zero
  rw [patternValue, patternUnits]
  split
  · rw [zpow_sub₀ htwo (1 - bias) f, zpow_natCast]
    ring
  · rename_i hnormal
    obtain ⟨e, he⟩ := Nat.exists_eq_succ_of_ne_zero hnormal
    have hexponent : ((e.succ : ℕ) - bias : ℤ) = e + (1 - bias - f) + f := by
      push_cast
      ring
    rw [he, hexponent, zpow_add₀ htwo, zpow_add₀ htwo, zpow_natCast, zpow_natCast,
      Nat.succ_sub_one]
    push_cast
    field_simp
    ring

theorem patternUnits_lt_succ (f m : ℕ) : patternUnits f m < patternUnits f (m + 1) := by
  have hpos := Nat.two_pow_pos f
  have hlt := Nat.mod_lt m hpos
  have hsplit := Nat.div_add_mod m (2 ^ f)
  generalize hexponent : m / 2 ^ f = exponent at *
  generalize hfraction : m % 2 ^ f = fraction at *
  by_cases hlast : fraction + 1 = 2 ^ f
  · -- the next binade begins
    have hnext : m + 1 = 2 ^ f * (exponent + 1) := by
      rw [← hsplit, Nat.mul_succ, Nat.add_assoc, hlast]
    have hdiv : (m + 1) / 2 ^ f = exponent + 1 := by rw [hnext, Nat.mul_div_cancel_left _ hpos]
    have hmod : (m + 1) % 2 ^ f = 0 := by rw [hnext, Nat.mul_mod_right]
    rw [patternUnits, patternUnits, hexponent, hfraction, hdiv, hmod, if_neg (Nat.succ_ne_zero _),
      Nat.zero_add, Nat.add_sub_cancel]
    split
    · rename_i hzero
      rw [hzero, pow_zero, Nat.mul_one]
      omega
    · rename_i hnormal
      obtain ⟨e, rfl⟩ := Nat.exists_eq_succ_of_ne_zero hnormal
      rw [Nat.succ_sub_one, pow_succ, Nat.mul_comm (2 ^ e) 2, ← Nat.mul_assoc]
      exact Nat.mul_lt_mul_of_pos_right (by omega) (Nat.two_pow_pos e)
  · have hnext : m + 1 = 2 ^ f * exponent + (fraction + 1) := by omega
    have hdiv : (m + 1) / 2 ^ f = exponent := by
      rw [hnext, Nat.mul_add_div hpos, Nat.div_eq_of_lt (by omega), Nat.add_zero]
    have hmod : (m + 1) % 2 ^ f = fraction + 1 := by
      rw [hnext, Nat.mul_add_mod, Nat.mod_eq_of_lt (by omega)]
    rw [patternUnits, patternUnits, hexponent, hfraction, hdiv, hmod]
    split
    · exact Nat.lt_succ_self _
    · exact Nat.mul_lt_mul_of_pos_right (by omega) (Nat.two_pow_pos _)

/-- Larger patterns are larger values. -/
theorem patternUnits_strictMono (f : ℕ) : StrictMono (patternUnits f) :=
  strictMono_nat_of_lt_succ (patternUnits_lt_succ f)

theorem patternUnits_normal {f exponent fraction : ℕ} (hfraction : fraction < 2 ^ f)
    (hexponent : 0 < exponent) :
    patternUnits f (exponent * 2 ^ f + fraction) =
      (fraction + 2 ^ f) * 2 ^ (exponent - 1) := by
  have hpos := Nat.two_pow_pos f
  have hdiv : (exponent * 2 ^ f + fraction) / 2 ^ f = exponent := by
    rw [Nat.mul_comm, Nat.mul_add_div hpos, Nat.div_eq_of_lt hfraction, Nat.add_zero]
  have hmod : (exponent * 2 ^ f + fraction) % 2 ^ f = fraction := by
    rw [Nat.mul_comm, Nat.mul_add_mod, Nat.mod_eq_of_lt hfraction]
  rw [patternUnits, hdiv, hmod, if_neg hexponent.ne']

/-! ## The pattern of an integer -/

section Integer

variable {f n : ℕ}

/-- An integer aligned to the top of the significand. -/
theorem aligned_significand (hn : n ≠ 0) (hlog : Nat.log2 n ≤ f) :
    n * 2 ^ (f - Nat.log2 n) % 2 ^ f + 2 ^ f = n * 2 ^ (f - Nat.log2 n) := by
  have hlow : 2 ^ f ≤ n * 2 ^ (f - Nat.log2 n) := by
    calc 2 ^ f = 2 ^ Nat.log2 n * 2 ^ (f - Nat.log2 n) := by
          rw [← pow_add, Nat.add_sub_cancel' hlog]
      _ ≤ n * 2 ^ (f - Nat.log2 n) := Nat.mul_le_mul_right _ (Nat.log2_self_le hn)
  have hhigh : n * 2 ^ (f - Nat.log2 n) < 2 ^ f + 2 ^ f := by
    calc n * 2 ^ (f - Nat.log2 n) < 2 ^ (Nat.log2 n + 1) * 2 ^ (f - Nat.log2 n) :=
          Nat.mul_lt_mul_of_pos_right Nat.lt_log2_self (Nat.two_pow_pos _)
      _ = 2 ^ f + 2 ^ f := by
        rw [← pow_add, ← Nat.mul_two, ← pow_succ]
        congr 1
        omega
  rw [Nat.mod_eq_sub_mod hlow, Nat.mod_eq_of_lt (by omega), Nat.sub_add_cancel hlow]

/-- The pattern of an integer with its highest bit at `exponent`. -/
theorem patternUnits_integer {exponent : ℕ} (hn : n ≠ 0) (hlog : Nat.log2 n ≤ f)
    (hexponent : 0 < exponent) :
    patternUnits f (exponent * 2 ^ f + n * 2 ^ (f - Nat.log2 n) % 2 ^ f) =
      n * 2 ^ (f - Nat.log2 n) * 2 ^ (exponent - 1) := by
  rw [patternUnits_normal (Nat.mod_lt _ (Nat.two_pow_pos f)) hexponent,
    aligned_significand hn hlog]

end Integer

end Xhive.Support
