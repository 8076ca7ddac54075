import Xhive.Linears.Numeric.Mean

/-!
# Exports round once

What the two accumulator exports return on every accumulator value and every
count.  The mean floors a quotient and then rounds a shift; the two steps are
one rounding of the exact rational.
-/

namespace Xhive.Linears

open Xhive.Support

/-- The call returned OK and stored the value whose raw code is `code`. -/
def Stores {Q : Type} [QFormat Q] (result : Status × Option Q) (code : ℤ) : Prop :=
  ∃ stored : Q, result = (.ok, some stored) ∧ (QFormat.widen stored).toInt = code

/-- The export of `sum` in the format `Q`. -/
structure ExportsOnce (Q : Type) [QFormat Q] (call : Option Q → Status × Option Q) (sum : Accum) :
    Prop where
  range_iff : ∀ old : Q, (call (some old)).1 = .errorRange ↔ 2 ^ 62 < |sum.toInt|
  range_keeps : ∀ old : Q, 2 ^ 62 < |sum.toInt| → call (some old) = (.errorRange, some old)
  stores : ∀ old : Q, |sum.toInt| ≤ 2 ^ 62 → Stores (call (some old))
    (endpoint (QFormat.qBits Q).toNat
      (roundAway ((sum.toInt : ℚ) / 2 ^ (62 - (QFormat.qBits Q).toNat))))

/-- The export of the mean of `count` terms with sum `sum` in the format `Q`. -/
structure MeansOnce (Q : Type) [QFormat Q] (call : Option Q → Status × Option Q) (sum : Accum)
    (count : UInt64) : Prop where
  domain_iff : ∀ old : Q, (call (some old)).1 = .errorDomain ↔ count = 0
  range_iff : ∀ old : Q, (call (some old)).1 = .errorRange ↔
    count ≠ 0 ∧ count.toNat * 2 ^ 62 < |sum.toInt|
  refused_keeps : ∀ old : Q, (call (some old)).1 ≠ .ok → (call (some old)).2 = some old
  stores : ∀ old : Q, count ≠ 0 → |sum.toInt| ≤ count.toNat * 2 ^ 62 → Stores (call (some old))
    (endpoint (QFormat.qBits Q).toNat
      (roundAway ((sum.toInt : ℚ) / (count.toNat * 2 ^ (62 - (QFormat.qBits Q).toNat)))))

section Formats

variable {Q : Type} [QFormat Q]

theorem linearsAccumToQ_exportsOnce (sum : Accum) : ExportsOnce Q (linearsAccumToQ sum) sum where
  range_iff old := by
    rcases linearsAccumToQ_eq sum old with ⟨hrange, stored, heq, -⟩ | ⟨hrange, heq⟩
    · rw [heq]
      exact ⟨nofun, fun h => absurd h (not_lt.mpr hrange)⟩
    · rw [heq]
      exact ⟨fun _ => hrange, fun _ => rfl⟩
  range_keeps old hrange := by
    rcases linearsAccumToQ_eq sum old with ⟨hle, -⟩ | ⟨-, heq⟩
    · exact absurd hrange (not_lt.mpr hle)
    · exact heq
  stores old hle := by
    rcases linearsAccumToQ_eq sum old with ⟨-, stored, heq, hcode⟩ | ⟨hrange, -⟩
    · exact ⟨stored, heq, hcode⟩
    · exact absurd hrange (not_lt.mpr hle)

theorem linearsAccumMeanQ_range {sum : Accum} {count : UInt64} (hcount : count ≠ 0) (old : Q)
    (hrange : count.toNat * 2 ^ 62 < |sum.toInt|) :
    linearsAccumMeanQ sum count (some old) = (.errorRange, some old) := by
  have hbound : (lnShiftU64 count 62).toNat = count.toNat * 2 ^ 62 :=
    toNat_lnShiftU64 count 62 (by decide) (by decide)
  have hmag : (lnShiftU64 count 62).toNat < (lnAbsolute sum).toNat := by
    rw [hbound, toNat_lnAbsolute]
    rw [Int.abs_eq_natAbs] at hrange
    exact_mod_cast hrange
  have hmean : quantizeMean sum count (QFormat.qBits Q) 0 = (.errorRange, 0) := by
    rw [quantizeMean, if_neg hcount]
    dsimp only
    rw [if_pos ((lnCompareUnsigned_pos_iff _ _).mpr hmag)]
  rw [linearsAccumMeanQ, withOut_some, hmean]
  rfl

theorem linearsAccumMeanQ_meansOnce (sum : Accum) (count : UInt64) :
    MeansOnce Q (linearsAccumMeanQ sum count) sum count := by
  by_cases hcount : count = 0
  · subst hcount
    exact {
      domain_iff := fun old => ⟨fun _ => rfl, fun _ => rfl⟩
      range_iff := fun old => ⟨nofun, fun h => absurd rfl h.1⟩
      refused_keeps := fun old _ => rfl
      stores := fun old h => absurd rfl h }
  · by_cases hrange : count.toNat * 2 ^ 62 < |sum.toInt|
    · have heq := fun old : Q => linearsAccumMeanQ_range hcount old hrange
      exact {
        domain_iff := fun old => by
          rw [heq]
          exact ⟨nofun, fun h => absurd h hcount⟩
        range_iff := fun old => by
          rw [heq]
          exact ⟨fun _ => ⟨hcount, hrange⟩, fun _ => rfl⟩
        refused_keeps := fun old _ => by rw [heq]
        stores := fun old _ hle => absurd hrange (not_lt.mpr hle) }
    · have hstores := fun old : Q => linearsAccumMeanQ_eq hcount old (not_lt.mp hrange)
      exact {
        domain_iff := fun old => by
          obtain ⟨stored, heq, -⟩ := hstores old
          rw [heq]
          exact ⟨nofun, fun h => absurd h hcount⟩
        range_iff := fun old => by
          obtain ⟨stored, heq, -⟩ := hstores old
          rw [heq]
          exact ⟨nofun, fun h => absurd h.2 hrange⟩
        refused_keeps := fun old h => by
          obtain ⟨stored, heq, -⟩ := hstores old
          rw [heq] at h
          exact absurd rfl h
        stores := fun old _ _ => hstores old }

end Formats

/-- Every accumulator value and every count, in both formats. -/
theorem accumulator_exports_round_once (sum : Accum) (count : UInt64) :
    ExportsOnce Int16 (linearsAccumToQ15 sum) sum ∧
      ExportsOnce Int32 (linearsAccumToQ31 sum) sum ∧
      MeansOnce Int16 (linearsAccumMeanQ15 sum count) sum count ∧
      MeansOnce Int32 (linearsAccumMeanQ31 sum count) sum count :=
  ⟨linearsAccumToQ_exportsOnce sum, linearsAccumToQ_exportsOnce sum,
    linearsAccumMeanQ_meansOnce sum count, linearsAccumMeanQ_meansOnce sum count⟩

end Xhive.Linears
