import Xhive.Linears.Numeric.Sqrt

/-!
# Both square roots agree and fit their registers

Every assignment of the two root loops is recorded by the exact integer it
asks its register to hold, computed from the registers before it.  Under the
loop invariants each of these integers is a word, so neither loop wraps.
-/

namespace Xhive.Linears

open Xhive.Support

/-- A register can hold the integer. -/
def FitsWord (n : ℤ) : Prop :=
  0 ≤ n ∧ n < 2 ^ 64

/-! ## The one-word loop -/

/-- What `while (bit != 0)` computes, assignment by assignment. -/
def sqrtLoopWrites : ℕ → UInt64 → UInt64 → UInt64 → List ℤ
  | 0, _, _, _ => []
  | count + 1, bit, value, root =>
      if bit = 0 then []
      else if value ≥ root + bit then
        (root.toNat + bit.toNat) :: (value.toNat - (root.toNat + bit.toNat)) ::
          ((root.toNat / 2 : ℕ) + bit.toNat) ::
            sqrtLoopWrites count (bit >>> 2) (value - (root + bit)) ((root >>> 1) + bit)
      else
        (root.toNat + bit.toNat) :: sqrtLoopWrites count (bit >>> 2) value (root >>> 1)

/-- What the rounding step computes. -/
def roundWrites (root remainder : UInt64) : List ℤ :=
  [root.toNat + 1, root.toNat + if root.toNat + 1 ≤ remainder.toNat then 1 else 0]

def lnSqrtNearest64Writes (value : UInt64) : List ℤ :=
  sqrtLoopWrites 32 (sqrtSkip value 32 ((1 : UInt64) <<< 62)) value 0 ++
    roundWrites (lnSqrtFloor64 value).1 (lnSqrtFloor64 value).2

theorem sqrtLoopWrites_fit {n j m : ℕ} (count : ℕ) {bit value root : UInt64}
    (hj : j ≤ 32) (h : RootInvariant n j m bit value root) :
    ∀ write ∈ sqrtLoopWrites count bit value root, FitsWord write := by
  induction count generalizing j m bit value root with
  | zero => exact nofun
  | succ count ih =>
      cases j with
      | zero =>
          rw [sqrtLoopWrites, if_pos h.eq_sqrt.1]
          exact nofun
      | succ j =>
          have htrial := h.trial_lt hj
          have htaken := h.taken_lt hj
          rw [sqrtLoopWrites, if_neg h.bit_ne_zero]
          split
          · rename_i hge
            have hle := UInt64.le_iff_toNat_le.mp hge
            have hlt := value.toNat_lt
            rw [UInt64.toNat_add, Nat.mod_eq_of_lt htrial] at hle
            simp only [List.forall_mem_cons]
            refine ⟨?_, ?_, ?_, ih (by omega) (h.taken hj hge)⟩ <;> constructor <;> omega
          · rename_i hlt
            simp only [List.forall_mem_cons]
            refine ⟨?_, ih (by omega) (h.skipped hj hlt)⟩
            constructor <;> omega

theorem roundWrites_fit {root : UInt64} (hroot : root.toNat < 2 ^ 47) (remainder : UInt64) :
    ∀ write ∈ roundWrites root remainder, FitsWord write := by
  simp only [roundWrites, List.forall_mem_cons]
  refine ⟨?_, ?_, nofun⟩
  · constructor <;> omega
  · constructor <;> split <;> omega

theorem lnSqrtNearest64Writes_fit (value : UInt64) :
    ∀ write ∈ lnSqrtNearest64Writes value, FitsWord write := by
  obtain ⟨j, hj, hinv⟩ := rootInvariant_start value
  have hroot : (lnSqrtFloor64 value).1.toNat < 2 ^ 47 := by
    rw [(lnSqrtFloor64_spec value).1, Nat.sqrt_lt]
    have := value.toNat_lt
    omega
  rw [lnSqrtNearest64Writes, List.forall_mem_append]
  exact ⟨sqrtLoopWrites_fit 32 hj hinv, roundWrites_fit hroot _⟩

/-! ## The two-limb loop -/

/-- What the base-4 loop computes, assignment by assignment. -/
def sqrtPairsWrites (radicand : Accum) : ℕ → UInt64 → UInt64 → List ℤ
  | 0, _, _ => []
  | pair + 1, root, remainder =>
      let position := 2 * pair
      let digit :=
        if position ≥ 64 then (radicand.high >>> UInt64.ofNat (position - 64)) &&& 3
        else (radicand.low >>> UInt64.ofNat position) &&& 3
      let remainder' := (remainder <<< 2) ||| digit
      let root' := root <<< 1
      let trial := (root' <<< 1) ||| 1
      (4 * remainder.toNat + digit.toNat) :: (2 * root.toNat) :: (2 * root'.toNat + 1) ::
        if remainder' ≥ trial then
          (remainder'.toNat - trial.toNat) :: (root'.toNat + 1) ::
            sqrtPairsWrites radicand pair (root' + 1) (remainder' - trial)
        else sqrtPairsWrites radicand pair root' remainder'

/-- The rounded root that the two-limb path stores. -/
def sqrtPairsNearest (radicand : Accum) : UInt64 :=
  (sqrtPairs radicand 48 0 0).1 +
    if (sqrtPairs radicand 48 0 0).2 ≥ (sqrtPairs radicand 48 0 0).1 + 1 then 1 else 0

def sqrtPairsNearestWrites (radicand : Accum) : List ℤ :=
  sqrtPairsWrites radicand 48 0 0 ++
    roundWrites (sqrtPairs radicand 48 0 0).1 (sqrtPairs radicand 48 0 0).2

theorem sqrtPairsWrites_fit {radicand : Accum} (hsmall : radicand.toNat < 2 ^ 94)
    {pair : ℕ} (hpair : pair ≤ 48) {root remainder : UInt64}
    (h : PairInvariant radicand pair root remainder) :
    ∀ write ∈ sqrtPairsWrites radicand pair root remainder, FitsWord write := by
  induction pair generalizing root remainder with
  | zero => exact nofun
  | succ pair ih =>
      have hdigit := sqrtPairs_digit radicand (show pair < 64 by omega)
      have hroot := h.root_lt hsmall
      have hrem := h.remainder_le
      rw [sqrtPairsWrites]
      generalize (if 2 * pair ≥ 64 then
          (radicand.high >>> UInt64.ofNat (2 * pair - 64)) &&& 3
        else (radicand.low >>> UInt64.ofNat (2 * pair)) &&& 3) = digit at *
      have hdlt : digit.toNat < 4 := by
        rw [hdigit]
        exact Nat.mod_lt _ (by decide)
      have hdouble := h.toNat_double hsmall
      simp only [List.forall_mem_cons]
      refine ⟨?_, ?_, ?_, ?_⟩
      · constructor <;> omega
      · constructor <;> omega
      · constructor <;> omega
      · split
        · rename_i hge
          have hle := UInt64.le_iff_toNat_le.mp hge
          have hlt := ((remainder <<< 2) ||| digit).toNat_lt
          simp only [List.forall_mem_cons]
          refine ⟨?_, ?_, ih (by omega) (h.taken hsmall hdigit hge)⟩ <;> constructor <;> omega
        · exact ih (by omega) (h.skipped hsmall hdigit ‹_›)

theorem sqrtPairsNearestWrites_fit {radicand : Accum} (hsmall : radicand.toNat < 2 ^ 94) :
    ∀ write ∈ sqrtPairsNearestWrites radicand, FitsWord write := by
  have hroot : (sqrtPairs radicand 48 0 0).1.toNat < 2 ^ 47 := by
    rw [(sqrtPairs_spec hsmall le_rfl (pairInvariant_start hsmall)).1, Nat.sqrt_lt]
    omega
  rw [sqrtPairsNearestWrites, List.forall_mem_append]
  exact ⟨sqrtPairsWrites_fit hsmall le_rfl (pairInvariant_start hsmall), roundWrites_fit hroot _⟩

/-! ## The call -/

/-- Where the radicand is a single word, either path may be taken. -/
theorem sqrt_paths_agree {radicand : Accum} (hhigh : radicand.high = 0) :
    lnSqrtNearest64 radicand.low = sqrtPairsNearest radicand := by
  have hlow := radicand.low.toNat_lt
  have hword : radicand.low.toNat = radicand.toNat := by
    rw [Accum.toNat, hhigh, UInt64.toNat_zero, zero_mul, zero_add]
  have hone := toNat_lnSqrtNearest64 radicand.low
  have htwo := toNat_sqrtPairs_nearest (show radicand.toNat < 2 ^ 94 by omega)
  rw [hword, ← htwo] at hone
  exact UInt64.toNat_inj.mp (by exact_mod_cast hone)

/-- An integer square root is never halfway between two integers. -/
theorem two_mul_sqrt_ne (n : ℕ) (k : ℤ) : 2 * Real.sqrt n ≠ ((2 * k + 1 : ℤ) : ℝ) := by
  intro h
  have hsquare : ((4 * n : ℤ) : ℝ) = (((2 * k + 1) * (2 * k + 1) : ℤ) : ℝ) := by
    have hn : Real.sqrt n * Real.sqrt n = n := Real.mul_self_sqrt (Nat.cast_nonneg n)
    calc
      ((4 * n : ℤ) : ℝ) = 2 * Real.sqrt n * (2 * Real.sqrt n) := by
        push_cast
        linear_combination -4 * hn
      _ = _ := by
        rw [h]
        push_cast
        ring
  have hint : (4 * n : ℤ) = (2 * k + 1) * (2 * k + 1) := by exact_mod_cast hsquare
  have hodd : (2 * k + 1) * (2 * k + 1) = 2 * (2 * k * k + 2 * k) + 1 := by ring
  omega

theorem roundAway_sqrt_nearest (n : ℕ) {k : ℤ} (hk : k ≠ roundAway (Real.sqrt n)) :
    |(roundAway (Real.sqrt n) : ℝ) - Real.sqrt n| < |(k : ℝ) - Real.sqrt n| := by
  have hhalf := abs_sub_roundAway_le (Real.sqrt n)
  rw [abs_sub_comm] at hhalf
  have htie : |(roundAway (Real.sqrt n) : ℝ) - Real.sqrt n| ≠ 1 / 2 := by
    intro h
    rcases (abs_eq (by norm_num)).mp h with hplus | hminus
    · apply two_mul_sqrt_ne n (roundAway (Real.sqrt n) - 1)
      push_cast
      linarith
    · apply two_mul_sqrt_ne n (roundAway (Real.sqrt n))
      push_cast
      linarith
  have hone : (1 : ℝ) ≤ |(k : ℝ) - roundAway (Real.sqrt n)| := by
    have hint : (1 : ℤ) ≤ |k - roundAway (Real.sqrt n)| := Int.one_le_abs (sub_ne_zero.mpr hk)
    exact_mod_cast hint
  have htriangle := abs_sub_le (k : ℝ) (Real.sqrt n) (roundAway (Real.sqrt n))
  rw [abs_sub_comm (Real.sqrt n)] at htriangle
  have hlt := lt_of_le_of_ne hhalf htie
  linarith

/-- On every nonnegative operand the call stores the nearest root; either path
gives it where both apply, and no register of either wraps. -/
theorem linearsFixedSqrt_nearest (value : Int64) (hvalue : 0 ≤ value.toInt) (old : Int64) :
    (∃ root : Int64, linearsFixedSqrt value (some old) = (.ok, some root) ∧
      root.toInt = roundAway (Real.sqrt (value.toInt * 2 ^ 31)) ∧
      ∀ n ≠ root.toInt, |(root.toInt : ℝ) - Real.sqrt (value.toInt * 2 ^ 31)| <
        |(n : ℝ) - Real.sqrt (value.toInt * 2 ^ 31)|) ∧
    ((lnShiftU64 value.toUInt64 31).high = 0 →
      lnSqrtNearest64 (lnShiftU64 value.toUInt64 31).low =
        sqrtPairsNearest (lnShiftU64 value.toUInt64 31) ∧
      ∀ write ∈ lnSqrtNearest64Writes (lnShiftU64 value.toUInt64 31).low, FitsWord write) ∧
    ∀ write ∈ sqrtPairsNearestWrites (lnShiftU64 value.toUInt64 31), FitsWord write := by
  have hlt := value.toInt_lt
  have hsmall : (lnShiftU64 value.toUInt64 31).toNat < 2 ^ 94 := by
    rw [toNat_lnShiftU64 _ _ (by decide) (by decide), toNat_thirtyOne]
    have hnat := toNat_toUInt64 value
    rw [if_neg (not_lt.mpr hvalue)] at hnat
    omega
  refine ⟨?_, ?_, sqrtPairsNearestWrites_fit hsmall⟩
  · have hroot := toInt_root hvalue
    refine ⟨_, linearsFixedSqrt_eq old hvalue, hroot, ?_⟩
    rw [hroot, radicand_eq hvalue]
    exact fun n hn => roundAway_sqrt_nearest _ hn
  · intro hhigh
    exact ⟨sqrt_paths_agree hhigh, lnSqrtNearest64Writes_fit _⟩

theorem linearsFixedSqrt_nearest_two :
    ∃ root : Int64, linearsFixedSqrt (2 * fixedOne) (some 0) = (.ok, some root) ∧
      root.toInt = roundAway (Real.sqrt ((2 * fixedOne).toInt * 2 ^ 31)) := by
  obtain ⟨⟨root, hcall, hroot, -⟩, -⟩ := linearsFixedSqrt_nearest (2 * fixedOne) (by decide) 0
  exact ⟨root, hcall, hroot⟩

end Xhive.Linears
