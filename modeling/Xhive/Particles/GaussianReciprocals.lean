import Xhive.Particles.GaussianDivision

/-!
# The cached reciprocals of the Gaussian solver

Each pivot has a slot of its own above the diagonal; what a row reads back is
zero or the reciprocal of its own pivot, and the division by it is `divide`.
-/

namespace Xhive.Particles

open Xhive.Support Xhive.Linears

/-! ## Formats -/

/-- What a format promises for every pivot that its slots can hold. -/
class LawfulGaussianFormat (Q : Type) [GaussianFormat Q] : Prop where
  rawLoad_le : ∀ slot, (GaussianFormat.rawLoad Q slot).toInt ≤ (GaussianFormat.rawMax Q).toNat
  errorLoad_reciprocal : ∀ raw : Int64, 0 < raw.toInt →
    raw.toInt ≤ (GaussianFormat.rawMax Q).toNat →
      GaussianFormat.errorLoad Q
          (GaussianFormat.errorStore Q (GaussianFormat.preparedReciprocal Q raw)) =
        GaussianFormat.preparedReciprocal Q raw
  divideSolve_eq : ∀ (numerator : Accum) (raw : Int64) (nearest : Bool), 0 < raw.toInt →
    raw.toInt ≤ (GaussianFormat.rawMax Q).toNat → GaussianFormat.preparedReciprocal Q raw ≠ 0 →
      GaussianFormat.divideSolve Q numerator raw.toUInt64 nearest
          (GaussianFormat.preparedReciprocal Q raw) =
        divide numerator raw.toUInt64 nearest

/-- A positive value has its own bits. -/
theorem toNat_toUInt64_of_pos {raw : Int64} (h : 0 < raw.toInt) :
    (raw.toUInt64.toNat : ℤ) = raw.toInt := by
  rw [toNat_toUInt64, if_neg (by omega)]

theorem preparedReciprocalQ15_lt {raw : Int64} (hpos : 0 < raw.toUInt64.toNat)
    (hraw : raw.toUInt64.toNat < 2 ^ 32) : (preparedReciprocalQ15 raw).toNat < 2 ^ 32 := by
  by_cases hzero : preparedReciprocalQ15 raw = 0
  · rw [hzero]
    norm_num
  · obtain ⟨hv, hreciprocal⟩ := preparedReciprocalQ15_spec hpos hraw hzero
    rw [hreciprocal]
    exact normalized_reciprocal_lt (by omega) (normalized_bounds hpos hraw).2.2

/-- A pivot of the q15 build has its bits in a word. -/
theorem pivotQ15_bits {raw : Int64} (hpos : 0 < raw.toInt) (hle : raw.toInt ≤ 0x7fffffff) :
    0 < raw.toUInt64.toNat ∧ raw.toUInt64.toNat < 2 ^ 32 := by
  have hbits := toNat_toUInt64_of_pos hpos
  omega

instance lawfulGaussianQ15 : LawfulGaussianFormat Int16 where
  rawLoad_le slot := by
    show slot.toUInt32.toInt32.toInt64.toInt ≤ 0x7fffffff
    have hle := slot.toUInt32.toInt32.toInt_le
    rw [Int32.toInt_toInt64]
    exact hle
  errorLoad_reciprocal raw hpos hle := by
    obtain ⟨hbits, hword⟩ := pivotQ15_bits hpos hle
    have hlt := preparedReciprocalQ15_lt hbits hword
    show (preparedReciprocalQ15 raw).toUInt32.toUInt64.toUInt32.toUInt64 = preparedReciprocalQ15 raw
    rw [← UInt64.toNat_inj]
    simp only [toNat_toUInt64_word, toNat_toUInt32_word]
    omega
  divideSolve_eq numerator raw nearest hpos hle hne := by
    obtain ⟨hbits, hword⟩ := pivotQ15_bits hpos hle
    exact divideSolveQ15_spec nearest hbits hword hne

instance lawfulGaussianQ31 : LawfulGaussianFormat Int32 where
  rawLoad_le slot := slot.toInt64.toInt_le
  errorLoad_reciprocal raw hpos hle := rfl
  divideSolve_eq numerator raw nearest hpos hle hne := by
    have hbits := toNat_toUInt64_of_pos hpos
    exact divideSolveQ31_spec nearest (by omega) hne

section Solver

variable {Q : Type} [GaussianFormat Q]

/-! ## Slots -/

/-- The slot that holds the reciprocal of row `i`. -/
def cacheSlot (k i : ℕ) : ℕ :=
  if k = 2 then 1 else divisionSlot k i

/-- No slot is on the diagonal. -/
theorem cacheSlot_ne_diagonal {k i j : ℕ} (hk : 2 ≤ k) (hj : j < k) :
    cacheSlot k i ≠ j * k + j := by
  have hdiagonal : j * k + j = j * (k + 1) := by ring
  rw [cacheSlot, hdiagonal]
  split
  · rename_i htwo
    subst htwo
    omega
  rw [divisionSlot]
  split
  · intro heq
    have hslot : i * k + i + 1 = i * (k + 1) + 1 := by ring
    rw [hslot] at heq
    have hmod := congrArg (· % (k + 1)) heq
    simp only [Nat.mul_add_mod_self_right, Nat.mul_mod_left] at hmod
    rw [Nat.mod_eq_of_lt (by omega)] at hmod
    exact absurd hmod one_ne_zero
  · intro heq
    rcases Nat.eq_zero_or_pos j with hzero | hpos
    · rw [hzero, Nat.zero_mul] at heq
      exact absurd heq two_ne_zero
    · have hle : 1 * (k + 1) ≤ j * (k + 1) := Nat.mul_le_mul_right _ hpos
      omega

/-- Two rows have two slots. -/
theorem cacheSlot_injOn {k i j : ℕ} (hk : 3 ≤ k) (hi : i < k) (hj : j < k)
    (h : cacheSlot k i = cacheSlot k j) : i = j := by
  have hslot : ∀ m, m * k + m + 1 = m * (k + 1) + 1 := fun m => by ring
  have hfirst : ∀ m, m * (k + 1) + 1 ≠ 2 := by
    intro m hm
    rcases Nat.eq_zero_or_pos m with hzero | hpos
    · rw [hzero] at hm
      omega
    · have hle : 1 * (k + 1) ≤ m * (k + 1) := Nat.mul_le_mul_right _ hpos
      omega
  rw [cacheSlot, cacheSlot, if_neg (by omega), if_neg (by omega), divisionSlot, divisionSlot, hslot,
    hslot] at h
  split at h <;> split at h
  · exact Nat.eq_of_mul_eq_mul_right (Nat.succ_pos k) (Nat.succ_injective h)
  · exact absurd h (hfirst i)
  · exact absurd h.symm (hfirst j)
  · omega

/-! ## Preparation -/

/-- After preparation the diagonal is as before and every slot holds its reciprocal. -/
structure CachePrepared (raw prepared : ℕ → UInt64) (k count : ℕ) : Prop where
  diagonal : ∀ j < k, prepared (j * k + j) = raw (j * k + j)
  slots : ∀ j < count, prepared (cacheSlot k j) =
    GaussianFormat.errorStore Q
      (GaussianFormat.preparedReciprocal Q (GaussianFormat.rawLoad Q (raw (j * k + j))))

theorem gaussianPrepareDivision_prepared (raw : ℕ → UInt64) {k : ℕ} (hk : 2 ≤ k) :
    CachePrepared (Q := Q) raw (gaussianPrepareDivision Q raw k) k (if k = 2 then 1 else k) := by
  rw [gaussianPrepareDivision, if_neg (by omega)]
  refine foldRange_induction (fun count prepared => CachePrepared (Q := Q) raw prepared k count)
    (Nat.zero_le _) ⟨fun _ _ => rfl, fun j hj => absurd hj (Nat.not_lt_zero _)⟩ ?_
  intro i prepared _ hi ih
  have hik : i < k := by
    split at hi <;> omega
  rw [ih.diagonal i hik]
  show CachePrepared raw (Function.update prepared (cacheSlot k i) _) k (i + 1)
  constructor
  · intro j hj
    rw [Function.update_of_ne (cacheSlot_ne_diagonal hk hj).symm]
    exact ih.diagonal j hj
  · intro j hj
    by_cases heq : j = i
    · rw [heq, Function.update_self]
    · have hlarge : 3 ≤ k := by
        split at hi <;> omega
      have hne : cacheSlot k j ≠ cacheSlot k i := fun h =>
        heq (cacheSlot_injOn hlarge (by omega) hik h)
      rw [Function.update_of_ne hne]
      exact ih.slots j (by omega)

variable [LawfulGaussianFormat Q]

/-- A row reads zero or the reciprocal of its own pivot. -/
theorem rowReciprocal_prepared {raw : ℕ → UInt64} {k i : ℕ} (hk : 2 ≤ k) (hi : i < k)
    (hpivot : 0 < (GaussianFormat.rawLoad Q (raw (i * k + i))).toInt)
    (hne : rowReciprocal Q (gaussianPrepareDivision Q raw k) k i ≠ 0) :
    rowReciprocal Q (gaussianPrepareDivision Q raw k) k i =
      GaussianFormat.preparedReciprocal Q (GaussianFormat.rawLoad Q (raw (i * k + i))) := by
  obtain ⟨hdiagonal, hslots⟩ := gaussianPrepareDivision_prepared (Q := Q) raw hk
  generalize gaussianPrepareDivision Q raw k = prepared at *
  have hload := LawfulGaussianFormat.errorLoad_reciprocal _ hpivot
    (LawfulGaussianFormat.rawLoad_le (raw (i * k + i)))
  rw [rowReciprocal] at hne ⊢
  by_cases hlarge : k ≥ 3
  · have hslot := hslots i (by rw [if_neg (by omega)]; exact hi)
    rw [cacheSlot, if_neg (by omega)] at hslot
    rw [if_pos hlarge, hslot, hload]
  · have htwo : k = 2 := by omega
    subst htwo
    have hslot := hslots 0 (by decide)
    have hfirst := hdiagonal 0 (by decide)
    rw [cacheSlot, if_pos rfl, Nat.zero_mul] at hslot
    rw [Nat.zero_mul] at hfirst
    rw [if_neg hlarge] at hne ⊢
    split at hne
    · rename_i hsame
      rw [if_pos hsame, hslot]
      rw [hdiagonal i hi, hfirst] at hsame
      obtain hzero | hsame := hsame.2
      · rw [hzero, Nat.zero_mul] at hload
        rw [hzero, Nat.zero_mul, hload]
      · rw [← hsame, hload]
    · exact absurd rfl hne

/-- The division by what a row reads is the ordinary division. -/
theorem divideSolve_prepared {raw : ℕ → UInt64} {k i : ℕ} (hk : 2 ≤ k) (hi : i < k)
    (hpivot : 0 < (GaussianFormat.rawLoad Q (raw (i * k + i))).toInt)
    (hne : rowReciprocal Q (gaussianPrepareDivision Q raw k) k i ≠ 0) (numerator : Accum)
    (nearest : Bool) :
    GaussianFormat.divideSolve Q numerator
        (GaussianFormat.rawLoad Q (raw (i * k + i))).toUInt64 nearest
        (rowReciprocal Q (gaussianPrepareDivision Q raw k) k i) =
      divide numerator (GaussianFormat.rawLoad Q (raw (i * k + i))).toUInt64 nearest := by
  have hread := rowReciprocal_prepared hk hi hpivot hne
  rw [hread] at hne ⊢
  exact LawfulGaussianFormat.divideSolve_eq numerator _ nearest hpivot
    (LawfulGaussianFormat.rawLoad_le _) hne

end Solver

/-! ## The two divisions -/

/-- The quotient of the two modes: to nearest with halves up, or up. -/
def exactQuotient (nearest : Bool) (x : ℚ) : ℤ :=
  if nearest then ⌊x + 1 / 2⌋ else ⌈x⌉

theorem solverQuotient_eq_exactQuotient (nearest : Bool) (n : ℕ) {d : ℕ} (hd : 0 < d) :
    (solverQuotient nearest n d : ℤ) = exactQuotient nearest ((n : ℚ) / d) := by
  rw [solverQuotient, exactQuotient]
  cases nearest with
  | true =>
      rw [if_pos rfl, if_pos rfl, ← roundAway_natCast_div n hd, roundAway_of_nonneg (by positivity)]
  | false =>
      have hd' : (0 : ℚ) < d := by exact_mod_cast hd
      have hdivmod : (d : ℚ) * ((n / d : ℕ) : ℚ) + ((n % d : ℕ) : ℚ) = n := by
        exact_mod_cast Nat.div_add_mod n d
      have hlt : ((n % d : ℕ) : ℚ) < d := by exact_mod_cast Nat.mod_lt n hd
      rw [if_neg Bool.false_ne_true, if_neg Bool.false_ne_true, eq_comm, Int.ceil_eq_iff, div_le_iff₀ hd',
        lt_div_iff₀ hd']
      generalize n / d = quotient at *
      generalize n % d = rest at *
      push_cast
      by_cases hzero : rest = 0
      · rw [hzero] at hdivmod ⊢
        simp only [ne_eq, not_true_eq_false, if_false, Nat.cast_zero, add_zero] at hdivmod ⊢
        constructor <;> nlinarith
      · have hone : (1 : ℚ) ≤ (rest : ℚ) := by exact_mod_cast Nat.pos_of_ne_zero hzero
        simp only [ne_eq, hzero, not_false_eq_true, if_true]
        constructor <;> nlinarith

/-- Every row of a prepared factor with a reciprocal is divided as `divide` does. -/
def SolvesAsDivide (Q : Type) [GaussianFormat Q] : Prop :=
  ∀ (raw : ℕ → UInt64) (k i : ℕ) (numerator : Accum) (nearest : Bool), 2 ≤ k → i < k →
    0 < (GaussianFormat.rawLoad Q (raw (i * k + i))).toInt →
    rowReciprocal Q (gaussianPrepareDivision Q raw k) k i ≠ 0 →
      GaussianFormat.divideSolve Q numerator
          (GaussianFormat.rawLoad Q (raw (i * k + i))).toUInt64 nearest
          (rowReciprocal Q (gaussianPrepareDivision Q raw k) k i) =
        divide numerator (GaussianFormat.rawLoad Q (raw (i * k + i))).toUInt64 nearest

/-- `divide` answers with the exact quotient exactly when it has a word, and the division by
a prepared reciprocal answers the same in both builds. -/
theorem gaussian_divisions_exact :
    (∀ (numerator : Accum) (denominator : UInt64) (nearest : Bool), 0 < denominator →
      (∀ result, divide numerator denominator nearest = some result ↔
        (result.toNat : ℤ) =
          exactQuotient nearest ((numerator.toNat : ℚ) / denominator.toNat)) ∧
      (divide numerator denominator nearest = none ↔
        2 ^ 64 ≤ exactQuotient nearest ((numerator.toNat : ℚ) / denominator.toNat))) ∧
    SolvesAsDivide Int16 ∧ SolvesAsDivide Int32 := by
  refine ⟨?_, fun raw k i numerator nearest hk hi hpivot hne =>
    divideSolve_prepared hk hi hpivot hne numerator nearest, fun raw k i numerator nearest hk hi
    hpivot hne => divideSolve_prepared hk hi hpivot hne numerator nearest⟩
  intro numerator denominator nearest hpos
  have hd : 0 < denominator.toNat := UInt64.lt_iff_toNat_lt.mp hpos
  have hspec := @divide_spec numerator _ hd nearest
  rw [← solverQuotient_eq_exactQuotient nearest numerator.toNat hd]
  refine ⟨fun result => (hspec result).trans Nat.cast_inj.symm, ?_⟩
  rw [Option.eq_none_iff_forall_ne_some]
  constructor
  · intro hnone
    by_contra hsmall
    apply hnone (UInt64.ofNat (solverQuotient nearest numerator.toNat denominator.toNat))
    rw [hspec, UInt64.toNat_ofNat', Nat.mod_eq_of_lt (by omega)]
  · intro hlarge result hsome
    have hword := result.toNat_lt
    rw [hspec] at hsome
    omega

/-- A third has a reciprocal. -/
example : preparedReciprocalQ15 3 = 1431655765 := by decide

end Xhive.Particles
