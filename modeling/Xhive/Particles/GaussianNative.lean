import Xhive.Particles.GaussianPaths
import Xhive.Particles.GaussianReciprocals
import Xhive.Support.Blocks

/-!
# The q15 solver with and without its native paths

The conversions record a maximum that bounds every raw value, the rows keep
their running maxima, and so every sum of every pass is the 128-bit sum.
-/

namespace Xhive.Particles

open Xhive.Support Xhive.Linears

/-! ## Conversions -/

theorem rawInt_rawStore {value : Int64} (hlo : -2 ^ 31 ≤ value.toInt) (hhi : value.toInt < 2 ^ 31) :
    rawInt (GaussianFormat.rawStore Int16 value) = value.toInt := by
  have hword := toNat_toUInt64 value
  have hload : rawInt (GaussianFormat.rawStore Int16 value) =
      value.toUInt64.toUInt32.toUInt64.toUInt32.toInt32.toInt := Int32.toInt_toInt64 _
  have hsigned : value.toUInt64.toUInt32.toUInt64.toUInt32.toInt32.toInt =
      (value.toUInt64.toUInt32.toUInt64.toUInt32.toNat : ℤ).bmod (2 ^ 32) :=
    BitVec.toInt_eq_toNat_bmod _
  rw [hload, hsigned, toNat_toUInt32_word, toNat_toUInt64_word, toNat_toUInt32_word, Int.bmod_def]
  split at hword <;> split <;> omega

theorem signRaw_bounds {negative : Bool} {magnitude : UInt64} {raw : Int64}
    (h : signRaw negative magnitude = some raw) : -2 ^ 31 ≤ raw.toInt ∧ raw.toInt < 2 ^ 31 := by
  have htop : (0x80000000 : UInt64).toNat = 2 ^ 31 := rfl
  have hmax : (0x7fffffff : UInt64).toNat = 2 ^ 31 - 1 := rfl
  rw [signRaw] at h
  split at h
  · cases h
  rename_i hrange
  rw [not_or] at hrange
  have hle := hrange.2
  rw [gt_iff_lt, UInt64.lt_iff_toNat_lt, htop] at hle
  have hvalue : magnitude.toInt64.toInt = magnitude.toNat := toInt_toInt64_of_lt (by omega)
  cases negative with
  | true =>
      rw [if_pos rfl, Option.some_inj] at h
      split at h
      · rw [← h]
        decide
      · rename_i hne
        rw [← UInt64.toNat_inj, htop] at hne
        rw [← h, toInt_neg_of_fits (by rw [hvalue]; constructor <;> omega), hvalue]
        omega
  | false =>
      have hsmall := hrange.1
      rw [gt_iff_lt, UInt64.lt_iff_toNat_lt, hmax] at hsmall
      rw [if_neg Bool.false_ne_true, Option.some_inj] at h
      rw [← h, hvalue]
      simp only [Bool.not_false, true_and, not_lt] at hsmall
      omega

theorem convertIeee_bounds {value : UInt32} {exponent : ℤ} {converted : Bool × Int64}
    (h : convertIeee value exponent = some converted) :
    -2 ^ 31 ≤ converted.2.toInt ∧ converted.2.toInt < 2 ^ 31 := by
  rw [convertIeee] at h
  obtain ⟨parts, -, h⟩ := Option.bind_eq_some_iff.mp h
  dsimp only at h
  split at h
  · rw [← Option.some_inj.mp h]
    decide
  split at h
  · split at h
    · cases h
    · obtain ⟨raw, hraw, h⟩ := Option.bind_eq_some_iff.mp h
      rw [← Option.some_inj.mp h]
      exact signRaw_bounds hraw
  · split at h
    · obtain ⟨raw, hraw, h⟩ := Option.bind_eq_some_iff.mp h
      rw [← Option.some_inj.mp h]
      exact signRaw_bounds hraw
    · obtain ⟨raw, hraw, h⟩ := Option.bind_eq_some_iff.mp h
      rw [← Option.some_inj.mp h]
      exact signRaw_bounds hraw

theorem Certified.storeRaw {s : (ℕ → UInt64) × GaussianScale} {count : ℕ}
    (h : Certified s.1 s.2 count) (exact : Bool) {value : Int64}
    (hrange : -2 ^ 31 ≤ value.toInt ∧ value.toInt < 2 ^ 31) :
    Certified (storeRaw s count exact value).1 (storeRaw s count exact value).2 (count + 1) := by
  have hmagnitude : (pfQMagnitude value).toUInt32.toNat = value.toInt.natAbs := by
    rw [toNat_toUInt32_word, toNat_pfQMagnitude]
    omega
  have hmaximum : (Particles.storeRaw s count exact value).2.maximum.toNat =
      max s.2.maximum.toNat value.toInt.natAbs := by
    rw [Particles.storeRaw, ← hmagnitude]
    dsimp only
    by_cases hlt : s.2.maximum < (pfQMagnitude value).toUInt32
    · rw [if_pos hlt]
      rw [UInt32.lt_iff_toNat_lt] at hlt
      omega
    · rw [if_neg hlt]
      rw [UInt32.lt_iff_toNat_lt] at hlt
      omega
  have hold := h.maximum_le
  constructor
  · rw [hmaximum]
    omega
  · intro i hi
    rw [hmaximum, Particles.storeRaw]
    dsimp only
    by_cases heq : i = count
    · rw [heq, Function.update_self, rawInt_rawStore hrange.1 hrange.2]
      exact le_max_right _ _
    · rw [Function.update_of_ne heq]
      exact (h.magnitude_le i (by omega)).trans (le_max_left _ _)

theorem ensures_orStop {α : Type} {exit : SolverExit} {x : Option α} {post : α → Prop}
    (h : ∀ value, x = some value → post value) : Ensures (orStop exit x) post fun _ => True := by
  cases x with
  | none => trivial
  | some value => exact h value rfl

theorem ensures_true {α : Type} (m : Except SolverExit α) :
    Ensures m (fun _ => True) fun _ => True := by
  cases m with
  | ok a => trivial
  | error e => trivial

/-- A vector that is converted has its maximum recorded. -/
theorem vectorPrepare_certified (values : ℕ → UInt32) (count : ℕ) (raw : ℕ → UInt64) :
    Ensures (vectorPrepare values count raw) (fun s => Certified s.1 s.2 count)
      fun _ => True := by
  rw [vectorPrepare]
  refine (ensures_true _).seq fun maximum _ => ?_
  refine Ensures.forRange (fun n (s : (ℕ → UInt64) × GaussianScale) => Certified s.1 s.2 n)
    (Nat.zero_le _)
    ⟨Nat.zero_le _, fun i hi => absurd hi (Nat.not_lt_zero i)⟩ fun i s _ _ hs => ?_
  refine (ensures_orStop fun _ h => h).seq fun converted hconverted => ?_
  exact hs.storeRaw converted.1 (convertIeee_bounds hconverted)

/-- A factor that is converted has its maximum recorded, its upper triangle as zeros. -/
theorem gaussianPrepare_certified (lower : ℕ → UInt32) (k : ℕ) (raw : ℕ → UInt64) :
    Ensures (gaussianPrepare lower k raw) (fun s => Certified s.1 s.2 (k * k))
      fun _ => True := by
  rw [gaussianPrepare]
  refine (ensures_true _).seq fun scan _ => ?_
  refine Ensures.ite (fun _ => trivial) fun _ => ?_
  refine Ensures.forRange (fun i (s : (ℕ → UInt64) × GaussianScale) => Certified s.1 s.2 (i * k))
    (Nat.zero_le _) ?_ ?_
  · rw [Nat.zero_mul]
    exact ⟨Nat.zero_le _, fun i hi => absurd hi (Nat.not_lt_zero i)⟩
  intro i s _ _ hs
  rw [Nat.succ_mul]
  refine Ensures.forRange (fun j (s : (ℕ → UInt64) × GaussianScale) =>
    Certified s.1 s.2 (i * k + j)) (Nat.zero_le _) hs ?_
  intro j s _ _ hs
  have hconverted : Ensures (convertCell lower k (ieeeFloor scan.1) i j)
      (fun converted => -2 ^ 31 ≤ converted.2.toInt ∧ converted.2.toInt < 2 ^ 31)
      fun _ => True :=
    Ensures.ite (fun _ => ensures_orStop fun _ h => convertIeee_bounds h) fun _ => by
      rw [ensures_ok]
      decide
  refine hconverted.seq fun converted hrange => ?_
  exact Ensures.ite (fun _ => trivial) fun _ => hs.storeRaw converted.1 hrange

/-- The slots of the reciprocals are above the diagonal. -/
theorem cacheSlot_above {k i n j : ℕ} (hk : 2 ≤ k) (hj : j < k) (hle : j ≤ n)
    (h : cacheSlot k i = n * k + j) : False := by
  rw [cacheSlot, divisionSlot] at h
  split at h
  · rename_i htwo
    subst htwo
    omega
  split at h
  · have hrow := congrArg (· / k) h
    have hcolumn := congrArg (· % k) h
    rw [Nat.add_assoc] at hrow hcolumn
    simp only [rowMajor_div i (show i + 1 < k by omega), rowMajor_div n hj] at hrow
    simp only [rowMajor_mod i (show i + 1 < k by omega), rowMajor_mod n hj] at hcolumn
    omega
  · rcases Nat.eq_zero_or_pos n with hzero | hpos
    · rw [hzero] at h
      omega
    · have hrow : 1 * k ≤ n * k := Nat.mul_le_mul_right _ hpos
      omega

theorem gaussianPrepareDivision_lower {Q : Type} [GaussianFormat Q] (raw : ℕ → UInt64) {k n j : ℕ}
    (hn : n < k) (hj : j ≤ n) :
    gaussianPrepareDivision Q raw k (n * k + j) = raw (n * k + j) := by
  rw [gaussianPrepareDivision]
  split
  · rfl
  · rename_i hk
    refine foldRange_induction (fun _ (prepared : ℕ → UInt64) =>
      prepared (n * k + j) = raw (n * k + j)) (Nat.zero_le _) rfl ?_
    intro i prepared _ _ ih
    refine (Function.update_of_ne ?_ _ _).trans ih
    exact fun h => cacheSlot_above (by omega) (by omega) hj h.symm

/-! ## Rows -/

section Rows

variable {input : SolverInput} {fractional i : ℕ} {s : SolverState}

theorem rowUnknown_solved (paths : SolverPaths) {errors : ℕ} (hs : Solved s i errors) :
    Ensures (rowUnknown Int16 paths input fractional i s) (fun s => Solved s (i + 1) errors)
      fun _ => True := by
  rw [rowUnknown]
  refine Ensures.ite (fun _ => trivial) fun _ => ?_
  refine (ensures_true _).seq fun numerator _ => ?_
  refine (ensures_true _).seq fun quotient _ => ?_
  refine (ensures_true _).seq fun raw _ => ?_
  have hzmax := hs.zmax_le
  have hmagnitude := toNat_magnitude_rawLoad (GaussianFormat.rawStore Int16 raw)
  have hle := natAbs_rawInt_le (GaussianFormat.rawStore Int16 raw)
  generalize GaussianFormat.rawStore Int16 raw = slot at *
  rw [ensures_ok]
  have hmax : (if pfQMagnitude (GaussianFormat.rawLoad Int16 slot) > s.zmax then
      pfQMagnitude (GaussianFormat.rawLoad Int16 slot) else s.zmax).toNat =
        max s.zmax.toNat (rawInt slot).natAbs := by
    rw [toNat_larger, hmagnitude]
  constructor
  case zmax_le =>
    rw [hmax]
    exact max_le hzmax hle
  case emax_le => exact hs.emax_le
  case magnitude_le =>
    intro j hj
    rw [hmax]
    dsimp only
    by_cases heq : j = i
    · rw [heq, Function.update_self]
      exact le_max_right _ _
    · rw [Function.update_of_ne heq]
      exact (hs.magnitude_le j (by omega)).trans (le_max_left _ _)
  case error_le => exact hs.error_le

/-- The quotient of an error leaves room for the rounding of its unknown. -/
theorem solvedError_le (paths : SolverPaths) :
    Ensures (solvedError Int16 paths input fractional i s)
      (fun quotient => quotient.toNat ≤ 2 ^ 31 - 1) fun _ => True := by
  have hroom : (GaussianFormat.errorMax Int16 - 0x80000000).toNat = 2 ^ 31 - 1 := by decide
  rw [solvedError]
  refine Ensures.ite (fun _ => Nat.zero_le _) fun _ => ?_
  refine (ensures_true _).seq fun propagated _ => ?_
  refine (ensures_true _).seq fun quotient _ => ?_
  refine Ensures.ite (fun _ => trivial) fun hle => ?_
  rw [gt_iff_lt, UInt64.lt_iff_toNat_lt, hroom] at hle
  rw [ensures_ok]
  omega

theorem rowError_solved (paths : SolverPaths) {unknowns : ℕ} (hs : Solved s unknowns i) :
    Ensures (rowError Int16 paths input fractional i s) (fun s => Solved s unknowns (i + 1))
      fun _ => True := by
  rw [rowError]
  refine (solvedError_le paths).seq fun quotient hquotient => ?_
  have hemax := hs.emax_le
  have htop : (0x80000000 : UInt64).toNat = 2 ^ 31 := rfl
  have hbound : (quotient + 0x80000000).toNat = quotient.toNat + 2 ^ 31 := by
    rw [toNat_add_of_fits (by rw [htop]; omega), htop]
  have hstored : errorNat (GaussianFormat.errorStore Int16 (quotient + 0x80000000)) ≤
      (quotient + 0x80000000).toNat := by
    show (quotient + 0x80000000).toUInt32.toUInt64.toUInt32.toUInt64.toNat ≤ _
    rw [toNat_toUInt64_word, toNat_toUInt32_word, toNat_toUInt64_word, toNat_toUInt32_word]
    omega
  generalize quotient + 0x80000000 = bound at *
  rw [ensures_ok]
  have hmax := toNat_larger bound s.emax
  constructor
  case zmax_le => exact hs.zmax_le
  case emax_le =>
    rw [hmax]
    omega
  case magnitude_le => exact hs.magnitude_le
  case error_le =>
    intro j hj
    rw [hmax]
    dsimp only
    by_cases heq : j = i
    · rw [heq, Function.update_self]
      exact hstored.trans (le_max_right _ _)
    · rw [Function.update_of_ne heq]
      exact (hs.error_le j (by omega)).trans (le_max_left _ _)

/-! ### The two builds of a row -/

theorem rowUnknown_agree (h : SystemCertified input) (hf : fractional ≤ 30) (hi : i < input.k)
    {errors : ℕ} (hs : Solved s i errors) :
    Agree (rowUnknown Int16 nativePaths input fractional i s)
      (rowUnknown Int16 (widePaths Int16) input fractional i s)
      (fun s => Solved s (i + 1) errors) := by
  have hnumerator : nativePaths.numerator input fractional i s =
      (widePaths Int16).numerator input fractional i s :=
    numeratorTry_eq_numeratorWide h hf hi hs
  refine ⟨?_, fun value hvalue => (rowUnknown_solved _ hs).of_eq_ok hvalue⟩
  rw [rowUnknown, rowUnknown, hnumerator]

theorem rowError_agree (h : SystemCertified input) (hf : fractional ≤ 30) (hi : i < input.k)
    {unknowns : ℕ} (hs : Solved s unknowns i) (hle : i ≤ unknowns) :
    Agree (rowError Int16 nativePaths input fractional i s)
      (rowError Int16 (widePaths Int16) input fractional i s)
      (fun s => Solved s unknowns (i + 1)) := by
  have hpropagated : nativePaths.propagated input fractional i s =
      (widePaths Int16).propagated input fractional i s :=
    propagatedTry_eq_propagatedWide h hf hi hs hle
  refine ⟨?_, fun value hvalue => (rowError_solved _ hs).of_eq_ok hvalue⟩
  rw [rowError, rowError, solvedError, solvedError, hpropagated]

theorem gaussianRow_agree (h : SystemCertified input) (hf : fractional ≤ 30) (hi : i < input.k)
    (hs : Solved s i i) :
    Agree (gaussianRow Int16 nativePaths input fractional i s)
      (gaussianRow Int16 (widePaths Int16) input fractional i s)
      (fun s => Solved s (i + 1) (i + 1)) :=
  (rowUnknown_agree h hf hi hs).bind fun _ hs' => rowError_agree h hf hi hs' (Nat.le_succ i)

/-- Nothing is solved at the start of a pass. -/
theorem solved_start (z error : ℕ → UInt64) : Solved ⟨z, error, 0, 0⟩ 0 0 :=
  ⟨Nat.zero_le _, Nat.zero_le _, fun j hj => absurd hj (Nat.not_lt_zero j),
    fun j hj => absurd hj (Nat.not_lt_zero j)⟩

theorem rows_agree (h : SystemCertified input) (hf : fractional ≤ 30) (z error : ℕ → UInt64)
    {n : ℕ} (hn : n ≤ input.k) :
    Agree (forRange 0 n ⟨z, error, 0, 0⟩ (gaussianRow Int16 nativePaths input fractional))
      (forRange 0 n ⟨z, error, 0, 0⟩ (gaussianRow Int16 (widePaths Int16) input fractional))
      (fun s => Solved s n n) :=
  Agree.forRange (fun i s => Solved s i i) (Nat.zero_le n) (solved_start z error)
    fun _ _ _ hi hs => gaussianRow_agree h hf (by omega) hs

theorem gaussianSums_eq (h : SystemCertified input) (hs : Solved s input.k input.k) :
    gaussianSums nativePaths input s = gaussianSums (widePaths Int16) input s := by
  have hmagnitudes : nativePaths.magnitudes input s = (widePaths Int16).magnitudes input s :=
    magnitudesTry_eq_magnitudesWide h hs
  have hmoments : nativePaths.moments input s = (widePaths Int16).moments input s :=
    momentsTry_eq_momentsWide h hs
  rw [gaussianSums, gaussianSums, hmagnitudes, hmoments]

theorem gaussianPass_eq (h : SystemCertified input) (hf : fractional ≤ 30)
    (z error : ℕ → UInt64) :
    gaussianPass Int16 nativePaths input z error fractional =
      gaussianPass Int16 (widePaths Int16) input z error fractional := by
  obtain ⟨hrows, hsolved⟩ := rows_agree h hf z error (le_refl input.k)
  rw [gaussianPass, gaussianPass, hrows]
  cases hrun : forRange 0 input.k ⟨z, error, 0, 0⟩
      (gaussianRow Int16 (widePaths Int16) input fractional) with
  | error e => rfl
  | ok s => rw [ok_bind, ok_bind, gaussianSums_eq h (hsolved s hrun)]

theorem gaussianFrom_eq (h : SystemCertified input) (z error : ℕ → UInt64) (hf : fractional ≤ 30) :
    gaussianFrom Int16 nativePaths input z error fractional =
      gaussianFrom Int16 (widePaths Int16) input z error fractional := by
  induction fractional with
  | zero => exact gaussianPass_eq h hf z error
  | succ fractional ih =>
      rw [gaussianFrom, gaussianFrom, gaussianPass_eq h hf, ih (by omega)]

end Rows

/-- A factor is applied to a draw with the same integers. -/
theorem perturbTry_eq {input : SolverInput} (h : SystemCertified input) (out : ℕ → GaussianWide) :
    perturbTry nativePaths input out = perturbTry (widePaths Int16) input out := by
  refine (Agree.forRange (fun _ _ => True) (Nat.zero_le _) trivial ?_).1
  intro i out _ hi _
  have hcell : ∀ j < (if input.sa.diagonal then 1 else i + 1),
      (if input.sa.diagonal then i + j else j) < i + 1 := by
    intro j hj
    by_cases hdiagonal : input.sa.diagonal = true
    · rw [if_pos hdiagonal] at hj ⊢
      omega
    · rw [if_neg hdiagonal] at hj ⊢
      exact hj
  have hrow : Certified (fun j => input.a (i * input.k + if input.sa.diagonal then i + j else j))
      input.sa (if input.sa.diagonal then 1 else i + 1) :=
    ⟨(h.factor i hi).maximum_le, fun j hj => (h.factor i hi).magnitude_le _ (hcell j hj)⟩
  have hvector : Certified (fun j => input.b (if input.sa.diagonal then i + j else j)) input.sb
      (if input.sa.diagonal then 1 else i + 1) :=
    ⟨h.vector.maximum_le, fun j hj =>
      h.vector.magnitude_le _ (Nat.lt_of_lt_of_le (hcell j hj) hi)⟩
  have hsize := h.size
  have hdot := dotTry_eq_dotWide hrow hvector (by split <;> omega)
  refine ⟨?_, fun _ _ => trivial⟩
  show (dotTry _ _ _ _ _ >>= _) = (dotWide Int16 _ _ _ _ _ >>= _)
  rw [hdot]

/-! ## Prepared inputs -/

/-- The raw values that the solver and the dot products are given. -/
inductive Prepared : (ℕ → UInt64) → GaussianScale → ℕ → Prop
  | vector {values : ℕ → UInt32} {length first n : ℕ} {raw b : ℕ → UInt64} {scale : GaussianScale}
      (h : vectorPrepare values length raw = .ok (b, scale)) (hle : first + n ≤ length) :
      Prepared (fun j => b (first + j)) scale n
  | row {lower : ℕ → UInt32} {k i first n : ℕ} {raw a : ℕ → UInt64} {scale : GaussianScale}
      (h : gaussianPrepare lower k raw = .ok (a, scale)) (hi : i < k) (hle : first + n ≤ i + 1) :
      Prepared (fun j => a (i * k + (first + j))) scale n

theorem Prepared.certified {raw : ℕ → UInt64} {scale : GaussianScale} {n : ℕ}
    (h : Prepared raw scale n) : Certified raw scale n := by
  cases h with
  | vector h hle =>
      have hrecorded := (vectorPrepare_certified _ _ _).of_eq_ok h
      exact ⟨hrecorded.maximum_le, fun j hj => hrecorded.magnitude_le _ (by omega)⟩
  | row h hi hle =>
      have hrecorded := (gaussianPrepare_certified _ _ _).of_eq_ok h
      exact ⟨hrecorded.maximum_le, fun j hj =>
        hrecorded.magnitude_le _ (rowMajor_lt hi (by omega))⟩

theorem systemCertified_of_prepared {lower values : ℕ → UInt32} {k : ℕ} (hk : k < 2 ^ 64)
    {rawA rawB a b : ℕ → UInt64} {sa sb : GaussianScale}
    (ha : gaussianPrepare lower k rawA = .ok (a, sa))
    (hb : vectorPrepare values k rawB = .ok (b, sb)) :
    SystemCertified ⟨gaussianPrepareDivision Int16 a k, sa, b, sb, k⟩ where
  factor i hi := by
    have hrecorded := (gaussianPrepare_certified _ _ _).of_eq_ok ha
    refine ⟨hrecorded.maximum_le, fun j hj => ?_⟩
    dsimp only
    rw [gaussianPrepareDivision_lower a hi (by omega)]
    exact hrecorded.magnitude_le _ (rowMajor_lt hi (by omega))
  vector := (vectorPrepare_certified _ _ _).of_eq_ok hb
  size := hk

/-- What a run of the solver does on its native paths. -/
structure SolverExact (input : SolverInput) (z error : ℕ → UInt64) : Prop where
  /-- Both builds return the same solution. -/
  same : gaussianTry Int16 nativePaths input z error =
    gaussianTry Int16 (widePaths Int16) input z error
  numerators : ∀ fractional ≤ 30, ∀ i < input.k, ∀ s,
    forRange 0 i ⟨z, error, 0, 0⟩ (gaussianRow Int16 nativePaths input fractional) = .ok s →
      NumeratorExact input fractional i s ∧
        numeratorTry input fractional i s = numeratorWide Int16 input fractional i s
  errors : ∀ fractional ≤ 30, ∀ i < input.k, ∀ s t,
    forRange 0 i ⟨z, error, 0, 0⟩ (gaussianRow Int16 nativePaths input fractional) = .ok s →
      rowUnknown Int16 nativePaths input fractional i s = .ok t →
        PropagatedExact input fractional i t ∧
          propagatedTry input fractional i t = propagatedWide Int16 input fractional i t
  sums : ∀ fractional ≤ 30, ∀ s,
    forRange 0 input.k ⟨z, error, 0, 0⟩ (gaussianRow Int16 nativePaths input fractional) = .ok s →
      MomentsExact input s ∧ magnitudesTry input s = magnitudesWide Int16 input s ∧
        momentsTry input s = momentsWide Int16 input s

theorem solver_exact {input : SolverInput} (h : SystemCertified input) (z error : ℕ → UInt64) :
    SolverExact input z error where
  same := gaussianFrom_eq h z error le_rfl
  numerators fractional hf i hi s hrun := by
    have hagree := rows_agree h hf z error hi.le
    have hs := hagree.2 s (hagree.1 ▸ hrun)
    exact ⟨numerator_exact h hf hi hs, numeratorTry_eq_numeratorWide h hf hi hs⟩
  errors fractional hf i hi s t hrun hrow := by
    have hagree := rows_agree h hf z error hi.le
    have hs := hagree.2 s (hagree.1 ▸ hrun)
    have ht := (rowUnknown_solved nativePaths hs).of_eq_ok hrow
    exact ⟨propagated_exact h hf hi ht (Nat.le_succ i),
      propagatedTry_eq_propagatedWide h hf hi ht (Nat.le_succ i)⟩
  sums fractional hf s hrun := by
    have hagree := rows_agree h hf z error le_rfl
    have hs := hagree.2 s (hagree.1 ▸ hrun)
    exact ⟨moments_exact h hs, magnitudesTry_eq_magnitudesWide h hs,
      momentsTry_eq_momentsWide h hs⟩

/-- No native path of the q15 solver overflows, in its sums or in its bounds, and each
returns the integer of the 128-bit path. -/
theorem native_paths_exact :
    (∀ a sa b sb count, count < 2 ^ 64 → Prepared a sa count → Prepared b sb count →
      DotExact a sa b sb count ∧ dotTry a sa b sb count = dotWide Int16 a sa b sb count) ∧
    ∀ (lower values : ℕ → UInt32) (k : ℕ) (rawA rawB a b z error : ℕ → UInt64)
      (sa sb : GaussianScale), k < 2 ^ 64 → gaussianPrepare lower k rawA = .ok (a, sa) →
        vectorPrepare values k rawB = .ok (b, sb) →
          SolverExact ⟨gaussianPrepareDivision Int16 a k, sa, b, sb, k⟩ z error := by
  constructor
  · intro a sa b sb count hcount ha hb
    exact ⟨dot_exact ha.certified hb.certified hcount,
      dotTry_eq_dotWide ha.certified hb.certified hcount⟩
  · intro lower values k rawA rawB a b z error sa sb hk ha hb
    exact solver_exact (systemCertified_of_prepared hk ha hb) z error

end Xhive.Particles
