import Xhive.Particles.Filter
import Xhive.Particles.ResampleExact

/-!
# The largest weight of a particle filter

Initialisation and resampling store the largest signal everywhere, and
reweighting stores it at the particle with the largest product.  So the weights
stay in range, their total stays positive, and no call fails for want of weight.
-/

namespace Xhive.Particles

open Xhive.Support Xhive.Linears Xhive.Filters Procedure

/-! ## Shapes -/

section Shapes

variable {Q : Type} [ParticleFormat Q]

theorem scalarBytes_pos (Q : Type) [ParticleFormat Q] : 0 < FilterFormat.scalarBytes Q :=
  lt_of_lt_of_le (by norm_num) ParticleFormat.two_le_scalarBytes

/-- What an accepted shape says. -/
theorem ukfShape_eq_ok {wide : Bool} {matrix : SignalMatrix Q} {rows cols : ℕ}
    (h : ukfShape wide matrix rows cols = .ok ()) :
    0 < matrix.rows ∧ 0 < matrix.cols ∧ (rows ≠ 0 → matrix.rows = rows) ∧
      (cols ≠ 0 → matrix.cols = cols) ∧
      matrix.rows * matrix.cols * FilterFormat.scalarBytes Q < sizeMax wide := by
  rw [ukfShape] at h
  split at h
  · cases h
  rename_i hdims
  push Not at hdims
  obtain ⟨hrows, hcols, hr, hc⟩ := hdims
  dsimp only at h
  split at h
  · cases h
  rename_i hsize
  push Not at hsize
  have hcount := linearsSizeMul_lt (Nat.pos_of_ne_zero hcols) hsize.1
  have hbytes := linearsSizeMul_lt (scalarBytes_pos Q) hsize.2
  rw [hcount.1] at hbytes
  exact ⟨Nat.pos_of_ne_zero hrows, Nat.pos_of_ne_zero hcols, hr, hc, hbytes.2⟩

end Shapes

/-! ## Stored weights -/

/-- Codes of signals that are not negative, one of them the largest. -/
structure WeightsScaled {Q : Type} [ParticleFormat Q] (weights : ℕ → Q) (count : ℕ) : Prop where
  nonneg : ∀ i < count, 0 ≤ (QFormat.widen (weights i)).toInt
  full : ∃ i < count, weights i = ParticleFormat.signalMax

section Weights

variable {Q : Type} [ParticleFormat Q]

theorem toInt_signalMax_pos (Q : Type) [ParticleFormat Q] :
    0 < (QFormat.widen (ParticleFormat.signalMax : Q)).toInt := by
  have hbits := (qBits_bounds Q).1
  have hpow : (2 : ℤ) ^ 1 ≤ 2 ^ (QFormat.qBits Q).toNat := pow_le_pow_right₀ (by norm_num) (by omega)
  rw [ParticleFormat.toInt_signalMax]
  omega

theorem toInt_le_signalMax (x : Q) :
    (QFormat.widen x).toInt ≤ (QFormat.widen (ParticleFormat.signalMax : Q)).toInt := by
  have h := QFormat.toInt_widen_lt x
  rw [ParticleFormat.toInt_signalMax]
  omega

theorem WeightsScaled.congr {weights weights' : ℕ → Q} {count : ℕ} (h : WeightsScaled weights count)
    (heq : ∀ i < count, weights' i = weights i) : WeightsScaled weights' count := by
  obtain ⟨i, hi, hfull⟩ := h.full
  constructor
  · intro j hj
    rw [heq j hj]
    exact h.nonneg j hj
  · exact ⟨i, hi, (heq i hi).trans hfull⟩

/-- The weights that resampling needs. -/
theorem WeightsScaled.admitted {wide : Bool} {weights : ℕ → Q} {count : ℕ}
    (h : WeightsScaled weights count)
    (hfits : count * FilterFormat.scalarBytes Q < sizeMax wide) :
    WeightsAdmitted wide weights count := by
  obtain ⟨i, hi, hfull⟩ := h.full
  refine ⟨hfits, h.nonneg, ?_⟩
  have hpos := toInt_signalMax_pos Q
  have hmem : weightCode (weights i) ≤ cumulativeWeight weights count :=
    Finset.single_le_sum (f := fun j => weightCode (weights j)) (fun _ _ => Nat.zero_le _)
      (Finset.mem_range.mpr hi)
  rw [hfull, weightCode] at hmem
  omega

theorem resetWeights_data (weights : SignalMatrix Q) :
    ∀ i < weights.rows, (resetWeights weights).data (i, 0) = ParticleFormat.signalMax := by
  have hcell : Function.Injective fun i : ℕ => (i, 0) := fun _ _ h => (Prod.mk.inj h).1
  exact foldRange_fill hcell _ _ _

theorem resetWeights_scaled (weights : SignalMatrix Q) (hrows : 0 < weights.rows) :
    WeightsScaled (fun i => (resetWeights weights).data (i, 0)) weights.rows := by
  have hdata := resetWeights_data weights
  constructor
  · intro i hi
    rw [hdata i hi]
    exact (toInt_signalMax_pos Q).le
  · exact ⟨0, hrows, hdata 0 hrows⟩

end Weights

/-! ## Reweighting -/

section Reweight

variable {Q : Type} [LikelihoodFormat Q] {platform : WorkPlatform Q} {weights : ℕ → Q}
  {exponents : ℕ → WorkBits Q} {count : ℕ}

/-- `lowest` is the least exponent of a positive weight among the first `i`. -/
structure LowestOf (weights : ℕ → Q) (exponents : ℕ → WorkBits Q) (i : ℕ)
    (lowest : WorkBits Q) : Prop where
  attained : ∃ k < i, (QFormat.widen (weights k)).toInt ≠ 0 ∧ exponents k = lowest
  least : ∀ k < i, (QFormat.widen (weights k)).toInt ≠ 0 →
    exponentLess (exponents k) lowest = false

theorem exponentLess_eq_false_iff (a b : WorkBits Q) :
    exponentLess a b = false ↔ exponentKey b ≤ exponentKey a := by
  rw [← Bool.not_eq_true, exponentLess_iff, not_lt]

theorem widen_eq_zero_iff (x : Q) : QFormat.widen x = 0 ↔ (QFormat.widen x).toInt = 0 := by
  rw [← Int64.toInt_inj, Int64.toInt_zero]

/-- The first loop checks every exponent and finds the least relevant one. -/
theorem reweightLowest_loop {found : Option (WorkBits Q)}
    (h : forRange 0 count none (reweightLowest weights exponents) = .ok found) :
    (∀ k < count, workFinite (exponents k) = true) ∧
      ∀ lowest, found = some lowest → LowestOf weights exponents count lowest := by
  let inv : ℕ → Option (WorkBits Q) → Prop := fun i found =>
    (∀ k < i, workFinite (exponents k) = true) ∧
      (found = none → ∀ k < i, (QFormat.widen (weights k)).toInt = 0) ∧
      ∀ lowest, found = some lowest → LowestOf weights exponents i lowest
  have hloop : Ensures (forRange 0 count none (reweightLowest weights exponents)) (inv count)
      fun _ => True := by
    apply Ensures.forRange inv (Nat.zero_le count)
    · refine ⟨fun k hk => absurd hk (Nat.not_lt_zero _), fun _ k hk => absurd hk (Nat.not_lt_zero _),
        fun lowest heq => by cases heq⟩
    · rintro i found - - ⟨hfinite, hnone, hsome⟩
      rw [reweightLowest.eq_def]
      refine Ensures.ite (fun _ => trivial) fun _ => Ensures.ite (fun _ => trivial) fun hi => ?_
      rw [Bool.not_eq_false] at hi
      have hfinite' : ∀ k < i + 1, workFinite (exponents k) = true := by
        intro k hk
        rcases Nat.lt_succ_iff_lt_or_eq.mp hk with hlt | rfl
        · exact hfinite k hlt
        · exact hi
      refine Ensures.ite (fun hzero => ?_) fun hpos => ?_
      · rw [widen_eq_zero_iff] at hzero
        refine ⟨hfinite', fun hf k hk => ?_, fun lowest hf => ?_⟩
        · rcases Nat.lt_succ_iff_lt_or_eq.mp hk with hlt | rfl
          · exact hnone hf k hlt
          · exact hzero
        · obtain ⟨⟨k, hk, hattained⟩, hleast⟩ := hsome lowest hf
          refine ⟨⟨k, by omega, hattained⟩, fun j hj hne => ?_⟩
          rcases Nat.lt_succ_iff_lt_or_eq.mp hj with hlt | rfl
          · exact hleast j hlt hne
          · exact absurd hzero hne
      · rw [widen_eq_zero_iff] at hpos
        cases found with
        | none =>
            refine ⟨hfinite', fun hf => (by cases hf), fun lowest hf => ?_⟩
            cases hf
            refine ⟨⟨i, Nat.lt_succ_self i, hpos, rfl⟩, fun j hj hne => ?_⟩
            rcases Nat.lt_succ_iff_lt_or_eq.mp hj with hlt | rfl
            · exact absurd (hnone rfl j hlt) hne
            · rw [exponentLess_eq_false_iff]
        | some low =>
            obtain ⟨⟨k, hk, hattained⟩, hleast⟩ := hsome low rfl
            refine ⟨hfinite', fun hf => ?_, fun lowest hf => ?_⟩
            · split at hf <;> cases hf
            · by_cases hless : exponentLess (exponents i) low = true
              · rw [if_pos hless] at hf
                cases hf
                refine ⟨⟨i, Nat.lt_succ_self i, hpos, rfl⟩, fun j hj hne => ?_⟩
                rw [exponentLess_eq_false_iff]
                rcases Nat.lt_succ_iff_lt_or_eq.mp hj with hlt | rfl
                · have hj := hleast j hlt hne
                  rw [exponentLess_eq_false_iff] at hj
                  rw [exponentLess_iff] at hless
                  omega
                · exact le_rfl
              · rw [if_neg hless] at hf
                cases hf
                refine ⟨⟨k, by omega, hattained⟩, fun j hj hne => ?_⟩
                rcases Nat.lt_succ_iff_lt_or_eq.mp hj with hlt | rfl
                · exact hleast j hlt hne
                · exact Bool.not_eq_true _ ▸ hless
  obtain ⟨hfinite, -, hsome⟩ := hloop.of_eq_ok h
  exact ⟨hfinite, hsome⟩

/-- The product that decides the new weight of particle `i`. -/
def reweightProduct (platform : WorkPlatform Q) (weights : ℕ → Q) (exponents : ℕ → WorkBits Q)
    (lowest : WorkBits Q) (i : ℕ) : Accum :=
  pfQUmul (reweightLikelihood platform weights exponents lowest i) (weightWord (weights i))

/-- One round of the second loop at a given likelihood. -/
def productScan (weights : ℕ → Q) (likelihoods : ℕ → UInt64) (i : ℕ)
    (s : (ℕ → UInt64) × Accum) : (ℕ → UInt64) × Accum :=
  let product := pfQUmul (likelihoods i) (weightWord (weights i))
  (Function.update s.1 i (likelihoods i), if pfQUcmp product s.2 > 0 then product else s.2)

/-- After the loop every slot is filled and the maximum is attained. -/
theorem productScan_loop (weights : ℕ → Q) (likelihoods : ℕ → UInt64)
    (count : ℕ) :
    let s := foldRange 0 count ((fun _ => 0), ⟨0, 0⟩) (productScan weights likelihoods)
    (∀ k < count, s.1 k = likelihoods k) ∧
      (∀ k < count, (pfQUmul (likelihoods k) (weightWord (weights k))).toNat ≤ s.2.toNat) ∧
      (s.2.toNat = 0 ∨ ∃ k < count, pfQUmul (likelihoods k) (weightWord (weights k)) = s.2) := by
  refine foldRange_induction (fun i (s : (ℕ → UInt64) × Accum) =>
    (∀ k < i, s.1 k = likelihoods k) ∧
      (∀ k < i, (pfQUmul (likelihoods k) (weightWord (weights k))).toNat ≤ s.2.toNat) ∧
      (s.2.toNat = 0 ∨ ∃ k < i, pfQUmul (likelihoods k) (weightWord (weights k)) = s.2))
    (Nat.zero_le count) ?_ ?_
  · exact ⟨fun k hk => absurd hk (Nat.not_lt_zero _), fun k hk => absurd hk (Nat.not_lt_zero _),
      Or.inl rfl⟩
  · rintro i s - - ⟨hslots, hle, hattained⟩
    have hcmp := pfQUcmp_pos_iff (pfQUmul (likelihoods i) (weightWord (weights i))) s.2
    refine ⟨fun k hk => ?_, ?_⟩
    · by_cases heq : k = i
      · rw [heq, productScan]
        exact Function.update_self ..
      · rw [productScan]
        exact (Function.update_of_ne heq ..).trans (hslots k (by omega))
    · rw [productScan]
      dsimp only
      by_cases hgt : pfQUcmp (pfQUmul (likelihoods i) (weightWord (weights i))) s.2 > 0
      · rw [if_pos hgt]
        have hlt := hcmp.mp hgt
        refine ⟨fun k hk => ?_, Or.inr ⟨i, Nat.lt_succ_self i, rfl⟩⟩
        rcases Nat.lt_succ_iff_lt_or_eq.mp hk with hk | rfl
        · exact (hle k hk).trans hlt.le
        · rfl
      · rw [if_neg hgt]
        have hge := not_lt.mp fun h => hgt (hcmp.mpr h)
        refine ⟨fun k hk => ?_, hattained.imp_right fun ⟨k, hk, heq⟩ => ⟨k, by omega, heq⟩⟩
        rcases Nat.lt_succ_iff_lt_or_eq.mp hk with hk | rfl
        · exact hle k hk
        · exact hge

/-- The loop at the likelihoods of the particles. -/
theorem reweightScan_loop (platform : WorkPlatform Q) (weights : ℕ → Q)
    (exponents : ℕ → WorkBits Q) (lowest : WorkBits Q) (count : ℕ) :
    let s := foldRange 0 count ((fun _ => 0), ⟨0, 0⟩)
      (reweightScan platform weights exponents lowest)
    (∀ k < count, s.1 k = reweightLikelihood platform weights exponents lowest k) ∧
      (∀ k < count,
        (reweightProduct platform weights exponents lowest k).toNat ≤ s.2.toNat) ∧
      (s.2.toNat = 0 ∨
        ∃ k < count, reweightProduct platform weights exponents lowest k = s.2) :=
  productScan_loop weights (reweightLikelihood platform weights exponents lowest) count

theorem toInt_narrow_word {value : UInt64}
    (h : value.toNat ≤ (QFormat.widen (ParticleFormat.signalMax : Q)).toInt.toNat) :
    (QFormat.widen (QFormat.narrow value.toInt64 : Q)).toInt = value.toNat := by
  have hbits := (qBits_bounds Q).2
  have hpow : (2 : ℤ) ^ (QFormat.qBits Q).toNat ≤ 2 ^ 31 := pow_le_pow_right₀ (by norm_num) hbits
  have hmax := ParticleFormat.toInt_signalMax (Q := Q)
  have hpos := toInt_signalMax_pos Q
  have hword : value.toInt64.toInt = value.toNat := toInt_toInt64_of_lt (by omega)
  rw [QFormat.toInt_widen_narrow, hword]
  · rw [hword]
    have hneg : -(2 : ℤ) ^ (QFormat.qBits Q).toNat ≤ 0 := by
      rw [neg_nonpos]
      positivity
    omega
  · rw [hword]
    omega

theorem toNat_weightWord_max :
    (weightWord (ParticleFormat.signalMax : Q)).toNat =
      (QFormat.widen (ParticleFormat.signalMax : Q)).toInt.toNat :=
  toNat_weightWord (toInt_signalMax_pos Q).le

/-- A new weight is in range, and the largest product gets the largest one. -/
theorem reweightValue_spec (weights : ℕ → Q) (slots : ℕ → UInt64) (maximum : Accum)
    (multiplier : UInt32) (shift i : ℕ) :
    0 ≤ (QFormat.widen (reweightValue weights slots maximum multiplier shift i)).toInt ∧
      (pfQUmul (LikelihoodFormat.cached Q (slots i)) (weightWord (weights i)) = maximum →
        reweightValue weights slots maximum multiplier shift i = ParticleFormat.signalMax) := by
  have hmax := toNat_weightWord_max (Q := Q)
  have hpos := toInt_signalMax_pos Q
  have hclamp : ∀ value : UInt64,
      (if value > weightWord (ParticleFormat.signalMax : Q) then
        weightWord (ParticleFormat.signalMax : Q) else value).toNat ≤
          (QFormat.widen (ParticleFormat.signalMax : Q)).toInt.toNat := by
    intro value
    split
    · exact hmax.le
    · rename_i hle
      rwa [gt_iff_lt, UInt64.lt_iff_toNat_lt, hmax, not_lt] at hle
  rw [reweightValue]
  constructor
  · rw [toInt_narrow_word (hclamp _)]
    exact Int.natCast_nonneg _
  · intro heq
    rw [if_pos ((pfQUcmp_eq_zero_iff _ _).mpr (congrArg Accum.toNat heq)), ite_self]
    apply FilterFormat.widen_injective
    rw [toInt_narrow_word hmax.le, hmax]
    omega

/-- Reweighting scaled weights gives scaled weights. -/
theorem reweight_scaled (hplatform : platform.Standard) (h : WeightsScaled weights count)
    {staged result : ℕ → Q} (hok : reweight platform weights exponents count staged = .ok result) :
    WeightsScaled result count := by
  rw [reweight] at hok
  rcases hfound : forRange 0 count none (reweightLowest weights exponents) with e | found
  · rw [hfound] at hok
    cases hok
  rw [hfound, ok_bind] at hok
  obtain ⟨hfinite, hlowest⟩ := reweightLowest_loop hfound
  cases found with
  | none => cases hok
  | some lowest =>
      obtain ⟨⟨k, hk, hpositive, hattained⟩, hleast⟩ := hlowest lowest rfl
      dsimp only at hok
      obtain ⟨hslots, hle, hmaximum⟩ :=
        reweightScan_loop platform weights exponents lowest count
      generalize foldRange 0 count ((fun _ => 0), (⟨0, 0⟩ : Accum))
        (reweightScan platform weights exponents lowest) = s at hok hslots hle hmaximum
      -- what the slots give back is what was compared
      have hcached : ∀ i < count, LikelihoodFormat.cached Q (s.1 i) =
          reweightLikelihood platform weights exponents lowest i := by
        intro i hi
        rw [hslots i hi]
        apply LikelihoodFormat.cached_of_le
        rw [reweightLikelihood]
        split
        · exact UInt64.le_iff_toNat_le.mpr (Nat.zero_le _)
        · rename_i hne
          rw [widen_eq_zero_iff] at hne
          have hfin := hfinite k hk
          rw [hattained] at hfin
          exact hplatform.likelihoodPair_le (hfinite i hi) hfin (hleast i hi hne)
      have hpositive' : 0 < (reweightProduct platform weights exponents lowest k).toNat := by
        have hweight := toNat_weightWord (h.nonneg k hk)
        have hnonneg := h.nonneg k hk
        rw [reweightProduct, reweightLikelihood, if_neg (by rwa [widen_eq_zero_iff]), hattained,
          platform.likelihoodPair_self, toNat_pfQUmul, hweight, weightCode]
        exact Nat.mul_pos LikelihoodFormat.likelihoodOne_pos (by omega)
      have hexists : ∃ j < count, reweightProduct platform weights exponents lowest j = s.2 := by
        rcases hmaximum with hzero | hexists
        · have := hle k hk
          omega
        · exact hexists
      obtain ⟨j, hj, hproduct⟩ := hexists
      have hvalues : ∀ i < count, result i = reweightValue weights s.1 s.2
          (expRoundDiv (expShl ⟨weightWord (ParticleFormat.signalMax : Q), 0⟩ (pfQUbits s.2))
            s.2).toUInt32 (pfQUbits s.2) i := by
        cases hok
        exact foldRange_fill (fun _ _ h => h) _ _ _
      refine ⟨fun i hi => ?_, ⟨j, hj, ?_⟩⟩
      · rw [hvalues i hi]
        exact (reweightValue_spec _ _ _ _ _ _).1
      · rw [hvalues j hj]
        apply (reweightValue_spec _ _ _ _ _ _).2
        rw [hcached j hj]
        exact hproduct

end Reweight

/-! ## Calls -/

section Calls

variable {Q : Type} [LikelihoodFormat Q]

/-- What every reachable object satisfies. -/
structure PfInvariant (wide : Bool) (s : PfState Q) : Prop where
  rows : s.weights.rows = s.count
  fits : s.count * FilterFormat.scalarBytes Q < sizeMax wide
  scaled : WeightsScaled s.weight s.count

theorem pfCheckState_eq_ok {wide : Bool} {views : StateViews} {s : PfState Q}
    (h : pfCheckState wide views s = .ok ()) :
    0 < s.count ∧ s.weights.rows = s.count ∧
      s.count * FilterFormat.scalarBytes Q < sizeMax wide := by
  obtain ⟨_, -, h⟩ := ok_of_bind h
  obtain ⟨_, hparticles, h⟩ := ok_of_bind h
  obtain ⟨_, hweights, -⟩ := ok_of_bind h
  obtain ⟨_, hparticles, -⟩ := ok_of_bind hparticles
  obtain ⟨_, hweights, -⟩ := ok_of_bind hweights
  obtain ⟨hcount, -, -, -, -⟩ := ukfShape_eq_ok hparticles
  obtain ⟨-, -, hrows, hcols, hbytes⟩ := ukfShape_eq_ok hweights
  have hrows := hrows (Nat.pos_iff_ne_zero.mp hcount)
  rw [hrows, hcols (by norm_num), Nat.mul_one] at hbytes
  exact ⟨hcount, hrows, hbytes⟩

/-- A successful init establishes the invariant. -/
theorem pfInit_invariant {env : PfEnvironment Q} {call : PfInitCall Q} {s t : PfState Q}
    (h : pfInit env call s = (.ok (), t)) : PfInvariant env.wide t := by
  rw [pfInit, read_bind] at h
  obtain ⟨sample, hchecks, h⟩ := attempt_bind_eq_ok h
  obtain ⟨factor, -, h⟩ := attempt_bind_eq_ok h
  obtain ⟨signal, -, h⟩ := attempt_bind_eq_ok h
  rw [write_bind, write_bind, write_bind] at h
  have hcheck : ∃ views, pfCheckState env.wide views s = .ok () := by
    rw [pfInitChecks] at hchecks
    split at hchecks
    · cases hchecks
    · obtain ⟨_, hstate, -⟩ := ok_of_bind hchecks
      exact ⟨_, hstate⟩
  obtain ⟨views, hcheck⟩ := hcheck
  obtain ⟨hcount, hrows, hfits⟩ := pfCheckState_eq_ok hcheck
  have hscaled := resetWeights_scaled s.weights (by rw [hrows]; exact hcount)
  rw [hrows] at hscaled
  cases h
  constructor
  all_goals
    dsimp only [id]
    split <;> split
  all_goals first | exact hrows | exact hfits | exact hscaled

theorem pfPredict_atomic (env : PfEnvironment Q) (call : PfPredictCall Q) :
    (pfPredict env call).Atomic := by
  apply Atomic.read_bind
  intro s
  split
  · iterate 5
      apply Atomic.attempt_bind
      intro _
    exact (Unfailing.write _).atomic
  · exact Atomic.attempt _

theorem pfUpdate_atomic (env : PfEnvironment Q) (call : PfUpdateCall Q) :
    (pfUpdate env call).Atomic := by
  apply Atomic.read_bind
  intro s
  split
  · exact Atomic.attempt _
  · iterate 8
      apply Atomic.attempt_bind
      intro _
    exact (Unfailing.write _).atomic

theorem pfResample_atomic (env : PfEnvironment Q) (call : PfResampleCall) :
    (pfResample env call).Atomic := by
  apply Atomic.read_bind
  intro s
  apply Atomic.attempt_bind
  intro _
  split
  · exact Atomic.attempt _
  · iterate 3
      apply Atomic.attempt_bind
      intro _
    apply Unfailing.atomic
    apply (Unfailing.write _).bind
    intro _
    apply (Unfailing.write _).bind
    intro _
    exact Unfailing.pure _

/-- A failing call changes nothing. -/
theorem PfCall.perform_atomic (env : PfEnvironment Q) (call : PfCall Q) :
    (call.perform env).Atomic := by
  cases call with
  | predict call => exact pfPredict_atomic env call
  | update call => exact pfUpdate_atomic env call
  | resample call => exact (pfResample_atomic env call).bind_unfailing fun _ => Unfailing.pure _

theorem pfPredict_ok {env : PfEnvironment Q} {call : PfPredictCall Q} {s t : PfState Q} {a : Unit}
    (h : pfPredict env call s = (.ok a, t)) :
    t.weights = s.weights ∧ t.particles.rows = s.particles.rows := by
  rw [pfPredict, read_bind] at h
  rcases htransition : call.transition with _ | transition
  · simp only [htransition] at h
    cases h
  rcases hsample : call.sample with _ | sample
  · simp only [htransition, hsample] at h
    cases h
  · simp only [htransition, hsample] at h
    obtain ⟨_, -, h⟩ := attempt_bind_eq_ok h
    obtain ⟨_, -, h⟩ := attempt_bind_eq_ok h
    obtain ⟨_, -, h⟩ := attempt_bind_eq_ok h
    obtain ⟨_, -, h⟩ := attempt_bind_eq_ok h
    obtain ⟨_, -, h⟩ := attempt_bind_eq_ok h
    cases h
    exact ⟨rfl, rfl⟩

theorem pfUpdate_ok {env : PfEnvironment Q} {call : PfUpdateCall Q} {s t : PfState Q} {a : Unit}
    (h : pfUpdate env call s = (.ok a, t)) :
    t.particles = s.particles ∧ t.weights.rows = s.weights.rows ∧
      ∃ exponents staged, reweight env.platform s.weight exponents s.count call.signal = .ok staged ∧
        ∀ i < s.count, t.weight i = staged i := by
  rw [pfUpdate, read_bind] at h
  rcases hobservation : call.observation with _ | observation
  · simp only [hobservation] at h
    cases h
  · simp only [hobservation] at h
    obtain ⟨_, -, h⟩ := attempt_bind_eq_ok h
    obtain ⟨_, -, h⟩ := attempt_bind_eq_ok h
    obtain ⟨_, -, h⟩ := attempt_bind_eq_ok h
    obtain ⟨_, -, h⟩ := attempt_bind_eq_ok h
    obtain ⟨_, -, h⟩ := attempt_bind_eq_ok h
    obtain ⟨_, -, h⟩ := attempt_bind_eq_ok h
    obtain ⟨exponents, -, h⟩ := attempt_bind_eq_ok h
    obtain ⟨staged, hstaged, h⟩ := attempt_bind_eq_ok h
    cases h
    refine ⟨rfl, rfl, exponents, staged, hstaged, fun i hi => ?_⟩
    exact if_pos ⟨hi, Nat.one_pos⟩

theorem pfResample_ok {env : PfEnvironment Q} {call : PfResampleCall} {s t : PfState Q}
    {indices : ℕ → ℕ} (h : pfResample env call s = (.ok indices, t)) :
    t.particles.rows = s.particles.rows ∧ t.weights = resetWeights s.weights := by
  rw [pfResample, read_bind] at h
  obtain ⟨_, -, h⟩ := attempt_bind_eq_ok h
  rcases hindices : call.indices with _ | given
  · simp only [hindices] at h
    cases h
  · simp only [hindices] at h
    obtain ⟨_, -, h⟩ := attempt_bind_eq_ok h
    obtain ⟨_, -, h⟩ := attempt_bind_eq_ok h
    obtain ⟨_, -, h⟩ := attempt_bind_eq_ok h
    cases h
    exact ⟨rfl, rfl⟩

/-- Every call keeps the invariant. -/
theorem PfInvariant.perform {env : PfEnvironment Q} (hplatform : env.platform.Standard)
    {s : PfState Q} (h : PfInvariant env.wide s) (call : PfCall Q) :
    PfInvariant env.wide (call.perform env s).2 := by
  apply (call.perform_atomic env).preserves h
  intro a t ht
  cases call with
  | predict call =>
      obtain ⟨hweights, hrows⟩ := pfPredict_ok ht
      have hcount : t.count = s.count := hrows
      have hweight : ∀ i < s.count, t.weight i = s.weight i := by
        intro i _
        rw [PfState.weight, hweights]
        rfl
      constructor
      · rw [hcount, hweights]
        exact h.rows
      · rw [hcount]
        exact h.fits
      · rw [hcount]
        exact h.scaled.congr hweight
  | update call =>
      obtain ⟨hparticles, hrows, exponents, staged, hstaged, hweight⟩ := pfUpdate_ok ht
      have hcount : t.count = s.count := congrArg SignalMatrix.rows hparticles
      constructor
      · rw [hcount, hrows]
        exact h.rows
      · rw [hcount]
        exact h.fits
      · rw [hcount]
        exact (reweight_scaled hplatform h.scaled hstaged).congr hweight
  | resample call =>
      obtain ⟨indices, u, hresample, hrest⟩ := bind_eq_ok ht
      obtain ⟨hrows, hweights⟩ := pfResample_ok hresample
      cases hrest
      have hcount : t.count = s.count := hrows
      have hpos : 0 < s.weights.rows := by
        obtain ⟨i, hi, -⟩ := h.scaled.full
        rw [h.rows]
        omega
      have hscaled := resetWeights_scaled s.weights hpos
      rw [h.rows] at hscaled
      constructor
      · rw [hcount, hweights]
        exact h.rows
      · rw [hcount]
        exact h.fits
      · rw [hcount]
        apply hscaled.congr
        intro i _
        rw [PfState.weight, hweights]

/-- The invariant of a run. -/
theorem PfReachable.invariant {env : PfEnvironment Q} (hplatform : env.platform.Standard)
    {s : PfState Q} (h : PfReachable env s) : PfInvariant env.wide s := by
  induction h with
  | init call h => exact pfInit_invariant h
  | call call _ ih => exact ih.perform hplatform call

/-! ### Calls that need the total -/

theorem PfInvariant.total {wide : Bool} {s : PfState Q} (h : PfInvariant wide s) :
    ∃ total, weightTotal s.weight s.count = .ok total ∧
      total.toNat = cumulativeWeight s.weight s.count ∧ 0 < total.toNat := by
  have hadmitted := h.scaled.admitted h.fits
  obtain ⟨total, hok, htotal⟩ := hadmitted.weightTotal_eq
  refine ⟨total, hok, htotal, ?_⟩
  rw [htotal]
  exact hadmitted.total_pos

/-- A draw in `[0, 1)` is all that resampling needs beside admitted arguments. -/
theorem PfInvariant.resample_ok {env : PfEnvironment Q} {s : PfState Q}
    (h : PfInvariant env.wide s) {call : PfResampleCall} {given : ℕ → ℕ} {d : BinaryDraw}
    (hcheck : pfCheckState env.wide call.views s = .ok ()) (hindices : call.indices = some given)
    (hcapacity : s.count ≤ call.capacity) (hview : call.indicesView = .ok ())
    (huniform : call.uniform = .draw d) :
    ∃ indices t, pfResample env call s = (.ok indices, t) := by
  obtain ⟨total, htotal, -⟩ := h.total
  have hroom : (if call.capacity < s.count then .error .errorWorkspace else .ok () :
      Except Status Unit) = .ok () := if_neg (not_lt.mpr hcapacity)
  have hplan : resampleIndices s.weight s.count call.uniform (some given) call.capacity =
      .ok (resampleLoop (resamplePlan total d s.count) s.weight s.count given s.count).indices := by
    rw [resampleIndices.eq_def, huniform]
    simp only [if_neg (not_lt.mpr hcapacity)]
    rw [htotal, ok_bind]
  rw [pfResample, read_bind, id_eq, attempt_bind_ok hcheck]
  simp only [hindices]
  rw [attempt_bind_ok hroom, attempt_bind_ok hview, attempt_bind_ok hplan]
  exact ⟨_, _, rfl⟩

theorem momentCovariance_error (sum total first second : Accum) :
    Ensures (momentCovariance sum total first second : Except Status Q) (fun _ => True)
      fun e => e = .errorRange := by
  have hwide : Ensures (momentCovarianceWide sum total first second : Except Status Q)
      (fun _ => True) fun e => e = .errorRange :=
    Ensures.ite (fun _ => rfl) fun _ => trivial
  rw [momentCovariance]
  refine Ensures.ite (fun _ => hwide) fun _ => Ensures.ite (fun _ => trivial) fun _ => ?_
  exact Ensures.ite (fun _ => trivial) fun _ => hwide

/-- The integer estimate can only leave the range. -/
theorem estimateInteger_error (weights : ℕ → Q) (particles : ℕ × ℕ → Q) (count n : ℕ)
    (total : Accum) (scratch : MomentScratch Q) :
    Ensures (estimateInteger weights particles count n total scratch) (fun _ => True)
      fun e => e = .errorRange := by
  have hmean : Ensures (forRange 0 n scratch (meanStep weights particles count total))
      (fun _ => True) fun e => e = .errorRange := by
    apply Ensures.forRange (fun _ _ => True) (Nat.zero_le n) trivial
    intro j s _ _ _
    exact Ensures.ite (fun _ => rfl) fun _ => trivial
  refine hmean.seq fun s _ => ?_
  have hcovariance : Ensures (forRange 0 n s fun j s =>
      forRange 0 (j + 1) s fun k s => covarianceStep weights particles count total j k s)
      (fun _ => True) fun e => e = .errorRange := by
    apply Ensures.forRange (fun _ _ => True) (Nat.zero_le n) trivial
    intro j s _ _ _
    apply Ensures.forRange (fun _ _ => True) (Nat.zero_le (j + 1)) trivial
    intro k s _ _ _
    exact (momentCovariance_error _ _ _ _).seq fun _ _ => trivial
  exact hcovariance.seq fun _ _ => trivial

/-- After a successful init and any calls, failing or not: every weight is in
range and one is the largest signal; the total is positive, so that resampling
succeeds on every draw and the estimate cannot leave its domain; and a failing
call leaves particles and weights as they were. -/
theorem particle_weights_stay_scaled {env : PfEnvironment Q} (hplatform : env.platform.Standard)
    {s : PfState Q} (hs : PfReachable env s) :
    (∀ i < s.count, 0 ≤ (QFormat.widen (s.weight i)).toInt ∧
      (QFormat.widen (s.weight i)).toInt ≤ (QFormat.widen (ParticleFormat.signalMax : Q)).toInt) ∧
    (∃ i < s.count, s.weight i = ParticleFormat.signalMax) ∧
    (∃ total, weightTotal s.weight s.count = .ok total ∧
      total.toNat = cumulativeWeight s.weight s.count ∧ 0 < total.toNat) ∧
    (∀ (call : PfResampleCall) (given : ℕ → ℕ) (d : BinaryDraw),
      pfCheckState env.wide call.views s = .ok () → call.indices = some given →
      s.count ≤ call.capacity → call.indicesView = .ok () → call.uniform = .draw d →
      ∃ indices t, pfResample env call s = (.ok indices, t)) ∧
    (∀ call : PfEstimateCall Q, pfEstimateChecks env call s = .ok () →
      (call.residual = none → pfEstimate env call s ≠ .error .errorDomain) ∧
      ∀ residual, call.residual = some residual →
        ∃ total, 0 < total.toNat ∧ pfEstimate env call s = residual total) ∧
    ∀ (call : PfCall Q) (e : Status) (t : PfState Q), call.perform env s = (.error e, t) →
      t.particles = s.particles ∧ t.weights = s.weights := by
  have hinv := hs.invariant hplatform
  obtain ⟨total, htotal, hsum, hpos⟩ := hinv.total
  refine ⟨fun i hi => ⟨hinv.scaled.nonneg i hi, toInt_le_signalMax _⟩, hinv.scaled.full,
    ⟨total, htotal, hsum, hpos⟩, ?_, ?_, ?_⟩
  · intro call given d hcheck hindices hcapacity hview huniform
    exact hinv.resample_ok hcheck hindices hcapacity hview huniform
  · intro call hchecks
    constructor
    · intro hresidual herror
      simp only [pfEstimate, hchecks, htotal, ok_bind, hresidual] at herror
      have hrange := (estimateInteger_error _ _ _ _ _ _).of_eq_error herror
      cases hrange
    · intro residual hresidual
      refine ⟨total, hpos, ?_⟩
      simp only [pfEstimate, hchecks, htotal, ok_bind, hresidual]
  · intro call e t ht
    have hsame := call.perform_atomic env s e t ht
    rw [hsame]
    exact ⟨rfl, rfl⟩

/-! ### Two particles -/

/-- The floating side of a filter that draws zero: its factor is one half. -/
def stillEnvironment : PfEnvironment Int16 where
  wide := true
  platform :=
    { add := fun x _ => x
      sub := fun _ _ => 0
      scaledExp := fun _ => 2147483648
      widen := fun x => if x = 8192 then 0x3e800000 else 0
      store := fun _ => 0 }
  kernels :=
    { cholesky := fun _ _ => .ok fun _ => 0x3f000000
      perturb := fun _ _ _ _ => 0
      halfNorm := fun _ _ _ => .ok 0 }

theorem stillEnvironment_standard : stillEnvironment.platform.Standard where
  sub_nonneg _ _ _ _ _ := by
    have hzero : workNan (0 : WorkBits Int16) = false ∧ workBelowZero (0 : WorkBits Int16) = false :=
      by decide
    exact hzero
  scaledExp_le _ _ _ := UInt64.le_refl _

/-- A one-by-one matrix or a column of one code. -/
def constantMatrix (rows : ℕ) (code : Int16) : SignalMatrix Int16 :=
  ⟨rows, 1, fun _ => code⟩

def stillObject : PfState Int16 where
  particles := constantMatrix 2 7
  weights := constantMatrix 2 0
  processNoise := constantMatrix 1 0
  measurementNoise := constantMatrix 1 0

def stillInit : PfInitCall Int16 where
  views := ⟨.ok (), .ok (), .ok (), .ok (), .ok ()⟩
  mean := constantMatrix 1 0
  covariance := constantMatrix 1 8192
  processNoise := constantMatrix 1 8192
  measurementNoise := constantMatrix 1 8192
  sharesProcess := false
  sharesMeasurement := false
  meanView := ⟨.ok (), .ok ()⟩
  covarianceView := ⟨.ok (), .ok ()⟩
  processView := ⟨.ok (), .ok ()⟩
  measurementView := ⟨.ok (), .ok ()⟩
  workspace := .ok ()
  sample := some fun _ => .ok fun _ => 0
  signal := fun _ => 0

/-- The object after its init. -/
def stillState : PfState Int16 :=
  (pfInit stillEnvironment stillInit stillObject).2

theorem stillState_reachable : PfReachable stillEnvironment stillState := by
  have hok : (pfInit stillEnvironment stillInit stillObject).1 = .ok () := rfl
  exact .init stillInit (Prod.ext hok rfl)

theorem particle_weights_stay_scaled_two :
    ∃ i < stillState.count, stillState.weight i = ParticleFormat.signalMax :=
  (particle_weights_stay_scaled stillEnvironment_standard stillState_reachable).2.1

end Calls

end Xhive.Particles
