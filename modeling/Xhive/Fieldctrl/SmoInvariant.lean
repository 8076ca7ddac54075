import Xhive.Fieldctrl.Cordic
import Xhive.Fieldctrl.Smo

/-!
# One sample of the observer

An accepted tuning has positive divisors, and the saturated injection is at most
the sliding gain, so the EMF filters stay within it.  A sample then never
leaves the domain of its operations, and keeps every range.
-/

namespace Xhive.Fieldctrl

open Xhive.Support Xhive.Linears Xhive.Filters

/-! ## The low-pass recurrence -/

theorem toInt_complement {alpha : Int32} (h : 0 ≤ alpha.toInt) :
    (fixedOne - alpha.toInt64).toInt = 2 ^ 31 - alpha.toInt := by
  have hhigh := alpha.toInt_lt
  rw [toInt_sub_of_fits, toInt_fixedOne, Int32.toInt_toInt64]
  rw [toInt_fixedOne, Int32.toInt_toInt64]
  constructor <;> omega

/-- A committed step answers what its arithmetic does. -/
theorem checked_commit {result : Except Status Int64} {post : Int64 → Prop} (old : Int64)
    (h : Ensures result post (· = .errorRange)) :
    Ensures (checked ((commit result old).1, some (commit result old).2)) post
      (· = .errorRange) := by
  cases result with
  | ok value => exact h
  | error e =>
      rw [ensures_error] at h
      subst h
      rfl

theorem withOut_eq {old : Int64} {body : Int64 → Status × Int64} {next : Status × Int64}
    (h : body old = next) : withOut (some old) body = (next.1, some next.2) := by
  rw [withOut_some, h]

theorem filtersEmaWorkStep_ensures {alpha : Int32} {old input : Int64} {post : Int64 → Prop}
    (halpha : ¬alpha < 0) (h : Ensures (do
      let sum ← checked (linearsFixedMac (some ⟨0, 0⟩) (fixedOne - alpha.toInt64) old)
      let sum ← checked (linearsFixedMac (some sum) alpha.toInt64 input)
      checked (linearsAccumToFixed sum (some 0))) post (· = .errorRange)) :
    Ensures (checked (filtersEmaWorkStep (some old) alpha input)) post (· = .errorRange) := by
  have hbody : filtersEmaWorkStep (some old) alpha input =
      ((commit _ old).1, some (commit _ old).2) := withOut_eq (if_neg halpha)
  rw [hbody]
  exact checked_commit old h

/-- A filter with a nonnegative weight blends its state and its input. -/
theorem smoLowpassStep_spec {ctx : EmaContext Int32} (input : Int64)
    (halpha : 0 ≤ ctx.alpha.toInt) :
    Ensures (smoLowpassStep ctx input) (fun next => next.alpha = ctx.alpha ∧
      next.value.toInt = roundAway ((((2 ^ 31 - ctx.alpha.toInt) * ctx.value.toInt +
        ctx.alpha.toInt * input.toInt : ℤ) : ℚ) / 2 ^ 31)) (· ≠ .errorDomain) := by
  have hsum : Ensures (do
      let sum ← checked (linearsFixedMac (some ⟨0, 0⟩) (fixedOne - ctx.alpha.toInt64) ctx.value)
      let sum ← checked (linearsFixedMac (some sum) ctx.alpha.toInt64 input)
      checked (linearsAccumToFixed sum (some 0)))
      (fun y => y.toInt = roundAway ((((2 ^ 31 - ctx.alpha.toInt) * ctx.value.toInt +
        ctx.alpha.toInt * input.toInt : ℤ) : ℚ) / 2 ^ 31)) (· = .errorRange) := by
    refine Ensures.seq (fixed_mac ⟨0, 0⟩ _ _) fun first hfirst =>
      Ensures.seq (fixed_mac first _ _) fun second hsecond => ?_
    have hempty : (⟨0, 0⟩ : Accum).toInt = 0 := Accum.toInt_zero
    rw [hempty, zero_add, toInt_complement halpha] at hfirst
    rw [hfirst, Int32.toInt_toInt64] at hsecond
    rw [linearsAccumToFixed_eq, checked_checkedCall, hsecond]
    exact ensures_fixedResult _
  have hnonneg : ¬ctx.alpha < 0 := by
    rw [Int32.lt_iff_toInt_lt, Int32.toInt_zero]
    exact not_lt.mpr halpha
  have hstep : Ensures (checked (filtersEmaWorkStep (some ctx.value) ctx.alpha input))
      (fun y => y.toInt = roundAway ((((2 ^ 31 - ctx.alpha.toInt) * ctx.value.toInt +
        ctx.alpha.toInt * input.toInt : ℤ) : ℚ) / 2 ^ 31)) (· ≠ .errorDomain) := by
    refine (filtersEmaWorkStep_ensures hnonneg hsum).mono (fun _ hvalue => hvalue) ?_
    rintro _ rfl
    exact nofun
  exact hstep.seq fun value hvalue => ⟨rfl, hvalue⟩

/-- A blend of two values of `[-g, g]` is one of them. -/
theorem smoLowpassStep_le {ctx : EmaContext Int32} {input : Int64} {g : ℤ}
    (halpha : 0 ≤ ctx.alpha.toInt) (hvalue : |ctx.value.toInt| ≤ g) (hinput : |input.toInt| ≤ g) :
    Ensures (smoLowpassStep ctx input) (fun next => next.alpha = ctx.alpha ∧
      |next.value.toInt| ≤ g) (· ≠ .errorDomain) := by
  refine (smoLowpassStep_spec input halpha).imp fun next hnext => ⟨hnext.1, ?_⟩
  have hhigh := ctx.alpha.toInt_lt
  rw [hnext.2]
  apply abs_roundAway_le
  rw [abs_div, div_le_iff₀ (by norm_num), abs_of_pos (show (0 : ℚ) < 2 ^ 31 by norm_num)]
  have hsum : |(2 ^ 31 - ctx.alpha.toInt) * ctx.value.toInt + ctx.alpha.toInt * input.toInt| ≤
      g * 2 ^ 31 := by
    calc |(2 ^ 31 - ctx.alpha.toInt) * ctx.value.toInt + ctx.alpha.toInt * input.toInt|
        ≤ |(2 ^ 31 - ctx.alpha.toInt) * ctx.value.toInt| + |ctx.alpha.toInt * input.toInt| :=
          abs_add_le _ _
      _ = (2 ^ 31 - ctx.alpha.toInt) * |ctx.value.toInt| + ctx.alpha.toInt * |input.toInt| := by
          rw [abs_mul, abs_mul, abs_of_nonneg halpha, abs_of_nonneg (by omega)]
      _ ≤ (2 ^ 31 - ctx.alpha.toInt) * g + ctx.alpha.toInt * g :=
          add_le_add (mul_le_mul_of_nonneg_left hvalue (by omega))
            (mul_le_mul_of_nonneg_left hinput halpha)
      _ = g * 2 ^ 31 := by ring
  exact_mod_cast hsum

/-- A filter with a nonnegative weight stays in the domain. -/
theorem smoLowpassStep_alpha {ctx : EmaContext Int32} (input : Int64)
    (halpha : 0 ≤ ctx.alpha.toInt) :
    Ensures (smoLowpassStep ctx input) (fun next => next.alpha = ctx.alpha) (· ≠ .errorDomain) :=
  (smoLowpassStep_spec input halpha).imp fun _ hnext => hnext.1

/-! ## The operations of a sample -/

section Operations

/-- The magnitude of a vector; its divisor is the greater component, and its
radicand is at least one. -/
theorem fcqHypot_domain (a b : Int64) :
    Ensures (fcqHypot a b) (fun _ => True) (· ≠ .errorDomain) := by
  rw [fcqHypot]
  refine (fcqAbs_spec a).seq fun aa _ => (fcqAbs_spec b).seq fun bb _ => ?_
  dsimp only
  generalize (if fcqCmp aa bb ≥ 0 then aa else bb) = hi
  generalize (if fcqCmp aa bb ≥ 0 then bb else aa) = lo
  refine Ensures.ite (fun _ => trivial) fun hne => ?_
  refine (fcqDiv_spec lo hne).seq fun ratio _ => (fcqMul_spec ratio ratio).seq fun square hsquare =>
    (fcqAdd_spec fixedOne square).seq fun sum hsum => ?_
  have hnonneg : 0 ≤ square.toInt := by
    rw [hsquare]
    exact roundAway_nonneg (by have := mul_self_nonneg (ratio.toInt : ℚ); positivity)
  have hradicand : 0 ≤ sum.toInt := by
    rw [hsum, toInt_fixedOne]
    omega
  obtain ⟨root, hroot⟩ := fcqSqrt_total hradicand
  rw [hroot, ok_bind]
  exact (fcqMul_spec hi root).imp fun _ _ => trivial

theorem smoSaturate_spec {error boundary negativeBoundary : Int64} (hpos : 0 < boundary.toInt)
    (hnegative : negativeBoundary.toInt = -boundary.toInt) :
    Ensures (smoSaturate error boundary negativeBoundary) (fun sat => |sat.toInt| ≤ 2 ^ 31)
      (· ≠ .errorDomain) := by
  rw [smoSaturate]
  refine Ensures.ite (fun _ => ?_) fun hlow => Ensures.ite (fun _ => ?_) fun hhigh => ?_
  · show |fixedOne.toInt| ≤ 2 ^ 31
    decide
  · show |(-fixedOne).toInt| ≤ 2 ^ 31
    decide
  · have hne : boundary ≠ 0 := by
      rintro rfl
      exact absurd hpos (by decide)
    rw [ge_iff_le, fcqCmp_ge, not_le] at hlow
    rw [fcqCmp_le, not_le, hnegative] at hhigh
    have hposQ : (0 : ℚ) < boundary.toInt := by exact_mod_cast hpos
    have hinside : |(error.toInt : ℚ)| ≤ boundary.toInt := by
      exact_mod_cast (abs_lt.mpr ⟨hhigh, hlow⟩).le
    refine (fcqDiv_spec error hne).imp fun sat hsat => ?_
    rw [hsat]
    apply abs_roundAway_le
    rw [abs_div, abs_mul, abs_of_pos hposQ, abs_of_pos (show (0 : ℚ) < 2 ^ 31 by norm_num),
      div_le_iff₀ hposQ]
    push_cast
    nlinarith

variable {Q : Type} [FilterFormat Q]

/-- A saturated value injects at most the gain. -/
theorem fcqMul_saturated {gain sat : Int64} (hgain : 0 ≤ gain.toInt) (hsat : |sat.toInt| ≤ 2 ^ 31) :
    Ensures (fcqMul gain sat) (fun z => |z.toInt| ≤ gain.toInt) (· ≠ .errorDomain) := by
  have hgainQ : (0 : ℚ) ≤ gain.toInt := by exact_mod_cast hgain
  have hsatQ : |(sat.toInt : ℚ)| ≤ 2 ^ 31 := by exact_mod_cast hsat
  refine (fcqMul_spec gain sat).imp fun z hz => ?_
  rw [hz]
  apply abs_roundAway_le
  rw [abs_div, abs_mul, abs_of_nonneg hgainQ, abs_of_pos (show (0 : ℚ) < 2 ^ 31 by norm_num),
    div_le_iff₀ (by norm_num)]
  exact mul_le_mul_of_nonneg_left hsatQ hgainQ

end Operations

/-! ## Accepted tunings -/

variable {Q : Type} [FilterFormat Q]

/-- What `smo_init` accepts, as far as a sample needs it. -/
structure SmoConfig.Accepted (config : SmoConfig Q) : Prop where
  inductance : 0 < (FilterFormat.load config.inductance).toInt
  dt : 0 < (FilterFormat.load config.dt).toInt
  slidingGain : 0 < (FilterFormat.load config.slidingGain).toInt
  boundary : 0 < (FilterFormat.load config.boundary).toInt
  emfAlpha : 0 < (FilterFormat.load config.emfAlpha).toInt
  minEmf : 0 < (FilterFormat.load config.minEmf).toInt
  lockSamples : 0 < config.lockSamples.toNat

theorem ne_zero_of_toInt_pos {x : Int64} (h : 0 < x.toInt) : x ≠ 0 := by
  rintro rfl
  exact absurd h (by decide)

theorem smoInjections_spec {config : SmoConfig Q} (hconfig : config.Accepted)
    (errors : Ab Int64) :
    Ensures (smoInjections config errors) (fun z =>
      |z.alpha.toInt| ≤ (FilterFormat.load config.slidingGain).toInt ∧
        |z.beta.toInt| ≤ (FilterFormat.load config.slidingGain).toInt) (· ≠ .errorDomain) := by
  have hgain := hconfig.slidingGain.le
  rw [smoInjections]
  refine (fcqNeg_spec _).seq fun negativeBoundary hnegative =>
    (smoSaturate_spec hconfig.boundary hnegative).seq fun satA hsatA =>
      (smoSaturate_spec hconfig.boundary hnegative).seq fun satB hsatB => ?_
  exact (fcqMul_saturated hgain hsatA).seq fun za hza =>
    (fcqMul_saturated hgain hsatB).seq fun zb hzb => ⟨hza, hzb⟩

theorem smoPredict_spec (step resistance hat v z : Int64) :
    Ensures (smoPredict step resistance hat v z) (fun _ => True) (· ≠ .errorDomain) := by
  rw [smoPredict]
  exact (fcqMul_spec _ _).seq fun _ _ => (fcqSub_spec _ _).seq fun _ _ =>
    (fcqSub_spec _ _).seq fun _ _ => (fcqMul_spec _ _).seq fun _ _ =>
      (fcqAdd_spec _ _).imp fun _ _ => trivial

theorem smoCurrent_spec {config : SmoConfig Q} (hconfig : config.Accepted) (hat : Ab Int64)
    (voltage : Ab Q) (z : Ab Int64) :
    Ensures (smoCurrent config hat voltage z) (fun _ => True) (· ≠ .errorDomain) := by
  rw [smoCurrent]
  exact (fcqDiv_spec _ (ne_zero_of_toInt_pos hconfig.inductance)).seq fun step _ =>
    (smoPredict_spec step _ _ _ _).seq fun _ _ => (smoPredict_spec step _ _ _ _).seq fun _ _ =>
      trivial

/-- An angle in a turn. -/
def InTurn (angle : Int64) : Prop :=
  0 ≤ angle.toInt ∧ angle.toInt < 2 ^ 31

theorem smoRawAngle_spec (direction : Int32) {ea eb : Int64} (h : ¬(ea = 0 ∧ eb = 0)) :
    Ensures (smoRawAngle direction ea eb) InTurn (· ≠ .errorDomain) := by
  have hzero : ∀ {x y : Int64}, y.toInt = -x.toInt → y = 0 → x = 0 := by
    rintro x y hy rfl
    have : x.toInt = 0 := by simpa using hy.symm
    exact Int64.toInt_inj.mp this
  rw [smoRawAngle]
  refine Ensures.ite (fun _ => ?_) fun _ => ?_
  · exact (fcqNeg_spec ea).seq fun y hy =>
      fcqAtan2_spec fun hboth => h ⟨hzero hy hboth.2, hboth.1⟩
  · exact (fcqNeg_spec eb).seq fun x hx =>
      fcqAtan2_spec fun hboth => h ⟨hboth.2, hzero hx hboth.1⟩

theorem fcqI_spec (n : ℤ) : Ensures (fcqI n) (fun _ => True) (· ≠ .errorDomain) := by
  refine (fixed_constant n).mono (fun _ h => h) ?_
  rintro _ rfl
  decide

theorem smoDifference_spec (rawAngle previous : Int64) :
    Ensures (smoDifference rawAngle previous) (fun _ => True) (· ≠ .errorDomain) := by
  have hone : fcqI 1 = .ok fixedOne := rfl
  have htwo : fcqI 2 = .ok 4294967296 := rfl
  rw [smoDifference, hone, ok_bind, htwo, ok_bind]
  refine (fcqI_spec (-1)).seq fun negativeOne _ => (fcqSub_spec _ _).seq fun difference _ =>
    (fcqDiv_spec _ (by decide)).seq fun half _ => ?_
  have hlast : ∀ difference : Int64, Ensures (do
      let negativeHalf ← fcqDiv negativeOne 4294967296
      if fcqCmp difference negativeHalf < 0 then fcqAdd difference fixedOne else .ok difference)
      (fun _ => True) (· ≠ .errorDomain) := fun difference =>
    (fcqDiv_spec _ (by decide)).seq fun negativeHalf _ =>
      Ensures.ite (fun _ => (fcqAdd_spec _ _).imp fun _ _ => trivial) fun _ => trivial
  exact Ensures.ite (fun _ => (fcqSub_spec _ _).seq fun difference _ => hlast difference)
    fun _ => hlast difference

theorem smoSpeed_spec {ctx : Smo Q} (hconfig : ctx.config.Accepted)
    (halpha : 0 ≤ ctx.speedFilter.alpha.toInt) (rawAngle : Int64) :
    Ensures (smoSpeed ctx rawAngle) (fun speed => speed.filter.alpha = ctx.speedFilter.alpha)
      (· ≠ .errorDomain) := by
  rw [smoSpeed]
  refine Ensures.ite (fun _ => ?_) fun _ => rfl
  exact (smoDifference_spec _ _).seq fun difference _ =>
    (fcqDiv_spec _ (ne_zero_of_toInt_pos hconfig.dt)).seq fun raw _ =>
      (smoLowpassStep_alpha raw halpha).seq fun filter hfilter => hfilter

/-- The denominator of the phase lag is at least the weight. -/
theorem smoPhase_spec {config : SmoConfig Q} (hconfig : config.Accepted) (speed : Int64) :
    Ensures (smoPhase config speed) (fun _ => True) (· ≠ .errorDomain) := by
  have hone : fcqI 1 = .ok fixedOne := rfl
  have hupper := (load_bounds config.emfAlpha).2
  rw [smoPhase, hone, ok_bind]
  refine (fcqMul_spec _ _).seq fun step _ => ?_
  obtain ⟨sine, cosine, hsincos, -, hcosine⟩ := fcqSincos_ok step
  rw [hsincos, ok_bind]
  refine (fcqSub_spec _ _).seq fun rho hrho => (fcqMul_spec _ _).seq fun numerator _ =>
    (fcqSub_spec _ _).seq fun versine hversine => (fcqMul_spec _ _).seq fun lag hlag =>
      (fcqAdd_spec _ _).seq fun denominator hdenominator => ?_
  have hrho' : 0 ≤ rho.toInt := by
    rw [hrho, toInt_fixedOne]
    omega
  have hversine' : 0 ≤ versine.toInt := by
    have hle := (abs_le.mp hcosine).2
    rw [hversine, toInt_fixedOne]
    omega
  have hlag' : 0 ≤ lag.toInt := by
    have hrhoQ : (0 : ℚ) ≤ rho.toInt := by exact_mod_cast hrho'
    have hversineQ : (0 : ℚ) ≤ versine.toInt := by exact_mod_cast hversine'
    rw [hlag]
    exact roundAway_nonneg (by positivity)
  have hpos : 0 < denominator.toInt := by
    have halpha := hconfig.emfAlpha
    rw [hdenominator]
    omega
  exact (fcqAtan2_spec fun hboth => ne_zero_of_toInt_pos hpos hboth.1).imp fun _ _ => trivial

theorem smoObservable_spec (ctx : Smo Q) (speed : SmoSpeed) (errors : Ab Int64) :
    Ensures (smoObservable ctx speed errors) (fun observable => observable = true →
      ctx.hasAngle = true) (· ≠ .errorDomain) := by
  rw [smoObservable]
  refine (fcqAbs_spec _).seq fun _ _ => (fcqAbs_spec _).seq fun _ _ =>
    Ensures.ite (fun hall => ?_) fun _ hfalse => absurd hfalse Bool.false_ne_true
  have hsliding : Ensures (smoSliding (FilterFormat.load ctx.config.boundary) errors)
      (fun _ => True) (· ≠ .errorDomain) := by
    rw [smoSliding]
    exact (fcqAbs_spec _).seq fun _ _ => Ensures.ite
      (fun _ => (fcqAbs_spec _).seq fun _ _ => trivial) fun _ => trivial
  exact hsliding.imp fun _ _ _ => hall.1

/-! ## Stores -/

/-- A value that is stored lies in `[-1, 1]`. -/
theorem fcStore_spec (x : Int64) :
    Ensures (fcStore x : Except Status Q) (fun _ => |x.toInt| ≤ 2 ^ 31) (· ≠ .errorDomain) := by
  rcases le_or_gt |x.toInt| (2 ^ 31) with hle | hgt
  · obtain ⟨stored, hcall, -⟩ := FilterFormat.exportFixed_ok x (FilterFormat.zero : Q) hle
    rw [fcStore, hcall]
    exact hle
  · have hcall := FilterFormat.exportFixed_error x (FilterFormat.zero : Q) hgt
    rw [fcStore, hcall]
    exact fun h => Status.noConfusion h

theorem fcAngleStore_spec (x : Int64) :
    Ensures (fcAngleStore x : Except Status Q) (fun _ => True) (· ≠ .errorDomain) := by
  have hstore : ∀ y, Ensures (fcStore y : Except Status Q) (fun _ => True) (· ≠ .errorDomain) :=
    fun y => (fcStore_spec y).imp fun _ _ => trivial
  rw [fcAngleStore]
  exact Ensures.ite (fun _ => Ensures.ite (fun _ => trivial) fun _ => hstore _)
    fun _ => (hstore _).seq fun _ _ => Ensures.ite (fun _ => hstore 0) fun _ => trivial

theorem checkPointers_spec (self output : Extent) :
    Ensures (checkPointers self output) (fun _ => True) (· ≠ .errorDomain) := by
  rw [checkPointers]
  refine Ensures.ite (fun _ h => Status.noConfusion h) fun _ => ?_
  exact Ensures.ite (fun _ h => Status.noConfusion h) fun _ => trivial

/-! ## The state -/

/-- The EMF of a state is below the least one that has an angle. -/
def Smo.EmfLost (ctx : Smo Q) : Prop :=
  ∃ magnitude, fcqHypot ctx.emfAlphaFilter.value ctx.emfBetaFilter.value = .ok magnitude ∧
    magnitude.toInt < (FilterFormat.load ctx.config.minEmf).toInt

/-- The ranges of a state. -/
structure Smo.InRange (ctx : Smo Q) : Prop where
  currentAlpha : |ctx.currentHat.alpha.toInt| ≤ 2 ^ 31
  currentBeta : |ctx.currentHat.beta.toInt| ≤ 2 ^ 31
  emfAlpha : |ctx.emfAlphaFilter.value.toInt| ≤ (FilterFormat.load ctx.config.slidingGain).toInt
  emfBeta : |ctx.emfBetaFilter.value.toInt| ≤ (FilterFormat.load ctx.config.slidingGain).toInt
  angle : InTurn ctx.angle
  previousAngle : InTurn ctx.previousAngle
  lockCount : ctx.lockCount.toNat ≤ ctx.config.lockSamples.toNat

/-- The weights of the three filters. -/
structure Smo.Weighted (ctx : Smo Q) : Prop where
  emfAlpha : 0 ≤ ctx.emfAlphaFilter.alpha.toInt
  emfBeta : 0 ≤ ctx.emfBetaFilter.alpha.toInt
  speed : 0 ≤ ctx.speedFilter.alpha.toInt

/-- What every state of a run keeps. -/
structure Smo.Kept (ctx : Smo Q) : Prop where
  config : ctx.config.Accepted
  range : ctx.InRange
  weights : ctx.Weighted

omit [FilterFormat Q] in
theorem toNat_smoLockCount {config : SmoConfig Q} {count : UInt32} (observable : Bool) :
    (smoLockCount config count observable).toNat =
      if observable then
        if count.toNat < config.lockSamples.toNat then count.toNat + 1 else count.toNat
      else 0 := by
  rw [smoLockCount]
  cases observable with
  | false => rfl
  | true =>
      rw [if_pos rfl, if_pos rfl]
      have hhigh := config.lockSamples.toNat_lt
      by_cases hlt : count < config.lockSamples
      · have hlt' := UInt32.lt_iff_toNat_lt.mp hlt
        rw [if_pos hlt, if_pos hlt', UInt32.toNat_add]
        exact Nat.mod_eq_of_lt (show count.toNat + 1 < 2 ^ 32 by omega)
      · rw [if_neg hlt, if_neg (UInt32.lt_iff_toNat_lt.not.mp hlt)]

/-! ## One sample -/

/-- What the phase loop decides, beside its outcome for a lost EMF. -/
structure SmoTrack.Follows (track : SmoTrack) (ctx : Smo Q) : Prop where
  weight : track.speedFilter.alpha = ctx.speedFilter.alpha
  angle : InTurn track.angle
  previousAngle : InTurn track.previousAngle
  observable : track.observable = true → ctx.hasAngle = true

theorem smoLost_spec {ctx : Smo Q} (hrange : ctx.InRange) :
    Ensures (smoLost ctx) (fun track => track.Follows ctx ∧ track.hasAngle = false ∧
      track.observable = false) (· ≠ .errorDomain) := by
  have hzero : smoLowpassReset ctx.speedFilter 0 =
      .ok { ctx.speedFilter with value := FilterFormat.load (0 : Int32) } := rfl
  rw [smoLost, hzero, ok_bind]
  exact ⟨⟨rfl, hrange.angle, hrange.previousAngle, fun h => absurd h Bool.false_ne_true⟩, rfl, rfl⟩

theorem smoFound_spec {ctx : Smo Q} (hkept : ctx.Kept) {ea eb : Int64} (errors : Ab Int64)
    (h : ¬(ea = 0 ∧ eb = 0)) :
    Ensures (smoFound ctx ea eb errors) (fun track => track.Follows ctx) (· ≠ .errorDomain) := by
  rw [smoFound]
  refine (smoRawAngle_spec _ h).seq fun rawAngle hraw =>
    (smoSpeed_spec hkept.config hkept.weights.speed rawAngle).seq fun speed hspeed =>
      (smoPhase_spec hkept.config speed.filtered).seq fun phase _ =>
        (fcqAdd_spec _ _).seq fun sum _ =>
          (smoObservable_spec ctx speed errors).seq fun observable hobservable => ?_
  exact ⟨hspeed, fcqWrap_range sum, hraw, hobservable⟩

/-- A vector of zero magnitude is below every accepted least EMF. -/
theorem smoTrack_spec {ctx : Smo Q} (hkept : ctx.Kept) (ea eb : Int64) (errors : Ab Int64) :
    Ensures (smoTrack ctx ea eb errors) (fun track => track.Follows ctx ∧
      ∀ magnitude, fcqHypot ea eb = .ok magnitude →
        magnitude.toInt < (FilterFormat.load ctx.config.minEmf).toInt →
          track.hasAngle = false ∧ track.observable = false) (· ≠ .errorDomain) := by
  have hdomain := fcqHypot_domain ea eb
  rw [smoTrack]
  cases hmagnitude : fcqHypot ea eb with
  | error e =>
      rw [hmagnitude] at hdomain
      exact hdomain
  | ok magnitude =>
      refine Ensures.ite (fun hlost => ?_) fun hfound => ?_
      · exact (smoLost_spec hkept.range).imp fun track htrack => ⟨htrack.1, fun _ _ _ => htrack.2⟩
      · rw [fcqCmp_lt] at hfound
        have hne : ¬(ea = 0 ∧ eb = 0) := by
          rintro ⟨rfl, rfl⟩
          obtain rfl := Except.ok.inj (hmagnitude.symm.trans (rfl : fcqHypot 0 0 = .ok 0))
          exact hfound hkept.config.minEmf
        refine (smoFound_spec hkept errors hne).imp fun track htrack => ⟨htrack, ?_⟩
        rintro other hother hlost
        obtain rfl := Except.ok.inj hother
        exact absurd hlost hfound

/-- A successful sample: what it reports, and the state it leaves. -/
structure Smo.Advances (ctx : Smo Q) (output : SmoOutput Q) (next : Smo Q) : Prop where
  config : next.config = ctx.config
  kept : next.Kept
  count : next.lockCount = smoLockCount ctx.config ctx.lockCount output.observable
  locked : output.locked = true ↔ next.lockCount = ctx.config.lockSamples
  angle : output.observable = true → ctx.hasAngle = true
  lost : next.EmfLost → next.hasAngle = false ∧ output.observable = false

theorem smoStep_spec {ctx : Smo Q} (hkept : ctx.Kept) (self output : Extent)
    (current voltage : Ab Q) :
    Ensures (smoStep self output current voltage ctx) (fun result =>
      ctx.Advances result.1 result.2) (· ≠ .errorDomain) := by
  have herrors : Ensures (smoErrors ctx current) (fun _ => True) (· ≠ .errorDomain) := by
    rw [smoErrors]
    exact (fcqSub_spec _ _).seq fun _ _ => (fcqSub_spec _ _).seq fun _ _ => trivial
  rw [smoStep]
  refine (checkPointers_spec self output).seq fun _ _ => herrors.seq fun errors _ =>
    (smoInjections_spec hkept.config errors).seq fun z hz =>
      (smoCurrent_spec hkept.config _ voltage z).seq fun hat _ =>
        (smoLowpassStep_le hkept.weights.emfAlpha hkept.range.emfAlpha hz.1).seq fun ea hea =>
          (smoLowpassStep_le hkept.weights.emfBeta hkept.range.emfBeta hz.2).seq fun eb heb =>
            (smoTrack_spec hkept ea.value eb.value errors).seq fun track htrack => ?_
  refine (fcStore_spec hat.alpha).seq fun hatAlpha hhatAlpha =>
    (fcStore_spec hat.beta).seq fun hatBeta hhatBeta => (fcStore_spec ea.value).seq fun _ _ =>
      (fcStore_spec eb.value).seq fun _ _ => (fcAngleStore_spec track.angle).seq fun stored _ => ?_
  obtain ⟨hfollows, hlost⟩ := htrack
  have hcount : (smoLockCount ctx.config ctx.lockCount track.observable).toNat ≤
      ctx.config.lockSamples.toNat := by
    have hold := hkept.range.lockCount
    rw [toNat_smoLockCount]
    split_ifs <;> omega
  exact
    { config := rfl
      kept :=
        { config := hkept.config
          range := ⟨hhatAlpha, hhatBeta, hea.2, heb.2, hfollows.angle, hfollows.previousAngle,
            hcount⟩
          weights := ⟨hea.1 ▸ hkept.weights.emfAlpha, heb.1 ▸ hkept.weights.emfBeta,
            hfollows.weight ▸ hkept.weights.speed⟩ }
      count := rfl
      locked := decide_eq_true_iff
      angle := hfollows.observable
      lost := fun ⟨magnitude, hmagnitude, hbelow⟩ => hlost magnitude hmagnitude hbelow }

/-! ## Initialisation -/

theorem smoLowpassInit_spec {alpha : Int64} {filter : EmaContext Int32}
    (h : smoLowpassInit alpha 0 = .ok filter) : filter.value = 0 ∧ 0 ≤ filter.alpha.toInt := by
  rw [smoLowpassInit] at h
  obtain ⟨a, -, h⟩ := ok_of_bind h
  have hzero : (fcStore 0 : Except Status Int32) = .ok 0 := rfl
  rw [hzero, ok_bind, emaInit] at h
  obtain ⟨-, h⟩ := ok_of_guard h
  obtain ⟨w, hw, h⟩ := ok_of_bind h
  obtain rfl := Except.ok.inj h
  rw [weight] at hw
  split at hw
  · cases hw
  · rename_i hnonneg
    obtain rfl := Except.ok.inj hw
    have hload : (FilterFormat.load a).toInt = a.toInt := by
      refine (FilterFormat.toInt_load a).trans ?_
      show a.toInt64.toInt * 1 = a.toInt
      rw [mul_one, Int32.toInt_toInt64]
    rw [(linearsFixedCompare_iff _ _).2.1, Int64.lt_iff_toInt_lt, not_lt, hload] at hnonneg
    exact ⟨rfl, hnonneg⟩

/-- The least EMF and the divisors of a tuning that passes the checks. -/
theorem smoChecks_accepted {config : SmoConfig Q} {u : Unit} (h : smoChecks config = .ok u)
    (hlock : config.lockSamples ≠ 0) : config.Accepted := by
  rw [smoChecks] at h
  obtain ⟨one, -, h⟩ := ok_of_bind h
  split at h
  · cases h
  · rename_i hpassed
    simp only [not_or, gt_iff_lt, fcqCmp_lt, fcqCmp_le, fcqCmp_gt, Int64.toInt_zero,
      not_le, not_lt] at hpassed
    obtain ⟨-, hinductance, hdt, hgain, hboundary, halpha, -, -, -, hminEmf, -⟩ := hpassed
    exact ⟨hinductance, hdt, hgain, hboundary, halpha, hminEmf,
      Nat.pos_of_ne_zero fun hzero => hlock (UInt32.toNat_inj.mp hzero)⟩

/-- A context starts in range. -/
theorem smoInit_kept {self : Extent} {config : Option (SmoConfig Q)} {initialCurrent : Ab Q}
    {ctx : Smo Q} (h : smoInit self config initialCurrent = .ok ctx) :
    ctx.Kept ∧ ctx.lockCount = 0 ∧ ctx.hasAngle = false := by
  cases config with
  | none => cases h
  | some config =>
      rw [smoInit] at h
      split at h
      · cases h
      · split at h
        · cases h
        · rename_i hlock
          obtain ⟨_, hchecks, h⟩ := ok_of_bind h
          obtain ⟨_, -, h⟩ := ok_of_bind h
          obtain ⟨emfAlphaFilter, halpha, h⟩ := ok_of_bind h
          obtain ⟨emfBetaFilter, hbeta, h⟩ := ok_of_bind h
          obtain ⟨speedFilter, hspeed, h⟩ := ok_of_bind h
          have haccepted := smoChecks_accepted hchecks fun hzero => hlock (Or.inl hzero)
          obtain ⟨hvalueA, hweightA⟩ := smoLowpassInit_spec halpha
          obtain ⟨hvalueB, hweightB⟩ := smoLowpassInit_spec hbeta
          have hweight := (smoLowpassInit_spec hspeed).2
          obtain rfl := Except.ok.inj h
          have hload : ∀ x : Q, |(FilterFormat.load x).toInt| ≤ 2 ^ 31 := fun x =>
            abs_le.mpr ⟨(load_bounds x).1, (load_bounds x).2.le⟩
          have hgain := haccepted.slidingGain.le
          have hturn : InTurn 0 := ⟨by decide, by decide⟩
          refine ⟨⟨haccepted, ⟨hload _, hload _, ?_, ?_, hturn, hturn, Nat.zero_le _⟩,
            ⟨hweightA, hweightB, hweight⟩⟩, rfl, rfl⟩
          · rw [hvalueA]
            exact hgain
          · rw [hvalueB]
            exact hgain

end Xhive.Fieldctrl
