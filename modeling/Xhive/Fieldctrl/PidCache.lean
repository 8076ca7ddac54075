import Xhive.Fieldctrl.Pid

/-!
# The period cache is invisible

The controller that recomputes `ki*dt`, `kd/dt` and `dt/(Tf+dt)` from the
current tuning on every step answers every run of calls as the cached one does.
-/

namespace Xhive.Fieldctrl

open Xhive.Support Xhive.Linears Xhive.Filters

variable {Q : Type} [FilterFormat Q]

/-! ## The controller without a cache -/

def freshWeight (filter period : Int64) : Except Status Int64 := do
  let sum ← fcqAdd filter period
  fcqDiv period sum

/-- The three coefficients of a tuning at a period, each from its formula. -/
def freshCoefficients (config : PidConfig Q) (period : Int64) : Except Status PidCoefficients := do
  let integralStep ← fcqMul config.ki period
  let derivativeGain ← fcqDiv config.kd period
  let filterWeight ← freshWeight config.derivativeFilter period
  .ok ⟨integralStep, derivativeGain, filterWeight⟩

def plainStepWork (state : PidState Q) (setpoint measurement period : Int64) :
    Except Status (PidOutput Q × PidState Q) := do
  if fcqCmp period 0 ≤ 0 then throw .errorDomain
  let (error, p) ← pidProportional state.config setpoint measurement
  let coefficients ← freshCoefficients state.config period
  pidAdvance state coefficients error p measurement

def plainStep (self output : Extent) (setpoint measurement dt : Q) (state : PidState Q) :
    Except Status (PidOutput Q × PidState Q) := do
  checkPointers self output
  plainStepWork state (FilterFormat.load setpoint) (FilterFormat.load measurement)
    (FilterFormat.load dt)

def plainInit (self : Extent) (config : Option (PidConfig Q)) (integral : Q) :
    Except Status (PidState Q) := do
  let config ← checkConfig self config
  initState config integral

def plainRetune (self : Extent) (config : Option (PidConfig Q)) (state : PidState Q) :
    Except Status (PidState Q) := do
  let config ← checkConfig self config
  retuneState config state

def plainReset (self : Extent) (integral : Q) (state : PidState Q) :
    Except Status (PidState Q) :=
  if self.address = 0 then .error .errorArgument else resetState integral state

/-- The controller that keeps no period cache. -/
def plainMachine (Q : Type) [FilterFormat Q] (self : Extent) :
    Machine (PidCall Q) (PidAnswer Q) (PidState Q) where
  react call state :=
    match call with
    | .init config integral => control (plainInit self config integral) state
    | .retune config => control (plainRetune self config state) state
    | .reset integral => control (plainReset self integral state) state
    | .step output setpoint measurement dt =>
        advance (plainStep self output setpoint measurement dt state) state
    | .stepWork setpoint measurement period =>
        advance (plainStepWork state setpoint measurement period) state

/-! ## Coefficients that a step cannot tell apart -/

/-- `first` and `second` differ at most in coefficients the tuning does not use. -/
structure SameUse (config : PidConfig Q) (first second : PidCoefficients) : Prop where
  integralStep : first.integralStep = second.integralStep
  derivativeGain : config.kd ≠ 0 → first.derivativeGain = second.derivativeGain
  filterWeight : 0 < config.derivativeFilter.toInt → first.filterWeight = second.filterWeight

omit [FilterFormat Q] in
theorem SameUse.refl (config : PidConfig Q) (coefficients : PidCoefficients) :
    SameUse config coefficients coefficients :=
  ⟨rfl, fun _ => rfl, fun _ => rfl⟩

omit [FilterFormat Q] in
theorem pidDerivative_congr {state : PidState Q} {first second : PidCoefficients}
    (h : SameUse state.config first second) (error measurement : Int64) :
    pidDerivative state first error measurement = pidDerivative state second error measurement := by
  simp only [pidDerivative]
  by_cases hactive : state.history = true ∧ fcqCmp state.config.kd 0 ≠ 0
  · have hgain := h.derivativeGain (by simpa using hactive.2)
    by_cases hfilter : fcqCmp state.config.derivativeFilter 0 > 0
    · have hweight := h.filterWeight (by simpa using hfilter)
      simp only [hgain, hweight]
    · simp only [hgain, hfilter, if_false]
  · simp only [if_neg hactive]

theorem pidAdvance_congr {state : PidState Q} {first second : PidCoefficients}
    (h : SameUse state.config first second) (error p measurement : Int64) :
    pidAdvance state first error p measurement = pidAdvance state second error p measurement := by
  simp only [pidAdvance, h.integralStep, pidDerivative_congr h]

/-! ## What the cache holds -/

/-- A cached period comes with coefficients that recomputation would confirm. -/
def CacheValid (ctx : Pid Q) : Prop :=
  ctx.cachedDt ≠ 0 → ∃ fresh, freshCoefficients ctx.config ctx.cachedDt = .ok fresh ∧
    SameUse ctx.config ctx.cached fresh

theorem fcqDiv_zero {period : Int64} (h : 0 < period.toInt) : fcqDiv 0 period = .ok 0 := by
  have hne : period ≠ 0 := by
    rintro rfl
    exact absurd h (by decide)
  rw [fcqDiv, fixed_div 0 hne, Int64.toInt_zero, Int.cast_zero, zero_mul, zero_div, roundAway_zero,
    fixedResult_of_fits (by decide)]
  rfl

theorem fcqDiv_self {period : Int64} (h : 0 < period.toInt) :
    fcqDiv period period = .ok fixedOne := by
  have hne : period ≠ 0 := by
    rintro rfl
    exact absurd h (by decide)
  have hvalue : (period.toInt : ℚ) ≠ 0 := by exact_mod_cast h.ne'
  rw [fcqDiv, fixed_div period hne, mul_comm, mul_div_assoc, div_self hvalue, mul_one,
    show (2 ^ 31 : ℚ) = ((2 ^ 31 : ℤ) : ℚ) by norm_num, roundAway_intCast,
    fixedResult_of_fits (by decide)]
  rfl

theorem fcqAdd_zero (period : Int64) : fcqAdd 0 period = .ok period := by
  have hlow := period.le_toInt
  have hhigh := period.toInt_lt
  rw [fcqAdd, fixed_add, Int64.toInt_zero, zero_add, fixedResult_of_fits ⟨by omega, by omega⟩,
    Int64.ofInt_toInt]

/-- A recomputing step gets the gain of the formula, or any while `kd` is zero. -/
theorem recomputeGain_spec (kd old : Int64) {period : Int64} (hperiod : 0 < period.toInt) :
    (∃ used fresh, recomputeGain kd old period = .ok used ∧ fcqDiv kd period = .ok fresh ∧
      (kd ≠ 0 → used = fresh)) ∨
    ∃ status, recomputeGain kd old period = .error status ∧ fcqDiv kd period = .error status := by
  by_cases hkd : kd = 0
  · left
    refine ⟨old, 0, ?_, ?_, fun h => absurd hkd h⟩
    · simp [recomputeGain, hkd]
    · rw [hkd, fcqDiv_zero hperiod]
  · have hgain : recomputeGain kd old period = fcqDiv kd period := by simp [recomputeGain, hkd]
    rw [hgain]
    cases h : fcqDiv kd period with
    | ok gain => exact Or.inl ⟨gain, gain, rfl, rfl, fun _ => rfl⟩
    | error status => exact Or.inr ⟨status, rfl, rfl⟩

/-- And the filter weight of the formula, or any without a filter. -/
theorem recomputeWeight_spec {filter : Int64} (old : Int64) {period : Int64}
    (hfilter : 0 ≤ filter.toInt) (hperiod : 0 < period.toInt) :
    (∃ used fresh, recomputeWeight filter old period = .ok used ∧
      freshWeight filter period = .ok fresh ∧ (0 < filter.toInt → used = fresh)) ∨
    ∃ status, recomputeWeight filter old period = .error status ∧
      freshWeight filter period = .error status := by
  by_cases hpos : 0 < filter.toInt
  · have hweight : recomputeWeight filter old period = freshWeight filter period := by
      simp [recomputeWeight, freshWeight, hpos]
    rw [hweight]
    cases h : freshWeight filter period with
    | ok weight => exact Or.inl ⟨weight, weight, rfl, rfl, fun _ => rfl⟩
    | error status => exact Or.inr ⟨status, rfl, rfl⟩
  · have hzero : filter = 0 := by
      rw [← Int64.toInt_inj, Int64.toInt_zero]
      omega
    left
    refine ⟨old, fixedOne, ?_, ?_, fun h => absurd h hpos⟩
    · simp [recomputeWeight, hzero]
    · rw [freshWeight, hzero, fcqAdd_zero, ok_bind, fcqDiv_self hperiod]

omit [FilterFormat Q] in
/-- A context whose cache is valid gets the coefficients of the formulas, as far
as its tuning uses them, or the same error. -/
theorem periodCoefficients_spec {ctx : Pid Q} (hcache : CacheValid ctx)
    (hfilter : 0 ≤ ctx.config.derivativeFilter.toInt) {period : Int64} (hperiod : 0 < period.toInt) :
    (∃ used fresh, periodCoefficients ctx period = .ok used ∧
      freshCoefficients ctx.config period = .ok fresh ∧ SameUse ctx.config used fresh) ∨
    ∃ status, periodCoefficients ctx period = .error status ∧
      freshCoefficients ctx.config period = .error status := by
  by_cases hhit : period = ctx.cachedDt
  · have hne : ctx.cachedDt ≠ 0 := by
      rw [← hhit]
      rintro rfl
      exact absurd hperiod (by decide)
    obtain ⟨fresh, hfresh, hsame⟩ := hcache hne
    refine Or.inl ⟨ctx.cached, fresh, ?_, by rw [hhit, hfresh], hsame⟩
    simp [periodCoefficients, hhit]
  · simp only [periodCoefficients, freshCoefficients, ne_eq, fcqCmp_eq, hhit, not_false_eq_true,
      if_true]
    cases hstep : fcqMul ctx.config.ki period with
    | error status => exact Or.inr ⟨status, rfl, rfl⟩
    | ok step =>
        rcases recomputeGain_spec ctx.config.kd ctx.cached.derivativeGain hperiod with
          ⟨gain, gain', hgain, hgain', hgains⟩ | ⟨status, hgain, hgain'⟩
        · rcases recomputeWeight_spec ctx.cached.filterWeight hfilter hperiod with
            ⟨weight, weight', hweight, hweight', hweights⟩ | ⟨status, hweight, hweight'⟩
          · refine Or.inl ⟨⟨step, gain, weight⟩, ⟨step, gain', weight'⟩, ?_, ?_,
              ⟨rfl, hgains, hweights⟩⟩
            · simp only [hgain, hweight, ok_bind]
            · simp only [hgain', hweight', ok_bind]
          · refine Or.inr ⟨status, ?_, ?_⟩
            · simp only [hgain, hweight, ok_bind, error_bind]
            · simp only [hgain', hweight', ok_bind, error_bind]
        · refine Or.inr ⟨status, ?_, ?_⟩
          · simp only [hgain, ok_bind, error_bind]
          · simp only [hgain', ok_bind, error_bind]

/-! ## Agreement along every run -/

/-- The contexts of the two controllers after the same calls. -/
structure CacheAgrees (ctx : Pid Q) (state : PidState Q) : Prop where
  same : ctx.toPidState = state
  valid : CacheValid ctx
  filter : 0 ≤ ctx.config.derivativeFilter.toInt

omit [FilterFormat Q] in
theorem freshCoefficients_congr {config config' : PidConfig Q} (hki : config'.ki = config.ki)
    (hkd : config'.kd = config.kd) (hfilter : config'.derivativeFilter = config.derivativeFilter)
    (period : Int64) : freshCoefficients config' period = freshCoefficients config period := by
  rw [freshCoefficients, freshCoefficients, hki, hkd, hfilter]

/-- A retune keeps the cache exactly while it stays valid. -/
theorem CacheAgrees.retune {ctx next : Pid Q} {state : PidState Q} (h : CacheAgrees ctx state)
    {self : Extent} {config : Option (PidConfig Q)} (hnext : pidRetune self config ctx = .ok next) :
    CacheAgrees next next.toPidState := by
  obtain ⟨config, -, hnext⟩ := ok_of_bind hnext
  obtain ⟨retuned, hretuned, hnext⟩ := ok_of_bind hnext
  obtain ⟨hconfig, hfilter, -⟩ := retuneState_ok hretuned
  cases hnext
  refine ⟨rfl, ?_, by rw [hconfig]; exact hfilter⟩
  intro hne
  by_cases hstale : fcqCmp config.ki ctx.config.ki ≠ 0 ∨ fcqCmp config.kd ctx.config.kd ≠ 0 ∨
      fcqCmp config.derivativeFilter ctx.config.derivativeFilter ≠ 0
  · exact absurd (if_pos hstale) hne
  · rw [if_neg hstale] at hne ⊢
    simp only [not_or, ne_eq, fcqCmp_eq, not_not] at hstale
    obtain ⟨hki, hkd, hsame⟩ := hstale
    obtain ⟨fresh, hfresh, huse⟩ := h.valid hne
    refine ⟨fresh, ?_, ?_⟩
    · rw [hconfig, freshCoefficients_congr hki hkd hsame, hfresh]
    · refine ⟨huse.integralStep, ?_, ?_⟩
      · rw [hconfig, hkd]
        exact huse.derivativeGain
      · rw [hconfig, hsame]
        exact huse.filterWeight

/-- One step: the same answer, and a cache that recomputation would confirm. -/
theorem CacheAgrees.stepWork {ctx : Pid Q} {state : PidState Q} (h : CacheAgrees ctx state)
    (setpoint measurement period : Int64) :
    plainStepWork state setpoint measurement period =
        (pidStepWork ctx setpoint measurement period).map (Prod.map id Pid.toPidState) ∧
      ∀ output next, pidStepWork ctx setpoint measurement period = .ok (output, next) →
        CacheAgrees next next.toPidState := by
  obtain ⟨rfl, hcache, hfilter⟩ := h
  rw [pidStepWork, plainStepWork]
  by_cases hperiod : fcqCmp period 0 ≤ 0
  · rw [if_pos hperiod, if_pos hperiod]
    exact ⟨rfl, nofun⟩
  · rw [if_neg hperiod, if_neg hperiod]
    rw [fcqCmp_le, not_le, Int64.toInt_zero] at hperiod
    cases hp : pidProportional ctx.config setpoint measurement with
    | error status => exact ⟨rfl, nofun⟩
    | ok terms =>
        rcases periodCoefficients_spec hcache hfilter hperiod with
          ⟨used, fresh, hused, hfresh, hsame⟩ | ⟨status, hused, hfresh⟩
        · simp only [ok_bind, hused, hfresh, ← pidAdvance_congr hsame]
          rcases hadvance : pidAdvance ctx.toPidState used terms.1 terms.2 measurement with
            status | ⟨output, next⟩
          · exact ⟨rfl, nofun⟩
          · obtain ⟨-, -, -, -, -, -, -, -, -, -, -, hnext⟩ := pidAdvance_ok hadvance
            have hconfig : next.config = ctx.config := by rw [hnext]
            refine ⟨rfl, ?_⟩
            intro _ _ hok
            cases hok
            refine ⟨rfl, fun _ => ⟨fresh, ?_, ?_⟩, ?_⟩ <;> simp only [hconfig]
            · exact hfresh
            · exact hsame
            · exact hfilter
        · simp only [ok_bind, hused, hfresh, error_bind]
          exact ⟨rfl, nofun⟩

/-! ### The calls of the two controllers -/

theorem plainInit_eq (self : Extent) (config : Option (PidConfig Q)) (integral : Q) :
    plainInit self config integral = (pidInit self config integral).map Pid.toPidState := by
  rw [plainInit, pidInit]
  cases checkConfig self config with
  | error status => rfl
  | ok config =>
      simp only [ok_bind]
      cases initState config integral <;> rfl

theorem plainRetune_eq (self : Extent) (config : Option (PidConfig Q)) (ctx : Pid Q) :
    plainRetune self config ctx.toPidState = (pidRetune self config ctx).map Pid.toPidState := by
  rw [plainRetune, pidRetune]
  cases checkConfig self config with
  | error status => rfl
  | ok config =>
      simp only [ok_bind]
      cases retuneState config ctx.toPidState <;> rfl

theorem plainReset_eq (self : Extent) (integral : Q) (ctx : Pid Q) :
    plainReset self integral ctx.toPidState = (pidReset self integral ctx).map Pid.toPidState := by
  rw [plainReset, pidReset]
  by_cases hnull : self.address = 0
  · rw [if_pos hnull, if_pos hnull]
    rfl
  · rw [if_neg hnull, if_neg hnull]
    cases resetState integral ctx.toPidState <;> rfl

/-- Init starts with an empty cache. -/
theorem CacheAgrees.init {self : Extent} {config : Option (PidConfig Q)} {integral : Q}
    {next : Pid Q} (h : pidInit self config integral = .ok next) :
    CacheAgrees next next.toPidState := by
  obtain ⟨config, -, h⟩ := ok_of_bind h
  obtain ⟨state, hstate, h⟩ := ok_of_bind h
  obtain ⟨hcheck, hstart, -⟩ := initState_ok hstate
  cases h
  refine ⟨rfl, fun hne => absurd rfl hne, ?_⟩
  rw [hstart]
  exact (pidCheck_ok hcheck).1

/-- Reset keeps tuning and cache. -/
theorem CacheAgrees.reset {ctx next : Pid Q} {state : PidState Q} (h : CacheAgrees ctx state)
    {self : Extent} {integral : Q} (hnext : pidReset self integral ctx = .ok next) :
    CacheAgrees next next.toPidState := by
  rw [pidReset] at hnext
  split at hnext
  · cases hnext
  · obtain ⟨started, hstarted, hnext⟩ := ok_of_bind hnext
    obtain ⟨hstart, -⟩ := resetState_ok hstarted
    have hconfig : started.config = ctx.config := by rw [hstart, startState]
    cases hnext
    refine ⟨rfl, ?_, ?_⟩
    · intro hne
      rw [hconfig]
      exact h.valid hne
    · rw [hconfig]
      exact h.filter

omit [FilterFormat Q] in
theorem CacheAgrees.control {ctx : Pid Q} {state : PidState Q} (h : CacheAgrees ctx state)
    {result : Except Status (Pid Q)}
    (hok : ∀ next, result = .ok next → CacheAgrees next next.toPidState) :
    (control (Q := Q) result ctx).1 = (control (result.map Pid.toPidState) state).1 ∧
      CacheAgrees (control (Q := Q) result ctx).2
        (control (Q := Q) (result.map Pid.toPidState) state).2 := by
  cases result with
  | ok next => exact ⟨rfl, hok next rfl⟩
  | error status => exact ⟨rfl, h⟩

omit [FilterFormat Q] in
theorem CacheAgrees.advance {ctx : Pid Q} {state : PidState Q} (h : CacheAgrees ctx state)
    {result : Except Status (PidOutput Q × Pid Q)}
    (hok : ∀ output next, result = .ok (output, next) → CacheAgrees next next.toPidState) :
    (advance result ctx).1 = (advance (result.map (Prod.map id Pid.toPidState)) state).1 ∧
      CacheAgrees (advance result ctx).2
        (advance (result.map (Prod.map id Pid.toPidState)) state).2 := by
  rcases result with status | ⟨output, next⟩
  · exact ⟨rfl, h⟩
  · exact ⟨rfl, hok output next rfl⟩

/-- Every call keeps the agreement and answers alike. -/
theorem cache_simulates (self : Extent) :
    (pidMachine Q self).Simulates (plainMachine Q self) CacheAgrees := by
  intro call ctx state h
  have hsame := h.same
  cases call with
  | init config integral =>
      simp only [pidMachine, plainMachine, plainInit_eq]
      exact h.control fun _ => CacheAgrees.init
  | retune config =>
      simp only [pidMachine, plainMachine, ← hsame, plainRetune_eq]
      exact (hsame ▸ h).control fun _ => h.retune
  | reset integral =>
      simp only [pidMachine, plainMachine, ← hsame, plainReset_eq]
      exact (hsame ▸ h).control fun _ => h.reset
  | step output setpoint measurement dt =>
      simp only [pidMachine, plainMachine]
      obtain ⟨hstep, hnext⟩ := h.stepWork (FilterFormat.load setpoint)
        (FilterFormat.load measurement) (FilterFormat.load dt)
      have heq : plainStep self output setpoint measurement dt state =
          (pidStep self output setpoint measurement dt ctx).map (Prod.map id Pid.toPidState) := by
        rw [plainStep, pidStep, hstep]
        cases checkPointers self output <;> rfl
      rw [heq]
      apply h.advance
      intro result next hok
      obtain ⟨-, -, hwork⟩ := ok_of_bind hok
      exact hnext result next hwork
  | stepWork setpoint measurement period =>
      simp only [pidMachine, plainMachine]
      obtain ⟨hstep, hnext⟩ := h.stepWork setpoint measurement period
      rw [hstep]
      exact h.advance hnext

/-- From a successful init on, every run of calls gives the statuses, results and
controller states of the controller that keeps no period cache. -/
theorem pid_cache_invisible {self : Extent} {config : Option (PidConfig Q)} {integral : Q}
    {start : Pid Q} (hinit : pidInit self config integral = .ok start)
    (calls : List (PidCall Q)) :
    plainInit self config integral = .ok start.toPidState ∧
      ((pidMachine Q self).run calls start).1 =
        ((plainMachine Q self).run calls start.toPidState).1 ∧
      ((pidMachine Q self).run calls start).2.toPidState =
        ((plainMachine Q self).run calls start.toPidState).2 := by
  obtain ⟨hanswers, hfinal⟩ := (cache_simulates self).run calls (CacheAgrees.init hinit)
  refine ⟨?_, hanswers, hfinal.same⟩
  rw [plainInit_eq, hinit]
  rfl

/-! ### A retuned controller -/

/-- A proportional-integral-derivative tuning with a filter, in q15. -/
def sampleConfig (ki : Int64) : PidConfig Int16 where
  kp := fixedOne
  ki := ki
  kd := 134217728
  lower := -16384
  upper := 16384
  options := 0
  derivative := fieldctrlPidDerivativeOnError
  derivativeFilter := 268435456
  setpointWeight := 0
  integralLower := 0
  integralUpper := 0
  separation := 0

def sampleStart : Pid Int16 where
  toPidState := startState (sampleConfig fixedOne) 0
  cachedDt := 0
  cached := ⟨0, 0, 0⟩

/-- Two steps with one period, and a third after a retune of `ki`. -/
def sampleCalls : List (PidCall Int16) :=
  [.step ⟨4096, 40⟩ 4096 0 4096, .step ⟨4096, 40⟩ 4096 1024 4096,
    .retune (some (sampleConfig 1073741824)), .step ⟨4096, 40⟩ 4096 2048 4096]

theorem pid_cache_invisible_retune :
    ((pidMachine Int16 ⟨1024, 160⟩).run sampleCalls sampleStart).2.toPidState =
      ((plainMachine Int16 ⟨1024, 160⟩).run sampleCalls sampleStart.toPidState).2 :=
  (pid_cache_invisible (show pidInit ⟨1024, 160⟩ (some (sampleConfig fixedOne)) 0 =
    .ok sampleStart from rfl) sampleCalls).2.2

end Xhive.Fieldctrl
