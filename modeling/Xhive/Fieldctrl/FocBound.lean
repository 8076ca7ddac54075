import Xhive.Fieldctrl.Foc
import Xhive.Fieldctrl.Lengths
import Mathlib.Analysis.SpecialFunctions.Pow.NNReal
import Mathlib.Tactic.Positivity

/-!
# The integral of the current controller cannot wind up

A step that saturates and keeps its increment moves the integral toward the
origin; one that does not saturate leaves it within the voltage limit plus the
proportional term.  Every run therefore keeps the integral in one disc.
-/

namespace Xhive.Fieldctrl

open Xhive.Support Xhive.Linears Xhive.Filters

/-! ## Lengths -/

/-- The squared length of a vector, in raw units. -/
def Dq.normSq (v : Dq Int64) : ℤ :=
  v.d.toInt ^ 2 + v.q.toInt ^ 2

/-- The length of a vector, in raw units. -/
noncomputable def Dq.norm (v : Dq Int64) : ℝ :=
  Real.sqrt ((v.d.toInt : ℝ) ^ 2 + (v.q.toInt : ℝ) ^ 2)

/-- The triangle inequality in the plane. -/
theorem sqrt_sq_add_sq_add_le (a b c d : ℝ) :
    Real.sqrt ((a + c) ^ 2 + (b + d) ^ 2) ≤
      Real.sqrt (a ^ 2 + b ^ 2) + Real.sqrt (c ^ 2 + d ^ 2) := by
  have hcauchy : a * c + b * d ≤ Real.sqrt (a ^ 2 + b ^ 2) * Real.sqrt (c ^ 2 + d ^ 2) := by
    rw [← Real.sqrt_mul (by positivity)]
    apply Real.le_sqrt_of_sq_le
    nlinarith [sq_nonneg (a * d - b * c)]
  have hfirst := Real.sq_sqrt (show 0 ≤ a ^ 2 + b ^ 2 by positivity)
  have hsecond := Real.sq_sqrt (show 0 ≤ c ^ 2 + d ^ 2 by positivity)
  apply Real.sqrt_le_iff.mpr
  refine ⟨by positivity, ?_⟩
  nlinarith

/-- The computed length underestimates the exact one by at most two units, on
requests within full scale. -/
theorem fcqHypot_spec {a b m : Int64} (h : fcqHypot a b = .ok m) (hm : m.toInt ≤ 2 ^ 31) :
    Real.sqrt ((a.toInt : ℝ) ^ 2 + (b.toInt : ℝ) ^ 2) ≤ m.toInt + 2 := by
  obtain ⟨ha, hb, hclose⟩ := fcqHypot_ok h
  have hlength := (abs_le.mp (hclose (ha.trans hm) (hb.trans hm))).1
  rw [norm_planar] at hlength
  linarith

/-! ## One step -/

/-- The sign test reads a positive accumulator. -/
theorem positive_iff (value : Accum) :
    (value.high >>> 63 = 0 ∧ (value.high ≠ 0 ∨ value.low ≠ 0)) ↔ 0 < value.toInt := by
  have hsign := lnNegative_iff value
  rw [lnNegative, decide_eq_true_iff, ne_eq] at hsign
  have hzero : (value.high ≠ 0 ∨ value.low ≠ 0) ↔ value.toInt ≠ 0 := by
    rw [← not_and_or, not_iff_not]
    constructor
    · intro hboth
      obtain ⟨low, high⟩ := value
      obtain ⟨rfl, rfl⟩ := hboth
      exact Accum.toInt_zero
    · intro hvalue
      rw [Accum.toInt, Accum.toNat] at hvalue
      have hlow := value.low.toNat_lt
      have hhigh := value.high.toNat_lt
      rw [← UInt64.toNat_inj, ← UInt64.toNat_inj, UInt64.toNat_zero]
      split at hvalue <;> omega
  rw [hzero]
  constructor
  · rintro ⟨hnonneg, hne⟩
    have : ¬value.toInt < 0 := fun hneg => hsign.mpr hneg hnonneg
    omega
  · intro hpos
    refine ⟨?_, hpos.ne'⟩
    by_contra hneg
    have := hsign.mp hneg
    omega

/-- An outward projection is positive, exactly. -/
theorem focOutward_ok {delta raw : Dq Int64} {outward : Bool}
    (h : focOutward delta raw = .ok outward) :
    outward = true ↔ 0 < delta.d.toInt * raw.d.toInt + delta.q.toInt * raw.q.toInt := by
  obtain ⟨first, hfirst, h⟩ := ok_of_bind h
  obtain ⟨second, hsecond, h⟩ := ok_of_bind h
  have hone := ((ensures_mac _ _ _).of_eq_ok hfirst).2
  have htwo := ((ensures_mac _ _ _).of_eq_ok hsecond).2
  rw [hone, Accum.toInt_zero, zero_add] at htwo
  cases h
  rw [decide_eq_true_iff, positive_iff, htwo]

theorem addDq_ok {v w sum : Dq Int64} (h : addDq v w = .ok sum) :
    sum.d.toInt = v.d.toInt + w.d.toInt ∧ sum.q.toInt = v.q.toInt + w.q.toInt := by
  obtain ⟨d, hd, h⟩ := ok_of_bind h
  obtain ⟨q, hq, h⟩ := ok_of_bind h
  cases h
  exact ⟨fcqAdd_ok hd, fcqAdd_ok hq⟩

/-- Without saturation the request is within the radius, up to two units. -/
theorem focRadialLimit_ok {v limited : Dq Int64} {radius : Int64}
    (h : focRadialLimit v radius = .ok (limited, false)) (hradius : radius.toInt < 2 ^ 31) :
    v.norm ≤ radius.toInt + 2 := by
  obtain ⟨magnitude, hmagnitude, h⟩ := ok_of_bind h
  split at h
  · obtain ⟨scaled, -, h⟩ := ok_of_bind h
    cases h
  · rename_i hwithin
    rw [gt_iff_lt, fcqCmp_gt, not_lt] at hwithin
    have hle : (magnitude.toInt : ℝ) ≤ radius.toInt := by exact_mod_cast hwithin
    have hspec := fcqHypot_spec hmagnitude (hwithin.trans hradius.le)
    exact hspec.trans (by linarith)

variable {Q : Type} [FilterFormat Q]

/-- The terms of a step: each proportional term agrees in sign with the
increment of its axis, and is at most twice its gain. -/
theorem focTerms_ok {config : FocConfig Q} {period : Int64} {reference current : Dq Q}
    {terms : FocTerms} (h : focTerms config period reference current = .ok terms)
    (hperiod : 0 < period.toInt) (hkpD : 0 ≤ config.kpD.toInt) (hkiD : 0 ≤ config.kiD.toInt)
    (hkpQ : 0 ≤ config.kpQ.toInt) (hkiQ : 0 ≤ config.kiQ.toInt) :
    0 ≤ terms.p.d.toInt * terms.delta.d.toInt ∧ 0 ≤ terms.p.q.toInt * terms.delta.q.toInt ∧
      |terms.p.d.toInt| ≤ 2 * config.kpD.toInt ∧ |terms.p.q.toInt| ≤ 2 * config.kpQ.toInt := by
  obtain ⟨errorD, herrorD, h⟩ := ok_of_bind h
  obtain ⟨errorQ, herrorQ, h⟩ := ok_of_bind h
  obtain ⟨pD, hpD, h⟩ := ok_of_bind h
  obtain ⟨pQ, hpQ, h⟩ := ok_of_bind h
  obtain ⟨deltaD, hdeltaD, h⟩ := ok_of_bind h
  obtain ⟨deltaQ, hdeltaQ, h⟩ := ok_of_bind h
  cases h
  have herror : ∀ {x y : Q} {e : Int64},
      fcqSub (FilterFormat.load x) (FilterFormat.load y) = .ok e → |e.toInt| ≤ 2 ^ 32 := by
    intro x y e he
    have hx := load_bounds x
    have hy := load_bounds y
    rw [fcqSub_ok he, abs_le]
    omega
  have hagree : ∀ {kp ki e p delta : Int64}, fcqMul kp e = .ok p →
      focIncrement ki period e = .ok delta → 0 ≤ kp.toInt → 0 ≤ ki.toInt →
      0 ≤ p.toInt * delta.toInt := by
    intro kp ki e p delta hp hdelta hkp hki
    obtain ⟨gain, hgain, hdelta⟩ := ok_of_bind hdelta
    have hgain₀ := (fcqMul_sign hgain hki).1 hperiod.le
    rcases le_total 0 e.toInt with he | he
    · exact mul_nonneg ((fcqMul_sign hp hkp).1 he) ((fcqMul_sign hdelta hgain₀).1 he)
    · exact mul_nonneg_of_nonpos_of_nonpos ((fcqMul_sign hp hkp).2 he)
        ((fcqMul_sign hdelta hgain₀).2 he)
  exact ⟨hagree hpD hdeltaD hkpD hkiD, hagree hpQ hdeltaQ hkpQ hkiQ,
    fcqMul_le hpD hkpD (herror herrorD), fcqMul_le hpQ hkpQ (herror herrorQ)⟩

/-- The decision of a step: the old integral is held, or the increment is added;
an added increment under saturation does not point out of the request, and
without saturation the request is within the radius. -/
theorem focDecide_ok {terms : FocTerms} {old candidate raw : Dq Int64} {radius : Int64}
    {decision : FocDecision} (h : focDecide terms old candidate raw radius = .ok decision)
    (hradius : radius.toInt < 2 ^ 31) :
    (decision.integral = old ∧
      0 < terms.delta.d.toInt * raw.d.toInt + terms.delta.q.toInt * raw.q.toInt) ∨
    (decision.integral = candidate ∧ decision.saturated = true ∧
      terms.delta.d.toInt * raw.d.toInt + terms.delta.q.toInt * raw.q.toInt ≤ 0) ∨
    (decision.integral = candidate ∧ decision.saturated = false ∧
      raw.norm ≤ radius.toInt + 2) := by
  obtain ⟨⟨limited, saturated⟩, hlimit, h⟩ := ok_of_bind h
  cases saturated with
  | false =>
      cases h
      exact Or.inr (Or.inr ⟨rfl, rfl, focRadialLimit_ok hlimit hradius⟩)
  | true =>
      obtain ⟨outward, houtward, h⟩ := ok_of_bind h
      have hsign := focOutward_ok houtward
      cases outward with
      | true =>
          obtain ⟨again, -, h⟩ := ok_of_bind h
          obtain ⟨⟨relimited, resaturated⟩, -, h⟩ := ok_of_bind h
          cases h
          exact Or.inl ⟨rfl, hsign.mp rfl⟩
      | false =>
          cases h
          refine Or.inr (Or.inl ⟨rfl, rfl, ?_⟩)
          rw [← not_lt, ← hsign]
          exact Bool.false_ne_true

/-! ## The invariant -/

/-- A vector that an increment moved without pointing outward of `p + next`. -/
theorem normSq_le_of_inward {p old delta next : Dq Int64}
    (hd : next.d.toInt = old.d.toInt + delta.d.toInt)
    (hq : next.q.toInt = old.q.toInt + delta.q.toInt)
    (hpd : 0 ≤ p.d.toInt * delta.d.toInt) (hpq : 0 ≤ p.q.toInt * delta.q.toInt)
    (hinward : delta.d.toInt * (p.d.toInt + next.d.toInt) +
      delta.q.toInt * (p.q.toInt + next.q.toInt) ≤ 0) :
    next.normSq ≤ old.normSq - delta.normSq := by
  rw [Dq.normSq, Dq.normSq, Dq.normSq]
  have hold : old.d.toInt = next.d.toInt - delta.d.toInt := by omega
  have holq : old.q.toInt = next.q.toInt - delta.q.toInt := by omega
  rw [hold, holq]
  nlinarith

/-- The radius of the disc, in raw F31 units: the voltage limit plus twice the
length of the proportional gains, plus four. -/
noncomputable def windupBound (config : FocConfig Q) : ℝ :=
  ((FilterFormat.load config.voltageLimit).toInt : ℝ) +
    (2 : ℤ) * Real.sqrt ((config.kpD.toInt ^ 2 + config.kpQ.toInt ^ 2 : ℤ) : ℝ) + (4 : ℤ)

theorem windupBound_eq (config : FocConfig Q) :
    windupBound config = (FilterFormat.load config.voltageLimit).toInt +
      2 * Real.sqrt ((config.kpD.toInt : ℝ) ^ 2 + (config.kpQ.toInt : ℝ) ^ 2) + 4 := by
  rw [windupBound]
  push_cast
  rfl

/-- An accepted tuning, and an integral within its bound. -/
structure FocBounded (ctx : Foc Q) : Prop where
  kpD : 0 ≤ ctx.config.kpD.toInt
  kiD : 0 ≤ ctx.config.kiD.toInt
  kpQ : 0 ≤ ctx.config.kpQ.toInt
  kiQ : 0 ≤ ctx.config.kiQ.toInt
  limit : 0 < (FilterFormat.load ctx.config.voltageLimit).toInt
  integral : ctx.integral.norm ≤ windupBound ctx.config

theorem norm_le_of_normSq_le {v w : Dq Int64} (h : v.normSq ≤ w.normSq) : v.norm ≤ w.norm := by
  apply Real.sqrt_le_sqrt
  rw [Dq.normSq, Dq.normSq] at h
  exact_mod_cast h

theorem focInit_bounded {self : Extent} {config : Option (FocConfig Q)} {next : Foc Q}
    (h : focInit self config = .ok next) : FocBounded next := by
  rcases config with _ | config
  · cases h
  · rw [focInit] at h
    split at h
    · cases h
    · split at h
      · cases h
      · rename_i hvalid
        simp only [not_or, fcqCmp_lt, fcqCmp_le, not_lt, not_le, Int64.toInt_zero] at hvalid
        obtain ⟨hkpD, hkiD, hkpQ, hkiQ, hlimit⟩ := hvalid
        cases h
        refine ⟨hkpD, hkiD, hkpQ, hkiQ, hlimit, ?_⟩
        have hlimit' : (0 : ℝ) < (FilterFormat.load config.voltageLimit).toInt := by
          exact_mod_cast hlimit
        simp only [Dq.norm, windupBound_eq, Int64.toInt_zero, Int.cast_zero, ne_eq, OfNat.ofNat_ne_zero,
          not_false_eq_true, zero_pow, add_zero, Real.sqrt_zero]
        positivity

/-- The radius of a step is at most the configured limit. -/
theorem focRadius_le {config : FocConfig Q} {bus radius : Int64}
    (h : focRadius config bus = .ok radius) :
    radius.toInt ≤ (FilterFormat.load config.voltageLimit).toInt := by
  obtain ⟨three, -, h⟩ := ok_of_bind h
  obtain ⟨root, -, h⟩ := ok_of_bind h
  obtain ⟨busRadius, -, h⟩ := ok_of_bind h
  simp only [Except.ok.injEq, fcqCmp_lt] at h
  split at h <;> subst h <;> omega

omit [FilterFormat Q] in
/-- The proportional term is at most twice the length of the gains. -/
theorem norm_proportional_le {config : FocConfig Q} {p : Dq Int64}
    (hd : |p.d.toInt| ≤ 2 * config.kpD.toInt) (hq : |p.q.toInt| ≤ 2 * config.kpQ.toInt) :
    p.norm ≤ 2 * Real.sqrt ((config.kpD.toInt : ℝ) ^ 2 + (config.kpQ.toInt : ℝ) ^ 2) := by
  have hd' : |(p.d.toInt : ℝ)| ≤ 2 * config.kpD.toInt := by exact_mod_cast hd
  have hq' : |(p.q.toInt : ℝ)| ≤ 2 * config.kpQ.toInt := by exact_mod_cast hq
  have hdsq := sq_le_sq' (by linarith [abs_nonneg (p.d.toInt : ℝ)]) hd'
  have hqsq := sq_le_sq' (by linarith [abs_nonneg (p.q.toInt : ℝ)]) hq'
  rw [sq_abs] at hdsq hqsq
  calc
    p.norm ≤ Real.sqrt (2 ^ 2 * ((config.kpD.toInt : ℝ) ^ 2 + (config.kpQ.toInt : ℝ) ^ 2)) :=
      Real.sqrt_le_sqrt (by linarith)
    _ = 2 * Real.sqrt ((config.kpD.toInt : ℝ) ^ 2 + (config.kpQ.toInt : ℝ) ^ 2) := by
      rw [Real.sqrt_mul (by positivity), Real.sqrt_sq (by norm_num)]

/-- The parts of a successful step. -/
theorem focStep_ok {self output : Extent} {input : FocInput Q} {ctx next : Foc Q}
    {result : FocOutput Q} (h : focStep self output input ctx = .ok (result, next)) :
    ∃ terms candidate raw radius decision,
      focTerms ctx.config (FilterFormat.load input.dt) input.reference result.current = .ok terms ∧
      0 < (FilterFormat.load input.dt).toInt ∧
      addDq ctx.integral terms.delta = .ok candidate ∧ addDq terms.p candidate = .ok raw ∧
      radius.toInt ≤ (FilterFormat.load ctx.config.voltageLimit).toInt ∧
      focDecide terms ctx.integral candidate raw radius = .ok decision ∧
      result.saturated = decision.saturated ∧ next = ⟨ctx.config, decision.integral⟩ := by
  obtain ⟨-, -, h⟩ := ok_of_bind h
  obtain ⟨_, hchecks, h⟩ := ok_of_bind h
  obtain ⟨current, -, h⟩ := ok_of_bind h
  obtain ⟨terms, hterms, h⟩ := ok_of_bind h
  obtain ⟨candidate, hcandidate, h⟩ := ok_of_bind h
  obtain ⟨raw, hraw, h⟩ := ok_of_bind h
  obtain ⟨radius, hradius, h⟩ := ok_of_bind h
  obtain ⟨decision, hdecision, h⟩ := ok_of_bind h
  obtain ⟨d, -, h⟩ := ok_of_bind h
  obtain ⟨q, -, h⟩ := ok_of_bind h
  obtain ⟨stationary, -, h⟩ := ok_of_bind h
  obtain ⟨duty, -, h⟩ := ok_of_bind h
  cases h
  refine ⟨terms, candidate, raw, radius, decision, hterms, ?_, hcandidate, hraw,
    focRadius_le hradius, hdecision, rfl, rfl⟩
  simp only [focChecks] at hchecks
  split at hchecks
  · cases hchecks
  · rename_i hvalid
    simp only [not_or, fcqCmp_le, not_le, Int64.toInt_zero] at hvalid
    exact hvalid.1

/-- A saturated step that keeps its increment shortens the integral. -/
theorem FocBounded.shortened {ctx next : Foc Q} (h : FocBounded ctx) {self output : Extent}
    {input : FocInput Q} {result : FocOutput Q}
    (hstep : focStep self output input ctx = .ok (result, next)) {terms : FocTerms}
    (hterms : focTerms ctx.config (FilterFormat.load input.dt) input.reference result.current =
      .ok terms)
    (hsaturated : result.saturated = true)
    (hd : next.integral.d.toInt = ctx.integral.d.toInt + terms.delta.d.toInt)
    (hq : next.integral.q.toInt = ctx.integral.q.toInt + terms.delta.q.toInt) :
    next.integral.normSq ≤ ctx.integral.normSq - terms.delta.normSq := by
  obtain ⟨terms', candidate, raw, radius, decision, hterms', hperiod, hcandidate, hraw, hradius,
    hdecision, hflag, rfl⟩ := focStep_ok hstep
  cases hterms.symm.trans hterms'
  obtain ⟨hpd, hpq, -, -⟩ := focTerms_ok hterms hperiod h.kpD h.kiD h.kpQ h.kiQ
  have hfull := (load_bounds ctx.config.voltageLimit).2
  obtain ⟨hrawD, hrawQ⟩ := addDq_ok hraw
  rcases focDecide_ok hdecision (by omega) with
    ⟨hheld, houtward⟩ | ⟨hadded, -, hinward⟩ | ⟨-, hfree, -⟩
  · -- A held integral equals its candidate only if there was no increment.
    simp only [hheld] at hd hq
    rw [show terms.delta.d.toInt = 0 by omega, show terms.delta.q.toInt = 0 by omega] at houtward
    omega
  · simp only [hadded] at hd hq ⊢
    apply normSq_le_of_inward hd hq hpd hpq
    rwa [← hrawD, ← hrawQ]
  · rw [hflag, hfree] at hsaturated
    cases hsaturated

/-- The step lemma. -/
theorem FocBounded.step {ctx next : Foc Q} (h : FocBounded ctx) {self output : Extent}
    {input : FocInput Q} {result : FocOutput Q}
    (hstep : focStep self output input ctx = .ok (result, next)) : FocBounded next := by
  obtain ⟨terms, candidate, raw, radius, decision, hterms, hperiod, hcandidate, hraw, hradius,
    hdecision, -, rfl⟩ := focStep_ok hstep
  refine ⟨h.kpD, h.kiD, h.kpQ, h.kiQ, h.limit, ?_⟩
  obtain ⟨hpd, hpq, hboundD, hboundQ⟩ := focTerms_ok hterms hperiod h.kpD h.kiD h.kpQ h.kiQ
  have hfull := (load_bounds ctx.config.voltageLimit).2
  obtain ⟨hrawD, hrawQ⟩ := addDq_ok hraw
  obtain ⟨hnextD, hnextQ⟩ := addDq_ok hcandidate
  rcases focDecide_ok hdecision (by omega) with
    ⟨hheld, -⟩ | ⟨hadded, -, hinward⟩ | ⟨hadded, -, hwithin⟩
  · simp only [hheld]
    exact h.integral
  · simp only [hadded]
    rw [hrawD, hrawQ] at hinward
    have hshorter := normSq_le_of_inward hnextD hnextQ hpd hpq hinward
    have hdelta : 0 ≤ terms.delta.normSq := by
      rw [Dq.normSq]
      positivity
    exact (norm_le_of_normSq_le (by omega)).trans h.integral
  · simp only [hadded]
    -- The candidate is the request less the proportional term.
    have hsplit := sqrt_sq_add_sq_add_le (raw.d.toInt : ℝ) raw.q.toInt (-(terms.p.d.toInt : ℝ))
      (-(terms.p.q.toInt : ℝ))
    have hp := norm_proportional_le hboundD hboundQ
    have hlimit : (radius.toInt : ℝ) ≤ (FilterFormat.load ctx.config.voltageLimit).toInt := by
      exact_mod_cast hradius
    have hcand : candidate.norm ≤ raw.norm + terms.p.norm := by
      rw [neg_sq, neg_sq, hrawD, hrawQ] at hsplit
      push_cast at hsplit
      rw [Dq.norm, Dq.norm, Dq.norm, hrawD, hrawQ]
      push_cast
      convert hsplit using 2
      ring
    rw [windupBound_eq]
    linarith

theorem focBounded_preserved (self : Extent) : (focMachine Q self).Preserves FocBounded := by
  intro call ctx h
  cases call with
  | init config =>
      simp only [focMachine]
      cases hinit : focInit self config with
      | ok next => exact focInit_bounded hinit
      | error status => exact h
  | step output input =>
      simp only [focMachine]
      rcases hstep : focStep self output input ctx with status | ⟨result, next⟩
      · exact h
      · exact h.step hstep

/-- From a successful init on, after every run of calls: the integral is within
the voltage limit plus twice the length of the proportional gains and four units;
and a saturated step that keeps its increment shortens it by the increment. -/
theorem foc_integral_bounded {self : Extent} {config : Option (FocConfig Q)} {start : Foc Q}
    (hinit : focInit self config = .ok start) (calls : List (FocCall Q)) {ctx : Foc Q}
    (hctx : ((focMachine Q self).run calls start).2 = ctx) :
    ctx.integral.norm ≤ (FilterFormat.load ctx.config.voltageLimit).toInt +
        2 * Real.sqrt ((ctx.config.kpD.toInt : ℝ) ^ 2 + (ctx.config.kpQ.toInt : ℝ) ^ 2) + 4 ∧
    ∀ output input result next terms, focStep self output input ctx = .ok (result, next) →
      focTerms ctx.config (FilterFormat.load input.dt) input.reference result.current = .ok terms →
      result.saturated = true →
      next.integral.d.toInt = ctx.integral.d.toInt + terms.delta.d.toInt →
      next.integral.q.toInt = ctx.integral.q.toInt + terms.delta.q.toInt →
      next.integral.normSq ≤ ctx.integral.normSq - terms.delta.normSq := by
  have hbounded := (focBounded_preserved self).run calls (focInit_bounded hinit)
  rw [hctx] at hbounded
  refine ⟨hbounded.integral.trans_eq (windupBound_eq _), ?_⟩
  intro output input result next terms hstep hterms hsaturated hd hq
  exact hbounded.shortened hstep hterms hsaturated hd hq

/-! ### A reversal under a collapsing bus -/

def pureIntegral : FocConfig Int16 :=
  ⟨0, fixedOne, 0, 0, 16384⟩

def directSample (reference dcBus : Int16) : FocCall Int16 :=
  .step ⟨4096, 64⟩ ⟨⟨0, 0⟩, ⟨reference, 0⟩, 0, dcBus, 4096⟩

/-- Two steps into the integral, then a reversed error on a bus too low for it:
the third step saturates and keeps its inward increment. -/
def reversal : List (FocCall Int16) :=
  [directSample 16384 32767, directSample 16384 32767, directSample (-1024) 512]

def reversed : Foc Int16 :=
  ((focMachine Int16 ⟨1024, 64⟩).run reversal ⟨pureIntegral, ⟨0, 0⟩⟩).2

theorem foc_integral_bounded_reversal :
    reversed.integral.norm ≤ (FilterFormat.load reversed.config.voltageLimit).toInt +
      2 * Real.sqrt ((reversed.config.kpD.toInt : ℝ) ^ 2 +
        (reversed.config.kpQ.toInt : ℝ) ^ 2) + 4 :=
  (foc_integral_bounded (show focInit ⟨1024, 64⟩ (some pureIntegral) =
    .ok ⟨pureIntegral, ⟨0, 0⟩⟩ from rfl) reversal (by rw [reversed])).1

end Xhive.Fieldctrl
