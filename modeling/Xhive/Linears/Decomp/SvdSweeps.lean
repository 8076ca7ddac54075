import Xhive.Linears.Decomp.Svd
import Xhive.Support.Columns

/-!
# Jacobi sweeps over the real numbers

A rotation makes its two columns orthogonal and is applied to both arrays, so
`b` stays the input times `w` and `w` stays orthogonal; a sweep without a
rotation leaves pairwise orthogonal columns.
-/

namespace Xhive.Linears

open Xhive.Support

variable (fixed : Bool) (epsilon : ℝ) {rows columns : ℕ}

/-! ## One rotation -/

theorem svdCorrelation_exact (rows p q : ℕ) (normP normQ : ℝ) (b : Grid ℝ) :
    svdCorrelation (exactAdapter ℝ fixed Real.sqrt epsilon) rows p q normP normQ b =
      .ok (columnDot rows b p q / (normP * normQ)) := by
  rw [svdCorrelation, columnDot, Finset.sum_div]
  refine (exact_sumTerms fixed Real.sqrt epsilon fun _ _ => rfl).trans ?_
  exact congrArg Except.ok (Finset.sum_congr rfl fun _ _ => div_mul_div_comm _ _ _ _)

theorem svdDeltas_exact (normP normQ correlation : ℝ) :
    svdDeltas (exactAdapter ℝ fixed Real.sqrt epsilon) normP normQ correlation =
      .ok (normQ / max normP normQ * (normQ / max normP normQ) -
          normP / max normP normQ * (normP / max normP normQ),
        2 * (normP / max normP normQ * (normQ / max normP normQ) * correlation)) := by
  have hscale : (if normQ < normP then normP else normQ) = max normP normQ := by
    rw [max_def]
    rcases lt_or_ge normQ normP with h | h
    · rw [if_pos h, if_neg h.not_ge]
    · rw [if_neg h.not_gt, if_pos h]
  rw [svdDeltas, hscale]
  change Except.ok (_, ((2 : ℤ) : ℝ) * _) = _
  rw [Int.cast_ofNat]

/-- The scaled evaluation of the root. -/
theorem svdTangent_exact {delta gamma : ℝ} (hgamma : gamma ≠ 0) :
    svdTangent (exactAdapter ℝ fixed Real.sqrt epsilon) delta gamma =
      .ok (|gamma| / (|delta| + Real.sqrt (delta * delta + gamma * gamma))) := by
  obtain ⟨h, hh, hpos⟩ : ∃ h, (if |gamma| < |delta| then |delta| else |gamma|) = h ∧ 0 < h := by
    refine ⟨_, rfl, ?_⟩
    have hgamma' : 0 < |gamma| := abs_pos.mpr hgamma
    split
    · rename_i hlt
      exact hgamma'.trans hlt
    · exact hgamma'
  rw [svdTangent]
  change Except.ok (|gamma| / (|delta| + (if |gamma| < |delta| then |delta| else |gamma|) *
    Real.sqrt (delta / (if |gamma| < |delta| then |delta| else |gamma|) *
      (delta / (if |gamma| < |delta| then |delta| else |gamma|)) +
      gamma / (if |gamma| < |delta| then |delta| else |gamma|) *
      (gamma / (if |gamma| < |delta| then |delta| else |gamma|))))) = _
  rw [hh]
  have hroot : h * Real.sqrt (delta / h * (delta / h) + gamma / h * (gamma / h)) =
      Real.sqrt (delta * delta + gamma * gamma) := by
    have hscaled : delta / h * (delta / h) + gamma / h * (gamma / h) =
        (delta * delta + gamma * gamma) / (h * h) := by
      rw [div_mul_div_comm, div_mul_div_comm, ← add_div]
    rw [hscaled, Real.sqrt_div' _ (mul_self_nonneg h), Real.sqrt_mul_self hpos.le,
      mul_div_cancel₀ _ hpos.ne']
  rw [hroot]

theorem svdSigned_exact (delta correlation t : ℝ) :
    svdSigned (exactAdapter ℝ fixed Real.sqrt epsilon) delta correlation t =
      .ok (if decide (delta < 0) ≠ decide (correlation < 0) then -t else t) := by
  rw [svdSigned]
  exact (apply_ite Except.ok _ _ _).symm

/-- The angle annihilates the inner product of the rotated columns. -/
structure JacobiAngle (normP normQ inner c s : ℝ) : Prop where
  unit : c * c + s * s = 1
  annihilates : c * s * (normP * normP - normQ * normQ) + (c * c - s * s) * inner = 0

theorem svdRotation_exact {normP normQ correlation : ℝ} (hp : 0 < normP) (hq : 0 < normQ)
    (hcorrelation : correlation ≠ 0) :
    Ensures (svdRotation (exactAdapter ℝ fixed Real.sqrt epsilon) normP normQ correlation)
      (fun angle => JacobiAngle normP normQ (correlation * (normP * normQ)) angle.1 angle.2)
      (fun _ => False) := by
  have hscale : 0 < max normP normQ := lt_max_of_lt_left hp
  rw [svdRotation, svdDeltas_exact]
  generalize max normP normQ = scale at *
  obtain ⟨delta, hdelta⟩ : ∃ delta, delta =
      normQ / scale * (normQ / scale) - normP / scale * (normP / scale) := ⟨_, rfl⟩
  obtain ⟨gamma, hgamma⟩ : ∃ gamma, gamma =
      2 * (normP / scale * (normQ / scale) * correlation) := ⟨_, rfl⟩
  rw [← hdelta, ← hgamma]
  have hproduct : 0 < normP / scale * (normQ / scale) := mul_pos (div_pos hp hscale)
    (div_pos hq hscale)
  have hgamma0 : gamma ≠ 0 := by
    rw [hgamma]
    exact mul_ne_zero two_ne_zero (mul_ne_zero hproduct.ne' hcorrelation)
  have hsigns : gamma < 0 ↔ correlation < 0 := by
    rw [hgamma]
    constructor
    · intro h
      by_contra hnot
      have := mul_nonneg hproduct.le (not_lt.mp hnot)
      linarith
    · intro h
      have := mul_neg_of_pos_of_neg hproduct h
      linarith
  refine Ensures.bind (ensures_ok.mpr ?_)
  change Ensures (svdTangent _ delta gamma >>= fun t => svdSigned _ delta correlation t >>= _) _ _
  rw [svdTangent_exact fixed epsilon hgamma0]
  refine Ensures.bind (ensures_ok.mpr ?_)
  have hroot := jacobi_signed_root (@jacobi_root delta gamma _ hgamma0 rfl)
    (decide (delta < 0) ≠ decide (correlation < 0)) (by rw [hsigns, ne_eq, decide_eq_decide])
  rw [svdSigned_exact]
  refine Ensures.bind (ensures_ok.mpr ?_)
  generalize (if decide (delta < 0) ≠ decide (correlation < 0) then _ else _) = t at hroot ⊢
  change JacobiAngle _ _ _ (1 / Real.sqrt (1 + t * t)) (t * (1 / Real.sqrt (1 + t * t)))
  refine ⟨cosine_sine t, ?_⟩
  generalize 1 / Real.sqrt (1 + t * t) = c
  have hscale0 : scale ≠ 0 := hscale.ne'
  have hdelta' : delta * (scale * scale) = normQ * normQ - normP * normP := by
    rw [hdelta]
    field_simp
  have hgamma' : gamma * (scale * scale) = 2 * (correlation * (normP * normQ)) := by
    rw [hgamma]
    field_simp
  linear_combination (-1 / 2) * (c * c) * (scale * scale) * hroot + c * c * t * hdelta' +
    (-1 / 2) * (c * c * (1 - t * t)) * hgamma'

theorem svdRotatePair_exact (c s oldP oldQ : ℝ) :
    svdRotatePair (exactAdapter ℝ fixed Real.sqrt epsilon) c s oldP oldQ =
      .ok (c * oldP - s * oldQ, s * oldP + c * oldQ) := by
  cases fixed with
  | true =>
      rw [svdRotatePair, exactAdapter_fixed, if_pos rfl]
      change Except.ok (0 + c * oldP - s * oldQ, 0 + s * oldP + c * oldQ) = _
      rw [zero_add, zero_add]
  | false => rfl

theorem svdRotateColumns_exact {p q : ℕ} (hpq : p ≠ q) (rows : ℕ) (c s : ℝ) (b : Grid ℝ) :
    Ensures (svdRotateColumns (exactAdapter ℝ fixed Real.sqrt epsilon) rows p q c s b)
      (fun t => Rotated rows p q c s b t.1) (fun _ => False) := by
  refine Ensures.imp (Ensures.forRange (fun k (t : Grid ℝ × Bool) =>
    Rotated k p q c s b t.1 ∧ ∀ row, k ≤ row → ∀ j, t.1 (row, j) = b (row, j))
    (Nat.zero_le rows) ?_ ?_) fun t h => h.1
  · exact ⟨⟨fun row h => by omega, fun row h => by omega, fun _ _ _ _ => rfl⟩, fun _ _ _ => rfl⟩
  · rintro row t _ _ ⟨hdone, hrest⟩
    rw [svdRotatePair_exact, hrest row le_rfl p, hrest row le_rfl q]
    change Rotated (row + 1) p q c s b (Function.update (Function.update t.1 (row, p) _)
      (row, q) _) ∧ ∀ r, row + 1 ≤ r → ∀ j, Function.update (Function.update t.1 (row, p) _)
      (row, q) _ (r, j) = b (r, j)
    have hother : ∀ r j (v w : ℝ), r ≠ row ∨ (j ≠ p ∧ j ≠ q) →
        Function.update (Function.update t.1 (row, p) v) (row, q) w (r, j) = t.1 (r, j) := by
      intro r j v w hout
      rw [Function.update_of_ne, Function.update_of_ne]
      · intro heq
        have := Prod.mk.inj heq
        omega
      · intro heq
        have := Prod.mk.inj heq
        omega
    refine ⟨⟨fun r hr => ?_, fun r hr => ?_, fun r j hp hq => ?_⟩, fun r hr j => ?_⟩
    · rcases Nat.lt_succ_iff_lt_or_eq.mp hr with hlt | rfl
      · rw [hother r p _ _ (Or.inl hlt.ne), hdone.first r hlt]
      · rw [Function.update_of_ne fun heq => hpq (Prod.mk.inj heq).2, Function.update_self]
    · rcases Nat.lt_succ_iff_lt_or_eq.mp hr with hlt | rfl
      · rw [hother r q _ _ (Or.inl hlt.ne), hdone.second r hlt]
      · rw [Function.update_self]
    · rw [hother r j _ _ (Or.inr ⟨hp, hq⟩), hdone.other r j hp hq]
    · rw [hother r j _ _ (Or.inl (by omega)), hrest r (by omega)]

/-! ## The invariant of the sweeps -/

/-- `b` is the input times `w`, and `w` has orthonormal columns. -/
structure SvdFactors (rows columns : ℕ) (b₀ : Grid ℝ) (s : SvdState ℝ) : Prop where
  product : ∀ row < rows, ∀ j < columns,
    s.b (row, j) = ∑ l ∈ Finset.range columns, b₀ (row, l) * s.w (l, j)
  orthogonal : ∀ j k, j < columns → k < columns →
    columnDot columns s.w j k = if j = k then 1 else 0
  pending : s.pending = .ok

/-- The state `svd_factor` starts from. -/
theorem svdStart_factors (rows columns : ℕ) (b₀ : Grid ℝ) :
    SvdFactors rows columns b₀
      { b := b₀, w := identityGrid (exactAdapter ℝ fixed Real.sqrt epsilon), norms := fun _ => 0,
        pending := .ok, rotated := false } := by
  refine ⟨fun row _ j hj => ?_, fun j k hj _ => ?_, rfl⟩
  · change _ = ∑ l ∈ Finset.range columns, b₀ (row, l) * if l = j then 1 else 0
    simp only [mul_ite, mul_one, mul_zero]
    rw [Finset.sum_ite_eq', if_pos (Finset.mem_range.mpr hj)]
  · change (∑ l ∈ Finset.range columns, (if l = j then 1 else 0) * if l = k then 1 else 0) = _
    simp only [ite_mul, one_mul, zero_mul]
    rw [Finset.sum_ite_eq', if_pos (Finset.mem_range.mpr hj)]

/-- Inside a sweep the stored norms are those of the columns. -/
structure SvdInvariant (rows columns : ℕ) (b₀ : Grid ℝ) (s : SvdState ℝ) : Prop
    extends SvdFactors rows columns b₀ s where
  norms : ∀ p < columns, s.norms p = Real.sqrt (columnDot rows s.b p p)

theorem columnDot_self_nonneg (rows : ℕ) (b : Grid ℝ) (p : ℕ) : 0 ≤ columnDot rows b p p :=
  Finset.sum_nonneg fun _ _ => mul_self_nonneg _

/-- A column of norm zero is zero. -/
theorem eq_zero_of_columnDot_self {b : Grid ℝ} {p : ℕ} (h : columnDot rows b p p = 0) :
    ∀ row < rows, b (row, p) = 0 := by
  rw [columnDot, Finset.sum_eq_zero_iff_of_nonneg fun _ _ => mul_self_nonneg _] at h
  exact fun row hrow => mul_self_eq_zero.mp (h row (Finset.mem_range.mpr hrow))

theorem columnDot_eq_zero_of_norm {b : Grid ℝ} {p : ℕ} (h : Real.sqrt (columnDot rows b p p) = 0) (q : ℕ) :
    columnDot rows b p q = 0 := by
  rw [Real.sqrt_eq_zero (columnDot_self_nonneg rows b p)] at h
  exact Finset.sum_eq_zero fun row hrow => by
    rw [eq_zero_of_columnDot_self h row (Finset.mem_range.mp hrow), zero_mul]

/-- A rotation applied to both arrays keeps the factors. -/
theorem SvdFactors.rotate {b₀ : Grid ℝ} {s t : SvdState ℝ} {p q : ℕ} {c d : ℝ}
    (h : SvdFactors rows columns b₀ s) (hpq : p ≠ q) (hp : p < columns) (hq : q < columns)
    (hcd : c * c + d * d = 1) (hb : Rotated rows p q c d s.b t.b)
    (hw : Rotated columns p q c d s.w t.w) (hpending : t.pending = .ok) :
    SvdFactors rows columns b₀ t := by
  refine ⟨fun row hrow j hj => ?_, hw.orthonormal hpq hcd hp hq h.orthogonal, hpending⟩
  have hfirst := hw.columnDot_first fun l => b₀ (row, l)
  have hsecond := hw.columnDot_second fun l => b₀ (row, l)
  simp only [mul_comm (s.w _), mul_comm (t.w _)] at hfirst hsecond
  by_cases hjp : j = p
  · rw [hjp, hb.first row hrow, h.product row hrow p hp, h.product row hrow q hq, hfirst]
  · by_cases hjq : j = q
    · rw [hjq, hb.second row hrow, h.product row hrow p hp, h.product row hrow q hq, hsecond]
    · rw [hb.other row j hjp hjq, h.product row hrow j hj]
      exact Finset.sum_congr rfl fun l _ => by rw [hw.other l j hjp hjq]

/-- A rotation annihilates the inner product it was computed from. -/
theorem svdRotateStep_exact {b₀ : Grid ℝ} {s : SvdState ℝ} {p q : ℕ} {correlation : ℝ}
    (h : SvdInvariant rows columns b₀ s) (hpq : p < q) (hq : q < columns)
    (hnormP : s.norms p ≠ 0) (hnormQ : s.norms q ≠ 0) (hne : correlation ≠ 0)
    (hcorrelation : correlation * (s.norms p * s.norms q) = columnDot rows s.b p q) :
    Ensures (svdRotateStep (exactAdapter ℝ fixed Real.sqrt epsilon) rows columns p q correlation s)
      (fun t => SvdInvariant rows columns b₀ t ∧ columnDot rows t.b p q = 0 ∧ t.rotated = true)
      (· = .errorNoConvergence) := by
  have hp : p < columns := hpq.trans hq
  have hpositive : ∀ j < columns, s.norms j ≠ 0 → 0 < s.norms j := by
    intro j hj hne
    refine lt_of_le_of_ne ?_ (Ne.symm hne)
    rw [h.norms j hj]
    exact Real.sqrt_nonneg _
  have hsquare : ∀ j < columns, s.norms j * s.norms j = columnDot rows s.b j j := by
    intro j hj
    rw [h.norms j hj, Real.mul_self_sqrt (columnDot_self_nonneg rows s.b j)]
  refine Ensures.seq ((svdRotation_exact fixed epsilon (hpositive p hp hnormP)
    (hpositive q hq hnormQ) hne).mono (fun _ h => h) fun _ h => h.elim) ?_
  rintro ⟨c, d⟩ hangle
  refine Ensures.ite (fun _ => rfl) fun _ => ?_
  refine Ensures.seq ((svdRotateColumns_exact fixed epsilon hpq.ne rows c d s.b).mono
    (fun _ h => h) fun _ h => h.elim) fun b hb => ?_
  refine Ensures.ite (fun _ => rfl) fun _ => ?_
  refine Ensures.seq ((svdRotateColumns_exact fixed epsilon hpq.ne columns c d s.w).mono
    (fun _ h => h) fun _ h => h.elim) fun w hw => ?_
  rw [real_norm, real_norm]
  refine Ensures.bind (ensures_ok.mpr (Ensures.bind (ensures_ok.mpr ?_)))
  rw [ensures_ok]
  refine ⟨⟨h.toSvdFactors.rotate hpq.ne hp hq hangle.unit hb hw rfl, fun j hj => ?_⟩, ?_, rfl⟩
  · dsimp only
    by_cases hjq : j = q
    · rw [hjq, Function.update_self]
      rfl
    · rw [Function.update_of_ne hjq]
      by_cases hjp : j = p
      · rw [hjp, Function.update_self]
        rfl
      · rw [Function.update_of_ne hjp, h.norms j hj, hb.columnDot_other_other hjp hjq hjp hjq]
  · rw [hb.columnDot_first_second, ← hsquare p hp, ← hsquare q hq, ← hcorrelation]
    exact hangle.annihilates

/-- Every visited pair of columns is orthogonal when the pair is left. -/
theorem svdPair_exact {b₀ : Grid ℝ} {s : SvdState ℝ} {p q : ℕ} (last : Bool)
    (h : SvdInvariant rows columns b₀ s) (hpq : p < q) (hq : q < columns) :
    Ensures (svdPair (exactAdapter ℝ fixed Real.sqrt epsilon) rows columns 0 last p q s)
      (fun t => SvdInvariant rows columns b₀ t ∧ columnDot rows t.b p q = 0 ∧
        (t.rotated = false → s.rotated = false ∧ t.b = s.b) ∧ (last = true → t.rotated = s.rotated))
      (· = .errorNoConvergence) := by
  have hp : p < columns := hpq.trans hq
  rw [svdPair]
  refine Ensures.ite (fun hzero => ?_) fun hnonzero => ?_
  · refine ⟨h, ?_, fun hrotated => ⟨hrotated, rfl⟩, fun _ => rfl⟩
    rcases hzero with hzero | hzero
    · exact columnDot_eq_zero_of_norm ((h.norms p hp).symm.trans hzero) q
    · rw [columnDot_comm]
      exact columnDot_eq_zero_of_norm ((h.norms q hq).symm.trans hzero) p
  · obtain ⟨hnormP, hnormQ⟩ := not_or.mp hnonzero
    have hproduct : s.norms p * s.norms q ≠ 0 := mul_ne_zero hnormP hnormQ
    rw [svdCorrelation_exact]
    refine Ensures.bind (ensures_ok.mpr ?_)
    have hcorrelation := div_mul_cancel₀ (columnDot rows s.b p q) hproduct
    generalize columnDot rows s.b p q / (s.norms p * s.norms q) = correlation at hcorrelation ⊢
    rw [exactAdapter_abs]
    refine Ensures.ite (fun hsmall => ?_) fun hlarge => ?_
    · have hsmall' : |correlation| ≤ 0 := hsmall
      have hnull : correlation = 0 := abs_nonpos_iff.mp hsmall'
      rw [hnull, zero_mul] at hcorrelation
      exact ⟨⟨⟨h.product, h.orthogonal, rfl⟩, h.norms⟩, hcorrelation.symm,
        fun hrotated => ⟨hrotated, rfl⟩, fun _ => rfl⟩
    · have hlarge' : ¬|correlation| ≤ 0 := hlarge
      have hne : correlation ≠ 0 := fun hnull => hlarge' (by rw [hnull, abs_zero])
      refine Ensures.ite (fun _ => rfl) fun hlast => ?_
      refine (svdRotateStep_exact fixed epsilon h hpq hq hnormP hnormQ hne hcorrelation).imp ?_
      rintro t ⟨hinv, hzero, hrotated⟩
      exact ⟨hinv, hzero, fun hfalse => absurd (hrotated.symm.trans hfalse) nofun,
        fun htrue => absurd htrue hlast⟩

/-! ## Whole sweeps -/

theorem svdNorms_exact {s : SvdState ℝ} (hpending : s.pending = .ok) (rows columns : ℕ) :
    Ensures (svdNorms (exactAdapter ℝ fixed Real.sqrt epsilon) rows columns s)
      (fun norms => ∀ p < columns, norms.1 p = Real.sqrt (columnDot rows s.b p p))
      (fun _ => False) := by
  refine Ensures.forRange (fun k (norms : (ℕ → ℝ) × ℝ) =>
    ∀ p < k, norms.1 p = Real.sqrt (columnDot rows s.b p p)) (Nat.zero_le columns)
    (fun p hp => by omega) ?_
  intro k norms _ _ hnorms
  rw [if_neg (not_not.mpr hpending), real_norm]
  refine Ensures.bind (ensures_ok.mpr ?_)
  rw [ensures_ok]
  intro p hp
  dsimp only
  rcases Nat.lt_succ_iff_lt_or_eq.mp hp with hlt | rfl
  · rw [Function.update_of_ne hlt.ne]
    exact hnorms p hlt
  · exact Function.update_self ..

/-- With cutoff zero only columns that are zero already are cleared. -/
theorem svdCutoff_exact {b₀ : Grid ℝ} {s : SvdState ℝ} (h : SvdFactors rows columns b₀ s)
    (hnorms : ∀ p < columns, s.norms p = Real.sqrt (columnDot rows s.b p p)) :
    SvdInvariant rows columns b₀
      (svdCutoff (exactAdapter ℝ fixed Real.sqrt epsilon) columns 0 s) := by
  have hzero : ∀ p < columns, s.norms p ≤ 0 → Real.sqrt (columnDot rows s.b p p) = 0 := by
    intro p hp hle
    rw [hnorms p hp] at hle
    exact le_antisymm hle (Real.sqrt_nonneg _)
  have hsame : ∀ row < rows, ∀ p,
      (svdCutoff (exactAdapter ℝ fixed Real.sqrt epsilon) columns 0 s).b (row, p) =
        s.b (row, p) := by
    intro row hrow p
    change (if p < columns ∧ s.norms p ≤ 0 then 0 else s.b (row, p)) = _
    split
    · rename_i hsmall
      have hnull := hzero p hsmall.1 hsmall.2
      rw [Real.sqrt_eq_zero (columnDot_self_nonneg rows s.b p)] at hnull
      exact (eq_zero_of_columnDot_self hnull row hrow).symm
    · rfl
  refine ⟨⟨fun row hrow j hj => ?_, h.orthogonal, h.pending⟩, fun p hp => ?_⟩
  · rw [hsame row hrow j]
    exact h.product row hrow j hj
  · rw [columnDot_congr (fun row hrow => hsame row hrow p) fun row hrow => hsame row hrow p]
    change (if p < columns ∧ s.norms p ≤ 0 then 0 else s.norms p) = _
    split
    · rename_i hsmall
      exact (hzero p hsmall.1 hsmall.2).symm
    · exact hnorms p hp

/-- A sweep keeps the factors; one that rotates nothing leaves orthogonal
columns, and the last sweep rotates nothing. -/
theorem svdSweep_exact {b₀ : Grid ℝ} {s : SvdState ℝ} (last : Bool)
    (h : SvdFactors rows columns b₀ s) :
    Ensures (svdSweep (exactAdapter ℝ fixed Real.sqrt epsilon) rows columns 0 last s)
      (fun t => SvdInvariant rows columns b₀ t ∧
        (t.rotated = false → ∀ p q, p < q → q < columns → columnDot rows t.b p q = 0) ∧
        (last = true → t.rotated = false))
      (· = .errorNoConvergence) := by
  refine Ensures.seq ((svdNorms_exact fixed epsilon h.pending rows columns).mono (fun _ h => h)
    fun _ h => h.elim) fun norms hnorms => ?_
  rw [exactAdapter_mul, mul_zero]
  refine Ensures.bind (ensures_ok.mpr ?_)
  have hstart : SvdInvariant rows columns b₀ (svdCutoff (exactAdapter ℝ fixed Real.sqrt epsilon)
      columns 0 { s with norms := norms.1, rotated := false }) :=
    svdCutoff_exact fixed epsilon ⟨h.product, h.orthogonal, h.pending⟩ hnorms
  -- the pairs visited before `(p, q)` are orthogonal unless something was rotated
  let inv : ℕ → ℕ → SvdState ℝ → Prop := fun p q t => SvdInvariant rows columns b₀ t ∧
    (t.rotated = false → ∀ i j, i < j → j < columns → i < p ∨ i = p ∧ j < q →
      columnDot rows t.b i j = 0) ∧ (last = true → t.rotated = false)
  refine Ensures.imp (Ensures.forRange (fun p t => inv p (p + 1) t) (Nat.zero_le columns) ?_ ?_) ?_
  · exact ⟨hstart, fun _ i j hij _ hbefore => by omega, fun _ => rfl⟩
  · intro p t _ hp ht
    refine Ensures.imp (Ensures.forRange (fun q t => inv p q t) hp ht ?_) ?_
    · rintro q t hpq hq ⟨hinv, horthogonal, hlast⟩
      refine (svdPair_exact fixed epsilon last hinv hpq hq).imp ?_
      rintro u ⟨hu, hzero, hkept, hsame⟩
      refine ⟨hu, fun hrotated i j hij hj hbefore => ?_, fun htrue => ?_⟩
      · obtain ⟨hold, hb⟩ := hkept hrotated
        by_cases hpair : i = p ∧ j = q
        · rw [hpair.1, hpair.2]
          exact hzero
        · rw [hb]
          exact horthogonal hold i j hij hj (by omega)
      · rw [hsame htrue]
        exact hlast htrue
    · rintro u ⟨hinv, horthogonal, hlast⟩
      exact ⟨hinv, fun hrotated i j hij hj hbefore =>
        horthogonal hrotated i j hij hj (by omega), hlast⟩
  · rintro t ⟨hinv, horthogonal, hlast⟩
    exact ⟨hinv, fun hrotated p q hpq hq =>
      horthogonal hrotated p q hpq hq (Or.inl (hpq.trans hq)), hlast⟩

/-- The sweeps stop with orthogonal columns or report no convergence. -/
theorem svdSweeps_exact {b₀ : Grid ℝ} {maxSweeps sweep : ℕ} {s : SvdState ℝ}
    (h : SvdFactors rows columns b₀ s) :
    Ensures (svdSweeps (exactAdapter ℝ fixed Real.sqrt epsilon) rows columns 0 maxSweeps sweep s)
      (fun t => SvdInvariant rows columns b₀ t ∧
        ∀ p q, p < q → q < columns → columnDot rows t.b p q = 0)
      (· = .errorNoConvergence) := by
  induction hrest : maxSweeps - sweep using Nat.strong_induction_on generalizing sweep s with
  | h rest ih =>
    rw [svdSweeps]
    refine (svdSweep_exact fixed epsilon (sweep == maxSweeps) h).seq ?_
    rintro t ⟨hinv, horthogonal, -⟩
    refine Ensures.ite (fun _ => ?_) fun hrotated => ?_
    · refine Ensures.ite (fun hsweep => ?_) fun _ => rfl
      exact ih (maxSweeps - (sweep + 1)) (by omega) hinv.toSvdFactors rfl
    · exact ⟨hinv, horthogonal (Bool.not_eq_true _ ▸ hrotated)⟩

end Xhive.Linears
