import Xhive.Filters.AverageExact
import Xhive.Support.Rounding

/-!
# The moving average stays between what it was given

The weights of one step add up to one exactly, and the rounding of the F62 sum
passes no integer, so the new state lies between the old one and the sample.
A run is then enclosed by the values it was given, and no conversion of its
state to the signal format can leave the range.
-/

namespace Xhive.Filters

open Xhive.Support Xhive.Linears Procedure

/-! ## One step of the working state -/

/-- Both weights and both products are exact, and the sum cannot leave the
accumulator. -/
theorem emaSum_exact {alpha : Int32} (halpha : 0 ≤ alpha.toInt) (state input : Int64) :
    ∃ first sum : Accum,
      checked (linearsFixedMac (some ⟨0, 0⟩) (fixedOne - alpha.toInt64) state) = .ok first ∧
      checked (linearsFixedMac (some first) alpha.toInt64 input) = .ok sum ∧
      sum.toInt = (2 ^ 31 - alpha.toInt) * state.toInt + alpha.toInt * input.toInt := by
  have hlt := alpha.toInt_lt
  have hwide : alpha.toInt64.toInt = alpha.toInt := Int32.toInt_toInt64 alpha
  have hcomplement : (fixedOne - alpha.toInt64).toInt = 2 ^ 31 - alpha.toInt := by
    rw [toInt_sub_of_fits] <;> rw [toInt_fixedOne, hwide]
    constructor <;> omega
  have hproduct : ∀ (w : ℤ) (x : Int64), 0 ≤ w → w ≤ 2 ^ 31 → |w * x.toInt| ≤ 2 ^ 94 := by
    intro w x hnonneg hle
    have hx : |x.toInt| ≤ 2 ^ 63 := abs_le.mpr ⟨x.le_toInt, x.toInt_lt.le⟩
    calc
      |w * x.toInt| = w * |x.toInt| := by rw [abs_mul, abs_of_nonneg hnonneg]
      _ ≤ 2 ^ 31 * 2 ^ 63 := mul_le_mul hle hx (abs_nonneg _) (by norm_num)
      _ = 2 ^ 94 := by norm_num
  have hold := abs_le.mp (hproduct (2 ^ 31 - alpha.toInt) state (by omega) (by omega))
  have hnew := abs_le.mp (hproduct alpha.toInt input halpha (by omega))
  have hmac := ensures_mac ⟨0, 0⟩ (fixedOne - alpha.toInt64) state
  rw [hcomplement, Accum.toInt_zero, zero_add] at hmac
  cases hfirst : checked (linearsFixedMac (some ⟨0, 0⟩) (fixedOne - alpha.toInt64) state) with
  | error status =>
      rw [hfirst] at hmac
      refine absurd ?_ hmac.2
      constructor <;> omega
  | ok first =>
      rw [hfirst] at hmac
      have hmac' := ensures_mac first alpha.toInt64 input
      rw [hwide, hmac.2] at hmac'
      cases hsecond : checked (linearsFixedMac (some first) alpha.toInt64 input) with
      | error status =>
          rw [hsecond] at hmac'
          refine absurd ?_ hmac'.2
          constructor <;> omega
      | ok sum =>
          rw [hsecond] at hmac'
          exact ⟨first, sum, rfl, hsecond, hmac'.2⟩

theorem filtersEmaWorkStep_eq {alpha : Int32} (halpha : 0 ≤ alpha.toInt) (state input : Int64) :
    ∃ next : Int64, filtersEmaWorkStep (some state) alpha input = (.ok, some next) ∧
      next.toInt = roundedBlend (2 ^ 31) alpha.toInt state.toInt input.toInt := by
  have hlt := alpha.toInt_lt
  obtain ⟨first, sum, hfirst, hsecond, hsum⟩ := emaSum_exact halpha state input
  have hround := ensures_accumToFixed sum
  have hcode : roundAway ((sum.toInt : ℚ) / 2 ^ 31) =
      roundedBlend (2 ^ 31) alpha.toInt state.toInt input.toInt := by
    rw [roundedBlend, hsum]
    norm_num
  rw [hcode] at hround
  have hnonneg : ¬alpha < 0 := by
    rw [Int32.lt_iff_toInt_lt]
    exact not_lt.mpr halpha
  cases hresult : checked (linearsAccumToFixed sum (some 0)) with
  | error status =>
      rw [hresult] at hround
      refine absurd ?_ hround.2
      have hle : alpha.toInt ≤ 2 ^ 31 := hlt.le
      have hlow := le_roundedBlend (by norm_num) halpha hle state.le_toInt input.le_toInt
      have hhigh := roundedBlend_le (by norm_num) halpha hle
        (Int.le_sub_one_of_lt state.toInt_lt) (Int.le_sub_one_of_lt input.toInt_lt)
      exact ⟨hlow, by omega⟩
  | ok next =>
      rw [hresult] at hround
      refine ⟨next, ?_, hround⟩
      rw [filtersEmaWorkStep, withOut_some, if_neg hnonneg]
      simp only [hfirst, hsecond, ok_bind, hresult]
      rfl

/-- A step of weight `alpha` succeeds with a new state between the old one and
the sample, and moves neither of them the wrong way. -/
def StepsBetween (alpha : Int32) : Prop :=
  ∃ next : Int64 → Int64 → Int64,
    (∀ state input, filtersEmaWorkStep (some state) alpha input = (.ok, some (next state input))) ∧
    (∀ state input, min state.toInt input.toInt ≤ (next state input).toInt ∧
      (next state input).toInt ≤ max state.toInt input.toInt) ∧
    (∀ state, next state state = state) ∧
    (∀ state state' input, state ≤ state' → next state input ≤ next state' input) ∧
    (∀ state input input', input ≤ input' → next state input ≤ next state input')

theorem stepsBetween {alpha : Int32} (halpha : 0 ≤ alpha.toInt) : StepsBetween alpha := by
  have hwhole : (0 : ℤ) < 2 ^ 31 := by norm_num
  have hle : alpha.toInt ≤ 2 ^ 31 := alpha.toInt_lt.le
  choose next hstep hnext using filtersEmaWorkStep_eq halpha
  refine ⟨next, hstep, ?_, ?_, ?_, ?_⟩
  · intro state input
    rw [hnext]
    exact ⟨le_roundedBlend hwhole halpha hle (min_le_left _ _) (min_le_right _ _),
      roundedBlend_le hwhole halpha hle (le_max_left _ _) (le_max_right _ _)⟩
  · intro state
    rw [← Int64.toInt_inj, hnext, roundedBlend_self hwhole halpha hle]
  · intro state state' input hstate
    rw [Int64.le_iff_toInt_le] at hstate ⊢
    rw [hnext, hnext]
    exact roundedBlend_mono hwhole halpha hle hstate le_rfl
  · intro state input input' hinput
    rw [Int64.le_iff_toInt_le] at hinput ⊢
    rw [hnext, hnext]
    exact roundedBlend_mono hwhole halpha hle le_rfl hinput

/-! ## Runs -/

variable {Q : Type} [FilterFormat Q]

/-- The raw code of a signal value. -/
abbrev code (x : Q) : ℤ :=
  (QFormat.widen x).toInt

/-- The runs of calls on one context, with the initial value of the last init
or reset and the samples accepted since, newest first. -/
inductive EmaRun (self : Extent) : EmaContext Q → List Q → Prop where
  | init {alpha initial ctx} (h : emaInit self alpha initial = .ok ctx) : EmaRun self ctx [initial]
  | reset {ctx ctx' seen initial} (hrun : EmaRun self ctx seen)
      (h : emaReset self initial ctx = .ok ctx') : EmaRun self ctx' [initial]
  | accepted {ctx seen input output cell m} (hrun : EmaRun self ctx seen)
      (h : emaStep self input output ⟨ctx, (), cell⟩ = (.ok (), m)) :
      EmaRun self m.ctx (input :: seen)
  | rejected {ctx seen input output cell status m} (hrun : EmaRun self ctx seen)
      (h : emaStep self input output ⟨ctx, (), cell⟩ = (.error status, m)) :
      EmaRun self m.ctx seen

/-- `value` lies between two of the values in `seen`. -/
def Enclosed (seen : List Q) (value : Int64) : Prop :=
  ∃ least ∈ seen, ∃ greatest ∈ seen,
    (FilterFormat.load least).toInt ≤ value.toInt ∧
      value.toInt ≤ (FilterFormat.load greatest).toInt

structure EmaInvariant (ctx : EmaContext Q) (seen : List Q) : Prop where
  alpha_nonneg : 0 ≤ (FilterFormat.load ctx.alpha).toInt
  enclosed : Enclosed seen ctx.value

theorem toInt_load_lt (x : Q) : (FilterFormat.load x).toInt < 2 ^ 31 := by
  have hbits := (qBits_bounds Q).2
  have hsplit : (2 : ℤ) ^ 31 =
      2 ^ (QFormat.qBits Q).toNat * 2 ^ (31 - (QFormat.qBits Q).toNat) := by
    rw [← pow_add, Nat.add_sub_cancel' hbits]
  rw [FilterFormat.toInt_load, hsplit]
  exact mul_lt_mul_of_pos_right (QFormat.toInt_widen_lt x) (by positivity)

theorem Enclosed.abs_toInt_le {seen : List Q} {value : Int64} (h : Enclosed seen value) :
    |value.toInt| ≤ 2 ^ 31 := by
  obtain ⟨least, -, greatest, -, hlow, hhigh⟩ := h
  have hleast := abs_le.mp (abs_toInt_load_le least)
  have hgreatest := toInt_load_lt greatest
  exact abs_le.mpr ⟨hleast.1.trans hlow, (hhigh.trans_lt hgreatest).le⟩

/-- A blend with a new sample is enclosed once the sample is counted in. -/
theorem Enclosed.blend {seen : List Q} {value next : Int64} (h : Enclosed seen value) {input : Q}
    (hlow : min value.toInt (FilterFormat.load input).toInt ≤ next.toInt)
    (hhigh : next.toInt ≤ max value.toInt (FilterFormat.load input).toInt) :
    Enclosed (input :: seen) next := by
  obtain ⟨least, hleast, greatest, hgreatest, hmin, hmax⟩ := h
  have hlower : ∃ x ∈ input :: seen, (FilterFormat.load x).toInt ≤ next.toInt := by
    rcases min_le_iff.mp hlow with hvalue | hinput
    · exact ⟨least, List.mem_cons_of_mem _ hleast, hmin.trans hvalue⟩
    · exact ⟨input, List.mem_cons_self, hinput⟩
  have hupper : ∃ x ∈ input :: seen, next.toInt ≤ (FilterFormat.load x).toInt := by
    rcases le_max_iff.mp hhigh with hvalue | hinput
    · exact ⟨greatest, List.mem_cons_of_mem _ hgreatest, hvalue.trans hmax⟩
    · exact ⟨input, List.mem_cons_self, hinput⟩
  obtain ⟨lower, hmem, hle⟩ := hlower
  obtain ⟨upper, hmem', hle'⟩ := hupper
  exact ⟨lower, hmem, upper, hmem', hle, hle'⟩

theorem toInt_load_toInt32 {alpha : Q} (halpha : 0 ≤ (FilterFormat.load alpha).toInt) :
    (FilterFormat.load alpha).toInt32.toInt = (FilterFormat.load alpha).toInt := by
  have hlt := toInt_load_lt alpha
  rw [Int64.toInt_toInt32, Int.bmod_eq_of_le (by omega) (by omega)]

/-- A state between two codes is exported to a code between them: the endpoint
rule never applies. -/
theorem exportFixed_enclosed {seen : List Q} {value : Int64} (h : Enclosed seen value) (old : Q) :
    ∃ stored, FilterFormat.exportFixed value (some old) = (.ok, some stored) ∧
      ∃ least ∈ seen, ∃ greatest ∈ seen,
        code least ≤ code stored ∧ code stored ≤ code greatest := by
  obtain ⟨stored, hexport, hcode⟩ := FilterFormat.exportFixed_ok value old h.abs_toInt_le
  obtain ⟨least, hleast, greatest, hgreatest, hlow, hhigh⟩ := h
  rw [FilterFormat.toInt_load] at hlow hhigh
  have hscale : (0 : ℚ) < 2 ^ (31 - (QFormat.qBits Q).toNat) := by positivity
  have hlower : code least ≤
      roundAway ((value.toInt : ℚ) / 2 ^ (31 - (QFormat.qBits Q).toNat)) := by
    apply le_roundAway
    rw [le_div_iff₀ hscale]
    exact_mod_cast hlow
  have hupper : roundAway ((value.toInt : ℚ) / 2 ^ (31 - (QFormat.qBits Q).toNat)) ≤
      code greatest := by
    apply roundAway_le
    rw [div_le_iff₀ hscale]
    exact_mod_cast hhigh
  have hlast := QFormat.toInt_widen_lt greatest
  rw [endpoint, if_neg (hupper.trans_lt hlast).ne] at hcode
  rw [← hcode] at hlower hupper
  exact ⟨stored, hexport, least, hleast, greatest, hgreatest, hlower, hupper⟩

/-- The step lemma. -/
theorem emaStep_eq {ctx : EmaContext Q} {seen : List Q} (h : EmaInvariant ctx seen)
    {self : Extent} {output : ℕ}
    (hpointers : checkOutput self ⟨output, FilterFormat.scalarBytes Q⟩ = .ok ()) (input cell : Q) :
    ∃ (candidate : Int64) (result : Q),
      emaStep self input output ⟨ctx, (), cell⟩ =
        (.ok (), ⟨{ ctx with value := candidate }, (), result⟩) ∧
      Enclosed (input :: seen) candidate ∧
      ∃ least ∈ input :: seen, ∃ greatest ∈ input :: seen,
        code least ≤ code result ∧ code result ≤ code greatest := by
  have halpha := h.alpha_nonneg
  rw [← toInt_load_toInt32 halpha] at halpha
  obtain ⟨next, hwork, hbetween, -⟩ := stepsBetween halpha
  have hblend : blend (FilterFormat.load ctx.alpha) ctx.value (FilterFormat.load input) =
      .ok (next ctx.value (FilterFormat.load input)) := by
    rw [blend, hwork]
    rfl
  obtain ⟨hlow, hhigh⟩ := hbetween ctx.value (FilterFormat.load input)
  have henclosed := h.enclosed.blend hlow hhigh
  obtain ⟨result, hexport, hresult⟩ := exportFixed_enclosed henclosed FilterFormat.zero
  refine ⟨next ctx.value (FilterFormat.load input), result, ?_, henclosed, hresult⟩
  rw [emaStep, attempt_bind_ok hpointers, read_bind, attempt_bind_ok hblend,
    call_bind_ok (by rw [hexport]; rfl)]
  rfl

theorem emaInit_invariant {self : Extent} {alpha initial : Q} {ctx : EmaContext Q}
    (h : emaInit self alpha initial = .ok ctx) : EmaInvariant ctx [initial] := by
  rw [emaInit] at h
  by_cases hself : self.address = 0
  · rw [if_pos hself] at h
    cases h
  · rw [if_neg hself] at h
    by_cases hweight : linearsFixedCompare (FilterFormat.load alpha) 0 < 0
    · rw [weight, if_pos hweight] at h
      cases h
    · rw [weight, if_neg hweight] at h
      cases h
      refine ⟨?_, initial, List.mem_singleton_self _, initial, List.mem_singleton_self _, le_rfl,
        le_rfl⟩
      by_contra hneg
      apply hweight
      rw [(linearsFixedCompare_iff _ _).2.1, lt_zero_iff_toInt]
      exact not_le.mp hneg

/-- The run lemma. -/
theorem EmaRun.invariant {self : Extent} {ctx : EmaContext Q} {seen : List Q}
    (hrun : EmaRun self ctx seen) : EmaInvariant ctx seen := by
  induction hrun with
  | init h => exact emaInit_invariant h
  | @reset ctx ctx' seen initial _ h ih =>
      rw [emaReset] at h
      split at h
      · cases h
      · cases h
        exact ⟨ih.alpha_nonneg, initial, List.mem_singleton_self _, initial,
          List.mem_singleton_self _, le_rfl, le_rfl⟩
  | @accepted ctx seen input output cell m _ h ih =>
      obtain ⟨_, hpointers, -⟩ := attempt_bind_eq_ok h
      obtain ⟨candidate, result, heq, henclosed, -⟩ := emaStep_eq ih hpointers input cell
      rw [heq] at h
      cases h
      exact ⟨ih.alpha_nonneg, henclosed⟩
  | @rejected ctx seen input output cell status m _ h ih =>
      have hview := (emaStep_transaction self input output).error_view
        (s := ⟨ctx, (), cell⟩) trivial h
      have hctx : m.ctx = ctx := congrArg Prod.fst hview
      rw [hctx]
      exact ih

/-- In every run a step given pointers it accepts succeeds, with an output
between two of the values given so far. -/
def RunsEnclosed (Q : Type) [FilterFormat Q] : Prop :=
  ∀ (self : Extent) (ctx : EmaContext Q) (seen : List Q), EmaRun self ctx seen →
    ∀ (input : Q) (output : ℕ) (cell : Q),
      (∀ status m, emaStep self input output ⟨ctx, (), cell⟩ = (.error status, m) →
        PointerStatus status) ∧
      (checkOutput self ⟨output, FilterFormat.scalarBytes Q⟩ = .ok () →
        ∃ m, emaStep self input output ⟨ctx, (), cell⟩ = (.ok (), m) ∧
          ∃ least ∈ input :: seen, ∃ greatest ∈ input :: seen,
            code least ≤ code m.output ∧ code m.output ≤ code greatest)

theorem runsEnclosed (Q : Type) [FilterFormat Q] : RunsEnclosed Q := by
  intro self ctx seen hrun input output cell
  have hinv := hrun.invariant
  constructor
  · intro status m hstep
    cases hcheck : checkOutput self ⟨output, FilterFormat.scalarBytes Q⟩ with
    | error e =>
        simp only [emaStep, bind_apply, attempt_apply, hcheck] at hstep
        cases hstep
        exact checkOutput_error hcheck
    | ok _ =>
        obtain ⟨candidate, result, heq, -⟩ := emaStep_eq hinv hcheck input cell
        rw [heq] at hstep
        cases hstep
  · intro hpointers
    obtain ⟨candidate, result, heq, -, hresult⟩ := emaStep_eq hinv hpointers input cell
    exact ⟨_, heq, hresult⟩

/-- One step never overshoots, and no run leaves what it was given. -/
theorem ema_stays_between :
    (∀ alpha : Int32, 0 ≤ alpha.toInt → StepsBetween alpha) ∧
      RunsEnclosed Int16 ∧ RunsEnclosed Int32 :=
  ⟨fun _ => stepsBetween, runsEnclosed Int16, runsEnclosed Int32⟩

/-- A half-weight step from 100 to 300 in q15. -/
theorem ema_stays_between_q15 :
    StepsBetween 16384 ∧
      ∃ m, emaStep ⟨8, 16⟩ (300 : Int16) 64 ⟨⟨16384, 6553600⟩, (), 0⟩ = (.ok (), m) ∧
        ∃ least ∈ [(300 : Int16), 100], ∃ greatest ∈ [(300 : Int16), 100],
          code least ≤ code m.output ∧ code m.output ≤ code greatest :=
  ⟨ema_stays_between.1 16384 (by decide),
    (ema_stays_between.2.1 ⟨8, 16⟩ ⟨16384, 6553600⟩ [100]
      (.init (show emaInit ⟨8, 16⟩ 16384 100 = .ok ⟨16384, 6553600⟩ from rfl)) 300 64 0).2 rfl⟩

end Xhive.Filters
