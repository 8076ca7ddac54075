import Xhive.Filters.Transactions
import Mathlib.Algebra.BigOperators.Intervals

/-!
# The FIR step rounds the exact convolution once

The ring holds the inputs of the successful steps since the last reset.  The
walk of the sum meets them newest first, so the accumulator holds the prefix
sums of the exact convolution.
-/

namespace Xhive.Filters

open Xhive.Support Xhive.Linears Procedure

variable {Q : Type} [FilterFormat Q]

/-- The value of an F31 coefficient. -/
def coefficientValue (c : Int64) : ℚ :=
  c.toInt / 2 ^ 31

/-- The value of a raw-Q sample. -/
def sampleValue (x : Q) : ℚ :=
  (QFormat.widen x).toInt / 2 ^ (QFormat.qBits Q).toNat

/-- The exact sum of the taps: `samples` lists the current input and then the
previous ones, with zero where there is none. -/
def firExact (coefficients : ℕ → Int64) (taps : ℕ) (samples : List Q) : ℚ :=
  ∑ i ∈ Finset.range taps,
    coefficientValue (coefficients i) * sampleValue (samples.getD i FilterFormat.zero)

/-- The first `k` taps in units of the accumulator. -/
def firPartial (coefficients : ℕ → Int64) (samples : List Q) (k : ℕ) : ℤ :=
  ∑ i ∈ Finset.range k, (coefficients i).toInt *
    (FilterFormat.load (samples.getD i FilterFormat.zero)).toInt

/-- The step is given pointers it accepts. -/
def FirPointers (self : Extent) (arguments : FirArguments Q) (output : ℕ) : Prop :=
  checkOutput self ⟨output, FilterFormat.scalarBytes Q⟩ = .ok () ∧
    checkRetained ⟨output, FilterFormat.scalarBytes Q⟩
      [arguments.state.extent arguments.taps (FilterFormat.scalarBytes Q),
        arguments.coefficients.extent arguments.taps 8] = .ok ()

/-! ## The sum -/

theorem sampleValue_eq (x : Q) : sampleValue x = (FilterFormat.load x).toInt / 2 ^ 31 := by
  have hbits := (qBits_bounds Q).2
  have hsplit : (2 : ℚ) ^ 31 = 2 ^ (QFormat.qBits Q).toNat * 2 ^ (31 - (QFormat.qBits Q).toNat) := by
    rw [← pow_add, Nat.add_sub_cancel' hbits]
  rw [sampleValue, FilterFormat.toInt_load, hsplit]
  push_cast
  rw [mul_div_mul_right _ _ (by positivity)]

theorem firExact_eq (coefficients : ℕ → Int64) (taps : ℕ) (samples : List Q) :
    firExact coefficients taps samples = firPartial coefficients samples taps / 2 ^ 62 := by
  rw [firExact, firPartial, Int.cast_sum, Finset.sum_div]
  apply Finset.sum_congr rfl
  intro i _
  rw [sampleValue_eq, coefficientValue, Int.cast_mul, div_mul_div_comm]
  norm_num

/-- The walk reads the samples newest first; it stops at the first partial sum
that the accumulator cannot hold. -/
theorem firSum_spec {ctx : FirContext Q} {history : List Q}
    (hring : RingHolds FilterFormat.zero ctx.state.cells ctx.head ctx.taps history) (input : Q) :
    Ensures (firSum ctx input)
      (fun accumulator =>
        (∀ k ≤ ctx.taps, Accum.Fits (firPartial ctx.coefficients.cells (input :: history) k)) ∧
        accumulator.toInt = firPartial ctx.coefficients.cells (input :: history) ctx.taps)
      (fun status => status = .errorRange ∧
        ¬∀ k ≤ ctx.taps,
          Accum.Fits (firPartial ctx.coefficients.cells (input :: history) k)) := by
  have hpartial : ∀ k, firPartial ctx.coefficients.cells (input :: history) (k + 1) =
      firPartial ctx.coefficients.cells (input :: history) k +
        (ctx.coefficients.cells k).toInt * (FilterFormat.load
          ((input :: history).getD k FilterFormat.zero)).toInt :=
    fun k => Finset.sum_range_succ _ k
  -- before tap `i` the walk stands on the slot of sample `i - 1`
  let inv : ℕ → ℕ × Accum → Prop := fun i walk =>
    walk.1 = walkBack ctx.head ctx.taps (i - 1) ∧
    (∀ k ≤ i, Accum.Fits (firPartial ctx.coefficients.cells (input :: history) k)) ∧
    walk.2.toInt = firPartial ctx.coefficients.cells (input :: history) i
  have hloop : Ensures (forRange 0 ctx.taps (ctx.head, ⟨0, 0⟩)
      (firTap ctx (FilterFormat.load input))) (inv ctx.taps)
      (fun status => status = .errorRange ∧ ¬∀ k ≤ ctx.taps,
        Accum.Fits (firPartial ctx.coefficients.cells (input :: history) k)) := by
    apply Ensures.forRange inv (Nat.zero_le _)
    · refine ⟨rfl, fun k hk => ?_, ?_⟩
      · rw [Nat.le_zero.mp hk, firPartial, Finset.sum_range_zero]
        decide
      · rw [firPartial, Finset.sum_range_zero]
        exact Accum.toInt_zero
    · rintro i walk - hi ⟨hindex, hfits, hsum⟩
      have hstep : ∀ (index : ℕ) (sample : Int64), index = walkBack ctx.head ctx.taps i →
          sample = FilterFormat.load ((input :: history).getD i FilterFormat.zero) →
          Ensures (do
            let accumulator ← checked
              (linearsFixedMac (some walk.2) (ctx.coefficients.cells i) sample)
            .ok (index, accumulator)) (inv (i + 1))
            (fun status => status = .errorRange ∧ ¬∀ k ≤ ctx.taps,
              Accum.Fits (firPartial ctx.coefficients.cells (input :: history) k)) := by
        intro index sample hindex' hsample
        have hmac := ensures_mac walk.2 (ctx.coefficients.cells i) sample
        rw [hsum, hsample, ← hpartial] at hmac
        rw [hsample]
        refine (hmac.mono (fun next hnext => ?_) fun status hstatus => ?_).bind
        · refine ⟨hindex', fun k hk => ?_, hnext.2⟩
          rcases Nat.le_succ_iff.mp hk with hle | rfl
          · exact hfits k hle
          · exact hnext.1
        · exact ⟨hstatus.1, fun h => hstatus.2 (h (i + 1) hi)⟩
      rw [firTap]
      cases i with
      | zero =>
          rw [if_pos rfl]
          exact hstep walk.1 _ hindex rfl
      | succ i =>
          rw [if_neg (Nat.succ_ne_zero i)]
          have hback : ringPrevious walk.1 ctx.taps = walkBack ctx.head ctx.taps (i + 1) := by
            rw [hindex]
            rfl
          apply hstep _ _ hback
          rw [hback, hring.cell_eq i (by omega), List.getD_cons_succ]
  rw [firSum]
  apply (hloop.imp _).bind
  rintro walk ⟨-, hfits, hsum⟩
  exact ⟨hfits, hsum⟩

/-- The sum and its export succeed exactly on the accepted sums. -/
theorem firResult_spec {ctx : FirContext Q} {history : List Q}
    (hring : RingHolds FilterFormat.zero ctx.state.cells ctx.head ctx.taps history) (input : Q) :
    Ensures (firSum ctx input >>= fun accumulator =>
        checked (linearsAccumToQ accumulator (some (FilterFormat.zero : Q))))
      (fun result =>
        (|firPartial ctx.coefficients.cells (input :: history) ctx.taps| ≤ 2 ^ 62 ∧
          ∀ k ≤ ctx.taps, Accum.Fits (firPartial ctx.coefficients.cells (input :: history) k)) ∧
        (QFormat.widen result).toInt = quantizedCode (QFormat.qBits Q).toNat
          (firPartial ctx.coefficients.cells (input :: history) ctx.taps))
      (fun _ => ¬(|firPartial ctx.coefficients.cells (input :: history) ctx.taps| ≤ 2 ^ 62 ∧
        ∀ k ≤ ctx.taps,
          Accum.Fits (firPartial ctx.coefficients.cells (input :: history) k))) := by
  apply Ensures.bind
  apply (firSum_spec hring input).mono
  · rintro accumulator ⟨hfits, hvalue⟩
    have hexport := ensures_accumToQ accumulator (FilterFormat.zero : Q)
    rw [hvalue] at hexport
    apply hexport.mono
    · rintro result ⟨hrange, hcode⟩
      exact ⟨⟨hrange, hfits⟩, hcode⟩
    · rintro status ⟨-, hlarge⟩ h
      exact absurd h.1 (not_le.mpr hlarge)
  · rintro status ⟨-, hnot⟩ h
    exact hnot h.2

/-! ## The step -/

/-- The context after a successful step. -/
def firPush (ctx : FirContext Q) (input : Q) : FirContext Q :=
  { ctx with state := ctx.state.set ctx.head input, head := ringNext ctx.head ctx.taps }

/-- After the pointer checks a step is its sum and its export. -/
theorem firStep_eq {self : Extent} {output : ℕ} {ctx : FirContext Q} (input cell : Q)
    (hout : checkOutput self ⟨output, FilterFormat.scalarBytes Q⟩ = .ok ())
    (hretained : checkRetained ⟨output, FilterFormat.scalarBytes Q⟩
      [ctx.state.extent ctx.taps (FilterFormat.scalarBytes Q),
        ctx.coefficients.extent ctx.taps 8] = .ok ()) :
    firStep self input output ⟨ctx, (), cell⟩ =
      match firSum ctx input >>= fun accumulator =>
        checked (linearsAccumToQ accumulator (some FilterFormat.zero)) with
      | .ok result => (.ok (), ⟨firPush ctx input, (), result⟩)
      | .error status => (.error status, ⟨ctx, (), cell⟩) := by
  simp only [firStep, bind_apply, attempt_apply, read_apply, call, hout, hretained]
  cases firSum ctx input with
  | error status => rfl
  | ok accumulator =>
      rw [ok_bind]
      dsimp only
      cases checked (linearsAccumToQ accumulator (some (FilterFormat.zero : Q))) with
      | error status => rfl
      | ok result => rfl

theorem firStep_ok {self : Extent} {input : Q} {output : ℕ} {m m' : Memory (FirContext Q) Unit Q}
    (h : firStep self input output m = (.ok (), m')) : m'.ctx = firPush m.ctx input := by
  obtain ⟨_, hcheck, h⟩ := attempt_bind_eq_ok h
  rw [read_bind] at h
  obtain ⟨_, hretained, h⟩ := attempt_bind_eq_ok h
  obtain ⟨accumulator, hsum, h⟩ := attempt_bind_eq_ok h
  obtain ⟨result, hstore, h⟩ := attempt_bind_eq_ok h
  cases h
  rfl

/-! ## Runs -/

/-- What init fixes for the whole run, and the ring as the accepted history. -/
structure FirInvariant (arguments : FirArguments Q) (ctx : FirContext Q) (history : List Q) :
    Prop where
  coefficients_eq : ctx.coefficients = arguments.coefficients
  taps_eq : ctx.taps = arguments.taps
  address_eq : ctx.state.address = arguments.state.address
  ring : RingHolds FilterFormat.zero ctx.state.cells ctx.head ctx.taps history

theorem Buffer.clear_cells (buffer : Buffer Q) {count i : ℕ} (hi : i < count) :
    (buffer.clear count).cells i = FilterFormat.zero :=
  if_pos hi

theorem firInit_invariant {wide : Bool} {self : Extent} {arguments : FirArguments Q}
    {ctx : FirContext Q} (h : firInit wide self arguments = .ok ctx) :
    FirInvariant arguments ctx [] := by
  have hspec : Ensures (firInit wide self arguments) (fun ctx => FirInvariant arguments ctx [])
      fun _ => True := by
    apply Ensures.ite
    · exact fun _ => trivial
    · intro _
      cases hsize : arraySize wide arguments.taps (FilterFormat.scalarBytes Q) with
      | error status => trivial
      | ok bytes =>
          cases arraySize wide arguments.taps 8 with
          | error status => trivial
          | ok coefficientBytes =>
              apply Ensures.ite
              · exact fun _ => trivial
              · intro _
                apply Ensures.ite
                · exact fun _ => trivial
                · intro _
                  refine ⟨rfl, rfl, rfl, ?_⟩
                  exact RingHolds.clear (arraySize_eq_ok hsize).1 fun i hi =>
                    Buffer.clear_cells _ hi
  exact hspec.of_eq_ok h

namespace FirInvariant

variable {arguments : FirArguments Q} {ctx : FirContext Q} {history : List Q}

theorem reset (h : FirInvariant arguments ctx history) {self : Extent} {ctx' : FirContext Q}
    (hreset : firReset self ctx = .ok ctx') : FirInvariant arguments ctx' [] := by
  rw [firReset] at hreset
  split at hreset
  · cases hreset
  · cases hreset
    refine ⟨h.coefficients_eq, h.taps_eq, h.address_eq, ?_⟩
    have hpos := h.ring.head_lt
    exact RingHolds.clear (by dsimp only; omega) fun i hi => Buffer.clear_cells _ hi

theorem push (h : FirInvariant arguments ctx history) (input : Q) :
    FirInvariant arguments (firPush ctx input) (input :: history) where
  coefficients_eq := h.coefficients_eq
  taps_eq := h.taps_eq
  address_eq := h.address_eq
  ring := h.ring.push input

end FirInvariant

theorem firRun_invariant {wide : Bool} {self : Extent} {arguments : FirArguments Q}
    {ctx : FirContext Q} {history : List Q}
    (hrun : (firFilter Q wide self).HistoryRun arguments ctx history) :
    FirInvariant arguments ctx history := by
  apply Filter.HistoryRun.invariant (Filter.safe_of_step (firStep_transaction (Q := Q) self))
    (FirInvariant arguments) _ _ _ hrun
  · exact fun ctx h => firInit_invariant h
  · exact fun _ ctx ctx' history hinv h => hinv.reset h
  · intro input output m m' history hinv h
    rw [firStep_ok h]
    exact hinv.push input

/-- Over every run: a step succeeds exactly when the exact sum is at most one in
magnitude and the accumulator can hold every partial sum, and it then outputs
the sum rounded once, with the endpoint stored as the largest code. -/
theorem fir_step_rounds_exact_sum_once (wide : Bool) (self : Extent)
    (arguments : FirArguments Q) {ctx : FirContext Q} {history : List Q}
    (hrun : (firFilter Q wide self).HistoryRun arguments ctx history) {output : ℕ}
    (hpointers : FirPointers self arguments output) (input cell : Q) :
    ((∃ m, firStep self input output ⟨ctx, (), cell⟩ = (.ok (), m)) ↔
      |firExact arguments.coefficients.cells arguments.taps (input :: history)| ≤ 1 ∧
        ∀ k ≤ arguments.taps,
          Accum.Fits (firPartial arguments.coefficients.cells (input :: history) k)) ∧
    ∀ m, firStep self input output ⟨ctx, (), cell⟩ = (.ok (), m) →
      (QFormat.widen m.output).toInt = endpoint (QFormat.qBits Q).toNat (roundAway
        (firExact arguments.coefficients.cells arguments.taps (input :: history) *
          2 ^ (QFormat.qBits Q).toNat)) := by
  have hinv := firRun_invariant hrun
  have hsum := firResult_spec hinv.ring input
  have hretained := hpointers.2
  rw [← hinv.taps_eq, ← hinv.coefficients_eq] at hretained
  rw [Buffer.extent, ← hinv.address_eq] at hretained
  rw [firStep_eq input cell hpointers.1 hretained]
  rw [hinv.taps_eq, hinv.coefficients_eq] at hsum
  have hmagnitude : ∀ n : ℤ, |(n : ℚ) / 2 ^ 62| ≤ 1 ↔ |n| ≤ 2 ^ 62 := by
    intro n
    rw [abs_div, abs_of_pos (show (0 : ℚ) < 2 ^ 62 by positivity), div_le_one (by positivity)]
    exact_mod_cast Iff.rfl
  have hcode : ∀ n : ℤ, quantizedCode (QFormat.qBits Q).toNat n =
      endpoint (QFormat.qBits Q).toNat
        (roundAway ((n : ℚ) / 2 ^ 62 * 2 ^ (QFormat.qBits Q).toNat)) := by
    intro n
    have hbits := (qBits_bounds Q).2
    have hsplit : (2 : ℚ) ^ 62 =
        2 ^ (62 - (QFormat.qBits Q).toNat) * 2 ^ (QFormat.qBits Q).toNat := by
      rw [← pow_add, Nat.sub_add_cancel (by omega)]
    rw [quantizedCode, hsplit, div_mul_eq_mul_div, mul_div_mul_right _ _ (by positivity)]
  rw [firExact_eq, hmagnitude, ← hcode]
  cases hresult : firSum ctx input >>= fun accumulator =>
      checked (linearsAccumToQ accumulator (some (FilterFormat.zero : Q))) with
  | ok result =>
      obtain ⟨haccept, hvalue⟩ := hsum.of_eq_ok hresult
      refine ⟨⟨fun _ => haccept, fun _ => ⟨_, rfl⟩⟩, fun m hm => ?_⟩
      cases hm
      exact hvalue
  | error status =>
      have hreject := hsum.of_eq_error hresult
      refine ⟨⟨?_, fun h => absurd h hreject⟩, fun m hm => ?_⟩
      · rintro ⟨m, hm⟩
        cases hm
      · cases hm

/-- Two taps of one half, after one step from a ring that held other data. -/
theorem fir_step_rounds_exact_sum_once_two_taps :
    ∃ m, firStep ⟨1024, 32⟩ (3 : Int16) 16384
        ⟨firPush ⟨⟨4096, fun _ => 1073741824⟩, Buffer.clear ⟨8192, fun _ => 7⟩ 2, 2, 0⟩ 100, (), 0⟩ =
          (.ok (), m) ∧
      (QFormat.widen m.output).toInt =
        endpoint 15 (roundAway (firExact (fun _ => 1073741824) 2 [(3 : Int16), 100] * 2 ^ 15)) := by
  have hinit : (firFilter Int16 true ⟨1024, 32⟩).init
      (⟨⟨4096, fun _ => 1073741824⟩, 2, ⟨8192, fun _ => 7⟩, 2⟩ : FirArguments Int16) =
      .ok ⟨⟨4096, fun _ => 1073741824⟩, Buffer.clear ⟨8192, fun _ => 7⟩ 2, 2, 0⟩ := rfl
  have hstep : firStep ⟨1024, 32⟩ (100 : Int16) 16384
      ⟨⟨⟨4096, fun _ => 1073741824⟩, Buffer.clear ⟨8192, fun _ => 7⟩ 2, 2, 0⟩, (), 0⟩ =
      (.ok (), ⟨firPush ⟨⟨4096, fun _ => 1073741824⟩, Buffer.clear ⟨8192, fun _ => 7⟩ 2, 2, 0⟩ 100,
        (), 50⟩) := by rfl
  have hnext : firStep ⟨1024, 32⟩ (3 : Int16) 16384
      ⟨firPush ⟨⟨4096, fun _ => 1073741824⟩, Buffer.clear ⟨8192, fun _ => 7⟩ 2, 2, 0⟩ 100, (), 0⟩ =
      (.ok (), ⟨firPush (firPush
        ⟨⟨4096, fun _ => 1073741824⟩, Buffer.clear ⟨8192, fun _ => 7⟩ 2, 2, 0⟩ 100) 3, (), 52⟩) := by
    rfl
  exact ⟨_, hnext, (fir_step_rounds_exact_sum_once true ⟨1024, 32⟩ _
    ((Filter.HistoryRun.init hinit).accepted hstep) ⟨rfl, rfl⟩ 3 0).2 _ hnext⟩

end Xhive.Filters
