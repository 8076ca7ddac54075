import Xhive.Filters.FirExact
import Mathlib.Algebra.BigOperators.Group.List.Basic

/-!
# The moving average is the once-rounded mean of its window

The running sum is exact: a step takes the sample under the head out of it and
puts the new one in, and the sum of a full window is far inside the accumulator
range, so it neither drifts nor overflows.
-/

namespace Xhive.Filters

open Xhive.Support Xhive.Linears Procedure

variable {Q : Type} [FilterFormat Q]

/-- The raw codes of the latest `window` entries, zero where there is none. -/
def windowCodes (window : ℕ) (samples : List Q) : List ℤ :=
  (List.range window).map fun i =>
    (QFormat.widen (samples.getD i FilterFormat.zero)).toInt

/-- The step is given pointers it accepts. -/
def MovingAveragePointers (self : Extent) (arguments : MovingAverageArguments Q) (output : ℕ) :
    Prop :=
  checkOutput self ⟨output, FilterFormat.scalarBytes Q⟩ = .ok () ∧
    checkRetained ⟨output, FilterFormat.scalarBytes Q⟩
      [arguments.state.extent arguments.window (FilterFormat.scalarBytes Q)] = .ok ()

/-! ## Codes and loaded values -/

theorem abs_toInt_load_le (x : Q) : |(FilterFormat.load x).toInt| ≤ 2 ^ 31 := by
  have hbits := (qBits_bounds Q).2
  have hlow := QFormat.le_toInt_widen x
  have hhigh := QFormat.toInt_widen_lt x
  have hsplit : (2 : ℤ) ^ 31 = 2 ^ (QFormat.qBits Q).toNat * 2 ^ (31 - (QFormat.qBits Q).toNat) := by
    rw [← pow_add, Nat.add_sub_cancel' hbits]
  rw [FilterFormat.toInt_load, abs_mul, abs_of_pos (show (0 : ℤ) < 2 ^ (31 - _) by positivity),
    hsplit]
  apply mul_le_mul_of_nonneg_right _ (by positivity)
  rw [abs_le]
  exact ⟨hlow, hhigh.le⟩

theorem abs_sum_load_le (l : List Q) :
    |(l.map fun x => (FilterFormat.load x).toInt).sum| ≤ l.length * 2 ^ 31 := by
  induction l with
  | nil => simp
  | cons x l ih =>
      have hx := abs_toInt_load_le x
      have htri := abs_add_le (FilterFormat.load x).toInt
        (l.map fun x => (FilterFormat.load x).toInt).sum
      rw [List.map_cons, List.sum_cons, List.length_cons]
      push_cast
      omega

/-! ## The invariant -/

/-- The widened contents of the ring. -/
def ringSum (ctx : MovingAverageContext Q) : ℤ :=
  ((List.range ctx.window).map fun i => (FilterFormat.load (ctx.state.cells i)).toInt).sum

structure MovingAverageInvariant (wide : Bool) (arguments : MovingAverageArguments Q)
    (ctx : MovingAverageContext Q) (history : List Q) : Prop where
  window_eq : ctx.window = arguments.window
  window_le : ctx.window ≤ sizeMax wide
  address_eq : ctx.state.address = arguments.state.address
  ring : RingHolds FilterFormat.zero ctx.state.cells ctx.head ctx.window history
  sum_eq : ctx.sum.toInt = 2 ^ 31 * ringSum ctx

/-- The context after a successful step. -/
def movingAveragePush (ctx : MovingAverageContext Q) (input : Q) (sum : Accum) :
    MovingAverageContext Q :=
  { ctx with state := ctx.state.set ctx.head input, sum := sum, head := ringNext ctx.head ctx.window }

theorem ringSum_push {ctx : MovingAverageContext Q} (hhead : ctx.head < ctx.window) (input : Q)
    (sum : Accum) :
    ringSum (movingAveragePush ctx input sum) = ringSum ctx -
      (FilterFormat.load (ctx.state.cells ctx.head)).toInt + (FilterFormat.load input).toInt := by
  have hsplit : ∀ f : ℕ → ℤ, ((List.range ctx.window).map f).sum =
      ∑ i ∈ Finset.range ctx.window, f i := by
    intro f
    rfl
  have hmem : ctx.head ∈ Finset.range ctx.window := Finset.mem_range.mpr hhead
  rw [ringSum, ringSum]
  change ((List.range ctx.window).map fun i => (FilterFormat.load
    (Function.update ctx.state.cells ctx.head input i)).toInt).sum = _
  rw [hsplit, hsplit, ← Finset.add_sum_erase _ _ hmem, ← Finset.add_sum_erase _ _ hmem,
    Function.update_self]
  have hrest : ∀ i ∈ (Finset.range ctx.window).erase ctx.head,
      (FilterFormat.load (Function.update ctx.state.cells ctx.head input i)).toInt =
        (FilterFormat.load (ctx.state.cells i)).toInt := by
    intro i hi
    rw [Function.update_of_ne (Finset.ne_of_mem_erase hi)]
  rw [Finset.sum_congr rfl hrest]
  ring

theorem ringSum_clear {ctx : MovingAverageContext Q}
    (hcells : ∀ i < ctx.window, ctx.state.cells i = FilterFormat.zero) : ringSum ctx = 0 := by
  rw [ringSum]
  apply List.sum_eq_zero
  intro value hvalue
  obtain ⟨i, hi, rfl⟩ := List.mem_map.mp hvalue
  rw [hcells i (List.mem_range.mp hi), FilterFormat.toInt_load, FilterFormat.toInt_widen_zero,
    zero_mul]

/-- The ring sum in terms of the latest entries. -/
theorem ringSum_eq {ctx : MovingAverageContext Q} {history : List Q}
    (hring : RingHolds FilterFormat.zero ctx.state.cells ctx.head ctx.window history) :
    ringSum ctx = (windowCodes ctx.window history).sum * 2 ^ (31 - (QFormat.qBits Q).toNat) := by
  have hperm := (hring.perm.map fun x => (FilterFormat.load x).toInt).sum_eq
  rw [List.map_map, List.map_map] at hperm
  rw [ringSum, windowCodes, ← List.sum_map_mul_right]
  simp only [← FilterFormat.toInt_load]
  exact hperm

theorem abs_ringSum_le (ctx : MovingAverageContext Q) : |ringSum ctx| ≤ ctx.window * 2 ^ 31 := by
  have hle := abs_sum_load_le ((List.range ctx.window).map ctx.state.cells)
  rw [List.map_map, List.length_map, List.length_range] at hle
  exact hle

/-! ## The step -/

section Step

variable {wide : Bool} {arguments : MovingAverageArguments Q} {ctx : MovingAverageContext Q}
  {history : List Q}

/-- The sum update cannot leave the accumulator and stays exact. -/
theorem movingAverageSum_exact (h : MovingAverageInvariant wide arguments ctx history)
    (input : Q) :
    ∃ sum, movingAverageSum ctx input = .ok sum ∧
      sum.toInt = 2 ^ 31 * ringSum (movingAveragePush ctx input sum) := by
  have hwindow := (h.window_le.trans_lt (sizeMax_lt wide)).le
  have hring := abs_ringSum_le ctx
  have hold := abs_toInt_load_le (ctx.state.cells ctx.head)
  have hnew := abs_toInt_load_le input
  have hcap : (ctx.window : ℤ) * 2 ^ 31 ≤ 2 ^ 64 * 2 ^ 31 := by
    apply mul_le_mul_of_nonneg_right _ (by positivity)
    exact_mod_cast hwindow
  rw [abs_le] at hring hold hnew
  have hmsu := ensures_msu ctx.sum (FilterFormat.load (ctx.state.cells ctx.head)) fixedOne
  rw [movingAverageSum]
  rw [h.sum_eq, toInt_fixedOne] at hmsu
  cases hfirst : checked (linearsFixedMsu (some ctx.sum)
      (FilterFormat.load (ctx.state.cells ctx.head)) fixedOne) with
  | error status =>
      rw [hfirst] at hmsu
      refine absurd ?_ hmsu.2
      constructor <;> omega
  | ok first =>
      rw [hfirst] at hmsu
      have hmac := ensures_mac first (FilterFormat.load input) fixedOne
      rw [hmsu.2, toInt_fixedOne] at hmac
      cases hsecond : checked (linearsFixedMac (some first) (FilterFormat.load input)
          fixedOne) with
      | error status =>
          rw [hsecond] at hmac
          refine absurd ?_ hmac.2
          constructor <;> omega
      | ok sum =>
          rw [hsecond] at hmac
          refine ⟨sum, hsecond, ?_⟩
          rw [hmac.2, ringSum_push h.ring.head_lt]
          ring

theorem MovingAverageInvariant.push (h : MovingAverageInvariant wide arguments ctx history)
    {input : Q} {sum : Accum} (hsum : movingAverageSum ctx input = .ok sum) :
    MovingAverageInvariant wide arguments (movingAveragePush ctx input sum) (input :: history) where
  window_eq := h.window_eq
  window_le := h.window_le
  address_eq := h.address_eq
  ring := h.ring.push input
  sum_eq := by
    obtain ⟨sum', hsum', hvalue⟩ := movingAverageSum_exact h input
    rw [hsum] at hsum'
    cases hsum'
    exact hvalue

/-- A mean of codes is itself within the codes, so no endpoint is involved. -/
theorem meanCode_windowCodes {window : ℕ} (hwindow : 0 < window) (samples : List Q) :
    meanCode (QFormat.qBits Q).toNat window (2 ^ 31 *
        ((windowCodes window samples).sum * 2 ^ (31 - (QFormat.qBits Q).toNat))) =
      roundAway (((windowCodes window samples).sum : ℚ) / window) := by
  have hbits := qBits_bounds Q
  have hpos : (0 : ℚ) < window := by exact_mod_cast hwindow
  have hmax : (windowCodes window samples).sum ≤ window * (2 ^ (QFormat.qBits Q).toNat - 1) := by
    have hle := List.sum_le_card_nsmul (windowCodes window samples)
      (2 ^ (QFormat.qBits Q).toNat - 1) fun code hcode => by
        obtain ⟨i, -, rfl⟩ := List.mem_map.mp hcode
        have hlt := QFormat.toInt_widen_lt (samples.getD i FilterFormat.zero)
        omega
    rwa [windowCodes, List.length_map, List.length_range, nsmul_eq_mul] at hle
  have hscale : ((2 ^ 31 * ((windowCodes window samples).sum *
      2 ^ (31 - (QFormat.qBits Q).toNat)) : ℤ) : ℚ) /
      (window * 2 ^ (62 - (QFormat.qBits Q).toNat)) =
      ((windowCodes window samples).sum : ℚ) / window := by
    have hsplit : (2 : ℚ) ^ (62 - (QFormat.qBits Q).toNat) =
        2 ^ 31 * 2 ^ (31 - (QFormat.qBits Q).toNat) := by
      rw [← pow_add]
      congr 1
      omega
    generalize (windowCodes window samples).sum = n
    rw [hsplit, Int.cast_mul, Int.cast_mul, mul_left_comm, Int.cast_pow, Int.cast_pow,
      Int.cast_ofNat, mul_div_mul_right _ _ (by positivity)]
  have hround : roundAway (((windowCodes window samples).sum : ℚ) / window) ≤
      2 ^ (QFormat.qBits Q).toNat - 1 := by
    apply roundAway_le
    rw [div_le_iff₀ hpos]
    have hcast : ((windowCodes window samples).sum : ℚ) ≤
        ((window * (2 ^ (QFormat.qBits Q).toNat - 1) : ℤ) : ℚ) := by exact_mod_cast hmax
    calc
      ((windowCodes window samples).sum : ℚ) ≤ _ := hcast
      _ = ((2 ^ (QFormat.qBits Q).toNat - 1 : ℤ) : ℚ) * window := by
        push_cast
        ring
  rw [meanCode, hscale, endpoint, if_neg (by omega)]

/-- After the pointer checks a step cannot fail. -/
theorem movingAverageStep_eq (h : MovingAverageInvariant wide arguments ctx history)
    {self : Extent} {output : ℕ} (hpointers : MovingAveragePointers self arguments output)
    (input cell : Q) :
    ∃ sum result, movingAverageStep self input output ⟨ctx, (), cell⟩ =
        (.ok (), ⟨movingAveragePush ctx input sum, (), result⟩) ∧
      movingAverageSum ctx input = .ok sum ∧
      (QFormat.widen result).toInt =
        roundAway (((windowCodes ctx.window (input :: history)).sum : ℚ) / ctx.window) := by
  obtain ⟨sum, hsum, hvalue⟩ := movingAverageSum_exact h input
  have hnext := h.push hsum
  have hwindow : 0 < ctx.window := by
    have hlt := h.ring.head_lt
    omega
  have hlt := h.window_le.trans_lt (sizeMax_lt wide)
  have hcount : (UInt64.ofNat ctx.window).toNat = ctx.window := by
    rw [UInt64.toNat_ofNat', Nat.mod_eq_of_lt hlt]
  have hne : UInt64.ofNat ctx.window ≠ 0 := by
    rw [ne_eq, ← UInt64.toNat_inj, hcount, UInt64.toNat_zero]
    omega
  have hrange : |sum.toInt| ≤ (UInt64.ofNat ctx.window).toNat * 2 ^ 62 := by
    have hle := abs_ringSum_le (movingAveragePush ctx input sum)
    have hsame : (movingAveragePush ctx input sum).window = ctx.window := rfl
    rw [hsame] at hle
    rw [hcount, hvalue, abs_mul, abs_of_pos (show (0 : ℤ) < 2 ^ 31 by norm_num)]
    omega
  obtain ⟨result, hmean, hcode⟩ :=
    linearsAccumMeanQ_eq hne (FilterFormat.zero : Q) hrange
  refine ⟨sum, result, ?_, hsum, ?_⟩
  · have hretained := hpointers.2
    rw [Buffer.extent, ← h.address_eq, ← h.window_eq] at hretained
    have hcall : checked (linearsAccumMeanQ sum (UInt64.ofNat ctx.window)
        (some (FilterFormat.zero : Q))) = .ok result := by
      rw [hmean]
      rfl
    simp only [movingAverageStep, bind_apply, attempt_apply, read_apply, call, hpointers.1,
      Buffer.extent, hretained, hsum, hcall, write_apply]
    rfl
  · rw [hcode, hcount, hvalue, ringSum_eq hnext.ring]
    exact meanCode_windowCodes hwindow (input :: history)

end Step

/-! ## Runs -/

theorem movingAverageInit_invariant {wide : Bool} {self : Extent}
    {arguments : MovingAverageArguments Q} {ctx : MovingAverageContext Q}
    (h : movingAverageInit wide self arguments = .ok ctx) :
    MovingAverageInvariant wide arguments ctx [] := by
  have hspec : Ensures (movingAverageInit wide self arguments)
      (fun ctx => MovingAverageInvariant wide arguments ctx []) fun _ => True := by
    apply Ensures.ite
    · exact fun _ => trivial
    · intro _
      cases hsize : arraySize wide arguments.window (FilterFormat.scalarBytes Q) with
      | error status => trivial
      | ok bytes =>
          obtain ⟨hpos, hle⟩ := arraySize_eq_ok hsize
          apply Ensures.ite
          · exact fun _ => trivial
          · intro _
            apply Ensures.ite
            · exact fun _ => trivial
            · intro _
              exact ⟨rfl, hle.trans (Nat.div_le_self _ _), rfl,
                .clear hpos fun i hi => Buffer.clear_cells _ hi,
                by rw [ringSum_clear fun i hi => Buffer.clear_cells _ hi]; exact Accum.toInt_zero⟩
  exact hspec.of_eq_ok h

theorem MovingAverageInvariant.reset {wide : Bool} {arguments : MovingAverageArguments Q}
    {ctx ctx' : MovingAverageContext Q} {history : List Q}
    (h : MovingAverageInvariant wide arguments ctx history) {self : Extent}
    (hreset : movingAverageReset self ctx = .ok ctx') :
    MovingAverageInvariant wide arguments ctx' [] := by
  have hpos : 0 < ctx.window := by
    have hlt := h.ring.head_lt
    omega
  rw [movingAverageReset] at hreset
  split at hreset
  · cases hreset
  · cases hreset
    refine ⟨h.window_eq, h.window_le, h.address_eq, ?_, ?_⟩
    · exact .clear hpos fun i hi => Buffer.clear_cells _ hi
    · rw [ringSum_clear fun i hi => Buffer.clear_cells _ hi]
      exact Accum.toInt_zero

/-- A step that succeeds was given pointers it accepts. -/
theorem movingAverageStep_pointers {wide : Bool} {arguments : MovingAverageArguments Q}
    {history : List Q} {self : Extent} {input : Q} {output : ℕ}
    {m m' : Memory (MovingAverageContext Q) Unit Q}
    (h : MovingAverageInvariant wide arguments m.ctx history)
    (hstep : movingAverageStep self input output m = (.ok (), m')) :
    MovingAveragePointers self arguments output := by
  obtain ⟨_, hcheck, hstep⟩ := attempt_bind_eq_ok hstep
  rw [read_bind] at hstep
  obtain ⟨_, hretained, -⟩ := attempt_bind_eq_ok hstep
  rw [Buffer.extent, h.address_eq, h.window_eq] at hretained
  exact ⟨hcheck, hretained⟩

/-- The only way a step can fail. -/
theorem movingAverageStep_error {wide : Bool} {arguments : MovingAverageArguments Q}
    {ctx : MovingAverageContext Q} {history : List Q}
    (h : MovingAverageInvariant wide arguments ctx history) {self : Extent} {input cell : Q}
    {output : ℕ} {status : Status} {m : Memory (MovingAverageContext Q) Unit Q}
    (hstep : movingAverageStep self input output ⟨ctx, (), cell⟩ = (.error status, m)) :
    PointerStatus status := by
  cases hcheck : checkOutput self ⟨output, FilterFormat.scalarBytes Q⟩ with
  | error e =>
      simp only [movingAverageStep, bind_apply, attempt_apply, hcheck] at hstep
      cases hstep
      exact checkOutput_error hcheck
  | ok _ =>
      cases hretained : checkRetained ⟨output, FilterFormat.scalarBytes Q⟩
          [ctx.state.extent ctx.window (FilterFormat.scalarBytes Q)] with
      | error e =>
          simp only [movingAverageStep, bind_apply, attempt_apply, read_apply, hcheck,
            hretained] at hstep
          cases hstep
          exact checkRetained_error hretained
      | ok _ =>
          rw [Buffer.extent, h.address_eq, h.window_eq] at hretained
          obtain ⟨sum, result, heq, -⟩ := movingAverageStep_eq h ⟨hcheck, hretained⟩ input cell
          rw [heq] at hstep
          cases hstep

theorem movingAverageRun_invariant {wide : Bool} {self : Extent}
    {arguments : MovingAverageArguments Q} {ctx : MovingAverageContext Q} {history : List Q}
    (hrun : (movingAverageFilter Q wide self).HistoryRun arguments ctx history) :
    MovingAverageInvariant wide arguments ctx history := by
  apply Filter.HistoryRun.invariant
    (Filter.safe_of_step (movingAverageStep_transaction (Q := Q) self))
    (MovingAverageInvariant wide arguments) _ _ _ hrun
  · exact fun ctx h => movingAverageInit_invariant h
  · exact fun _ ctx ctx' history hinv h => hinv.reset h
  · intro input output m m' history hinv hstep
    obtain ⟨sum, result, heq, hsum, -⟩ := movingAverageStep_eq hinv
      (movingAverageStep_pointers hinv hstep) input m.output
    have hctx : m'.ctx = movingAveragePush m.ctx input sum := by
      have heq' := hstep.symm.trans heq
      exact congrArg (fun r => r.2.ctx) heq'
    rw [hctx]
    exact hinv.push hsum

end Xhive.Filters
