import Xhive.Filters.AverageExact
import Xhive.Support.Rearranged

/-!
# The median is the middle of its sorted window

The insertion sort moves a hole down through the workspace.  Filling the hole
with the key is always a rearrangement of the window, and what lies above the
hole is sorted and larger than the key.
-/

namespace Xhive.Filters

open Xhive.Support Xhive.Linears Procedure

variable {Q : Type} [FilterFormat Q]

/-- The step is given pointers it accepts. -/
def MedianPointers (self : Extent) (arguments : MedianArguments Q) (output : ℕ) : Prop :=
  checkOutput self ⟨output, FilterFormat.scalarBytes Q⟩ = .ok () ∧
    checkRetained ⟨output, FilterFormat.scalarBytes Q⟩
      [arguments.state.extent arguments.window (FilterFormat.scalarBytes Q),
        ⟨arguments.workspaceAddress, arguments.window * FilterFormat.scalarBytes Q⟩] = .ok ()

/-- The middle of the sorted codes, or the once-rounded mean of the two middle
codes of an even number of them. -/
def medianCode (codes : List ℤ) : ℤ :=
  let sorted := codes.mergeSort fun a b => decide (a ≤ b)
  if codes.length % 2 = 0 then
    roundAway (((sorted.getD (codes.length / 2 - 1) 0 + sorted.getD (codes.length / 2) 0 : ℤ) : ℚ) /
      2)
  else sorted.getD (codes.length / 2) 0

/-! ## The insertion sort -/

/-- The loaded value of a workspace cell. -/
def loaded (x : Q) : ℤ :=
  (FilterFormat.load x).toInt

theorem compare_nonpos_iff (a b : Int64) : linearsFixedCompare a b ≤ 0 ↔ a.toInt ≤ b.toInt := by
  rw [← not_lt, (linearsFixedCompare_iff a b).1, not_lt, Int64.le_iff_toInt_le]

/-- The state of the inner loop: the hole is at `j`, and filling it with the
key rearranges the original cells. -/
structure Shifting (count i : ℕ) (original : ℕ → Q) (keyScalar : Q) (j : ℕ) (cells : ℕ → Q) :
    Prop where
  place_le : j ≤ i
  rearranged : Rearranged count (Function.update cells j keyScalar) original
  sorted : ∀ a b, a < b → b ≤ i → a ≠ j → b ≠ j → loaded (cells a) ≤ loaded (cells b)
  above : ∀ b, j < b → b ≤ i → loaded keyScalar ≤ loaded (cells b)

/-- Moving the cell below the hole into it moves the hole down. -/
theorem Shifting.shift {count i j : ℕ} {original cells : ℕ → Q} {keyScalar : Q}
    (hi : i < count) (h : Shifting count i original keyScalar (j + 1) cells)
    (hlarge : loaded keyScalar < loaded (cells j)) :
    Shifting count i original keyScalar j (Function.update cells (j + 1) (cells j)) where
  place_le := by
    have := h.place_le
    omega
  rearranged := by
    have hplace := h.place_le
    apply Rearranged.trans _ h.rearranged
    apply Rearranged.exchange (a := j) (b := j + 1) (by omega) (by omega)
    intro k hk
    rw [Equiv.swap_apply_def]
    simp only [Function.update_apply]
    split_ifs <;> first | rfl | omega
  sorted a b hab hb ha hbj := by
    simp only [Function.update_apply]
    split_ifs with h₁ h₂ h₂
    · omega
    · exact h.sorted j b (by omega) hb (by omega) h₂
    · exact h.sorted a j (by omega) (by have := h.place_le; omega) h₁ (by omega)
    · exact h.sorted a b hab hb h₁ h₂
  above b hjb hb := by
    simp only [Function.update_apply]
    split_ifs with heq
    · exact hlarge.le
    · exact h.above b (by omega) hb

/-- The inner loop stops at a place below which everything is at most the key. -/
theorem medianShift_spec {count i : ℕ} {original : ℕ → Q} {keyScalar : Q} (hi : i < count)
    (j : ℕ) (m : Memory (MedianContext Q) (ℕ → Q) Q)
    (h : Shifting count i original keyScalar j m.scratch) :
    ∃ place cells, medianShift (FilterFormat.load keyScalar) j m =
        (.ok place, { m with scratch := cells }) ∧
      Shifting count i original keyScalar place cells ∧
      ∀ a < place, loaded (cells a) ≤ loaded keyScalar := by
  induction j generalizing m with
  | zero => exact ⟨0, m.scratch, rfl, h, fun a ha => absurd ha (Nat.not_lt_zero a)⟩
  | succ j ih =>
      by_cases hstop : linearsFixedCompare (FilterFormat.load (m.scratch j))
          (FilterFormat.load keyScalar) ≤ 0
      · refine ⟨j + 1, m.scratch, ?_, h, fun a ha => ?_⟩
        · rw [medianShift, read_bind, if_pos hstop]
          rfl
        · have hlast : loaded (m.scratch j) ≤ loaded keyScalar := (compare_nonpos_iff _ _).mp hstop
          rcases Nat.lt_succ_iff_lt_or_eq.mp ha with hlt | rfl
          · have hplace := h.place_le
            exact (h.sorted a j hlt (by omega) (by omega) (by omega)).trans hlast
          · exact hlast
      · have hlarge : loaded keyScalar < loaded (m.scratch j) :=
          not_le.mp fun hle => hstop ((compare_nonpos_iff _ _).mpr hle)
        obtain ⟨place, cells, hrun, hpost⟩ :=
          ih (m.mapScratch fun w => Function.update w (j + 1) (w j)) (h.shift hi hlarge)
        refine ⟨place, cells, ?_, hpost⟩
        rw [medianShift, read_bind, if_neg hstop, write_bind]
        exact hrun

/-- Before round `i` the first `i` cells are sorted. -/
structure Sorting (count : ℕ) (original : ℕ → Q) (i : ℕ) (cells : ℕ → Q) : Prop where
  rearranged : Rearranged count cells original
  sorted : ∀ a b, a < b → b < i → loaded (cells a) ≤ loaded (cells b)

theorem medianInsert_spec {count i : ℕ} {original : ℕ → Q} (hi : i < count)
    (m : Memory (MedianContext Q) (ℕ → Q) Q) (h : Sorting count original i m.scratch) :
    ∃ cells, medianInsert i () m = (.ok (), { m with scratch := cells }) ∧
      Sorting count original (i + 1) cells := by
  have hstart : Shifting count i original (m.scratch i) i m.scratch := by
    refine ⟨le_rfl, ?_, fun a b hab hb _ hbi => h.sorted a b hab (by omega), fun b hib hb => ?_⟩
    · rw [Function.update_eq_self]
      exact h.rearranged
    · omega
  obtain ⟨place, cells, hrun, hshift, hbelow⟩ := medianShift_spec hi i m hstart
  refine ⟨Function.update cells place (m.scratch i), ?_, hshift.rearranged, ?_⟩
  · rw [medianInsert, read_bind, bind_ok hrun]
    rfl
  · intro a b hab hb
    simp only [Function.update_apply]
    split_ifs with ha hb' hb'
    · omega
    · exact hshift.above b (by omega) (by omega)
    · exact hbelow a (by omega)
    · exact hshift.sorted a b hab (by omega) ha hb'

/-- The context after a successful step. -/
def medianPush (ctx : MedianContext Q) (input : Q) : MedianContext Q :=
  { ctx with state := ctx.state.set ctx.head input, head := ringNext ctx.head ctx.window }

omit [FilterFormat Q] in
/-- Copying fills the workspace with the window that the step will leave. -/
theorem medianCopy_loop (ctx : MedianContext Q) (input cell : Q) (scratch : ℕ → Q) :
    ∃ cells, repeatFrom (medianCopy input) ctx.window 0 () ⟨ctx, scratch, cell⟩ =
        (.ok (), ⟨ctx, cells, cell⟩) ∧
      ∀ k < ctx.window, cells k = (medianPush ctx input).state.cells k := by
  let inv : ℕ → Unit → Memory (MedianContext Q) (ℕ → Q) Q → Prop := fun i _ m =>
    (m.ctx = ctx ∧ m.output = cell) ∧ ∀ k < i, m.scratch k = (medianPush ctx input).state.cells k
  have hbody : ∀ i u m, 0 ≤ i → i < 0 + ctx.window → inv i u m →
      ∃ u' m', medianCopy input i u m = (.ok u', m') ∧ inv (i + 1) u' m' := by
    rintro i - m - - ⟨⟨hctx, hout⟩, hcells⟩
    refine ⟨(), _, rfl, ⟨hctx, hout⟩, fun k hk => ?_⟩
    change Function.update m.scratch i (if i = m.ctx.head then input else m.ctx.state.cells i) k =
      Function.update ctx.state.cells ctx.head input k
    rw [hctx, Function.update_apply, Function.update_apply]
    by_cases hki : k = i
    · rw [if_pos hki, hki]
    · rw [if_neg hki, hcells k (by omega)]
      exact Function.update_apply ..
  have hinit : inv 0 () ⟨ctx, scratch, cell⟩ :=
    ⟨⟨rfl, rfl⟩, fun k hk => absurd hk (Nat.not_lt_zero k)⟩
  obtain ⟨_, m, hrun, ⟨hctx, hout⟩, hcells⟩ := repeatFrom_total inv ctx.window hinit hbody
  refine ⟨m.scratch, ?_, fun k hk => hcells k (by omega)⟩
  rw [hrun, ← hctx, ← hout]

/-- The outer loop sorts the workspace. -/
theorem medianInsert_loop {count : ℕ} (hcount : 0 < count)
    (m : Memory (MedianContext Q) (ℕ → Q) Q) :
    ∃ cells, repeatFrom medianInsert (count - 1) 1 () m =
        (.ok (), { m with scratch := cells }) ∧
      Sorting count m.scratch count cells := by
  let inv : ℕ → Unit → Memory (MedianContext Q) (ℕ → Q) Q → Prop := fun i _ t =>
    t.visible = m.visible ∧ Sorting count m.scratch i t.scratch
  have hbody : ∀ i u t, 1 ≤ i → i < 1 + (count - 1) → inv i u t →
      ∃ u' t', medianInsert i u t = (.ok u', t') ∧ inv (i + 1) u' t' := by
    rintro i - t - hi ⟨hview, hsorting⟩
    obtain ⟨cells, hrun, hnext⟩ := medianInsert_spec (by omega) t hsorting
    exact ⟨(), _, hrun, hview, hnext⟩
  have hinit : inv 1 () m := ⟨rfl, .of_eq fun _ _ => rfl, fun a b hab hb => by omega⟩
  obtain ⟨_, t, hrun, hview, hsorting⟩ := repeatFrom_total inv (count - 1) hinit hbody
  rw [Nat.add_sub_cancel' hcount] at hsorting
  refine ⟨t.scratch, ?_, hsorting⟩
  have hctx : t.ctx = m.ctx := congrArg Prod.fst hview
  have hout : t.output = m.output := congrArg Prod.snd hview
  rw [hrun, ← hctx, ← hout]

/-! ## The middle -/

theorem pairwise_mergeSort_codes (codes : List ℤ) :
    (codes.mergeSort fun a b => decide (a ≤ b)).Pairwise (· ≤ ·) := by
  have hpair := @List.pairwise_mergeSort ℤ (fun a b => decide (a ≤ b))
    (fun a b c hab hbc => by simp only [decide_eq_true_eq] at *; omega)
    (fun a b => by simp only [Bool.or_eq_true, decide_eq_true_eq]; omega) codes
  simpa using hpair

/-- There is one sorted arrangement of a list. -/
theorem mergeSort_codes_eq {codes sorted : List ℤ} (hperm : codes.Perm sorted)
    (hsorted : sorted.Pairwise (· ≤ ·)) :
    (codes.mergeSort fun a b => decide (a ≤ b)) = sorted :=
  List.Perm.eq_of_pairwise (fun _ _ _ _ hab hba => le_antisymm hab hba)
    (pairwise_mergeSort_codes codes) hsorted ((List.mergeSort_perm _ _).trans hperm)

/-- A sorted workspace lists the sorted codes. -/
theorem sorted_codes {count : ℕ} {original cells : ℕ → Q}
    (h : Sorting count original count cells) :
    (((List.range count).map fun k => (QFormat.widen (original k)).toInt).mergeSort
        fun a b => decide (a ≤ b)) =
      (List.range count).map fun k => (QFormat.widen (cells k)).toInt := by
  have hcode : ∀ x y : Q, loaded x ≤ loaded y →
      (QFormat.widen x).toInt ≤ (QFormat.widen y).toInt := by
    intro x y hxy
    rw [loaded, loaded, FilterFormat.toInt_load, FilterFormat.toInt_load] at hxy
    exact le_of_mul_le_mul_right hxy (by positivity)
  have hperm := h.rearranged.perm.map fun x => (QFormat.widen x).toInt
  rw [List.map_map, List.map_map] at hperm
  apply mergeSort_codes_eq hperm.symm
  rw [List.pairwise_map]
  apply List.Pairwise.imp_of_mem _ List.pairwise_lt_range
  intro a b ha hb hab
  exact hcode _ _ (h.sorted a b hab (List.mem_range.mp hb))

/-- Halving a sum of two loaded values and narrowing the result rounds once. -/
theorem median_mean_rounds_once (left right : Q) :
    endpoint (QFormat.qBits Q).toNat (roundAway
        ((roundAway (((loaded left + loaded right : ℤ) : ℚ) / 2) : ℚ) /
          2 ^ (31 - (QFormat.qBits Q).toNat))) =
      roundAway ((((QFormat.widen left).toInt + (QFormat.widen right).toInt : ℤ) : ℚ) / 2) := by
  have hhigh := QFormat.toInt_widen_lt left
  have hhigh' := QFormat.toInt_widen_lt right
  rw [loaded, loaded, FilterFormat.toInt_load, FilterFormat.toInt_load, ← add_mul]
  generalize (QFormat.widen left).toInt = a at hhigh ⊢
  generalize (QFormat.widen right).toInt = b at hhigh' ⊢
  have hsmall : roundAway (((a + b : ℤ) : ℚ) / 2) ≤ 2 ^ (QFormat.qBits Q).toNat - 1 := by
    apply roundAway_le
    rw [div_le_iff₀ (by norm_num)]
    have hle : a + b ≤ (2 ^ (QFormat.qBits Q).toNat - 1) * 2 := by omega
    exact_mod_cast hle
  have honce : roundAway ((roundAway (((((a + b) * 2 ^ (31 - (QFormat.qBits Q).toNat) : ℤ)) : ℚ) / 2) : ℚ) /
      2 ^ (31 - (QFormat.qBits Q).toNat)) = roundAway (((a + b : ℤ) : ℚ) / 2) := by
    rcases Nat.eq_zero_or_pos (31 - (QFormat.qBits Q).toNat) with hzero | hpos
    · rw [hzero, pow_zero, pow_zero, mul_one, div_one, roundAway_intCast]
    · -- the first division is exact
      have hhalf : (((a + b) * 2 ^ (31 - (QFormat.qBits Q).toNat) : ℤ) : ℚ) / 2 =
          (((a + b) * 2 ^ (31 - (QFormat.qBits Q).toNat - 1) : ℤ) : ℚ) := by
        obtain ⟨k, hk⟩ := Nat.exists_eq_succ_of_ne_zero hpos.ne'
        rw [hk, Nat.succ_sub_one, pow_succ]
        push_cast
        ring
      rw [hhalf, roundAway_intCast, ← hhalf]
      congr 1
      push_cast
      field_simp
  rw [honce, endpoint, if_neg (by omega)]

/-- The fixed-point path of an even window. -/
theorem median_mean_call (left right : Q) :
    ∃ sum mean stored, checked (linearsFixedAdd (FilterFormat.load left)
          (FilterFormat.load right) (some 0)) = .ok sum ∧
      checked (linearsFixedDiv sum (2 * fixedOne) (some sum)) = .ok mean ∧
      checked (FilterFormat.exportFixed mean (some right)) = .ok stored ∧
      (QFormat.widen stored).toInt =
        roundAway ((((QFormat.widen left).toInt + (QFormat.widen right).toInt : ℤ) : ℚ) / 2) := by
  have hleft := abs_le.mp (abs_toInt_load_le left)
  have hright := abs_le.mp (abs_toInt_load_le right)
  have hsum : FitsInt64 (loaded left + loaded right) := by
    rw [loaded, loaded]
    constructor <;> omega
  have htwo : (2 * fixedOne).toInt = 2 * 2 ^ 31 := rfl
  have hmeanAbs : |roundAway (((loaded left + loaded right : ℤ) : ℚ) / 2)| ≤ 2 ^ 31 := by
    apply abs_roundAway_le
    rw [abs_div, abs_two, div_le_iff₀ (by norm_num)]
    have hle : |loaded left + loaded right| ≤ 2 ^ 31 * 2 := by
      rw [abs_le, loaded, loaded]
      constructor <;> omega
    exact_mod_cast hle
  have hmean : FitsInt64 (roundAway (((loaded left + loaded right : ℤ) : ℚ) / 2)) := by
    rw [abs_le] at hmeanAbs
    constructor <;> omega
  have hmeanInt := toInt_ofInt_of_fits hmean
  obtain ⟨stored, hexport, hcode⟩ := FilterFormat.exportFixed_ok
    (Int64.ofInt (roundAway (((loaded left + loaded right : ℤ) : ℚ) / 2))) right
    (by rwa [hmeanInt])
  refine ⟨Int64.ofInt (loaded left + loaded right),
    Int64.ofInt (roundAway (((loaded left + loaded right : ℤ) : ℚ) / 2)), stored, ?_, ?_, ?_, ?_⟩
  · rw [linearsFixedAdd_eq, checked_checkedCall]
    exact fixedResult_of_fits hsum
  · rw [linearsFixedDiv_eq _ _ (by decide), checked_checkedCall, toInt_ofInt_of_fits hsum, htwo]
    have hscale : ((loaded left + loaded right : ℤ) : ℚ) * 2 ^ 31 / ((2 * 2 ^ 31 : ℤ) : ℚ) =
        ((loaded left + loaded right : ℤ) : ℚ) / 2 := by
      generalize loaded left + loaded right = n
      norm_num
      ring
    rw [hscale]
    exact fixedResult_of_fits hmean
  · rw [hexport]
    rfl
  · rw [hcode, hmeanInt]
    exact median_mean_rounds_once left right

/-- The result read from a sorted workspace. -/
theorem medianResult_spec {count : ℕ} {original : ℕ → Q} (hcount : 0 < count)
    {m : Memory (MedianContext Q) (ℕ → Q) Q} (h : Sorting count original count m.scratch) :
    ∃ result, medianResult count m = (.ok result, m) ∧ (QFormat.widen result).toInt =
      medianCode ((List.range count).map fun k => (QFormat.widen (original k)).toInt) := by
  have hget : ∀ k < count, (((List.range count).map fun k =>
      (QFormat.widen (original k)).toInt).mergeSort fun a b => decide (a ≤ b)).getD k 0 =
        (QFormat.widen (m.scratch k)).toInt := by
    intro k hk
    rw [sorted_codes h, List.getD_eq_getElem _ _ (by simpa using hk), List.getElem_map,
      List.getElem_range]
  have hmiddle : count / 2 < count := Nat.div_lt_self hcount (by decide)
  rw [medianCode]
  simp only [List.length_map, List.length_range]
  rw [hget _ hmiddle, hget _ (by omega)]
  by_cases heven : count % 2 = 0
  · obtain ⟨sum, mean, stored, hsum, hmean, hstore, hcode⟩ :=
      median_mean_call (m.scratch (count / 2 - 1)) (m.scratch (count / 2))
    refine ⟨stored, ?_, ?_⟩
    · have htwo : checked (linearsFixedFromInt 2 (some 0)) = .ok (2 * fixedOne) := rfl
      rw [medianResult, read_bind, if_pos heven, read_bind, call_bind_ok htwo, call_bind_ok hsum,
        call_bind_ok hmean, call, attempt_apply, hstore]
    · rw [if_pos heven]
      exact hcode
  · refine ⟨m.scratch (count / 2), ?_, ?_⟩
    · rw [medianResult, read_bind, if_neg heven]
      rfl
    · rw [if_neg heven]

/-! ## The step -/

structure MedianInvariant (arguments : MedianArguments Q) (ctx : MedianContext Q)
    (history : List Q) : Prop where
  window_eq : ctx.window = arguments.window
  address_eq : ctx.state.address = arguments.state.address
  workspace_eq : ctx.workspaceAddress = arguments.workspaceAddress
  ring : RingHolds FilterFormat.zero ctx.state.cells ctx.head ctx.window history

theorem MedianInvariant.push {arguments : MedianArguments Q} {ctx : MedianContext Q}
    {history : List Q} (h : MedianInvariant arguments ctx history) (input : Q) :
    MedianInvariant arguments (medianPush ctx input) (input :: history) where
  window_eq := h.window_eq
  address_eq := h.address_eq
  workspace_eq := h.workspace_eq
  ring := h.ring.push input

theorem medianCode_perm {l l' : List ℤ} (h : l.Perm l') : medianCode l = medianCode l' := by
  have hsorted := mergeSort_codes_eq (h.trans (List.mergeSort_perm l' _).symm)
    (pairwise_mergeSort_codes l')
  rw [medianCode, medianCode, hsorted, h.length_eq]

/-- After the pointer checks a step cannot fail. -/
theorem medianStep_eq {arguments : MedianArguments Q} {ctx : MedianContext Q} {history : List Q}
    (h : MedianInvariant arguments ctx history) {self : Extent} {output : ℕ}
    (hpointers : MedianPointers self arguments output) (input cell : Q) (scratch : ℕ → Q) :
    ∃ cells result, medianStep self input output ⟨ctx, scratch, cell⟩ =
        (.ok (), ⟨medianPush ctx input, cells, result⟩) ∧
      (QFormat.widen result).toInt = medianCode (windowCodes ctx.window (input :: history)) := by
  have hwindow : 0 < ctx.window := by
    have hlt := h.ring.head_lt
    omega
  obtain ⟨copied, hcopy, hcells⟩ := medianCopy_loop ctx input cell scratch
  obtain ⟨sorted, hsort, hsorting⟩ := medianInsert_loop hwindow ⟨ctx, copied, cell⟩
  obtain ⟨result, hresult, hcode⟩ := medianResult_spec (m := ⟨ctx, sorted, cell⟩) hwindow hsorting
  refine ⟨sorted, result, ?_, ?_⟩
  · have hretained := hpointers.2
    rw [Buffer.extent, ← h.address_eq, ← h.window_eq, ← h.workspace_eq] at hretained
    simp only [medianStep, bind_apply, attempt_apply, read_apply, hpointers.1, Buffer.extent,
      hretained, hcopy, hsort, hresult, write_apply]
    rfl
  · rw [hcode]
    apply medianCode_perm
    have hperm := (h.push input).ring.perm.map fun x => (QFormat.widen x).toInt
    rw [List.map_map, List.map_map] at hperm
    apply List.Perm.trans _ hperm
    apply List.Perm.of_eq
    apply List.map_congr_left
    intro k hk
    exact congrArg (fun x => (QFormat.widen x).toInt) (hcells k (List.mem_range.mp hk))

/-! ## Runs -/

theorem medianInit_invariant {wide : Bool} {self : Extent} {arguments : MedianArguments Q}
    {ctx : MedianContext Q} (h : medianInit wide self arguments = .ok ctx) :
    MedianInvariant arguments ctx [] := by
  have hspec : Ensures (medianInit wide self arguments)
      (fun ctx => MedianInvariant arguments ctx []) fun _ => True := by
    apply Ensures.ite
    · exact fun _ => trivial
    · intro _
      cases hsize : arraySize wide arguments.window (FilterFormat.scalarBytes Q) with
      | error status => trivial
      | ok bytes =>
          apply Ensures.ite
          · exact fun _ => trivial
          · intro _
            apply Ensures.ite
            · exact fun _ => trivial
            · intro _
              exact ⟨rfl, rfl, rfl,
                .clear (arraySize_eq_ok hsize).1 fun i hi => Buffer.clear_cells _ hi⟩
  exact hspec.of_eq_ok h

theorem MedianInvariant.reset {arguments : MedianArguments Q} {ctx ctx' : MedianContext Q}
    {history : List Q} (h : MedianInvariant arguments ctx history) {self : Extent}
    (hreset : medianReset self ctx = .ok ctx') : MedianInvariant arguments ctx' [] := by
  have hpos : 0 < ctx.window := by
    have hlt := h.ring.head_lt
    omega
  rw [medianReset] at hreset
  split at hreset
  · cases hreset
  · cases hreset
    exact ⟨h.window_eq, h.address_eq, h.workspace_eq,
      .clear hpos fun i hi => Buffer.clear_cells _ hi⟩

/-- A step that succeeds was given pointers it accepts. -/
theorem medianStep_pointers {arguments : MedianArguments Q} {history : List Q} {self : Extent}
    {input : Q} {output : ℕ} {m m' : Memory (MedianContext Q) (ℕ → Q) Q}
    (h : MedianInvariant arguments m.ctx history)
    (hstep : medianStep self input output m = (.ok (), m')) :
    MedianPointers self arguments output := by
  obtain ⟨_, hcheck, hstep⟩ := attempt_bind_eq_ok hstep
  rw [read_bind] at hstep
  obtain ⟨_, hretained, -⟩ := attempt_bind_eq_ok hstep
  rw [Buffer.extent, h.address_eq, h.window_eq, h.workspace_eq] at hretained
  exact ⟨hcheck, hretained⟩

/-- The only way a step can fail. -/
theorem medianStep_error {arguments : MedianArguments Q} {ctx : MedianContext Q}
    {history : List Q} (h : MedianInvariant arguments ctx history) {self : Extent}
    {input cell : Q} {output : ℕ} {scratch : ℕ → Q} {status : Status}
    {m : Memory (MedianContext Q) (ℕ → Q) Q}
    (hstep : medianStep self input output ⟨ctx, scratch, cell⟩ = (.error status, m)) :
    PointerStatus status := by
  cases hcheck : checkOutput self ⟨output, FilterFormat.scalarBytes Q⟩ with
  | error e =>
      simp only [medianStep, bind_apply, attempt_apply, hcheck] at hstep
      cases hstep
      exact checkOutput_error hcheck
  | ok _ =>
      cases hretained : checkRetained ⟨output, FilterFormat.scalarBytes Q⟩
          [ctx.state.extent ctx.window (FilterFormat.scalarBytes Q),
            ⟨ctx.workspaceAddress, ctx.window * FilterFormat.scalarBytes Q⟩] with
      | error e =>
          simp only [medianStep, bind_apply, attempt_apply, read_apply, hcheck,
            hretained] at hstep
          cases hstep
          exact checkRetained_error hretained
      | ok _ =>
          rw [Buffer.extent, h.address_eq, h.window_eq, h.workspace_eq] at hretained
          obtain ⟨cells, result, heq, -⟩ :=
            medianStep_eq h ⟨hcheck, hretained⟩ input cell scratch
          rw [heq] at hstep
          cases hstep

theorem medianRun_invariant {wide : Bool} {self : Extent} {arguments : MedianArguments Q}
    {ctx : MedianContext Q} {history : List Q}
    (hrun : (medianFilter Q wide self).HistoryRun arguments ctx history) :
    MedianInvariant arguments ctx history := by
  apply Filter.HistoryRun.invariant (medianFilter_safe Q wide self)
    (MedianInvariant arguments) _ _ _ hrun
  · exact fun ctx h => medianInit_invariant h
  · exact fun _ ctx ctx' history hinv h => hinv.reset h
  · intro input output m m' history hinv hstep
    obtain ⟨cells, result, heq, -⟩ := medianStep_eq hinv
      (medianStep_pointers hinv hstep) input m.output m.scratch
    have hctx : m'.ctx = medianPush m.ctx input := by
      have heq' := hstep.symm.trans heq
      exact congrArg (fun r => r.2.ctx) heq'
    rw [hctx]
    exact hinv.push input

theorem ringNext_eq_mod {head count : ℕ} (h : head < count) :
    ringNext head count = (head + 1) % count := by
  rw [ringNext]
  split
  · rename_i heq
    rw [heq, Nat.mod_self]
  · rw [Nat.mod_eq_of_lt (by omega)]

/-- Over every run of the two window filters: the moving average keeps its exact
sum and a cyclic head and outputs the once-rounded mean of the last `window`
inputs; the median outputs their middle; and only the pointer checks can make a
step of either fail. -/
theorem window_filters_exact (Q : Type) [FilterFormat Q] (wide : Bool) (self : Extent) :
    (∀ (arguments : MovingAverageArguments Q) (ctx : MovingAverageContext Q) (history : List Q),
      (movingAverageFilter Q wide self).HistoryRun arguments ctx history →
        (ctx.window = arguments.window ∧ ctx.head < ctx.window ∧
          ctx.sum.toInt = 2 ^ 31 * ringSum ctx) ∧
        ∀ (input cell : Q) (output : ℕ),
          (∀ status m, movingAverageStep self input output ⟨ctx, (), cell⟩ = (.error status, m) →
            status ≠ .errorRange ∧ status ≠ .errorDomain) ∧
          (MovingAveragePointers self arguments output →
            ∃ m, movingAverageStep self input output ⟨ctx, (), cell⟩ = (.ok (), m) ∧
              m.ctx.head = (ctx.head + 1) % arguments.window ∧
              (QFormat.widen m.output).toInt =
                roundAway (((windowCodes arguments.window (input :: history)).sum : ℚ) /
                  arguments.window))) ∧
    (∀ (arguments : MedianArguments Q) (ctx : MedianContext Q) (history : List Q),
      (medianFilter Q wide self).HistoryRun arguments ctx history →
        ∀ (input cell : Q) (scratch : ℕ → Q) (output : ℕ),
          (∀ status m, medianStep self input output ⟨ctx, scratch, cell⟩ = (.error status, m) →
            status ≠ .errorRange ∧ status ≠ .errorDomain) ∧
          (MedianPointers self arguments output →
            ∃ m, medianStep self input output ⟨ctx, scratch, cell⟩ = (.ok (), m) ∧
              (QFormat.widen m.output).toInt =
                medianCode (windowCodes arguments.window (input :: history)))) := by
  have hstatus : ∀ status, PointerStatus status →
      status ≠ .errorRange ∧ status ≠ .errorDomain := by
    rintro status (rfl | rfl) <;> exact ⟨nofun, nofun⟩
  constructor
  · intro arguments ctx history hrun
    have hinv := movingAverageRun_invariant hrun
    refine ⟨⟨hinv.window_eq, hinv.ring.head_lt, hinv.sum_eq⟩, fun input cell output =>
      ⟨fun status m hstep => hstatus status (movingAverageStep_error hinv hstep), ?_⟩⟩
    intro hpointers
    obtain ⟨sum, result, hstep, -, hcode⟩ := movingAverageStep_eq hinv hpointers input cell
    rw [hinv.window_eq] at hcode
    refine ⟨_, hstep, ?_, hcode⟩
    rw [← hinv.window_eq]
    exact ringNext_eq_mod hinv.ring.head_lt
  · intro arguments ctx history hrun input cell scratch output
    have hinv := medianRun_invariant hrun
    refine ⟨fun status m hstep => hstatus status (medianStep_error hinv hstep), ?_⟩
    intro hpointers
    obtain ⟨cells, result, hstep, hcode⟩ := medianStep_eq hinv hpointers input cell scratch
    rw [hinv.window_eq] at hcode
    exact ⟨_, hstep, hcode⟩

end Xhive.Filters
