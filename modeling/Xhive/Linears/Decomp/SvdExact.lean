import Xhive.Linears.Decomp.LuExact
import Xhive.Linears.Decomp.SvdSweeps

/-!
# The Jacobi SVD over the real numbers

After the sweeps the columns of `b` are orthogonal.  They are sorted, divided by
their norms, and zero columns are completed to an orthonormal family, so the
three factors multiply to the input.
-/

namespace Xhive.Linears

open Xhive.Support Matrix

variable (fixed : Bool) (epsilon : ℝ) {rows columns : ℕ}

/-! ## Completing a zero column -/

/-- The columns before `k` are orthonormal. -/
def OrthonormalColumns (rows k : ℕ) (b : Grid ℝ) : Prop :=
  ∀ i j, i < k → j < k → columnDot rows b i j = if i = j then 1 else 0

/-- Projecting column `column` only changes that column. -/
theorem svdProject_exact {column previous : ℕ} (hne : previous ≠ column) (rows : ℕ) (b : Grid ℝ) :
    Ensures (svdProject (exactAdapter ℝ fixed Real.sqrt epsilon) rows column previous b)
      (fun t => (∀ row < rows, t (row, column) =
          b (row, column) - columnDot rows b previous column * b (row, previous)) ∧
        ∀ row j, j ≠ column → t (row, j) = b (row, j)) (fun _ => False) := by
  rw [svdProject, exact_dot]
  refine Ensures.bind (ensures_ok.mpr ?_)
  simp only [exact_subProduct]
  refine (Ensures.fillRange ?_ ?_ ?_).imp ?_
  · intro i j _ hlt _ heq
    exact hlt.ne (congrArg Prod.fst heq)
  · intro row t _ _ hframe
    rw [hframe (row, column) fun i _ hlt heq => hlt.ne' (congrArg Prod.fst heq),
      hframe (row, previous) fun i _ _ heq => hne (congrArg Prod.snd heq)]
  · intro row e _ _ heq
    exact absurd heq nofun
  · rintro t ⟨hvalue, hframe⟩
    refine ⟨fun row hrow => (Except.ok.inj (hvalue row (Nat.zero_le row) hrow)).symm,
      fun row j hj => hframe (row, j) fun i _ _ heq => hj (congrArg Prod.snd heq)⟩

/-- Both passes leave the residual of the coordinate vector. -/
theorem svdResidual_exact {column c : ℕ} (hc : c < rows) {b : Grid ℝ}
    (horthonormal : OrthonormalColumns rows column b) :
    Ensures (svdResidual (exactAdapter ℝ fixed Real.sqrt epsilon) rows column c b)
      (fun t => (∀ row < rows, t (row, column) = leftover b column c row) ∧
        ∀ row j, j ≠ column → t (row, j) = b (row, j)) (fun _ => False) := by
  -- `k` columns are projected out and the others are untouched
  let inv : ℕ → Grid ℝ → Prop := fun k t =>
    (∀ row < rows, t (row, column) = leftover b k c row) ∧
      ∀ row j, j ≠ column → t (row, j) = b (row, j)
  have hproject : ∀ k k' previous t, k ≤ column → previous < column → inv k t →
      (∀ row, leftover b k' c row = leftover b k c row -
        (if previous < k then 0 else b (c, previous)) * b (row, previous)) →
      Ensures (svdProject (exactAdapter ℝ fixed Real.sqrt epsilon) rows column previous t)
        (inv k') fun _ => False := by
    rintro k k' previous t hk hprevious ⟨hcolumn, hother⟩ hnext
    refine (svdProject_exact fixed epsilon hprevious.ne rows t).imp ?_
    rintro u ⟨hnew, hkept⟩
    have hprojection : columnDot rows t previous column =
        if previous < k then 0 else b (c, previous) := by
      rw [← sum_mul_leftover_of_lt horthonormal hc hk hprevious]
      refine Finset.sum_congr rfl fun row hrow => ?_
      rw [hother row previous hprevious.ne, hcolumn row (Finset.mem_range.mp hrow)]
    refine ⟨fun row hrow => ?_, fun row j hj => ?_⟩
    · rw [hnew row hrow, hprojection, hcolumn row hrow, hother row previous hprevious.ne, hnext]
    · rw [hkept row j hj, hother row j hj]
  refine Ensures.imp (Ensures.forRange (fun pass t => inv (if pass = 0 then 0 else column) t)
    (Nat.zero_le 2) ?_ ?_) fun t h => h
  · refine ⟨fun row _ => ?_, fun row j hj => if_neg hj⟩
    rw [if_pos rfl, leftover, Finset.range_zero, Finset.sum_empty, sub_zero]
    exact if_pos rfl
  · intro pass t _ _ ht
    rw [if_neg (Nat.succ_ne_zero pass)]
    by_cases hfirst : pass = 0
    · rw [if_pos hfirst] at ht
      refine Ensures.forRange (fun previous t => inv previous t) (Nat.zero_le column) ht ?_
      intro previous t _ hprevious ht
      refine hproject previous (previous + 1) previous t hprevious.le hprevious ht fun row => ?_
      rw [leftover_succ, if_neg (lt_irrefl previous)]
    · rw [if_neg hfirst] at ht
      refine Ensures.forRange (fun _ t => inv column t) (Nat.zero_le column) ht ?_
      intro previous t _ hprevious ht
      refine hproject column column previous t le_rfl hprevious ht fun row => ?_
      rw [if_pos hprevious, zero_mul, sub_zero]

/-- What completing a column delivers. -/
structure Completed (rows column : ℕ) (b t : Grid ℝ) : Prop where
  other : ∀ row j, j ≠ column → t (row, j) = b (row, j)
  unit : columnDot rows t column column = 1
  orthogonal : ∀ j < column, columnDot rows t j column = 0

/-- A coordinate is accepted exactly when its residual is long enough. -/
theorem svdTryCoordinate_exact {column c : ℕ} (hc : c < rows) {minimumNorm : ℝ}
    (hminimum : 0 < minimumNorm) {b : Grid ℝ} (horthonormal : OrthonormalColumns rows column b)
    {t : Grid ℝ} (ht : ∀ row j, j ≠ column → t (row, j) = b (row, j)) :
    Ensures (svdTryCoordinate (exactAdapter ℝ fixed Real.sqrt epsilon) rows column minimumNorm c
        (t, false))
      (fun state => if state.2 then Completed rows column b state.1
        else (∀ row j, j ≠ column → state.1 (row, j) = b (row, j)) ∧
          Real.sqrt (∑ row ∈ Finset.range rows, leftover b column c row * leftover b column c row) <
            minimumNorm) (fun _ => False) := by
  have hsame : ∀ row, leftover t column c row = leftover b column c row := by
    intro row
    rw [leftover, leftover]
    congr 1
    refine Finset.sum_congr rfl fun j hj => ?_
    have hj' : j ≠ column := (Finset.mem_range.mp hj).ne
    rw [ht c j hj', ht row j hj']
  have horthonormal' : OrthonormalColumns rows column t := fun i j hi hj => by
    rw [columnDot_congr (fun row _ => ht row i hi.ne) fun row _ => ht row j hj.ne]
    exact horthonormal i j hi hj
  rw [svdTryCoordinate, if_neg Bool.false_ne_true]
  refine (svdResidual_exact fixed epsilon hc horthonormal').seq ?_
  rintro u ⟨hresidual, hother⟩
  have hlength : ∑ row ∈ Finset.range rows, u (row, column) * u (row, column) =
      ∑ row ∈ Finset.range rows, leftover b column c row * leftover b column c row := by
    refine Finset.sum_congr rfl fun row hrow => ?_
    rw [hresidual row (Finset.mem_range.mp hrow), hsame]
  have hkept : ∀ row j, j ≠ column → u (row, j) = b (row, j) := fun row j hj => by
    rw [hother row j hj, ht row j hj]
  rw [real_norm, hlength]
  refine Ensures.bind (ensures_ok.mpr (Ensures.ite (fun hlong => ?_) fun hshort => ?_))
  · have hnonneg : 0 ≤ ∑ row ∈ Finset.range rows,
        leftover b column c row * leftover b column c row :=
      Finset.sum_nonneg fun _ _ => mul_self_nonneg _
    have hpos := hminimum.trans_le hlong
    have hsquare := Real.mul_self_sqrt hnonneg
    generalize Real.sqrt (∑ row ∈ Finset.range rows,
      leftover b column c row * leftover b column c row) = norm at hpos hsquare ⊢
    refine Ensures.seq (Ensures.fillRange_map (fun _ x => x / norm) (fun _ _ _ _ => rfl)
      fun i j _ hlt _ heq => hlt.ne (congrArg Prod.fst heq)) ?_
    rintro w ⟨hdivided, hframe⟩
    rw [ensures_ok, if_pos rfl]
    have hentry : ∀ row < rows, w (row, column) = leftover b column c row / norm := by
      intro row hrow
      rw [hdivided row (Nat.zero_le row) hrow, hresidual row hrow, hsame]
    have hrest : ∀ row j, j ≠ column → w (row, j) = b (row, j) := fun row j hj => by
      rw [hframe (row, j) fun i _ _ heq => hj (congrArg Prod.snd heq), hkept row j hj]
    refine ⟨hrest, ?_, fun j hj => ?_⟩
    · have hterm : ∀ row ∈ Finset.range rows, w (row, column) * w (row, column) =
          leftover b column c row * leftover b column c row / (norm * norm) := by
        intro row hrow
        rw [hentry row (Finset.mem_range.mp hrow), div_mul_div_comm]
      rw [columnDot, Finset.sum_congr rfl hterm, ← Finset.sum_div, ← hsquare,
        div_self (mul_self_pos.mpr hpos.ne').ne']
    · have hterm : ∀ row ∈ Finset.range rows, w (row, j) * w (row, column) =
          b (row, j) * leftover b column c row / norm := by
        intro row hrow
        rw [hentry row (Finset.mem_range.mp hrow), hrest row j hj.ne, mul_div_assoc]
      rw [columnDot, Finset.sum_congr rfl hterm, ← Finset.sum_div,
        sum_mul_leftover_of_lt horthonormal hc le_rfl hj, if_pos hj, zero_div]
  · rw [ensures_ok, if_neg Bool.false_ne_true]
    exact ⟨hkept, not_le.mp hshort⟩

/-- Some coordinate is always accepted while fewer columns than rows are
orthonormal. -/
theorem svdCompleteColumn_exact {column : ℕ} (hcolumn : column < rows) {b : Grid ℝ}
    (horthonormal : OrthonormalColumns rows column b) :
    Ensures (svdCompleteColumn (exactAdapter ℝ fixed Real.sqrt epsilon) rows column b)
      (Completed rows column b) (fun _ => False) := by
  have hrows : (0 : ℝ) < rows := by exact_mod_cast Nat.zero_lt_of_lt hcolumn
  have hroot : 0 < Real.sqrt rows := Real.sqrt_pos.mpr hrows
  have hminimum : svdMinimumNorm (exactAdapter ℝ fixed Real.sqrt epsilon) rows =
      .ok (1 / (2 * Real.sqrt rows)) := by
    rw [svdMinimumNorm]
    change Except.ok (1 / (((2 : ℤ) : ℝ) * Real.sqrt (((rows : ℤ) : ℝ)))) = _
    rw [Int.cast_ofNat, Int.cast_natCast]
  rw [svdCompleteColumn, hminimum]
  refine Ensures.bind (ensures_ok.mpr ?_)
  refine Ensures.seq (Ensures.forRange (fun c (state : Grid ℝ × Bool) =>
    if state.2 then Completed rows column b state.1
    else (∀ row j, j ≠ column → state.1 (row, j) = b (row, j)) ∧ ∀ c' < c,
      Real.sqrt (∑ row ∈ Finset.range rows, leftover b column c' row * leftover b column c' row) <
        1 / (2 * Real.sqrt rows)) (Nat.zero_le rows) ?_ ?_) ?_
  · exact ⟨fun _ _ _ => rfl, fun c' hc' => by omega⟩
  · rintro c ⟨t, found⟩ _ hc hstate
    cases found with
    | true =>
        rw [if_pos rfl] at hstate
        exact hstate
    | false =>
        rw [if_neg Bool.false_ne_true] at hstate
        refine (svdTryCoordinate_exact fixed epsilon hc (by positivity) horthonormal
          hstate.1).imp ?_
        rintro ⟨u, found⟩ hu
        cases found with
        | true => exact hu
        | false =>
            refine ⟨hu.1, fun c' hc' => ?_⟩
            rcases Nat.lt_succ_iff_lt_or_eq.mp hc' with hlt | rfl
            · exact hstate.2 c' hlt
            · exact hu.2
  · rintro ⟨t, found⟩ hstate
    cases found with
    | true => exact hstate
    | false =>
        obtain ⟨c, hc, hlong⟩ := exists_long_leftover horthonormal hcolumn
        have hshort := hstate.2 c hc
        have hle : 1 / Real.sqrt rows ≤ Real.sqrt (∑ row ∈ Finset.range rows,
            leftover b column c row * leftover b column c row) := by
          have hinverse : Real.sqrt (1 / rows) = 1 / Real.sqrt rows := by
            rw [Real.sqrt_div' _ hrows.le, Real.sqrt_one]
          rw [← hinverse]
          exact Real.sqrt_le_sqrt hlong
        have hhalf : 1 / (2 * Real.sqrt rows) ≤ 1 / Real.sqrt rows :=
          one_div_le_one_div_of_le hroot (by linarith)
        exact absurd hshort (not_lt.mpr (hhalf.trans hle))

/-! ## Sorting -/

/-- The state after the sweeps: factors, norms, and orthogonal columns. -/
structure SvdOrthogonal (rows columns : ℕ) (b₀ : Grid ℝ) (s : SvdState ℝ) : Prop
    extends SvdInvariant rows columns b₀ s where
  columns_orthogonal : ∀ p q, p ≠ q → p < columns → q < columns → columnDot rows s.b p q = 0

theorem svdLargest_spec {S : Type} [LinearOrder S] {p : ℕ} (hp : p < columns)
    (norms : ℕ → S) :
    p ≤ svdLargest columns p norms ∧ svdLargest columns p norms < columns ∧
      ∀ q, p ≤ q → q < columns → norms q ≤ norms (svdLargest columns p norms) := by
  refine foldRange_induction (fun k largest => p ≤ largest ∧ largest < columns ∧
    ∀ q, p ≤ q → q < k → norms q ≤ norms largest) hp ?_ ?_
  · refine ⟨le_rfl, hp, fun q hq hlt => ?_⟩
    obtain rfl : q = p := by omega
    exact le_rfl
  · rintro k largest hlo hk ⟨hle, hlt, hmax⟩
    split
    · rename_i hgt
      refine ⟨by omega, hk, fun q hq hqk => ?_⟩
      rcases Nat.lt_succ_iff_lt_or_eq.mp hqk with h | rfl
      · exact (hmax q hq h).trans hgt.le
      · exact le_rfl
    · rename_i hnot
      refine ⟨hle, hlt, fun q hq hqk => ?_⟩
      rcases Nat.lt_succ_iff_lt_or_eq.mp hqk with h | rfl
      · exact hmax q hq h
      · exact not_lt.mp hnot

theorem svdSortStep_norms {S : Type} [LinearOrder S] (columns p : ℕ) (s : SvdState S) (j : ℕ) :
    (svdSortStep columns p s).norms j =
      s.norms (Equiv.swap p (svdLargest columns p s.norms) j) := by
  rw [svdSortStep]
  split
  · rfl
  · rename_i hsame
    rw [not_not.mp hsame, Equiv.swap_self]
    rfl

/-- A step extends the sorted prefix by one position. -/
theorem svdSortStep_sorted {S : Type} [LinearOrder S] {p : ℕ} {s : SvdState S} (hp : p < columns)
    (hsorted : ∀ i j, i < p → i < j → j < columns → s.norms j ≤ s.norms i) {i j : ℕ}
    (hi : i < p + 1) (hij : i < j) (hj : j < columns) :
    (svdSortStep columns p s).norms j ≤ (svdSortStep columns p s).norms i := by
  obtain ⟨hle, hlt, hmax⟩ := svdLargest_spec hp s.norms
  rw [svdSortStep_norms, svdSortStep_norms]
  rcases Nat.lt_succ_iff_lt_or_eq.mp hi with hip | rfl
  · rw [swap_of_lt hle hip]
    refine hsorted i _ hip ?_ (swap_lt hp hlt hj)
    rcases Nat.lt_or_ge j p with hjp | hpj
    · rwa [swap_of_lt hle hjp]
    · exact hip.trans_le (le_swap hle hpj)
  · rw [Equiv.swap_apply_left]
    exact hmax _ (le_swap hle hij.le) (swap_lt hp hlt hj)

/-- Exchanging two columns of both arrays together with their norms. -/
theorem SvdOrthogonal.permute {b₀ : Grid ℝ} {s : SvdState ℝ}
    (h : SvdOrthogonal rows columns b₀ s) {p l : ℕ} (hp : p < columns) (hl : l < columns) :
    SvdOrthogonal rows columns b₀
      { s with
        norms := fun j => s.norms (Equiv.swap p l j)
        b := fun x => s.b (x.1, Equiv.swap p l x.2)
        w := fun x => s.w (x.1, Equiv.swap p l x.2) } := by
  have hswap : ∀ j, j < columns → Equiv.swap p l j < columns := fun j hj => swap_lt hp hl hj
  have hdot : ∀ n (a : Grid ℝ) i j, columnDot n (fun x => a (x.1, Equiv.swap p l x.2)) i j =
      columnDot n a (Equiv.swap p l i) (Equiv.swap p l j) := fun _ _ _ _ => rfl
  refine ⟨⟨⟨fun row hrow j hj => h.product row hrow _ (hswap j hj), fun j k hj hk => ?_, h.pending⟩,
    fun j hj => h.norms _ (hswap j hj)⟩, fun i j hij hi hj => ?_⟩
  · rw [hdot, h.orthogonal _ _ (hswap j hj) (hswap k hk)]
    simp only [(Equiv.swap p l).injective.eq_iff]
  · rw [hdot]
    exact h.columns_orthogonal _ _ (fun heq => hij ((Equiv.swap p l).injective heq)) (hswap i hi)
      (hswap j hj)

/-- The norms before position `p` are the largest ones, in order. -/
def NormsSorted (columns p : ℕ) (norms : ℕ → ℝ) : Prop :=
  ∀ i j, i < p → i < j → j < columns → norms j ≤ norms i

theorem svdSort_exact {b₀ : Grid ℝ} {s : SvdState ℝ} (h : SvdOrthogonal rows columns b₀ s) :
    SvdOrthogonal rows columns b₀ (svdSort columns s) ∧
      NormsSorted columns columns (svdSort columns s).norms := by
  refine foldRange_induction (fun p t => SvdOrthogonal rows columns b₀ t ∧
    NormsSorted columns p t.norms) (Nat.zero_le columns)
    ⟨h, fun i j hi => absurd hi (Nat.not_lt_zero i)⟩ ?_
  rintro p t _ hp ⟨ht, hsorted⟩
  obtain ⟨-, hlt, -⟩ := svdLargest_spec hp t.norms
  refine ⟨?_, fun i j => svdSortStep_sorted hp hsorted⟩
  rw [svdSortStep]
  split
  · exact ht.permute hp hlt
  · exact ht

/-! ## Normalising -/

/-- Columns before `p` are orthonormal and proportional to the sorted ones. -/
structure SvdFinished (rows p : ℕ) (s t : SvdState ℝ) : Prop where
  w : t.w = s.w
  norms : t.norms = s.norms
  pending : t.pending = .ok
  unit : OrthonormalColumns rows p t.b
  scaled : ∀ row < rows, ∀ j < p, t.b (row, j) * s.norms j = s.b (row, j)
  rest : ∀ row < rows, ∀ j, p ≤ j → t.b (row, j) = s.b (row, j)

/-- One more orthonormal column. -/
theorem OrthonormalColumns.succ {p : ℕ} {b t : Grid ℝ} (h : OrthonormalColumns rows p b)
    (hother : ∀ row < rows, ∀ j < p, t (row, j) = b (row, j)) (hunit : columnDot rows t p p = 1)
    (horthogonal : ∀ j < p, columnDot rows t j p = 0) : OrthonormalColumns rows (p + 1) t := by
  intro i j hi hj
  rcases Nat.lt_succ_iff_lt_or_eq.mp hi with hip | rfl
  · rcases Nat.lt_succ_iff_lt_or_eq.mp hj with hjp | rfl
    · rw [columnDot_congr (fun row hrow => hother row hrow i hip) fun row hrow =>
        hother row hrow j hjp, h i j hip hjp]
    · rw [horthogonal i hip, if_neg hip.ne]
  · rcases Nat.lt_succ_iff_lt_or_eq.mp hj with hjp | rfl
    · rw [columnDot_comm, horthogonal j hjp, if_neg hjp.ne']
    · rw [hunit, if_pos rfl]

theorem svdFinishColumn_exact {b₀ : Grid ℝ} {s t : SvdState ℝ} {p : ℕ} (hp : p < columns)
    (hrows : columns ≤ rows) (hs : SvdOrthogonal rows columns b₀ s)
    (hsorted : NormsSorted columns columns s.norms) (ht : SvdFinished rows p s t) :
    Ensures (svdFinishColumn (exactAdapter ℝ fixed Real.sqrt epsilon) rows p t)
      (SvdFinished rows (p + 1) s) (fun _ => False) := by
  have hnorm : s.norms p = Real.sqrt (columnDot rows s.b p p) := hs.norms p hp
  have hcolumn : ∀ row < rows, t.b (row, p) = s.b (row, p) := fun row hrow =>
    ht.rest row hrow p le_rfl
  rw [svdFinishColumn, ht.norms]
  refine Ensures.ite (fun hzero => ?_) fun hnonzero => ?_
  · -- a zero column is replaced
    refine (svdCompleteColumn_exact fixed epsilon (hp.trans_le hrows) ht.unit).seq fun b hb => ?_
    have hnull : columnDot rows s.b p p = 0 := by
      rw [← Real.sqrt_eq_zero (columnDot_self_nonneg rows s.b p), ← hnorm]
      exact hzero
    refine ⟨ht.w, rfl, rfl, ht.unit.succ (fun row _ j hj => hb.other row j hj.ne) hb.unit
      hb.orthogonal, fun row hrow j hj => ?_, fun row hrow j hj => ?_⟩
    · rcases Nat.lt_succ_iff_lt_or_eq.mp hj with hlt | rfl
      · dsimp only
        rw [hb.other row j hlt.ne]
        exact ht.scaled row hrow j hlt
      · rw [eq_zero_of_columnDot_self hnull row hrow]
        exact mul_eq_zero_of_right _ hzero
    · dsimp only
      rw [hb.other row j (by omega)]
      exact ht.rest row hrow j (by omega)
  · have hne : s.norms p ≠ 0 := hnonzero
    have hpos : 0 < s.norms p := lt_of_le_of_ne (hnorm ▸ Real.sqrt_nonneg _) (Ne.symm hne)
    have hsquare : s.norms p * s.norms p = columnDot rows s.b p p := by
      rw [hnorm, Real.mul_self_sqrt (columnDot_self_nonneg rows s.b p)]
    rw [if_neg (not_not.mpr ht.pending)]
    refine Ensures.seq (Ensures.fillRange_map (fun _ x => x / s.norms p) (fun _ _ _ _ => rfl)
      fun i j _ hlt _ heq => hlt.ne (congrArg Prod.fst heq)) ?_
    rintro b ⟨hdivided, hframe⟩
    have hentry : ∀ row < rows, b (row, p) = s.b (row, p) / s.norms p := fun row hrow => by
      rw [hdivided row (Nat.zero_le row) hrow, hcolumn row hrow]
    have hother : ∀ row j, j ≠ p → b (row, j) = t.b (row, j) := fun row j hj =>
      hframe (row, j) fun i _ _ heq => hj (congrArg Prod.snd heq)
    refine ⟨ht.w, rfl, ht.pending, ht.unit.succ (fun row _ j hj => hother row j hj.ne) ?_
      fun j hj => ?_, fun row hrow j hj => ?_, fun row hrow j hj => ?_⟩
    · have hterm : ∀ row ∈ Finset.range rows, b (row, p) * b (row, p) =
          s.b (row, p) * s.b (row, p) / (s.norms p * s.norms p) := by
        intro row hrow
        rw [hentry row (Finset.mem_range.mp hrow), div_mul_div_comm]
      dsimp only
      rw [columnDot, Finset.sum_congr rfl hterm, ← Finset.sum_div, ← columnDot, ← hsquare,
        div_self (mul_self_pos.mpr hne).ne']
    · -- earlier norms are at least this one, so they were divided as well
      have hjpos : 0 < s.norms j := hpos.trans_le (hsorted j p (hj.trans hp) hj hp)
      have hzero : columnDot rows b j p * (s.norms j * s.norms p) = 0 := by
        rw [columnDot, Finset.sum_mul]
        refine (Finset.sum_congr rfl fun row hrow => ?_).trans
          (hs.columns_orthogonal j p hj.ne (hj.trans hp) hp)
        have hrow' := Finset.mem_range.mp hrow
        rw [hentry row hrow', hother row j hj.ne, ← ht.scaled row hrow' j hj]
        field_simp
      exact (mul_eq_zero.mp hzero).resolve_right (mul_pos hjpos hpos).ne'
    · rcases Nat.lt_succ_iff_lt_or_eq.mp hj with hlt | rfl
      · dsimp only
        rw [hother row j hlt.ne]
        exact ht.scaled row hrow j hlt
      · dsimp only
        rw [hentry row hrow, div_mul_cancel₀ _ hne]
    · dsimp only
      rw [hother row j (by omega)]
      exact ht.rest row hrow j (by omega)

/-! ## The factorisation -/

/-- `b diag(norms) wᵀ` with orthonormal columns and sorted norms. -/
structure SvdFactored (rows columns : ℕ) (b₀ : Grid ℝ) (s : SvdState ℝ) : Prop where
  left : (gridMatrix rows columns s.b)ᵀ * gridMatrix rows columns s.b = 1
  right : (gridMatrix columns columns s.w)ᵀ * gridMatrix columns columns s.w = 1
  nonneg : ∀ p < columns, 0 ≤ s.norms p
  sorted : NormsSorted columns columns s.norms
  product : gridMatrix rows columns s.b * Matrix.diagonal (fun p : Fin columns => s.norms p) *
    (gridMatrix columns columns s.w)ᵀ = gridMatrix rows columns b₀

/-- Orthonormal columns as a matrix equation. -/
theorem transpose_mul_self_of_orthonormal {b : Grid ℝ} (h : OrthonormalColumns rows columns b) :
    (gridMatrix rows columns b)ᵀ * gridMatrix rows columns b = 1 := by
  ext i j
  rw [Matrix.mul_apply, Matrix.one_apply]
  have hdot := h i j i.isLt j.isLt
  rw [columnDot, ← Fin.sum_univ_eq_sum_range (fun row => b (row, (i : ℕ)) * b (row, (j : ℕ)))] at hdot
  simp only [← Fin.ext_iff] at hdot
  exact hdot

theorem svdFactored_of_finished {b₀ : Grid ℝ} {s t : SvdState ℝ}
    (hs : SvdOrthogonal rows columns b₀ s) (hsorted : NormsSorted columns columns s.norms)
    (ht : SvdFinished rows columns s t) : SvdFactored rows columns b₀ t := by
  have hright : (gridMatrix columns columns t.w)ᵀ * gridMatrix columns columns t.w = 1 := by
    rw [ht.w]
    exact transpose_mul_self_of_orthonormal hs.orthogonal
  have hinverse : gridMatrix columns columns t.w * (gridMatrix columns columns t.w)ᵀ = 1 :=
    mul_eq_one_comm.mp hright
  have hscaled : gridMatrix rows columns t.b *
      Matrix.diagonal (fun p : Fin columns => t.norms p) =
      gridMatrix rows columns b₀ * gridMatrix columns columns t.w := by
    ext i j
    rw [Matrix.mul_diagonal, Matrix.mul_apply, ht.norms, ht.w]
    refine (ht.scaled i i.isLt j j.isLt).trans ((hs.product i i.isLt j j.isLt).trans ?_)
    exact (Fin.sum_univ_eq_sum_range (fun l => b₀ (i, l) * s.w (l, j)) columns).symm
  refine ⟨transpose_mul_self_of_orthonormal ht.unit, hright, fun p hp => ?_, ?_, ?_⟩
  · rw [ht.norms, hs.norms p hp]
    exact Real.sqrt_nonneg _
  · rw [ht.norms]
    exact hsorted
  · rw [hscaled, Matrix.mul_assoc, hinverse, Matrix.mul_one]

theorem svdFactor_exact (hrows : columns ≤ rows) (maxSweeps : ℕ) (b₀ : Grid ℝ) :
    Ensures (svdFactor (exactAdapter ℝ fixed Real.sqrt epsilon) rows columns maxSweeps 0 b₀
        (identityGrid (exactAdapter ℝ fixed Real.sqrt epsilon)))
      (SvdFactored rows columns b₀) (· = .errorNoConvergence) := by
  refine (svdSweeps_exact fixed epsilon (svdStart_factors fixed epsilon rows columns b₀)).seq ?_
  rintro s ⟨hinv, horthogonal⟩
  have hs : SvdOrthogonal rows columns b₀ s := by
    refine ⟨hinv, fun p q hpq hp hq => ?_⟩
    rcases Nat.lt_or_gt_of_ne hpq with hlt | hgt
    · exact horthogonal p q hlt hq
    · rw [columnDot_comm]
      exact horthogonal q p hgt hp
  obtain ⟨hsort, hsorted⟩ := svdSort_exact hs
  refine Ensures.mono (Ensures.forRange (fun p t => SvdFinished rows p (svdSort columns s) t)
    (Nat.zero_le columns) ?_ fun p t _ hp ht =>
      svdFinishColumn_exact fixed epsilon hp hrows hsort hsorted ht)
    (fun t ht => svdFactored_of_finished hsort hsorted ht) fun _ h => h.elim
  exact ⟨rfl, rfl, hsort.pending, fun i j hi => absurd hi (Nat.not_lt_zero i),
    fun row _ j hj => absurd hj (Nat.not_lt_zero j), fun _ _ _ _ => rfl⟩

/-! ## Scaling -/

theorem svdScale_exact (rows columns : ℕ) (b : Grid ℝ) :
    Ensures (svdScale (exactAdapter ℝ fixed Real.sqrt epsilon) rows columns b)
      (fun scale => 0 ≤ scale ∧ ∀ row < rows, ∀ column < columns, |b (row, column)| ≤ scale)
      (fun _ => False) := by
  refine Ensures.forRange (fun k scale => 0 ≤ scale ∧
    ∀ row < k, ∀ column < columns, |b (row, column)| ≤ scale) (Nat.zero_le rows)
    ⟨le_rfl, fun row hrow => by omega⟩ ?_
  rintro row scale _ _ ⟨hnonneg, hbound⟩
  refine Ensures.imp (Ensures.forRange (fun k (scale : ℝ) => 0 ≤ scale ∧
    (∀ r < row, ∀ column < columns, |b (r, column)| ≤ scale) ∧
      ∀ column < k, |b (row, column)| ≤ scale) (Nat.zero_le columns)
    ⟨hnonneg, hbound, fun column hcolumn => by omega⟩ ?_) ?_
  · rintro column scale _ _ ⟨hnonneg, hbefore, hrow⟩
    rw [exactAdapter_abs]
    refine Ensures.bind (ensures_ok.mpr ?_)
    rw [ensures_ok]
    split
    · rename_i hlt
      refine ⟨hnonneg.trans hlt.le, fun r hr c hc => (hbefore r hr c hc).trans hlt.le,
        fun c hc => ?_⟩
      rcases Nat.lt_succ_iff_lt_or_eq.mp hc with h | rfl
      · exact (hrow c h).trans hlt.le
      · exact le_rfl
    · rename_i hnot
      refine ⟨hnonneg, hbefore, fun c hc => ?_⟩
      rcases Nat.lt_succ_iff_lt_or_eq.mp hc with h | rfl
      · exact hrow c h
      · exact not_lt.mp hnot
  · rintro scale ⟨hnonneg, hbefore, hrow⟩
    refine ⟨hnonneg, fun r hr c hc => ?_⟩
    rcases Nat.lt_succ_iff_lt_or_eq.mp hr with h | rfl
    · exact hbefore r h c hc
    · exact hrow c hc

theorem svdScaled_exact {scale : ℝ} {b : Grid ℝ}
    (hbound : ∀ row < rows, ∀ column < columns, |b (row, column)| ≤ scale) :
    Ensures (svdScaled (exactAdapter ℝ fixed Real.sqrt epsilon) rows columns scale b)
      (fun t => ∀ row < rows, ∀ column < columns, t (row, column) * scale = b (row, column))
      (fun _ => False) := by
  rw [svdScaled]
  refine Ensures.ite (fun hzero row hrow column hcolumn => ?_) fun hne => ?_
  · have hzero' : scale = 0 := hzero
    have hle := hbound row hrow column hcolumn
    rw [hzero'] at hle
    rw [hzero', mul_zero, abs_nonpos_iff.mp hle]
  · have hne' : scale ≠ 0 := hne
    refine Ensures.imp (Ensures.forRange (fun k (t : Grid ℝ) =>
      (∀ row < k, ∀ column < columns, t (row, column) = b (row, column) / scale) ∧
        ∀ row, k ≤ row → ∀ column, t (row, column) = b (row, column)) (Nat.zero_le rows)
      ⟨fun row hrow => by omega, fun _ _ _ => rfl⟩ ?_) ?_
    · rintro row t _ _ ⟨hdone, hrest⟩
      refine Ensures.imp (Ensures.fillRange_map (fun _ x => x / scale) (fun _ _ _ _ => rfl)
        fun i j _ hlt _ heq => hlt.ne (congrArg Prod.snd heq)) ?_
      rintro u ⟨hdivided, hframe⟩
      have hother : ∀ r, r ≠ row → ∀ column, u (r, column) = t (r, column) := fun r hr column =>
        hframe (r, column) fun i _ _ heq => hr (congrArg Prod.fst heq)
      refine ⟨fun r hr column hcolumn => ?_, fun r hr column => ?_⟩
      · rcases Nat.lt_succ_iff_lt_or_eq.mp hr with hlt | rfl
        · rw [hother r hlt.ne]
          exact hdone r hlt column hcolumn
        · rw [hdivided column (Nat.zero_le column) hcolumn, hrest r le_rfl]
      · rw [hother r (by omega)]
        exact hrest r (by omega) column
    · rintro t ⟨hdone, -⟩ row hrow column hcolumn
      rw [hdone row hrow column hcolumn, div_mul_cancel₀ _ hne']

/-- Restoring the scale of the singular values. -/
theorem SvdFactored.rescale {scale : ℝ} {b b₀ : Grid ℝ} {s : SvdState ℝ} {norms : ℕ → ℝ}
    (h : SvdFactored rows columns b₀ s) (hscale : 0 ≤ scale)
    (hb : ∀ row < rows, ∀ column < columns, b₀ (row, column) * scale = b (row, column))
    (hnorms : ∀ p < columns, norms p = s.norms p * scale) :
    SvdFactored rows columns b { s with norms := norms } := by
  have hdiagonal : Matrix.diagonal (fun p : Fin columns => norms p) =
      scale • Matrix.diagonal (fun p : Fin columns => s.norms p) := by
    rw [← Matrix.diagonal_smul]
    congr 1
    funext p
    rw [hnorms p p.isLt, Pi.smul_apply, smul_eq_mul, mul_comm]
  have hinput : gridMatrix rows columns b = scale • gridMatrix rows columns b₀ := by
    ext i j
    rw [Matrix.smul_apply, smul_eq_mul, mul_comm]
    exact (hb i i.isLt j j.isLt).symm
  refine ⟨h.left, h.right, fun p hp => ?_, fun i j hi hij hj => ?_, ?_⟩
  · dsimp only
    rw [hnorms p hp]
    exact mul_nonneg (h.nonneg p hp) hscale
  · dsimp only
    rw [hnorms i hi, hnorms j hj]
    exact mul_le_mul_of_nonneg_right (h.sorted i j hi hij hj) hscale
  · rw [hinput, ← h.product]
    dsimp only
    rw [hdiagonal, Matrix.mul_smul, Matrix.smul_mul]

theorem svdTall_exact (hrows : columns ≤ rows) (maxSweeps : ℕ) (b : Grid ℝ) :
    Ensures (svdTall (exactAdapter ℝ fixed Real.sqrt 0) rows columns maxSweeps b)
      (SvdFactored rows columns b) (· = .errorNoConvergence) := by
  rw [svdTall]
  refine Ensures.seq ((svdScale_exact fixed 0 rows columns b).mono (fun _ h => h)
    fun _ h => h.elim) ?_
  rintro scale ⟨hscale, hbound⟩
  refine Ensures.seq ((svdScaled_exact fixed 0 hbound).mono (fun _ h => h) fun _ h => h.elim)
    fun b₀ hb₀ => ?_
  have htolerance : svdTolerance (exactAdapter ℝ fixed Real.sqrt 0) rows = .ok 0 := by
    rw [svdTolerance]
    change Except.ok (((8 : ℤ) : ℝ) * (((rows : ℤ) : ℝ) * 0)) = _
    rw [mul_zero, mul_zero]
  rw [htolerance]
  refine Ensures.bind (ensures_ok.mpr (Ensures.ite (fun _ => rfl) fun _ => ?_))
  refine (svdFactor_exact fixed 0 hrows maxSweeps b₀).seq fun s hs => ?_
  refine Ensures.seq ((Ensures.fillRange_map (fun _ x => x * scale) (fun _ _ _ _ => rfl)
    fun i j _ hlt _ => hlt.ne).mono (fun _ h => h) fun _ h => h.elim) ?_
  rintro norms ⟨hnorms, -⟩
  exact hs.rescale hscale hb₀ fun p hp => hnorms p (Nat.zero_le p) hp

/-! ## The public operation -/

/-- What an exact decomposition delivers. -/
structure SvdResult (m n : ℕ) (a : Grid ℝ) (out : SvdOutput ℝ) : Prop where
  left : (gridMatrix m (min m n) out.u)ᵀ * gridMatrix m (min m n) out.u = 1
  right : (gridMatrix n (min m n) out.v)ᵀ * gridMatrix n (min m n) out.v = 1
  nonneg : ∀ p < min m n, 0 ≤ out.singularValues p
  sorted : NormsSorted (min m n) (min m n) out.singularValues
  product : gridMatrix m (min m n) out.u *
    Matrix.diagonal (fun p : Fin (min m n) => out.singularValues p) *
      (gridMatrix n (min m n) out.v)ᵀ = gridMatrix m n a

theorem svdValues_exact (m n maxSweeps : ℕ) (a : Grid ℝ) :
    Ensures (svdValues (exactAdapter ℝ fixed Real.sqrt 0) (exactFormat ℝ) m n maxSweeps a)
      (SvdResult m n a) (· = .errorNoConvergence) := by
  rw [svdValues]
  refine Ensures.ite (fun hempty => ?_) fun hfull => Ensures.ite (fun hwide => ?_) fun htall => ?_
  · have hmin : min m n = 0 := by omega
    have : IsEmpty (Fin (min m n)) := by
      rw [hmin]
      infer_instance
    refine ⟨Subsingleton.elim _ _, Subsingleton.elim _ _, fun p hp => by omega,
      fun i j hi => by omega, ?_⟩
    ext i j
    have := i.isLt
    have := j.isLt
    omega
  · rw [show (fun x : ℕ × ℕ => (exactFormat ℝ).load (a (x.2, x.1))) = fun x => a (x.2, x.1) from rfl]
    refine (svdTall_exact fixed hwide.le maxSweeps fun x => a (x.2, x.1)).seq fun s hs => ?_
    change SvdResult m n a { u := s.w, singularValues := s.norms, v := s.b }
    have hmin : min m n = m := min_eq_left hwide.le
    have hproduct := congrArg Matrix.transpose hs.product
    rw [Matrix.transpose_mul, Matrix.transpose_mul, Matrix.transpose_transpose,
      Matrix.diagonal_transpose, ← Matrix.mul_assoc] at hproduct
    constructor <;> rw [hmin]
    · exact hs.right
    · exact hs.left
    · exact hs.nonneg
    · exact hs.sorted
    · exact hproduct
  · rw [show (fun x : ℕ × ℕ => (exactFormat ℝ).load (a x)) = a from rfl]
    refine (svdTall_exact fixed (not_lt.mp htall) maxSweeps a).seq fun s hs => ?_
    change SvdResult m n a { u := s.b, singularValues := s.norms, v := s.w }
    have hmin : min m n = n := min_eq_right (not_lt.mp htall)
    constructor <;> rw [hmin]
    · exact hs.left
    · exact hs.right
    · exact hs.nonneg
    · exact hs.sorted
    · exact hs.product

/-! ## Runs of the sweep loop -/

/-- The states `svd_factor` passes through; the flag says that a sweep has been
opened, so the stored norms are valid. -/
inductive SvdRun (D : Adapter ℝ ℝ) (rows columns : ℕ) (tolerance : ℝ) (b₀ : Grid ℝ) :
    Bool → SvdState ℝ → Prop
  | start : SvdRun D rows columns tolerance b₀ false
      { b := b₀, w := identityGrid D, norms := fun _ => D.zero, pending := .ok, rotated := false }
  | opened {inside : Bool} {s : SvdState ℝ} {norms : (ℕ → ℝ) × ℝ} {cutoff : ℝ} :
      SvdRun D rows columns tolerance b₀ inside s → svdNorms D rows columns s = .ok norms →
      D.mul norms.2 tolerance = .ok cutoff →
      SvdRun D rows columns tolerance b₀ true
        (svdCutoff D columns cutoff { s with norms := norms.1, rotated := false })
  | pair {s t : SvdState ℝ} {last : Bool} {p q : ℕ} :
      SvdRun D rows columns tolerance b₀ true s → p < q → q < columns →
      svdPair D rows columns tolerance last p q s = .ok t →
      SvdRun D rows columns tolerance b₀ true t

/-- What a successful sweep loop returns lies on a run. -/
theorem SvdRun.sweeps {D : Adapter ℝ ℝ} {tolerance : ℝ} {b₀ : Grid ℝ} {inside : Bool}
    {maxSweeps sweep : ℕ} {s : SvdState ℝ} (h : SvdRun D rows columns tolerance b₀ inside s) :
    Ensures (svdSweeps D rows columns tolerance maxSweeps sweep s)
      (SvdRun D rows columns tolerance b₀ true) (fun _ => True) := by
  induction hrest : maxSweeps - sweep using Nat.strong_induction_on generalizing inside sweep s with
  | h rest ih =>
    have hsweep : Ensures (svdSweep D rows columns tolerance (sweep == maxSweeps) s)
        (SvdRun D rows columns tolerance b₀ true) (fun _ => True) := by
      rw [svdSweep]
      cases hnorms : svdNorms D rows columns s with
      | error e => trivial
      | ok norms =>
          cases hcutoff : D.mul norms.2 tolerance with
          | error e =>
              refine Ensures.bind (ensures_ok.mpr ?_)
              rw [hcutoff]
              trivial
          | ok cutoff =>
              refine Ensures.bind (ensures_ok.mpr ?_)
              rw [hcutoff]
              refine Ensures.bind (ensures_ok.mpr ?_)
              refine Ensures.forRange (fun _ t => SvdRun D rows columns tolerance b₀ true t)
                (Nat.zero_le columns) (h.opened hnorms hcutoff) fun p t _ hp ht => ?_
              refine Ensures.forRange (fun _ t => SvdRun D rows columns tolerance b₀ true t) hp ht
                fun q t hpq hq ht => ?_
              cases hpair : svdPair D rows columns tolerance (sweep == maxSweeps) p q t with
              | error e => trivial
              | ok u => exact ht.pair hpq hq hpair
    rw [svdSweeps]
    refine hsweep.seq fun t ht => ?_
    refine Ensures.ite (fun _ => Ensures.ite (fun hlt => ?_) fun _ => trivial) fun _ => ht
    exact ih (maxSweeps - (sweep + 1)) (by omega) ht rfl

theorem SvdRun.factors {b₀ : Grid ℝ} {inside : Bool} {s : SvdState ℝ}
    (h : SvdRun (exactAdapter ℝ fixed Real.sqrt epsilon) rows columns 0 b₀ inside s) :
    SvdFactors rows columns b₀ s ∧ (inside = true → SvdInvariant rows columns b₀ s) := by
  induction h with
  | start => exact ⟨svdStart_factors fixed epsilon rows columns b₀, nofun⟩
  | @opened inside s norms cutoff _ hnorms hcutoff ih =>
      have hstart : SvdFactors rows columns b₀ { s with norms := norms.1, rotated := false } :=
        ⟨ih.1.product, ih.1.orthogonal, ih.1.pending⟩
      have hinv := svdCutoff_exact fixed epsilon hstart
        ((svdNorms_exact fixed epsilon ih.1.pending rows columns).of_eq_ok hnorms)
      rw [exactAdapter_mul, mul_zero] at hcutoff
      rw [← Except.ok.inj hcutoff]
      exact ⟨hinv.toSvdFactors, fun _ => hinv⟩
  | pair _ hpq hq hpair ih =>
      have hinv := ((svdPair_exact fixed epsilon _ (ih.2 rfl) hpq hq).of_eq_ok hpair).1
      exact ⟨hinv.toSvdFactors, fun _ => hinv⟩

/-- The one-sided Jacobi template over the real numbers with tolerance zero:
along every run `b` is the scaled input times an orthogonal `w`; a visited pair
of columns is left orthogonal; completing a column always succeeds; and a
decomposition that returns OK has all its properties. -/
theorem jacobi_svd_template_exact (fixed : Bool) :
    (∀ rows columns (b₀ : Grid ℝ) inside s,
      SvdRun (exactAdapter ℝ fixed Real.sqrt 0) rows columns 0 b₀ inside s →
        gridMatrix rows columns s.b =
            gridMatrix rows columns b₀ * gridMatrix columns columns s.w ∧
          (gridMatrix columns columns s.w)ᵀ * gridMatrix columns columns s.w = 1) ∧
    (∀ rows columns (b₀ : Grid ℝ) s t last p q,
      SvdRun (exactAdapter ℝ fixed Real.sqrt 0) rows columns 0 b₀ true s → p < q → q < columns →
        svdPair (exactAdapter ℝ fixed Real.sqrt 0) rows columns 0 last p q s = .ok t →
          columnDot rows t.b p q = 0) ∧
    (∀ rows columns (b₀ : Grid ℝ) inside maxSweeps sweep s t,
      SvdRun (exactAdapter ℝ fixed Real.sqrt 0) rows columns 0 b₀ inside s →
        svdSweeps (exactAdapter ℝ fixed Real.sqrt 0) rows columns 0 maxSweeps sweep s = .ok t →
          SvdRun (exactAdapter ℝ fixed Real.sqrt 0) rows columns 0 b₀ true t) ∧
    (∀ rows column (b : Grid ℝ), column < rows → OrthonormalColumns rows column b →
      ∃ t, svdCompleteColumn (exactAdapter ℝ fixed Real.sqrt 0) rows column b = .ok t ∧
        Completed rows column b t) ∧
    ∀ m n maxSweeps (a : Grid ℝ) out,
      svdValues (exactAdapter ℝ fixed Real.sqrt 0) (exactFormat ℝ) m n maxSweeps a = .ok out →
        SvdResult m n a out := by
  refine ⟨?_, ?_, ?_, ?_, ?_⟩
  · intro rows columns b₀ inside s hrun
    obtain ⟨hfactors, -⟩ := hrun.factors fixed 0
    refine ⟨?_, transpose_mul_self_of_orthonormal hfactors.orthogonal⟩
    ext i j
    rw [Matrix.mul_apply]
    refine (hfactors.product i i.isLt j j.isLt).trans ?_
    exact (Fin.sum_univ_eq_sum_range (fun l => b₀ (i, l) * s.w (l, j)) columns).symm
  · intro rows columns b₀ s t last p q hrun hpq hq hpair
    have hinv := (hrun.factors fixed 0).2 rfl
    exact ((svdPair_exact fixed 0 last hinv hpq hq).of_eq_ok hpair).2.1
  · intro rows columns b₀ inside maxSweeps sweep s t hrun hsweeps
    exact hrun.sweeps.of_eq_ok hsweeps
  · intro rows column b hcolumn horthonormal
    exact (svdCompleteColumn_exact fixed 0 hcolumn horthonormal).exists_ok
  · intro m n maxSweeps a out hout
    exact (svdValues_exact fixed m n maxSweeps a).of_eq_ok hout

end Xhive.Linears
