import Xhive.Linears.Decomp.LuColumns
import Xhive.Linears.Decomp.LuFixed
import Xhive.Linears.Decomp.SvdExact
import Xhive.Linears.Decomp.SvdRuns
import Xhive.Linears.Numeric.Mean

/-!
# The fixed-point SVD

In the fixed formats a norm is at least every magnitude of its column, so the
quotients of a correlation stay within one and its magnitude is defined.  The
certificate of the sweep loop then holds for every shape that fits the memory,
and the singular values keep their order through the scaling and the narrowing.
-/

namespace Xhive.Linears

open Xhive.Support

/-! ## Sums of products -/

/-- The terms of a finished sum exist, and their products are rounded once. -/
theorem fixed_sumTerms (term : ℕ → Except Status (Int64 × Int64)) (count : ℕ) :
    Ensures (fixedAdapter.sumTerms term count)
      (fun v => ∃ f : ℕ → Int64 × Int64, (∀ i < count, term i = .ok (f i)) ∧
        v.toInt = roundAway
          (((∑ i ∈ Finset.range count, (f i).1.toInt * (f i).2.toInt : ℤ) : ℚ) / 2 ^ 31))
      (fun _ => True) := by
  let f : ℕ → Int64 × Int64 := fun i => (term i).toOption.getD (0, 0)
  rw [Adapter.sumTerms, if_pos (show fixedAdapter.fixed = true from rfl)]
  refine Ensures.seq (Ensures.forRange (fun k (acc : Accum) => (∀ i < k, term i = .ok (f i)) ∧
    acc.toInt = ∑ i ∈ Finset.range k, (f i).1.toInt * (f i).2.toInt) (Nat.zero_le count)
    ⟨fun i hi => absurd hi (Nat.not_lt_zero i), toInt_fixed_empty⟩ ?_) ?_
  · rintro k acc - - ⟨hterms, hacc⟩
    cases hk : term k with
    | error e => trivial
    | ok factors =>
        have hf : f k = factors := by
          change (term k).toOption.getD (0, 0) = factors
          rw [hk]
          rfl
        refine Ensures.mono (fixed_mac acc factors.1 factors.2) ?_ fun _ _ => trivial
        intro next hnext
        refine ⟨fun i hi => ?_, ?_⟩
        · rcases Nat.lt_succ_iff_lt_or_eq.mp hi with hlt | rfl
          · exact hterms i hlt
          · rw [hf, hk]
        · rw [hnext, hacc, Finset.sum_range_succ, hf]
  · rintro acc ⟨hterms, hacc⟩
    rw [fixed_accumToFixed]
    refine (ensures_fixedResult _).mono (fun v hv => ⟨f, hterms, ?_⟩) fun _ _ => trivial
    rw [hv, hacc]

/-! ## Norms -/

theorem fixed_maxMagnitude (values : ℕ → Int64) (count : ℕ) :
    Ensures (fixedAdapter.maxMagnitude values count)
      (fun maximum => (∀ i < count, |(values i).toInt| ≤ maximum.toInt) ∧
        (maximum = 0 ∨ ∃ i < count, maximum.toInt = |(values i).toInt|)) (fun _ => True) := by
  refine (fixed_eliminationArith.maxMagnitude values count).mono ?_ fun _ _ => trivial
  rintro maximum ⟨hle, hattained⟩
  simp only [rawValue] at hle hattained
  refine ⟨fun i hi => by exact_mod_cast hle i hi, ?_⟩
  rcases hattained with hzero | ⟨i, hi, heq⟩
  · exact Or.inl ((fixed_eliminationArith.value_eq_zero maximum).mp hzero)
  · exact Or.inr ⟨i, hi, by exact_mod_cast heq⟩

theorem fixed_norm_zero (rows : ℕ) : fixedAdapter.norm (fun _ => 0) rows = .ok 0 := by
  have hmax : fixedAdapter.maxMagnitude (fun _ => 0) rows = .ok 0 := by
    have hspec : Ensures (fixedAdapter.maxMagnitude (fun _ => 0) rows) (· = 0)
        (fun _ => False) := by
      refine Ensures.forRange (fun _ (maximum : Int64) => maximum = 0) (Nat.zero_le rows) rfl ?_
      rintro k maximum - - rfl
      rfl
    obtain ⟨maximum, heq, rfl⟩ := hspec.exists_ok
    exact heq
  rw [Adapter.norm, hmax]
  rfl

/-- A quotient by a positive word, when it is representable. -/
theorem toInt_fixed_div {a b q : Int64} (hb : 0 < b.toInt) (h : fixedAdapter.div a b = .ok q) :
    q.toInt = roundAway ((a.toInt : ℚ) * 2 ^ 31 / b.toInt) := by
  have hne : b ≠ 0 := by
    rintro rfl
    exact absurd hb (by decide)
  rw [fixed_div a hne] at h
  exact fixedResult_eq_ok h

/-- A quotient of a dominated word is within one. -/
theorem abs_fixed_div_le {a b q : Int64} (hb : 0 < b.toInt) (hle : |a.toInt| ≤ b.toInt)
    (h : fixedAdapter.div a b = .ok q) : |q.toInt| ≤ 2 ^ 31 := by
  rw [toInt_fixed_div hb h]
  apply abs_roundAway_le
  have hpos : (0 : ℚ) < b.toInt := by exact_mod_cast hb
  have hle' : |(a.toInt : ℚ)| ≤ b.toInt := by exact_mod_cast hle
  rw [abs_div, abs_mul, abs_of_pos hpos, div_le_iff₀ hpos,
    abs_of_pos (by norm_num : (0 : ℚ) < 2 ^ 31)]
  push_cast
  linarith

/-- A root of a word of at least one is at least one. -/
theorem fixed_sqrt_ge {a root : Int64} (ha : 2 ^ 31 ≤ a.toInt)
    (h : fixedAdapter.sqrt a = .ok root) : 2 ^ 31 ≤ root.toInt := by
  have hnonneg : 0 ≤ a.toInt := by omega
  rw [fixed_sqrt hnonneg] at h
  rw [← Except.ok.inj h, toInt_root hnonneg]
  apply le_roundAway
  rw [Int.cast_pow, Int.cast_ofNat]
  apply Real.le_sqrt_of_sq_le
  have ha' : (2 ^ 31 : ℝ) ≤ a.toInt := by exact_mod_cast ha
  rw [sq]
  exact mul_le_mul_of_nonneg_right ha' (by norm_num)

/-- A norm is at least every magnitude of its column: the largest one is divided
by itself, so the scaled sum and its root are at least one. -/
theorem fixed_norm_ge {values : ℕ → Int64} {count : ℕ} {norm : Int64}
    (h : fixedAdapter.norm values count = .ok norm) :
    0 ≤ norm.toInt ∧ ∀ i < count, |(values i).toInt| ≤ norm.toInt := by
  obtain ⟨maximum, hmax, h⟩ := ok_of_bind h
  obtain ⟨hle, hattained⟩ := (fixed_maxMagnitude values count).of_eq_ok hmax
  by_cases hzero : maximum = 0
  · obtain rfl := Except.ok.inj ((if_pos hzero).symm.trans h)
    rw [hzero] at hle
    exact ⟨le_rfl, hle⟩
  · obtain ⟨i, hi, hvalue⟩ := hattained.resolve_left hzero
    have hpos : 0 < maximum.toInt := by
      have hne : maximum.toInt ≠ 0 := by
        rwa [← Int64.toInt_zero, ne_eq, Int64.toInt_inj]
      have hnonneg := abs_nonneg (values i).toInt
      omega
    obtain ⟨sum, hsum, h⟩ := ok_of_bind ((if_neg hzero).symm.trans h)
    obtain ⟨root, hroot, h⟩ := ok_of_bind h
    have hsum' : 2 ^ 31 ≤ sum.toInt := by
      obtain ⟨f, hterms, hvalue'⟩ := (fixed_sumTerms _ count).of_eq_ok hsum
      have hsquare : ∀ j < count, (f j).1.toInt * (f j).2.toInt =
          (f j).1.toInt * (f j).1.toInt := by
        intro j hj
        obtain ⟨ratio, -, hf⟩ := ok_of_bind (hterms j hj)
        rw [← Except.ok.inj hf]
      have hlargest : |(f i).1.toInt| = 2 ^ 31 := by
        obtain ⟨ratio, hratio, hf⟩ := ok_of_bind (hterms i hi)
        rw [← Except.ok.inj hf]
        dsimp only
        rw [toInt_fixed_div hpos hratio, abs_roundAway, abs_div, abs_mul]
        have hcast : |((values i).toInt : ℚ)| = maximum.toInt := by
          rw [hvalue]
          push_cast
          rfl
        have hne : (maximum.toInt : ℚ) ≠ 0 := by exact_mod_cast hpos.ne'
        rw [hcast, abs_of_pos (show (0 : ℚ) < maximum.toInt by exact_mod_cast hpos),
          mul_div_cancel_left₀ _ hne, abs_of_pos (by norm_num),
          show (2 : ℚ) ^ 31 = ((2 ^ 31 : ℤ) : ℚ) by norm_num, roundAway_intCast]
      have hone : (2 ^ 62 : ℤ) ≤ ∑ j ∈ Finset.range count, (f j).1.toInt * (f j).2.toInt := by
        rw [Finset.sum_congr rfl fun j hj => hsquare j (Finset.mem_range.mp hj)]
        calc
          (2 ^ 62 : ℤ) = (f i).1.toInt * (f i).1.toInt := by
            rw [← abs_mul_abs_self, hlargest]
            norm_num
          _ ≤ _ := Finset.single_le_sum (fun j _ => mul_self_nonneg (f j).1.toInt)
            (Finset.mem_range.mpr hi)
      rw [hvalue']
      apply le_roundAway
      rw [le_div_iff₀ (by norm_num)]
      have hone' : ((2 ^ 62 : ℤ) : ℚ) ≤
          ((∑ j ∈ Finset.range count, (f j).1.toInt * (f j).2.toInt : ℤ) : ℚ) := by
        exact_mod_cast hone
      refine le_trans (le_of_eq ?_) hone'
      norm_num
    have hroot' := fixed_sqrt_ge hsum' hroot
    have hnorm : maximum.toInt ≤ norm.toInt := by
      rw [fixed_mul] at h
      rw [fixedResult_eq_ok h]
      apply le_roundAway
      rw [le_div_iff₀ (by norm_num)]
      have hcast : ((2 ^ 31 : ℤ) : ℚ) ≤ root.toInt := by exact_mod_cast hroot'
      push_cast at hcast
      exact mul_le_mul_of_nonneg_left hcast (by exact_mod_cast hpos.le)
    exact ⟨hpos.le.trans hnorm, fun j hj => (hle j hj).trans hnorm⟩

/-! ## Correlations -/

section Loop

variable {rows columns maxSweeps sweep p q : ℕ} {tolerance : Int64} {start s : SvdState Int64}

/-- The quotients of a correlation are within one, so it is at most the number of
rows. -/
theorem abs_svdCorrelation_le (hs : SvdCached fixedAdapter rows columns s) (hp : p < columns)
    (hq : q < columns) (hnormP : s.norms p ≠ 0) (hnormQ : s.norms q ≠ 0) {correlation : Int64}
    (h : svdCorrelation fixedAdapter rows p q (s.norms p) (s.norms q) s.b = .ok correlation) :
    |correlation.toInt| ≤ rows * 2 ^ 31 := by
  have hpositive : ∀ j < columns, s.norms j ≠ 0 → 0 < (s.norms j).toInt := by
    intro j hj hne
    have hnonneg := (fixed_norm_ge (hs j hj)).1
    rw [ne_eq, ← Int64.toInt_inj, Int64.toInt_zero] at hne
    omega
  obtain ⟨f, hterms, hvalue⟩ := (fixed_sumTerms _ rows).of_eq_ok h
  have hterm : ∀ row ∈ Finset.range rows, |(f row).1.toInt * (f row).2.toInt| ≤ 2 ^ 62 := by
    intro row hrow
    rw [Finset.mem_range] at hrow
    obtain ⟨left, hleft, hf⟩ := ok_of_bind (hterms row hrow)
    obtain ⟨right, hright, hf⟩ := ok_of_bind hf
    rw [← Except.ok.inj hf, abs_mul]
    calc
      |left.toInt| * |right.toInt| ≤ 2 ^ 31 * 2 ^ 31 :=
        mul_le_mul
          (abs_fixed_div_le (hpositive p hp hnormP) ((fixed_norm_ge (hs p hp)).2 row hrow) hleft)
          (abs_fixed_div_le (hpositive q hq hnormQ) ((fixed_norm_ge (hs q hq)).2 row hrow) hright)
          (abs_nonneg _) (by norm_num)
      _ = 2 ^ 62 := by norm_num
  have hsum : |∑ row ∈ Finset.range rows, (f row).1.toInt * (f row).2.toInt| ≤ rows * 2 ^ 62 := by
    refine (Finset.abs_sum_le_sum_abs _ _).trans ((Finset.sum_le_sum hterm).trans_eq ?_)
    rw [Finset.sum_const, Finset.card_range, nsmul_eq_mul]
  rw [hvalue]
  apply abs_roundAway_le
  rw [abs_div, abs_of_pos (by norm_num : (0 : ℚ) < 2 ^ 31), div_le_iff₀ (by norm_num)]
  have hcast : |((∑ row ∈ Finset.range rows, (f row).1.toInt * (f row).2.toInt : ℤ) : ℚ)| ≤
      ((rows * 2 ^ 62 : ℤ) : ℚ) := by
    rw [← Int.cast_abs]
    exact_mod_cast hsum
  refine hcast.trans_eq ?_
  push_cast
  ring

theorem fixed_svdMagnitudes (hrows : rows < 2 ^ 32) (columns : ℕ) :
    SvdMagnitudes fixedAdapter rows columns := by
  intro s hs p q correlation hp hq hnormP hnormQ hcorrelation
  have hle := abs_svdCorrelation_le hs hp hq hnormP hnormQ hcorrelation
  rw [fixed_abs]
  refine ⟨_, fixedResult_of_fits ⟨?_, ?_⟩⟩
  · have := abs_nonneg correlation.toInt
    omega
  · omega

/-- The tolerance can be formed only for fewer than `2 ^ 32` rows. -/
theorem rows_lt_of_svdTolerance (hrows : rows < 2 ^ 63)
    (h : svdTolerance fixedAdapter rows = .ok tolerance) : rows < 2 ^ 32 := by
  obtain ⟨constant, hconstant, -⟩ := ok_of_bind h
  change checked (linearsFixedFromInt (Int64.ofInt rows) (some 0)) = .ok constant at hconstant
  have hword : (Int64.ofInt rows).toInt = rows := toInt_ofInt_of_fits ⟨by omega, by omega⟩
  rw [linearsFixedFromInt, withOut_some] at hconstant
  split at hconstant
  · cases hconstant
  · rename_i hrange
    have hle := not_lt.mp (not_or.mp hrange).2
    rw [Int64.le_iff_toInt_le, hword] at hle
    change (rows : ℤ) ≤ 4294967295 at hle
    omega

/-- What holds when the sweep loop ends. -/
structure SvdConverged (rows columns : ℕ) (tolerance : Int64) (s : SvdState Int64) : Prop where
  norm : ∀ j < columns, fixedAdapter.norm (fun row => s.b (row, j)) rows = .ok (s.norms j)
  zero_column : ∀ j < columns, s.norms j = 0 → ∀ row < rows, s.b (row, j) = 0
  correlation : ∀ i j, i < j → j < columns → s.norms i ≠ 0 → s.norms j ≠ 0 →
    ∃ c, svdCorrelation fixedAdapter rows i j (s.norms i) (s.norms j) s.b = .ok c ∧
      |c.toInt| ≤ tolerance.toInt

theorem SvdVisits.converged (hrows : 0 < columns → rows < 2 ^ 32)
    (h : SvdVisits fixedAdapter rows columns maxSweeps tolerance start sweep columns q s)
    (hrotated : s.rotated = false) : SvdConverged rows columns tolerance s where
  norm := h.cached (fixed_norm_zero rows)
  zero_column j hj hzero row hrow := by
    have hle := (fixed_norm_ge (h.cached (fixed_norm_zero rows) j hj)).2 row hrow
    rw [hzero] at hle
    rw [← Int64.toInt_inj]
    exact abs_nonpos_iff.mp hle
  correlation i j hij hj hi hjn := by
    obtain ⟨c, magnitude, hc, habs, hle⟩ := h.settled (fixed_norm_zero rows)
      (fixed_svdMagnitudes (hrows (Nat.zero_lt_of_lt hj)) columns) hrotated hij hj
      (Or.inl (hij.trans hj)) hi hjn
    refine ⟨c, hc, ?_⟩
    rw [fixed_abs] at habs
    rw [← fixedResult_eq_ok habs]
    exact Int64.le_iff_toInt_le.mp hle

end Loop

/-! ## The order of the singular values -/

section Order

variable {rows columns maxSweeps : ℕ} {tolerance : Int64} {s t : SvdState Int64}

/-- Norms in the order the sort leaves them. -/
structure SvdOrdered (columns : ℕ) (norms : ℕ → Int64) : Prop where
  nonneg : ∀ j < columns, 0 ≤ (norms j).toInt
  sorted : ∀ i j, i ≤ j → j < columns → norms j ≤ norms i

theorem svdSort_ordered (h : ∀ j < columns, 0 ≤ (s.norms j).toInt) :
    SvdOrdered columns (svdSort columns s).norms := by
  have hsort : (∀ j < columns, 0 ≤ ((svdSort columns s).norms j).toInt) ∧
      ∀ i j, i < columns → i < j → j < columns →
        (svdSort columns s).norms j ≤ (svdSort columns s).norms i := by
    refine foldRange_induction (fun p (t : SvdState Int64) =>
      (∀ j < columns, 0 ≤ (t.norms j).toInt) ∧
        ∀ i j, i < p → i < j → j < columns → t.norms j ≤ t.norms i) (Nat.zero_le columns)
      ⟨h, fun i j hi => absurd hi (Nat.not_lt_zero i)⟩ ?_
    rintro p t - hp ⟨hnonneg, hsorted⟩
    refine ⟨fun j hj => ?_, fun i j => svdSortStep_sorted hp hsorted⟩
    rw [svdSortStep_norms]
    exact hnonneg _ (swap_lt hp (svdLargest_spec hp t.norms).2.1 hj)
  refine ⟨hsort.1, fun i j hij hj => ?_⟩
  rcases hij.lt_or_eq with hlt | rfl
  · exact hsort.2 i j (hlt.trans hj) hlt hj
  · exact le_rfl

theorem svdFinishColumn_norms {p : ℕ} (h : svdFinishColumn fixedAdapter rows p s = .ok t) :
    t.norms = s.norms := by
  rw [svdFinishColumn] at h
  split at h
  · obtain ⟨b, -, h⟩ := ok_of_bind h
    cases h
    rfl
  · split at h
    · cases h
    · obtain ⟨b, -, h⟩ := ok_of_bind h
      cases h
      rfl

theorem svdFactor_ordered {b w : Grid Int64}
    (h : svdFactor fixedAdapter rows columns maxSweeps tolerance b w = .ok t) :
    SvdOrdered columns t.norms := by
  obtain ⟨s, hs, h⟩ := ok_of_bind h
  obtain ⟨⟨sweep, q, hvisits⟩, -⟩ := (svdSweeps_start _).of_eq_ok hs
  have hcached := hvisits.cached (fixed_norm_zero rows)
  have hfinish : Ensures (forRange 0 columns (svdSort columns s) fun p s =>
      svdFinishColumn fixedAdapter rows p s)
      (fun t => t.norms = (svdSort columns s).norms) (fun _ => True) := by
    refine Ensures.forRange (fun _ (t : SvdState Int64) => t.norms = (svdSort columns s).norms)
      (Nat.zero_le columns) rfl ?_
    intro p u _ _ hu
    cases hfinished : svdFinishColumn fixedAdapter rows p u with
    | error e => trivial
    | ok v => exact (svdFinishColumn_norms hfinished).trans hu
  rw [hfinish.of_eq_ok h]
  exact svdSort_ordered fun j hj => (fixed_norm_ge (hcached j hj)).1

theorem svdScale_nonneg {b : Grid Int64} {scale : Int64}
    (h : svdScale fixedAdapter rows columns b = .ok scale) : 0 ≤ scale.toInt := by
  have hspec : Ensures (svdScale fixedAdapter rows columns b)
      (fun scale : Int64 => 0 ≤ scale.toInt) (fun _ => True) := by
    refine Ensures.forRange (fun _ (scale : Int64) => 0 ≤ scale.toInt) (Nat.zero_le rows)
      le_rfl ?_
    intro row scale _ _ hscale
    refine Ensures.forRange (fun _ (scale : Int64) => 0 ≤ scale.toInt) (Nat.zero_le columns)
      hscale ?_
    intro column scale _ _ hscale
    have habs : Ensures (fixedAdapter.abs (b (row, column))) (fun _ => True) (fun _ => True) := by
      rw [fixed_abs]
      exact (ensures_fixedResult _).mono (fun _ _ => trivial) fun _ _ => trivial
    refine habs.seq fun magnitude _ => ?_
    rw [ensures_ok]
    split
    · have hlt := Int64.lt_iff_toInt_lt.mp ‹scale < magnitude›
      omega
    · exact hscale
  exact hspec.of_eq_ok h

/-- Scaling by the nonnegative input maximum is monotone. -/
theorem svdTall_ordered {b : Grid Int64}
    (h : svdTall fixedAdapter rows columns maxSweeps b = .ok t) : SvdOrdered columns t.norms := by
  obtain ⟨scale, hscale, h⟩ := ok_of_bind h
  obtain ⟨scaled, -, h⟩ := ok_of_bind h
  obtain ⟨tolerance, -, h⟩ := ok_of_bind h
  split at h
  · cases h
  · obtain ⟨s, hs, h⟩ := ok_of_bind h
    obtain ⟨norms, hnorms, h⟩ := ok_of_bind h
    cases h
    have hordered := svdFactor_ordered hs
    have hnonneg := svdScale_nonneg hscale
    have hfilled : ∀ j < columns, (norms j).toInt =
        roundAway (((s.norms j).toInt : ℚ) * scale.toInt / 2 ^ 31) := by
      intro j hj
      have hcells := fillRange_eq_ok (fun _ _ _ hlt _ => hlt.ne) (fun i t _ _ hframe => by
        rw [hframe i fun k _ hk => hk.ne']) hnorms
      have hcell := hcells.1 j (Nat.zero_le j) hj
      rw [fixed_mul] at hcell
      exact fixedResult_eq_ok hcell
    have hscale' : (0 : ℚ) ≤ scale.toInt := by exact_mod_cast hnonneg
    refine ⟨fun j hj => ?_, fun i j hij hj => ?_⟩
    · dsimp only
      rw [hfilled j hj]
      have hnorm : (0 : ℚ) ≤ (s.norms j).toInt := by exact_mod_cast hordered.nonneg j hj
      exact roundAway_nonneg (by positivity)
    · have hle := Int64.le_iff_toInt_le.mp (hordered.sorted i j hij hj)
      have hle' : ((s.norms j).toInt : ℚ) ≤ (s.norms i).toInt := by exact_mod_cast hle
      rw [Int64.le_iff_toInt_le, hfilled j hj, hfilled i (hij.trans_lt hj)]
      exact roundAway_mono (by gcongr)

end Order

/-! ## The narrowed singular values -/

/-- Narrowing keeps the order and the sign of the accepted values. -/
structure MonotoneStore {Raw : Type} (F : Format Raw Int64) (code : Raw → ℤ) : Prop where
  preflights : Preflights F WithinOne
  mono : ∀ v w, WithinOne v → WithinOne w → v ≤ w → code (F.store v) ≤ code (F.store w)
  nonneg : ∀ v, WithinOne v → 0 ≤ v.toInt → 0 ≤ code (F.store v)

theorem endpoint_mono {bits : ℕ} {m n : ℤ} (h : m ≤ n) : endpoint bits m ≤ endpoint bits n := by
  rw [endpoint, endpoint]
  split <;> split <;> omega

theorem endpoint_nonneg {bits : ℕ} {n : ℤ} (h : 0 ≤ n) : 0 ≤ endpoint bits n := by
  have hpos : (0 : ℤ) < 2 ^ bits := by positivity
  rw [endpoint]
  split <;> omega

/-- The code of a format is the rounded value with the endpoint rule. -/
theorem monotoneStore_of_endpoint {Raw : Type} {F : Format Raw Int64} {code : Raw → ℤ}
    (bits shift : ℕ) (hF : Preflights F WithinOne)
    (hcode : ∀ v, WithinOne v →
      code (F.store v) = endpoint bits (roundAway ((v.toInt : ℚ) / 2 ^ shift))) :
    MonotoneStore F code where
  preflights := hF
  mono v w hv hw hle := by
    have hle' : (v.toInt : ℚ) ≤ w.toInt := by exact_mod_cast Int64.le_iff_toInt_le.mp hle
    rw [hcode v hv, hcode w hw]
    exact endpoint_mono (roundAway_mono (by gcongr))
  nonneg v hv hnonneg := by
    have hnonneg' : (0 : ℚ) ≤ v.toInt := by exact_mod_cast hnonneg
    rw [hcode v hv]
    exact endpoint_nonneg (roundAway_nonneg (by positivity))

theorem q15Format_monotoneStore : MonotoneStore q15Format Int16.toInt := by
  refine monotoneStore_of_endpoint 15 16 q15Format_preflights fun v hv => ?_
  obtain ⟨stored, hcall, hstored⟩ := linearsFixedToQ15_ok 0 (abs_le.mpr hv)
  have hsame := (q15Format_narrows v 0 hv).symm.trans hcall
  rw [Option.some.inj (congrArg Prod.snd hsame), hstored]

theorem q31Format_monotoneStore : MonotoneStore q31Format Int32.toInt := by
  refine monotoneStore_of_endpoint 31 0 q31Format_preflights fun v hv => ?_
  obtain ⟨stored, hcall, hstored⟩ := linearsFixedToQ31_ok 0 (abs_le.mpr hv)
  have hsame := (q31Format_narrows v 0 hv).symm.trans hcall
  rw [Option.some.inj (congrArg Prod.snd hsame), hstored]

/-- The stored singular values are nonnegative and nonincreasing. -/
def SingularValuesOrdered {Raw : Type} (F : Format Raw Int64) (code : Raw → ℤ)
    (m n maxSweeps : ℕ) : Prop :=
  ∀ a out, svdValues fixedAdapter F m n maxSweeps a = .ok out →
    (∀ p < min m n, 0 ≤ code (out.singularValues p)) ∧
    ∀ p q, p ≤ q → q < min m n → code (out.singularValues q) ≤ code (out.singularValues p)

theorem svdStore_ordered {Raw : Type} {F : Format Raw Int64} {code : Raw → ℤ}
    (hF : MonotoneStore F code) {m n columns : ℕ} {left right : Grid Int64} {norms : ℕ → Int64}
    (hnorms : SvdOrdered columns norms) {out : SvdOutput Raw}
    (h : svdStore fixedAdapter F m n columns left right norms = .ok out) :
    (∀ p < columns, 0 ≤ code (out.singularValues p)) ∧
      ∀ p q, p ≤ q → q < columns → code (out.singularValues q) ≤ code (out.singularValues p) := by
  obtain ⟨_, -, h⟩ := ok_of_bind h
  obtain ⟨_, hcheck, h⟩ := ok_of_bind h
  obtain ⟨_, -, h⟩ := ok_of_bind h
  cases h
  have hwithin : ∀ p < columns, WithinOne (norms p) := fun p hp =>
    (hF.preflights _ columns 1).mp hcheck p hp 0 Nat.one_pos
  refine ⟨fun p hp => hF.nonneg _ (hwithin p hp) (hnorms.nonneg p hp), fun p q hpq hq => ?_⟩
  exact hF.mono _ _ (hwithin q hq) (hwithin p (hpq.trans_lt hq)) (hnorms.sorted p q hpq hq)

theorem singularValuesOrdered {Raw : Type} {F : Format Raw Int64} {code : Raw → ℤ}
    (hF : MonotoneStore F code) (m n maxSweeps : ℕ) :
    SingularValuesOrdered F code m n maxSweeps := by
  intro a out h
  rw [svdValues] at h
  split at h
  · have hempty : min m n = 0 := by omega
    rw [hempty]
    exact ⟨fun p hp => absurd hp (Nat.not_lt_zero p),
      fun p q _ hq => absurd hq (Nat.not_lt_zero q)⟩
  · split at h
    · rename_i hwide
      obtain ⟨s, hs, h⟩ := ok_of_bind h
      rw [Nat.min_eq_left hwide.le]
      exact svdStore_ordered hF (svdTall_ordered hs) h
    · rename_i htall
      obtain ⟨s, hs, h⟩ := ok_of_bind h
      rw [Nat.min_eq_right (not_lt.mp htall)]
      exact svdStore_ordered hF (svdTall_ordered hs) h

/-! ## The certificate -/

/-- `LINEARS_SVD_WORKSPACE`, in elements. -/
def linearsSvdWorkspace (m n : ℕ) : ℕ :=
  m * n + min m n * min m n + min m n

/-- What `svd_factor` starts from. -/
def svdStart (b w : Grid Int64) : SvdState Int64 :=
  { b := b, w := w, norms := fun _ => 0, pending := .ok, rotated := false }

/-- Every shape whose workspace has a byte size: at any position of the loop the
sweeps that rotated number at most the budget, the loop ends with a sound cache
and all correlations within the tolerance, and stored singular values are in
order. -/
theorem svd_cache_certifies (m n maxSweeps : ℕ) (hsize : linearsSvdWorkspace m n * 8 < 2 ^ 64) :
    (∀ tolerance, svdTolerance fixedAdapter (max m n) = .ok tolerance → ∀ b w,
      (∀ sweep p q s, SvdVisits fixedAdapter (max m n) (min m n) maxSweeps tolerance
        (svdStart b w) sweep p q s → sweep + (if s.rotated then 1 else 0) ≤ maxSweeps) ∧
      Ensures (svdSweeps fixedAdapter (max m n) (min m n) tolerance maxSweeps 0 (svdStart b w))
        (fun s => (∃ sweep q, SvdVisits fixedAdapter (max m n) (min m n) maxSweeps tolerance
            (svdStart b w) sweep (min m n) q s) ∧
          SvdConverged (max m n) (min m n) tolerance s)
        (SvdStops fixedAdapter (max m n) (min m n) maxSweeps tolerance (svdStart b w))) ∧
      SingularValuesOrdered q15Format Int16.toInt m n maxSweeps ∧
      SingularValuesOrdered q31Format Int32.toInt m n maxSweeps := by
  refine ⟨fun tolerance htolerance b w => ⟨fun sweep p q s h => h.sweep_le, ?_⟩,
    singularValuesOrdered q15Format_monotoneStore m n maxSweeps,
    singularValuesOrdered q31Format_monotoneStore m n maxSweeps⟩
  refine (svdSweeps_start _).imp ?_
  rintro s ⟨⟨sweep, q, hvisits⟩, hrotated⟩
  refine ⟨⟨sweep, q, hvisits⟩, hvisits.converged (fun hcolumns => ?_) hrotated⟩
  refine rows_lt_of_svdTolerance ?_ htolerance
  have hrows : max m n * 1 ≤ max m n * min m n := Nat.mul_le_mul_left _ hcolumns
  rw [max_mul_min] at hrows
  rw [linearsSvdWorkspace] at hsize
  omega

theorem svd_cache_certifies_square :
    Ensures (svdSweeps fixedAdapter 2 2 16 3 0 (svdStart (fun _ => 1) (identityGrid fixedAdapter)))
        (fun s => SvdConverged 2 2 16 s) (fun _ => True) ∧
      SingularValuesOrdered q15Format Int16.toInt 2 2 3 := by
  obtain ⟨hloop, hq15, -⟩ := svd_cache_certifies 2 2 3 (by decide)
  obtain ⟨-, hends⟩ := hloop 16 rfl (fun _ => 1) (identityGrid fixedAdapter)
  exact ⟨hends.mono (fun _ h => h.2) fun _ _ => trivial, hq15⟩

end Xhive.Linears
