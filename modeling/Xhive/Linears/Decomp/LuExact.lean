import Xhive.Linears.Decomp.LuInvariant
import Xhive.Support.QuadraticForms

/-!
# Elimination over an exact ordered field

With exact arithmetic the invariant has no error term: the templates compute
`P A = L U`, solve linear systems, invert, and evaluate determinants.
-/

namespace Xhive.Linears

open Xhive.Support Matrix

/-- The matrix in the leading block of a working array. -/
def gridMatrix {K : Type} (m n : ℕ) (a : Grid K) : Matrix (Fin m) (Fin n) K :=
  Matrix.of fun i j => a (i, j)

section Factors

variable {K : Type} [Field K] {n : ℕ}

/-- Rows of `U` above row `k`, the active block from there on. -/
def partialUpper (n k : ℕ) (work : Grid K) : Matrix (Fin n) (Fin n) K :=
  Matrix.of fun i j => if (i : ℕ) < k then upperEntry id work i j else restEntry id work k i j

/-- The multipliers of the first `k` columns. -/
def partialLower (n k : ℕ) (work : Grid K) : Matrix (Fin n) (Fin n) K :=
  Matrix.of fun i j => if (j : ℕ) < k then lowerEntry id 1 work i j else if i = j then 1 else 0

theorem det_partialLower (k : ℕ) (work : Grid K) : (partialLower n k work).det = 1 := by
  rw [Matrix.det_of_isLowerTriangular]
  · refine Finset.prod_eq_one fun i _ => ?_
    rw [partialLower, Matrix.of_apply, lowerEntry_self, if_pos rfl, ite_self]
  · intro i j hij
    have hlt : (i : ℕ) < j := hij
    have hne : i ≠ j := fun h => hlt.ne (congrArg Fin.val h)
    rw [partialLower, Matrix.of_apply, lowerEntry_of_gt hlt, if_neg hne, ite_self]

theorem det_eq_of_permMatrix_mul {σ : Equiv.Perm (Fin n)} {M N L : Matrix (Fin n) (Fin n) K}
    (h : σ.permMatrix K * M = L * N) (hL : L.det = 1) :
    M.det = ((Equiv.Perm.sign σ : ℤ) : K) * N.det := by
  have hdet := congrArg Matrix.det h
  rw [Matrix.det_mul, Matrix.det_mul, hL, one_mul, Matrix.det_permutation] at hdet
  rw [← hdet, ← mul_assoc]
  have hsq : (((Equiv.Perm.sign σ : ℤˣ) : ℤ) : K) * (((Equiv.Perm.sign σ : ℤˣ) : ℤ) : K) = 1 := by
    rw [← Int.cast_mul, ← Units.val_mul, Int.units_mul_self, Units.val_one, Int.cast_one]
  rw [hsq, one_mul]

end Factors

section Exact

variable {K : Type} [Field K] [LinearOrder K] [IsStrictOrderedRing K]
variable (fixed : Bool) (sqrt : K → K) (epsilon : K)

theorem exact_eliminationArith :
    EliminationArith (exactAdapter K fixed sqrt epsilon) id 1 0 0 (fun _ => False) where
  value_le _ _ := Iff.rfl
  value_zero := rfl
  value_one := rfl
  abs _ := rfl
  div x y hy hle := by
    rw [id] at hy hle
    have hpos : (0 : K) < |y| := abs_pos.mpr hy
    refine ⟨?_, ?_⟩
    · rw [id, id, id, one_mul, div_mul_cancel₀ x hy, sub_self, abs_zero, zero_mul]
    · rw [id, abs_div, div_le_one hpos]
      exact hle
  subProduct v f x := by
    rw [exact_subProduct]
    simp

variable {n rhs : ℕ} {a b : Grid K}

/-! ## The factors -/

/-- The exact reading of the invariant after `k` steps. -/
theorem LuInvariant.entry_eq {k : ℕ} {s : LuState K} (h : LuInvariant id 1 0 0 n rhs a b k s)
    {i j : ℕ} (hi : i < n) (hj : j < n) :
    a (s.permutation i, j) =
      ∑ m ∈ Finset.range k, lowerEntry id 1 s.a i m * upperEntry id s.a m j +
        restEntry id s.a k i j := by
  have hentry := h.entry i j hi hj
  simp only [entryError, zero_mul, ite_self, add_zero, one_mul, id] at hentry
  have hzero := abs_nonpos_iff.mp hentry
  linear_combination hzero

theorem LuInvariant.rhs_eq {s : LuState K} (h : LuInvariant id 1 0 0 n rhs a b n s)
    {i c : ℕ} (hi : i < n) (hc : c < rhs) :
    b (s.permutation i, c) =
      ∑ m ∈ Finset.range n, lowerEntry id 1 s.a i m * s.b (m, c) := by
  have hentry := h.rhsEntry i c hi hc
  simp only [zero_mul, one_mul, id, if_neg (not_le.mpr hi), sub_zero] at hentry
  exact sub_eq_zero.mp (abs_nonpos_iff.mp hentry)

/-- Half-eliminated form of the permuted input. -/
theorem LuInvariant.permuted_eq {k : ℕ} {s : LuState K} (hk : k ≤ n)
    (h : LuInvariant id 1 0 0 n rhs a b k s) :
    ∃ σ : Equiv.Perm (Fin n), (∀ i : Fin n, s.permutation i = σ i) ∧
      s.parity = (Equiv.Perm.sign σ : ℤ) ∧
      σ.permMatrix K * gridMatrix n n a = partialLower n k s.a * partialUpper n k s.a := by
  obtain ⟨σ, hσ, hsign⟩ := h.perm
  refine ⟨σ, hσ, hsign, ?_⟩
  ext i j
  rw [permMatrix_mul_apply, gridMatrix, Matrix.of_apply, ← hσ, h.entry_eq i.isLt j.isLt,
    Matrix.mul_apply]
  have hsplit : ∀ m : Fin n, partialLower n k s.a i m * partialUpper n k s.a m j =
      (if (m : ℕ) < k then lowerEntry id 1 s.a i m * upperEntry id s.a m j else 0) +
        if i = m then restEntry id s.a k i j else 0 := by
    intro m
    rw [partialLower, partialUpper, Matrix.of_apply, Matrix.of_apply]
    by_cases hm : (m : ℕ) < k
    · rw [if_pos hm, if_pos hm, if_pos hm]
      by_cases him : i = m
      · rw [if_pos him, him, restEntry_of_lt (Or.inl hm), add_zero]
      · rw [if_neg him, add_zero]
    · rw [if_neg hm, if_neg hm, if_neg hm, zero_add]
      by_cases him : i = m
      · rw [if_pos him, if_pos him, him, one_mul]
      · rw [if_neg him, if_neg him, zero_mul]
  rw [Finset.sum_congr rfl fun m _ => hsplit m, Finset.sum_add_distrib,
    Finset.sum_ite_eq Finset.univ i, if_pos (Finset.mem_univ i)]
  congr 1
  rw [Fin.sum_univ_eq_sum_range
    (fun m => if m < k then lowerEntry id 1 s.a i m * upperEntry id s.a m j else 0),
    ← Finset.sum_filter]
  refine Finset.sum_congr ?_ fun _ _ => rfl
  ext m
  rw [Finset.mem_range, Finset.mem_filter, Finset.mem_range]
  omega

/-- A vanishing active column makes the input singular. -/
theorem LuInvariant.det_eq_zero {k : ℕ} {s : LuState K} (hk : k < n)
    (h : LuInvariant id 1 0 0 n rhs a b k s)
    (hzero : ∀ i, k ≤ i → i < n → s.a (i, k) = 0) : (gridMatrix n n a).det = 0 := by
  obtain ⟨σ, -, -, hmul⟩ := h.permuted_eq hk.le
  rw [det_eq_of_permMatrix_mul hmul (det_partialLower k s.a),
    det_eq_zero_of_zero_block (k := ⟨k, hk⟩) (fun i j hi hj => ?_), mul_zero]
  have hi' : k ≤ (i : ℕ) := hi
  have hj' : (j : ℕ) ≤ k := hj
  rw [partialUpper, Matrix.of_apply, if_neg (not_lt.mpr hi')]
  rcases hj'.lt_or_eq with hlt | heq
  · exact restEntry_of_lt (Or.inr hlt)
  · rw [restEntry_of_le hi' heq.ge, heq]
    exact hzero i hi' i.isLt

omit [IsStrictOrderedRing K] in
theorem partialLower_eq (work : Grid K) :
    partialLower n n work = gridMatrix n n (luLower (exactAdapter K fixed sqrt epsilon) work) := by
  ext i j
  rw [partialLower, Matrix.of_apply, if_pos j.isLt, gridMatrix, Matrix.of_apply, luLower,
    lowerEntry]
  rcases lt_trichotomy (i : ℕ) j with h | h | h
  · simp [h.ne, h.ne', h.not_gt]
  · simp [h]
  · simp [h, h.ne']

omit [IsStrictOrderedRing K] in
theorem partialUpper_eq (work : Grid K) :
    partialUpper n n work = gridMatrix n n (luUpper (exactAdapter K fixed sqrt epsilon) work) := by
  ext i j
  rw [partialUpper, Matrix.of_apply, if_pos i.isLt]
  rfl

/-- What an exact factorisation delivers. -/
structure LuExactResult (n : ℕ) (a l u : Grid K) (permutation : ℕ → ℕ) (parity : ℤ) : Prop where
  det_ne_zero : (gridMatrix n n a).det ≠ 0
  lower : ∀ i j : Fin n, i ≤ j → gridMatrix n n l i j = if i = j then 1 else 0
  upper : ∀ i j : Fin n, j < i → gridMatrix n n u i j = 0
  perm : ∃ σ : Equiv.Perm (Fin n), (∀ i : Fin n, permutation i = σ i) ∧
    parity = (Equiv.Perm.sign σ : ℤ) ∧
    σ.permMatrix K * gridMatrix n n a = gridMatrix n n l * gridMatrix n n u

omit [LinearOrder K] [IsStrictOrderedRing K] in
theorem det_partialUpper (work : Grid K) :
    (partialUpper n n work).det = ∏ m ∈ Finset.range n, work (m, m) := by
  rw [Matrix.det_of_isUpperTriangular]
  · rw [← Fin.prod_univ_eq_prod_range (fun m => work (m, m))]
    refine Finset.prod_congr rfl fun i _ => ?_
    rw [partialUpper, Matrix.of_apply, if_pos i.isLt, upperEntry_of_le le_rfl]
    rfl
  · intro i j hij
    have hlt : (j : ℕ) < i := hij
    rw [partialUpper, Matrix.of_apply, if_pos i.isLt, upperEntry_of_gt hlt]

/-- The determinant is the signed product of the pivots. -/
theorem LuInvariant.det_eq {s : LuState K} (h : LuInvariant id 1 0 0 n rhs a b n s) :
    (gridMatrix n n a).det = (s.parity : K) * ∏ m ∈ Finset.range n, s.a (m, m) := by
  obtain ⟨σ, -, hsign, hmul⟩ := h.permuted_eq le_rfl
  rw [det_eq_of_permMatrix_mul hmul (det_partialLower n s.a), hsign, det_partialUpper]

theorem LuInvariant.det_ne_zero {s : LuState K} (h : LuInvariant id 1 0 0 n rhs a b n s) :
    (gridMatrix n n a).det ≠ 0 := by
  obtain ⟨σ, -, hsign⟩ := h.perm
  rw [h.det_eq]
  refine mul_ne_zero ?_ (Finset.prod_ne_zero_iff.mpr fun m hm => ?_)
  · rw [hsign]
    exact_mod_cast (Equiv.Perm.sign σ).ne_zero
  · exact h.pivot m (Finset.mem_range.mp hm)

theorem luFactor_exact_spec (n rhs : ℕ) (a b : Grid K) :
    Ensures (luFactor (exactAdapter K fixed sqrt epsilon) n rhs a b)
      (LuInvariant id 1 0 0 n rhs a b n)
      (fun e => e = .errorSingular ∧ (gridMatrix n n a).det = 0) := by
  refine (luFactor_spec (exact_eliminationArith fixed sqrt epsilon) n rhs a b).mono
    (fun _ h => h) ?_
  rintro e (hfalse | ⟨rfl, k, hk, s, hinv, hzero⟩)
  · exact hfalse.elim
  · exact ⟨rfl, hinv.det_eq_zero hk hzero⟩

theorem luExactResult_of_invariant {s : LuState K} (h : LuInvariant id 1 0 0 n rhs a b n s) :
    LuExactResult n a (luLower (exactAdapter K fixed sqrt epsilon) s.a)
      (luUpper (exactAdapter K fixed sqrt epsilon) s.a) s.permutation s.parity := by
  refine ⟨h.det_ne_zero, ?_, ?_, ?_⟩
  · intro i j hij
    rw [gridMatrix, Matrix.of_apply, luLower]
    rcases hij.lt_or_eq with hlt | rfl
    · have hval : (i : ℕ) < j := hlt
      simp [hlt.ne, hval.ne, hval.not_gt]
    · simp
  · intro i j hji
    have hval : (j : ℕ) < i := hji
    rw [gridMatrix, Matrix.of_apply, luUpper, if_neg (not_le.mpr hval)]
    rfl
  · obtain ⟨σ, hσ, hsign, hmul⟩ := h.permuted_eq le_rfl
    rw [partialLower_eq fixed sqrt epsilon, partialUpper_eq fixed sqrt epsilon] at hmul
    exact ⟨σ, hσ, hsign, hmul⟩

/-! ## Back substitution -/

omit [IsStrictOrderedRing K] in
/-- One row solves its equation for the rows below it. -/
theorem substituteRow_exact {row : ℕ} (hrow : row < n) (rhs : ℕ) (lu b : Grid K)
    (hdiag : lu (row, row) ≠ 0) :
    Ensures (substituteRow (exactAdapter K fixed sqrt epsilon) n rhs lu row b)
      (fun t => (∀ c < rhs, lu (row, row) * t (row, c) +
          ∑ i ∈ Finset.range (n - row - 1), lu (row, row + 1 + i) * t (row + 1 + i, c) =
            b (row, c)) ∧
        ∀ r c, r ≠ row → t (r, c) = b (r, c)) (fun _ => False) := by
  have hvalue : ∀ (c : ℕ) (t : Grid K),
      (do
        let value ←
          if row + 1 < n then
            (exactAdapter K fixed sqrt epsilon).dotSub (t (row, c)) (fun i => lu (row, row + 1 + i))
              (fun i => t (row + 1 + i, c)) (n - row - 1)
          else .ok (t (row, c))
        (exactAdapter K fixed sqrt epsilon).div value (lu (row, row))) =
      .ok ((t (row, c) - ∑ i ∈ Finset.range (n - row - 1),
        lu (row, row + 1 + i) * t (row + 1 + i, c)) / lu (row, row)) := by
    intro c t
    by_cases hlast : row + 1 < n
    · rw [if_pos hlast, exact_dotSub]
      rfl
    · rw [if_neg hlast, show n - row - 1 = 0 by omega, Finset.range_zero, Finset.sum_empty,
        sub_zero]
      rfl
  rw [substituteRow]
  simp only [hvalue]
  refine Ensures.imp (Ensures.fillRange ?_ ?_ ?_) ?_
  · intro c c' _ hlt _ heq
    exact hlt.ne (congrArg Prod.snd heq)
  · intro c t _ _ hframe
    have hsame : ∀ r, t (r, c) = b (r, c) := fun r =>
      hframe (r, c) fun c' _ hlt heq => hlt.ne' (congrArg Prod.snd heq)
    simp only [hsame]
  · intro c e _ _ heq
    exact absurd heq nofun
  · rintro t ⟨hsolved, hframe⟩
    have hother : ∀ r c, r ≠ row → t (r, c) = b (r, c) := fun r c hr =>
      hframe (r, c) fun c' _ _ heq => hr (congrArg Prod.fst heq)
    refine ⟨fun c hc => ?_, hother⟩
    have heq := Except.ok.inj (hsolved c (Nat.zero_le c) hc)
    rw [← heq, mul_div_cancel₀ _ hdiag]
    have hsum : ∑ i ∈ Finset.range (n - row - 1), lu (row, row + 1 + i) * t (row + 1 + i, c) =
        ∑ i ∈ Finset.range (n - row - 1), lu (row, row + 1 + i) * b (row + 1 + i, c) :=
      Finset.sum_congr rfl fun i _ => by rw [hother _ c (by omega)]
    rw [hsum]
    ring

omit [IsStrictOrderedRing K] in
theorem backSubstitute_exact (n rhs : ℕ) (lu b : Grid K) (hdiag : ∀ m < n, lu (m, m) ≠ 0) :
    Ensures (backSubstitute (exactAdapter K fixed sqrt epsilon) n rhs lu b)
      (fun x => ∀ row < n, ∀ c < rhs, lu (row, row) * x (row, c) +
        ∑ i ∈ Finset.range (n - row - 1), lu (row, row + 1 + i) * x (row + 1 + i, c) =
          b (row, c)) (fun _ => False) := by
  refine Ensures.imp (Ensures.forRange (fun step (x : Grid K) =>
    (∀ row, n - step ≤ row → row < n → ∀ c < rhs, lu (row, row) * x (row, c) +
        ∑ i ∈ Finset.range (n - row - 1), lu (row, row + 1 + i) * x (row + 1 + i, c) =
          b (row, c)) ∧
      ∀ r c, r < n - step → x (r, c) = b (r, c)) (Nat.zero_le n) ?_ ?_) ?_
  · exact ⟨fun row hle hlt => by omega, fun _ _ _ => rfl⟩
  · rintro step x _ hstep ⟨hsolved, hrest⟩
    have hrow : n - 1 - step < n := by omega
    refine (substituteRow_exact fixed sqrt epsilon hrow rhs lu x (hdiag _ hrow)).imp ?_
    rintro t ⟨hnew, hframe⟩
    refine ⟨fun row hle hlt c hc => ?_, fun r c hr => ?_⟩
    · rcases Nat.lt_or_ge (n - 1 - step) row with hgt | hge
      · rw [hframe row c (by omega), ← hsolved row (by omega) hlt c hc]
        congr 1
        refine Finset.sum_congr rfl fun i _ => ?_
        rw [hframe _ c (by omega)]
      · obtain rfl : row = n - 1 - step := by omega
        rw [hnew c hc, hrest _ c (by omega)]
    · rw [hframe r c (by omega), hrest r c (by omega)]
  · rintro x ⟨hsolved, -⟩ row hrow c hc
    exact hsolved row (by omega) hrow c hc

/-! ## Linear systems -/

omit [LinearOrder K] [IsStrictOrderedRing K] in
/-- A row of the upper factor starts at its diagonal. -/
theorem sum_upperEntry {row : ℕ} (hrow : row < n) (lu x : Grid K) (c : ℕ) :
    ∑ j ∈ Finset.range n, upperEntry id lu row j * x (j, c) =
      lu (row, row) * x (row, c) +
        ∑ i ∈ Finset.range (n - row - 1), lu (row, row + 1 + i) * x (row + 1 + i, c) := by
  have hbefore : ∑ j ∈ Finset.Ico 0 row, upperEntry id lu row j * x (j, c) = 0 :=
    Finset.sum_eq_zero fun j hj => by
      rw [upperEntry_of_gt (Finset.mem_Ico.mp hj).2, zero_mul]
  rw [Finset.range_eq_Ico, ← Finset.sum_Ico_consecutive _ (Nat.zero_le row) hrow.le, hbefore,
    zero_add, Finset.sum_eq_sum_Ico_succ_bot hrow, upperEntry_of_le le_rfl,
    Finset.sum_Ico_eq_sum_range, Nat.sub_add_eq]
  refine congrArg _ (Finset.sum_congr rfl fun i _ => ?_)
  rw [upperEntry_of_le (by omega)]
  rfl

theorem solveWork_exact (n rhs : ℕ) (a b : Grid K) :
    Ensures (solveWork (exactAdapter K fixed sqrt epsilon) n rhs a b)
      (fun x => (gridMatrix n n a).det ≠ 0 ∧
        gridMatrix n n a * gridMatrix n rhs x = gridMatrix n rhs b)
      (fun e => e = .errorSingular ∧ (gridMatrix n n a).det = 0) := by
  refine (luFactor_exact_spec fixed sqrt epsilon n rhs a b).seq fun s hinv => ?_
  refine (backSubstitute_exact fixed sqrt epsilon n rhs s.a s.b hinv.pivot).mono ?_
    fun _ h => h.elim
  intro x hx
  refine ⟨hinv.det_ne_zero, ?_⟩
  obtain ⟨σ, hσ, -, hmul⟩ := hinv.permuted_eq le_rfl
  have hupper : partialUpper n n s.a * gridMatrix n rhs x = gridMatrix n rhs s.b := by
    ext i c
    rw [Matrix.mul_apply, gridMatrix, gridMatrix, Matrix.of_apply, ← hx i i.isLt c c.isLt,
      ← sum_upperEntry i.isLt, ← Fin.sum_univ_eq_sum_range]
    refine Finset.sum_congr rfl fun j _ => ?_
    rw [partialUpper, Matrix.of_apply, Matrix.of_apply, if_pos i.isLt]
  have hlower : σ.permMatrix K * gridMatrix n rhs b =
      partialLower n n s.a * gridMatrix n rhs s.b := by
    ext i c
    rw [permMatrix_mul_apply, Matrix.mul_apply, gridMatrix, gridMatrix, Matrix.of_apply, ← hσ,
      hinv.rhs_eq i.isLt c.isLt, ← Fin.sum_univ_eq_sum_range]
    refine Finset.sum_congr rfl fun m _ => ?_
    rw [partialLower, Matrix.of_apply, Matrix.of_apply, if_pos m.isLt]
  have hperm : σ.permMatrix K * (gridMatrix n n a * gridMatrix n rhs x) =
      σ.permMatrix K * gridMatrix n rhs b := by
    rw [← Matrix.mul_assoc, hmul, Matrix.mul_assoc, hupper, hlower]
  ext i c
  have hentry := congrFun (congrFun hperm (σ.symm i)) c
  rwa [permMatrix_mul_apply, permMatrix_mul_apply, Equiv.apply_symm_apply] at hentry

/-! ## The diagonal product -/

omit [IsStrictOrderedRing K] in
theorem chooseFactor_exact {i : ℕ} (hi : i < n) (product : K) (diagonal : ℕ → K) :
    Ensures (chooseFactor (exactAdapter K fixed sqrt epsilon) n i product diagonal)
      (fun best => i ≤ best.1 ∧ best.1 < n) (fun _ => False) := by
  refine Ensures.forRange (fun _ (best : ℕ × K) => i ≤ best.1 ∧ best.1 < n) hi ⟨le_rfl, hi⟩ ?_
  intro j best hlo hhi hbest
  change Ensures (.ok _) _ _
  rw [ensures_ok]
  split
  · exact ⟨by omega, hhi⟩
  · exact hbest

omit [LinearOrder K] [IsStrictOrderedRing K] in
/-- Exchanging two of the remaining factors keeps their product. -/
theorem prod_swap {i p : ℕ} (hip : i ≤ p) (hp : p < n) (diagonal : ℕ → K) :
    ∏ j ∈ Finset.Ico i n, diagonal (Equiv.swap i p j) = ∏ j ∈ Finset.Ico i n, diagonal j := by
  refine Equiv.Perm.prod_comp (Equiv.swap i p) (Finset.Ico i n) diagonal ?_
  intro j hj
  have hmoved : Equiv.swap i p j ≠ j := hj
  rw [Finset.coe_Ico, Set.mem_Ico]
  rcases swap_cases i p j with ⟨h, -⟩ | ⟨h, -⟩ | ⟨-, -, h⟩
  · omega
  · omega
  · exact absurd h hmoved

omit [IsStrictOrderedRing K] in
/-- Whatever order the factors are taken in, the product is the same. -/
theorem diagonalProduct_exact (n : ℕ) (parity : ℤ) (diagonal : ℕ → K) :
    Ensures (diagonalProduct (exactAdapter K fixed sqrt epsilon) n parity diagonal)
      (fun product => product =
        (if parity < 0 then -1 else 1) * ∏ j ∈ Finset.range n, diagonal j) (fun _ => False) := by
  refine Ensures.seq (Ensures.forRange (fun i (state : K × (ℕ → K)) =>
    state.1 * ∏ j ∈ Finset.Ico i n, state.2 j = ∏ j ∈ Finset.range n, diagonal j)
    (Nat.zero_le n) ?_ ?_) fun state hstate => ?_
  · dsimp only
    rw [← Finset.range_eq_Ico]
    exact one_mul _
  · intro i state _ hi hstate
    refine (chooseFactor_exact fixed sqrt epsilon hi state.1 state.2).seq fun best hbest => ?_
    change state.1 * state.2 (Equiv.swap i best.1 i) *
      ∏ j ∈ Finset.Ico (i + 1) n, state.2 (Equiv.swap i best.1 j) = _
    rw [← hstate, ← prod_swap hbest.1 hbest.2 state.2, Finset.prod_eq_prod_Ico_succ_bot hi,
      mul_assoc]
  · rw [Finset.Ico_self, Finset.prod_empty, mul_one] at hstate
    split
    · rw [← hstate]
      exact (neg_one_mul state.1).symm
    · rw [← hstate, one_mul]
      rfl

/-! ## The templates as a whole -/

theorem solveValues_exact (n rhs : ℕ) (a b : Grid K) :
    Ensures (solveValues (exactAdapter K fixed sqrt epsilon) (exactFormat K) n rhs a b)
      (fun x => (gridMatrix n n a).det ≠ 0 ∧
        gridMatrix n n a * gridMatrix n rhs x = gridMatrix n rhs b ∧
        ∀ y : Matrix (Fin n) (Fin rhs) K,
          gridMatrix n n a * y = gridMatrix n rhs b → y = gridMatrix n rhs x)
      (fun e => e = .errorSingular ∧ (gridMatrix n n a).det = 0) := by
  refine (solveWork_exact fixed sqrt epsilon n rhs a b).seq fun x hx => ?_
  obtain ⟨hdet, hmul⟩ := hx
  refine ⟨hdet, hmul, fun y hy => ?_⟩
  have hcancel := congrArg ((gridMatrix n n a)⁻¹ * ·) (hy.trans hmul.symm)
  rwa [Matrix.nonsing_inv_mul_cancel_left _ _ (isUnit_iff_ne_zero.mpr hdet),
    Matrix.nonsing_inv_mul_cancel_left _ _ (isUnit_iff_ne_zero.mpr hdet)] at hcancel

omit [IsStrictOrderedRing K] in
theorem gridMatrix_identityGrid (n : ℕ) :
    gridMatrix n n (identityGrid (exactAdapter K fixed sqrt epsilon)) = 1 := by
  ext i j
  rw [gridMatrix, Matrix.of_apply, Matrix.one_apply, identityGrid]
  simp only [Fin.ext_iff]
  rfl

theorem inverseValues_exact (n : ℕ) (a : Grid K) :
    Ensures (inverseValues (exactAdapter K fixed sqrt epsilon) (exactFormat K) n a)
      (fun x => (gridMatrix n n a).det ≠ 0 ∧ gridMatrix n n x = (gridMatrix n n a)⁻¹)
      (fun e => e = .errorSingular ∧ (gridMatrix n n a).det = 0) := by
  refine (solveWork_exact fixed sqrt epsilon n n a _).seq fun x hx => ?_
  obtain ⟨hdet, hmul⟩ := hx
  rw [gridMatrix_identityGrid] at hmul
  exact ⟨hdet, (Matrix.inv_eq_right_inv hmul).symm⟩

omit [LinearOrder K] [IsStrictOrderedRing K] in
theorem parity_eq_ite {σ : Equiv.Perm (Fin n)} {parity : ℤ}
    (h : parity = (Equiv.Perm.sign σ : ℤ)) :
    (if parity < 0 then (-1 : K) else 1) = (parity : K) := by
  rcases Int.units_eq_one_or (Equiv.Perm.sign σ) with hσ | hσ <;> rw [h, hσ] <;> simp

theorem determinantWork_exact (n : ℕ) (a : Grid K) :
    determinantWork (exactAdapter K fixed sqrt epsilon) n a = .ok (gridMatrix n n a).det := by
  have hfactor := luFactor_exact_spec fixed sqrt epsilon n 0 a fun _ => 0
  rw [determinantWork]
  cases hrun : luFactor (exactAdapter K fixed sqrt epsilon) n 0 a
      fun _ => (exactAdapter K fixed sqrt epsilon).zero with
  | error e =>
      obtain ⟨rfl, hdet⟩ := hfactor.of_eq_error hrun
      rw [hdet]
      rfl
  | ok s =>
      have hinv := hfactor.of_eq_ok hrun
      obtain ⟨σ, -, hsign⟩ := hinv.perm
      obtain ⟨product, hok, hproduct⟩ :=
        (diagonalProduct_exact fixed sqrt epsilon n s.parity fun i => s.a (i, i)).exists_ok
      rw [parity_eq_ite hsign, ← hinv.det_eq] at hproduct
      dsimp only
      rw [hok, hproduct]

theorem determinantValues_exact (n : ℕ) (a : Grid K) :
    determinantValues (exactAdapter K fixed sqrt epsilon) (exactFormat K) n a =
      .ok (gridMatrix n n a).det := by
  rw [determinantValues, show loadGrid (exactFormat K) a = a from rfl, determinantWork_exact]
  rfl

theorem luValues_exact (n : ℕ) (a : Grid K) :
    Ensures (luValues (exactAdapter K fixed sqrt epsilon) (exactFormat K) n a)
      (fun out => LuExactResult n a out.l out.u out.permutation out.parity)
      (fun e => e = .errorSingular ∧ (gridMatrix n n a).det = 0) :=
  (luFactor_exact_spec fixed sqrt epsilon n 0 a _).seq fun _ hinv =>
    luExactResult_of_invariant fixed sqrt epsilon hinv

/-- Over an exact ordered field, in either operation order: `lu_factor` and `lu`
report SINGULAR exactly for a zero determinant and otherwise factor `P A = L U`
with the permutation's sign, `solve` returns the unique solution, `inverse` the
inverse, and `determinant` the determinant. -/
theorem elimination_templates_exact (n : ℕ) (a : Grid K) :
    (∀ (rhs : ℕ) (b : Grid K), Ensures (luFactor (exactAdapter K fixed sqrt epsilon) n rhs a b)
      (fun s => LuExactResult n a (luLower (exactAdapter K fixed sqrt epsilon) s.a)
        (luUpper (exactAdapter K fixed sqrt epsilon) s.a) s.permutation s.parity)
      (fun e => e = .errorSingular ∧ (gridMatrix n n a).det = 0)) ∧
    Ensures (luValues (exactAdapter K fixed sqrt epsilon) (exactFormat K) n a)
      (fun out => LuExactResult n a out.l out.u out.permutation out.parity)
      (fun e => e = .errorSingular ∧ (gridMatrix n n a).det = 0) ∧
    (∀ (rhs : ℕ) (b : Grid K),
      Ensures (solveValues (exactAdapter K fixed sqrt epsilon) (exactFormat K) n rhs a b)
        (fun x => (gridMatrix n n a).det ≠ 0 ∧
          gridMatrix n n a * gridMatrix n rhs x = gridMatrix n rhs b ∧
          ∀ y : Matrix (Fin n) (Fin rhs) K,
            gridMatrix n n a * y = gridMatrix n rhs b → y = gridMatrix n rhs x)
        (fun e => e = .errorSingular ∧ (gridMatrix n n a).det = 0)) ∧
    Ensures (inverseValues (exactAdapter K fixed sqrt epsilon) (exactFormat K) n a)
      (fun x => (gridMatrix n n a).det ≠ 0 ∧ gridMatrix n n x = (gridMatrix n n a)⁻¹)
      (fun e => e = .errorSingular ∧ (gridMatrix n n a).det = 0) ∧
    determinantValues (exactAdapter K fixed sqrt epsilon) (exactFormat K) n a =
      .ok (gridMatrix n n a).det := by
  refine ⟨fun rhs b => ?_, ?_, ?_, ?_, ?_⟩
  · exact (luFactor_exact_spec fixed sqrt epsilon n rhs a b).imp fun s hinv =>
      luExactResult_of_invariant fixed sqrt epsilon hinv
  · exact luValues_exact fixed sqrt epsilon n a
  · exact fun rhs b => solveValues_exact fixed sqrt epsilon n rhs a b
  · exact inverseValues_exact fixed sqrt epsilon n a
  · exact determinantValues_exact fixed sqrt epsilon n a

/-- A 2-by-2 input whose first pivot needs a row exchange. -/
theorem elimination_templates_exact_exchange :
    determinantValues (exactAdapter ℚ true id 0) (exactFormat ℚ) 2
        (fun x => if x = (0, 0) then 0 else x.1 + x.2) = .ok (-1) := by
  have h := (elimination_templates_exact true id (0 : ℚ) 2
    (fun x => if x = (0, 0) then 0 else (x.1 : ℚ) + x.2)).2.2.2.2
  have hdet : (gridMatrix 2 2 (fun x : ℕ × ℕ => if x = (0, 0) then (0 : ℚ) else x.1 + x.2)).det =
      -1 := by
    rw [Matrix.det_fin_two]
    simp [gridMatrix]
  rw [hdet] at h
  exact h

end Exact

end Xhive.Linears
