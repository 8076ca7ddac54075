import Xhive.Linears.Decomp.CholeskyFactor

/-!
# The Cholesky factor in fixed point and over an exact field

In fixed point each entry of `A` is met within the two roundings of its own
equation.  Over an exact field with square roots the factor reproduces `A`, and
the only refusal of a symmetric argument is that it is not positive definite.
-/

namespace Xhive.Linears

open Xhive.Support

/-! ## Fixed point -/

/-- A rounded quotient times its divisor misses the dividend by half of it. -/
theorem two_mul_abs_sub_roundAway_mul_le (n : ℤ) {d : ℤ} (hd : 0 < d) :
    2 * |n - roundAway ((n : ℚ) / d) * d| ≤ d := by
  have herror := abs_sub_roundAway_le ((n : ℚ) / d)
  have hpos : (0 : ℚ) < d := by exact_mod_cast hd
  have hscaled : |(n : ℚ) - roundAway ((n : ℚ) / d) * d| ≤ d / 2 := by
    calc
      |(n : ℚ) - roundAway ((n : ℚ) / d) * d|
        = |(n : ℚ) / d - roundAway ((n : ℚ) / d)| * d := by
          rw [← abs_of_pos hpos, ← abs_mul, abs_of_pos hpos, sub_mul, div_mul_cancel₀ _ hpos.ne']
      _ ≤ 1 / 2 * d := mul_le_mul_of_nonneg_right herror hpos.le
      _ = d / 2 := by ring
  have hdouble : 2 * |(n : ℚ) - roundAway ((n : ℚ) / d) * d| ≤ d := by linarith
  exact_mod_cast hdouble

section Fixed

variable {n i j : ℕ} {a l : Grid Int64}

/-- The sum of the products of rows `i` and `j` before column `m`, in raw F62. -/
def rawProducts (l : Grid Int64) (m i j : ℕ) : ℤ :=
  ∑ k ∈ Finset.range m, (l (i, k)).toInt * (l (j, k)).toInt

/-- The residual of an entry before its division or square root. -/
theorem dotSub_residual {value : Int64}
    (h : fixedAdapter.dotSub (a (i, j)) (fun k => l (i, k)) (fun k => l (j, k)) j = .ok value) :
    2 * |2 ^ 31 * (a (i, j)).toInt - rawProducts l j i j - value.toInt * 2 ^ 31| ≤ 2 ^ 31 := by
  have hvalue := (fixed_dotSub _ _ _ _).of_eq_ok h
  have herror := two_mul_abs_sub_roundAway_mul_le
    ((a (i, j)).toInt * 2 ^ 31 - rawProducts l j i j) (show (0 : ℤ) < 2 ^ 31 by norm_num)
  rw [rawProducts, show ((2 ^ 31 : ℤ) : ℚ) = 2 ^ 31 by norm_num, ← hvalue, mul_comm _ (2 ^ 31)]
    at herror
  exact herror

theorem choleskyEquation_fixed_below (hji : j < i) (hpivot : 0 < (l (j, j)).toInt)
    (h : choleskyEquation fixedAdapter a i j l = .ok (l (i, j))) :
    2 * |2 ^ 31 * (a (i, j)).toInt - rawProducts l (j + 1) i j| ≤
      2 ^ 31 + (l (j, j)).toInt := by
  obtain ⟨value, hvalue, hdiv⟩ := ok_of_bind h
  have hne : l (j, j) ≠ 0 := by
    rintro hzero
    rw [hzero] at hpivot
    exact absurd hpivot (lt_irrefl 0)
  rw [if_neg hji.ne', fixed_div _ hne] at hdiv
  have hquotient := fixedResult_eq_ok hdiv
  have hfirst := dotSub_residual hvalue
  have hsecond := two_mul_abs_sub_roundAway_mul_le (value.toInt * 2 ^ 31) hpivot
  rw [show ((value.toInt * 2 ^ 31 : ℤ) : ℚ) = value.toInt * 2 ^ 31 by norm_num, ← hquotient]
    at hsecond
  have hsplit : 2 ^ 31 * (a (i, j)).toInt - rawProducts l (j + 1) i j =
      (2 ^ 31 * (a (i, j)).toInt - rawProducts l j i j - value.toInt * 2 ^ 31) +
        (value.toInt * 2 ^ 31 - (l (i, j)).toInt * (l (j, j)).toInt) := by
    rw [rawProducts, Finset.sum_range_succ, rawProducts]
    ring
  rw [hsplit]
  have htriangle := abs_add_le
    (2 ^ 31 * (a (i, j)).toInt - rawProducts l j i j - value.toInt * 2 ^ 31)
    (value.toInt * 2 ^ 31 - (l (i, j)).toInt * (l (j, j)).toInt)
  omega

/-- A positive value has a positive rounded root, even one raw unit. -/
theorem choleskyEquation_fixed_diagonal
    (h : choleskyEquation fixedAdapter a i i l = .ok (l (i, i))) :
    0 < (l (i, i)).toInt ∧
      |2 ^ 31 * (a (i, i)).toInt - rawProducts l (i + 1) i i| ≤ 2 ^ 30 + (l (i, i)).toInt := by
  obtain ⟨value, hvalue, hroot⟩ := ok_of_bind h
  rw [if_pos rfl] at hroot
  split at hroot
  · cases hroot
  · rename_i hpositive
    have hpos : 0 < value.toInt := by
      rw [not_le, show fixedAdapter.zero = 0 from rfl, Int64.lt_iff_toInt_lt] at hpositive
      exact hpositive
    have hlt := value.toInt_lt
    have hradicand : (value.toInt * 2 ^ 31 : ℝ) = ((value.toInt.toNat * 2 ^ 31 : ℕ) : ℝ) := by
      have hcast : ((value.toInt.toNat : ℤ) : ℝ) = value.toInt := by
        rw [Int.toNat_of_nonneg hpos.le]
      push_cast
      rw [← hcast]
      norm_num
    rw [fixed_sqrt hpos.le, hradicand] at hroot
    have hfloor : Nat.sqrt (value.toInt.toNat * 2 ^ 31) < 2 ^ 47 := by
      rw [Nat.sqrt_lt]
      omega
    have hfloor' : 0 < Nat.sqrt (value.toInt.toNat * 2 ^ 31) := by
      rw [Nat.sqrt_pos]
      omega
    have hbounds : 0 < roundAway (Real.sqrt ((value.toInt.toNat * 2 ^ 31 : ℕ) : ℝ)) ∧
        roundAway (Real.sqrt ((value.toInt.toNat * 2 ^ 31 : ℕ) : ℝ)) < 2 ^ 63 := by
      rw [roundAway_sqrt]
      constructor <;> split <;> omega
    have hentry : (l (i, i)).toInt =
        roundAway (Real.sqrt ((value.toInt.toNat * 2 ^ 31 : ℕ) : ℝ)) := by
      rw [← Except.ok.inj hroot, toInt_ofInt_of_fits ⟨by omega, hbounds.2⟩]
    have hsecond := abs_sub_sq_roundAway_sqrt_le (value.toInt.toNat * 2 ^ 31)
    rw [← hentry] at hsecond
    have hsquare : ((value.toInt.toNat * 2 ^ 31 : ℕ) : ℤ) = value.toInt * 2 ^ 31 := by
      push_cast
      rw [Int.toNat_of_nonneg hpos.le]
    rw [hsquare] at hsecond
    have hfirst := dotSub_residual hvalue
    refine ⟨hentry ▸ hbounds.1, ?_⟩
    have hsplit : 2 ^ 31 * (a (i, i)).toInt - rawProducts l (i + 1) i i =
        (2 ^ 31 * (a (i, i)).toInt - rawProducts l i i i - value.toInt * 2 ^ 31) +
          (value.toInt * 2 ^ 31 - (l (i, i)).toInt * (l (i, i)).toInt) := by
      rw [rawProducts, Finset.sum_range_succ, rawProducts]
      ring
    rw [hsplit]
    have htriangle := abs_add_le
      (2 ^ 31 * (a (i, i)).toInt - rawProducts l i i i - value.toInt * 2 ^ 31)
      (value.toInt * 2 ^ 31 - (l (i, i)).toInt * (l (i, i)).toInt)
    omega

/-- What a successful factorisation leaves in the working array. -/
structure CholeskyBounds (n : ℕ) (a l : Grid Int64) : Prop where
  above : ∀ i j, i < j → j < n → l (i, j) = 0
  diagonal_pos : ∀ i < n, 0 < (l (i, i)).toInt
  below : ∀ i j, j < i → i < n →
    2 * |2 ^ 31 * (a (i, j)).toInt - rawProducts l (j + 1) i j| ≤ 2 ^ 31 + (l (j, j)).toInt
  diagonal : ∀ i < n,
    |2 ^ 31 * (a (i, i)).toInt - rawProducts l (i + 1) i i| ≤ 2 ^ 30 + (l (i, i)).toInt

theorem choleskyFactor_bounds (h : choleskyFactor fixedAdapter n a = .ok l) :
    CholeskyBounds n a l := by
  have hdone := (choleskyFactor_spec fixedAdapter n a).of_eq_ok h
  have hdiagonal : ∀ i < n, 0 < (l (i, i)).toInt ∧
      |2 ^ 31 * (a (i, i)).toInt - rawProducts l (i + 1) i i| ≤ 2 ^ 30 + (l (i, i)).toInt :=
    fun i hi => choleskyEquation_fixed_diagonal (hdone.entry i i le_rfl (Or.inl hi))
  refine ⟨?_, fun i hi => (hdiagonal i hi).1, ?_, fun i hi => (hdiagonal i hi).2⟩
  · exact fun i j hij hj => hdone.above i j (hij.trans hj) hij hj
  · intro i j hji hi
    exact choleskyEquation_fixed_below hji (hdiagonal j (hji.trans hi)).1
      (hdone.entry i j hji.le (Or.inl hi))

end Fixed

/-! ## Exact fields -/

section Exact

variable {K : Type} [Field K] [LinearOrder K]

/-- Every positive element has a positive square root, given by `sqrt`. -/
def SquareRoots (sqrt : K → K) : Prop :=
  ∀ x, 0 < x → 0 < sqrt x ∧ sqrt x * sqrt x = x

variable (fixed : Bool) {sqrt : K → K} (epsilon : K) {n i j : ℕ} {a l : Grid K}

theorem choleskyEquation_exact (sqrt : K → K) (i j : ℕ) (a l : Grid K) :
    choleskyEquation (exactAdapter K fixed sqrt epsilon) a i j l =
      if i = j then
        if a (i, j) - gram l j (i, j) ≤ 0 then .error .errorNotPositiveDefinite
        else .ok (sqrt (a (i, j) - gram l j (i, j)))
      else .ok ((a (i, j) - gram l j (i, j)) / l (j, j)) := by
  rw [choleskyEquation, exact_dotSub]
  rfl

section Factor

variable {epsilon} {fixed}
variable (hsqrt : SquareRoots sqrt)
variable (h : CholeskyUpTo (exactAdapter K fixed sqrt epsilon) n a i j l)
include hsqrt h

theorem CholeskyUpTo.diagonal {r : ℕ} (hr : r < i) :
    0 < l (r, r) ∧ gram l (r + 1) (r, r) = a (r, r) := by
  have hentry := h.entry r r le_rfl (Or.inl hr)
  rw [choleskyEquation_exact, if_pos rfl] at hentry
  split at hentry
  · cases hentry
  · rename_i hpositive
    obtain ⟨hroot, hsquare⟩ := hsqrt _ (not_le.mp hpositive)
    rw [Except.ok.inj hentry] at hroot hsquare
    refine ⟨hroot, ?_⟩
    rw [gram_succ, hsquare]
    ring

theorem CholeskyUpTo.triangular (hi : i ≤ n) : Triangular i l where
  above r hr c hc hrc := h.above r c hr hrc (hc.trans_le hi)
  diagonal_ne _ hr := (h.diagonal hsqrt hr).1.ne'

/-- The product of the factors at a finished entry. -/
theorem CholeskyUpTo.product {r c : ℕ} (hcr : c < r) (hbefore : r < i ∨ r = i ∧ c < j) :
    gram l (c + 1) (r, c) = a (r, c) := by
  have hentry := h.entry r c hcr.le hbefore
  rw [choleskyEquation_exact, if_neg hcr.ne'] at hentry
  have hquotient := Except.ok.inj hentry
  have hne := (h.diagonal hsqrt (show c < i by omega)).1.ne'
  rw [gram_succ, ← hquotient, div_mul_cancel₀ _ hne]
  ring

/-- The product in the rows above `i` and in the finished part of row `i`. -/
theorem CholeskyUpTo.gram_eq (hi : i ≤ n) {r c : ℕ} (hc : c ≤ r) (hci : c < i)
    (hr : r < i ∨ r = i ∧ c < j) : gram l i (r, c) = a (r, c) := by
  rw [gram_of_above hci fun k hk hkm => h.above c k hci hk (hkm.trans_le hi)]
  rcases Nat.eq_or_lt_of_le hc with rfl | hlt
  · exact (h.diagonal hsqrt hci).2
  · exact h.product hsqrt hlt hr

/-- The product over the finished rows, in either order of its indices. -/
theorem CholeskyUpTo.gram_eq_of_symmetric (hi : i ≤ n)
    (hsym : ∀ r < n, ∀ c < n, a (r, c) = a (c, r)) {r c : ℕ} (hr : r < n) (hc : c < n)
    (hlarge : max r c < i ∨ max r c = i ∧ min r c < j ∧ min r c < i) :
    gram l i (r, c) = a (r, c) := by
  rcases le_total c r with hcr | hrc
  · rw [max_eq_left hcr, min_eq_right hcr] at hlarge
    exact h.gram_eq hsqrt hi hcr (by omega) (by omega)
  · rw [max_eq_right hrc, min_eq_left hrc] at hlarge
    rw [gram_comm, hsym r hr c hc]
    exact h.gram_eq hsqrt hi hrc (by omega) (by omega)

end Factor

/-- The factor over an exact field: the whole of `A`, or a proof that `A` is not
positive definite. -/
theorem choleskyFactor_exact [IsStrictOrderedRing K] (fixed : Bool) (epsilon : K)
    (hsqrt : SquareRoots sqrt) (hsym : ∀ r < n, ∀ c < n, a (r, c) = a (c, r)) :
    Ensures (choleskyFactor (exactAdapter K fixed sqrt epsilon) n a)
      (fun l => (∀ i j, i < j → j < n → l (i, j) = 0) ∧ (∀ i < n, 0 < l (i, i)) ∧
        (∀ i < n, ∀ j < n, gram l n (i, j) = a (i, j)) ∧ PositiveDefinite n a)
      (fun e => e = .errorNotPositiveDefinite ∧ ¬PositiveDefinite n a) := by
  refine (choleskyFactor_spec (exactAdapter K fixed sqrt epsilon) n a).mono ?_ ?_
  · intro l hdone
    have hgram : ∀ i < n, ∀ j < n, gram l n (i, j) = a (i, j) := by
      intro i hi j hj
      exact hdone.gram_eq_of_symmetric hsqrt le_rfl hsym hi hj (Or.inl (max_lt hi hj))
    refine ⟨fun i j hij hj => hdone.above i j (hij.trans hj) hij hj,
      fun i hi => (hdone.diagonal hsqrt hi).1, hgram, ?_⟩
    intro x hx
    rw [← form_congr hgram]
    exact positiveDefinite_gram (hdone.triangular hsqrt le_rfl) x hx
  · rintro e ⟨i, hi, j, hj, work, hdone, herror⟩
    rw [choleskyEquation_exact] at herror
    split at herror
    · rename_i hij
      subst hij
      split at herror
      · rename_i hpivot
        cases herror
        refine ⟨rfl, not_positiveDefinite_of_pivot hi (hdone.triangular hsqrt hi.le) ?_
          (sub_nonpos.mp hpivot)⟩
        intro k hk m hm hne
        rw [ne_eq, Prod.mk.injEq] at hne
        exact (hdone.gram_eq_of_symmetric hsqrt hi.le hsym (by omega) (by omega)
          (by omega)).symm
      · cases herror
    · cases herror

end Exact

/-! ## The entry points -/

/-- The fixed template: a nonsymmetric argument is refused, and a factor meets
every entry of its argument within its roundings. -/
def CholeskyRounds {Raw : Type} (F : Format Raw Int64) : Prop :=
  ∀ (n : ℕ) (a : Grid Raw),
    ((∃ i < n, ∃ j < n, a (i, j) ≠ a (j, i)) →
      choleskyValues fixedAdapter F n a = .error .errorDimension) ∧
    (∀ l, choleskyFactor fixedAdapter n (loadGrid F a) = .ok l →
      CholeskyBounds n (loadGrid F a) l) ∧
    ∀ x, choleskyValues fixedAdapter F n a = .ok x →
      ∃ l, choleskyFactor fixedAdapter n (loadGrid F a) = .ok l ∧
        CholeskyBounds n (loadGrid F a) l ∧ x = fun p => F.store (l p)

/-- The same template over an exact field. -/
def CholeskyExact (K : Type) [Field K] [LinearOrder K] [IsStrictOrderedRing K] : Prop :=
  ∀ (fixed : Bool) (sqrt : K → K) (epsilon : K), SquareRoots sqrt → ∀ (n : ℕ) (a : Grid K),
    ((∃ i < n, ∃ j < n, a (i, j) ≠ a (j, i)) →
      choleskyValues (exactAdapter K fixed sqrt epsilon) (exactFormat K) n a =
        .error .errorDimension) ∧
    ((∀ i < n, ∀ j < n, a (i, j) = a (j, i)) →
      (∀ l, choleskyValues (exactAdapter K fixed sqrt epsilon) (exactFormat K) n a = .ok l →
        (∀ i j, i < j → j < n → l (i, j) = 0) ∧ (∀ i < n, 0 < l (i, i)) ∧
          ∀ i < n, ∀ j < n, ∑ k ∈ Finset.range n, l (i, k) * l (j, k) = a (i, j)) ∧
      (choleskyValues (exactAdapter K fixed sqrt epsilon) (exactFormat K) n a =
        .error .errorNotPositiveDefinite ↔ ¬PositiveDefinite n a) ∧
      (PositiveDefinite n a →
        ∃ l, choleskyValues (exactAdapter K fixed sqrt epsilon) (exactFormat K) n a = .ok l))

section Values

variable {S A Raw : Type} [LinearOrder S] {D : Adapter S A} {F : Format Raw S} {n : ℕ}
  {a : Grid Raw}

theorem choleskyValues_nonsymmetric (hload : Function.Injective F.load)
    (h : ∃ i < n, ∃ j < n, a (i, j) ≠ a (j, i)) :
    choleskyValues D F n a = .error .errorDimension := by
  have hcheck := checkSymmetric_spec (loadGrid F a) n
  cases hresult : Adapter.checkSymmetric (loadGrid F a) n with
  | ok u =>
      rw [hresult] at hcheck
      obtain ⟨i, hi, j, hj, hne⟩ := h
      exact absurd (hload (hcheck i hi j hj)) hne
  | error e =>
      rw [hresult] at hcheck
      rw [choleskyValues, hresult, hcheck.1]
      rfl

theorem choleskyValues_symmetric (h : ∀ i < n, ∀ j < n, a (i, j) = a (j, i)) :
    choleskyValues D F n a = (do
      let factor ← choleskyFactor D n (loadGrid F a)
      F.checkBlock D.zero factor n n
      .ok fun x => F.store (factor x)) := by
  have hcheck := checkSymmetric_spec (loadGrid F a) n
  cases hresult : Adapter.checkSymmetric (loadGrid F a) n with
  | ok u =>
      rw [choleskyValues, hresult]
      rfl
  | error e =>
      rw [hresult] at hcheck
      obtain ⟨-, i, hi, j, hj, hne⟩ := hcheck
      exact absurd (congrArg F.load (h i hi j hj)) hne

end Values

theorem choleskyRounds {Raw : Type} {F : Format Raw Int64} (hload : Function.Injective F.load) :
    CholeskyRounds F := by
  refine fun n a => ⟨choleskyValues_nonsymmetric hload, fun l => choleskyFactor_bounds, ?_⟩
  intro x hx
  rw [choleskyValues] at hx
  obtain ⟨_, -, hx⟩ := ok_of_bind hx
  obtain ⟨l, hl, hx⟩ := ok_of_bind hx
  obtain ⟨_, -, hx⟩ := ok_of_bind hx
  exact ⟨l, hl, choleskyFactor_bounds hl, (Except.ok.inj hx).symm⟩

theorem choleskyExact (K : Type) [Field K] [LinearOrder K] [IsStrictOrderedRing K] :
    CholeskyExact K := by
  intro fixed sqrt epsilon hsqrt n a
  refine ⟨choleskyValues_nonsymmetric fun _ _ h => h, fun hsym => ?_⟩
  have hfactor := choleskyFactor_exact fixed epsilon hsqrt hsym
  rw [choleskyValues_symmetric hsym]
  change (∀ l, choleskyFactor _ n a >>= Except.ok = _ → _) ∧
    (choleskyFactor _ n a >>= Except.ok = _ ↔ _) ∧
    (_ → ∃ l, choleskyFactor _ n a >>= Except.ok = _)
  cases hresult : choleskyFactor (exactAdapter K fixed sqrt epsilon) n a with
  | ok l =>
      rw [hresult] at hfactor
      obtain ⟨habove, hdiagonal, hgram, hpositive⟩ := hfactor
      refine ⟨?_, ⟨nofun, fun hnot => absurd hpositive hnot⟩, fun _ => ⟨l, rfl⟩⟩
      intro l' hl'
      cases hl'
      exact ⟨habove, hdiagonal, hgram⟩
  | error e =>
      rw [hresult] at hfactor
      obtain ⟨rfl, hnot⟩ := hfactor
      exact ⟨nofun, ⟨fun _ => hnot, fun _ => rfl⟩, fun hpositive => absurd hpositive hnot⟩

theorem q15Format_load_injective : Function.Injective q15Format.load := by
  intro x y h
  have htoInt := congrArg Int64.toInt h
  change (linearsFixedFromQ15 x).toInt = (linearsFixedFromQ15 y).toInt at htoInt
  rw [toInt_linearsFixedFromQ15, toInt_linearsFixedFromQ15] at htoInt
  exact Int16.toInt_inj.mp (by omega)

theorem q31Format_load_injective : Function.Injective q31Format.load := by
  intro x y h
  have htoInt := congrArg Int64.toInt h
  change x.toInt64.toInt = y.toInt64.toInt at htoInt
  rw [Int32.toInt_toInt64, Int32.toInt_toInt64] at htoInt
  exact Int32.toInt_inj.mp htoInt

/-- The Cholesky template in the fixed formats and over every exact field. -/
theorem cholesky_template_correct :
    CholeskyRounds q15Format ∧ CholeskyRounds q31Format ∧ CholeskyRounds workingFormat ∧
      ∀ (K : Type) [Field K] [LinearOrder K] [IsStrictOrderedRing K], CholeskyExact K :=
  ⟨choleskyRounds q15Format_load_injective, choleskyRounds q31Format_load_injective,
    choleskyRounds fun _ _ h => h, fun K => choleskyExact K⟩

/-- A nonsymmetric argument, and a real one that is not positive definite. -/
theorem cholesky_template_correct_sample :
    choleskyValues fixedAdapter q15Format 2 (fun x => if x = (0, 1) then 1 else 0) =
        .error .errorDimension ∧
      (choleskyValues (exactAdapter ℝ true Real.sqrt 0) (exactFormat ℝ) 1 (fun _ => -1) =
        .error .errorNotPositiveDefinite ↔ ¬PositiveDefinite 1 fun _ => (-1 : ℝ)) := by
  have hsqrt : SquareRoots Real.sqrt := fun x hx => ⟨Real.sqrt_pos.mpr hx, Real.mul_self_sqrt hx.le⟩
  refine ⟨(cholesky_template_correct.1 2 _).1 ⟨0, by decide, 1, by decide, by decide⟩, ?_⟩
  exact ((cholesky_template_correct.2.2.2 ℝ true Real.sqrt 0 hsqrt 1 fun _ => -1).2
    fun _ _ _ _ => rfl).2.1

end Xhive.Linears
