import Xhive.Linears.Decomp.Ldlt
import Xhive.Linears.Decomp.LuExact

/-!
# Bunch--Parlett factorisation over an exact ordered field

For any pivot threshold strictly between zero and one the template computes
`P A Pᵀ = L D Lᵀ`, or meets an active block that is zero.
-/

namespace Xhive.Linears

open Xhive.Support Matrix

/-! ## Block tilings -/

/-- `blocks` splits `0 .. k-1` into groups `1` and `2, 0`. -/
inductive Tiles (blocks : ℕ → ℕ) : ℕ → Prop
  | nil : Tiles blocks 0
  | single {k : ℕ} : Tiles blocks k → blocks k = 1 → Tiles blocks (k + 1)
  | double {k : ℕ} : Tiles blocks k → blocks k = 2 → blocks (k + 1) = 0 → Tiles blocks (k + 2)

/-- A 2-by-2 block ends inside the tiled part. -/
theorem Tiles.double_lt {blocks : ℕ → ℕ} {k : ℕ} (h : Tiles blocks k) {m : ℕ} (hm : m < k)
    (htwo : blocks m = 2) : m + 1 < k := by
  induction h with
  | nil => omega
  | @single k _ hone ih =>
      rcases Nat.lt_succ_iff_lt_or_eq.mp hm with hlt | rfl
      · exact (ih hlt).trans (Nat.lt_succ_self k)
      · omega
  | @double k _ _ hzero ih =>
      rcases Nat.lt_or_ge m k with hlt | hge
      · exact (ih hlt).trans (by omega)
      · rcases Nat.lt_or_ge m (k + 1) with hlt' | hge'
        · omega
        · obtain rfl : m = k + 1 := by omega
          omega

theorem Tiles.congr {blocks blocks' : ℕ → ℕ} {k : ℕ} (h : Tiles blocks k)
    (heq : ∀ m < k, blocks' m = blocks m) : Tiles blocks' k := by
  induction h with
  | nil => exact .nil
  | @single k _ hone ih =>
      exact .single (ih fun m hm => heq m (hm.trans (Nat.lt_succ_self k)))
        ((heq k (Nat.lt_succ_self k)).trans hone)
  | @double k _ htwo hzero ih =>
      exact .double (ih fun m hm => heq m (by omega)) ((heq k (by omega)).trans htwo)
        ((heq (k + 1) (by omega)).trans hzero)

/-! ## Products of a lower and a block-diagonal factor -/

section Coupled

variable {K : Type} [Field K]

/-- Entry `(i, j)` of `L D Lᵀ` with the factors cut off at column `k`. -/
def coupled (l d : ℕ → ℕ → K) (k i j : ℕ) : K :=
  ∑ m ∈ Finset.range k, ∑ m' ∈ Finset.range k, l i m * d m m' * l j m'

theorem coupled_congr {l l' d d' : ℕ → ℕ → K} {k i i' j j' : ℕ}
    (hi : ∀ m < k, l' i' m = l i m) (hj : ∀ m < k, l' j' m = l j m)
    (hd : ∀ m < k, ∀ m' < k, d' m m' = d m m') :
    coupled l' d' k i' j' = coupled l d k i j := by
  refine Finset.sum_congr rfl fun m hm => Finset.sum_congr rfl fun m' hm' => ?_
  rw [Finset.mem_range] at hm hm'
  rw [hi m hm, hj m' hm', hd m hm m' hm']

/-- A column that no earlier column is coupled with. -/
theorem coupled_succ {l d : ℕ → ℕ → K} {k : ℕ} (hd : ∀ m < k, d m k = 0 ∧ d k m = 0) (i j : ℕ) :
    coupled l d (k + 1) i j = coupled l d k i j + l i k * d k k * l j k := by
  have hcolumn : ∀ m ∈ Finset.range k, ∑ m' ∈ Finset.range (k + 1), l i m * d m m' * l j m' =
      ∑ m' ∈ Finset.range k, l i m * d m m' * l j m' := by
    intro m hm
    rw [Finset.sum_range_succ, (hd m (Finset.mem_range.mp hm)).1, mul_zero, zero_mul, add_zero]
  have hrow : ∑ m' ∈ Finset.range k, l i k * d k m' * l j m' = 0 := by
    refine Finset.sum_eq_zero fun m' hm' => ?_
    rw [(hd m' (Finset.mem_range.mp hm')).2, mul_zero, zero_mul]
  rw [coupled, Finset.sum_range_succ, Finset.sum_congr rfl hcolumn, Finset.sum_range_succ, hrow,
    zero_add]
  rfl

/-- Two columns coupled with each other only. -/
theorem coupled_succ_succ {l d : ℕ → ℕ → K} {k : ℕ}
    (hd : ∀ m < k, d m k = 0 ∧ d k m = 0 ∧ d m (k + 1) = 0 ∧ d (k + 1) m = 0) (i j : ℕ) :
    coupled l d (k + 2) i j = coupled l d k i j +
      ((l i k * d k k + l i (k + 1) * d (k + 1) k) * l j k +
        (l i k * d k (k + 1) + l i (k + 1) * d (k + 1) (k + 1)) * l j (k + 1)) := by
  have hcolumn : ∀ m ∈ Finset.range k, ∑ m' ∈ Finset.range (k + 2), l i m * d m m' * l j m' =
      ∑ m' ∈ Finset.range k, l i m * d m m' * l j m' := by
    intro m hm
    obtain ⟨h, -, h', -⟩ := hd m (Finset.mem_range.mp hm)
    rw [Finset.sum_range_succ, Finset.sum_range_succ, h, h']
    ring
  have hrow : ∑ m' ∈ Finset.range k, l i k * d k m' * l j m' = 0 := by
    refine Finset.sum_eq_zero fun m' hm' => ?_
    rw [(hd m' (Finset.mem_range.mp hm')).2.1, mul_zero, zero_mul]
  have hrow' : ∑ m' ∈ Finset.range k, l i (k + 1) * d (k + 1) m' * l j m' = 0 := by
    refine Finset.sum_eq_zero fun m' hm' => ?_
    rw [(hd m' (Finset.mem_range.mp hm')).2.2.2, mul_zero, zero_mul]
  rw [coupled, Finset.sum_range_succ, Finset.sum_range_succ, Finset.sum_congr rfl hcolumn,
    Finset.sum_range_succ, Finset.sum_range_succ, Finset.sum_range_succ, Finset.sum_range_succ,
    hrow, hrow', ← coupled]
  ring

/-- `ldltLower` and `ldltDiagonal` with the units of a field. -/
def blockLower (blocks : ℕ → ℕ) (work : Grid K) (i j : ℕ) : K :=
  if i = j then 1
  else if j < i then if blocks j = 2 ∧ i = j + 1 then 0 else work (i, j)
  else 0

def blockDiagonal (blocks : ℕ → ℕ) (work : Grid K) (i j : ℕ) : K :=
  if i = j then work (i, j)
  else if j < i then if blocks j = 2 ∧ i = j + 1 then work (i, j) else 0
  else if blocks i = 2 ∧ j = i + 1 then work (i, j) else 0

variable {blocks : ℕ → ℕ} {work : Grid K} {i j : ℕ}

theorem blockLower_self (i : ℕ) : blockLower blocks work i i = 1 :=
  if_pos rfl

theorem blockLower_of_lt (h : i < j) : blockLower blocks work i j = 0 := by
  rw [blockLower, if_neg h.ne, if_neg h.not_gt]

theorem blockLower_of_gt (h : j < i) (hblock : ¬(blocks j = 2 ∧ i = j + 1)) :
    blockLower blocks work i j = work (i, j) := by
  rw [blockLower, if_neg h.ne', if_pos h, if_neg hblock]

theorem blockLower_double (h : blocks j = 2) : blockLower blocks work (j + 1) j = 0 := by
  rw [blockLower, if_neg (Nat.succ_ne_self j), if_pos (Nat.lt_succ_self j), if_pos ⟨h, rfl⟩]

theorem blockDiagonal_self (i : ℕ) : blockDiagonal blocks work i i = work (i, i) :=
  if_pos rfl

theorem blockDiagonal_upper (h : blocks i = 2) :
    blockDiagonal blocks work i (i + 1) = work (i, i + 1) := by
  rw [blockDiagonal, if_neg (Nat.succ_ne_self i).symm, if_neg (Nat.lt_succ_self i).not_gt,
    if_pos ⟨h, rfl⟩]

theorem blockDiagonal_lower (h : blocks j = 2) :
    blockDiagonal blocks work (j + 1) j = work (j + 1, j) := by
  rw [blockDiagonal, if_neg (Nat.succ_ne_self j), if_pos (Nat.lt_succ_self j), if_pos ⟨h, rfl⟩]

/-- D vanishes off its blocks. -/
theorem blockDiagonal_eq_zero (h : i ≠ j) (hlower : ¬(blocks j = 2 ∧ i = j + 1))
    (hupper : ¬(blocks i = 2 ∧ j = i + 1)) : blockDiagonal blocks work i j = 0 := by
  rw [blockDiagonal, if_neg h, if_neg hlower, if_neg hupper, ite_self]

end Coupled

/-! ## One elimination -/

section Eliminate

variable {K : Type} [Field K] [LinearOrder K]
variable (fixed : Bool) (sqrt : K → K) (epsilon : K) {n k : ℕ} {s : Grid K}

/-- The part of the array a step still treats as a symmetric matrix. -/
def ActiveSymmetric (n k : ℕ) (work : Grid K) : Prop :=
  ∀ i j, k ≤ i → i < n → k ≤ j → j < n → work (i, j) = work (j, i)

/-- Elimination behind the pivot `(k, k)`. -/
structure SingleEliminated (n k : ℕ) (s t : Grid K) : Prop where
  column : ∀ i, k < i → i < n → t (i, k) = s (i, k) / s (k, k)
  entry : ∀ i j, k < i → i < n → k < j → j < n → t (i, j) = s (i, j) - s (i, k) * t (j, k)
  frame : ∀ i j, i ≤ k ∨ j < k → t (i, j) = s (i, j)

theorem eliminateSingle_exact (hk : k < n) (hsym : ActiveSymmetric n k s) :
    Ensures (eliminateSingle (exactAdapter K fixed sqrt epsilon) n k s)
      (SingleEliminated n k s) (fun _ => False) := by
  rw [eliminateSingle]
  refine Ensures.seq (Ensures.fillRange ?_ ?_ ?_) fun w hw => ?_
  · intro i j _ hlt _ heq
    exact hlt.ne (congrArg Prod.fst heq)
  · intro j t _ _ hframe
    rw [hframe (j, k) fun i _ hlt heq => hlt.ne' (congrArg Prod.fst heq)]
  · intro j e _ _ heq
    exact absurd heq nofun
  obtain ⟨hdiv, hkeep⟩ := hw
  have hcolumn : ∀ i, k < i → i < n → w (i, k) = s (i, k) / s (k, k) := fun i hki hi =>
    (Except.ok.inj (hdiv i hki hi)).symm
  have hsame : ∀ i j, i ≤ k ∨ j ≠ k → w (i, j) = s (i, j) := by
    intro i j hout
    refine hkeep (i, j) fun m hm _ heq => ?_
    have hi := congrArg Prod.fst heq
    have hj := congrArg Prod.snd heq
    dsimp only at hi hj
    omega
  simp only [exact_subProduct]
  refine (Ensures.fillSymmetric hk ?_ ?_).imp ?_
  · intro i j t hi hij hj hread
    rw [hread (j, i) (Or.inr (Or.inr rfl)), hread (j, k) (Or.inr (Or.inl (Nat.lt_succ_self k))),
      hread (k, i) (Or.inl (Nat.lt_succ_self k))]
  · intro i j e _ _ _ heq
    exact absurd heq nofun
  · rintro t ⟨hpair, hframe⟩
    have hkept : ∀ i j, i ≤ k ∨ j ≤ k → t (i, j) = w (i, j) := fun i j h => hframe (i, j) (by
      dsimp only
      omega)
    have hupdated : ∀ i j, k < i → i ≤ j → j < n →
        t (i, j) = s (j, i) - s (j, k) / s (k, k) * s (k, i) ∧ t (j, i) = t (i, j) := by
      intro i j hi hij hj
      obtain ⟨hvalue, hmirror⟩ := hpair i j hi hij hj
      rw [hsame j i (by omega), hcolumn j (by omega) hj, hsame k i (by omega)] at hvalue
      exact ⟨(Except.ok.inj hvalue).symm, hmirror⟩
    refine ⟨fun i hki hi => ?_, fun i j hki hi hkj hj => ?_, fun i j hout => ?_⟩
    · rw [hkept i k (Or.inr le_rfl), hcolumn i hki hi]
    · rw [hkept j k (Or.inr le_rfl), hcolumn j hkj hj]
      rcases Nat.le_total i j with hij | hji
      · rw [(hupdated i j hki hij hj).1, hsym j i hkj.le hj hki.le hi,
          hsym k i le_rfl hk hki.le hi]
        ring
      · rw [(hupdated j i hkj hji hi).2, (hupdated j i hkj hji hi).1,
          hsym k j le_rfl hk hkj.le hj]
        ring
    · rw [hkept i j (by omega), hsame i j (by omega)]

/-- Elimination behind the pivot block of rows `k` and `k + 1`. -/
structure DoubleEliminated (n k : ℕ) (s t : Grid K) : Prop where
  column : ∀ i, k + 1 < i → i < n →
    t (i, k) * s (k, k) + t (i, k + 1) * s (k, k + 1) = s (i, k) ∧
      t (i, k) * s (k, k + 1) + t (i, k + 1) * s (k + 1, k + 1) = s (i, k + 1)
  entry : ∀ i j, k + 1 < i → i < n → k + 1 < j → j < n →
    t (i, j) = s (i, j) - (s (i, k) * t (j, k) + s (i, k + 1) * t (j, k + 1))
  frame : ∀ i j, i ≤ k + 1 ∨ j < k → t (i, j) = s (i, j)

theorem exact_productSub (a b value : K) :
    productSub (exactAdapter K fixed sqrt epsilon) a b value = .ok (a * b - value) := by
  cases fixed with
  | true =>
      rw [productSub, exactAdapter_fixed, if_pos rfl, exact_subProduct]
      change Except.ok (-(value - a * b)) = _
      rw [neg_sub]
  | false => rfl

omit [LinearOrder K] in
/-- The multipliers of a 2-by-2 pivot solve its linear system. -/
theorem multipliers_solve {p b r x y delta : K} (hb : b ≠ 0) (hdelta : delta ≠ 0)
    (heq : delta = p / b * (r / b) - 1) :
    (r / b * (x / b) - y / b) / delta * p + (p / b * (y / b) - x / b) / delta * b = x ∧
      (r / b * (x / b) - y / b) / delta * b + (p / b * (y / b) - x / b) / delta * r = y := by
  have hfirst : (r / b * (x / b) - y / b) * p + (p / b * (y / b) - x / b) * b = x * delta := by
    rw [heq]
    field_simp
    ring
  have hsecond : (r / b * (x / b) - y / b) * b + (p / b * (y / b) - x / b) * r = y * delta := by
    rw [heq]
    field_simp
    ring
  constructor
  · rw [div_mul_eq_mul_div _ delta, div_mul_eq_mul_div _ delta, ← add_div, hfirst,
      mul_div_cancel_right₀ x hdelta]
  · rw [div_mul_eq_mul_div _ delta, div_mul_eq_mul_div _ delta, ← add_div, hsecond,
      mul_div_cancel_right₀ y hdelta]

/-- The loop over the rows below a 2-by-2 pivot. -/
theorem coupleRows_exact (a b c delta : K) (hk : k + 2 ≤ n) (s : Grid K) :
    Ensures (forRange (k + 2) n s
        (coupleRow (exactAdapter K fixed sqrt epsilon) k a b c delta))
      (fun t => (∀ i, k + 1 < i → i < n →
          t (i, k) = (c * (s (i, k) / b) - s (i, k + 1) / b) / delta ∧
            t (i, k + 1) = (a * (s (i, k + 1) / b) - s (i, k) / b) / delta) ∧
        ∀ i j, i ≤ k + 1 ∨ (j ≠ k ∧ j ≠ k + 1) → t (i, j) = s (i, j)) (fun _ => False) := by
  refine Ensures.imp (Ensures.forRange (fun row (t : Grid K) => (∀ i, k + 1 < i → i < row →
      t (i, k) = (c * (s (i, k) / b) - s (i, k + 1) / b) / delta ∧
        t (i, k + 1) = (a * (s (i, k + 1) / b) - s (i, k) / b) / delta) ∧
    ∀ i j, i ≤ k + 1 ∨ row ≤ i ∨ (j ≠ k ∧ j ≠ k + 1) → t (i, j) = s (i, j)) hk ?_ ?_) ?_
  · exact ⟨fun i hlo hhi => by omega, fun _ _ _ => rfl⟩
  · rintro row t hlo hhi ⟨hdone, hframe⟩
    have hx : t (row, k) = s (row, k) := hframe row k (by omega)
    have hy : t (row, k + 1) = s (row, k + 1) := hframe row (k + 1) (by omega)
    have hcouple : coupleRow (exactAdapter K fixed sqrt epsilon) k a b c delta row t =
        .ok (Function.update (Function.update t (row, k)
          ((c * (s (row, k) / b) - s (row, k + 1) / b) / delta)) (row, k + 1)
          ((a * (s (row, k + 1) / b) - s (row, k) / b) / delta)) := by
      rw [← hx, ← hy]
      simp [coupleRow, exact_productSub, bind, Except.bind]
    rw [hcouple, ensures_ok]
    have hother : ∀ i j (v w : K), i ≠ row ∨ (j ≠ k ∧ j ≠ k + 1) →
        Function.update (Function.update t (row, k) v) (row, k + 1) w (i, j) = t (i, j) := by
      intro i j v w hout
      rw [Function.update_of_ne, Function.update_of_ne]
      · intro heq
        have := Prod.mk.inj heq
        omega
      · intro heq
        have := Prod.mk.inj heq
        omega
    refine ⟨fun i hki hi => ?_, fun i j hout => ?_⟩
    · rcases Nat.lt_succ_iff_lt_or_eq.mp hi with hlt | rfl
      · rw [hother i k _ _ (Or.inl hlt.ne), hother i (k + 1) _ _ (Or.inl hlt.ne)]
        exact hdone i hki hlt
      · refine ⟨?_, Function.update_self ..⟩
        rw [Function.update_of_ne (fun heq => Nat.succ_ne_self k (Prod.mk.inj heq).2.symm),
          Function.update_self]
    · rw [hother i j _ _ (by omega)]
      exact hframe i j (by omega)
  · rintro t ⟨hdone, hframe⟩
    exact ⟨hdone, fun i j hout => hframe i j (by omega)⟩

theorem eliminateDouble_exact (hk : k + 1 < n) (hsym : ActiveSymmetric n k s)
    (hb : s (k, k + 1) ≠ 0)
    (hdelta : s (k, k) / s (k, k + 1) * (s (k + 1, k + 1) / s (k, k + 1)) - 1 ≠ 0) :
    Ensures (eliminateDouble (exactAdapter K fixed sqrt epsilon) n k s)
      (DoubleEliminated n k s) (fun _ => False) := by
  rw [eliminateDouble]
  simp only [exactAdapter_div, exact_productSub, exactAdapter_one, exact_dotSub,
    Finset.sum_range_succ, Finset.sum_range_zero, zero_add, add_zero]
  change Ensures (forRange (k + 2) n s (coupleRow (exactAdapter K fixed sqrt epsilon) k
    (s (k, k) / s (k, k + 1)) (s (k, k + 1)) (s (k + 1, k + 1) / s (k, k + 1))
    (s (k, k) / s (k, k + 1) * (s (k + 1, k + 1) / s (k, k + 1)) - 1)) >>= _) _ _
  refine Ensures.seq (coupleRows_exact fixed sqrt epsilon _ _ _ _ hk s) fun w hw => ?_
  obtain ⟨hcouple, hsame⟩ := hw
  have hsolve : ∀ i, k + 1 < i → i < n →
      w (i, k) * s (k, k) + w (i, k + 1) * s (k, k + 1) = s (i, k) ∧
        w (i, k) * s (k, k + 1) + w (i, k + 1) * s (k + 1, k + 1) = s (i, k + 1) := by
    intro i hki hi
    rw [(hcouple i hki hi).1, (hcouple i hki hi).2]
    exact multipliers_solve hb hdelta rfl
  refine (Ensures.fillSymmetric hk ?_ ?_).imp ?_
  · intro i j t hi hij hj hread
    rw [hread (j, i) (Or.inr (Or.inr rfl)), hread (j, k) (Or.inr (Or.inl (by dsimp only; omega))),
      hread (j, k + 1) (Or.inr (Or.inl (Nat.lt_succ_self _))),
      hread (k, i) (Or.inl (by dsimp only; omega)),
      hread (k + 1, i) (Or.inl (Nat.lt_succ_self _))]
  · intro i j e _ _ _ heq
    exact absurd heq nofun
  · rintro t ⟨hpair, hframe⟩
    have hkept : ∀ i j, i ≤ k + 1 ∨ j ≤ k + 1 → t (i, j) = w (i, j) := fun i j h =>
      hframe (i, j) (by
        dsimp only
        omega)
    have hupdated : ∀ i j, k + 1 < i → i ≤ j → j < n →
        t (i, j) = s (j, i) - (w (j, k) * s (k, i) + w (j, k + 1) * s (k + 1, i)) ∧
          t (j, i) = t (i, j) := by
      intro i j hi hij hj
      obtain ⟨hvalue, hmirror⟩ := hpair i j hi hij hj
      rw [hsame j i (by omega), hsame k i (by omega), hsame (k + 1) i (by omega)] at hvalue
      exact ⟨(Except.ok.inj hvalue).symm, hmirror⟩
    refine ⟨fun i hki hi => ?_, fun i j hki hi hkj hj => ?_, fun i j hout => ?_⟩
    · rw [hkept i k (by omega), hkept i (k + 1) (by omega)]
      exact hsolve i hki hi
    · rw [hkept j k (by omega), hkept j (k + 1) (by omega)]
      have hi₁ : s (k, i) = s (i, k) := hsym k i le_rfl (by omega) (by omega) hi
      have hi₂ : s (k + 1, i) = s (i, k + 1) := hsym (k + 1) i (by omega) hk (by omega) hi
      have hj₁ : s (k, j) = s (j, k) := hsym k j le_rfl (by omega) (by omega) hj
      have hj₂ : s (k + 1, j) = s (j, k + 1) := hsym (k + 1) j (by omega) hk (by omega) hj
      have hij' : s (j, i) = s (i, j) := hsym j i (by omega) hj (by omega) hi
      obtain ⟨hsi₁, hsi₂⟩ := hsolve i hki hi
      obtain ⟨hsj₁, hsj₂⟩ := hsolve j hkj hj
      rcases Nat.le_total i j with hij | hji
      · rw [(hupdated i j hki hij hj).1, hij', hi₁, hi₂]
        ring
      · -- the block is symmetric, so the roles of `i` and `j` can be exchanged
        rw [(hupdated j i hkj hji hi).2, (hupdated j i hkj hji hi).1, hj₁, hj₂]
        linear_combination w (i, k) * hsj₁ + w (i, k + 1) * hsj₂ - w (j, k) * hsi₁ -
          w (j, k + 1) * hsi₂
    · rw [hkept i j (by omega), hsame i j (by omega)]

end Eliminate

/-! ## The factorisation invariant -/

section Invariant

variable {K : Type} [Field K] {n k : ℕ} {a : Grid K} {s : LdltState K}

/-- After the columns before `k` are finished: the permuted input is the
product of the stored factors plus the active block. -/
structure LdltInvariant (n : ℕ) (a : Grid K) (k : ℕ) (s : LdltState K) : Prop where
  perm : ∃ σ : Equiv.Perm (Fin n), ∀ i : Fin n, s.perm i = σ i
  tiles : Tiles s.blocks k
  le : k ≤ n
  symmetric : ActiveSymmetric n k s.work
  block : ∀ m < k, s.blocks m = 2 → s.work (m, m + 1) ≠ 0 ∧
    s.work (m + 1, m) = s.work (m, m + 1) ∧
    s.work (m, m) * s.work (m + 1, m + 1) - s.work (m, m + 1) * s.work (m + 1, m) ≠ 0
  entry : ∀ i j, i < n → j < n → a (s.perm i, s.perm j) =
    coupled (blockLower s.blocks s.work) (blockDiagonal s.blocks s.work) k i j +
      restEntry id s.work k i j

theorem ldltInvariant_init (hsym : ActiveSymmetric n 0 a) :
    LdltInvariant n a 0 { work := a, perm := id, blocks := fun _ => 0 } := by
  refine ⟨⟨1, fun _ => rfl⟩, .nil, Nat.zero_le n, hsym, by simp, fun i j _ _ => ?_⟩
  rw [coupled, Finset.range_zero, Finset.sum_empty, zero_add,
    restEntry_of_le (Nat.zero_le i) (Nat.zero_le j)]
  rfl

/-- Finished columns are read by the factors only. -/
theorem coupled_frame {blocks blocks' : ℕ → ℕ} {work work' : Grid K}
    (hblocks : ∀ m < k, blocks' m = blocks m)
    (hwork : ∀ i j, j < k → work' (i, j) = work (i, j)) (i j : ℕ) :
    coupled (blockLower blocks' work') (blockDiagonal blocks' work') k i j =
      coupled (blockLower blocks work) (blockDiagonal blocks work) k i j := by
  refine coupled_congr (fun m hm => ?_) (fun m hm => ?_) fun m hm m' hm' => ?_
  · rw [blockLower, blockLower, hblocks m hm, hwork i m hm]
  · rw [blockLower, blockLower, hblocks m hm, hwork j m hm]
  · rw [blockDiagonal, blockDiagonal, hblocks m hm, hblocks m' hm', hwork m m' hm']

/-- An exchange of active rows and columns. -/
theorem LdltInvariant.swap (h : LdltInvariant n a k s) {p q : ℕ} (hp : k ≤ p) (hpn : p < n)
    (hq : k ≤ q) (hqn : q < n) : LdltInvariant n a k (ldltSwap k p q s) := by
  have hfixed : ∀ m < k, Equiv.swap p q m = m := fun m hm =>
    Equiv.swap_apply_of_ne_of_ne (by omega) (by omega)
  have hactive : ∀ i, k ≤ i → k ≤ Equiv.swap p q i := by
    intro i hi
    rcases swap_cases p q i with ⟨-, heq⟩ | ⟨-, heq⟩ | ⟨-, -, heq⟩ <;> omega
  have hbound : ∀ i, i < n → Equiv.swap p q i < n := fun i hi => swap_lt hpn hqn hi
  have hrow : ∀ i < k, ∀ j, (ldltSwap k p q s).work (i, j) = s.work (i, j) := fun i hi j =>
    ldltSwap_work_of_lt s hp hq hi j
  have hlower : ∀ i m, m < k → blockLower s.blocks (ldltSwap k p q s).work i m =
      blockLower s.blocks s.work (Equiv.swap p q i) m := by
    intro i m hm
    rcases Nat.lt_or_ge i k with hlt | hge
    · rw [hfixed i hlt, blockLower, blockLower, hrow i hlt]
    · -- a 2-by-2 block of D ends before `k`, so this is an entry of L
      have hblock : ∀ r, k ≤ r → ¬(s.blocks m = 2 ∧ r = m + 1) := by
        rintro r hr ⟨htwo, rfl⟩
        have := h.tiles.double_lt hm htwo
        omega
      rw [blockLower_of_gt (by omega) (hblock i hge),
        blockLower_of_gt (hm.trans_le (hactive i hge)) (hblock _ (hactive i hge)),
        ldltSwap_work_column s hp hq i hm]
  refine ⟨?_, ?_, h.le, ?_, ?_, ?_⟩
  · obtain ⟨σ, hσ⟩ := h.perm
    refine ⟨σ * Equiv.swap ⟨p, hpn⟩ ⟨q, hqn⟩, fun i => ?_⟩
    rw [ldltSwap_perm, Equiv.Perm.mul_apply, ← hσ, val_swap]
  · rw [ldltSwap_blocks]
    exact h.tiles
  · intro i j hi hin hj hjn
    rw [ldltSwap_work_of_le s hi, ldltSwap_work_of_le s hj]
    exact h.symmetric _ _ (hactive i hi) (hbound i hin) (hactive j hj) (hbound j hjn)
  · intro m hm htwo
    rw [ldltSwap_blocks] at htwo
    have hnext := h.tiles.double_lt hm htwo
    rw [hrow m hm, hrow m hm, hrow (m + 1) hnext, hrow (m + 1) hnext]
    exact h.block m hm htwo
  · intro i j hi hj
    rw [ldltSwap_perm, ldltSwap_perm, ldltSwap_blocks,
      h.entry _ _ (hbound i hi) (hbound j hj)]
    have hdiagonal : ∀ m < k, ∀ m' < k, blockDiagonal s.blocks (ldltSwap k p q s).work m m' =
        blockDiagonal s.blocks s.work m m' := by
      intro m hm m' _
      rw [blockDiagonal, blockDiagonal, hrow m hm]
    rw [coupled_congr (hlower i) (hlower j) hdiagonal]
    congr 1
    rcases Nat.lt_or_ge i k with hlt | hge
    · rw [restEntry_of_lt (Or.inl hlt), restEntry_of_lt (Or.inl (by rwa [hfixed i hlt]))]
    · rcases Nat.lt_or_ge j k with hlt' | hge'
      · rw [restEntry_of_lt (Or.inr hlt'), restEntry_of_lt (Or.inr (by rwa [hfixed j hlt']))]
      · rw [restEntry_of_le hge hge', restEntry_of_le (hactive i hge) (hactive j hge'),
          ldltSwap_work_of_le s hge]

/-- The finished part of D is not coupled with later columns. -/
theorem blockDiagonal_finished {blocks : ℕ → ℕ} {work : Grid K} (h : Tiles blocks k) {m r : ℕ}
    (hm : m < k) (hr : k ≤ r) (hrow : ∀ c, c < k → ¬(blocks r = 2 ∧ c = r + 1)) :
    blockDiagonal blocks work m r = 0 ∧ blockDiagonal blocks work r m = 0 := by
  have hcolumn : ¬(blocks m = 2 ∧ r = m + 1) := by
    rintro ⟨htwo, rfl⟩
    have := h.double_lt hm htwo
    omega
  exact ⟨blockDiagonal_eq_zero (by omega) (hrow m hm) hcolumn,
    blockDiagonal_eq_zero (by omega) hcolumn (hrow m hm)⟩

/-- A 1-by-1 pivot turns its column into a column of L. -/
theorem LdltInvariant.single (h : LdltInvariant n a k s) {t : Grid K} (hk : k < n)
    (hpivot : s.work (k, k) ≠ 0) (ht : SingleEliminated n k s.work t) :
    LdltInvariant n a (k + 1)
      { s with work := t, blocks := Function.update s.blocks k 1 } := by
  have hblocks : ∀ m < k, Function.update s.blocks k 1 m = s.blocks m := fun m hm =>
    Function.update_of_ne hm.ne _ _
  have hone : Function.update s.blocks k 1 k = 1 := Function.update_self ..
  have htiles : Tiles (Function.update s.blocks k 1) k := h.tiles.congr hblocks
  refine ⟨h.perm, htiles.single hone, hk, ?_, ?_, ?_⟩
  · intro i j hi hin hj hjn
    dsimp only
    rw [ht.entry i j hi hin hj hjn, ht.entry j i hj hjn hi hin, ht.column i hi hin,
      ht.column j hj hjn, h.symmetric i j (by omega) hin (by omega) hjn]
    ring
  · intro m hm htwo
    dsimp only at htwo ⊢
    rcases Nat.lt_succ_iff_lt_or_eq.mp hm with hlt | rfl
    · rw [hblocks m hlt] at htwo
      have hnext := h.tiles.double_lt hlt htwo
      rw [ht.frame m m (by omega), ht.frame m (m + 1) (by omega), ht.frame (m + 1) m (by omega),
        ht.frame (m + 1) (m + 1) (by omega)]
      exact h.block m hlt htwo
    · omega
  · intro i j hi hj
    dsimp only
    have hkk : t (k, k) = s.work (k, k) := ht.frame k k (Or.inl le_rfl)
    rw [coupled_succ (fun m hm => blockDiagonal_finished htiles hm le_rfl fun c _ hand => by omega),
      coupled_frame hblocks fun r c hc => ht.frame r c (Or.inr hc), h.entry i j hi hj, add_assoc,
      blockDiagonal_self, hkk]
    congr 1
    -- by the position of `i` and `j` relative to the pivot
    have hcolumn : ∀ r, k < r → r < n →
        blockLower (Function.update s.blocks k 1) t r k = s.work (r, k) / s.work (k, k) := by
      intro r hr hrn
      rw [blockLower_of_gt hr (by omega), ht.column r hr hrn]
    rcases lt_trichotomy i k with hik | rfl | hki
    · rw [restEntry_of_lt (Or.inl hik), restEntry_of_lt (Or.inl (by omega)),
        blockLower_of_lt hik]
      ring
    · rw [blockLower_self, restEntry_of_lt (Or.inl (Nat.lt_succ_self i))]
      rcases lt_trichotomy j i with hji | rfl | hij
      · rw [restEntry_of_lt (Or.inr hji), blockLower_of_lt hji]
        ring
      · rw [blockLower_self, restEntry_of_le le_rfl le_rfl, id]
        ring
      · rw [hcolumn j hij hj, restEntry_of_le le_rfl hij.le, id,
          h.symmetric i j le_rfl hi hij.le hj]
        field_simp
        ring
    · rw [hcolumn i hki hi]
      rcases lt_trichotomy j k with hjk | rfl | hkj
      · rw [restEntry_of_lt (Or.inr hjk), restEntry_of_lt (Or.inr (by omega)),
          blockLower_of_lt hjk]
        ring
      · rw [blockLower_self, restEntry_of_le hki.le le_rfl,
          restEntry_of_lt (Or.inr (Nat.lt_succ_self j)), id]
        field_simp
        ring
      · rw [hcolumn j hkj hj, restEntry_of_le hki.le hkj.le, restEntry_of_le hki hkj, id, id,
          ht.entry i j hki hi hkj hj, ht.column j hkj hj]
        field_simp
        ring

/-- A 2-by-2 pivot turns its two columns into columns of L. -/
theorem LdltInvariant.double (h : LdltInvariant n a k s) {t : Grid K} (hk : k + 1 < n)
    (hb : s.work (k, k + 1) ≠ 0)
    (hdet : s.work (k, k) * s.work (k + 1, k + 1) - s.work (k, k + 1) * s.work (k, k + 1) ≠ 0)
    (ht : DoubleEliminated n k s.work t) :
    LdltInvariant n a (k + 2)
      { s with
        work := t
        blocks := Function.update (Function.update s.blocks k 2) (k + 1) 0 } := by
  have hblocks : ∀ m < k, Function.update (Function.update s.blocks k 2) (k + 1) 0 m =
      s.blocks m := by
    intro m hm
    rw [Function.update_of_ne (by omega), Function.update_of_ne (by omega)]
  have htwo : Function.update (Function.update s.blocks k 2) (k + 1) 0 k = 2 := by
    rw [Function.update_of_ne (by omega), Function.update_self]
  have hzero : Function.update (Function.update s.blocks k 2) (k + 1) 0 (k + 1) = 0 :=
    Function.update_self ..
  generalize Function.update (Function.update s.blocks k 2) (k + 1) 0 = blocks at *
  have htiles : Tiles blocks k := h.tiles.congr hblocks
  have hcross : s.work (k + 1, k) = s.work (k, k + 1) :=
    h.symmetric (k + 1) k (by omega) hk le_rfl (by omega)
  have hframe : ∀ i j, i ≤ k + 1 → t (i, j) = s.work (i, j) := fun i j hi => ht.frame i j (Or.inl hi)
  refine ⟨h.perm, htiles.double htwo hzero, hk, ?_, ?_, ?_⟩
  · intro i j hi hin hj hjn
    obtain ⟨hi₁, hi₂⟩ := ht.column i hi hin
    obtain ⟨hj₁, hj₂⟩ := ht.column j hj hjn
    dsimp only
    rw [ht.entry i j hi hin hj hjn, ht.entry j i hj hjn hi hin,
      h.symmetric i j (by omega) hin (by omega) hjn]
    linear_combination t (j, k) * hi₁ + t (j, k + 1) * hi₂ - t (i, k) * hj₁ - t (i, k + 1) * hj₂
  · intro m hm htwo'
    dsimp only at htwo' ⊢
    rcases Nat.lt_or_ge m k with hlt | hge
    · rw [hblocks m hlt] at htwo'
      have hnext := h.tiles.double_lt hlt htwo'
      rw [hframe m m (by omega), hframe m (m + 1) (by omega), hframe (m + 1) m (by omega),
        hframe (m + 1) (m + 1) (by omega)]
      exact h.block m hlt htwo'
    · obtain rfl : m = k := by
        rcases Nat.lt_or_ge m (k + 1) with hlt | hge'
        · omega
        · obtain rfl : m = k + 1 := by omega
          omega
      rw [hframe m m (by omega), hframe m (m + 1) (by omega), hframe (m + 1) m (by omega),
        hframe (m + 1) (m + 1) (by omega), hcross]
      exact ⟨hb, rfl, hdet⟩
  · intro i j hi hj
    dsimp only
    rw [coupled_succ_succ fun m hm => ?_, coupled_frame hblocks fun r c hc => ht.frame r c
      (Or.inr hc), h.entry i j hi hj, add_assoc, blockDiagonal_self, blockDiagonal_self,
      blockDiagonal_upper htwo, blockDiagonal_lower htwo, hframe k k (by omega),
      hframe k (k + 1) (by omega), hframe (k + 1) k (by omega), hframe (k + 1) (k + 1) (by omega),
      hcross]
    · congr 1
      -- rows of L times the block are the coupling columns
      have hsolve : ∀ r, k ≤ r → r < n →
          blockLower blocks t r k * s.work (k, k) +
              blockLower blocks t r (k + 1) * s.work (k, k + 1) = s.work (r, k) ∧
            blockLower blocks t r k * s.work (k, k + 1) +
              blockLower blocks t r (k + 1) * s.work (k + 1, k + 1) = s.work (r, k + 1) := by
        intro r hr hrn
        rcases Nat.lt_or_ge (k + 1) r with hgt | hle
        · rw [blockLower_of_gt (by omega) (by omega), blockLower_of_gt hgt (by omega)]
          exact ht.column r hgt hrn
        · rcases hr.lt_or_eq with hlt | rfl
          · obtain rfl : r = k + 1 := by omega
            rw [blockLower_double htwo, blockLower_self, hcross]
            constructor <;> ring
          · rw [blockLower_self, blockLower_of_lt (Nat.lt_succ_self k)]
            constructor <;> ring
      have hbefore : ∀ r < k, blockLower blocks t r k = 0 ∧ blockLower blocks t r (k + 1) = 0 :=
        fun r hr => ⟨blockLower_of_lt hr, blockLower_of_lt (by omega)⟩
      rcases Nat.lt_or_ge i k with hik | hki
      · rw [restEntry_of_lt (Or.inl hik), restEntry_of_lt (Or.inl (by omega)), (hbefore i hik).1,
          (hbefore i hik).2]
        ring
      · rw [(hsolve i hki hi).1, (hsolve i hki hi).2]
        rcases Nat.lt_or_ge j k with hjk | hkj
        · rw [restEntry_of_lt (Or.inr hjk), restEntry_of_lt (Or.inr (by omega)),
            (hbefore j hjk).1, (hbefore j hjk).2]
          ring
        · rw [restEntry_of_le hki hkj, id]
          rcases Nat.lt_or_ge (k + 1) j with hgt | hle
          · obtain ⟨hj₁, hj₂⟩ := hsolve j hkj hj
            rcases Nat.lt_or_ge (k + 1) i with hgt' | hle'
            · rw [restEntry_of_le hgt' hgt, id, ht.entry i j hgt' hi hgt hj,
                blockLower_of_gt (by omega) (by omega), blockLower_of_gt hgt (by omega)]
              ring
            · rw [restEntry_of_lt (Or.inl (by omega)), h.symmetric i j hki hi hkj hj]
              rcases hki.lt_or_eq with hlt | rfl
              · obtain rfl : i = k + 1 := by omega
                rw [hcross]
                linear_combination -hj₂
              · linear_combination -hj₁
          · rw [restEntry_of_lt (Or.inr (by omega))]
            rcases hkj.lt_or_eq with hlt | rfl
            · obtain rfl : j = k + 1 := by omega
              rw [blockLower_double htwo, blockLower_self]
              ring
            · rw [blockLower_self, blockLower_of_lt (Nat.lt_succ_self k)]
              ring
    · have hfirst : blockDiagonal blocks t m k = 0 ∧ blockDiagonal blocks t k m = 0 :=
        blockDiagonal_finished htiles hm le_rfl fun c hc hand => by omega
      have hsecond : blockDiagonal blocks t m (k + 1) = 0 ∧ blockDiagonal blocks t (k + 1) m = 0 :=
        blockDiagonal_finished htiles hm (Nat.le_succ k) fun c hc hand => by omega
      exact ⟨hfirst.1, hfirst.2, hsecond.1, hsecond.2⟩

end Invariant

/-! ## Pivots -/

section Pivots

variable {K : Type} [Field K] [LinearOrder K] [IsStrictOrderedRing K]
variable (fixed : Bool) (sqrt : K → K) (epsilon : K) {n k : ℕ} {alpha : K}

/-- A single pivot is nonzero; a pair is taken only when the largest diagonal
is below `alpha` times the largest off-diagonal. -/
theorem ldltChoose_exact (halpha : 0 < alpha) (hk : k < n) (work : Grid K) :
    Ensures (ldltChoose (exactAdapter K fixed sqrt epsilon) alpha n k work)
      (fun choice => LdltPivots id n k work choice.1 ∧
        (choice.2 = true → choice.1.diagonalMax ≠ 0) ∧
        (choice.2 = false → 0 < choice.1.offDiagonalMax ∧
          choice.1.diagonalMax < alpha * choice.1.offDiagonalMax))
      (fun e => e = .errorSingular ∧ ∀ i j, k ≤ i → i ≤ j → j < n → work (i, j) = 0) := by
  have H := (exact_eliminationArith (K := K) fixed sqrt epsilon).toOrderedArith
  refine Ensures.seq ((ldltSearch_spec H hk work).mono (fun _ h => h.pivots) fun _ h => h.elim)
    fun best hbest => ?_
  have hdiag : 0 ≤ best.diagonalMax := (abs_nonneg _).trans hbest.diagonalMax.ge
  refine Ensures.ite (fun hzero => ?_) fun hzero => ?_
  · refine ⟨rfl, fun i j hi hij hj => ?_⟩
    obtain ⟨hd, ho⟩ := hzero
    rcases hij.lt_or_eq with hlt | rfl
    · have hle : |work (i, j)| ≤ best.offDiagonalMax := hbest.le_offDiagonalMax i j hi hlt hj
      rw [ho] at hle
      exact abs_nonpos_iff.mp hle
    · have hle : |work (i, i)| ≤ best.diagonalMax := hbest.le_diagonalMax i hi hj
      rw [hd] at hle
      exact abs_nonpos_iff.mp hle
  · rw [singlePivot]
    by_cases hle : best.offDiagonalMax ≤ best.diagonalMax
    · rw [if_pos hle]
      refine ⟨hbest, fun _ hd => ?_, nofun⟩
      rw [hd] at hle
      exact hzero ⟨hd, le_antisymm hle hbest.offDiagonalMax_nonneg⟩
    · rw [if_neg hle]
      have hoff : 0 < best.offDiagonalMax := hdiag.trans_lt (not_le.mp hle)
      refine ⟨hbest, fun hsingle => ?_, fun hdouble => ⟨hoff, ?_⟩⟩
      · have hratio := of_decide_eq_true hsingle
        rw [le_div_iff₀ hoff] at hratio
        exact ((mul_pos halpha hoff).trans_le hratio).ne'
      · have hratio := of_decide_eq_false hdouble
        rwa [not_le, div_lt_iff₀ hoff] at hratio

/-- A pair dominated by its off-diagonal entry is nonsingular. -/
theorem dominated_block {p b r d o : K} (hone : alpha < 1) (hb : |b| = o) (ho : 0 < o)
    (hp : |p| ≤ d) (hr : |r| ≤ d) (hd : d < alpha * o) :
    b ≠ 0 ∧ p / b * (r / b) - 1 ≠ 0 ∧ p * r - b * b ≠ 0 := by
  have hb0 : b ≠ 0 := by
    rw [← abs_pos, hb]
    exact ho
  have hdo : d < o := by nlinarith
  have hprod : |p * r| < |b * b| := by
    rw [abs_mul, abs_mul, hb]
    have hle : |p| * |r| ≤ d * d := mul_le_mul hp hr (abs_nonneg _) ((abs_nonneg _).trans hp)
    have hlt : d * d < o * o := mul_self_lt_mul_self ((abs_nonneg _).trans hp) hdo
    exact hle.trans_lt hlt
  have hne : p * r - b * b ≠ 0 := fun h => hprod.ne (congrArg _ (sub_eq_zero.mp h))
  refine ⟨hb0, fun h => hne ?_, hne⟩
  have heq : p * r - b * b = (p / b * (r / b) - 1) * (b * b) := by
    field_simp
  rw [heq, h, zero_mul]

variable {a : Grid K}

theorem singleStep_exact (hk : k < n) {s : LdltState K} {best : LdltChoice K}
    (hinv : LdltInvariant n a k s) (hbest : LdltPivots id n k s.work best)
    (hpivot : best.diagonalMax ≠ 0) :
    Ensures (singleStep (exactAdapter K fixed sqrt epsilon) n k best.diagonalIndex s)
      (LdltInvariant n a (k + 1)) (fun _ => False) := by
  obtain ⟨hlow, hhigh⟩ := hbest.index
  have hswap := hinv.swap le_rfl hk hlow hhigh
  refine Ensures.seq (eliminateSingle_exact fixed sqrt epsilon hk hswap.symmetric) fun t ht => ?_
  refine hswap.single hk ?_ ht
  rw [ldltSwap_work_of_le s le_rfl, Equiv.swap_apply_left]
  intro hzero
  have hmax : best.diagonalMax = |s.work (best.diagonalIndex, best.diagonalIndex)| :=
    hbest.diagonalMax
  rw [hzero, abs_zero] at hmax
  exact hpivot hmax

theorem doubleStep_exact (hone : alpha < 1) {s : LdltState K} {best : LdltChoice K}
    (hinv : LdltInvariant n a k s) (hbest : LdltPivots id n k s.work best)
    (hoff : 0 < best.offDiagonalMax) (hsmall : best.diagonalMax < alpha * best.offDiagonalMax) :
    Ensures (doubleStep (exactAdapter K fixed sqrt epsilon) n k best.p best.q s)
      (LdltInvariant n a (k + 2)) (fun _ => False) := by
  obtain ⟨hkp, hpq, hqn, hmax⟩ := hbest.offDiagonalMax hoff
  have hp := hinv.swap le_rfl (by omega) hkp (by omega)
  have hswap := hp.swap (Nat.le_succ k) (by omega) (by omega) hqn
  obtain ⟨hfirst, hpair, hsecond⟩ := ldltSwap_pair s hkp hpq
  have hblock := dominated_block hone hmax.symm hoff (hbest.le_diagonalMax best.p hkp (by omega))
    (hbest.le_diagonalMax best.q (by omega) hqn) hsmall
  rw [id, id, id, ← hfirst, ← hpair, ← hsecond] at hblock
  refine Ensures.seq (eliminateDouble_exact fixed sqrt epsilon (by omega) hswap.symmetric hblock.1
    hblock.2.1) fun t ht => ?_
  exact hswap.double (by omega) hblock.1 hblock.2.2 ht

/-- The loop advances the invariant until the active block is empty or zero. -/
theorem ldltLoop_exact (halpha : 0 < alpha) (hone : alpha < 1) {s : LdltState K}
    (hinv : LdltInvariant n a k s) :
    Ensures (ldltLoop (exactAdapter K fixed sqrt epsilon) alpha n k s) (LdltInvariant n a n)
      (fun e => e = .errorSingular ∧ ∃ k < n, ∃ s, LdltInvariant n a k s ∧
        ∀ i j, k ≤ i → i ≤ j → j < n → s.work (i, j) = 0) := by
  induction hrest : n - k using Nat.strong_induction_on generalizing k s with
  | h rest ih =>
    rw [ldltLoop]
    refine Ensures.ite (fun hk => ?_) fun hk => ?_
    · refine Ensures.seq ((ldltChoose_exact fixed sqrt epsilon halpha hk s.work).mono
        (fun _ h => h) fun e h => ⟨h.1, k, hk, s, hinv, h.2⟩) ?_
      rintro ⟨best, single⟩ ⟨hbest, hsingle, hdouble⟩
      cases single with
      | true =>
          refine Ensures.seq ((singleStep_exact fixed sqrt epsilon hk hinv hbest
            (hsingle rfl)).mono (fun _ h => h) fun _ h => h.elim) fun t ht => ?_
          exact ih (n - (k + 1)) (by omega) ht rfl
      | false =>
          refine Ensures.seq ((doubleStep_exact fixed sqrt epsilon hone hinv hbest
            (hdouble rfl).1 (hdouble rfl).2).mono (fun _ h => h) fun _ h => h.elim) fun t ht => ?_
          exact ih (n - (k + 2)) (by omega) ht rfl
    · obtain rfl : k = n := le_antisymm hinv.le (not_lt.mp hk)
      exact hinv

end Pivots

/-! ## The factors -/

section Factors

variable {K : Type} [Field K] {n k : ℕ} {a : Grid K} {s : LdltState K}

/-- Rows and columns read through the permutation. -/
theorem permMatrix_mul_transpose_apply (σ : Equiv.Perm (Fin n)) (M : Matrix (Fin n) (Fin n) K)
    (i j : Fin n) : (σ.permMatrix K * M * (σ.permMatrix K)ᵀ) i j = M (σ i) (σ j) := by
  have hflip : (σ.permMatrix K * M * (σ.permMatrix K)ᵀ) i j =
      (σ.permMatrix K * (σ.permMatrix K * M)ᵀ) j i := by
    rw [← Matrix.transpose_apply (σ.permMatrix K * (σ.permMatrix K * M)ᵀ), Matrix.transpose_mul,
      Matrix.transpose_transpose]
  rw [hflip, permMatrix_mul_apply, Matrix.transpose_apply, permMatrix_mul_apply]

/-- A zero active block makes the input singular. -/
theorem LdltInvariant.det_eq_zero (h : LdltInvariant n a k s) (hk : k < n)
    (hzero : ∀ i j, k ≤ i → i ≤ j → j < n → s.work (i, j) = 0) : (gridMatrix n n a).det = 0 := by
  obtain ⟨σ, hσ⟩ := h.perm
  have hrest : ∀ i j, i < n → j < n → restEntry id s.work k i j = 0 := by
    intro i j hi hj
    rcases Nat.lt_or_ge i k with hik | hki
    · exact restEntry_of_lt (Or.inl hik)
    rcases Nat.lt_or_ge j k with hjk | hkj
    · exact restEntry_of_lt (Or.inr hjk)
    rw [restEntry_of_le hki hkj, id]
    rcases Nat.le_total i j with hij | hji
    · exact hzero i j hki hij hj
    · rw [h.symmetric i j hki hi hkj hj]
      exact hzero j i hkj hji hi
  -- the permuted input factors through the first `k` columns
  let right : Matrix (Fin n) (Fin n) K := Matrix.of fun m j =>
    if (m : ℕ) < k then ∑ m' ∈ Finset.range k,
      blockDiagonal s.blocks s.work m m' * blockLower s.blocks s.work j m' else 0
  have hfactor : (gridMatrix n n a).submatrix σ σ =
      (Matrix.of fun i m : Fin n => blockLower s.blocks s.work i m) * right := by
    ext i j
    rw [Matrix.submatrix_apply, gridMatrix, Matrix.of_apply, ← hσ, ← hσ, h.entry i j i.isLt j.isLt,
      hrest i j i.isLt j.isLt, add_zero, Matrix.mul_apply, coupled]
    have hterm : ∀ m : Fin n, (Matrix.of fun i m : Fin n => blockLower s.blocks s.work i m) i m *
        right m j = (fun m : ℕ => if m < k then ∑ m' ∈ Finset.range k, blockLower s.blocks s.work i m *
          blockDiagonal s.blocks s.work m m' * blockLower s.blocks s.work j m' else 0) m := by
      intro m
      dsimp only [right]
      rw [Matrix.of_apply, Matrix.of_apply]
      split
      · rw [Finset.mul_sum]
        exact Finset.sum_congr rfl fun m' _ => (mul_assoc _ _ _).symm
      · exact mul_zero _
    rw [Finset.sum_congr rfl fun m _ => hterm m, Fin.sum_univ_eq_sum_range (fun m : ℕ => if m < k then
      ∑ m' ∈ Finset.range k, blockLower s.blocks s.work i m * blockDiagonal s.blocks s.work m m' *
        blockLower s.blocks s.work j m' else 0) n, ← Finset.sum_filter]
    refine Finset.sum_congr ?_ fun _ _ => rfl
    ext m
    rw [Finset.mem_range, Finset.mem_filter, Finset.mem_range]
    omega
  have hrow : right.det = 0 := Matrix.det_eq_zero_of_row_eq_zero ⟨k, hk⟩ fun j => by
    dsimp only [right]
    rw [Matrix.of_apply, if_neg (lt_irrefl k)]
  rw [← Matrix.det_submatrix_equiv_self σ, hfactor, Matrix.det_mul, hrow, mul_zero]

/-- What an exact factorisation delivers. -/
structure LdltExactResult (n : ℕ) (a l d : Grid K) (permutation blocks : ℕ → ℕ) : Prop where
  tiles : Tiles blocks n
  lower : ∀ i j : Fin n, i ≤ j → gridMatrix n n l i j = if i = j then 1 else 0
  lower_block : ∀ m, blocks m = 2 → m + 1 < n → l (m + 1, m) = 0
  symmetric : (gridMatrix n n d)ᵀ = gridMatrix n n d
  diagonal : ∀ i j : Fin n, i ≠ j → ¬(blocks i = 2 ∧ (j : ℕ) = i + 1) →
    ¬(blocks j = 2 ∧ (i : ℕ) = j + 1) → gridMatrix n n d i j = 0
  block : ∀ m, blocks m = 2 → m < n → m + 1 < n ∧ d (m, m + 1) ≠ 0 ∧
    d (m, m) * d (m + 1, m + 1) - d (m, m + 1) * d (m + 1, m) ≠ 0
  perm : ∃ σ : Equiv.Perm (Fin n), (∀ i : Fin n, permutation i = σ i) ∧
    σ.permMatrix K * gridMatrix n n a * (σ.permMatrix K)ᵀ =
      gridMatrix n n l * gridMatrix n n d * (gridMatrix n n l)ᵀ

theorem LdltInvariant.result (h : LdltInvariant n a n s) :
    LdltExactResult n a (fun x => blockLower s.blocks s.work x.1 x.2)
      (fun x => blockDiagonal s.blocks s.work x.1 x.2) s.perm s.blocks := by
  refine ⟨h.tiles, ?_, fun m htwo _ => blockLower_double htwo, ?_, ?_, ?_, ?_⟩
  · intro i j hij
    rw [gridMatrix, Matrix.of_apply]
    rcases hij.lt_or_eq with hlt | rfl
    · rw [if_neg hlt.ne, blockLower_of_lt hlt]
    · rw [if_pos rfl, blockLower_self]
  · ext i j
    rw [Matrix.transpose_apply, gridMatrix, Matrix.of_apply, Matrix.of_apply]
    dsimp only
    by_cases hlower : s.blocks j = 2 ∧ (i : ℕ) = j + 1
    · rw [hlower.2, blockDiagonal_upper hlower.1, blockDiagonal_lower hlower.1]
      exact (h.block j j.isLt hlower.1).2.1.symm
    by_cases hupper : s.blocks i = 2 ∧ (j : ℕ) = i + 1
    · rw [hupper.2, blockDiagonal_upper hupper.1, blockDiagonal_lower hupper.1]
      exact (h.block i i.isLt hupper.1).2.1
    by_cases heq : (i : ℕ) = j
    · rw [heq]
    · rw [blockDiagonal_eq_zero heq hlower hupper, blockDiagonal_eq_zero (Ne.symm heq) hupper hlower]
  · intro i j hne hupper hlower
    exact blockDiagonal_eq_zero (fun heq => hne (Fin.ext heq)) hlower hupper
  · intro m htwo hm
    obtain ⟨hoff, -, hdet⟩ := h.block m hm htwo
    dsimp only
    rw [blockDiagonal_self, blockDiagonal_self, blockDiagonal_upper htwo, blockDiagonal_lower htwo]
    exact ⟨h.tiles.double_lt hm htwo, hoff, hdet⟩
  · obtain ⟨σ, hσ⟩ := h.perm
    refine ⟨σ, hσ, ?_⟩
    ext i j
    rw [permMatrix_mul_transpose_apply, gridMatrix, Matrix.of_apply, ← hσ, ← hσ,
      h.entry i j i.isLt j.isLt, restEntry_of_lt (Or.inl i.isLt), add_zero, Matrix.mul_assoc,
      Matrix.mul_apply, coupled,
      ← Fin.sum_univ_eq_sum_range (fun m => ∑ m' ∈ Finset.range n, blockLower s.blocks s.work i m *
        blockDiagonal s.blocks s.work m m' * blockLower s.blocks s.work j m') n]
    refine Finset.sum_congr rfl fun m _ => ?_
    rw [Matrix.mul_apply, Finset.mul_sum,
      ← Fin.sum_univ_eq_sum_range (fun m' => blockLower s.blocks s.work i m *
        blockDiagonal s.blocks s.work m m' * blockLower s.blocks s.work j m') n]
    exact Finset.sum_congr rfl fun m' _ => mul_assoc _ _ _

end Factors

section Exact

variable {K : Type} [Field K] [LinearOrder K] [IsStrictOrderedRing K]

omit [Field K] [IsStrictOrderedRing K] in
theorem checkSymmetric_of_symmetric {n : ℕ} {a : Grid K}
    (h : ∀ i j, i < n → j < n → a (i, j) = a (j, i)) :
    Adapter.checkSymmetric a n = .ok () := by
  refine forRange_eq_ok (fun _ _ => ()) fun i _ _ hi => ?_
  refine forRange_eq_ok (fun _ _ => ()) fun j _ _ hj => ?_
  exact if_pos (h i j hi hj)

/-- The Bunch--Parlett template over an exact ordered field, with any pivot
threshold strictly between zero and one. -/
theorem bunch_parlett_template_exact (fixed : Bool) (sqrt : K → K) (epsilon : K) {alpha : K}
    (halpha : 0 < alpha) (hone : alpha < 1) (n : ℕ) (a : Grid K)
    (hsym : (gridMatrix n n a).IsSymm) :
    Ensures (ldltValuesWith (exactAdapter K fixed sqrt epsilon) (exactFormat K)
        (ldltFactorWith (exactAdapter K fixed sqrt epsilon) alpha) n a)
      (fun out => LdltExactResult n a out.l out.d out.permutation out.blocks)
      (fun e => e = .errorSingular ∧ (gridMatrix n n a).det = 0) := by
  have hentry : ∀ i j, i < n → j < n → a (i, j) = a (j, i) := fun i j hi hj =>
    (hsym.apply ⟨i, hi⟩ ⟨j, hj⟩).symm
  rw [ldltValuesWith, show loadGrid (exactFormat K) a = a from rfl,
    checkSymmetric_of_symmetric hentry]
  refine Ensures.seq (m := ldltFactorWith (exactAdapter K fixed sqrt epsilon) alpha n a)
    ((ldltLoop_exact fixed sqrt epsilon halpha hone
      (ldltInvariant_init fun i j _ hi _ hj => hentry i j hi hj)).mono (fun _ h => h) ?_)
    fun s hs => hs.result
  rintro e ⟨rfl, k, hk, s, hinv, hzero⟩
  exact ⟨rfl, hinv.det_eq_zero hk hzero⟩

/-- A zero diagonal leaves only a 2-by-2 pivot. -/
theorem bunch_parlett_template_exact_zero_diagonal :
    ∃ out, ldltValuesWith (exactAdapter ℚ true id 0) (exactFormat ℚ)
        (ldltFactorWith (exactAdapter ℚ true id 0) (1 / 2)) 2
        (fun x => if x.1 = x.2 then 0 else 1) = .ok out ∧
      LdltExactResult 2 (fun x => if x.1 = x.2 then (0 : ℚ) else 1) out.l out.d out.permutation
        out.blocks := by
  have hsym : (gridMatrix 2 2 fun x : ℕ × ℕ => if x.1 = x.2 then (0 : ℚ) else 1).IsSymm := by
    refine Matrix.IsSymm.ext fun i j => ?_
    simp only [gridMatrix, Matrix.of_apply, eq_comm]
  have hdet : (gridMatrix 2 2 fun x : ℕ × ℕ => if x.1 = x.2 then (0 : ℚ) else 1).det ≠ 0 := by
    rw [Matrix.det_fin_two]
    simp [gridMatrix]
  have h := bunch_parlett_template_exact true id (0 : ℚ) (show (0 : ℚ) < 1 / 2 by norm_num)
    (by norm_num) 2 (fun x => if x.1 = x.2 then 0 else 1) hsym
  exact (h.mono (fun _ hout => hout) fun _ he => hdet he.2).exists_ok

end Exact

end Xhive.Linears
