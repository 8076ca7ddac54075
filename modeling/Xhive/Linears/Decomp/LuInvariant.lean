import Xhive.Linears.Decomp.Lu
import Mathlib.GroupTheory.Perm.Sign
import Mathlib.Tactic.Linarith

/-!
# The elimination invariant

After `k` steps the permuted input is, entry by entry and up to the accumulated
roundings, the product of the stored factors plus the block that is still to be
eliminated.  The same statement with zero rounding errors is the exact one.
-/

namespace Xhive.Linears

open Xhive.Support

section Invariant

variable {S K : Type} [Field K] {value : S → K} {scale ulp divError : K}

/-- Entry of the unit lower factor, with `scale` for the unit. -/
def lowerEntry (value : S → K) (scale : K) (a : Grid S) (i m : ℕ) : K :=
  if m < i then value (a (i, m)) else if m = i then scale else 0

def upperEntry (value : S → K) (a : Grid S) (m j : ℕ) : K :=
  if m ≤ j then value (a (m, j)) else 0

/-- Entry of the block that is still to be eliminated. -/
def restEntry (value : S → K) (a : Grid S) (k i j : ℕ) : K :=
  if k ≤ i ∧ k ≤ j then value (a (i, j)) else 0

theorem lowerEntry_of_lt {a : Grid S} {i m : ℕ} (h : m < i) :
    lowerEntry value scale a i m = value (a (i, m)) :=
  if_pos h

theorem lowerEntry_self (a : Grid S) (i : ℕ) : lowerEntry value scale a i i = scale := by
  rw [lowerEntry, if_neg (lt_irrefl i), if_pos rfl]

theorem lowerEntry_of_gt {a : Grid S} {i m : ℕ} (h : i < m) :
    lowerEntry value scale a i m = 0 := by
  rw [lowerEntry, if_neg h.not_gt, if_neg h.ne']

theorem upperEntry_of_le {a : Grid S} {m j : ℕ} (h : m ≤ j) :
    upperEntry value a m j = value (a (m, j)) :=
  if_pos h

theorem upperEntry_of_gt {a : Grid S} {m j : ℕ} (h : j < m) : upperEntry value a m j = 0 :=
  if_neg h.not_ge

theorem restEntry_of_le {a : Grid S} {k i j : ℕ} (hi : k ≤ i) (hj : k ≤ j) :
    restEntry value a k i j = value (a (i, j)) :=
  if_pos ⟨hi, hj⟩

theorem restEntry_of_lt {a : Grid S} {k i j : ℕ} (h : i < k ∨ j < k) :
    restEntry value a k i j = 0 :=
  if_neg (by omega)

variable [LinearOrder K]

/-- The roundings charged to entry `(i, j)` after `k` steps. -/
def entryError (value : S → K) (ulp divError : K) (a : Grid S) (k i j : ℕ) : K :=
  ulp * (min (min i j) k : ℕ) + if j < i ∧ j < k then divError * |value (a (j, j))| else 0

theorem entryError_of_lt {a : Grid S} {k i j : ℕ} (hi : j < i) (hk : j < k) :
    entryError value ulp divError a k i j =
      ulp * (min (min i j) k : ℕ) + divError * |value (a (j, j))| := by
  rw [entryError, if_pos ⟨hi, hk⟩]

theorem entryError_of_le {a : Grid S} {k i j : ℕ} (h : i ≤ j ∨ k ≤ j) :
    entryError value ulp divError a k i j = ulp * (min (min i j) k : ℕ) := by
  rw [entryError, if_neg (by omega), add_zero]

/-- A step changes the error budget of no finished entry. -/
theorem entryError_congr {a b : Grid S} {k i j : ℕ} (hdiag : j < k → b (j, j) = a (j, j))
    (h : i ≤ k ∨ j < k) :
    entryError value ulp divError b (k + 1) i j = entryError value ulp divError a k i j := by
  have hmin : min (min i j) (k + 1) = min (min i j) k := by omega
  rcases Nat.lt_or_ge j i with hji | hij
  · rw [entryError_of_lt hji (by omega), entryError_of_lt hji (by omega), hmin,
      hdiag (by omega)]
  · rw [entryError_of_le (Or.inl hij), entryError_of_le (Or.inl hij), hmin]

structure LuInvariant (value : S → K) (scale ulp divError : K) (n rhs : ℕ) (a₀ b₀ : Grid S)
    (k : ℕ) (s : LuState S) : Prop where
  perm : ∃ σ : Equiv.Perm (Fin n), (∀ i : Fin n, s.permutation i = σ i) ∧
    s.parity = (Equiv.Perm.sign σ : ℤ)
  pivot : ∀ m < k, value (s.a (m, m)) ≠ 0
  multiplier : ∀ i m, m < k → m < i → i < n → |value (s.a (i, m))| ≤ scale
  entry : ∀ i j, i < n → j < n →
    |scale * value (a₀ (s.permutation i, j)) -
        ∑ m ∈ Finset.range k, lowerEntry value scale s.a i m * upperEntry value s.a m j -
        scale * restEntry value s.a k i j| ≤ entryError value ulp divError s.a k i j
  rhsEntry : ∀ i c, i < n → c < rhs →
    |scale * value (b₀ (s.permutation i, c)) -
        ∑ m ∈ Finset.range k, lowerEntry value scale s.a i m * value (s.b (m, c)) -
        scale * (if k ≤ i then value (s.b (i, c)) else 0)| ≤ ulp * (min i k : ℕ)

theorem luInvariant_init [IsStrictOrderedRing K] (n rhs : ℕ) (a₀ b₀ : Grid S) :
    LuInvariant value scale ulp divError n rhs a₀ b₀ 0
      { a := a₀, b := b₀, permutation := id, parity := 1 } := by
  refine ⟨⟨1, fun _ => rfl, by simp⟩, by simp, by simp, ?_, ?_⟩
  · intro i j _ _
    simp [restEntry, entryError]
  · intro i c _ _
    simp

theorem val_swap {n : ℕ} (k p i : Fin n) :
    ((Equiv.swap k p i : Fin n) : ℕ) = Equiv.swap (k : ℕ) p i := by
  rw [Equiv.swap_apply_def, Equiv.swap_apply_def]
  simp only [Fin.ext_iff]
  split_ifs <;> rfl

theorem parity_luExchange {n : ℕ} (k p : Fin n) (s : LuState S) {σ : Equiv.Perm (Fin n)}
    (hσ : s.parity = (Equiv.Perm.sign σ : ℤ)) :
    (luExchange k p s).parity = (Equiv.Perm.sign (σ * Equiv.swap k p) : ℤ) := by
  rw [luExchange]
  by_cases hpk : p = k
  · rw [if_neg (not_not.mpr (congrArg Fin.val hpk)), hpk, Equiv.swap_self, hσ]
    rfl
  · rw [if_pos (fun h => hpk (Fin.ext h)), Equiv.Perm.sign_mul,
      Equiv.Perm.sign_swap (Ne.symm hpk), hσ]
    simp

/-- The row exchange moves whole rows of every array, so each entry keeps its
equation. -/
theorem LuInvariant.exchange {n rhs k p : ℕ} {a₀ b₀ : Grid S} {s : LuState S}
    (h : LuInvariant value scale ulp divError n rhs a₀ b₀ k s) (hk : k < n) (hkp : k ≤ p)
    (hp : p < n) :
    LuInvariant value scale ulp divError n rhs a₀ b₀ k (luExchange k p s) := by
  have hswap : ∀ i, i < n → (i < k ∧ Equiv.swap k p i = i) ∨
      (k ≤ i ∧ k ≤ Equiv.swap k p i ∧ Equiv.swap k p i < n) := by
    intro i hi
    rcases Nat.lt_or_ge i k with hlt | hge
    · exact Or.inl ⟨hlt, swap_of_lt hkp hlt⟩
    · exact Or.inr ⟨hge, le_swap hkp hge, swap_lt hk hp hi⟩
  have hfixed : ∀ m < k, Equiv.swap k p m = m := fun m hm => swap_of_lt hkp hm
  have hlower : ∀ i m, i < n → m < k →
      lowerEntry value scale (luExchange k p s).a i m =
        lowerEntry value scale s.a (Equiv.swap k p i) m := by
    intro i m hi hm
    rw [lowerEntry, lowerEntry, luExchange_a]
    rcases hswap i hi with ⟨-, heq⟩ | ⟨hle, hle', -⟩
    · rw [heq]
    · rw [if_pos (by omega), if_pos (by omega)]
  have hupper : ∀ m j, m < k →
      upperEntry value (luExchange k p s).a m j = upperEntry value s.a m j := by
    intro m j hm
    rw [upperEntry, upperEntry, luExchange_a]
    dsimp only
    rw [hfixed m hm]
  refine ⟨?_, ?_, ?_, ?_, ?_⟩
  · obtain ⟨σ, hσ, hsign⟩ := h.perm
    refine ⟨σ * Equiv.swap ⟨k, hk⟩ ⟨p, hp⟩, fun i => ?_,
      parity_luExchange ⟨k, hk⟩ ⟨p, hp⟩ s hsign⟩
    rw [luExchange_permutation, Equiv.Perm.mul_apply, ← hσ, val_swap]
  · intro m hm
    rw [luExchange_a]
    dsimp only
    rw [hfixed m hm]
    exact h.pivot m hm
  · intro i m hm hmi hi
    rw [luExchange_a]
    rcases hswap i hi with ⟨hlt, heq⟩ | ⟨hle, hle', hlt⟩
    · dsimp only
      rw [heq]
      exact h.multiplier i m hm hmi hi
    · exact h.multiplier _ m hm (lt_of_lt_of_le hm hle') hlt
  · intro i j hi hj
    have hin : Equiv.swap k p i < n := swap_lt hk hp hi
    have hentry := h.entry (Equiv.swap k p i) j hin hj
    have hsum : ∑ m ∈ Finset.range k, lowerEntry value scale (luExchange k p s).a i m *
        upperEntry value (luExchange k p s).a m j =
        ∑ m ∈ Finset.range k, lowerEntry value scale s.a (Equiv.swap k p i) m *
          upperEntry value s.a m j := by
      refine Finset.sum_congr rfl fun m hm => ?_
      rw [Finset.mem_range] at hm
      rw [hlower i m hi hm, hupper m j hm]
    have hrest : restEntry value (luExchange k p s).a k i j =
        restEntry value s.a k (Equiv.swap k p i) j := by
      rw [restEntry, restEntry, luExchange_a]
      rcases hswap i hi with ⟨hlt, heq⟩ | ⟨hle, hle', -⟩
      · rw [heq]
      · simp only [hle, hle', true_and]
    have herror : entryError value ulp divError (luExchange k p s).a k i j =
        entryError value ulp divError s.a k (Equiv.swap k p i) j := by
      have hmin : min (min i j) k = min (min (Equiv.swap k p i) j) k := by
        rcases hswap i hi with ⟨-, heq⟩ | ⟨hle, hle', -⟩
        · rw [heq]
        · omega
      rw [entryError, entryError, hmin]
      congr 1
      rcases hswap i hi with ⟨hlt, heq⟩ | ⟨hle, hle', -⟩
      · rw [heq, luExchange_a]
        split
        · dsimp only
          rw [hfixed j (by omega)]
        · rfl
      · rw [luExchange_a]
        by_cases hjk : j < k
        · rw [if_pos ⟨by omega, hjk⟩, if_pos ⟨by omega, hjk⟩]
          dsimp only
          rw [hfixed j hjk]
        · rw [if_neg (fun hand => hjk hand.2), if_neg (fun hand => hjk hand.2)]
    rw [luExchange_permutation, hsum, hrest, herror]
    exact hentry
  · intro i c hi hc
    have hin : Equiv.swap k p i < n := swap_lt hk hp hi
    have hentry := h.rhsEntry (Equiv.swap k p i) c hin hc
    have hsum : ∑ m ∈ Finset.range k, lowerEntry value scale (luExchange k p s).a i m *
        value ((luExchange k p s).b (m, c)) =
        ∑ m ∈ Finset.range k, lowerEntry value scale s.a (Equiv.swap k p i) m *
          value (s.b (m, c)) := by
      refine Finset.sum_congr rfl fun m hm => ?_
      rw [Finset.mem_range] at hm
      rw [hlower i m hi hm, luExchange_b]
      dsimp only
      rw [hfixed m hm]
    have hmin : min i k = min (Equiv.swap k p i) k ∧ (k ≤ i ↔ k ≤ Equiv.swap k p i) := by
      rcases hswap i hi with ⟨-, heq⟩ | ⟨hle, hle', -⟩
      · rw [heq]
        exact ⟨rfl, Iff.rfl⟩
      · omega
    rw [luExchange_permutation, hsum, luExchange_b]
    simp only [hmin.1, hmin.2]
    exact hentry

/-- The entries of the stored factors that a step leaves alone. -/
theorem sum_lower_upper_congr {n rhs k : ℕ} {s t : LuState S}
    (helim : Eliminated value scale ulp divError n rhs k n s t) (i j : ℕ) :
    ∑ m ∈ Finset.range k, lowerEntry value scale t.a i m * upperEntry value t.a m j =
      ∑ m ∈ Finset.range k, lowerEntry value scale s.a i m * upperEntry value s.a m j := by
  refine Finset.sum_congr rfl fun m hm => ?_
  rw [Finset.mem_range] at hm
  rw [lowerEntry, lowerEntry, upperEntry, upperEntry, helim.frame i m (by omega),
    helim.frame m j (by omega)]

/-- Entry `(i, j)` after the step, by the position of `i` and `j` relative to
the pivot. -/
theorem Eliminated.entry_bound [IsStrictOrderedRing K] {n rhs k : ℕ} {s t : LuState S} {x : K} {i j : ℕ}
    (helim : Eliminated value scale ulp divError n rhs k n s t) (hi : i < n) (hj : j < n)
    (h : |x - scale * restEntry value s.a k i j| ≤ entryError value ulp divError s.a k i j) :
    |x - lowerEntry value scale t.a i k * upperEntry value t.a k j -
        scale * restEntry value t.a (k + 1) i j| ≤
      entryError value ulp divError t.a (k + 1) i j := by
  have hdiag : ∀ m, m ≤ k → t.a (m, m) = s.a (m, m) := fun m hm => helim.frame m m (by omega)
  have hpivotRow : t.a (k, j) = s.a (k, j) := helim.frame k j (by omega)
  rcases lt_trichotomy i k with hik | rfl | hki
  · -- an earlier row is finished
    rw [restEntry_of_lt (Or.inl hik)] at h
    rw [lowerEntry_of_gt hik, restEntry_of_lt (Or.inl (by omega)), zero_mul, sub_zero,
      entryError_congr (fun hj => hdiag j hj.le) (Or.inl hik.le)]
    exact h
  · -- the pivot row becomes a row of the upper factor
    have hsame : restEntry value s.a i i j = upperEntry value t.a i j := by
      rw [upperEntry, hpivotRow, restEntry]
      simp
    rw [hsame] at h
    rw [lowerEntry_self, restEntry_of_lt (Or.inl (Nat.lt_succ_self i)), mul_zero, sub_zero,
      entryError_congr (fun hj => hdiag j hj.le) (Or.inl le_rfl)]
    exact h
  · rw [lowerEntry_of_lt hki]
    rcases lt_trichotomy j k with hjk | rfl | hkj
    · -- a finished column
      rw [restEntry_of_lt (Or.inr hjk)] at h
      rw [upperEntry_of_gt hjk, restEntry_of_lt (Or.inr (by omega)), mul_zero, sub_zero,
        entryError_congr (fun hj => hdiag j hj.le) (Or.inr hjk)]
      exact h
    · -- the multiplier: one division error
      obtain ⟨hmult, -⟩ := helim.multiplier i hki hi
      rw [restEntry_of_le hki.le le_rfl, entryError_of_le (Or.inr le_rfl)] at h
      rw [upperEntry_of_le le_rfl, hpivotRow, restEntry_of_lt (Or.inr (Nat.lt_succ_self j)),
        mul_zero, sub_zero, entryError_of_lt hki (Nat.lt_succ_self j), hpivotRow,
        show min (min i j) (j + 1) = min (min i j) j by omega]
      calc
        |x - value (t.a (i, j)) * value (s.a (j, j))|
          = |(x - scale * value (s.a (i, j))) +
              (scale * value (s.a (i, j)) - value (t.a (i, j)) * value (s.a (j, j)))| := by
            congr 1
            ring
        _ ≤ |x - scale * value (s.a (i, j))| +
              |scale * value (s.a (i, j)) - value (t.a (i, j)) * value (s.a (j, j))| :=
            abs_add_le _ _
        _ ≤ _ := add_le_add h hmult
    · -- an updated entry: one more fused rounding
      have hupdate := helim.entry i j hki hi hkj hj
      rw [restEntry_of_le hki.le hkj.le, entryError_of_le (Or.inr hkj.le)] at h
      rw [upperEntry_of_le hkj.le, hpivotRow, restEntry_of_le hki hkj,
        entryError_of_le (Or.inr hkj), show min (min i j) (k + 1) = min (min i j) k + 1 by omega]
      push_cast
      calc
        |x - value (t.a (i, k)) * value (s.a (k, j)) - scale * value (t.a (i, j))|
          = |(x - scale * value (s.a (i, j))) + (scale * value (s.a (i, j)) -
              value (t.a (i, k)) * value (s.a (k, j)) - scale * value (t.a (i, j)))| := by
            congr 1
            ring
        _ ≤ |x - scale * value (s.a (i, j))| + |scale * value (s.a (i, j)) -
              value (t.a (i, k)) * value (s.a (k, j)) - scale * value (t.a (i, j))| :=
            abs_add_le _ _
        _ ≤ _ := by push_cast at h; linarith

/-- The right-hand sides follow the same elimination. -/
theorem Eliminated.rhs_bound [IsStrictOrderedRing K] {n rhs k : ℕ} {s t : LuState S} {x : K} {i c : ℕ}
    (helim : Eliminated value scale ulp divError n rhs k n s t) (hi : i < n) (hc : c < rhs)
    (h : |x - scale * (if k ≤ i then value (s.b (i, c)) else 0)| ≤ ulp * (min i k : ℕ)) :
    |x - lowerEntry value scale t.a i k * value (t.b (k, c)) -
        scale * (if k + 1 ≤ i then value (t.b (i, c)) else 0)| ≤ ulp * (min i (k + 1) : ℕ) := by
  have hpivotRow : t.b (k, c) = s.b (k, c) := helim.rhsFrame k c (by omega)
  rcases lt_trichotomy i k with hik | rfl | hki
  · rw [if_neg (by omega)] at h
    rw [lowerEntry_of_gt hik, if_neg (by omega), zero_mul, sub_zero,
      show min i (k + 1) = min i k by omega]
    exact h
  · rw [if_pos le_rfl] at h
    rw [lowerEntry_self, hpivotRow, if_neg (by omega), mul_zero, sub_zero,
      show min i (i + 1) = min i i by omega]
    exact h
  · have hupdate := helim.rhsEntry i c hki hi hc
    rw [if_pos hki.le] at h
    rw [lowerEntry_of_lt hki, hpivotRow, if_pos (Nat.succ_le_of_lt hki),
      show min i (k + 1) = min i k + 1 by omega]
    push_cast at h ⊢
    calc
      |x - value (t.a (i, k)) * value (s.b (k, c)) - scale * value (t.b (i, c))|
        = |(x - scale * value (s.b (i, c))) + (scale * value (s.b (i, c)) -
            value (t.a (i, k)) * value (s.b (k, c)) - scale * value (t.b (i, c)))| := by
          congr 1
          ring
      _ ≤ |x - scale * value (s.b (i, c))| + |scale * value (s.b (i, c)) -
            value (t.a (i, k)) * value (s.b (k, c)) - scale * value (t.b (i, c))| :=
          abs_add_le _ _
      _ ≤ _ := by linarith

/-- Eliminating behind a nonzero pivot advances the invariant. -/
theorem LuInvariant.eliminate [IsStrictOrderedRing K] {n rhs k : ℕ} {a₀ b₀ : Grid S} {s t : LuState S}
    (h : LuInvariant value scale ulp divError n rhs a₀ b₀ k s)
    (helim : Eliminated value scale ulp divError n rhs k n s t)
    (hpivot : value (s.a (k, k)) ≠ 0) :
    LuInvariant value scale ulp divError n rhs a₀ b₀ (k + 1) t := by
  have hdiag : ∀ m, m ≤ k → t.a (m, m) = s.a (m, m) := fun m hm => helim.frame m m (by omega)
  refine ⟨?_, ?_, ?_, ?_, ?_⟩
  · rw [helim.permutation, helim.parity]
    exact h.perm
  · intro m hm
    rw [hdiag m (by omega)]
    rcases Nat.lt_succ_iff_lt_or_eq.mp hm with hlt | rfl
    · exact h.pivot m hlt
    · exact hpivot
  · intro i m hm hmi hi
    rcases Nat.lt_succ_iff_lt_or_eq.mp hm with hlt | rfl
    · rw [helim.frame i m (by omega)]
      exact h.multiplier i m hlt hmi hi
    · exact (helim.multiplier i hmi hi).2
  · intro i j hi hj
    rw [Finset.sum_range_succ, sum_lower_upper_congr helim, helim.permutation, ← sub_sub]
    exact helim.entry_bound hi hj (h.entry i j hi hj)
  · intro i c hi hc
    have hsum : ∑ m ∈ Finset.range k, lowerEntry value scale t.a i m * value (t.b (m, c)) =
        ∑ m ∈ Finset.range k, lowerEntry value scale s.a i m * value (s.b (m, c)) := by
      refine Finset.sum_congr rfl fun m hm => ?_
      rw [Finset.mem_range] at hm
      rw [lowerEntry, lowerEntry, helim.frame i m (by omega), helim.rhsFrame m c (by omega)]
    rw [Finset.sum_range_succ, hsum, helim.permutation, ← sub_sub]
    exact helim.rhs_bound hi hc (h.rhsEntry i c hi hc)

/-- The whole factorisation, from the step and the invariant. -/
theorem luFactor_spec [IsStrictOrderedRing K] {A : Type} [LinearOrder S] {D : Adapter S A} {fail : Status → Prop}
    (H : EliminationArith D value scale ulp divError fail) (n rhs : ℕ) (a₀ b₀ : Grid S) :
    Ensures (luFactor D n rhs a₀ b₀) (LuInvariant value scale ulp divError n rhs a₀ b₀ n)
      (fun e => fail e ∨ e = .errorSingular ∧ ∃ k < n, ∃ s,
        LuInvariant value scale ulp divError n rhs a₀ b₀ k s ∧
          ∀ i, k ≤ i → i < n → value (s.a (i, k)) = 0) := by
  refine Ensures.forRange (LuInvariant value scale ulp divError n rhs a₀ b₀) (Nat.zero_le n)
    (luInvariant_init n rhs a₀ b₀) ?_
  intro k s _ hk hinv
  refine (luStep_spec H hk rhs s).mono ?_ ?_
  · rintro t ⟨p, hkp, hp, hpivot, helim⟩
    exact (hinv.exchange hk hkp hp).eliminate helim hpivot
  · rintro e (hfail | ⟨rfl, hzero⟩)
    · exact Or.inl hfail
    · exact Or.inr ⟨rfl, k, hk, s, hinv, hzero⟩

end Invariant

end Xhive.Linears
