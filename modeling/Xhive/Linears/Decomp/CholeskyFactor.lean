import Xhive.Linears.Decomp.LuColumns
import Xhive.Support.QuadraticForms
import Xhive.Linears.Decomp.Lu

/-!
# Unblocked Cholesky factorisation

The kernel of `decomp_cholesky.inc` over any adapter.  The factor replaces the
lower triangle of the working array row by row and the rest of a row is cleared.
-/

namespace Xhive.Linears

open Xhive.Support

variable {S A Raw : Type} [LinearOrder S] (D : Adapter S A) (F : Format Raw S)

/-- Entry `(i, j)` of the factor, from the entries before it. -/
def choleskyEntry (i j : ℕ) (work : Grid S) : Except Status S := do
  let value ← D.dotSub (work (i, j)) (fun k => work (i, k)) (fun k => work (j, k)) j
  if i = j then
    if value ≤ D.zero then .error .errorNotPositiveDefinite else D.sqrt value
  else D.div value (work (j, j))

def choleskyRow (n i : ℕ) (work : Grid S) : Except Status (Grid S) := do
  let work ← fillRange 0 (i + 1) (fun j => (i, j)) work (choleskyEntry D i)
  .ok fun x => if x.1 = i ∧ i < x.2 ∧ x.2 < n then D.zero else work x

def choleskyFactor (n : ℕ) (a : Grid S) : Except Status (Grid S) :=
  forRange 0 n a (choleskyRow D n)

/-- `cholesky` after its validation. -/
def choleskyValues (n : ℕ) (a : Grid Raw) : Except Status (Grid Raw) := do
  let work := loadGrid F a
  Adapter.checkSymmetric work n
  let factor ← choleskyFactor D n work
  F.checkBlock D.zero factor n n
  .ok fun x => F.store (factor x)

end Xhive.Linears

/-!
## What the Cholesky template computes

The factor overwrites its argument, but an entry reads only entries of the
factor that are final and the one cell it replaces.  A finished run therefore
satisfies one equation per entry, which in fixed point bounds the residual of
each entry and over an exact field is `A = L * Lᵀ`.
-/

namespace Xhive.Linears

open Xhive.Support

/-! ## Symmetry -/

theorem checkSymmetric_spec {S : Type} [LinearOrder S] (data : Grid S) (n : ℕ) :
    Ensures (Adapter.checkSymmetric data n)
      (fun _ => ∀ i < n, ∀ j < n, data (i, j) = data (j, i))
      (fun e => e = .errorDimension ∧ ∃ i < n, ∃ j < n, data (i, j) ≠ data (j, i)) := by
  have hrow : ∀ i < n, Ensures (forRange (i + 1) n () fun j _ =>
      if data (i, j) = data (j, i) then .ok () else .error Status.errorDimension)
      (fun _ => ∀ j, i < j → j < n → data (i, j) = data (j, i))
      (fun e => e = .errorDimension ∧ ∃ i < n, ∃ j < n, data (i, j) ≠ data (j, i)) := by
    intro i hi
    refine Ensures.forRange (fun k _ => ∀ j, i < j → j < k → data (i, j) = data (j, i)) hi ?_ ?_
    · intro j hij hj
      omega
    · intro k _ _ hk hdone
      apply Ensures.ite
      · intro heq j hij hj
        rcases Nat.lt_succ_iff_lt_or_eq.mp hj with hlt | rfl
        · exact hdone j hij hlt
        · exact heq
      · exact fun hne => ⟨rfl, i, hi, k, hk, hne⟩
  have hall := Ensures.forAll hrow
  refine hall.imp fun _ h i hi j hj => ?_
  rcases lt_trichotomy i j with hlt | rfl | hgt
  · exact h i hi j hlt hj
  · rfl
  · exact (h j hj i hgt hi).symm

/-! ## The equation of an entry -/

section Equations

variable {S A : Type} [LinearOrder S] {D : Adapter S A} {n i j : ℕ} {a work l l' : Grid S}

omit [LinearOrder S] in
theorem Adapter.dotSub_congr {value : S} {left left' right right' : ℕ → S} {count : ℕ}
    (hleft : ∀ k < count, left' k = left k) (hright : ∀ k < count, right' k = right k) :
    D.dotSub value left' right' count = D.dotSub value left right count := by
  rw [Adapter.dotSub, Adapter.dotSub]
  split
  · congr 1
    funext accumulator
    congr 1
    apply forRange_congr
    intro k _ _ hk
    rw [hleft k hk, hright k hk]
  · apply forRange_congr
    intro k _ _ hk
    rw [hleft k hk, hright k hk]

variable (D) in
/-- Entry `(i, j)` of the factor of `a`, from the factor alone. -/
def choleskyEquation (a : Grid S) (i j : ℕ) (l : Grid S) : Except Status S := do
  let value ← D.dotSub (a (i, j)) (fun k => l (i, k)) (fun k => l (j, k)) j
  if i = j then
    if value ≤ D.zero then .error .errorNotPositiveDefinite else D.sqrt value
  else D.div value (l (j, j))

theorem choleskyEntry_eq (h : work (i, j) = a (i, j)) :
    choleskyEntry D i j work = choleskyEquation D a i j work := by
  rw [choleskyEntry, choleskyEquation, h]

/-- The equation reads the two rows before its column and the pivot of the
column. -/
theorem choleskyEquation_congr (hrow : ∀ k < j, l' (i, k) = l (i, k))
    (hcol : ∀ k < j, l' (j, k) = l (j, k)) (hpivot : i ≠ j → l' (j, j) = l (j, j)) :
    choleskyEquation D a i j l' = choleskyEquation D a i j l := by
  rw [choleskyEquation, choleskyEquation, Adapter.dotSub_congr hrow hcol]
  congr 1
  funext value
  by_cases heq : i = j
  · rw [if_pos heq, if_pos heq]
  · rw [if_neg heq, if_neg heq, hpivot heq]

/-- The working array when the rows before `i` and the entries of row `i` before
column `j` are done. -/
structure CholeskyUpTo (D : Adapter S A) (n : ℕ) (a : Grid S) (i j : ℕ) (work : Grid S) :
    Prop where
  entry : ∀ r c, c ≤ r → r < i ∨ r = i ∧ c < j →
    choleskyEquation D a r c work = .ok (work (r, c))
  above : ∀ r c, r < i → r < c → c < n → work (r, c) = D.zero
  rest : ∀ r c, i < r ∨ r = i ∧ j ≤ c → work (r, c) = a (r, c)

/-- The step lemma. -/
theorem CholeskyUpTo.next {value : S} (h : CholeskyUpTo D n a i j work) (hj : j ≤ i)
    (hvalue : choleskyEntry D i j work = .ok value) :
    CholeskyUpTo D n a i (j + 1) (Function.update work (i, j) value) := by
  rw [choleskyEntry_eq (h.rest i j (Or.inr ⟨rfl, le_rfl⟩))] at hvalue
  have hkeep : ∀ r c, (r, c) ≠ (i, j) → Function.update work (i, j) value (r, c) = work (r, c) :=
    fun r c hne => Function.update_of_ne hne value work
  have hsame : ∀ r c, c ≤ r → r < i ∨ r = i ∧ c ≤ j →
      choleskyEquation D a r c (Function.update work (i, j) value) =
        choleskyEquation D a r c work := by
    intro r c hcr hbefore
    apply choleskyEquation_congr
    · intro k hk
      apply hkeep
      rw [ne_eq, Prod.mk.injEq]
      omega
    · intro k hk
      apply hkeep
      rw [ne_eq, Prod.mk.injEq]
      omega
    · intro hne
      apply hkeep
      rw [ne_eq, Prod.mk.injEq]
      omega
  constructor
  · intro r c hcr hbefore
    rw [hsame r c hcr (by omega)]
    by_cases heq : (r, c) = (i, j)
    · obtain ⟨rfl, rfl⟩ := Prod.mk.inj heq
      rw [Function.update_self]
      exact hvalue
    · rw [hkeep r c heq]
      rw [Prod.mk.injEq] at heq
      exact h.entry r c hcr (by omega)
  · intro r c hr hrc hc
    rw [hkeep r c (by rw [ne_eq, Prod.mk.injEq]; omega)]
    exact h.above r c hr hrc hc
  · intro r c hrest
    rw [hkeep r c (by rw [ne_eq, Prod.mk.injEq]; omega)]
    exact h.rest r c (by omega)

/-- Clearing the rest of a finished row. -/
theorem CholeskyUpTo.clear (h : CholeskyUpTo D n a i (i + 1) work) :
    CholeskyUpTo D n a (i + 1) 0
      fun x => if x.1 = i ∧ i < x.2 ∧ x.2 < n then D.zero else work x := by
  have hkeep : ∀ r c, c ≤ r ∨ r ≠ i →
      (if r = i ∧ i < c ∧ c < n then D.zero else work (r, c)) = work (r, c) := by
    intro r c hout
    exact if_neg (by omega)
  constructor
  · intro r c hcr hbefore
    have hsame : choleskyEquation D a r c
        (fun x => if x.1 = i ∧ i < x.2 ∧ x.2 < n then D.zero else work x) =
        choleskyEquation D a r c work :=
      choleskyEquation_congr (fun k hk => hkeep r k (Or.inl (by omega)))
        (fun k hk => hkeep c k (Or.inl hk.le)) fun _ => hkeep c c (Or.inl le_rfl)
    dsimp only
    rw [hsame, hkeep r c (Or.inl hcr)]
    exact h.entry r c hcr (by omega)
  · intro r c hr hrc hc
    dsimp only
    by_cases hri : r = i
    · rw [if_pos ⟨hri, hri ▸ hrc, hc⟩]
    · rw [hkeep r c (Or.inr hri)]
      exact h.above r c (by omega) hrc hc
  · intro r c hrest
    dsimp only
    rw [hkeep r c (Or.inr (by omega))]
    exact h.rest r c (by omega)

/-- The run lemma: the factor satisfies every equation; an error is that of an
entry. -/
theorem choleskyFactor_spec (D : Adapter S A) (n : ℕ) (a : Grid S) :
    Ensures (choleskyFactor D n a) (CholeskyUpTo D n a n 0) (fun e =>
      ∃ i < n, ∃ j ≤ i, ∃ work, CholeskyUpTo D n a i j work ∧
        choleskyEquation D a i j work = .error e) := by
  refine Ensures.forRange (fun i work => CholeskyUpTo D n a i 0 work) (Nat.zero_le n) ?_ ?_
  · exact ⟨fun r c _ hbefore => by omega, fun r _ hr => by omega, fun _ _ _ => rfl⟩
  · intro i work _ hi hrows
    have hrow : Ensures (fillRange 0 (i + 1) (fun j => (i, j)) work (choleskyEntry D i))
        (fun work => CholeskyUpTo D n a i (i + 1) work) (fun e =>
          ∃ i < n, ∃ j ≤ i, ∃ work, CholeskyUpTo D n a i j work ∧
            choleskyEquation D a i j work = .error e) := by
      rw [fillRange]
      refine Ensures.forRange (fun j work => CholeskyUpTo D n a i j work) (Nat.zero_le _) hrows ?_
      intro j work _ hj hdone
      rcases hvalue : choleskyEntry D i j work with e | value
      · refine ⟨i, hi, j, Nat.lt_succ_iff.mp hj, work, hdone, ?_⟩
        rwa [← choleskyEntry_eq (hdone.rest i j (Or.inr ⟨rfl, le_rfl⟩))]
      · exact hdone.next (Nat.lt_succ_iff.mp hj) hvalue
    exact hrow.seq fun work hdone => hdone.clear

end Equations

end Xhive.Linears
