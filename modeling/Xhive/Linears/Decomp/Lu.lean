import Xhive.Linears.Decomp.Arithmetic
import Mathlib.Logic.Equiv.Basic

/-!
# Partial-pivot Gaussian elimination

The kernels of `decomp_lu.inc` over any adapter, and what one elimination step
does to the working arrays.  L and U share one array; whole rows are exchanged,
previously stored multipliers included.
-/

namespace Xhive.Linears

open Xhive.Support

section Kernels

variable {S A Raw : Type} [LinearOrder S] (D : Adapter S A) (F : Format Raw S)

/-- The arrays `lu_factor` works on.  A caller that passes a NULL permutation
never reads that field. -/
structure LuState (S : Type) where
  a : Grid S
  b : Grid S
  permutation : ℕ → ℕ
  parity : ℤ

/-- The pivot search of column `k`; the first maximum wins. -/
def luPivot (n k : ℕ) (a : Grid S) : Except Status (ℕ × S) := do
  let first ← D.abs (a (k, k))
  forRange (k + 1) n (k, first) fun i best => do
    let magnitude ← D.abs (a (i, k))
    .ok (if best.2 < magnitude then (i, magnitude) else best)

def swapRows (a : Grid S) (p q : ℕ) : Grid S :=
  fun x => a (Equiv.swap p q x.1, x.2)

/-- Bring the pivot row to row `k` in every array. -/
def luExchange (k pivot : ℕ) (s : LuState S) : LuState S :=
  if pivot ≠ k then
    { a := swapRows s.a k pivot
      b := swapRows s.b k pivot
      permutation := fun i => s.permutation (Equiv.swap k pivot i)
      parity := -s.parity }
  else s

/-- Eliminate column `k` from row `i`. -/
def eliminateRow (n rhs k i : ℕ) (s : LuState S) : Except Status (LuState S) := do
  let factor ← D.div (s.a (i, k)) (s.a (k, k))
  let a ← fillRange (k + 1) n (fun j => (i, j)) (Function.update s.a (i, k) factor) fun j a =>
    D.subProduct (a (i, j)) factor (a (k, j))
  let b ← fillRange 0 rhs (fun j => (i, j)) s.b fun j b =>
    D.subProduct (b (i, j)) factor (b (k, j))
  .ok { s with a := a, b := b }

def luStep (n rhs k : ℕ) (s : LuState S) : Except Status (LuState S) := do
  let best ← luPivot D n k s.a
  if best.2 = D.zero then .error .errorSingular
  else forRange (k + 1) n (luExchange k best.1 s) (eliminateRow D n rhs k)

def luFactor (n rhs : ℕ) (a b : Grid S) : Except Status (LuState S) :=
  forRange 0 n { a := a, b := b, permutation := id, parity := 1 } (luStep D n rhs)

/-- Row `row` of the back substitution, one right-hand side after another. -/
def substituteRow (n rhs : ℕ) (lu : Grid S) (row : ℕ) (b : Grid S) : Except Status (Grid S) :=
  fillRange 0 rhs (fun column => (row, column)) b fun column b => do
    let value ←
      if row + 1 < n then
        D.dotSub (b (row, column)) (fun i => lu (row, row + 1 + i))
          (fun i => b (row + 1 + i, column)) (n - row - 1)
      else .ok (b (row, column))
    D.div value (lu (row, row))

/-- Rows are solved from the last one up. -/
def backSubstitute (n rhs : ℕ) (lu b : Grid S) : Except Status (Grid S) :=
  forRange 0 n b fun step b => substituteRow D n rhs lu (n - 1 - step) b

/-! ## The operations behind the public entry points -/

/-- `load` over a whole matrix. -/
def loadGrid (a : Grid Raw) : Grid S :=
  fun x => F.load (a x)

/-- What `lu` writes on success. -/
structure LuOutput (Raw : Type) where
  l : Grid Raw
  u : Grid Raw
  permutation : ℕ → ℕ
  parity : ℤ

/-- The extrema of L; a nonempty L has a unit diagonal. -/
def lBounds (n : ℕ) (work : Grid S) : S × S :=
  foldRange 0 n (D.zero, if n ≠ 0 then D.one else D.zero) fun i bounds =>
    foldRange 0 n bounds fun j bounds =>
      if j < i then widenBounds bounds (work (i, j)) else bounds

def uBounds (n : ℕ) (work : Grid S) : S × S :=
  foldRange 0 n (D.zero, D.zero) fun i bounds =>
    foldRange 0 n bounds fun j bounds =>
      if j < i then bounds else widenBounds bounds (work (i, j))

def luLower (work : Grid S) : Grid S :=
  fun x => if x.1 = x.2 then D.one else if x.2 < x.1 then work x else D.zero

def luUpper (work : Grid S) : Grid S :=
  fun x => if x.1 ≤ x.2 then work x else D.zero

/-- `lu` after its validation. -/
def luValues (n : ℕ) (a : Grid Raw) : Except Status (LuOutput Raw) := do
  let s ← luFactor D n 0 (loadGrid F a) fun _ => D.zero
  F.outputBounds (lBounds D n s.a)
  F.outputBounds (uBounds D n s.a)
  .ok
    { l := fun x => F.store (luLower D s.a x)
      u := fun x => F.store (luUpper D s.a x)
      permutation := s.permutation
      parity := s.parity }

/-- The factor-and-substitute sequence of `solve` and `inverse`. -/
def solveWork (n rhs : ℕ) (a b : Grid S) : Except Status (Grid S) := do
  let s ← luFactor D n rhs a b
  backSubstitute D n rhs s.a s.b

/-- `solve` after its validation. -/
def solveValues (n rhs : ℕ) (a b : Grid Raw) : Except Status (Grid Raw) := do
  let solution ← solveWork D n rhs (loadGrid F a) (loadGrid F b)
  F.checkBlock D.zero solution n rhs
  .ok fun x => F.store (solution x)

/-- The identity that `inverse` and the other decompositions start from. -/
def identityGrid : Grid S :=
  fun x => if x.1 = x.2 then D.one else D.zero

/-- `inverse` after its validation. -/
def inverseValues (n : ℕ) (a : Grid Raw) : Except Status (Grid Raw) := do
  let solution ← solveWork D n n (loadGrid F a) (identityGrid D)
  F.checkBlock D.zero solution n n
  .ok fun x => F.store (solution x)

/-- The index and magnitude of the next factor of the diagonal product. -/
def chooseFactor (n i : ℕ) (product : S) (diagonal : ℕ → S) : Except Status (ℕ × S) := do
  let magnitude ← D.abs product
  let selected ← D.abs (diagonal i)
  forRange (i + 1) n (i, selected) fun j best => do
    let candidate ← D.abs (diagonal j)
    .ok (if (magnitude ≤ D.one ∧ best.2 < candidate) ∨ (¬magnitude ≤ D.one ∧ candidate < best.2)
      then (j, candidate) else best)

/-- The reordering product of the fixed formats: large factors while the
product is at most one in magnitude, small ones otherwise. -/
def diagonalProduct (n : ℕ) (parity : ℤ) (diagonal : ℕ → S) : Except Status S := do
  let result ← forRange 0 n (D.one, diagonal) fun i state => do
    let best ← chooseFactor D n i state.1 state.2
    let diagonal := fun j => state.2 (Equiv.swap i best.1 j)
    let product ← D.mul state.1 (diagonal i)
    .ok (product, diagonal)
  if parity < 0 then D.neg result.1 else .ok result.1

/-- A singular matrix has determinant zero. -/
def determinantWork (n : ℕ) (a : Grid S) : Except Status S :=
  match luFactor D n 0 a fun _ => D.zero with
  | .error .errorSingular => .ok D.zero
  | .error e => .error e
  | .ok s => diagonalProduct D n s.parity fun i => s.a (i, i)

/-- `determinant` after its validation. -/
def determinantValues (n : ℕ) (a : Grid Raw) : Except Status Raw := do
  let result ← determinantWork D n (loadGrid F a)
  F.checkBlock D.zero (fun _ => result) 1 1
  .ok (F.store result)

end Kernels

/-! ## Row exchanges -/

theorem swap_cases (k p i : ℕ) :
    (i = k ∧ Equiv.swap k p i = p) ∨ (i = p ∧ Equiv.swap k p i = k) ∨
      (i ≠ k ∧ i ≠ p ∧ Equiv.swap k p i = i) := by
  by_cases hk : i = k
  · exact Or.inl ⟨hk, by rw [hk, Equiv.swap_apply_left]⟩
  · by_cases hp : i = p
    · exact Or.inr (Or.inl ⟨hp, by rw [hp, Equiv.swap_apply_right]⟩)
    · exact Or.inr (Or.inr ⟨hk, hp, Equiv.swap_apply_of_ne_of_ne hk hp⟩)

theorem le_swap {k p i : ℕ} (hp : k ≤ p) (hi : k ≤ i) : k ≤ Equiv.swap k p i := by
  rcases swap_cases k p i with ⟨-, h⟩ | ⟨-, h⟩ | ⟨-, -, h⟩ <;> omega

theorem swap_lt {n k p i : ℕ} (hk : k < n) (hp : p < n) (hi : i < n) : Equiv.swap k p i < n := by
  rcases swap_cases k p i with ⟨-, h⟩ | ⟨-, h⟩ | ⟨-, -, h⟩ <;> omega

theorem swap_of_lt {k p i : ℕ} (hp : k ≤ p) (hi : i < k) : Equiv.swap k p i = i :=
  Equiv.swap_apply_of_ne_of_ne hi.ne (by omega)

theorem luExchange_a {S : Type} (k p : ℕ) (s : LuState S) (x : ℕ × ℕ) :
    (luExchange k p s).a x = s.a (Equiv.swap k p x.1, x.2) := by
  rw [luExchange]
  split
  · rfl
  · rename_i h
    rw [not_not.mp h, Equiv.swap_self]
    rfl

theorem luExchange_b {S : Type} (k p : ℕ) (s : LuState S) (x : ℕ × ℕ) :
    (luExchange k p s).b x = s.b (Equiv.swap k p x.1, x.2) := by
  rw [luExchange]
  split
  · rfl
  · rename_i h
    rw [not_not.mp h, Equiv.swap_self]
    rfl

theorem luExchange_permutation {S : Type} (k p : ℕ) (s : LuState S) (i : ℕ) :
    (luExchange k p s).permutation i = s.permutation (Equiv.swap k p i) := by
  rw [luExchange]
  split
  · rfl
  · rename_i h
    rw [not_not.mp h, Equiv.swap_self]
    rfl

/-! ## One elimination step -/

/-- What elimination needs of an adapter: scalars read as field elements scaled
by `scale`, quotients of a dominated pair and fused updates each within one
rounding, and `fail` for the statuses arithmetic may raise. -/
structure EliminationArith {S A K : Type} [LinearOrder S] [Field K] [LinearOrder K]
    (D : Adapter S A) (value : S → K) (scale ulp divError : K) (fail : Status → Prop) : Prop
    extends OrderedArith D value fail where
  value_one : value D.one = scale
  div : ∀ x y, value y ≠ 0 → |value x| ≤ |value y| →
    Ensures (D.div x y) (fun q => |scale * value x - value q * value y| ≤ divError * |value y| ∧
      |value q| ≤ scale) fun _ => False
  subProduct : ∀ v f x, Ensures (D.subProduct v f x)
    (fun w => |scale * value v - value f * value x - scale * value w| ≤ ulp) fail

section Step

variable {S A K : Type} [LinearOrder S] [Field K] [LinearOrder K]
variable {D : Adapter S A} {value : S → K} {scale ulp divError : K} {fail : Status → Prop}

/-- The search returns a row of the active column with the largest magnitude. -/
theorem luPivot_spec (H : EliminationArith D value scale ulp divError fail) {n k : ℕ} (hk : k < n)
    (a : Grid S) :
    Ensures (luPivot D n k a)
      (fun best => k ≤ best.1 ∧ best.1 < n ∧ value best.2 = |value (a (best.1, k))| ∧
        ∀ i, k ≤ i → i < n → |value (a (i, k))| ≤ value best.2) fail := by
  refine (H.abs _).seq fun first hfirst => ?_
  refine (Ensures.forRange (fun hi (best : ℕ × S) => k ≤ best.1 ∧ best.1 < n ∧
    value best.2 = |value (a (best.1, k))| ∧
      ∀ i, k ≤ i → i < hi → |value (a (i, k))| ≤ value best.2) (by omega) ?_ ?_)
  · refine ⟨le_rfl, hk, hfirst, fun i hi hlt => ?_⟩
    obtain rfl : i = k := by omega
    exact hfirst.ge
  · rintro i best hlo hhi ⟨hle, hlt, hbest, hmax⟩
    refine (H.abs _).seq fun magnitude hmag => ?_
    rw [ensures_ok]
    split
    · rename_i hgt
      rw [← H.value_lt] at hgt
      refine ⟨by omega, hhi, hmag, fun j hj hji => ?_⟩
      rcases Nat.lt_succ_iff_lt_or_eq.mp hji with h | rfl
      · exact (hmax j hj h).trans hgt.le
      · exact hmag.ge
    · rename_i hle'
      rw [← H.value_lt, hmag, not_lt] at hle'
      refine ⟨hle, hlt, hbest, fun j hj hji => ?_⟩
      rcases Nat.lt_succ_iff_lt_or_eq.mp hji with h | rfl
      · exact hmax j hj h
      · exact hle'

/-- Rows `k + 1 .. hi - 1` of `s` eliminated into `t` by the pivot row `k`. -/
structure Eliminated (value : S → K) (scale ulp divError : K) (n rhs k hi : ℕ)
    (s t : LuState S) : Prop where
  multiplier : ∀ i, k < i → i < hi →
    |scale * value (s.a (i, k)) - value (t.a (i, k)) * value (s.a (k, k))| ≤
        divError * |value (s.a (k, k))| ∧ |value (t.a (i, k))| ≤ scale
  entry : ∀ i j, k < i → i < hi → k < j → j < n →
    |scale * value (s.a (i, j)) - value (t.a (i, k)) * value (s.a (k, j)) -
      scale * value (t.a (i, j))| ≤ ulp
  rhsEntry : ∀ i c, k < i → i < hi → c < rhs →
    |scale * value (s.b (i, c)) - value (t.a (i, k)) * value (s.b (k, c)) -
      scale * value (t.b (i, c))| ≤ ulp
  frame : ∀ i j, (i ≤ k ∨ hi ≤ i ∨ j < k) → t.a (i, j) = s.a (i, j)
  rhsFrame : ∀ i c, (i ≤ k ∨ hi ≤ i) → t.b (i, c) = s.b (i, c)
  permutation : t.permutation = s.permutation
  parity : t.parity = s.parity

/-- Subtracting a multiple of row `k` from row `i`. -/
theorem subtractRow_spec (H : EliminationArith D value scale ulp divError fail) {k i : ℕ}
    (hne : k ≠ i) (lo hi : ℕ) (factor : S) (a : Grid S) :
    Ensures (fillRange lo hi (fun j => (i, j)) a fun j a =>
        D.subProduct (a (i, j)) factor (a (k, j)))
      (fun t => (∀ j, lo ≤ j → j < hi →
          |scale * value (a (i, j)) - value factor * value (a (k, j)) -
            scale * value (t (i, j))| ≤ ulp) ∧
        ∀ r c, (r ≠ i ∨ c < lo) → t (r, c) = a (r, c)) fail := by
  refine Ensures.imp (Ensures.fillRange ?_ ?_ ?_) ?_
  · intro j j' _ hlt _ heq
    exact hlt.ne (congrArg Prod.snd heq)
  · intro j a' _ _ hframe
    rw [hframe (i, j) (fun j' _ hlt heq => hlt.ne' (congrArg Prod.snd heq)),
      hframe (k, j) (fun j' _ _ heq => hne (congrArg Prod.fst heq))]
  · intro j e _ _ heq
    exact (H.subProduct _ _ _).of_eq_error heq
  · rintro t ⟨hvalue, hframe⟩
    refine ⟨fun j hlo hhi => (H.subProduct _ _ _).of_eq_ok (hvalue j hlo hhi), ?_⟩
    intro r c hout
    refine hframe (r, c) fun j hlo _ heq => ?_
    have hr := congrArg Prod.fst heq
    have hc := congrArg Prod.snd heq
    dsimp only at hr hc
    omega

/-- Eliminating one row reads that row and the pivot row and writes only itself. -/
theorem eliminateRow_spec (H : EliminationArith D value scale ulp divError fail)
    {n rhs k i : ℕ} (hi : k < i) {s t : LuState S}
    (hs : Eliminated value scale ulp divError n rhs k i s t)
    (hpivot : value (s.a (k, k)) ≠ 0) (hdom : |value (s.a (i, k))| ≤ |value (s.a (k, k))|) :
    Ensures (eliminateRow D n rhs k i t)
      (Eliminated value scale ulp divError n rhs k (i + 1) s) fail := by
  have hrow : ∀ j, t.a (i, j) = s.a (i, j) := fun j => hs.frame i j (by omega)
  have hpivotRow : ∀ j, t.a (k, j) = s.a (k, j) := fun j => hs.frame k j (by omega)
  rw [eliminateRow, hrow, hpivotRow]
  refine Ensures.seq ((H.div _ _ hpivot hdom).mono (fun _ h => h) fun _ h => h.elim)
    fun factor hfactor => ?_
  refine Ensures.seq (subtractRow_spec H hi.ne (k + 1) n factor _) fun a ha => ?_
  refine Ensures.seq (subtractRow_spec H hi.ne 0 rhs factor _) fun b hb => ?_
  rw [ensures_ok]
  obtain ⟨hentry, hframe⟩ := ha
  obtain ⟨hrhs, hrhsFrame⟩ := hb
  have hupdate : ∀ r c, (r ≠ i ∨ c ≠ k) →
      Function.update t.a (i, k) factor (r, c) = t.a (r, c) := by
    intro r c hout
    refine Function.update_of_ne (fun heq => ?_) _ _
    have hr := congrArg Prod.fst heq
    have hc := congrArg Prod.snd heq
    dsimp only at hr hc
    omega
  have hmult : a (i, k) = factor := by
    rw [hframe i k (Or.inr (Nat.lt_succ_self k)), Function.update_self]
  have hother : ∀ r c, r ≠ i → a (r, c) = t.a (r, c) := fun r c hr => by
    rw [hframe r c (Or.inl hr), hupdate r c (Or.inl hr)]
  refine ⟨?_, ?_, ?_, ?_, ?_, hs.permutation, hs.parity⟩ <;> dsimp only
  · intro r hr hlt
    rcases Nat.lt_succ_iff_lt_or_eq.mp hlt with h | rfl
    · rw [hother r k h.ne]
      exact hs.multiplier r hr h
    · rw [hmult]
      exact hfactor
  · intro r j hr hlt hj hjn
    rcases Nat.lt_succ_iff_lt_or_eq.mp hlt with h | rfl
    · rw [hother r k h.ne, hother r j h.ne]
      exact hs.entry r j hr h hj hjn
    · have hvalue := hentry j hj hjn
      rw [hupdate r j (Or.inr hj.ne'), hupdate k j (Or.inl hi.ne), hrow, hpivotRow] at hvalue
      rw [hmult]
      exact hvalue
  · intro r c hr hlt hc
    rcases Nat.lt_succ_iff_lt_or_eq.mp hlt with h | rfl
    · rw [hother r k h.ne, hrhsFrame r c (Or.inl h.ne)]
      exact hs.rhsEntry r c hr h hc
    · have hvalue := hrhs c (Nat.zero_le c) hc
      rw [hs.rhsFrame r c (by omega), hs.rhsFrame k c (by omega)] at hvalue
      rw [hmult]
      exact hvalue
  · intro r j hout
    by_cases hr : r = i
    · subst hr
      have hj : j < k := by omega
      rw [hframe r j (Or.inr (by omega)), hupdate r j (Or.inr hj.ne), hrow]
    · rw [hother r j hr]
      exact hs.frame r j (by omega)
  · intro r c hout
    rw [hrhsFrame r c (by omega)]
    exact hs.rhsFrame r c (by omega)

/-- The chosen pivot is nonzero and dominates its column after the exchange. -/
theorem luPivot_dominates [IsStrictOrderedRing K]
    (H : EliminationArith D value scale ulp divError fail) {n k : ℕ} (hk : k < n) {s : LuState S}
    {best : ℕ × S} (hlow : k ≤ best.1) (hhigh : best.1 < n)
    (hvalue : value best.2 = |value (s.a (best.1, k))|)
    (hmax : ∀ i, k ≤ i → i < n → |value (s.a (i, k))| ≤ value best.2) (hzero : best.2 ≠ D.zero) :
    value ((luExchange k best.1 s).a (k, k)) ≠ 0 ∧
      ∀ i, k ≤ i → i < n → |value ((luExchange k best.1 s).a (i, k))| ≤
        |value ((luExchange k best.1 s).a (k, k))| := by
  have hexchange : ∀ i, (luExchange k best.1 s).a (i, k) = s.a (Equiv.swap k best.1 i, k) :=
    fun i => luExchange_a k best.1 s (i, k)
  have hpivot : |value ((luExchange k best.1 s).a (k, k))| = value best.2 := by
    rw [hexchange, Equiv.swap_apply_left, hvalue]
  constructor
  · intro h
    rw [h, abs_zero] at hpivot
    exact hzero ((H.value_eq_zero _).mp hpivot.symm)
  · intro i hi hlt
    rw [hpivot, hexchange]
    exact hmax _ (le_swap hlow hi) (swap_lt hk hhigh hlt)

/-- The row loop, up to any row. -/
theorem eliminateRows_spec (H : EliminationArith D value scale ulp divError fail)
    {n k hi : ℕ} (hk : k < hi) (hhi : hi ≤ n) (rhs : ℕ) {s : LuState S}
    (hpivot : value (s.a (k, k)) ≠ 0)
    (hdom : ∀ i, k ≤ i → i < n → |value (s.a (i, k))| ≤ |value (s.a (k, k))|) :
    Ensures (forRange (k + 1) hi s (eliminateRow D n rhs k))
      (Eliminated value scale ulp divError n rhs k hi s) fail := by
  refine Ensures.forRange (fun i => Eliminated value scale ulp divError n rhs k i s) hk ?_ ?_
  · exact ⟨fun i hi hlt => by omega, fun i j hi hlt => by omega, fun i c hi hlt => by omega,
      fun _ _ _ => rfl, fun _ _ _ => rfl, rfl, rfl⟩
  · intro i t hlo hlt ht
    exact eliminateRow_spec H hlo ht hpivot (hdom i (by omega) (by omega))

/-- A whole step: a dominant pivot, the row exchange, and the elimination. -/
theorem luStep_spec [IsStrictOrderedRing K] (H : EliminationArith D value scale ulp divError fail)
    {n k : ℕ} (hk : k < n) (rhs : ℕ) (s : LuState S) :
    Ensures (luStep D n rhs k s)
      (fun t => ∃ p, k ≤ p ∧ p < n ∧ value ((luExchange k p s).a (k, k)) ≠ 0 ∧
        Eliminated value scale ulp divError n rhs k n (luExchange k p s) t)
      (fun e => fail e ∨ e = .errorSingular ∧ ∀ i, k ≤ i → i < n → value (s.a (i, k)) = 0) := by
  refine Ensures.seq ((luPivot_spec H hk s.a).mono (fun _ h => h) fun _ h => Or.inl h)
    fun best hbest => ?_
  obtain ⟨hlow, hhigh, hvalue, hmax⟩ := hbest
  refine Ensures.ite (fun hzero => ?_) fun hzero => ?_
  · refine Or.inr ⟨rfl, fun i hi hlt => ?_⟩
    have hle := hmax i hi hlt
    rw [(H.value_eq_zero _).mpr hzero] at hle
    exact abs_nonpos_iff.mp hle
  · obtain ⟨hne, hdom⟩ := luPivot_dominates H hk hlow hhigh hvalue hmax hzero
    exact (eliminateRows_spec H hk le_rfl rhs hne hdom).mono
      (fun t ht => ⟨best.1, hlow, hhigh, hne, ht⟩) fun _ h => Or.inl h

end Step

end Xhive.Linears
