import Xhive.Linears.Decomp.Lu

/-!
# Bunch--Parlett symmetric-indefinite factorisation

The kernels of `decomp_ldlt.inc` over any adapter.  L, D and the active block
share one array: the leading columns below their pivots hold L, the pivot rows
keep the coupling that the update still reads.
-/

namespace Xhive.Linears

open Xhive.Support

section Kernels

variable {S A Raw : Type} [LinearOrder S] (D : Adapter S A) (F : Format Raw S)

/-- The arrays `ldlt_factor` works on. -/
structure LdltState (S : Type) where
  work : Grid S
  perm : ℕ → ℕ
  blocks : ℕ → ℕ

/-- Columns are exchanged from row `first` on, so earlier rows keep D. -/
def swapColumns (first : ℕ) (a : Grid S) (p q : ℕ) : Grid S :=
  fun x => if first ≤ x.1 then a (x.1, Equiv.swap p q x.2) else a x

def ldltSwap (first p q : ℕ) (s : LdltState S) : LdltState S :=
  if p = q then s
  else
    { s with
      work := swapColumns first (swapRows s.work p q) p q
      perm := fun i => s.perm (Equiv.swap p q i) }

/-- The two maxima of the active block and where they were found. -/
structure LdltChoice (S : Type) where
  diagonalMax : S
  diagonalIndex : ℕ
  offDiagonalMax : S
  p : ℕ
  q : ℕ

/-- Row `i` of the search: its diagonal entry, then the entries right of it. -/
def ldltSearchRow (n : ℕ) (work : Grid S) (i : ℕ) (best : LdltChoice S) :
    Except Status (LdltChoice S) := do
  let magnitude ← D.abs (work (i, i))
  let best := if best.diagonalMax < magnitude then
    { best with diagonalMax := magnitude, diagonalIndex := i } else best
  forRange (i + 1) n best fun j best => do
    let magnitude ← D.abs (work (i, j))
    .ok (if best.offDiagonalMax < magnitude then
      { best with offDiagonalMax := magnitude, p := i, q := j } else best)

def ldltSearch (n k : ℕ) (work : Grid S) : Except Status (LdltChoice S) :=
  forRange k n
    { diagonalMax := D.zero, diagonalIndex := k, offDiagonalMax := D.zero, p := k, q := k }
    (ldltSearchRow D n work)

/-- Whether the largest diagonal is a pivot by itself. -/
def singlePivot (alpha : S) (best : LdltChoice S) : Except Status Bool :=
  if best.offDiagonalMax ≤ best.diagonalMax then .ok true
  else do
    let ratio ← D.div best.diagonalMax best.offDiagonalMax
    .ok (decide (alpha ≤ ratio))

/-- The pivot search of step `k` and the kind of its pivot. -/
def ldltChoose (alpha : S) (n k : ℕ) (work : Grid S) : Except Status (LdltChoice S × Bool) := do
  let best ← ldltSearch D n k work
  if best.diagonalMax = D.zero ∧ best.offDiagonalMax = D.zero then .error .errorSingular
  else do
    let single ← singlePivot D alpha best
    .ok (best, single)

/-- Column `k` becomes a column of L, then the rest of the block is updated. -/
def eliminateSingle (n k : ℕ) (work : Grid S) : Except Status (Grid S) := do
  let pivot := work (k, k)
  let work ← fillRange (k + 1) n (fun i => (i, k)) work fun i work => D.div (work (i, k)) pivot
  fillSymmetric (k + 1) n work fun i j work =>
    D.subProduct (work (j, i)) (work (j, k)) (work (k, i))

def singleStep (n k diagonalIndex : ℕ) (s : LdltState S) : Except Status (LdltState S) := do
  let s := ldltSwap k k diagonalIndex s
  let work ← eliminateSingle D n k s.work
  .ok { s with work := work, blocks := Function.update s.blocks k 1 }

/-- `a * b - value`; the fixed formats negate the fused difference. -/
def productSub (a b value : S) : Except Status S :=
  if D.fixed then do
    let difference ← D.subProduct value a b
    D.neg difference
  else do
    let product ← D.mul a b
    D.sub product value

/-- The two multipliers of row `i` of a 2-by-2 pivot, divided by `b` first. -/
def coupleRow (k : ℕ) (a b c delta : S) (i : ℕ) (work : Grid S) : Except Status (Grid S) := do
  let x ← D.div (work (i, k)) b
  let y ← D.div (work (i, k + 1)) b
  let first ← productSub D c x y
  let second ← productSub D a y x
  let first ← D.div first delta
  let second ← D.div second delta
  .ok (Function.update (Function.update work (i, k) first) (i, k + 1) second)

def eliminateDouble (n k : ℕ) (work : Grid S) : Except Status (Grid S) := do
  let b := work (k, k + 1)
  let a ← D.div (work (k, k)) b
  let c ← D.div (work (k + 1, k + 1)) b
  let delta ← productSub D a c D.one
  let work ← forRange (k + 2) n work (coupleRow D k a b c delta)
  fillSymmetric (k + 2) n work fun i j work =>
    D.dotSub (work (j, i)) (fun m => work (j, k + m)) (fun m => work (k + m, i)) 2

/-- `p < q`, so the first exchange cannot move `q`. -/
def doubleStep (n k p q : ℕ) (s : LdltState S) : Except Status (LdltState S) := do
  let s := ldltSwap k (k + 1) q (ldltSwap k k p s)
  let work ← eliminateDouble D n k s.work
  .ok { s with
        work := work
        blocks := Function.update (Function.update s.blocks k 2) (k + 1) 0 }

/-- The pivot loop from step `k` on. -/
def ldltLoop (alpha : S) (n k : ℕ) (s : LdltState S) : Except Status (LdltState S) :=
  if k < n then do
    let choice ← ldltChoose D alpha n k s.work
    if choice.2 then do
      let s ← singleStep D n k choice.1.diagonalIndex s
      ldltLoop alpha n (k + 1) s
    else do
      let s ← doubleStep D n k choice.1.p choice.1.q s
      ldltLoop alpha n (k + 2) s
  else .ok s
termination_by n - k

/-- `ldlt_factor` behind a given pivot threshold. -/
def ldltFactorWith (alpha : S) (n : ℕ) (a : Grid S) : Except Status (LdltState S) :=
  ldltLoop D alpha n 0 { work := a, perm := id, blocks := fun _ => 0 }

/-- `(1 + sqrt(17)) / 8`. -/
def ldltAlpha : Except Status S := do
  let seventeen ← D.constant 17
  let root ← D.sqrt seventeen
  let sum ← D.add D.one root
  let eight ← D.constant 8
  D.div sum eight

def ldltFactor (n : ℕ) (a : Grid S) : Except Status (LdltState S) := do
  let alpha ← ldltAlpha D
  ldltFactorWith D alpha n a

/-! ## The public operation -/

/-- What `ldlt` writes on success. -/
structure LdltOutput (Raw : Type) where
  l : Grid Raw
  d : Grid Raw
  permutation : ℕ → ℕ
  blocks : ℕ → ℕ

/-- L without the entries that belong to a 2-by-2 block of D. -/
def ldltLower (blocks : ℕ → ℕ) (work : Grid S) : Grid S :=
  fun x =>
    if x.1 = x.2 then D.one
    else if x.2 < x.1 then
      if blocks x.2 = 2 ∧ x.1 = x.2 + 1 then D.zero else work x
    else D.zero

def ldltDiagonal (blocks : ℕ → ℕ) (work : Grid S) : Grid S :=
  fun x =>
    if x.1 = x.2 then work x
    else if x.2 < x.1 then
      if blocks x.2 = 2 ∧ x.1 = x.2 + 1 then work x else D.zero
    else if blocks x.1 = 2 ∧ x.2 = x.1 + 1 then work x else D.zero

/-- The extrema of L and of D. -/
def ldltBounds (n : ℕ) (blocks : ℕ → ℕ) (work : Grid S) : (S × S) × (S × S) :=
  foldRange 0 n ((D.zero, if n ≠ 0 then D.one else D.zero), (D.zero, D.zero)) fun i bounds =>
    foldRange 0 i (bounds.1, widenBounds bounds.2 (work (i, i))) fun j bounds =>
      if blocks j = 2 ∧ i = j + 1 then (bounds.1, widenBounds bounds.2 (work (i, j)))
      else (widenBounds bounds.1 (work (i, j)), bounds.2)

/-- Both factor ranges are preflighted before either matrix is written. -/
def ldltExtract (n : ℕ) (s : LdltState S) : Except Status (LdltOutput Raw) := do
  let bounds := ldltBounds D n s.blocks s.work
  F.outputBounds bounds.1
  F.outputBounds bounds.2
  .ok
    { l := fun x => F.store (ldltLower D s.blocks s.work x)
      d := fun x => F.store (ldltDiagonal D s.blocks s.work x)
      permutation := s.perm
      blocks := s.blocks }

/-- `ldlt` after its validation, around a factorisation kernel. -/
def ldltValuesWith (factor : ℕ → Grid S → Except Status (LdltState S)) (n : ℕ) (a : Grid Raw) :
    Except Status (LdltOutput Raw) := do
  Adapter.checkSymmetric (loadGrid F a) n
  let s ← factor n (loadGrid F a)
  ldltExtract D F n s

def ldltValues (n : ℕ) (a : Grid Raw) : Except Status (LdltOutput Raw) :=
  ldltValuesWith D F (ldltFactor D) n a

end Kernels

/-! ## Symmetric exchanges -/

section Swap

variable {S : Type} {first p q : ℕ}

/-- Active rows move together with their columns. -/
theorem ldltSwap_work_of_le (s : LdltState S) {i : ℕ} (hi : first ≤ i) (j : ℕ) :
    (ldltSwap first p q s).work (i, j) = s.work (Equiv.swap p q i, Equiv.swap p q j) := by
  rw [ldltSwap]
  split
  · rename_i h
    rw [h, Equiv.swap_self]
    rfl
  · exact if_pos hi

/-- Finished rows stay where they are. -/
theorem ldltSwap_work_of_lt (s : LdltState S) (hp : first ≤ p) (hq : first ≤ q) {i : ℕ}
    (hi : i < first) (j : ℕ) : (ldltSwap first p q s).work (i, j) = s.work (i, j) := by
  rw [ldltSwap]
  split
  · rfl
  · change (if first ≤ i then _ else swapRows s.work p q (i, j)) = _
    rw [if_neg (not_le.mpr hi), swapRows,
      Equiv.swap_apply_of_ne_of_ne (by dsimp only; omega) (by dsimp only; omega)]

/-- Finished columns only have their rows exchanged. -/
theorem ldltSwap_work_column (s : LdltState S) (hp : first ≤ p) (hq : first ≤ q) (i : ℕ) {j : ℕ}
    (hj : j < first) :
    (ldltSwap first p q s).work (i, j) = s.work (Equiv.swap p q i, j) := by
  have hfixed : ∀ m < first, Equiv.swap p q m = m := fun m hm =>
    Equiv.swap_apply_of_ne_of_ne (by omega) (by omega)
  rcases Nat.lt_or_ge i first with hlt | hge
  · rw [ldltSwap_work_of_lt s hp hq hlt, hfixed i hlt]
  · rw [ldltSwap_work_of_le s hge, hfixed j hj]

theorem ldltSwap_perm (s : LdltState S) (i : ℕ) :
    (ldltSwap first p q s).perm i = s.perm (Equiv.swap p q i) := by
  rw [ldltSwap]
  split
  · rename_i h
    rw [h, Equiv.swap_self]
    rfl
  · rfl

@[simp] theorem ldltSwap_blocks (s : LdltState S) :
    (ldltSwap first p q s).blocks = s.blocks := by
  rw [ldltSwap]
  split <;> rfl

/-- The two exchanges of a 2-by-2 pivot bring entry `(p, q)` next to the
diagonal. -/
theorem ldltSwap_pair (s : LdltState S) {k : ℕ} (hp : k ≤ p) (hpq : p < q) :
    (ldltSwap k (k + 1) q (ldltSwap k k p s)).work (k, k) = s.work (p, p) ∧
      (ldltSwap k (k + 1) q (ldltSwap k k p s)).work (k, k + 1) = s.work (p, q) ∧
      (ldltSwap k (k + 1) q (ldltSwap k k p s)).work (k + 1, k + 1) = s.work (q, q) := by
  have hk : Equiv.swap (k + 1) q k = k := Equiv.swap_apply_of_ne_of_ne (by omega) (by omega)
  have hq : Equiv.swap k p q = q := Equiv.swap_apply_of_ne_of_ne (by omega) (by omega)
  refine ⟨?_, ?_, ?_⟩
  · rw [ldltSwap_work_of_le _ le_rfl, hk, ldltSwap_work_of_le _ le_rfl, Equiv.swap_apply_left]
  · rw [ldltSwap_work_of_le _ le_rfl, hk, Equiv.swap_apply_left, ldltSwap_work_of_le _ le_rfl,
      Equiv.swap_apply_left, hq]
  · rw [ldltSwap_work_of_le _ (Nat.le_succ k), Equiv.swap_apply_left,
      ldltSwap_work_of_le _ (by omega), hq]

end Swap

/-! ## The pivot search -/

section Search

variable {S A K : Type} [LinearOrder S] [Field K] [LinearOrder K]
variable {D : Adapter S A} {value : S → K} {fail : Status → Prop}

/-- The maxima over the diagonal entries and the pairs visited so far. -/
structure LdltMaxima (value : S → K) (n k : ℕ) (work : Grid S) (diagonal : ℕ → Prop)
    (pair : ℕ → ℕ → Prop) (best : LdltChoice S) : Prop where
  index : k ≤ best.diagonalIndex ∧ best.diagonalIndex < n
  diagonalMax : value best.diagonalMax = 0 ∨
    value best.diagonalMax = |value (work (best.diagonalIndex, best.diagonalIndex))|
  le_diagonalMax : ∀ i, diagonal i → |value (work (i, i))| ≤ value best.diagonalMax
  offDiagonalMax : value best.offDiagonalMax = 0 ∨
    k ≤ best.p ∧ best.p < best.q ∧ best.q < n ∧
      value best.offDiagonalMax = |value (work (best.p, best.q))|
  le_offDiagonalMax : ∀ i j, pair i j → |value (work (i, j))| ≤ value best.offDiagonalMax

theorem LdltMaxima.visitDiagonal (H : OrderedArith D value fail) {n k i : ℕ} {work : Grid S}
    {diagonal : ℕ → Prop} {pair : ℕ → ℕ → Prop} {best : LdltChoice S} {magnitude : S}
    (h : LdltMaxima value n k work diagonal pair best) (hk : k ≤ i) (hi : i < n)
    (hmag : value magnitude = |value (work (i, i))|) :
    LdltMaxima value n k work (fun m => diagonal m ∨ m = i) pair
      (if best.diagonalMax < magnitude then
        { best with diagonalMax := magnitude, diagonalIndex := i } else best) := by
  split
  · rename_i hlt
    rw [← H.value_lt] at hlt
    refine ⟨⟨hk, hi⟩, Or.inr hmag, ?_, h.offDiagonalMax, h.le_offDiagonalMax⟩
    rintro m (hm | rfl)
    · exact (h.le_diagonalMax m hm).trans hlt.le
    · exact hmag.ge
  · rename_i hle
    rw [← H.value_lt, hmag, not_lt] at hle
    refine ⟨h.index, h.diagonalMax, ?_, h.offDiagonalMax, h.le_offDiagonalMax⟩
    rintro m (hm | rfl)
    · exact h.le_diagonalMax m hm
    · exact hle

theorem LdltMaxima.visitPair (H : OrderedArith D value fail) {n k i j : ℕ} {work : Grid S}
    {diagonal : ℕ → Prop} {pair : ℕ → ℕ → Prop} {best : LdltChoice S} {magnitude : S}
    (h : LdltMaxima value n k work diagonal pair best) (hk : k ≤ i) (hij : i < j) (hj : j < n)
    (hmag : value magnitude = |value (work (i, j))|) :
    LdltMaxima value n k work diagonal (fun a b => pair a b ∨ a = i ∧ b = j)
      (if best.offDiagonalMax < magnitude then
        { best with offDiagonalMax := magnitude, p := i, q := j } else best) := by
  split
  · rename_i hlt
    rw [← H.value_lt] at hlt
    refine ⟨h.index, h.diagonalMax, h.le_diagonalMax, Or.inr ⟨hk, hij, hj, hmag⟩, ?_⟩
    rintro a b (hab | ⟨rfl, rfl⟩)
    · exact (h.le_offDiagonalMax a b hab).trans hlt.le
    · exact hmag.ge
  · rename_i hle
    rw [← H.value_lt, hmag, not_lt] at hle
    refine ⟨h.index, h.diagonalMax, h.le_diagonalMax, h.offDiagonalMax, ?_⟩
    rintro a b (hab | ⟨rfl, rfl⟩)
    · exact h.le_offDiagonalMax a b hab
    · exact hle

omit [LinearOrder S] in
theorem LdltMaxima.weaken {n k : ℕ} {work : Grid S} {diagonal diagonal' : ℕ → Prop}
    {pair pair' : ℕ → ℕ → Prop} {best : LdltChoice S}
    (h : LdltMaxima value n k work diagonal pair best) (hd : ∀ i, diagonal' i → diagonal i)
    (hp : ∀ i j, pair' i j → pair i j) : LdltMaxima value n k work diagonal' pair' best :=
  ⟨h.index, h.diagonalMax, fun i hi => h.le_diagonalMax i (hd i hi), h.offDiagonalMax,
    fun i j hij => h.le_offDiagonalMax i j (hp i j hij)⟩

/-- The search covers the active block above its diagonal. -/
theorem ldltSearch_spec (H : OrderedArith D value fail) {n k : ℕ} (hk : k < n) (work : Grid S) :
    Ensures (ldltSearch D n k work)
      (LdltMaxima value n k work (fun i => k ≤ i ∧ i < n) fun i j => k ≤ i ∧ i < j ∧ j < n)
      fail := by
  refine Ensures.forRange (fun row => LdltMaxima value n k work (fun i => k ≤ i ∧ i < row)
    fun i j => k ≤ i ∧ i < row ∧ i < j ∧ j < n) hk.le ?_ ?_ |>.imp
    fun best h => h.weaken (fun _ h => h) fun i j h => ⟨h.1, by omega, h.2⟩
  · exact ⟨⟨le_rfl, hk⟩, Or.inl H.value_zero, fun i h => by omega, Or.inl H.value_zero,
      fun i j h => by omega⟩
  · intro i best hlo hhi hbest
    refine (H.abs _).seq fun magnitude hmag => ?_
    refine Ensures.imp (Ensures.forRange (fun column => LdltMaxima value n k work
      (fun m => k ≤ m ∧ m < i + 1) fun a b => k ≤ a ∧ a < b ∧ b < n ∧
        (a < i ∨ a = i ∧ b < column)) hhi ?_ ?_) ?_
    · refine (hbest.visitDiagonal H hlo hhi hmag).weaken (fun m hm => ?_) fun a b hab => ?_
      · rcases Nat.lt_succ_iff_lt_or_eq.mp hm.2 with hlt | heq
        · exact Or.inl ⟨hm.1, hlt⟩
        · exact Or.inr heq
      · omega
    · intro j best hij hj hbest
      refine (H.abs _).seq fun magnitude hmag => ?_
      refine (hbest.visitPair H hlo hij hj hmag).weaken (fun _ h => h) fun a b hab => ?_
      by_cases hpair : a = i ∧ b = j
      · exact Or.inr hpair
      · refine Or.inl ?_
        omega
    · exact fun best h => h.weaken (fun _ h => h) fun a b hab => by omega

/-- What the loop knows when the search has returned. -/
structure LdltPivots (value : S → K) (n k : ℕ) (work : Grid S) (best : LdltChoice S) : Prop where
  index : k ≤ best.diagonalIndex ∧ best.diagonalIndex < n
  diagonalMax : value best.diagonalMax = |value (work (best.diagonalIndex, best.diagonalIndex))|
  le_diagonalMax : ∀ i, k ≤ i → i < n → |value (work (i, i))| ≤ value best.diagonalMax
  le_offDiagonalMax : ∀ i j, k ≤ i → i < j → j < n →
    |value (work (i, j))| ≤ value best.offDiagonalMax
  offDiagonalMax_nonneg : 0 ≤ value best.offDiagonalMax
  offDiagonalMax : 0 < value best.offDiagonalMax →
    k ≤ best.p ∧ best.p < best.q ∧ best.q < n ∧
      value best.offDiagonalMax = |value (work (best.p, best.q))|

omit [LinearOrder S] in
theorem LdltMaxima.pivots [IsStrictOrderedRing K] {n k : ℕ} {work : Grid S} {best : LdltChoice S}
    (h : LdltMaxima value n k work (fun i => k ≤ i ∧ i < n) (fun i j => k ≤ i ∧ i < j ∧ j < n)
      best) : LdltPivots value n k work best := by
  refine ⟨h.index, ?_, fun i hi hlt => h.le_diagonalMax i ⟨hi, hlt⟩,
    fun i j hi hij hj => h.le_offDiagonalMax i j ⟨hi, hij, hj⟩, ?_, fun hpos => ?_⟩
  · rcases h.diagonalMax with hzero | heq
    · refine le_antisymm ?_ (h.le_diagonalMax _ h.index)
      rw [hzero]
      exact abs_nonneg _
    · exact heq
  · rcases h.offDiagonalMax with hzero | ⟨-, -, -, heq⟩
    · exact hzero.ge
    · rw [heq]
      exact abs_nonneg _
  · rcases h.offDiagonalMax with hzero | hpair
    · exact absurd hzero hpos.ne'
    · exact hpair

end Search

end Xhive.Linears
