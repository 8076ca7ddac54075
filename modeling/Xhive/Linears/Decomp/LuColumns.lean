import Xhive.Linears.Decomp.Lu
import Xhive.Linears.Numeric.Quantize
import Xhive.Support.Splitting

/-!
# The columns of a solve are independent

All right-hand sides go through one elimination.  The pivots and multipliers
come from the matrix alone, and every update of a right-hand side reads its own
column, so a run over a block is a run over each of its columns side by side:
it returns exactly when each of them does, with their values.
-/

namespace Xhive.Linears

open Xhive.Support

/-- Column `c` of a block, as a block of its own. -/
def column {V : Type} (b : Grid V) (c : ℕ) : Grid V :=
  fun x => b (x.1, c)

section Columns

variable {S A : Type} [LinearOrder S] (D : Adapter S A) {rhs : ℕ} [Nonempty (Fin rhs)]

/-- The block `b'` holds column `c` of `b` as its first one. -/
def HoldsColumn (c : Fin rhs) (b b' : Grid S) : Prop :=
  ∀ r, b' (r, 0) = b (r, c)

/-- The elimination of column `c` beside the elimination of the block. -/
def FollowsColumn (c : Fin rhs) (s s' : LuState S) : Prop :=
  s'.a = s.a ∧ s'.permutation = s.permutation ∧ s'.parity = s.parity ∧ HoldsColumn c s.b s'.b

/-- A row of the block is filled entry by entry, each from its own column. -/
theorem splits_fillRow {i : ℕ} {b : Grid S} {b' : Fin rhs → Grid S}
    (hb : ∀ c, HoldsColumn c b (b' c)) {value : ℕ → Grid S → Except Status S}
    {value' : Fin rhs → ℕ → Grid S → Except Status S}
    (hlocal : ∀ j t, j < rhs → (∀ x : ℕ × ℕ, x.1 ≠ i ∨ j ≤ x.2 → t x = b x) →
      value j t = value j b)
    (hvalue : ∀ c : Fin rhs, value c b = value' c 0 (b' c)) :
    Splits HoldsColumn (fillRange 0 rhs (fun j => (i, j)) b value)
      fun c => fillRange 0 1 (fun j => (i, j)) (b' c) (value' c) := by
  have hcell : ∀ j j', 0 ≤ j → j < j' → j' < rhs → (i, j) ≠ (i, j') := by
    intro j j' _ hlt _ heq
    exact hlt.ne (congrArg Prod.snd heq)
  have hlocal' : ∀ j t, 0 ≤ j → j < rhs →
      (∀ x, (∀ j', 0 ≤ j' → j' < j → x ≠ (i, j')) → t x = b x) → value j t = value j b := by
    intro j t _ hj hframe
    apply hlocal j t hj
    intro x hx
    apply hframe
    rintro j' - hlt rfl
    dsimp only at hx
    omega
  have hpart : ∀ c, fillRange 0 1 (fun j => (i, j)) (b' c) (value' c) =
      value c b >>= fun v => .ok (Function.update (b' c) (i, 0) v) := by
    intro c
    rw [fillRange, forRange_succ (Nat.zero_le 0), forRange_of_le le_rfl, ok_bind, hvalue]
  simp only [hpart]
  constructor
  · intro t ht c
    obtain ⟨hdone, hframe⟩ := fillRange_eq_ok hcell hlocal' ht
    refine ⟨Function.update (b' c) (i, 0) (t (i, c)), ?_, ?_⟩
    · simp only [hdone c (Nat.zero_le _) c.isLt, ok_bind]
    · intro r
      by_cases hr : r = i
      · subst hr
        rw [Function.update_self]
      · have hne : (r, 0) ≠ (i, 0) := fun heq => hr (congrArg Prod.fst heq)
        rw [Function.update_of_ne hne, hb c r, hframe]
        exact fun j _ _ heq => hr (congrArg Prod.fst heq)
  · intro hparts
    apply fillRange_exists_ok hcell hlocal'
    intro j _ hj
    obtain ⟨t, ht⟩ := hparts ⟨j, hj⟩
    obtain ⟨v, hv, -⟩ := ok_of_bind ht
    exact ⟨v, hv⟩

theorem splits_eliminateRow (n : ℕ) {k i : ℕ} (hki : k < i) {s : LuState S}
    {s' : Fin rhs → LuState S} (h : ∀ c, FollowsColumn c s (s' c)) :
    Splits FollowsColumn (eliminateRow D n rhs k i s) fun c => eliminateRow D n 1 k i (s' c) := by
  have ha : ∀ c, (s' c).a = s.a := fun c => (h c).1
  simp only [eliminateRow, ha]
  apply Splits.bind_shared
  intro factor
  apply Splits.bind_shared
  intro a
  apply Splits.bind (R := HoldsColumn)
  · apply splits_fillRow fun c => (h c).2.2.2
    · intro j t hj hframe
      rw [hframe (i, j) (Or.inr le_rfl), hframe (k, j) (Or.inl hki.ne)]
    · intro c
      rw [(h c).2.2.2 i, (h c).2.2.2 k]
  · intro b b' hb
    exact Splits.ok fun c => ⟨rfl, (h c).2.1, (h c).2.2.1, hb c⟩

theorem FollowsColumn.exchange {c : Fin rhs} {s s' : LuState S} (h : FollowsColumn c s s')
    (k pivot : ℕ) : FollowsColumn c (luExchange k pivot s) (luExchange k pivot s') := by
  obtain ⟨ha, hperm, hparity, hb⟩ := h
  rw [luExchange, luExchange]
  split
  · refine ⟨by rw [ha], by rw [hperm], by rw [hparity], fun r => ?_⟩
    exact hb (Equiv.swap k pivot r)
  · exact ⟨ha, hperm, hparity, hb⟩

/-- The step lemma: the pivot search and its verdict are shared. -/
theorem splits_luStep (n k : ℕ) {s : LuState S} {s' : Fin rhs → LuState S}
    (h : ∀ c, FollowsColumn c s (s' c)) :
    Splits FollowsColumn (luStep D n rhs k s) fun c => luStep D n 1 k (s' c) := by
  have ha : ∀ c, (s' c).a = s.a := fun c => (h c).1
  simp only [luStep, ha]
  apply Splits.bind_shared
  intro best
  by_cases hzero : best.2 = D.zero
  · simp only [if_pos hzero]
    exact Splits.error _ _
  · simp only [if_neg hzero]
    apply Splits.forRange fun c => (h c).exchange k best.1
    exact fun i t t' hki _ ht => splits_eliminateRow D n hki ht

/-- The run lemma. -/
theorem splits_luFactor (n : ℕ) (a b : Grid S) :
    Splits FollowsColumn (luFactor D n rhs a b)
      fun c : Fin rhs => luFactor D n 1 a (column b c) := by
  apply Splits.forRange fun c => ⟨rfl, rfl, rfl, fun _ => rfl⟩
  exact fun k s s' _ _ h => splits_luStep D n k h

theorem splits_substituteRow (n : ℕ) (lu : Grid S) (row : ℕ) {b : Grid S}
    {b' : Fin rhs → Grid S} (h : ∀ c, HoldsColumn c b (b' c)) :
    Splits HoldsColumn (substituteRow D n rhs lu row b)
      fun c => substituteRow D n 1 lu row (b' c) := by
  apply splits_fillRow h
  · intro j t hj hframe
    have hbelow : ∀ i, t (row + 1 + i, j) = b (row + 1 + i, j) :=
      fun i => hframe _ (Or.inl (by dsimp only; omega))
    rw [hframe (row, j) (Or.inr le_rfl)]
    simp only [hbelow]
  · intro c
    have hcolumn : ∀ r, b' c (r, 0) = b (r, c) := h c
    simp only [hcolumn]

theorem splits_solveWork (n : ℕ) (a b : Grid S) :
    Splits HoldsColumn (solveWork D n rhs a b)
      fun c : Fin rhs => solveWork D n 1 a (column b c) := by
  apply (splits_luFactor D n a b).bind
  intro s s' h
  have ha : ∀ c, (s' c).a = s.a := fun c => (h c).1
  simp only [ha]
  apply Splits.forRange fun c => (h c).2.2.2
  exact fun step b b' _ _ hb => splits_substituteRow D n s.a _ hb

end Columns

/-! ## The preflight of a result block -/

section Preflight

variable {S : Type} [LinearOrder S] {low high zero : S}

theorem widenBounds_within_iff (bounds : S × S) (value : S) :
    (low ≤ (widenBounds bounds value).1 ∧ (widenBounds bounds value).2 ≤ high) ↔
      (low ≤ bounds.1 ∧ bounds.2 ≤ high) ∧ low ≤ value ∧ value ≤ high := by
  have hmin : (if value < bounds.1 then value else bounds.1) = min value bounds.1 := by
    rw [min_def_lt]
  have hmax : (if bounds.2 < value then value else bounds.2) = max bounds.2 value := by
    rw [max_def_lt]
  rw [widenBounds, hmin, hmax, le_min_iff, max_le_iff]
  tauto

theorem rowBounds_within_iff (bounds : S × S) (row : ℕ → S) (cols : ℕ) :
    (low ≤ (foldRange 0 cols bounds fun j bounds => widenBounds bounds (row j)).1 ∧
      (foldRange 0 cols bounds fun j bounds => widenBounds bounds (row j)).2 ≤ high) ↔
      (low ≤ bounds.1 ∧ bounds.2 ≤ high) ∧ ∀ j < cols, low ≤ row j ∧ row j ≤ high := by
  refine foldRange_induction (fun l (b : S × S) => (low ≤ b.1 ∧ b.2 ≤ high) ↔
    (low ≤ bounds.1 ∧ bounds.2 ≤ high) ∧ ∀ j < l, low ≤ row j ∧ row j ≤ high)
    (Nat.zero_le cols) ?_ ?_
  · exact ⟨fun h => ⟨h, nofun⟩, And.left⟩
  · intro l b _ _ hb
    rw [widenBounds_within_iff, hb, and_assoc, Nat.forall_lt_succ_right]

/-- The extrema of a block lie in a range around zero iff every entry does. -/
theorem blockBounds_within_iff (hlow : low ≤ zero) (hhigh : zero ≤ high) (v : Grid S)
    (rows cols : ℕ) :
    (low ≤ (foldRange 0 rows (zero, zero) fun i bounds =>
        foldRange 0 cols bounds fun j bounds => widenBounds bounds (v (i, j))).1 ∧
      (foldRange 0 rows (zero, zero) fun i bounds =>
        foldRange 0 cols bounds fun j bounds => widenBounds bounds (v (i, j))).2 ≤ high) ↔
      ∀ i < rows, ∀ j < cols, low ≤ v (i, j) ∧ v (i, j) ≤ high := by
  refine foldRange_induction (fun k (bounds : S × S) => (low ≤ bounds.1 ∧ bounds.2 ≤ high) ↔
    ∀ i < k, ∀ j < cols, low ≤ v (i, j) ∧ v (i, j) ≤ high) (Nat.zero_le rows) ?_ ?_
  · exact ⟨fun _ => nofun, fun _ => ⟨hlow, hhigh⟩⟩
  · intro k bounds _ _ hbounds
    rw [rowBounds_within_iff bounds fun j => v (k, j), hbounds, Nat.forall_lt_succ_right]

end Preflight

/-- The preflight of the format passes a block iff it accepts every entry. -/
def Preflights {Raw : Type} (F : Format Raw Int64) (accepts : Int64 → Prop) : Prop :=
  ∀ v rows cols, F.checkBlock fixedAdapter.zero v rows cols = .ok () ↔
    ∀ i < rows, ∀ j < cols, accepts (v (i, j))

/-- The raw values of `[-1, 1]`. -/
def WithinOne (x : Int64) : Prop :=
  -2 ^ 31 ≤ x.toInt ∧ x.toInt ≤ 2 ^ 31

theorem withinOne_iff (x : Int64) : WithinOne x ↔ -fixedOne ≤ x ∧ x ≤ fixedOne := by
  rw [WithinOne, Int64.le_iff_toInt_le, Int64.le_iff_toInt_le, toInt_fixedOne,
    show (-fixedOne).toInt = -2 ^ 31 from rfl]

theorem preflights_of_inBounds {Raw : Type} {F : Format Raw Int64}
    (h : ∀ low high, F.inBounds low high = decide (¬(low < -fixedOne ∨ high > fixedOne))) :
    Preflights F WithinOne := by
  intro v rows cols
  have hok : ∀ bounds, F.outputBounds bounds = .ok () ↔
      -fixedOne ≤ bounds.1 ∧ bounds.2 ≤ fixedOne := by
    intro bounds
    rw [Format.outputBounds, h]
    by_cases hin : bounds.1 < -fixedOne ∨ bounds.2 > fixedOne
    · rw [decide_eq_false (not_not.mpr hin), if_neg Bool.false_ne_true]
      refine ⟨nofun, fun hle => ?_⟩
      rcases hin with hlow | hhigh
      · exact absurd hle.1 (not_le.mpr hlow)
      · exact absurd hle.2 (not_le.mpr hhigh)
    · rw [decide_eq_true hin, if_pos rfl]
      exact ⟨fun _ => ⟨not_lt.mp fun hlt => hin (Or.inl hlt),
        not_lt.mp fun hlt => hin (Or.inr hlt)⟩, fun _ => rfl⟩
  rw [Format.checkBlock, hok, blockBounds_within_iff (by decide) (by decide)]
  simp only [withinOne_iff]

theorem q15Format_preflights : Preflights q15Format WithinOne :=
  preflights_of_inBounds fun _ _ => rfl

theorem q31Format_preflights : Preflights q31Format WithinOne :=
  preflights_of_inBounds fun _ _ => rfl

theorem workingFormat_preflights : Preflights workingFormat fun _ => True :=
  fun _ _ _ => ⟨fun _ _ _ _ _ => trivial, fun _ => rfl⟩

/-! ## The entry points -/

/-- Solving for a block is solving for each of its columns. -/
def ColumnsIndependent {Raw : Type} (F : Format Raw Int64) : Prop :=
  ∀ (n rhs : ℕ) (a b : Grid Raw), 0 < rhs →
    ((∃ x, solveValues fixedAdapter F n rhs a b = .ok x) ↔
      ∀ c < rhs, ∃ y, solveValues fixedAdapter F n 1 a (column b c) = .ok y) ∧
    ∀ x, solveValues fixedAdapter F n rhs a b = .ok x →
      ∀ c < rhs, ∀ y, solveValues fixedAdapter F n 1 a (column b c) = .ok y →
        ∀ i < n, x (i, c) = y (i, 0)

/-- The common end of the entry points: preflight, then store. -/
theorem storeBlock_eq_ok_iff {Raw : Type} {F : Format Raw Int64} {accepts : Int64 → Prop}
    (hF : Preflights F accepts) (work : Except Status (Grid Int64)) (rows cols : ℕ)
    (x : Grid Raw) :
    (work >>= fun y => F.checkBlock fixedAdapter.zero y rows cols >>= fun _ =>
        .ok fun p => F.store (y p)) = .ok x ↔
      ∃ y, work = .ok y ∧ (∀ i < rows, ∀ j < cols, accepts (y (i, j))) ∧
        x = fun p => F.store (y p) := by
  constructor
  · intro h
    obtain ⟨y, hy, hrest⟩ := ok_of_bind h
    obtain ⟨_, hcheck, hstore⟩ := ok_of_bind hrest
    cases hstore
    exact ⟨y, hy, (hF y rows cols).mp hcheck, rfl⟩
  · rintro ⟨y, hy, haccepts, rfl⟩
    rw [hy, ok_bind, (hF y rows cols).mpr haccepts]
    rfl

theorem solveValues_eq_ok_iff {Raw : Type} {F : Format Raw Int64} {accepts : Int64 → Prop}
    (hF : Preflights F accepts) (n rhs : ℕ) (a b x : Grid Raw) :
    solveValues fixedAdapter F n rhs a b = .ok x ↔
      ∃ y, solveWork fixedAdapter n rhs (loadGrid F a) (loadGrid F b) = .ok y ∧
        (∀ i < n, ∀ j < rhs, accepts (y (i, j))) ∧ x = fun p => F.store (y p) :=
  storeBlock_eq_ok_iff hF _ n rhs x

theorem columnsIndependent {Raw : Type} {F : Format Raw Int64} {accepts : Int64 → Prop}
    (hF : Preflights F accepts) : ColumnsIndependent F := by
  intro n rhs a b hrhs
  have : Nonempty (Fin rhs) := ⟨⟨0, hrhs⟩⟩
  have hsplit := @splits_solveWork _ _ _ fixedAdapter rhs _ n (loadGrid F a) (loadGrid F b)
  have hcolumn : ∀ c, loadGrid F (column b c) = column (loadGrid F b) c := fun _ => rfl
  simp only [solveValues_eq_ok_iff hF, hcolumn]
  refine ⟨⟨?_, ?_⟩, ?_⟩
  · rintro ⟨x, y, hy, haccepts, -⟩ c hc
    obtain ⟨z, hz, hholds⟩ := hsplit.1 y hy ⟨c, hc⟩
    refine ⟨_, z, hz, fun i hi j hj => ?_, rfl⟩
    obtain rfl : j = 0 := by omega
    rw [hholds i]
    exact haccepts i hi c hc
  · intro h
    choose! x z hz haccepts _ using h
    obtain ⟨y, hy⟩ := hsplit.2 fun c => ⟨z c, hz c c.isLt⟩
    refine ⟨_, y, hy, fun i hi j hj => ?_, rfl⟩
    have hholds := hsplit.related hy (c := ⟨j, hj⟩) (hz j hj)
    rw [← hholds i]
    exact haccepts j hj i hi 0 Nat.one_pos
  · rintro x ⟨y, hy, -, rfl⟩ c hc x' ⟨z, hz, -, rfl⟩ i _
    have hholds := hsplit.related hy (c := ⟨c, hc⟩) hz
    exact congrArg F.store (hholds i).symm

/-- The inverse is the working-format solve against the exact identity, narrowed. -/
def InverseIsSolve {Raw : Type} (F : Format Raw Int64)
    (narrow : Int64 → Option Raw → Status × Option Raw) : Prop :=
  ∀ (n : ℕ) (a : Grid Raw) (old : Raw),
    ((∃ x, inverseValues fixedAdapter F n a = .ok x) ↔
      ∃ y, solveValues fixedAdapter workingFormat n n (loadGrid F a)
          (identityGrid fixedAdapter) = .ok y ∧ ∀ i < n, ∀ j < n, WithinOne (y (i, j))) ∧
    ∀ x y, inverseValues fixedAdapter F n a = .ok x →
      solveValues fixedAdapter workingFormat n n (loadGrid F a)
        (identityGrid fixedAdapter) = .ok y →
      ∀ i < n, ∀ j < n, narrow (y (i, j)) (some old) = (.ok, some (x (i, j)))

theorem inverseIsSolve {Raw : Type} {F : Format Raw Int64} (hF : Preflights F WithinOne)
    {narrow : Int64 → Option Raw → Status × Option Raw}
    (hnarrow : ∀ value old, WithinOne value →
      narrow value (some old) = (.ok, some (F.store value))) :
    InverseIsSolve F narrow := by
  intro n a old
  have hinverse := fun x => storeBlock_eq_ok_iff hF
    (solveWork fixedAdapter n n (loadGrid F a) (identityGrid fixedAdapter)) n n x
  have hsolve := fun y => solveValues_eq_ok_iff workingFormat_preflights n n (loadGrid F a)
    (identityGrid fixedAdapter) y
  change ((∃ x, _ = Except.ok x) ↔ _) ∧ ∀ x y, _ = Except.ok x → _
  simp only [hsolve]
  constructor
  · constructor
    · rintro ⟨x, hx⟩
      obtain ⟨y, hy, hwithin, -⟩ := (hinverse x).mp hx
      exact ⟨y, ⟨y, hy, fun _ _ _ _ => trivial, rfl⟩, hwithin⟩
    · rintro ⟨_, ⟨y, hy, -, rfl⟩, hwithin⟩
      exact ⟨_, (hinverse _).mpr ⟨y, hy, hwithin, rfl⟩⟩
  · rintro x _ hx ⟨y, hy, -, rfl⟩ i hi j hj
    obtain ⟨y', hy', hwithin, rfl⟩ := (hinverse x).mp hx
    obtain rfl : y = y' := Except.ok.inj (hy.symm.trans hy')
    exact hnarrow _ old (hwithin i hi j hj)

theorem not_outside_one {value : Int64} (h : WithinOne value) :
    ¬(value < -fixedOne ∨ value > fixedOne) := by
  obtain ⟨hlow, hhigh⟩ := (withinOne_iff value).mp h
  exact not_or.mpr ⟨not_lt.mpr hlow, not_lt.mpr hhigh⟩

theorem q15Format_narrows (value : Int64) (old : Int16) (h : WithinOne value) :
    linearsFixedToQ15 value (some old) = (.ok, some (q15Format.store value)) := by
  have hin := not_outside_one h
  change _ = (Status.ok, some ((linearsFixedToQ15 value (some 0)).2.getD 0))
  rw [linearsFixedToQ15, linearsFixedToQ15, withOut_some, withOut_some, if_neg hin, if_neg hin]
  rfl

theorem q31Format_narrows (value : Int64) (old : Int32) (h : WithinOne value) :
    linearsFixedToQ31 value (some old) = (.ok, some (q31Format.store value)) := by
  have hin := not_outside_one h
  change _ = (Status.ok, some ((linearsFixedToQ31 value (some 0)).2.getD 0))
  rw [linearsFixedToQ31, linearsFixedToQ31, withOut_some, withOut_some, if_neg hin, if_neg hin]
  rfl

/-- Columns of a fixed-point solve do not influence one another, and the inverse
is a solve in the working format. -/
theorem solve_columns_independent :
    ColumnsIndependent q15Format ∧ ColumnsIndependent q31Format ∧
      ColumnsIndependent workingFormat ∧
      InverseIsSolve q15Format linearsFixedToQ15 ∧ InverseIsSolve q31Format linearsFixedToQ31 :=
  ⟨columnsIndependent q15Format_preflights, columnsIndependent q31Format_preflights,
    columnsIndependent workingFormat_preflights,
    inverseIsSolve q15Format_preflights q15Format_narrows,
    inverseIsSolve q31Format_preflights q31Format_narrows⟩

end Xhive.Linears
