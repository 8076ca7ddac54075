import Xhive.Linears.Decomp.LuExact
import Xhive.Support.Reflections
import Xhive.Linears.Decomp.Lu

/-!
# Householder QR

The kernel of `decomp_qr.inc` over any adapter.  R is updated in place from the
left while Q accumulates the reflectors from the right.
-/

namespace Xhive.Linears

open Xhive.Support

variable {S A Raw : Type} [LinearOrder S] (D : Adapter S A) (F : Format Raw S)

structure QrState (S : Type) where
  r : Grid S
  q : Grid S

/-- The unit direction of column `k` and its norm, or nothing for a column that
is zero from row `k` on.  The fixed formats scale by the column maximum before
they normalise, then restore the norm. -/
def qrDirection (m k : ℕ) (r : Grid S) : Except Status (Option ((ℕ → S) × S)) :=
  if D.fixed then do
    let maximum ← D.maxMagnitude (fun i => r (k + i, k)) (m - k)
    if maximum = D.zero then .ok none
    else do
      let v ← fillRange k m id (fun _ => D.zero) fun i _ => D.div (r (i, k)) maximum
      let norm ← D.norm (fun i => v (k + i)) (m - k)
      let v ← fillRange k m id v fun i v => D.div (v i) norm
      let norm ← D.mul maximum norm
      .ok (some (v, norm))
  else do
    let norm ← D.norm (fun i => r (k + i, k)) (m - k)
    if norm = D.zero then .ok none
    else do
      let v ← fillRange k m id (fun _ => D.zero) fun i _ => D.div (r (i, k)) norm
      .ok (some (v, norm))

/-- Move the direction away from the coordinate it is close to; the diagonal
entry takes the other sign. -/
def qrShift (k : ℕ) (v : ℕ → S) (norm : S) : Except Status ((ℕ → S) × S) :=
  if v k < D.zero then do
    let shifted ← D.sub (v k) D.one
    .ok (Function.update v k shifted, norm)
  else do
    let shifted ← D.add (v k) D.one
    let diagonal ← D.neg norm
    .ok (Function.update v k shifted, diagonal)

/-- The normalised reflector and the diagonal entry it leaves. -/
def qrReflector (m k : ℕ) (v : ℕ → S) (norm : S) : Except Status ((ℕ → S) × S) := do
  let shifted ← qrShift D k v norm
  let length ← D.norm (fun i => shifted.1 (k + i)) (m - k)
  let v ← fillRange k m id shifted.1 fun i v => D.div (v i) length
  .ok (v, shifted.2)

/-- Apply the reflector to column `j` at its own scale. -/
def reflectColumn (m k : ℕ) (v : ℕ → S) (two : S) (j : ℕ) (r : Grid S) :
    Except Status (Grid S) := do
  let maximum ← D.maxMagnitude (fun i => r (k + i, j)) (m - k)
  if maximum = D.zero then .ok r
  else do
    let dot ← D.sumTerms (fun i => do
      let ratio ← D.div (r (k + i, j)) maximum
      .ok (v (k + i), ratio)) (m - k)
    let dot ← D.mul two dot
    fillRange k m (fun i => (i, j)) r fun i r => do
      let ratio ← D.div (r (i, j)) maximum
      let ratio ← D.subProduct ratio (v i) dot
      D.mul ratio maximum

/-- Row `i` of `Q * H`. -/
def reflectRow (m k : ℕ) (v : ℕ → S) (two : S) (i : ℕ) (q : Grid S) : Except Status (Grid S) := do
  let dot ← D.dot (fun j => q (i, k + j)) (fun j => v (k + j)) (m - k)
  let dot ← D.mul two dot
  fillRange k m (fun j => (i, j)) q fun j q => D.subProduct (q (i, j)) dot (v j)

/-- Column `k` is known without computing it. -/
def finishColumn (m k : ℕ) (diagonal : S) (r : Grid S) : Grid S :=
  foldRange (k + 1) m (Function.update r (k, k) diagonal) fun i r =>
    Function.update r (i, k) D.zero

def qrApply (m n k : ℕ) (direction : (ℕ → S) × S) (s : QrState S) :
    Except Status (QrState S) := do
  let reflector ← qrReflector D m k direction.1 direction.2
  let two ← D.constant 2
  let r ← forRange (k + 1) n s.r (reflectColumn D m k reflector.1 two)
  let q ← forRange 0 m s.q (reflectRow D m k reflector.1 two)
  .ok { r := finishColumn D m k reflector.2 r, q := q }

/-- A column that is already zero is skipped. -/
def qrStep (m n k : ℕ) (s : QrState S) : Except Status (QrState S) := do
  let direction ← qrDirection D m k s.r
  match direction with
  | none => .ok s
  | some direction => qrApply D m n k direction s

def qrFactor (m n : ℕ) (a : Grid S) : Except Status (QrState S) :=
  forRange 0 (min m n) { r := a, q := identityGrid D } (qrStep D m n)

/-- What `qr` writes on success. -/
structure QrOutput (Raw : Type) where
  q : Grid Raw
  r : Grid Raw

/-- `qr` after its validation.  A matrix without rows has no element to write. -/
def qrValues (m n : ℕ) (a : Grid Raw) : Except Status (QrOutput Raw) := do
  let s ← qrFactor D m n (loadGrid F a)
  F.checkBlock D.zero s.q m m
  F.checkBlock D.zero s.r m n
  .ok { q := fun x => F.store (s.q x), r := fun x => F.store (s.r x) }

end Xhive.Linears

/-!
## QR over the real numbers

With exact arithmetic every step multiplies R from the left and Q from the
right by one reflection, so `Q R` never changes and `Q` stays orthogonal.
-/

namespace Xhive.Linears

open Xhive.Support Matrix

variable (fixed : Bool) (epsilon : ℝ) {m n k : ℕ}

/-! ## The reflector -/

/-- The direction of a nonzero column has unit length. -/
structure QrUnit (m k : ℕ) (r : Grid ℝ) (v : ℕ → ℝ) (norm : ℝ) : Prop where
  column : ∀ i, k ≤ i → i < m → r (i, k) = norm * v i
  unit : ∑ i ∈ Finset.range (m - k), v (k + i) * v (k + i) = 1

theorem qrUnit_of_div {r : Grid ℝ} {v : ℕ → ℝ} (hk : k < m)
    (hne : Real.sqrt (∑ i ∈ Finset.range (m - k), r (k + i, k) * r (k + i, k)) ≠ 0)
    (hv : ∀ i, k ≤ i → i < m → v i =
      r (i, k) / Real.sqrt (∑ i ∈ Finset.range (m - k), r (k + i, k) * r (k + i, k))) :
    QrUnit m k r v
      (Real.sqrt (∑ i ∈ Finset.range (m - k), r (k + i, k) * r (k + i, k))) := by
  generalize hsum : ∑ i ∈ Finset.range (m - k), r (k + i, k) * r (k + i, k) = sum at *
  have hnonneg : 0 ≤ sum := by
    rw [← hsum]
    exact Finset.sum_nonneg fun i _ => mul_self_nonneg _
  have hsquare : Real.sqrt sum * Real.sqrt sum = sum := Real.mul_self_sqrt hnonneg
  have hpos : sum ≠ 0 := fun h => hne (by rw [h, Real.sqrt_zero])
  refine ⟨fun i hi hlt => ?_, ?_⟩
  · rw [hv i hi hlt, mul_div_cancel₀ _ hne]
  · have hterm : ∀ i ∈ Finset.range (m - k), v (k + i) * v (k + i) =
        r (k + i, k) * r (k + i, k) / sum := by
      intro i hi
      rw [Finset.mem_range] at hi
      rw [hv (k + i) (by omega) (by omega), div_mul_div_comm, hsquare]
    rw [Finset.sum_congr rfl hterm, ← Finset.sum_div, hsum, div_self hpos]

/-- Both operation orders deliver the same direction and norm. -/
theorem qrDirection_exact (hk : k < m) (r : Grid ℝ) :
    Ensures (qrDirection (exactAdapter ℝ fixed Real.sqrt epsilon) m k r)
      (fun direction => match direction with
        | none => ∀ i, k ≤ i → i < m → r (i, k) = 0
        | some (v, norm) => QrUnit m k r v norm) (fun _ => False) := by
  have hzero : Real.sqrt (∑ i ∈ Finset.range (m - k), r (k + i, k) * r (k + i, k)) = 0 →
      ∀ i, k ≤ i → i < m → r (i, k) = 0 := by
    intro h i hi hlt
    rw [Real.sqrt_eq_zero (Finset.sum_nonneg fun i _ => mul_self_nonneg _),
      Finset.sum_eq_zero_iff_of_nonneg fun i _ => mul_self_nonneg _] at h
    have hterm := h (i - k) (Finset.mem_range.mpr (by omega))
    rw [Nat.add_sub_cancel' hi] at hterm
    exact mul_self_eq_zero.mp hterm
  have hcell : ∀ i j : ℕ, k ≤ i → i < j → j < m → id i ≠ id j := fun i j _ hlt _ => hlt.ne
  rw [qrDirection]
  cases fixed with
  | false =>
      rw [exactAdapter_fixed, if_neg Bool.false_ne_true, real_norm]
      refine Ensures.ite hzero fun hne => ?_
      refine (Ensures.fillRange_map (fun i _ => r (i, k) / _) (fun _ _ _ _ => rfl) hcell).seq ?_
      rintro v ⟨hv, -⟩
      exact qrUnit_of_div hk hne hv
  | true =>
      rw [exactAdapter_fixed, if_pos rfl]
      obtain ⟨maximum, hmax, hnonneg, hnull⟩ :=
        exact_maxMagnitude true Real.sqrt epsilon (fun i => r (k + i, k)) (m - k)
      rw [hmax]
      refine Ensures.ite (fun h i hi hlt => ?_) fun hne => ?_
      · have hentry := hnull h (i - k) (by omega)
        rwa [Nat.add_sub_cancel' hi] at hentry
      · have hne' : maximum ≠ 0 := hne
        refine (Ensures.fillRange_map (fun i _ => r (i, k) / maximum) (fun _ _ _ _ => rfl)
          hcell).seq ?_
        rintro w ⟨hw, -⟩
        have hw' : ∀ i, k ≤ i → i < m → w i = r (i, k) / maximum := hw
        -- the scaled norm times the maximum is the norm of the column
        have hnorm : Real.sqrt (∑ i ∈ Finset.range (m - k), w (k + i) * w (k + i)) =
            Real.sqrt (∑ i ∈ Finset.range (m - k), r (k + i, k) * r (k + i, k)) / maximum := by
          have hsum : ∑ i ∈ Finset.range (m - k), w (k + i) * w (k + i) =
              (∑ i ∈ Finset.range (m - k), r (k + i, k) * r (k + i, k)) /
                (maximum * maximum) := by
            rw [Finset.sum_div]
            refine Finset.sum_congr rfl fun i hi => ?_
            rw [Finset.mem_range] at hi
            rw [hw' (k + i) (by omega) (by omega), div_mul_div_comm]
          rw [hsum, Real.sqrt_div' _ (mul_self_nonneg maximum), Real.sqrt_mul_self hnonneg]
        rw [real_norm, hnorm]
        refine Ensures.bind (ensures_ok.mpr (Ensures.seq (Ensures.fillRange_map (fun _ x => x /
          (Real.sqrt (∑ i ∈ Finset.range (m - k), r (k + i, k) * r (k + i, k)) / maximum))
          (fun _ _ _ _ => rfl) hcell) ?_))
        rintro v ⟨hv, -⟩
        change QrUnit m k r v (maximum * (_ / maximum))
        rw [mul_div_cancel₀ _ hne']
        refine qrUnit_of_div hk ?_ fun i hi hlt => ?_
        · intro h
          refine hne' ?_
          obtain hz | ⟨i, hi, habs⟩ := (((exact_orderedArith true Real.sqrt epsilon).maxMagnitude
            (fun i => r (k + i, k)) (m - k)).of_eq_ok hmax).2
          · exact hz
          · rw [show maximum = |r (k + i, k)| from habs, hzero h (k + i) (by omega) (by omega),
              abs_zero]
        · rw [show v i = w i / _ from hv i hi hlt, hw' i hi hlt, div_div, mul_div_cancel₀ _ hne']

/-- A unit vector whose reflection sends column `k` to its diagonal entry. -/
structure QrReflection (m k : ℕ) (r : Grid ℝ) (w : ℕ → ℝ) (diagonal : ℝ) : Prop where
  unit : ∑ i ∈ Finset.range (m - k), w (k + i) * w (k + i) = 1
  column : ∀ i, k ≤ i → i < m →
    r (i, k) - w i * (2 * ∑ l ∈ Finset.range (m - k), w (k + l) * r (k + l, k)) =
      if i = k then diagonal else 0

/-- The shift away from zero, as one sign. -/
theorem qrShift_exact (v : ℕ → ℝ) (norm : ℝ) :
    Ensures (qrShift (exactAdapter ℝ fixed Real.sqrt epsilon) k v norm)
      (fun shifted => ∃ sign : ℝ, sign * sign = 1 ∧ 0 ≤ sign * v k ∧ shifted.2 = -sign * norm ∧
        ∀ l, shifted.1 (k + l) = v (k + l) + if l = 0 then sign else 0) (fun _ => False) := by
  have hshift : ∀ sign l, Function.update v k (v k + sign) (k + l) =
      v (k + l) + if l = 0 then sign else 0 := by
    intro sign l
    by_cases hl : l = 0
    · rw [hl, add_zero, Function.update_self, if_pos rfl]
    · rw [Function.update_of_ne (by omega), if_neg hl, add_zero]
  rw [qrShift]
  refine Ensures.ite (fun hneg => ?_) fun hnonneg => ?_
  · have hneg' : v k < 0 := hneg
    refine ⟨-1, by norm_num, by linarith, by rw [neg_neg, one_mul], fun l => ?_⟩
    exact hshift (-1) l
  · have hnonneg' : 0 ≤ v k := not_lt.mp hnonneg
    refine ⟨1, by norm_num, by rwa [one_mul], by rw [neg_one_mul], hshift 1⟩

theorem qrReflector_exact (hk : k < m) {r : Grid ℝ} {v : ℕ → ℝ} {norm : ℝ}
    (hunit : QrUnit m k r v norm) :
    Ensures (qrReflector (exactAdapter ℝ fixed Real.sqrt epsilon) m k v norm)
      (fun reflector => QrReflection m k r reflector.1 reflector.2) (fun _ => False) := by
  refine (qrShift_exact fixed epsilon v norm).seq ?_
  rintro ⟨shifted, diagonal⟩ ⟨sign, hsign, hside, hdiagonal, hshifted⟩
  dsimp only at hdiagonal hshifted
  have hrows : 0 < m - k := by omega
  have hside' : 0 ≤ sign * v (k + 0) := hside
  have hlength : ∑ i ∈ Finset.range (m - k), shifted (k + i) * shifted (k + i) =
      2 * (1 + sign * v (k + 0)) := by
    rw [← sum_shifted_sq hrows hunit.unit hsign]
    exact Finset.sum_congr rfl fun i _ => by rw [hshifted]
  have hpos : 0 < 2 * (1 + sign * v (k + 0)) := by linarith
  obtain ⟨c, hc, hcc, hroot⟩ : ∃ c : ℝ, c ≠ 0 ∧ c * c = 2 * (1 + sign * v (k + 0)) ∧
      Real.sqrt (2 * (1 + sign * v (k + 0))) = c :=
    ⟨_, (Real.sqrt_pos.mpr hpos).ne', Real.mul_self_sqrt hpos.le, rfl⟩
  rw [real_norm, hlength, hroot]
  refine Ensures.bind (ensures_ok.mpr (Ensures.seq (Ensures.fillRange_map (fun _ x => x / c)
    (fun _ _ _ _ => rfl) fun i j _ hlt _ => hlt.ne) ?_))
  rintro w ⟨hw, -⟩
  have hentry : ∀ l < m - k, w (k + l) = (v (k + l) + if l = 0 then sign else 0) / c := by
    intro l hl
    have heq : w (k + l) = shifted (k + l) / c := hw (k + l) (by omega) (by omega)
    rw [heq, hshifted]
  refine ⟨?_, fun i hi hlt => ?_⟩
  · have hterm : ∀ i ∈ Finset.range (m - k), w (k + i) * w (k + i) =
        shifted (k + i) * shifted (k + i) / (c * c) := by
      intro i hi
      rw [hentry i (Finset.mem_range.mp hi), ← hshifted, div_mul_div_comm]
    rw [Finset.sum_congr rfl hterm, ← Finset.sum_div, hlength, hcc, div_self hpos.ne']
  · obtain ⟨l, rfl⟩ : ∃ l, i = k + l := ⟨i - k, by omega⟩
    have hcolumn : ∀ l < m - k, r (k + l, k) = norm * v (k + l) := fun l hl =>
      hunit.column (k + l) (by omega) (by omega)
    have hsum : ∑ l ∈ Finset.range (m - k), w (k + l) * r (k + l, k) = norm *
        ∑ l ∈ Finset.range (m - k), (v (k + l) + if l = 0 then sign else 0) / c * v (k + l) := by
      rw [Finset.mul_sum]
      refine Finset.sum_congr rfl fun l hl => ?_
      rw [Finset.mem_range] at hl
      rw [hentry l hl, hcolumn l hl]
      ring
    have hreflect := reflect_unit hrows hunit.unit hc hcc l
    have hself : k + l = k ↔ l = 0 := by omega
    dsimp only
    rw [hsum, hentry l (by omega), hcolumn l (by omega)]
    simp only [hself]
    rw [hdiagonal]
    split
    · rename_i hl
      rw [if_pos hl, if_pos hl] at hreflect
      linear_combination norm * hreflect
    · rename_i hl
      rw [if_neg hl, if_neg hl] at hreflect
      linear_combination norm * hreflect

/-! ## Applying it -/

/-- Column `j` is reflected whether or not it needed scaling. -/
theorem reflectColumn_exact (w : ℕ → ℝ) (j : ℕ) (r : Grid ℝ) :
    Ensures (reflectColumn (exactAdapter ℝ fixed Real.sqrt epsilon) m k w 2 j r)
      (fun t => (∀ i, k ≤ i → i < m → t (i, j) =
          r (i, j) - w i * (2 * ∑ l ∈ Finset.range (m - k), w (k + l) * r (k + l, j))) ∧
        ∀ i c, i < k ∨ c ≠ j → t (i, c) = r (i, c)) (fun _ => False) := by
  rw [reflectColumn]
  obtain ⟨maximum, hmax, -, hnull⟩ :=
    exact_maxMagnitude fixed Real.sqrt epsilon (fun i => r (k + i, j)) (m - k)
  rw [hmax]
  refine Ensures.ite (fun hzero => ?_) fun hne => ?_
  · have hentry : ∀ l < m - k, r (k + l, j) = 0 := hnull hzero
    refine ⟨fun i hi hlt => ?_, fun _ _ _ => rfl⟩
    rw [Finset.sum_eq_zero fun l hl => by rw [hentry l (Finset.mem_range.mp hl), mul_zero]]
    ring
  · have hne' : maximum ≠ 0 := hne
    have hdot : (exactAdapter ℝ fixed Real.sqrt epsilon).sumTerms (fun i => do
        let ratio ← (exactAdapter ℝ fixed Real.sqrt epsilon).div (r (k + i, j)) maximum
        .ok (w (k + i), ratio)) (m - k) =
        .ok ((∑ l ∈ Finset.range (m - k), w (k + l) * r (k + l, j)) / maximum) := by
      rw [Finset.sum_div]
      refine (exact_sumTerms fixed Real.sqrt epsilon (fun _ _ => rfl)).trans ?_
      exact congrArg Except.ok (Finset.sum_congr rfl fun l _ => (mul_div_assoc _ _ _).symm)
    rw [hdot]
    refine Ensures.bind (ensures_ok.mpr ?_)
    refine Ensures.imp (Ensures.fillRange_map (fun i x => (x / maximum - w i * (2 *
      ((∑ l ∈ Finset.range (m - k), w (k + l) * r (k + l, j)) / maximum))) * maximum) ?_ ?_) ?_
    · intro i t _ _
      change ((exactAdapter ℝ fixed Real.sqrt epsilon).subProduct (t (i, j) / maximum) (w i)
        (2 * _) >>= _) = _
      rw [exact_subProduct]
      rfl
    · intro i i' _ hlt _ heq
      exact hlt.ne (congrArg Prod.fst heq)
    · rintro t ⟨hdone, hframe⟩
      refine ⟨fun i hi hlt => ?_, fun i c hout => hframe (i, c) fun l hl _ heq => ?_⟩
      · rw [hdone i hi hlt]
        field_simp
      · have hrow := congrArg Prod.fst heq
        have hcolumn := congrArg Prod.snd heq
        dsimp only at hrow hcolumn
        omega

theorem reflectRow_exact (w : ℕ → ℝ) (i : ℕ) (q : Grid ℝ) :
    Ensures (reflectRow (exactAdapter ℝ fixed Real.sqrt epsilon) m k w 2 i q)
      (fun t => (∀ j, k ≤ j → j < m → t (i, j) =
          q (i, j) - (2 * ∑ l ∈ Finset.range (m - k), q (i, k + l) * w (k + l)) * w j) ∧
        ∀ r j, r ≠ i ∨ j < k → t (r, j) = q (r, j)) (fun _ => False) := by
  rw [reflectRow, exact_dot]
  refine Ensures.bind (ensures_ok.mpr ?_)
  refine Ensures.imp (Ensures.fillRange_map (fun j x => x - (2 *
    ∑ l ∈ Finset.range (m - k), q (i, k + l) * w (k + l)) * w j)
    (fun _ _ _ _ => exact_subProduct ..) ?_) ?_
  · intro j j' _ hlt _ heq
    exact hlt.ne (congrArg Prod.snd heq)
  · rintro t ⟨hdone, hframe⟩
    refine ⟨hdone, fun r j hout => hframe (r, j) fun l hl _ heq => ?_⟩
    have hrow := congrArg Prod.fst heq
    have hcolumn := congrArg Prod.snd heq
    dsimp only at hrow hcolumn
    omega

/-- The reflector as a vector of all coordinates. -/
def tailVector (m k : ℕ) (w : ℕ → ℝ) : Fin m → ℝ :=
  fun i => if k ≤ i then w i else 0

theorem sum_tailVector (hk : k ≤ m) (w : ℕ → ℝ) (f : ℕ → ℝ) :
    ∑ l : Fin m, tailVector m k w l * f l =
      ∑ l ∈ Finset.range (m - k), w (k + l) * f (k + l) := by
  have hterm : ∀ l : Fin m, tailVector m k w l * f l =
      (fun l : ℕ => (if k ≤ l then w l else 0) * f l) l := fun _ => rfl
  rw [Finset.sum_congr rfl fun l _ => hterm l,
    Fin.sum_univ_eq_sum_range (fun l : ℕ => (if k ≤ l then w l else 0) * f l),
    Finset.range_eq_Ico, ← Finset.sum_Ico_consecutive _ (Nat.zero_le k) hk]
  have hhead : ∑ l ∈ Finset.Ico 0 k, (if k ≤ l then w l else 0) * f l = 0 :=
    Finset.sum_eq_zero fun l hl => by
      rw [if_neg (not_le.mpr (Finset.mem_Ico.mp hl).2), zero_mul]
  rw [hhead, zero_add, Finset.sum_Ico_eq_sum_range, Finset.range_eq_Ico]
  exact Finset.sum_congr rfl fun l _ => by rw [if_pos (Nat.le_add_right k l)]

/-- The loop over the columns behind the pivot column. -/
theorem reflectColumns_exact (hk : k < n) (w : ℕ → ℝ) (r : Grid ℝ) :
    Ensures (forRange (k + 1) n r
        (reflectColumn (exactAdapter ℝ fixed Real.sqrt epsilon) m k w 2))
      (fun t => (∀ i j, k ≤ i → i < m → k < j → j < n → t (i, j) =
          r (i, j) - w i * (2 * ∑ l ∈ Finset.range (m - k), w (k + l) * r (k + l, j))) ∧
        ∀ i j, i < k ∨ j ≤ k → t (i, j) = r (i, j)) (fun _ => False) := by
  refine Ensures.imp (Ensures.forRange (fun column (t : Grid ℝ) =>
    (∀ i j, k ≤ i → i < m → k < j → j < column → t (i, j) =
        r (i, j) - w i * (2 * ∑ l ∈ Finset.range (m - k), w (k + l) * r (k + l, j))) ∧
      ∀ i j, i < k ∨ j ≤ k ∨ column ≤ j → t (i, j) = r (i, j)) hk ?_ ?_) ?_
  · exact ⟨fun i j _ _ _ _ => by omega, fun _ _ _ => rfl⟩
  · rintro column t hlo _ ⟨hdone, hframe⟩
    refine (reflectColumn_exact fixed epsilon w column t).imp ?_
    rintro u ⟨hnew, hkeep⟩
    refine ⟨fun i j hi him hj hlt => ?_, fun i j hout => ?_⟩
    · rcases Nat.lt_succ_iff_lt_or_eq.mp hlt with h | rfl
      · rw [hkeep i j (Or.inr h.ne)]
        exact hdone i j hi him hj h
      · have hold : ∀ i, t (i, j) = r (i, j) := fun i => hframe i j (Or.inr (Or.inr le_rfl))
        rw [hnew i hi him, hold]
        simp only [hold]
    · rw [hkeep i j (by omega)]
      exact hframe i j (by omega)
  · rintro t ⟨hdone, hframe⟩
    exact ⟨hdone, fun i j hout => hframe i j (by omega)⟩

theorem reflectRows_exact (w : ℕ → ℝ) (q : Grid ℝ) :
    Ensures (forRange 0 m q (reflectRow (exactAdapter ℝ fixed Real.sqrt epsilon) m k w 2))
      (fun t => (∀ i j, i < m → k ≤ j → j < m → t (i, j) =
          q (i, j) - (2 * ∑ l ∈ Finset.range (m - k), q (i, k + l) * w (k + l)) * w j) ∧
        ∀ i j, j < k → t (i, j) = q (i, j)) (fun _ => False) := by
  refine Ensures.imp (Ensures.forRange (fun row (t : Grid ℝ) =>
    (∀ i j, i < row → k ≤ j → j < m → t (i, j) =
        q (i, j) - (2 * ∑ l ∈ Finset.range (m - k), q (i, k + l) * w (k + l)) * w j) ∧
      ∀ i j, row ≤ i ∨ j < k → t (i, j) = q (i, j)) (Nat.zero_le m) ?_ ?_) ?_
  · exact ⟨fun i j hi => by omega, fun _ _ _ => rfl⟩
  · rintro row t _ _ ⟨hdone, hframe⟩
    refine (reflectRow_exact fixed epsilon w row t).imp ?_
    rintro u ⟨hnew, hkeep⟩
    refine ⟨fun i j hlt hj hjm => ?_, fun i j hout => ?_⟩
    · rcases Nat.lt_succ_iff_lt_or_eq.mp hlt with h | rfl
      · rw [hkeep i j (Or.inl h.ne)]
        exact hdone i j h hj hjm
      · have hold : ∀ j, t (i, j) = q (i, j) := fun j => hframe i j (Or.inl le_rfl)
        rw [hnew j hj hjm, hold]
        simp only [hold]
    · rw [hkeep i j (by omega)]
      exact hframe i j (by omega)
  · rintro t ⟨hdone, hframe⟩
    exact ⟨hdone, fun i j hj => hframe i j (Or.inr hj)⟩

theorem finishColumn_exact (hk : k < m) (diagonal : ℝ) (r : Grid ℝ) :
    (∀ i, k ≤ i → i < m →
      finishColumn (exactAdapter ℝ fixed Real.sqrt epsilon) m k diagonal r (i, k) =
        if i = k then diagonal else 0) ∧
    ∀ i j, i < k ∨ j ≠ k →
      finishColumn (exactAdapter ℝ fixed Real.sqrt epsilon) m k diagonal r (i, j) = r (i, j) := by
  refine foldRange_induction (fun row (t : Grid ℝ) =>
    (∀ i, k ≤ i → i < row → t (i, k) = if i = k then diagonal else 0) ∧
      ∀ i j, i < k ∨ j ≠ k → t (i, j) = r (i, j)) hk ?_ ?_
  · refine ⟨fun i hi hlt => ?_, fun i j hout => Function.update_of_ne (fun heq => ?_) _ _⟩
    · obtain rfl : i = k := by omega
      rw [Function.update_self, if_pos rfl]
    · have := Prod.mk.inj heq
      omega
  · rintro row t hlo _ ⟨hdone, hframe⟩
    refine ⟨fun i hi hlt => ?_, fun i j hout => ?_⟩
    · rcases Nat.lt_succ_iff_lt_or_eq.mp hlt with h | rfl
      · rw [Function.update_of_ne fun heq => h.ne (Prod.mk.inj heq).1]
        exact hdone i hi h
      · rw [Function.update_self, if_neg (by omega)]
        rfl
    · rw [Function.update_of_ne fun heq => by have := Prod.mk.inj heq; omega]
      exact hframe i j hout

/-! ## The invariant -/

/-- `Q R` is the input, `Q` is orthogonal, and the finished columns of R are
zero below the diagonal. -/
structure QrInvariant (m n : ℕ) (a : Grid ℝ) (k : ℕ) (s : QrState ℝ) : Prop where
  product : gridMatrix m m s.q * gridMatrix m n s.r = gridMatrix m n a
  orthogonal : (gridMatrix m m s.q)ᵀ * gridMatrix m m s.q = 1
  upper : ∀ i j, j < k → j < i → i < m → s.r (i, j) = 0

/-- A reflection applied to both factors keeps the invariant. -/
theorem QrInvariant.reflect {a : Grid ℝ} {s t : QrState ℝ} {w : Fin m → ℝ}
    (h : QrInvariant m n a k s) (hw : ∑ l, w l * w l = 1)
    (hr : gridMatrix m n t.r = reflector w * gridMatrix m n s.r)
    (hq : gridMatrix m m t.q = gridMatrix m m s.q * reflector w)
    (hupper : ∀ i j, j < k + 1 → j < i → i < m → t.r (i, j) = 0) :
    QrInvariant m n a (k + 1) t := by
  have hinvolution := reflector_mul_self hw
  refine ⟨?_, ?_, hupper⟩
  · calc
      gridMatrix m m t.q * gridMatrix m n t.r
        = gridMatrix m m s.q * (reflector w * reflector w) * gridMatrix m n s.r := by
          rw [hq, hr]
          simp only [Matrix.mul_assoc]
      _ = gridMatrix m n a := by rw [hinvolution, Matrix.mul_one, h.product]
  · calc
      (gridMatrix m m t.q)ᵀ * gridMatrix m m t.q
        = reflector w * ((gridMatrix m m s.q)ᵀ * gridMatrix m m s.q) * reflector w := by
          rw [hq, Matrix.transpose_mul, reflector_transpose]
          simp only [Matrix.mul_assoc]
      _ = 1 := by rw [h.orthogonal, Matrix.mul_one, hinvolution]

theorem qrApply_exact (hm : k < m) (hn : k < n) {a : Grid ℝ} {s : QrState ℝ} {v : ℕ → ℝ}
    {norm : ℝ} (h : QrInvariant m n a k s) (hunit : QrUnit m k s.r v norm) :
    Ensures (qrApply (exactAdapter ℝ fixed Real.sqrt epsilon) m n k (v, norm) s)
      (QrInvariant m n a (k + 1)) (fun _ => False) := by
  rw [qrApply]
  refine (qrReflector_exact fixed epsilon hm hunit).seq ?_
  rintro ⟨w, diagonal⟩ hreflection
  dsimp only at hreflection
  have htwo : (exactAdapter ℝ fixed Real.sqrt epsilon).constant 2 = .ok (2 : ℝ) := by
    rw [exactAdapter_constant, Int.cast_ofNat]
  rw [htwo]
  refine Ensures.bind (ensures_ok.mpr ?_)
  refine (reflectColumns_exact fixed epsilon hn w s.r).seq ?_
  rintro r ⟨hcolumns, hkept⟩
  refine (reflectRows_exact fixed epsilon w s.q).seq ?_
  rintro q ⟨hrows, hrowsKept⟩
  obtain ⟨hpivot, hother⟩ := finishColumn_exact fixed epsilon hm diagonal r
  have hvector : ∀ i : Fin m, ((i : ℕ) < k ∧ tailVector m k w i = 0) ∨
      (k ≤ (i : ℕ) ∧ tailVector m k w i = w i) := by
    intro i
    rcases Nat.lt_or_ge i k with hlt | hge
    · exact Or.inl ⟨hlt, if_neg (not_le.mpr hlt)⟩
    · exact Or.inr ⟨hge, if_pos hge⟩
  refine h.reflect (w := tailVector m k w) ?_ ?_ ?_ ?_
  · have hsum := sum_tailVector hm.le w fun l => if k ≤ l then w l else 0
    refine hsum.trans ((Finset.sum_congr rfl fun l _ => ?_).trans hreflection.unit)
    rw [if_pos (Nat.le_add_right k l)]
  · ext i j
    rw [reflector_mul_apply]
    have hdot : ∑ l, tailVector m k w l * gridMatrix m n s.r l j =
        ∑ l ∈ Finset.range (m - k), w (k + l) * s.r (k + l, j) :=
      sum_tailVector hm.le w fun l => s.r (l, j)
    rw [hdot]
    change finishColumn _ m k diagonal r (i, j) = s.r (i, j) - _
    rcases hvector i with ⟨hik, hzero⟩ | ⟨hki, hvalue⟩
    · rw [hzero, zero_mul, sub_zero, hother i j (Or.inl hik), hkept i j (Or.inl hik)]
    · rw [hvalue]
      rcases lt_trichotomy (j : ℕ) k with hjk | hjk | hkj
      · -- an earlier column is zero where the reflector acts
        have hcolumn : ∀ l ∈ Finset.range (m - k), w (k + l) * s.r (k + l, j) = 0 := by
          intro l hl
          rw [Finset.mem_range] at hl
          rw [h.upper (k + l) j hjk (by omega) (by omega), mul_zero]
        rw [Finset.sum_eq_zero hcolumn, mul_zero, mul_zero, sub_zero,
          hother i j (Or.inr hjk.ne), hkept i j (Or.inr hjk.le)]
      · rw [hjk, hpivot i hki i.isLt, hreflection.column i hki i.isLt]
      · rw [hother i j (Or.inr hkj.ne'), hcolumns i j hki i.isLt hkj j.isLt]
  · ext i j
    rw [mul_reflector_apply]
    have hdot : ∑ l, gridMatrix m m s.q i l * tailVector m k w l =
        ∑ l ∈ Finset.range (m - k), s.q (i, k + l) * w (k + l) := by
      simp only [mul_comm (gridMatrix m m s.q i _), mul_comm (s.q _)]
      exact sum_tailVector hm.le w fun l => s.q (i, l)
    rw [hdot]
    change q (i, j) = s.q (i, j) - _
    rcases hvector j with ⟨hjk, hzero⟩ | ⟨hkj, hvalue⟩
    · rw [hzero, mul_zero, sub_zero, hrowsKept i j hjk]
    · rw [hvalue, hrows i j i.isLt hkj j.isLt]
  · intro i j hj hji hi
    change finishColumn _ m k diagonal r (i, j) = 0
    rcases Nat.lt_succ_iff_lt_or_eq.mp hj with hlt | rfl
    · rw [hother i j (Or.inr hlt.ne), hkept i j (Or.inr hlt.le)]
      exact h.upper i j hlt hji hi
    · rw [hpivot i hji.le hi, if_neg hji.ne']

theorem qrStep_exact (hm : k < m) (hn : k < n) {a : Grid ℝ} {s : QrState ℝ}
    (h : QrInvariant m n a k s) :
    Ensures (qrStep (exactAdapter ℝ fixed Real.sqrt epsilon) m n k s)
      (QrInvariant m n a (k + 1)) (fun _ => False) := by
  rw [qrStep]
  refine (qrDirection_exact fixed epsilon hm s.r).seq fun direction hdirection => ?_
  match direction, hdirection with
  | none, hzero =>
      refine ⟨h.product, h.orthogonal, fun i j hj hji hi => ?_⟩
      rcases Nat.lt_succ_iff_lt_or_eq.mp hj with hlt | rfl
      · exact h.upper i j hlt hji hi
      · exact hzero i hji.le hi
  | some (v, norm), hunit => exact qrApply_exact fixed epsilon hm hn h hunit

theorem qrFactor_exact (m n : ℕ) (a : Grid ℝ) :
    Ensures (qrFactor (exactAdapter ℝ fixed Real.sqrt epsilon) m n a)
      (QrInvariant m n a (min m n)) (fun _ => False) := by
  refine Ensures.forRange (QrInvariant m n a) (Nat.zero_le _) ?_ fun k s _ hk h =>
    qrStep_exact fixed epsilon (by omega) (by omega) h
  have hidentity : gridMatrix m m (identityGrid (exactAdapter ℝ fixed Real.sqrt epsilon)) = 1 :=
    gridMatrix_identityGrid fixed Real.sqrt epsilon m
  refine ⟨?_, ?_, fun i j hj => by omega⟩
  · rw [hidentity, Matrix.one_mul]
  · rw [hidentity, Matrix.transpose_one, Matrix.one_mul]

/-- The Householder template over the real numbers, in either operation order
and for every shape: `Q` is orthogonal, `R` is upper trapezoidal, `Q R = A`. -/
theorem qr_template_exact (fixed : Bool) (epsilon : ℝ) (m n : ℕ) (a : Grid ℝ) :
    ∃ out, qrValues (exactAdapter ℝ fixed Real.sqrt epsilon) (exactFormat ℝ) m n a = .ok out ∧
      (gridMatrix m m out.q)ᵀ * gridMatrix m m out.q = 1 ∧
      (∀ (i : Fin m) (j : Fin n), (j : ℕ) < i → gridMatrix m n out.r i j = 0) ∧
      gridMatrix m m out.q * gridMatrix m n out.r = gridMatrix m n a := by
  obtain ⟨s, hs, hinv⟩ := (qrFactor_exact fixed epsilon m n a).exists_ok
  refine ⟨{ q := s.q, r := s.r }, ?_, hinv.orthogonal, fun i j hji => ?_, hinv.product⟩
  · rw [qrValues, show loadGrid (exactFormat ℝ) a = a from rfl, hs]
    rfl
  · exact hinv.upper i j (lt_min (hji.trans i.isLt) j.isLt) hji i.isLt

end Xhive.Linears
