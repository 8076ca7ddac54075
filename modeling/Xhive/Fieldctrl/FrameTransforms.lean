import Xhive.Fieldctrl.SincosLength
import Xhive.Fieldctrl.SpaceVector

/-!
# Round trips of the frame transforms

Clarke and Park transforms and their inverses round every product, and the stores
between them round again and saturate at the endpoint.  A vector that survives both
calls comes back within a few units of the storage format.
-/

namespace Xhive.Fieldctrl

open Xhive.Support Xhive.Linears Xhive.Filters

variable {Q : Type} [FilterFormat Q]

/-! ## The Clarke transform -/

def clarke (phase : Abc Q) : Except Status (Ab Q) := do
  let a := FilterFormat.load phase.a
  let b := FilterFormat.load phase.b
  let c := FilterFormat.load phase.c
  let two ← fcqI 2
  let three ← fcqI 3
  let twoThirds ← fcqDiv two three
  let scaled ← fcqMul a twoThirds
  let thirdB ← fcqDiv b three
  let thirdC ← fcqDiv c three
  let thirds ← fcqAdd thirdB thirdC
  let alpha ← fcqSub scaled thirds
  let root3 ← fcqSqrt three
  let rootB ← fcqDiv b root3
  let rootC ← fcqDiv c root3
  let beta ← fcqSub rootB rootC
  let alpha ← fcStore alpha
  let beta ← fcStore beta
  .ok ⟨alpha, beta⟩

def inverseClarke (stationary : Ab Q) : Except Status (Abc Q) := do
  let a := FilterFormat.load stationary.alpha
  let b := FilterFormat.load stationary.beta
  let one ← fcqI 1
  let two ← fcqI 2
  let half ← fcqDiv one two
  let three ← fcqI 3
  let root3 ← fcqSqrt three
  let root3half ← fcqMul root3 half
  let first ← fcStore a
  let rootB ← fcqMul root3half b
  let halfA ← fcqMul half a
  let second ← fcqSub rootB halfA
  let second ← fcStore second
  let sum ← fcqAdd halfA rootB
  let third ← fcqNeg sum
  let third ← fcStore third
  .ok ⟨first, second, third⟩

/-! ## The public calls -/

/-- A transform with the pointer to its result. -/
def withResult {α : Type} (place : Extent) (work : Except Status α) : Except Status α :=
  if place.address = 0 then .error .errorArgument else work

def clarkeCall (stationary : Extent) (phase : Abc Q) : Except Status (Ab Q) :=
  withResult stationary (clarke phase)

def inverseClarkeCall (phase : Extent) (stationary : Ab Q) : Except Status (Abc Q) :=
  withResult phase (inverseClarke stationary)

def parkCall (rotating : Extent) (stationary : Ab Q) (angle : Q) : Except Status (Dq Q) :=
  withResult rotating (park stationary angle)

def inverseParkCall (stationary : Extent) (rotating : Dq Q) (angle : Q) : Except Status (Ab Q) :=
  withResult stationary (inversePark rotating angle)

theorem withResult_ok {α : Type} {place : Extent} {work : Except Status α} {result : α}
    (h : withResult place work = .ok result) : work = .ok result := by
  rw [withResult] at h
  split_ifs at h
  exact h

/-! ## Storing -/

/-- The working units of a storage unit. -/
def storageUnit (Q : Type) [FilterFormat Q] : ℤ :=
  2 ^ (31 - (QFormat.qBits Q).toNat)

theorem storageUnit_pos : 0 < storageUnit Q := by
  rw [storageUnit]
  positivity

/-- A full-scale value in storage units. -/
theorem full_scale : (2 : ℤ) ^ (QFormat.qBits Q).toNat * storageUnit Q = 2 ^ 31 := by
  rw [storageUnit, ← pow_add]
  rcases QFormat.qBits_cases (Q := Q) with hbits | hbits <;> rw [hbits] <;> rfl

theorem toInt_load_eq (x : Q) :
    (FilterFormat.load x).toInt = (QFormat.widen x).toInt * storageUnit Q :=
  FilterFormat.toInt_load x

/-- A stored value is within one storage unit, the saturating endpoint included. -/
theorem fcStore_near {x : Int64} {stored : Q} (h : fcStore x = .ok stored) :
    |(FilterFormat.load stored).toInt - x.toInt| ≤ storageUnit Q := by
  have hunit := storageUnit_pos (Q := Q)
  by_cases hrange : |x.toInt| ≤ 2 ^ 31
  · obtain ⟨value, hcall, hvalue⟩ := FilterFormat.exportFixed_ok x (FilterFormat.zero : Q) hrange
    rw [fcStore, hcall] at h
    cases h
    have hround : 2 * |x.toInt - roundAway ((x.toInt : ℚ) / storageUnit Q) * storageUnit Q| ≤
        storageUnit Q := by
      have hunitQ : (0 : ℚ) < storageUnit Q := by exact_mod_cast hunit
      have hhalf := abs_sub_roundAway_le ((x.toInt : ℚ) / storageUnit Q)
      have hscaled : |(x.toInt : ℚ) - roundAway ((x.toInt : ℚ) / storageUnit Q) * storageUnit Q| ≤
          1 / 2 * storageUnit Q := by
        have hsplit : (x.toInt : ℚ) - roundAway ((x.toInt : ℚ) / storageUnit Q) * storageUnit Q =
            (x.toInt / storageUnit Q - roundAway ((x.toInt : ℚ) / storageUnit Q)) *
              storageUnit Q := by
          rw [sub_mul, div_mul_cancel₀ _ hunitQ.ne']
        rw [hsplit, abs_mul, abs_of_pos hunitQ]
        exact mul_le_mul_of_nonneg_right hhalf hunitQ.le
      have hdouble : (2 : ℚ) *
          |(x.toInt : ℚ) - roundAway ((x.toInt : ℚ) / storageUnit Q) * storageUnit Q| ≤
          storageUnit Q := by linarith
      exact_mod_cast hdouble
    have hpower : (2 : ℚ) ^ (31 - (QFormat.qBits Q).toNat) = storageUnit Q := by
      rw [storageUnit]
      push_cast
      rfl
    rw [hpower] at hvalue
    rw [toInt_load_eq, hvalue, endpoint]
    generalize roundAway ((x.toInt : ℚ) / storageUnit Q) = n at hround ⊢
    obtain ⟨hlow, hhigh⟩ := abs_le.mp (show |x.toInt - n * storageUnit Q| ≤ storageUnit Q / 2 by
      omega)
    split_ifs with hend
    · -- the endpoint is stored one unit lower
      have hfull := full_scale (Q := Q)
      rw [hend] at hlow hhigh
      rw [hend, sub_mul, hfull, one_mul, abs_le]
      rw [hfull] at hlow hhigh
      have hx := (abs_le.mp hrange).2
      constructor <;> omega
    · rw [abs_le]
      constructor <;> omega
  · have hcall := FilterFormat.exportFixed_error x (FilterFormat.zero : Q) (not_le.mp hrange)
    rw [fcStore, hcall] at h
    cases h

/-- How far a component may come back, in units of its format. -/
def frameTolerance (Q : Type) [FilterFormat Q] : ℤ :=
  if QFormat.qBits Q = 15 then 3 else 8

/-- A vector that came back. -/
structure BackWithin (v v' : Ab Q) : Prop where
  alpha : |(QFormat.widen v'.alpha).toInt - (QFormat.widen v.alpha).toInt| ≤ frameTolerance Q
  beta : |(QFormat.widen v'.beta).toInt - (QFormat.widen v.beta).toInt| ≤ frameTolerance Q

/-- A value that both calls leave within five halves of a unit, and six, comes back
within the tolerance. -/
theorem within_frameTolerance {x y : Q}
    (h : |((FilterFormat.load x).toInt : ℝ) - (FilterFormat.load y).toInt| ≤
      5 / 2 * storageUnit Q + 6) :
    |(QFormat.widen x).toInt - (QFormat.widen y).toInt| ≤ frameTolerance Q := by
  rw [toInt_load_eq, toInt_load_eq] at h
  have hscaled : 2 * (|(QFormat.widen x).toInt - (QFormat.widen y).toInt| * storageUnit Q) ≤
      5 * storageUnit Q + 12 := by
    have hsplit : (((QFormat.widen x).toInt * storageUnit Q : ℤ) : ℝ) -
        ((QFormat.widen y).toInt * storageUnit Q : ℤ) =
        (((QFormat.widen x).toInt - (QFormat.widen y).toInt : ℤ) : ℝ) * (storageUnit Q : ℤ) := by
      push_cast
      ring
    have hunit : (0 : ℝ) < (storageUnit Q : ℤ) := by exact_mod_cast storageUnit_pos (Q := Q)
    rw [hsplit, abs_mul, abs_of_pos hunit] at h
    have hdouble : 2 * (|(((QFormat.widen x).toInt - (QFormat.widen y).toInt : ℤ) : ℝ)| *
        (storageUnit Q : ℤ)) ≤ 5 * (storageUnit Q : ℤ) + 12 := by linarith
    exact_mod_cast hdouble
  rcases QFormat.qBits_cases (Q := Q) with hbits | hbits
  · have hunit : storageUnit Q = 65536 := by
      rw [storageUnit, hbits]
      rfl
    rw [frameTolerance, if_pos hbits]
    rw [hunit] at hscaled
    omega
  · have hunit : storageUnit Q = 1 := by
      rw [storageUnit, hbits]
      rfl
    have hnarrow : QFormat.qBits Q ≠ 15 := by
      rw [hbits]
      decide
    rw [frameTolerance, if_neg hnarrow]
    rw [hunit] at hscaled
    omega

/-! ## Clarke and back -/

theorem fcStore_near_real {x : Int64} {stored : Q} (h : fcStore x = .ok stored) :
    |((FilterFormat.load stored).toInt : ℝ) - x.toInt| ≤ storageUnit Q := by
  exact_mod_cast fcStore_near h

/-- What the inverse transform leaves of a vector: the first phase, and the other two
within a storage unit and two. -/
structure InverseClarkeNear (v : Ab Q) (phase : Abc Q) : Prop where
  a : FilterFormat.load phase.a = FilterFormat.load v.alpha
  b : |((FilterFormat.load phase.b).toInt : ℝ) -
    (Real.sqrt 3 / 2 * (FilterFormat.load v.beta).toInt -
      (FilterFormat.load v.alpha).toInt / 2)| ≤ storageUnit Q + 2
  c : |((FilterFormat.load phase.c).toInt : ℝ) -
    (-(Real.sqrt 3 / 2 * (FilterFormat.load v.beta).toInt) -
      (FilterFormat.load v.alpha).toInt / 2)| ≤ storageUnit Q + 2

/-- A product by a constant that is close to `factor` in working units. -/
theorem fcqMul_constant {k x c : Int64} {factor : ℝ} (h : fcqMul k x = .ok c)
    (hk : |(k.toInt : ℝ) - 2 ^ 31 * factor| ≤ 1) (hx : |x.toInt| ≤ 2 ^ 31) :
    |(c.toInt : ℝ) - factor * x.toInt| ≤ 3 / 2 := by
  have hnear := fcqMul_near h
  have hxR : |(x.toInt : ℝ)| ≤ 2 ^ 31 := by exact_mod_cast hx
  have hsplit : (c.toInt : ℝ) - factor * x.toInt =
      (c.toInt - k.toInt * x.toInt / 2 ^ 31) +
        (k.toInt - 2 ^ 31 * factor) * (x.toInt / 2 ^ 31) := by ring
  have hsmall : |(k.toInt - 2 ^ 31 * factor) * ((x.toInt : ℝ) / 2 ^ 31)| ≤ 1 * 1 := by
    rw [abs_mul]
    refine mul_le_mul hk ?_ (abs_nonneg _) (by norm_num)
    rw [abs_div, abs_of_pos (show (0 : ℝ) < 2 ^ 31 by norm_num), div_le_one (by norm_num)]
    exact hxR
  rw [hsplit]
  refine (abs_add_le _ _).trans ?_
  linarith

theorem inverseClarke_ok {v : Ab Q} {phase : Abc Q} (h : inverseClarke v = .ok phase) :
    InverseClarkeNear v phase := by
  have hroot : |((1859775394 : Int64).toInt : ℝ) - 2 ^ 31 * (Real.sqrt 3 / 2)| ≤ 1 := by
    have hnear := abs_le.mp pwmRoot3_near
    rw [show pwmRoot3.toInt = 3719550787 from rfl] at hnear
    rw [show (1859775394 : Int64).toInt = 1859775394 from rfl, abs_le]
    push_cast at hnear ⊢
    constructor <;> linarith
  rw [inverseClarke, fcqI_one, ok_bind, fcqI_two, ok_bind, fcqDiv_two, ok_bind, fcqI_three, ok_bind,
    fcqSqrt_three, ok_bind, show fcqMul pwmRoot3 pwmHalf = .ok 1859775394 from rfl, ok_bind,
    fcStore_load, ok_bind] at h
  obtain ⟨rootB, hrootB, h⟩ := ok_of_bind h
  obtain ⟨halfA, hhalfA, h⟩ := ok_of_bind h
  obtain ⟨second, hsecond, h⟩ := ok_of_bind h
  obtain ⟨b, hb, h⟩ := ok_of_bind h
  obtain ⟨sum, hsum, h⟩ := ok_of_bind h
  obtain ⟨third, hthird, h⟩ := ok_of_bind h
  obtain ⟨c, hc, h⟩ := ok_of_bind h
  cases h
  have hproduct := fcqMul_constant hrootB hroot (abs_load_le v.beta)
  have hhalf := fcqMul_near hhalfA
  rw [toInt_pwmHalf] at hhalf
  push_cast at hhalf
  have hsecondR : (second.toInt : ℝ) = rootB.toInt - halfA.toInt := by
    exact_mod_cast fcqSub_ok hsecond
  have hthirdR : (third.toInt : ℝ) = -(halfA.toInt + rootB.toInt) := by
    have hvalue := fcqNeg_ok hthird
    rw [fcqAdd_ok hsum] at hvalue
    exact_mod_cast hvalue
  have hbStored := fcStore_near_real hb
  have hcStored := fcStore_near_real hc
  rw [abs_le] at hproduct hhalf hbStored hcStored
  refine ⟨rfl, ?_, ?_⟩ <;> rw [abs_le] <;> constructor <;> linarith

/-- A quotient by the rounded root. -/
theorem fcqDiv_root3_near {x c : Int64} (h : fcqDiv x pwmRoot3 = .ok c)
    (hx : |x.toInt| ≤ 2 ^ 31) : |(c.toInt : ℝ) - x.toInt / Real.sqrt 3| ≤ 1 := by
  have hnear := fcqDiv_near (show pwmRoot3 ≠ 0 by decide) h
  have hroot := pwmRoot3_near
  have hxR : |(x.toInt : ℝ)| ≤ 2 ^ 31 := by exact_mod_cast hx
  have hthree : (1 : ℝ) ≤ Real.sqrt 3 := Real.one_le_sqrt.mpr (by norm_num)
  have hvalue : (pwmRoot3.toInt : ℝ) = 3719550787 := by
    rw [show pwmRoot3.toInt = 3719550787 from rfl]
    norm_num
  rw [hvalue] at hnear hroot
  have hsplit : (c.toInt : ℝ) - x.toInt / Real.sqrt 3 =
      (c.toInt - x.toInt * 2 ^ 31 / 3719550787) +
        x.toInt / 3719550787 * ((2 ^ 31 * Real.sqrt 3 - 3719550787) / Real.sqrt 3) := by
    field_simp
    ring
  have hfraction : |(x.toInt : ℝ) / 3719550787| ≤ 1 := by
    rw [abs_div, abs_of_pos (show (0 : ℝ) < 3719550787 by norm_num), div_le_one (by norm_num)]
    linarith
  have herror : |(2 ^ 31 * Real.sqrt 3 - 3719550787) / Real.sqrt 3| ≤ 1 / 2 := by
    rw [abs_div, abs_of_pos (show 0 < Real.sqrt 3 by linarith), div_le_iff₀ (by linarith),
      abs_sub_comm]
    linarith
  have hsmall : |(x.toInt : ℝ) / 3719550787 *
      ((2 ^ 31 * Real.sqrt 3 - 3719550787) / Real.sqrt 3)| ≤ 1 * (1 / 2) := by
    rw [abs_mul]
    exact mul_le_mul hfraction herror (abs_nonneg _) (by norm_num)
  rw [hsplit]
  refine (abs_add_le _ _).trans ?_
  linarith

/-- The transform of three phases, within the roundings. -/
theorem clarke_ok {phase : Abc Q} {v : Ab Q} (h : clarke phase = .ok v) :
    |((FilterFormat.load v.alpha).toInt : ℝ) - (2 * (FilterFormat.load phase.a).toInt -
      (FilterFormat.load phase.b).toInt - (FilterFormat.load phase.c).toInt) / 3| ≤
        storageUnit Q + 5 / 2 ∧
    |((FilterFormat.load v.beta).toInt : ℝ) - ((FilterFormat.load phase.b).toInt -
      (FilterFormat.load phase.c).toInt) / Real.sqrt 3| ≤ storageUnit Q + 2 := by
  have hthirds : |((1431655765 : Int64).toInt : ℝ) - 2 ^ 31 * (2 / 3)| ≤ 1 := by
    rw [show (1431655765 : Int64).toInt = 1431655765 from rfl, abs_le]
    norm_num
  rw [clarke, fcqI_two, ok_bind, fcqI_three, ok_bind,
    show fcqDiv 4294967296 6442450944 = .ok 1431655765 from rfl, ok_bind] at h
  obtain ⟨scaled, hscaled, h⟩ := ok_of_bind h
  obtain ⟨thirdB, hthirdB, h⟩ := ok_of_bind h
  obtain ⟨thirdC, hthirdC, h⟩ := ok_of_bind h
  obtain ⟨thirds, hsum, h⟩ := ok_of_bind h
  obtain ⟨alpha, halpha, h⟩ := ok_of_bind h
  rw [fcqSqrt_three, ok_bind] at h
  obtain ⟨rootB, hrootB, h⟩ := ok_of_bind h
  obtain ⟨rootC, hrootC, h⟩ := ok_of_bind h
  obtain ⟨beta, hbeta, h⟩ := ok_of_bind h
  obtain ⟨storedAlpha, hstoredAlpha, h⟩ := ok_of_bind h
  obtain ⟨storedBeta, hstoredBeta, h⟩ := ok_of_bind h
  cases h
  rw [fcqMul_comm] at hscaled
  have hproduct := fcqMul_constant hscaled hthirds (abs_load_le phase.a)
  have hthree : (6442450944 : Int64) ≠ 0 := by decide
  have hb := fcqDiv_near hthree hthirdB
  have hc := fcqDiv_near hthree hthirdC
  rw [show (6442450944 : Int64).toInt = 6442450944 from rfl] at hb hc
  push_cast at hb hc
  have hrb := fcqDiv_root3_near hrootB (abs_load_le phase.b)
  have hrc := fcqDiv_root3_near hrootC (abs_load_le phase.c)
  have halphaR : (alpha.toInt : ℝ) = scaled.toInt - (thirdB.toInt + thirdC.toInt) := by
    have hvalue := fcqSub_ok halpha
    rw [fcqAdd_ok hsum] at hvalue
    exact_mod_cast hvalue
  have hbetaR : (beta.toInt : ℝ) = rootB.toInt - rootC.toInt := by
    exact_mod_cast fcqSub_ok hbeta
  have hsa := fcStore_near_real hstoredAlpha
  have hsb := fcStore_near_real hstoredBeta
  have hlines : ((FilterFormat.load phase.b).toInt - (FilterFormat.load phase.c).toInt : ℝ) /
      Real.sqrt 3 = (FilterFormat.load phase.b).toInt / Real.sqrt 3 -
        (FilterFormat.load phase.c).toInt / Real.sqrt 3 := sub_div _ _ _
  rw [hlines]
  rw [abs_le] at hproduct hb hc hrb hrc hsa hsb
  constructor <;> rw [abs_le] <;> constructor <;> linarith

theorem clarke_round_trip {v v' : Ab Q} {phase : Abc Q} (h : inverseClarke v = .ok phase)
    (h' : clarke phase = .ok v') : BackWithin v v' := by
  obtain ⟨ha, hb, hc⟩ := inverseClarke_ok h
  obtain ⟨halpha, hbeta⟩ := clarke_ok h'
  rw [ha] at halpha
  have hunit : (1 : ℝ) ≤ storageUnit Q := by exact_mod_cast storageUnit_pos (Q := Q)
  have hroot : Real.sqrt 3 * Real.sqrt 3 = 3 := Real.mul_self_sqrt (by norm_num)
  have hpos : 0 < Real.sqrt 3 := by positivity
  have hlow : (17 / 10 : ℝ) ≤ Real.sqrt 3 := by
    apply Real.le_sqrt_of_sq_le
    norm_num
  set b : ℝ := ((FilterFormat.load phase.b).toInt : ℝ)
  set c : ℝ := ((FilterFormat.load phase.c).toInt : ℝ)
  rw [abs_le] at hb hc
  constructor
  · apply within_frameTolerance
    rw [abs_le] at halpha ⊢
    constructor <;> linarith
  · apply within_frameTolerance
    have hlines : |(b - c) / Real.sqrt 3 - (FilterFormat.load v.beta).toInt| ≤
        20 / 17 * (storageUnit Q + 2) := by
      have hsplit : (b - c) / Real.sqrt 3 - (FilterFormat.load v.beta).toInt =
          (b - c - Real.sqrt 3 * (FilterFormat.load v.beta).toInt) / Real.sqrt 3 := by
        field_simp
      rw [hsplit, abs_div, abs_of_pos hpos, div_le_iff₀ hpos]
      have hdouble : |b - c - Real.sqrt 3 * (FilterFormat.load v.beta).toInt| ≤
          2 * (storageUnit Q + 2) := by
        rw [abs_le]
        constructor <;> linarith
      nlinarith
    have hsum := abs_sub_le ((FilterFormat.load v'.beta).toInt : ℝ) ((b - c) / Real.sqrt 3)
      (FilterFormat.load v.beta).toInt
    linarith

/-! ## Park and back -/

/-- A vector of stored components. -/
noncomputable def Ab.planar (v : Ab Q) : ℂ :=
  Fieldctrl.planar (FilterFormat.load v.alpha) (FilterFormat.load v.beta)

noncomputable def Dq.planar (v : Dq Q) : ℂ :=
  Fieldctrl.planar (FilterFormat.load v.d) (FilterFormat.load v.q)

/-- A sum or a difference of two rounded products, stored. -/
theorem stored_products_near {p q w : Int64} {stored : Q} {exact₁ exact₂ : ℝ}
    (hp : |(p.toInt : ℝ) - exact₁| ≤ 1 / 2) (hq : |(q.toInt : ℝ) - exact₂| ≤ 1 / 2)
    (hstore : fcStore w = .ok stored) :
    (w.toInt = p.toInt + q.toInt →
      |((FilterFormat.load stored).toInt : ℝ) - (exact₁ + exact₂)| ≤ storageUnit Q + 1) ∧
    (w.toInt = p.toInt - q.toInt →
      |((FilterFormat.load stored).toInt : ℝ) - (exact₁ - exact₂)| ≤ storageUnit Q + 1) := by
  have hnear := fcStore_near_real hstore
  rw [abs_le] at hp hq hnear
  constructor <;> intro hw
  · have hwR : (w.toInt : ℝ) = p.toInt + q.toInt := by exact_mod_cast hw
    rw [abs_le]
    constructor <;> linarith
  · have hwR : (w.toInt : ℝ) = p.toInt - q.toInt := by exact_mod_cast hw
    rw [abs_le]
    constructor <;> linarith

/-- The rotation into the rotor frame, within the roundings of each part. -/
theorem park_ok {v : Ab Q} {angle : Q} {rotated : Dq Q} (h : park v angle = .ok rotated) :
    ∃ s c, fcqSincos (FilterFormat.load angle) = .ok (s, c) ∧
      ‖rotated.planar - v.planar * (starRingEnd ℂ) (planar c s) / (2 ^ 31 : ℝ)‖ ≤
        3 / 2 * (storageUnit Q + 1) := by
  obtain ⟨⟨s, c⟩, hsincos, h⟩ := ok_of_bind h
  obtain ⟨ac, hac, h⟩ := ok_of_bind h
  obtain ⟨bs, hbs, h⟩ := ok_of_bind h
  obtain ⟨d, hd, h⟩ := ok_of_bind h
  obtain ⟨storedD, hstoredD, h⟩ := ok_of_bind h
  obtain ⟨bc, hbc, h⟩ := ok_of_bind h
  obtain ⟨as, has, h⟩ := ok_of_bind h
  obtain ⟨q, hq, h⟩ := ok_of_bind h
  obtain ⟨storedQ, hstoredQ, h⟩ := ok_of_bind h
  cases h
  have hre := (stored_products_near (fcqMul_near hac) (fcqMul_near hbs) hstoredD).1 (fcqAdd_ok hd)
  have him := (stored_products_near (fcqMul_near hbc) (fcqMul_near has) hstoredQ).2 (fcqSub_ok hq)
  refine ⟨s, c, hsincos, norm_le_of_abs_parts ?_ ?_⟩
  · rw [Complex.sub_re, Complex.div_ofReal_re, Complex.mul_re, Complex.conj_re, Complex.conj_im,
      Dq.planar, Ab.planar, planar_re, planar_re, planar_re, planar_im, planar_im]
    rwa [mul_neg, sub_neg_eq_add, add_div]
  · rw [Complex.sub_im, Complex.div_ofReal_im, Complex.mul_im, Complex.conj_re, Complex.conj_im,
      Dq.planar, Ab.planar, planar_im, planar_im, planar_im, planar_re, planar_re]
    rwa [mul_neg, neg_add_eq_sub, sub_div]

/-- The rotation back, each part within its own roundings. -/
theorem inversePark_ok {v : Dq Q} {angle : Q} {turned : Ab Q}
    (h : inversePark v angle = .ok turned) :
    ∃ s c, fcqSincos (FilterFormat.load angle) = .ok (s, c) ∧
      |(turned.planar - v.planar * planar c s / (2 ^ 31 : ℝ)).re| ≤ storageUnit Q + 1 ∧
      |(turned.planar - v.planar * planar c s / (2 ^ 31 : ℝ)).im| ≤ storageUnit Q + 1 := by
  obtain ⟨⟨s, c⟩, hsincos, h⟩ := ok_of_bind h
  obtain ⟨dc, hdc, h⟩ := ok_of_bind h
  obtain ⟨qs, hqs, h⟩ := ok_of_bind h
  obtain ⟨alpha, halpha, h⟩ := ok_of_bind h
  obtain ⟨storedAlpha, hstoredAlpha, h⟩ := ok_of_bind h
  obtain ⟨ds, hds, h⟩ := ok_of_bind h
  obtain ⟨qc, hqc, h⟩ := ok_of_bind h
  obtain ⟨beta, hbeta, h⟩ := ok_of_bind h
  obtain ⟨storedBeta, hstoredBeta, h⟩ := ok_of_bind h
  cases h
  have hre := (stored_products_near (fcqMul_near hdc) (fcqMul_near hqs) hstoredAlpha).2
    (fcqSub_ok halpha)
  have him := (stored_products_near (fcqMul_near hds) (fcqMul_near hqc) hstoredBeta).1
    (fcqAdd_ok hbeta)
  refine ⟨s, c, hsincos, ?_, ?_⟩
  · rw [Complex.sub_re, Complex.div_ofReal_re, Complex.mul_re, Dq.planar, Ab.planar, planar_re,
      planar_re, planar_re, planar_im, planar_im]
    rwa [sub_div]
  · rw [Complex.sub_im, Complex.div_ofReal_im, Complex.mul_im, Dq.planar, Ab.planar, planar_im,
      planar_im, planar_im, planar_re, planar_re]
    rwa [add_div]

/-- A vector turned by `w` over `n` and back by its conjugate: the error of the first
turn is turned too, and the length of `w` counts twice. -/
theorem turned_back {n e : ℝ} (hn : 2 ≤ n) {v r w : ℂ} (hw : |‖w‖ - n| ≤ 1) (hv : ‖v‖ ≤ 3 / 2 * n)
    (hr : ‖r - v * (starRingEnd ℂ) w / n‖ ≤ e) :
    ‖r * w / n - v‖ ≤ e * (1 + 1 / n) + 3 + 3 / 2 / n := by
  have hnpos : 0 < n := by linarith
  have hne : (n : ℂ) ≠ 0 := Complex.ofReal_ne_zero.mpr hnpos.ne'
  have hnorm : ‖(n : ℂ)‖ = n := by rw [Complex.norm_real, Real.norm_of_nonneg hnpos.le]
  have hwle : ‖w‖ ≤ n + 1 := by linarith [(abs_le.mp hw).2]
  have hturn : (starRingEnd ℂ) w * w = ((‖w‖ ^ 2 : ℝ) : ℂ) := by
    rw [mul_comm, Complex.mul_conj, Complex.normSq_eq_norm_sq]
  have hsplit : r * w / n - v = (r - v * (starRingEnd ℂ) w / n) * w / n +
      v * (((‖w‖ ^ 2 - n ^ 2) / n ^ 2 : ℝ) : ℂ) := by
    have hsquare : (((‖w‖ ^ 2 - n ^ 2) / n ^ 2 : ℝ) : ℂ) =
        ((starRingEnd ℂ) w * w - (n : ℂ) ^ 2) / (n : ℂ) ^ 2 := by
      rw [hturn]
      push_cast
      rfl
    rw [hsquare]
    field_simp
    ring
  have hfirst : ‖(r - v * (starRingEnd ℂ) w / n) * w / n‖ ≤ e * (1 + 1 / n) := by
    rw [norm_div, norm_mul, hnorm, mul_div_assoc]
    refine mul_le_mul hr ?_ (by positivity) ((norm_nonneg _).trans hr)
    rw [div_le_iff₀ hnpos]
    have hone : (1 + 1 / n) * n = n + 1 := by field_simp
    linarith
  have hsecond : ‖v * (((‖w‖ ^ 2 - n ^ 2) / n ^ 2 : ℝ) : ℂ)‖ ≤ 3 + 3 / 2 / n := by
    have hfactor : |(‖w‖ ^ 2 - n ^ 2) / n ^ 2| ≤ (2 * n + 1) / n ^ 2 := by
      rw [abs_div, abs_of_pos (show 0 < n ^ 2 by positivity)]
      have hproduct : |‖w‖ ^ 2 - n ^ 2| ≤ 1 * (2 * n + 1) := by
        rw [show ‖w‖ ^ 2 - n ^ 2 = (‖w‖ - n) * (‖w‖ + n) by ring, abs_mul]
        refine mul_le_mul hw ?_ (abs_nonneg _) (by norm_num)
        rw [abs_of_nonneg (by positivity)]
        linarith
      gcongr
      linarith
    rw [norm_mul, Complex.norm_real, Real.norm_eq_abs]
    calc ‖v‖ * |(‖w‖ ^ 2 - n ^ 2) / n ^ 2| ≤ 3 / 2 * n * ((2 * n + 1) / n ^ 2) := by gcongr
      _ = 3 + 3 / 2 / n := by field_simp
  rw [hsplit]
  refine (norm_add_le _ _).trans ?_
  linarith

/-- A vector of full-scale components is at most three halves of full scale long. -/
theorem Ab.norm_planar_le (v : Ab Q) : ‖v.planar‖ ≤ 3 / 2 * 2 ^ 31 := by
  apply norm_le_of_abs_parts
  · rw [Ab.planar, planar_re]
    exact_mod_cast abs_load_le v.alpha
  · rw [Ab.planar, planar_im]
    exact_mod_cast abs_load_le v.beta

theorem park_round_trip {v v' : Ab Q} {angle : Q} {rotated : Dq Q}
    (h : park v angle = .ok rotated) (h' : inversePark rotated angle = .ok v') :
    BackWithin v v' := by
  obtain ⟨s, c, hsincos, hforward⟩ := park_ok h
  obtain ⟨s', c', hsincos', hre, him⟩ := inversePark_ok h'
  -- both calls compute the same sine and cosine
  rw [hsincos] at hsincos'
  cases hsincos'
  have hunit : (1 : ℝ) ≤ storageUnit Q ∧ (storageUnit Q : ℝ) ≤ 65536 := by
    refine ⟨by exact_mod_cast storageUnit_pos (Q := Q), ?_⟩
    have hle : storageUnit Q ≤ 65536 := by
      rw [storageUnit]
      rcases QFormat.qBits_cases (Q := Q) with hbits | hbits <;> rw [hbits] <;> decide
    exact_mod_cast hle
  have hback : ‖rotated.planar * planar c s / (2 ^ 31 : ℝ) - v.planar‖ ≤
      3 / 2 * storageUnit Q + 5 := by
    refine (turned_back (by norm_num) (fcqSincos_length hsincos) v.norm_planar_le hforward).trans ?_
    norm_num
    linarith
  have hsplit : v'.planar - v.planar = (v'.planar - rotated.planar * planar c s / (2 ^ 31 : ℝ)) +
      (rotated.planar * planar c s / (2 ^ 31 : ℝ) - v.planar) := by ring
  constructor
  · apply within_frameTolerance
    have hpart : |(v'.planar - v.planar).re| ≤
        (storageUnit Q + 1) + (3 / 2 * storageUnit Q + 5) := by
      rw [hsplit, Complex.add_re]
      exact (abs_add_le _ _).trans (add_le_add hre ((Complex.abs_re_le_norm _).trans hback))
    rw [Complex.sub_re, Ab.planar, Ab.planar, planar_re, planar_re] at hpart
    linarith
  · apply within_frameTolerance
    have hpart : |(v'.planar - v.planar).im| ≤
        (storageUnit Q + 1) + (3 / 2 * storageUnit Q + 5) := by
      rw [hsplit, Complex.add_im]
      exact (abs_add_le _ _).trans (add_le_add him ((Complex.abs_im_le_norm _).trans hback))
    rw [Complex.sub_im, Ab.planar, Ab.planar, planar_im, planar_im] at hpart
    linarith

/-- Both pairs of calls return the vector within eight units of q31 and three of q15. -/
theorem frame_round_trips (v : Ab Q) :
    (∀ place place' phase v', inverseClarkeCall place v = .ok phase →
      clarkeCall place' phase = .ok v' → BackWithin v v') ∧
    ∀ place place' angle rotated v', parkCall place v angle = .ok rotated →
      inverseParkCall place' rotated angle = .ok v' → BackWithin v v' :=
  ⟨fun _ _ _ _ h h' => clarke_round_trip (withResult_ok h) (withResult_ok h'),
    fun _ _ _ _ _ h h' => park_round_trip (withResult_ok h) (withResult_ok h')⟩

theorem frame_round_trips_q15 :
    clarke (⟨16384, -15286, -1098⟩ : Abc Int16) = .ok ⟨16384, -8191⟩ ∧
      BackWithin (⟨16384, -8192⟩ : Ab Int16) ⟨16384, -8191⟩ ∧
      park (⟨16384, -8192⟩ : Ab Int16) 8192 = .ok ⟨-8192, -16384⟩ ∧
      BackWithin (⟨16384, -8192⟩ : Ab Int16) ⟨16384, -8192⟩ := by
  obtain ⟨hclarke, hpark⟩ := frame_round_trips (⟨16384, -8192⟩ : Ab Int16)
  exact ⟨rfl, hclarke ⟨4096, 6⟩ ⟨4104, 4⟩ ⟨16384, -15286, -1098⟩ _ rfl rfl, rfl,
    hpark ⟨4096, 4⟩ ⟨4104, 4⟩ 8192 ⟨-8192, -16384⟩ _ rfl rfl⟩

end Xhive.Fieldctrl
