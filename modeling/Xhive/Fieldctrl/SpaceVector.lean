import Xhive.Fieldctrl.VoltageLimit

/-!
# The space-vector modulator

`base_pwm` works in units of the bus, limits the vector to `1/sqrt(3)` and shifts
its three phases by their common mode.  In exact arithmetic that gives duties of
`[0, 1]`; the computed duties are within sixteen units of them, so that the final
clamp moves them no further.
-/

namespace Xhive.Fieldctrl

open Xhive.Support Xhive.Linears Xhive.Filters

/-! ## The exact modulator -/

/-- The phase components of a vector. -/
noncomputable def phaseVoltages (z : ℂ) : Abc ℝ where
  a := z.re
  b := (Real.sqrt (3 : ℕ) * z.im - z.re) / (2 : ℕ)
  c := -(z.re + Real.sqrt (3 : ℕ) * z.im) / (2 : ℕ)

theorem phaseVoltages_eq (z : ℂ) :
    phaseVoltages z =
      ⟨z.re, (Real.sqrt 3 * z.im - z.re) / 2, -(z.re + Real.sqrt 3 * z.im) / 2⟩ := by
  rw [phaseVoltages, Nat.cast_ofNat, Nat.cast_ofNat]

/-- The middle between the least and the greatest phase. -/
noncomputable def Abc.middle (v : Abc ℝ) : ℝ :=
  (min (min v.a v.b) v.c + max (max v.a v.b) v.c) / (2 : ℕ)

theorem Abc.middle_eq (v : Abc ℝ) :
    v.middle = (min (min v.a v.b) v.c + max (max v.a v.b) v.c) / 2 := by
  rw [middle, Nat.cast_ofNat]

/-- The phases about the middle of the bus. -/
noncomputable def dutiesOf (v : Abc ℝ) : Abc ℝ where
  a := 1 / (2 : ℕ) + v.a - v.middle
  b := 1 / (2 : ℕ) + v.b - v.middle
  c := 1 / (2 : ℕ) + v.c - v.middle

/-- The duties of a vector in units of the bus: limited to `1/sqrt(3)`, and shifted by
the common mode. -/
noncomputable def exactDuties (z : ℂ) : Abc ℝ :=
  dutiesOf (phaseVoltages (radial (1 / Real.sqrt (3 : ℕ)) z))

/-- `P` of each phase. -/
structure Abc.Each {V W : Type} (P : V → W → Prop) (v : Abc V) (w : Abc W) : Prop where
  a : P v.a w.a
  b : P v.b w.b
  c : P v.c w.c

/-- No phase is further from its counterpart than the vectors are. -/
theorem phaseVoltages_near (z w : ℂ) :
    Abc.Each (fun x y => |x - y| ≤ ‖z - w‖) (phaseVoltages z) (phaseVoltages w) := by
  have hroot : Real.sqrt 3 * Real.sqrt 3 = 3 := Real.mul_self_sqrt (by norm_num)
  have hnorm : ‖z - w‖ ^ 2 = (z.re - w.re) ^ 2 + (z.im - w.im) ^ 2 := by
    rw [Complex.sq_norm, Complex.normSq_apply, Complex.sub_re, Complex.sub_im]
    ring
  rw [phaseVoltages_eq, phaseVoltages_eq]
  refine ⟨?_, ?_, ?_⟩ <;> refine abs_le_of_sq_le_sq ?_ (norm_nonneg _) <;> rw [hnorm]
  · nlinarith [sq_nonneg (z.im - w.im)]
  · nlinarith [sq_nonneg (Real.sqrt 3 * (z.re - w.re) + (z.im - w.im))]
  · nlinarith [sq_nonneg (Real.sqrt 3 * (z.re - w.re) - (z.im - w.im))]

/-- The phases in other units. -/
noncomputable def Abc.scale (c : ℝ) (v : Abc ℝ) : Abc ℝ :=
  ⟨c * v.a, c * v.b, c * v.c⟩

theorem phaseVoltages_smul (c : ℝ) (z : ℂ) :
    phaseVoltages (c • z) = (phaseVoltages z).scale c := by
  rw [phaseVoltages_eq, phaseVoltages_eq, Abc.scale, Complex.smul_re, Complex.smul_im, smul_eq_mul,
    smul_eq_mul, Abc.mk.injEq]
  refine ⟨rfl, ?_, ?_⟩ <;> ring

theorem Abc.middle_scale {c : ℝ} (hc : 0 ≤ c) (v : Abc ℝ) :
    (v.scale c).middle = c * v.middle := by
  rw [middle_eq, middle_eq, scale, ← mul_min_of_nonneg _ _ hc, ← mul_min_of_nonneg _ _ hc,
    ← mul_max_of_nonneg _ _ hc, ← mul_max_of_nonneg _ _ hc]
  ring

theorem Abc.Each.trans_near {δ ε : ℝ} {u v w : Abc ℝ}
    (h : Abc.Each (fun x y => |x - y| ≤ δ) u v) (h' : Abc.Each (fun x y => |x - y| ≤ ε) v w) :
    Abc.Each (fun x y => |x - y| ≤ δ + ε) u w :=
  ⟨(abs_sub_le _ _ _).trans (add_le_add h.a h'.a), (abs_sub_le _ _ _).trans (add_le_add h.b h'.b),
    (abs_sub_le _ _ _).trans (add_le_add h.c h'.c)⟩

theorem middle_near {δ : ℝ} {v w : Abc ℝ} (h : Abc.Each (fun x y => |x - y| ≤ δ) v w) :
    |v.middle - w.middle| ≤ δ := by
  have hmin : |min (min v.a v.b) v.c - min (min w.a w.b) w.c| ≤ δ :=
    (abs_min_sub_min_le_max _ _ _ _).trans
      (max_le ((abs_min_sub_min_le_max _ _ _ _).trans (max_le h.a h.b)) h.c)
  have hmax : |max (max v.a v.b) v.c - max (max w.a w.b) w.c| ≤ δ :=
    (abs_max_sub_max_le_max _ _ _ _).trans
      (max_le ((abs_max_sub_max_le_max _ _ _ _).trans (max_le h.a h.b)) h.c)
  rw [Abc.middle_eq, Abc.middle_eq]
  rw [abs_le] at hmin hmax ⊢
  constructor <;> linarith

/-- The phases of a vector on the disc differ by at most one. -/
theorem phaseVoltages_spread {z : ℂ} (hz : ‖z‖ ≤ 1 / Real.sqrt 3) {x y : ℝ}
    (hx : x = (phaseVoltages z).a ∨ x = (phaseVoltages z).b ∨ x = (phaseVoltages z).c)
    (hy : y = (phaseVoltages z).a ∨ y = (phaseVoltages z).b ∨ y = (phaseVoltages z).c) :
    x - y ≤ 1 := by
  have hroot : Real.sqrt 3 * Real.sqrt 3 = 3 := Real.mul_self_sqrt (by norm_num)
  have hpos : 0 < Real.sqrt 3 := Real.sqrt_pos.mpr (by norm_num)
  have hdisc : z.re ^ 2 + z.im ^ 2 ≤ 1 / 3 := by
    have hsq : ‖z‖ ^ 2 = z.re ^ 2 + z.im ^ 2 := by
      rw [Complex.sq_norm, Complex.normSq_apply]
      ring
    rw [← hsq]
    calc ‖z‖ ^ 2 ≤ (1 / Real.sqrt 3) ^ 2 := by gcongr
      _ = 1 / 3 := by rw [div_pow, one_pow, Real.sq_sqrt (by norm_num)]
  rw [phaseVoltages_eq] at hx hy
  have hsquare : (x - y) ^ 2 ≤ 1 := by
    rcases hx with rfl | rfl | rfl <;> rcases hy with rfl | rfl | rfl <;>
      nlinarith [sq_nonneg (z.re + Real.sqrt 3 * z.im), sq_nonneg (z.re - Real.sqrt 3 * z.im),
        sq_nonneg z.re, sq_nonneg z.im]
  exact (abs_le.mp ((sq_le_one_iff_abs_le_one _).mp hsquare)).2

/-- Exact duties lie in `[0, 1]`. -/
theorem exactDuties_range (z : ℂ) :
    Abc.Each (fun x (_ : ℝ) => 0 ≤ x ∧ x ≤ 1) (exactDuties z) (exactDuties z) := by
  have hpos : 0 < 1 / Real.sqrt 3 := by positivity
  have hspread := fun {x y : ℝ} => phaseVoltages_spread (x := x) (y := y) (norm_radial_le hpos z)
  rw [exactDuties, Nat.cast_ofNat]
  generalize phaseVoltages (radial (1 / Real.sqrt 3) z) = v at hspread ⊢
  have hbelow : ∀ x, x = v.a ∨ x = v.b ∨ x = v.c → x ≤ 1 + min (min v.a v.b) v.c := by
    intro x hx
    have hlow : x - 1 ≤ min (min v.a v.b) v.c :=
      le_min (le_min (by linarith [hspread hx (.inl rfl)])
        (by linarith [hspread hx (.inr (.inl rfl))])) (by linarith [hspread hx (.inr (.inr rfl))])
    linarith
  have hwidth : max (max v.a v.b) v.c ≤ 1 + min (min v.a v.b) v.c :=
    max_le (max_le (hbelow _ (.inl rfl)) (hbelow _ (.inr (.inl rfl)))) (hbelow _ (.inr (.inr rfl)))
  have hduty : ∀ x, min (min v.a v.b) v.c ≤ x → x ≤ max (max v.a v.b) v.c →
      0 ≤ 1 / ((2 : ℕ) : ℝ) + x - v.middle ∧ 1 / ((2 : ℕ) : ℝ) + x - v.middle ≤ 1 := by
    intro x hlow hhigh
    rw [Abc.middle_eq, Nat.cast_ofNat]
    constructor <;> linarith
  refine ⟨hduty v.a ?_ ?_, hduty v.b ?_ ?_, hduty v.c ?_ ?_⟩
  · exact (min_le_left _ _).trans (min_le_left _ _)
  · exact (le_max_left _ _).trans (le_max_left _ _)
  · exact (min_le_left _ _).trans (min_le_right _ _)
  · exact (le_max_right _ _).trans (le_max_left _ _)
  · exact min_le_right _ _
  · exact le_max_right _ _

/-! ## The computed modulator -/

/-- `sqrt(3)`, `1/sqrt(3)` and one half. -/
def pwmRoot3 : Int64 := 3719550787
def pwmLimit : Int64 := 1239850262
def pwmHalf : Int64 := 1073741824

theorem fcqI_three : fcqI 3 = .ok 6442450944 := rfl
theorem fcqSqrt_three : fcqSqrt 6442450944 = .ok pwmRoot3 := rfl
theorem fcqI_one : fcqI 1 = .ok fixedOne := rfl
theorem fcqI_two : fcqI 2 = .ok 4294967296 := rfl
theorem fcqI_zero : fcqI 0 = .ok 0 := rfl
theorem fcqDiv_root3 : fcqDiv fixedOne pwmRoot3 = .ok pwmLimit := rfl
theorem fcqDiv_two : fcqDiv fixedOne 4294967296 = .ok pwmHalf := rfl
def pwmVector (a b bus limit : Int64) : Except Status (Int64 × Int64) := do
  let aa ← fcqAbs a
  let bb ← fcqAbs b
  let larger := if fcqCmp aa bb > 0 then aa else bb
  let scale := if fcqCmp larger bus < 0 then bus else larger
  let a ← fcqDiv a scale
  let b ← fcqDiv b scale
  baseLimit a b limit

def pwmPhases (root3 half : Int64) (v : Int64 × Int64) : Except Status (Abc Int64) := do
  let rootB ← fcqMul root3 v.2
  let difference ← fcqSub rootB v.1
  let q ← fcqMul half difference
  let sum ← fcqAdd v.1 rootB
  let opposite ← fcqNeg sum
  let r ← fcqMul half opposite
  .ok ⟨v.1, q, r⟩

def pwmOffset (half : Int64) (phase : Abc Int64) : Except Status Int64 := do
  let lo := if fcqCmp phase.a phase.b < 0 then phase.a else phase.b
  let lo := if fcqCmp lo phase.c < 0 then lo else phase.c
  let hi := if fcqCmp phase.a phase.b > 0 then phase.a else phase.b
  let hi := if fcqCmp hi phase.c > 0 then hi else phase.c
  let ends ← fcqAdd lo hi
  fcqMul half ends

def pwmCommands (a b bus : Int64) : Except Status (Abc Int64) := do
  let v ← pwmVector a b bus pwmLimit
  let phase ← pwmPhases pwmRoot3 pwmHalf v
  let offset ← pwmOffset pwmHalf phase
  let p ← centre pwmHalf offset phase.a
  let q ← centre pwmHalf offset phase.b
  let r ← centre pwmHalf offset phase.c
  .ok ⟨p, q, r⟩

def storeDuties {Q : Type} [FilterFormat Q] (command : Abc Int64) : Except Status (Abc Q) := do
  let a ← fcStore (baseClamp command.a 0 fixedOne)
  let b ← fcStore (baseClamp command.b 0 fixedOne)
  let c ← fcStore (baseClamp command.c 0 fixedOne)
  .ok ⟨a, b, c⟩

theorem basePwm_eq {Q : Type} [FilterFormat Q] (a b bus : Int64) :
    (basePwm a b bus : Except Status (Abc Q)) = pwmCommands a b bus >>= storeDuties := by
  simp only [basePwm, fcqI_three, fcqSqrt_three, fcqI_one, fcqI_two, fcqI_zero, fcqDiv_root3,
    fcqDiv_two, ok_bind, pwmCommands, pwmVector, pwmPhases, pwmOffset, storeDuties, bind_assoc]
/-! ### The stages -/

/-- The least of two words, and the greatest. -/
theorem toInt_lesser (x y : Int64) :
    (if fcqCmp x y < 0 then x else y).toInt = min x.toInt y.toInt := by
  simp only [fcqCmp_lt]
  split
  · exact (min_eq_left (le_of_lt ‹_›)).symm
  · exact (min_eq_right (not_lt.mp ‹_›)).symm

theorem toInt_greater (x y : Int64) :
    (if fcqCmp x y > 0 then x else y).toInt = max x.toInt y.toInt := by
  simp only [gt_iff_lt, fcqCmp_gt]
  split
  · exact (max_eq_left (le_of_lt ‹_›)).symm
  · exact (max_eq_right (not_lt.mp ‹_›)).symm

/-- The radius of the limiter, in working units. -/
theorem pwmLimit_near : |(pwmLimit.toInt : ℝ) - 2 ^ 31 * (1 / Real.sqrt 3)| ≤ 1 / 2 := by
  have hlow : (17320508075 / 10000000000 : ℝ) ≤ Real.sqrt 3 := by
    apply Real.le_sqrt_of_sq_le
    norm_num
  have hhigh : Real.sqrt 3 ≤ 17320508076 / 10000000000 := by
    rw [Real.sqrt_le_left (by norm_num)]
    norm_num
  have hpos : 0 < Real.sqrt 3 := by linarith
  rw [show pwmLimit.toInt = 1239850262 from rfl, mul_one_div, abs_le]
  push_cast
  constructor
  · rw [neg_le_sub_iff_le_add, div_le_iff₀ hpos]
    linarith
  · rw [sub_le_iff_le_add', ← sub_le_iff_le_add, le_div_iff₀ hpos]
    linarith

theorem pwmRoot3_near : |(pwmRoot3.toInt : ℝ) - 2 ^ 31 * Real.sqrt 3| ≤ 1 / 2 := by
  have hlow : (173205080756 / 100000000000 : ℝ) ≤ Real.sqrt 3 := by
    apply Real.le_sqrt_of_sq_le
    norm_num
  have hhigh : Real.sqrt 3 ≤ 173205080757 / 100000000000 := by
    rw [Real.sqrt_le_left (by norm_num)]
    norm_num
  rw [show pwmRoot3.toInt = 3719550787 from rfl, abs_le]
  push_cast
  constructor <;> linarith

theorem toInt_atLeast (x y : Int64) :
    (if fcqCmp x y < 0 then y else x).toInt = max x.toInt y.toInt := by
  simp only [fcqCmp_lt]
  split
  · exact (max_eq_right (le_of_lt ‹_›)).symm
  · exact (max_eq_left (not_lt.mp ‹_›)).symm

/-- A component above the bus puts the vector beyond the limit, where only its
direction counts. -/
theorem radial_scaled {a b : Int64} {scale bus : ℤ} (hbus : 0 < bus) (hle : bus ≤ scale)
    (hscale : scale = bus ∨ scale = |a.toInt| ∨ scale = |b.toInt|) :
    radial (1 / Real.sqrt 3) ((1 / (scale : ℝ)) • planar a b) =
      radial (1 / Real.sqrt 3) ((1 / (bus : ℝ)) • planar a b) := by
  have hbusR : (0 : ℝ) < bus := by exact_mod_cast hbus
  have hleR : (bus : ℝ) ≤ scale := by exact_mod_cast hle
  have hscaleR : (0 : ℝ) < scale := hbusR.trans_le hleR
  rcases hscale with rfl | hcomponent
  · rfl
  · have hlength : (scale : ℝ) ≤ ‖planar a b‖ := by
      rcases hcomponent with rfl | rfl
      · simpa [planar] using Complex.abs_re_le_norm (planar a b)
      · simpa [planar] using Complex.abs_im_le_norm (planar a b)
    have hlong : 1 / Real.sqrt 3 ≤ ‖(1 / (scale : ℝ)) • planar a b‖ := by
      have hone : 1 ≤ ‖(1 / (scale : ℝ)) • planar a b‖ := by
        rw [norm_smul, Real.norm_of_nonneg (by positivity), one_div_mul_eq_div,
          le_div_iff₀ hscaleR, one_mul]
        exact hlength
      refine le_trans ?_ hone
      rw [div_le_one (by positivity)]
      exact Real.one_le_sqrt.mpr (by norm_num)
    have hsplit : (1 / (bus : ℝ)) • planar a b =
        ((scale : ℝ) / bus) • ((1 / (scale : ℝ)) • planar a b) := by
      rw [smul_smul]
      congr 1
      field_simp
    rw [hsplit, radial_smul (by positivity) ((one_le_div hbusR).mpr hleR) hlong]

/-- A vector of two components in `[-1, 1]` and a positive bus: the limited vector in
units of the bus is five units from the exact one at most. -/
theorem pwmVector_ok {a b bus : Int64} (ha : |a.toInt| ≤ 2 ^ 31) (hb : |b.toInt| ≤ 2 ^ 31)
    (hbus : 0 < bus.toInt) :
    ∃ v, pwmVector a b bus pwmLimit = .ok v ∧ |v.1.toInt| ≤ 2 ^ 31 ∧ |v.2.toInt| ≤ 2 ^ 31 ∧
      ‖planar v.1 v.2 -
        (2 ^ 31 : ℝ) • radial (1 / Real.sqrt 3) ((1 / (bus.toInt : ℝ)) • planar a b)‖ ≤ 5 := by
  have hne : ∀ {x : Int64}, |x.toInt| ≤ 2 ^ 31 → x ≠ Int64.minValue := by
    rintro x hx rfl
    exact absurd hx (by decide)
  obtain ⟨aa, haa, haaValue⟩ := fcqAbs_total (hne ha)
  obtain ⟨bb, hbb, hbbValue⟩ := fcqAbs_total (hne hb)
  rw [pwmVector, haa, ok_bind, hbb, ok_bind]
  extract_lets larger scale
  have hscale : scale.toInt = max (max |a.toInt| |b.toInt|) bus.toInt := by
    rw [← haaValue, ← hbbValue, ← toInt_greater]
    exact toInt_atLeast larger bus
  have hcases : scale.toInt = bus.toInt ∨ scale.toInt = |a.toInt| ∨ scale.toInt = |b.toInt| := by
    rcases max_choice (max |a.toInt| |b.toInt|) bus.toInt with h | h
    · rcases max_choice |a.toInt| |b.toInt| with h' | h'
      · exact .inr (.inl (by rw [hscale, h, h']))
      · exact .inr (.inr (by rw [hscale, h, h']))
    · exact .inl (by rw [hscale, h])
  have haLe : |a.toInt| ≤ scale.toInt := by
    rw [hscale]
    exact (le_max_left _ _).trans (le_max_left _ _)
  have hbLe : |b.toInt| ≤ scale.toInt := by
    rw [hscale]
    exact (le_max_right _ _).trans (le_max_left _ _)
  have hbusLe : bus.toInt ≤ scale.toInt := by
    rw [hscale]
    exact le_max_right _ _
  clear_value scale
  have hpos : 0 < scale.toInt := hbus.trans_le hbusLe
  have hscaleNe : scale ≠ 0 := by
    rintro rfl
    exact absurd hpos (by decide)
  have hquotient : ∀ {x : Int64}, |x.toInt| ≤ scale.toInt →
      |x.toInt| * 2 ^ 31 ≤ 2 ^ 31 * |scale.toInt| := by
    intro x hx
    rw [abs_of_pos hpos, mul_comm]
    exact mul_le_mul_of_nonneg_left hx (by norm_num)
  obtain ⟨a₁, ha₁, ha₁Le⟩ := fcqDiv_total hscaleNe (hquotient haLe) (by norm_num)
  obtain ⟨b₁, hb₁, hb₁Le⟩ := fcqDiv_total hscaleNe (hquotient hbLe) (by norm_num)
  obtain ⟨magnitude, a₂, b₂, hmagnitude, hbase, hlimited⟩ :=
    baseLimit_ok (show 0 ≤ pwmLimit.toInt by decide) ha₁Le hb₁Le
  refine ⟨(a₂, b₂), ?_, hlimited.alpha.magnitude.trans ha₁Le,
    hlimited.beta.magnitude.trans hb₁Le, ?_⟩
  · rw [ha₁, ok_bind, hb₁, ok_bind]
    exact hbase
  · have hstart : ‖planar a₁ b₁ - (2 ^ 31 : ℝ) • ((1 / (scale.toInt : ℝ)) • planar a b)‖ ≤
        3 / 4 := by
      have hre := fcqDiv_near hscaleNe ha₁
      have him := fcqDiv_near hscaleNe hb₁
      apply norm_le_of_parts
      · rw [Complex.sub_re, Complex.smul_re, Complex.smul_re, planar_re, planar_re, smul_eq_mul,
          smul_eq_mul]
        convert hre using 3
        ring
      · rw [Complex.sub_im, Complex.smul_im, Complex.smul_im, planar_im, planar_im, smul_eq_mul,
          smul_eq_mul]
        convert him using 3
        ring
    have hR : (0 : ℝ) < 2 ^ 31 * (1 / Real.sqrt 3) := by positivity
    have hfirst := hlimited.near_radial hmagnitude (by decide) ha₁Le hb₁Le hR pwmLimit_near
    have hsecond := norm_radial_sub_radial_le hR (planar a₁ b₁)
      ((2 ^ 31 : ℝ) • ((1 / (scale.toInt : ℝ)) • planar a b))
    rw [radial_units (by norm_num), radial_scaled hbus hbusLe hcases] at hsecond
    have hsum := norm_sub_le_norm_sub_add_norm_sub (planar a₂ b₂)
      (radial (2 ^ 31 * (1 / Real.sqrt 3)) (planar a₁ b₁))
      ((2 ^ 31 : ℝ) • radial (1 / Real.sqrt 3) ((1 / (bus.toInt : ℝ)) • planar a b))
    linarith

/-- The values of three words. -/
noncomputable def Abc.toReal (v : Abc Int64) : Abc ℝ :=
  ⟨v.a.toInt, v.b.toInt, v.c.toInt⟩

theorem toInt_pwmHalf : pwmHalf.toInt = 2 ^ 30 := rfl

/-- The phases are computed within one unit. -/
theorem pwmPhases_ok {v : Int64 × Int64} (hfirst : |v.1.toInt| ≤ 2 ^ 31)
    (hsecond : |v.2.toInt| ≤ 2 ^ 31) :
    ∃ p, pwmPhases pwmRoot3 pwmHalf v = .ok p ∧
      (|p.a.toInt| ≤ 2 ^ 32 ∧ |p.b.toInt| ≤ 2 ^ 32 ∧ |p.c.toInt| ≤ 2 ^ 32) ∧
      Abc.Each (fun x y => |x - y| ≤ 1) p.toReal (phaseVoltages (planar v.1 v.2)) := by
  have hroot : pwmRoot3.toInt = 3719550787 := rfl
  obtain ⟨rootB, hrootB, hrootBLe⟩ := fcqMul_total (a := pwmRoot3) (b := v.2) (n := 3719550787)
    (by rw [abs_mul, hroot]; exact mul_le_mul_of_nonneg_left hsecond (by norm_num)) (by norm_num)
  rw [abs_le] at hfirst hrootBLe
  obtain ⟨difference, hdifference⟩ := fcqSub_total (a := rootB) (b := v.1)
    (by rw [abs_lt]; omega)
  obtain ⟨sum, hsum⟩ := fcqAdd_total (a := v.1) (b := rootB) (by rw [abs_lt]; omega)
  have hdifferenceValue := fcqSub_ok hdifference
  have hsumValue := fcqAdd_ok hsum
  obtain ⟨opposite, hopposite⟩ := fcqNeg_total (a := sum) (by rw [abs_lt]; omega)
  have hoppositeValue := fcqNeg_ok hopposite
  have hhalved : ∀ {x : Int64}, |x.toInt| ≤ 2 ^ 33 →
      |pwmHalf.toInt * x.toInt| ≤ 2 ^ 32 * 2 ^ 31 := by
    intro x hx
    rw [abs_mul, toInt_pwmHalf]
    calc |(2 ^ 30 : ℤ)| * |x.toInt| ≤ 2 ^ 30 * 2 ^ 33 :=
          mul_le_mul_of_nonneg_left hx (by norm_num)
      _ = 2 ^ 32 * 2 ^ 31 := by norm_num
  obtain ⟨q, hq, hqLe⟩ := fcqMul_total (hhalved (x := difference) (by rw [abs_le]; omega))
    (by norm_num)
  obtain ⟨r, hr, hrLe⟩ := fcqMul_total (hhalved (x := opposite) (by rw [abs_le]; omega))
    (by norm_num)
  have hfirstLe : |v.1.toInt| ≤ 2 ^ 32 := abs_le.mpr ⟨by omega, by omega⟩
  refine ⟨⟨v.1, q, r⟩, ?_, ⟨hfirstLe, hqLe, hrLe⟩, ?_⟩
  · rw [pwmPhases, hrootB, ok_bind, hdifference, ok_bind, hq, ok_bind, hsum, ok_bind, hopposite,
      ok_bind, hr, ok_bind]
  · -- the product by the rounded root is within one unit
    have hproduct : |(rootB.toInt : ℝ) - Real.sqrt 3 * v.2.toInt| ≤ 1 := by
      have hnear := fcqMul_near hrootB
      have hsecondR : |(v.2.toInt : ℝ)| ≤ 2 ^ 31 := by exact_mod_cast hsecond
      have hsplit : (rootB.toInt : ℝ) - Real.sqrt 3 * v.2.toInt =
          (rootB.toInt - pwmRoot3.toInt * v.2.toInt / 2 ^ 31) +
            (pwmRoot3.toInt - 2 ^ 31 * Real.sqrt 3) * (v.2.toInt / 2 ^ 31) := by ring
      have hsmall : |(pwmRoot3.toInt - 2 ^ 31 * Real.sqrt 3) * ((v.2.toInt : ℝ) / 2 ^ 31)| ≤
          1 / 2 * 1 := by
        rw [abs_mul]
        refine mul_le_mul pwmRoot3_near ?_ (abs_nonneg _) (by norm_num)
        rw [abs_div, abs_of_pos (show (0 : ℝ) < 2 ^ 31 by norm_num), div_le_one (by norm_num)]
        exact hsecondR
      rw [hsplit]
      refine (abs_add_le _ _).trans ?_
      linarith
    have hdifferenceR : (difference.toInt : ℝ) = rootB.toInt - v.1.toInt := by
      exact_mod_cast hdifferenceValue
    have hoppositeR : (opposite.toInt : ℝ) = -(v.1.toInt + rootB.toInt) := by
      rw [hoppositeValue, hsumValue]
      push_cast
      ring
    have hqNear := fcqMul_near hq
    have hrNear := fcqMul_near hr
    rw [toInt_pwmHalf] at hqNear hrNear
    push_cast at hqNear hrNear
    rw [phaseVoltages_eq, planar_re, planar_im]
    rw [abs_le] at hproduct hqNear hrNear
    refine ⟨by simp [Abc.toReal], ?_, ?_⟩
    · change |(q.toInt : ℝ) - _| ≤ 1
      rw [abs_le]
      constructor <;> linarith
    · change |(r.toInt : ℝ) - _| ≤ 1
      rw [abs_le]
      constructor <;> linarith

/-- The common mode is computed within half a unit. -/
theorem pwmOffset_ok {p : Abc Int64} (ha : |p.a.toInt| ≤ 2 ^ 32) (hb : |p.b.toInt| ≤ 2 ^ 32)
    (hc : |p.c.toInt| ≤ 2 ^ 32) :
    ∃ offset, pwmOffset pwmHalf p = .ok offset ∧ |offset.toInt| ≤ 2 ^ 32 ∧
      |(offset.toInt : ℝ) - p.toReal.middle| ≤ 1 / 2 := by
  have hlo := toInt_lesser (if fcqCmp p.a p.b < 0 then p.a else p.b) p.c
  have hhi := toInt_greater (if fcqCmp p.a p.b > 0 then p.a else p.b) p.c
  rw [toInt_lesser p.a p.b] at hlo
  rw [toInt_greater p.a p.b] at hhi
  rw [pwmOffset]
  generalize (if fcqCmp (if fcqCmp p.a p.b < 0 then p.a else p.b) p.c < 0 then
    if fcqCmp p.a p.b < 0 then p.a else p.b else p.c) = lo at hlo ⊢
  generalize (if fcqCmp (if fcqCmp p.a p.b > 0 then p.a else p.b) p.c > 0 then
    if fcqCmp p.a p.b > 0 then p.a else p.b else p.c) = hi at hhi ⊢
  rw [abs_le] at ha hb hc
  have hloLe : -2 ^ 32 ≤ lo.toInt ∧ lo.toInt ≤ 2 ^ 32 := by omega
  have hhiLe : -2 ^ 32 ≤ hi.toInt ∧ hi.toInt ≤ 2 ^ 32 := by omega
  obtain ⟨ends, hends⟩ := fcqAdd_total (a := lo) (b := hi) (by rw [abs_lt]; omega)
  have hendsValue := fcqAdd_ok hends
  have hbound : |pwmHalf.toInt * ends.toInt| ≤ 2 ^ 32 * 2 ^ 31 := by
    rw [toInt_pwmHalf, abs_le]
    omega
  obtain ⟨offset, hoffset, hoffsetLe⟩ := fcqMul_total hbound (by norm_num)
  refine ⟨offset, by rw [hends, ok_bind, hoffset], hoffsetLe, ?_⟩
  have hnear := fcqMul_near hoffset
  have hmiddle : p.toReal.middle = (2 ^ 30 : ℤ) * (ends.toInt : ℝ) / 2 ^ 31 := by
    rw [Abc.middle_eq, Abc.toReal, hendsValue, hlo, hhi]
    push_cast
    ring
  rwa [hmiddle, ← toInt_pwmHalf]

theorem centre_ok {offset x : Int64} (hoffset : |offset.toInt| ≤ 2 ^ 32)
    (hx : |x.toInt| ≤ 2 ^ 32) :
    ∃ c, centre pwmHalf offset x = .ok c ∧ c.toInt = 2 ^ 30 + (x.toInt - offset.toInt) := by
  rw [abs_le] at hoffset hx
  obtain ⟨centred, hcentred⟩ := fcqSub_total (a := x) (b := offset) (by rw [abs_lt]; omega)
  have hcentredValue := fcqSub_ok hcentred
  obtain ⟨c, hc⟩ := fcqAdd_total (a := pwmHalf) (b := centred)
    (by rw [toInt_pwmHalf, abs_lt]; omega)
  refine ⟨c, by rw [centre, hcentred, ok_bind, hc], ?_⟩
  rw [fcqAdd_ok hc, hcentredValue, toInt_pwmHalf]

/-- The duties before the clamp. -/
theorem pwmCommands_ok {a b bus : Int64} (ha : |a.toInt| ≤ 2 ^ 31) (hb : |b.toInt| ≤ 2 ^ 31)
    (hbus : 0 < bus.toInt) :
    ∃ command, pwmCommands a b bus = .ok command ∧
      Abc.Each (fun x y => |x - 2 ^ 31 * y| ≤ 16) command.toReal
        (exactDuties ((1 / (bus.toInt : ℝ)) • planar a b)) := by
  obtain ⟨v, hv, hv₁, hv₂, hclose⟩ := pwmVector_ok ha hb hbus
  obtain ⟨p, hp, ⟨hpa, hpb, hpc⟩, hpNear⟩ := pwmPhases_ok hv₁ hv₂
  obtain ⟨offset, hoffset, hoffsetLe, hoffsetNear⟩ := pwmOffset_ok hpa hpb hpc
  obtain ⟨ca, hca, hcaValue⟩ := centre_ok hoffsetLe hpa
  obtain ⟨cb, hcb, hcbValue⟩ := centre_ok hoffsetLe hpb
  obtain ⟨cc, hcc, hccValue⟩ := centre_ok hoffsetLe hpc
  refine ⟨⟨ca, cb, cc⟩, ?_, ?_⟩
  · rw [pwmCommands, hv, ok_bind, hp, ok_bind, hoffset, ok_bind, hca, ok_bind, hcb, ok_bind, hcc,
      ok_bind]
  · rw [exactDuties, dutiesOf, Nat.cast_ofNat, Nat.cast_ofNat]
    generalize radial (1 / Real.sqrt 3) ((1 / (bus.toInt : ℝ)) • planar a b) = z at hclose ⊢
    have hphases := phaseVoltages_near (planar v.1 v.2) ((2 ^ 31 : ℝ) • z)
    rw [phaseVoltages_smul] at hphases
    have hnear := hpNear.trans_near hphases
    have hmiddle := middle_near hnear
    rw [Abc.middle_scale (by norm_num)] at hmiddle
    generalize phaseVoltages z = w at hnear hmiddle ⊢
    have hcommand : ∀ {c x : Int64} {y : ℝ}, c.toInt = 2 ^ 30 + (x.toInt - offset.toInt) →
        |(x.toInt : ℝ) - 2 ^ 31 * y| ≤ 1 + ‖planar v.1 v.2 - (2 ^ 31 : ℝ) • z‖ →
          |(c.toInt : ℝ) - 2 ^ 31 * (1 / 2 + y - w.middle)| ≤ 16 := by
      intro c x y hc hx
      rw [hc]
      push_cast
      rw [abs_le] at hx hmiddle hoffsetNear ⊢
      constructor <;> linarith
    exact ⟨hcommand hcaValue hnear.a, hcommand hcbValue hnear.b, hcommand hccValue hnear.c⟩

/-! ## The duties -/

section Duties

variable {Q : Type} [FilterFormat Q]

/-- A nonnegative value of `[-1, 1]` is stored as one. -/
theorem fcStore_nonneg {x : Int64} (hlow : 0 ≤ x.toInt) (hhigh : x.toInt ≤ 2 ^ 31) :
    ∃ stored : Q, fcStore x = .ok stored ∧ 0 ≤ (QFormat.widen stored).toInt := by
  have hrange : |x.toInt| ≤ 2 ^ 31 := by rwa [abs_of_nonneg hlow]
  obtain ⟨stored, hcall, hstored⟩ := FilterFormat.exportFixed_ok x (FilterFormat.zero : Q) hrange
  refine ⟨stored, by rw [fcStore, hcall]; rfl, ?_⟩
  have hlowQ : (0 : ℚ) ≤ x.toInt := by exact_mod_cast hlow
  have hround : 0 ≤ roundAway ((x.toInt : ℚ) / 2 ^ (31 - (QFormat.qBits Q).toNat)) :=
    roundAway_nonneg (by positivity)
  rw [hstored, endpoint]
  have hpos : (0 : ℤ) < 2 ^ (QFormat.qBits Q).toNat := by positivity
  split <;> omega

/-- A command near its exact duty, and the duty that the clamp and the store make of it. -/
structure DutyWithin (exact : ℝ) (command : Int64) (duty : Q) : Prop where
  exact_range : 0 ≤ exact ∧ exact ≤ 1
  command_near : |(command.toInt : ℝ) - 2 ^ 31 * exact| ≤ 16
  clamped_near : |((baseClamp command 0 fixedOne).toInt : ℝ) - 2 ^ 31 * exact| ≤ 16
  clamp_moves : |(baseClamp command 0 fixedOne).toInt - command.toInt| ≤ 16
  stored : fcStore (baseClamp command 0 fixedOne) = .ok duty
  duty_range : 0 ≤ (QFormat.widen duty).toInt ∧
    (QFormat.widen duty).toInt ≤ 2 ^ (QFormat.qBits Q).toNat - 1

/-- The exact duty lies between the bounds of the clamp, which therefore only brings the
command closer to it. -/
theorem dutyWithin_of_near {exact : ℝ} {command : Int64} (hrange : 0 ≤ exact ∧ exact ≤ 1)
    (hnear : |(command.toInt : ℝ) - 2 ^ 31 * exact| ≤ 16) :
    ∃ duty : Q, DutyWithin exact command duty := by
  have hzero : (0 : Int64).toInt = 0 := rfl
  have hbounds : (0 : Int64).toInt ≤ (baseClamp command 0 fixedOne).toInt ∧
      (baseClamp command 0 fixedOne).toInt ≤ fixedOne.toInt := baseClamp_bounds (by decide)
  rw [hzero, toInt_fixedOne] at hbounds
  obtain ⟨duty, hduty, hnonneg⟩ := fcStore_nonneg (Q := Q) hbounds.1 hbounds.2
  have hclamped := @toInt_baseClamp command 0 fixedOne
  rw [hzero, toInt_fixedOne] at hclamped
  obtain ⟨hlow, hhigh⟩ := abs_le.mp hnear
  have hmoved : |((baseClamp command 0 fixedOne).toInt : ℝ) - command.toInt| ≤ 16 ∧
      |((baseClamp command 0 fixedOne).toInt : ℝ) - 2 ^ 31 * exact| ≤ 16 := by
    rw [hclamped, abs_le, abs_le]
    split_ifs with hbelow habove
    · have : (command.toInt : ℝ) ≤ 0 := by exact_mod_cast hbelow.le
      push_cast
      exact ⟨⟨by linarith, by linarith⟩, by linarith, by linarith⟩
    · have : (2 : ℝ) ^ 31 ≤ command.toInt := by exact_mod_cast habove.le
      push_cast
      exact ⟨⟨by linarith, by linarith⟩, by linarith, by linarith⟩
    · exact ⟨⟨by linarith, by linarith⟩, hlow, hhigh⟩
  exact ⟨duty, hrange, hnear, hmoved.2, by exact_mod_cast hmoved.1, hduty, hnonneg,
    Int.le_sub_one_of_lt (QFormat.toInt_widen_lt duty)⟩

/-- The modulator on components of `[-1, 1]` and a positive bus. -/
theorem basePwm_ok {a b bus : Int64} (ha : |a.toInt| ≤ 2 ^ 31) (hb : |b.toInt| ≤ 2 ^ 31)
    (hbus : 0 < bus.toInt) :
    ∃ (command : Abc Int64) (duty : Abc Q),
      pwmCommands a b bus = .ok command ∧ basePwm a b bus = .ok duty ∧
      DutyWithin (exactDuties ((1 / (bus.toInt : ℝ)) • planar a b)).a command.a duty.a ∧
      DutyWithin (exactDuties ((1 / (bus.toInt : ℝ)) • planar a b)).b command.b duty.b ∧
      DutyWithin (exactDuties ((1 / (bus.toInt : ℝ)) • planar a b)).c command.c duty.c := by
  obtain ⟨command, hcommand, hnear⟩ := pwmCommands_ok ha hb hbus
  have hrange := exactDuties_range ((1 / (bus.toInt : ℝ)) • planar a b)
  generalize exactDuties ((1 / (bus.toInt : ℝ)) • planar a b) = exact at hnear hrange ⊢
  obtain ⟨da, hda⟩ := dutyWithin_of_near (Q := Q) hrange.a hnear.a
  obtain ⟨db, hdb⟩ := dutyWithin_of_near (Q := Q) hrange.b hnear.b
  obtain ⟨dc, hdc⟩ := dutyWithin_of_near (Q := Q) hrange.c hnear.c
  refine ⟨command, ⟨da, db, dc⟩, hcommand, ?_, hda, hdb, hdc⟩
  rw [basePwm_eq, hcommand, ok_bind, storeDuties, hda.stored, ok_bind, hdb.stored, ok_bind,
    hdc.stored, ok_bind]

/-- `svpwm` with the pointer to its result. -/
def svpwmCall (duty : Extent) (voltage : Ab Q) (dcBus : Q) : Except Status (Abc Q) :=
  if duty.address = 0 then .error .errorArgument else svpwm voltage dcBus

/-- The difference of two clamped duties is that of their phases, within the sixteen
units of each. -/
def LinePreserved (x y : Int64) (phase phase' : ℝ) : Prop :=
  |((baseClamp x 0 fixedOne).toInt : ℝ) - (baseClamp y 0 fixedOne).toInt -
    (2 : ℕ) ^ 31 * (phase - phase')| ≤ (32 : ℕ)

theorem linePreserved_of_within {exact exact' phase phase' : ℝ} {x y : Int64} {d d' : Q}
    (h : DutyWithin exact x d) (h' : DutyWithin exact' y d')
    (hphase : exact - exact' = phase - phase') : LinePreserved x y phase phase' := by
  have hx := abs_le.mp h.clamped_near
  have hy := abs_le.mp h'.clamped_near
  rw [LinePreserved, ← hphase, Nat.cast_ofNat, Nat.cast_ofNat, abs_le]
  constructor <;> linarith

/-- On every vector and every positive bus the modulator returns OK with duties of
`[0, MAX]`; each duty is within sixteen units of the exact one before the store and
before the clamp, and the line voltages are those of the limited vector. -/
theorem space_vector_pwm (duty : Extent) (voltage : Ab Q) (dcBus : Q) (hduty : duty.address ≠ 0)
    (hbus : 0 < (QFormat.widen dcBus).toInt) :
    ∃ (command : Abc Int64) (result : Abc Q) (vector : ℂ) (phase : Abc ℝ),
      vector = (1 / ((FilterFormat.load dcBus).toInt : ℝ)) •
        planar (FilterFormat.load voltage.alpha) (FilterFormat.load voltage.beta) ∧
      phase = phaseVoltages (radial (1 / Real.sqrt 3) vector) ∧
      pwmCommands (FilterFormat.load voltage.alpha) (FilterFormat.load voltage.beta)
        (FilterFormat.load dcBus) = .ok command ∧
      svpwmCall duty voltage dcBus = .ok result ∧
      DutyWithin (1 / 2 + phase.a - phase.middle) command.a result.a ∧
      DutyWithin (1 / 2 + phase.b - phase.middle) command.b result.b ∧
      DutyWithin (1 / 2 + phase.c - phase.middle) command.c result.c ∧
      LinePreserved command.a command.b phase.a phase.b ∧
      LinePreserved command.b command.c phase.b phase.c ∧
      LinePreserved command.c command.a phase.c phase.a := by
  have hload : 0 < (FilterFormat.load dcBus).toInt := by
    rw [FilterFormat.toInt_load]
    positivity
  obtain ⟨command, result, hcommand, hresult, ha, hb, hc⟩ := basePwm_ok (Q := Q)
    (abs_load_le voltage.alpha) (abs_load_le voltage.beta) hload
  rw [exactDuties, dutiesOf, Nat.cast_ofNat, Nat.cast_ofNat] at ha hb hc
  refine ⟨command, result, _, _, rfl, rfl, hcommand, ?_, ha, hb, hc,
    linePreserved_of_within ha hb (by ring), linePreserved_of_within hb hc (by ring),
    linePreserved_of_within hc ha (by ring)⟩
  have hpositive : ¬fcqCmp (FilterFormat.load dcBus) 0 ≤ 0 := by
    rw [fcqCmp_le, Int64.toInt_zero, not_le]
    exact hload
  rw [svpwmCall, if_neg hduty, svpwm, if_neg hpositive, hresult]

theorem space_vector_pwm_full_bus :
    ∃ (command : Abc Int64) (result : Abc Int32),
      pwmCommands (FilterFormat.load (2147483647 : Int32)) (FilterFormat.load (-1 : Int32))
        (FilterFormat.load (1 : Int32)) = .ok command ∧
      svpwmCall ⟨4096, 12⟩ ⟨2147483647, -1⟩ (1 : Int32) = .ok result := by
  obtain ⟨command, result, -, -, -, -, hcommand, hresult, -⟩ :=
    space_vector_pwm ⟨4096, 12⟩ ⟨2147483647, -1⟩ (1 : Int32) (by decide) (by decide)
  exact ⟨command, result, hcommand, hresult⟩

end Duties

end Xhive.Fieldctrl
