import Xhive.Filters.AverageExact

/-!
# Designed filters hold a constant level exactly

The numerator of each design is derived so that the taps have an exact sum.
Direct form I keeps actual inputs and outputs, so a settled history stays
settled when the coefficients are replaced.
-/

namespace Xhive.Filters

open Xhive.Support Xhive.Linears Procedure

/-! ## The designs -/

/-- The exact sum of the feedforward taps. -/
def IirSection.tapSum (s : IirSection) : ℤ :=
  s.b0.toInt + s.b1.toInt + s.b2.toInt

/-- The exact sum of the denominator taps, `ONE + a1 + a2`. -/
def IirSection.denominatorSum (s : IirSection) : ℤ :=
  2 ^ 31 + s.a1.toInt + s.a2.toInt

/-- No intermediate of the low-pass numerator leaves 64 bits. -/
structure LowpassFits (order : ℕ) (s : IirSection) : Prop where
  first : FitsInt64 (2 ^ 31 + s.a1.toInt)
  sum : FitsInt64 (2 ^ 31 + s.a1.toInt + s.a2.toInt)
  bias : order ≠ 1 → FitsInt64 (2 ^ 31 + s.a1.toInt + s.a2.toInt + 2)

/-- No intermediate of the high-pass numerator leaves 64 bits. -/
structure HighpassFits (order : ℕ) (s : IirSection) : Prop where
  first : FitsInt64 (2 ^ 31 - s.a1.toInt)
  sum : FitsInt64 (2 ^ 31 - s.a1.toInt + s.a2.toInt)
  bias : FitsInt64 (2 ^ 31 - s.a1.toInt + s.a2.toInt + if order = 1 then 1 else 2)

/-- The negation in a band-pass section does not leave 64 bits. -/
def BandpassFits (s : IirSection) : Prop :=
  FitsInt64 (-s.b0.toInt)

/-- Halving truncates toward zero. -/
theorem toInt_half (a : Int64) :
    (a / 2).toInt = if 0 ≤ a.toInt then a.toInt / 2 else -(-a.toInt / 2) := by
  split
  · exact toInt_div_of_nonneg (by decide) ‹_›
  · exact toInt_div_of_neg (by decide) (not_le.mp ‹_›)

theorem toInt_quarter (a : Int64) :
    (a / 4).toInt = if 0 ≤ a.toInt then a.toInt / 4 else -(-a.toInt / 4) := by
  split
  · exact toInt_div_of_nonneg (by decide) ‹_›
  · exact toInt_div_of_neg (by decide) (not_le.mp ‹_›)

theorem toInt_two_mul {a : Int64} (h : FitsInt64 (2 * a.toInt)) : (2 * a).toInt = 2 * a.toInt :=
  toInt_mul_of_fits h

/-- The bias in front of a quartering. -/
theorem toInt_add_two {a : Int64} (h : FitsInt64 (a.toInt + 2)) : (a + 2).toInt = a.toInt + 2 :=
  toInt_add_of_fits h

theorem tapSum_lowpassNumerator {order : ℕ} {s : IirSection} (h : LowpassFits order s) :
    (lowpassNumerator order s).tapSum = s.denominatorSum := by
  have hfirst : (fixedOne + s.a1).toInt = 2 ^ 31 + s.a1.toInt := toInt_add_of_fits h.first
  have hsum : (fixedOne + s.a1 + s.a2).toInt = 2 ^ 31 + s.a1.toInt + s.a2.toInt := by
    rw [toInt_add_of_fits] <;> rw [hfirst]
    exact h.sum
  rw [IirSection.denominatorSum, ← hsum, lowpassNumerator]
  have hbias := h.bias
  rw [← hsum] at hbias
  generalize fixedOne + s.a1 + s.a2 = sum at hbias
  have hlow := sum.le_toInt
  have hhigh := sum.toInt_lt
  by_cases horder : order = 1
  · have hhalf := toInt_half sum
    have hrest : (sum - sum / 2).toInt = sum.toInt - (sum / 2).toInt := by
      apply toInt_sub_of_fits
      constructor <;> split at hhalf <;> omega
    simp only [if_pos horder, IirSection.tapSum, hrest, Int64.toInt_zero]
    omega
  · have hquarter := toInt_quarter (sum + 2)
    rw [toInt_add_two (hbias horder)] at hquarter
    have htwice : (2 * ((sum + 2) / 4)).toInt = 2 * ((sum + 2) / 4).toInt := by
      apply toInt_two_mul
      constructor <;> split at hquarter <;> omega
    have hrest : (sum - 2 * ((sum + 2) / 4)).toInt = sum.toInt - 2 * ((sum + 2) / 4).toInt := by
      rw [toInt_sub_of_fits] <;> rw [htwice]
      constructor <;> split at hquarter <;> omega
    simp only [if_neg horder, IirSection.tapSum, hrest]
    omega

theorem tapSum_highpassNumerator {order : ℕ} {s : IirSection} (h : HighpassFits order s) :
    (highpassNumerator order s).tapSum = 0 := by
  have hfirst : (fixedOne - s.a1).toInt = 2 ^ 31 - s.a1.toInt := toInt_sub_of_fits h.first
  have hsum : (fixedOne - s.a1 + s.a2).toInt = 2 ^ 31 - s.a1.toInt + s.a2.toInt := by
    rw [toInt_add_of_fits] <;> rw [hfirst]
    exact h.sum
  rw [highpassNumerator]
  have hbias := h.bias
  rw [← hsum] at hbias
  generalize fixedOne - s.a1 + s.a2 = sum at hbias
  by_cases horder : order = 1
  · rw [if_pos horder] at hbias
    have hhalf := toInt_half (sum + 1)
    have hnext : (sum + 1).toInt = sum.toInt + 1 := toInt_add_of_fits hbias
    rw [hnext] at hhalf
    have hneg : (-((sum + 1) / 2)).toInt = -((sum + 1) / 2).toInt := by
      apply toInt_neg_of_fits
      obtain ⟨hlow, hhigh⟩ := hbias
      constructor <;> split at hhalf <;> omega
    simp only [if_pos horder, IirSection.tapSum, hneg, Int64.toInt_zero]
    omega
  · rw [if_neg horder] at hbias
    have hquarter := toInt_quarter (sum + 2)
    rw [toInt_add_two hbias] at hquarter
    have htwice : (-2 * ((sum + 2) / 4)).toInt = -2 * ((sum + 2) / 4).toInt := by
      apply toInt_mul_of_fits
      rw [show (-2 : Int64).toInt = -2 from rfl]
      obtain ⟨hlow, hhigh⟩ := hbias
      constructor <;> split at hquarter <;> omega
    simp only [if_neg horder, IirSection.tapSum, htwice]
    omega

theorem tapSum_bandpass {s : IirSection} (h : BandpassFits s) :
    { s with b1 := 0, b2 := -s.b0 : IirSection }.tapSum = 0 := by
  rw [IirSection.tapSum, toInt_neg_of_fits h, Int64.toInt_zero]
  ring

/-! ## A section at rest -/

/-- The section's steady response to every input is `settled` of it. -/
def IirSection.Balances (s : IirSection) (settled : Int64 → Int64) : Prop :=
  ∀ x, s.tapSum * x.toInt = s.denominatorSum * (settled x).toInt

/-- The histories hold one input and one output. -/
structure IirSection.Settled (s : IirSection) (x y : Int64) : Prop where
  x1 : s.x1 = x
  x2 : s.x2 = x
  y1 : s.y1 = y
  y2 : s.y2 = y

theorem settled_seed (x y : Int64) (s : IirSection) : (seed x y s).Settled x y :=
  ⟨rfl, rfl, rfl, rfl⟩

/-- Shifting the same pair into a settled history changes nothing. -/
theorem IirSection.Settled.shift {s : IirSection} {x y : Int64} (h : s.Settled x y) :
    (shiftHistory x y s).Settled x y :=
  ⟨rfl, h.x1, rfl, h.y1⟩

theorem abs_tap_le (c : Int64) {x : Int64} (hx : |x.toInt| ≤ 2 ^ 31) :
    |c.toInt * x.toInt| ≤ 2 ^ 94 := by
  have hc : |c.toInt| ≤ 2 ^ 63 := by
    have hlow := c.le_toInt
    have hhigh := c.toInt_lt
    rw [abs_le]
    constructor <;> omega
  calc |c.toInt * x.toInt| = |c.toInt| * |x.toInt| := abs_mul _ _
    _ ≤ 2 ^ 63 * 2 ^ 31 := mul_le_mul hc hx (abs_nonneg _) (by norm_num)
    _ = 2 ^ 94 := by norm_num

theorem exists_mac (sum : Accum) (a b : Int64) (h : Accum.Fits (sum.toInt + a.toInt * b.toInt)) :
    ∃ next, checked (linearsFixedMac (some sum) a b) = .ok next ∧
      next.toInt = sum.toInt + a.toInt * b.toInt :=
  ((ensures_mac sum a b).mono (fun _ hnext => hnext.2) fun _ hstatus => hstatus.2 h).exists_ok

theorem exists_msu (sum : Accum) (a b : Int64) (h : Accum.Fits (sum.toInt - a.toInt * b.toInt)) :
    ∃ next, checked (linearsFixedMsu (some sum) a b) = .ok next ∧
      next.toInt = sum.toInt - a.toInt * b.toInt :=
  ((ensures_msu sum a b).mono (fun _ hnext => hnext.2) fun _ hstatus => hstatus.2 h).exists_ok

/-- Five products of a coefficient and a signal of at most one stay far inside
the accumulator. -/
theorem sectionSum_exact {s : IirSection} {x : Int64} (hx : |x.toInt| ≤ 2 ^ 31)
    (hx1 : |s.x1.toInt| ≤ 2 ^ 31) (hx2 : |s.x2.toInt| ≤ 2 ^ 31) (hy1 : |s.y1.toInt| ≤ 2 ^ 31)
    (hy2 : |s.y2.toInt| ≤ 2 ^ 31) :
    ∃ sum, sectionSum s x = .ok sum ∧
      sum.toInt = s.b0.toInt * x.toInt + s.b1.toInt * s.x1.toInt + s.b2.toInt * s.x2.toInt -
        s.a1.toInt * s.y1.toInt - s.a2.toInt * s.y2.toInt := by
  obtain ⟨low0, high0⟩ := abs_le.mp (abs_tap_le s.b0 hx)
  obtain ⟨low1, high1⟩ := abs_le.mp (abs_tap_le s.b1 hx1)
  obtain ⟨low2, high2⟩ := abs_le.mp (abs_tap_le s.b2 hx2)
  obtain ⟨low3, high3⟩ := abs_le.mp (abs_tap_le s.a1 hy1)
  obtain ⟨low4, high4⟩ := abs_le.mp (abs_tap_le s.a2 hy2)
  obtain ⟨sum0, hcall0, hsum0⟩ := exists_mac ⟨0, 0⟩ s.b0 x (by
    rw [Accum.toInt_zero]
    constructor <;> linarith)
  rw [Accum.toInt_zero, zero_add] at hsum0
  obtain ⟨sum1, hcall1, hsum1⟩ := exists_mac sum0 s.b1 s.x1 (by
    rw [hsum0]
    constructor <;> linarith)
  rw [hsum0] at hsum1
  obtain ⟨sum2, hcall2, hsum2⟩ := exists_mac sum1 s.b2 s.x2 (by
    rw [hsum1]
    constructor <;> linarith)
  rw [hsum1] at hsum2
  obtain ⟨sum3, hcall3, hsum3⟩ := exists_msu sum2 s.a1 s.y1 (by
    rw [hsum2]
    constructor <;> linarith)
  rw [hsum2] at hsum3
  obtain ⟨sum4, hcall4, hsum4⟩ := exists_msu sum3 s.a2 s.y2 (by
    rw [hsum3]
    constructor <;> linarith)
  rw [hsum3] at hsum4
  refine ⟨sum4, ?_, hsum4⟩
  rw [sectionSum, hcall0, ok_bind, hcall1, ok_bind, hcall2, ok_bind, hcall3, ok_bind, hcall4]

/-- At rest the sum is the settled output at the scale of the accumulator. -/
theorem sectionSum_settled {s : IirSection} {settled : Int64 → Int64} {x : Int64}
    (hbalance : s.Balances settled) (hs : s.Settled x (settled x)) (hx : |x.toInt| ≤ 2 ^ 31)
    (hy : |(settled x).toInt| ≤ 2 ^ 31) :
    ∃ sum, sectionSum s x = .ok sum ∧ sum.toInt = 2 ^ 31 * (settled x).toInt := by
  obtain ⟨sum, hcall, hsum⟩ := sectionSum_exact (s := s) hx (by rwa [hs.x1]) (by rwa [hs.x2])
    (by rwa [hs.y1]) (by rwa [hs.y2])
  refine ⟨sum, hcall, ?_⟩
  have hbalance := hbalance x
  rw [IirSection.tapSum, IirSection.denominatorSum] at hbalance
  rw [hsum, hs.x1, hs.x2, hs.y1, hs.y2]
  linarith only [hbalance]

theorem accumToFixed_scaled {sum : Accum} {y : Int64} (hsum : sum.toInt = 2 ^ 31 * y.toInt) :
    checked (linearsAccumToFixed sum (some 0)) = .ok y := by
  have hvalue : (sum.toInt : ℚ) / 2 ^ 31 = (y.toInt : ℚ) := by
    rw [hsum]
    push_cast
    ring
  have hcall := ensures_accumToFixed sum
  rw [hvalue, roundAway_intCast] at hcall
  obtain ⟨stored, hstored, heq⟩ := (hcall.mono (fun _ h => h)
    fun _ h => h.2 (fitsInt64_toInt y)).exists_ok
  rw [hstored, Int64.toInt_inj.mp heq]

theorem cascadeSection_settled (sections : ℕ → IirSection) (i : ℕ) (l : CascadeLocals)
    {settled : Int64 → Int64} (hbalance : (sections i).Balances settled)
    (hs : (sections i).Settled l.signal (settled l.signal)) (hx : |l.signal.toInt| ≤ 2 ^ 31)
    (hy : |(settled l.signal).toInt| ≤ 2 ^ 31) :
    ∃ sum, sum.toInt = 2 ^ 31 * (settled l.signal).toInt ∧
      cascadeSection sections i l = .ok
        ⟨Function.update l.x i l.signal, Function.update l.y i (settled l.signal),
          settled l.signal, sum⟩ := by
  obtain ⟨sum, hcall, hsum⟩ := sectionSum_settled hbalance hs hx hy
  refine ⟨sum, hsum, ?_⟩
  rw [cascadeSection, hcall, ok_bind, accumToFixed_scaled hsum, ok_bind]

variable {Q : Type} [FilterFormat Q]

/-- The quantiser maps the exact value of a sample back to the sample, at
either end of the range too. -/
theorem accumToQ_load {sum : Accum} {v : Q}
    (hsum : sum.toInt = 2 ^ 31 * (FilterFormat.load v).toInt) :
    checked (linearsAccumToQ sum (some (FilterFormat.zero : Q))) = .ok v := by
  have hbits := (qBits_bounds Q).2
  have hlow := QFormat.le_toInt_widen v
  have hhigh := QFormat.toInt_widen_lt v
  have hscale : (2 : ℤ) ^ (62 - (QFormat.qBits Q).toNat) =
      2 ^ 31 * 2 ^ (31 - (QFormat.qBits Q).toNat) := by
    rw [← pow_add]
    congr 1
    omega
  have hvalue : sum.toInt = (QFormat.widen v).toInt * 2 ^ (62 - (QFormat.qBits Q).toNat) := by
    rw [hsum, FilterFormat.toInt_load, hscale]
    ring
  have hcode : quantizedCode (QFormat.qBits Q).toNat sum.toInt = (QFormat.widen v).toInt := by
    rw [quantizedCode, hvalue]
    push_cast
    rw [mul_div_cancel_right₀ _ (by positivity), roundAway_intCast, endpoint, if_neg hhigh.ne]
  have hrange : |sum.toInt| ≤ 2 ^ 62 := by
    have hload := abs_toInt_load_le v
    rw [hsum, abs_mul, abs_of_pos (by norm_num : (0 : ℤ) < 2 ^ 31)]
    omega
  have hcall := ensures_accumToQ (Q := Q) sum FilterFormat.zero
  obtain ⟨stored, hstored, -, heq⟩ := (hcall.mono (fun _ h => h)
    fun _ h => absurd hrange (not_le.mpr h.2)).exists_ok
  rw [hstored, FilterFormat.widen_injective stored v (heq.trans hcode)]

theorem load_zero : (FilterFormat.load (FilterFormat.zero : Q)) = 0 := by
  rw [← Int64.toInt_inj, FilterFormat.toInt_load, FilterFormat.toInt_widen_zero, zero_mul,
    Int64.toInt_zero]

/-! ## Runs at a held level -/

/-- What a run at a level needs to know of a filter: the level a call starts
at, none for a retuning, and when the design arithmetic stays in range. -/
structure Levels (F : Filter Q) where
  start : F.Arguments → Q
  restart : F.Control → Option Q
  fits : F.Context → Prop

namespace Levels

variable {F : Filter Q} (L : Levels F)

/-- The contexts of any run from a successful init, refused calls included,
none of whose designs overflows. -/
inductive Life : F.Context → Prop where
  | init {arguments ctx} (h : F.init arguments = .ok ctx) (hfits : L.fits ctx) : Life ctx
  | control {ctx request} (hrun : Life ctx)
      (hfits : ∀ ctx', F.control request ctx = .ok ctx' → L.fits ctx') :
      Life (commit (F.control request ctx) ctx).2
  | step {ctx input output scratch cell} (hrun : Life ctx) :
      Life (F.step input output ⟨ctx, scratch, cell⟩).2.ctx

/-- The contexts since an init or a reset at a level, over retunings and steps
at that level. -/
inductive Held (level : Q) (input : F.Input) : F.Context → Prop where
  | init {arguments ctx} (hlevel : L.start arguments = level)
      (h : F.init arguments = .ok ctx) (hfits : L.fits ctx) : Held level input ctx
  | reset {ctx ctx' request} (hrun : L.Life ctx) (hlevel : L.restart request = some level)
      (h : F.control request ctx = .ok ctx') (hfits : L.fits ctx') : Held level input ctx'
  | retune {ctx request} (hrun : Held level input ctx) (hlevel : L.restart request = none)
      (hfits : ∀ ctx', F.control request ctx = .ok ctx' → L.fits ctx') :
      Held level input (commit (F.control request ctx) ctx).2
  | step {ctx output scratch cell} (hrun : Held level input ctx) :
      Held level input (F.step input output ⟨ctx, scratch, cell⟩).2.ctx

variable {L}

omit [FilterFormat Q] in
/-- Invariant rule for whole lives. -/
theorem Life.invariant (inv : F.Context → Prop)
    (hinit : ∀ arguments ctx, F.init arguments = .ok ctx → L.fits ctx → inv ctx)
    (hcontrol : ∀ request ctx ctx', inv ctx → F.control request ctx = .ok ctx' → L.fits ctx' →
      inv ctx')
    (hstep : ∀ input output m, inv m.ctx → inv (F.step input output m).2.ctx)
    {ctx : F.Context} (hrun : L.Life ctx) : inv ctx := by
  induction hrun with
  | init h hfits => exact hinit _ _ h hfits
  | control _ hfits ih =>
      exact Filter.commit_inv ih fun ctx' h => hcontrol _ _ ctx' ih h (hfits ctx' h)
  | step _ ih => exact hstep _ _ ⟨_, _, _⟩ ih

omit [FilterFormat Q] in
/-- Invariant rule for held levels: a reset may use what every life keeps. -/
theorem Held.invariant {level : Q} {input : F.Input} {inv : F.Context → Prop}
    (inv' : F.Context → Prop)
    (hlife : ∀ ctx, L.Life ctx → inv ctx)
    (hinit : ∀ arguments ctx, L.start arguments = level → F.init arguments = .ok ctx →
      L.fits ctx → inv' ctx)
    (hreset : ∀ request ctx ctx', inv ctx → L.restart request = some level →
      F.control request ctx = .ok ctx' → L.fits ctx' → inv' ctx')
    (hretune : ∀ request ctx ctx', inv' ctx → L.restart request = none →
      F.control request ctx = .ok ctx' → L.fits ctx' → inv' ctx')
    (hstep : ∀ output m, inv' m.ctx → inv' (F.step input output m).2.ctx)
    {ctx : F.Context} (hrun : L.Held level input ctx) : inv' ctx := by
  induction hrun with
  | init hlevel h hfits => exact hinit _ _ hlevel h hfits
  | reset hrun hlevel h hfits => exact hreset _ _ _ (hlife _ hrun) hlevel h hfits
  | retune _ hlevel hfits ih =>
      exact Filter.commit_inv ih fun ctx' h => hretune _ _ ctx' ih hlevel h (hfits ctx' h)
  | step _ ih => exact hstep _ ⟨_, _, _⟩ ih

end Levels

/-! ## Low-pass and high-pass -/

/-- A control either retunes or restarts at its level. -/
def PassControl.level : PassControl Q → Option Q
  | .set _ => none
  | .reset initial => some initial

/-- The filter of either kind. -/
abbrev passFilter (kind : PassKind Q) (self : Extent) : Filter Q where
  Context := PassContext
  Scratch := Unit
  Arguments := ℕ × Tuning × Q
  Control := PassControl Q
  Input := Q
  init arguments := passInit kind self arguments.1 arguments.2.1 arguments.2.2
  control
    | .set tuning => passSet kind self tuning
    | .reset initial => passReset kind self initial
  step := passStep self

/-- What the two designs have in common. -/
structure PassKind.Exact (kind : PassKind Q) (fits : ℕ → IirSection → Prop) : Prop where
  balances : ∀ order tuning s s', kind.design order tuning s = .ok s' → fits order s' →
    s'.Balances kind.settled
  histories : ∀ order tuning s s' x y, kind.design order tuning s = .ok s' → s.Settled x y →
    s'.Settled x y
  seeded : ∀ order x y s, fits order (seed x y s) → fits order s

/-- The levels of a low-pass or high-pass filter. -/
abbrev passLevels (kind : PassKind Q) (fits : ℕ → IirSection → Prop) (self : Extent) :
    Levels (passFilter kind self) where
  start arguments := arguments.2.2
  restart := PassControl.level
  fits ctx := fits ctx.order ctx.filterSection

/-- A step commits one shift of the history, or leaves the memory alone. -/
theorem passStep_cases (self : Extent) (input : Q) (output : ℕ) (m : Memory PassContext Unit Q) :
    (∃ status, passStep self input output m = (.error status, m)) ∨
    ∃ l result, cascade (fun _ => m.ctx.filterSection) 1 input = .ok (l, result) ∧
      passStep self input output m = (.ok (), ⟨{ m.ctx with
        filterSection := shiftHistory (l.x 0) (l.y 0) m.ctx.filterSection }, m.scratch, result⟩) := by
  rw [passStep]
  cases hcheck : checkOutput self ⟨output, FilterFormat.scalarBytes Q⟩ with
  | error status => exact Or.inl ⟨status, rfl⟩
  | ok _ =>
      rw [attempt_bind_ok rfl, read_bind]
      cases hcascade : cascade (fun _ => m.ctx.filterSection) 1 input with
      | error status => exact Or.inl ⟨status, rfl⟩
      | ok r => exact Or.inr ⟨r.1, r.2, rfl, rfl⟩

/-- One section at rest passes its settled output on. -/
theorem cascade_settled {s : IirSection} {settled : Int64 → Int64} {v w : Q}
    (hbalance : s.Balances settled)
    (hs : s.Settled (FilterFormat.load v) (settled (FilterFormat.load v)))
    (hw : settled (FilterFormat.load v) = FilterFormat.load w) :
    ∃ l, cascade (fun _ => s) 1 v = .ok (l, w) ∧ l.x 0 = FilterFormat.load v ∧
      l.y 0 = settled (FilterFormat.load v) := by
  obtain ⟨sum, hsum, hcall⟩ := cascadeSection_settled (fun _ => s) 0
    ⟨fun _ => 0, fun _ => 0, FilterFormat.load v, ⟨0, 0⟩⟩ hbalance hs (abs_toInt_load_le v)
    (by
      rw [hw]
      exact abs_toInt_load_le w)
  rw [hw] at hsum
  have hcascade : cascade (fun _ => s) 1 v = .ok (⟨Function.update (fun _ => 0) 0
      (FilterFormat.load v), Function.update (fun _ => 0) 0 (settled (FilterFormat.load v)),
      settled (FilterFormat.load v), sum⟩, w) := by
    rw [cascade, forRange_succ (Nat.zero_le 0), forRange_of_le le_rfl, ok_bind, hcall, ok_bind,
      accumToQ_load hsum, ok_bind]
  exact ⟨_, hcascade, rfl, rfl⟩

section Pass

variable {kind : PassKind Q} {fits : ℕ → IirSection → Prop} {self : Extent}

theorem passInit_eq_ok {order : ℕ} {tuning : Tuning} {initial : Q} {ctx : PassContext}
    (h : passInit kind self order tuning initial = .ok ctx) :
    ∃ s, kind.design order tuning unusedSection = .ok s ∧
      ctx = ⟨order, seed (FilterFormat.load initial)
        (kind.settled (FilterFormat.load initial)) s⟩ := by
  rw [passInit] at h
  split at h
  · cases h
  · cases hdesign : kind.design order tuning unusedSection with
    | error status =>
        rw [hdesign] at h
        cases h
    | ok s =>
        rw [hdesign] at h
        cases h
        exact ⟨s, rfl, rfl⟩

omit [FilterFormat Q] in
theorem passSet_eq_ok {tuning : Tuning} {ctx ctx' : PassContext}
    (h : passSet kind self tuning ctx = .ok ctx') :
    ∃ s, kind.design ctx.order tuning ctx.filterSection = .ok s ∧
      ctx' = { ctx with filterSection := s } := by
  rw [passSet] at h
  split at h
  · cases h
  · cases hdesign : kind.design ctx.order tuning ctx.filterSection with
    | error status =>
        rw [hdesign] at h
        cases h
    | ok s =>
        rw [hdesign] at h
        cases h
        exact ⟨s, rfl, rfl⟩

theorem passReset_eq_ok {initial : Q} {ctx ctx' : PassContext}
    (h : passReset kind self initial ctx = .ok ctx') :
    ctx' = ⟨ctx.order, seed (FilterFormat.load initial)
      (kind.settled (FilterFormat.load initial)) ctx.filterSection⟩ := by
  rw [passReset] at h
  split at h
  · cases h
  · cases h
    rfl

theorem PassKind.Exact.life (hkind : kind.Exact fits) {ctx : PassContext}
    (hrun : (passLevels kind fits self).Life ctx) : ctx.filterSection.Balances kind.settled := by
  apply Levels.Life.invariant (L := passLevels kind fits self)
    (fun ctx => ctx.filterSection.Balances kind.settled) _ _ _ hrun
  · intro arguments ctx h hfits
    obtain ⟨s, hdesign, rfl⟩ := passInit_eq_ok h
    exact hkind.balances _ _ _ s hdesign (hkind.seeded _ _ _ s hfits)
  · intro request ctx ctx' hctx h hfits
    cases request with
    | set tuning =>
        obtain ⟨s, hdesign, rfl⟩ := passSet_eq_ok h
        exact hkind.balances _ _ _ s hdesign hfits
    | reset initial =>
        obtain rfl := passReset_eq_ok h
        exact hctx
  · intro input output m hm
    rcases passStep_cases self input output m with ⟨status, hstep⟩ | ⟨l, result, -, hstep⟩
    · change IirSection.Balances (passStep self input output m).2.ctx.filterSection kind.settled
      rw [hstep]
      exact hm
    · change IirSection.Balances (passStep self input output m).2.ctx.filterSection kind.settled
      rw [hstep]
      exact hm

/-- The section of a filter held at `level` balances and is settled there. -/
def RestsAt (kind : PassKind Q) (level : Q) (s : IirSection) : Prop :=
  s.Balances kind.settled ∧
    s.Settled (FilterFormat.load level) (kind.settled (FilterFormat.load level))

theorem PassKind.Exact.held (hkind : kind.Exact fits) {level result : Q}
    (hresult : kind.settled (FilterFormat.load level) = FilterFormat.load result)
    {ctx : PassContext} (hrun : (passLevels kind fits self).Held level level ctx) :
    RestsAt kind level ctx.filterSection := by
  apply Levels.Held.invariant (L := passLevels kind fits self)
    (fun ctx => RestsAt kind level ctx.filterSection) (fun _ => hkind.life) _ _ _ _ hrun
  · intro arguments ctx hlevel h hfits
    obtain ⟨s, hdesign, rfl⟩ := passInit_eq_ok h
    refine ⟨hkind.balances _ _ _ s hdesign (hkind.seeded _ _ _ s hfits), ?_⟩
    rw [← hlevel]
    exact settled_seed _ _ s
  · intro request ctx ctx' hctx hlevel h hfits
    cases request with
    | set tuning => cases hlevel
    | reset initial =>
        cases hlevel
        obtain rfl := passReset_eq_ok h
        exact ⟨hctx, settled_seed _ _ _⟩
  · intro request ctx ctx' hctx hlevel h hfits
    cases request with
    | set tuning =>
        obtain ⟨s, hdesign, rfl⟩ := passSet_eq_ok h
        exact ⟨hkind.balances _ _ _ s hdesign hfits, hkind.histories _ _ _ s _ _ hdesign hctx.2⟩
    | reset initial => cases hlevel
  · intro output m hm
    change RestsAt kind level (passStep self level output m).2.ctx.filterSection
    rcases passStep_cases self level output m with ⟨status, hstep⟩ | ⟨l, w, hcascade, hstep⟩
    · rw [hstep]
      exact hm
    · obtain ⟨l', hcascade', hx, hy⟩ := cascade_settled hm.1 hm.2 hresult
      rw [hcascade] at hcascade'
      cases hcascade'
      rw [hstep]
      refine ⟨hm.1, ?_⟩
      rw [hx, hy]
      exact hm.2.shift

/-- Every step of a held filter that gets good pointers succeeds with the
settled output. -/
theorem PassKind.Exact.step (hkind : kind.Exact fits) {level result : Q}
    (hresult : kind.settled (FilterFormat.load level) = FilterFormat.load result)
    {ctx : PassContext} (hrun : (passLevels kind fits self).Held level level ctx)
    (output : ℕ) (scratch : Unit) (cell : Q)
    (hpointers : checkOutput self ⟨output, FilterFormat.scalarBytes Q⟩ = .ok ()) :
    ∃ m, passStep self level output ⟨ctx, scratch, cell⟩ = (.ok (), m) ∧ m.output = result := by
  obtain ⟨hbalance, hs⟩ := hkind.held hresult hrun
  obtain ⟨l, hcascade, -, -⟩ := cascade_settled hbalance hs hresult
  refine ⟨⟨⟨ctx.order, shiftHistory (l.x 0) (l.y 0) ctx.filterSection⟩, scratch, result⟩, ?_, rfl⟩
  rw [passStep, attempt_bind_ok hpointers, read_bind, attempt_bind_ok hcascade]
  rfl

end Pass

theorem butterworth_eq_ok {order : ℕ} {tuning : Tuning} {s s' : IirSection}
    (h : butterworth order tuning s = .ok s') : ∃ a1 a2, s' = { s with a1 := a1, a2 := a2 } := by
  rw [butterworth] at h
  split at h
  · cases h
  · cases htuning : tuning with
    | error status =>
        rw [htuning] at h
        cases h
    | ok a =>
        rw [htuning, ok_bind] at h
        split at h
        · cases h
          exact ⟨_, _, rfl⟩
        · cases h
          exact ⟨_, _, rfl⟩

/-- The numerator only sets `b0`, `b1` and `b2`. -/
theorem lowpassNumerator_eq (order : ℕ) (s : IirSection) :
    ∃ b0 b1 b2, lowpassNumerator order s = { s with b0 := b0, b1 := b1, b2 := b2 } := by
  rw [lowpassNumerator]
  split
  · exact ⟨_, _, _, rfl⟩
  · exact ⟨_, _, _, rfl⟩

theorem highpassNumerator_eq (order : ℕ) (s : IirSection) :
    ∃ b0 b1 b2, highpassNumerator order s = { s with b0 := b0, b1 := b1, b2 := b2 } := by
  rw [highpassNumerator]
  split
  · exact ⟨_, _, _, rfl⟩
  · exact ⟨_, _, _, rfl⟩

theorem lowpassDesign_eq_ok {order : ℕ} {tuning : Tuning} {s s' : IirSection}
    (h : lowpassDesign order tuning s = .ok s') :
    ∃ a1 a2, s' = lowpassNumerator order { s with a1 := a1, a2 := a2 } := by
  rw [lowpassDesign] at h
  cases hbutter : butterworth order tuning s with
  | error status =>
      rw [hbutter] at h
      cases h
  | ok t =>
      rw [hbutter] at h
      cases h
      obtain ⟨a1, a2, rfl⟩ := butterworth_eq_ok hbutter
      exact ⟨a1, a2, rfl⟩

theorem highpassDesign_eq_ok {order : ℕ} {tuning : Tuning} {s s' : IirSection}
    (h : highpassDesign order tuning s = .ok s') :
    ∃ a1 a2, s' = highpassNumerator order { s with a1 := a1, a2 := a2 } := by
  rw [highpassDesign] at h
  cases hbutter : butterworth order tuning s with
  | error status =>
      rw [hbutter] at h
      cases h
  | ok t =>
      rw [hbutter] at h
      cases h
      obtain ⟨a1, a2, rfl⟩ := butterworth_eq_ok hbutter
      exact ⟨a1, a2, rfl⟩

/-- The low-pass taps sum to the denominator sum. -/
theorem lowpassDesign_sum {order : ℕ} {tuning : Tuning} {s s' : IirSection}
    (h : lowpassDesign order tuning s = .ok s') (hfits : LowpassFits order s') :
    s'.tapSum = s'.denominatorSum := by
  obtain ⟨a1, a2, rfl⟩ := lowpassDesign_eq_ok h
  obtain ⟨b0, b1, b2, hnumerator⟩ := lowpassNumerator_eq order { s with a1 := a1, a2 := a2 }
  have hsum : (lowpassNumerator order { s with a1 := a1, a2 := a2 }).denominatorSum =
      { s with a1 := a1, a2 := a2 : IirSection }.denominatorSum := by
    rw [hnumerator]
    rfl
  rw [hsum]
  rw [hnumerator] at hfits
  exact tapSum_lowpassNumerator ⟨hfits.first, hfits.sum, hfits.bias⟩

/-- The high-pass taps cancel. -/
theorem highpassDesign_sum {order : ℕ} {tuning : Tuning} {s s' : IirSection}
    (h : highpassDesign order tuning s = .ok s') (hfits : HighpassFits order s') :
    s'.tapSum = 0 := by
  obtain ⟨a1, a2, rfl⟩ := highpassDesign_eq_ok h
  obtain ⟨b0, b1, b2, hnumerator⟩ := highpassNumerator_eq order { s with a1 := a1, a2 := a2 }
  rw [hnumerator] at hfits
  exact tapSum_highpassNumerator ⟨hfits.first, hfits.sum, hfits.bias⟩

omit [FilterFormat Q] in
theorem lpfKind_exact : (lpfKind Q).Exact LowpassFits where
  balances order tuning s s' h hfits x := by
    rw [lowpassDesign_sum h hfits]
    rfl
  histories order tuning s s' x y h hs := by
    obtain ⟨a1, a2, rfl⟩ := lowpassDesign_eq_ok h
    obtain ⟨b0, b1, b2, hnumerator⟩ := lowpassNumerator_eq order { s with a1 := a1, a2 := a2 }
    rw [hnumerator]
    exact ⟨hs.x1, hs.x2, hs.y1, hs.y2⟩
  seeded order x y s hfits := ⟨hfits.first, hfits.sum, hfits.bias⟩

omit [FilterFormat Q] in
theorem hpfKind_exact : (hpfKind Q).Exact HighpassFits where
  balances order tuning s s' h hfits x := by
    rw [highpassDesign_sum h hfits, zero_mul]
    exact (mul_zero _).symm
  histories order tuning s s' x y h hs := by
    obtain ⟨a1, a2, rfl⟩ := highpassDesign_eq_ok h
    obtain ⟨b0, b1, b2, hnumerator⟩ := highpassNumerator_eq order { s with a1 := a1, a2 := a2 }
    rw [hnumerator]
    exact ⟨hs.x1, hs.x2, hs.y1, hs.y2⟩
  seeded order x y s hfits := ⟨hfits.first, hfits.sum, hfits.bias⟩

/-! ## Band-pass -/

def BpfControl.level : BpfControl Q → Option Q
  | .setBand _ => none
  | .setCenter _ => none
  | .reset initial => some initial

/-- The levels of a band-pass filter. -/
abbrev bpfLevels (Q : Type) [FilterFormat Q] (self : Extent) : Levels (bpfFilter Q self) where
  start arguments := arguments.2.2
  restart := BpfControl.level
  fits ctx := BandpassFits ctx.sections.1 ∧ BandpassFits ctx.sections.2

/-- Both sections block a constant. -/
def BlocksLevel (s : IirSection × IirSection) : Prop :=
  s.1.tapSum = 0 ∧ s.2.tapSum = 0

/-- The first section sees the level and gives zero, the second sees zero. -/
def BandRestsAt (level : Q) (s : IirSection × IirSection) : Prop :=
  BlocksLevel s ∧ s.1.Settled (FilterFormat.load level) 0 ∧ s.2.Settled 0 0

theorem balances_zero {s : IirSection} (h : s.tapSum = 0) : s.Balances fun _ => 0 := by
  intro x
  rw [h, zero_mul, Int64.toInt_zero, mul_zero]

theorem bandpassSection_eq_ok {resonator : Resonator} {s s' : IirSection}
    (h : bandpassSection resonator s = .ok s') :
    ∃ b0 a1 a2, s' = { s with b0 := b0, a1 := a1, a2 := a2, b1 := 0, b2 := -b0 } := by
  rw [bandpassSection] at h
  cases hresonator : resonator with
  | error status =>
      rw [hresonator] at h
      cases h
  | ok r =>
      rw [hresonator] at h
      cases h
      exact ⟨r.1, r.2.1, r.2.2, rfl⟩

theorem bandpassSection_sum {resonator : Resonator} {s s' : IirSection}
    (h : bandpassSection resonator s = .ok s') (hfits : BandpassFits s') : s'.tapSum = 0 := by
  obtain ⟨b0, a1, a2, rfl⟩ := bandpassSection_eq_ok h
  exact tapSum_bandpass hfits

theorem bandpassSection_histories {resonator : Resonator} {s s' : IirSection} {x y : Int64}
    (h : bandpassSection resonator s = .ok s') (hs : s.Settled x y) : s'.Settled x y := by
  obtain ⟨b0, a1, a2, rfl⟩ := bandpassSection_eq_ok h
  exact ⟨hs.x1, hs.x2, hs.y1, hs.y2⟩

/-- Order one designs one section and clears the other; order two designs both. -/
theorem bandpassDesign_cases {order : ℕ} {tuning : BandTuning} {s s' : IirSection × IirSection}
    (h : bandpassDesign order tuning s = .ok s') :
    (bandpassSection tuning.single s.1 = .ok s'.1 ∧ s'.2 = unusedSection) ∨
    (bandpassSection tuning.low s.1 = .ok s'.1 ∧ bandpassSection tuning.high s.2 = .ok s'.2) := by
  rw [bandpassDesign] at h
  split at h
  · left
    cases hfirst : bandpassSection tuning.single s.1 with
    | error status =>
        rw [hfirst] at h
        cases h
    | ok first =>
        rw [hfirst] at h
        cases h
        exact ⟨rfl, rfl⟩
  · split at h
    · cases h
    · right
      cases hfirst : bandpassSection tuning.low s.1 with
      | error status =>
          rw [hfirst] at h
          cases h
      | ok first =>
          rw [hfirst, ok_bind] at h
          cases hsecond : bandpassSection tuning.high s.2 with
          | error status =>
              rw [hsecond] at h
              cases h
          | ok second =>
              rw [hsecond] at h
              cases h
              exact ⟨rfl, rfl⟩

theorem bandpassDesign_sum {order : ℕ} {tuning : BandTuning} {s s' : IirSection × IirSection}
    (h : bandpassDesign order tuning s = .ok s')
    (hfits : BandpassFits s'.1 ∧ BandpassFits s'.2) : BlocksLevel s' := by
  rcases bandpassDesign_cases h with ⟨hfirst, hsecond⟩ | ⟨hfirst, hsecond⟩
  · refine ⟨bandpassSection_sum hfirst hfits.1, ?_⟩
    rw [hsecond]
    rfl
  · exact ⟨bandpassSection_sum hfirst hfits.1, bandpassSection_sum hsecond hfits.2⟩

theorem bandpassDesign_histories {order : ℕ} {tuning : BandTuning}
    {s s' : IirSection × IirSection} {x : Int64} (h : bandpassDesign order tuning s = .ok s')
    (hs : s.1.Settled x 0 ∧ s.2.Settled 0 0) : s'.1.Settled x 0 ∧ s'.2.Settled 0 0 := by
  rcases bandpassDesign_cases h with ⟨hfirst, hsecond⟩ | ⟨hfirst, hsecond⟩
  · refine ⟨bandpassSection_histories hfirst hs.1, ?_⟩
    rw [hsecond]
    exact ⟨rfl, rfl, rfl, rfl⟩
  · exact ⟨bandpassSection_histories hfirst hs.1, bandpassSection_histories hsecond hs.2⟩

section Band

variable {self : Extent}

theorem bpfInit_eq_ok {order : ℕ} {band : Except Status BandTuning} {initial : Q}
    {ctx : BpfContext} (h : bpfInit self order band initial = .ok ctx) :
    ∃ tuning s, bandpassDesign order tuning (unusedSection, unusedSection) = .ok s ∧
      ctx = ⟨order, bpfSeed (FilterFormat.load initial) s⟩ := by
  rw [bpfInit] at h
  split at h
  · cases h
  · cases band with
    | error status => cases h
    | ok tuning =>
        rw [ok_bind] at h
        cases hdesign : bandpassDesign order tuning (unusedSection, unusedSection) with
        | error status =>
            rw [hdesign] at h
            cases h
        | ok s =>
            rw [hdesign] at h
            cases h
            exact ⟨tuning, s, hdesign, rfl⟩

theorem bpfSet_eq_ok {band : Except Status BandTuning} {ctx ctx' : BpfContext}
    (h : bpfSet self band ctx = .ok ctx') :
    ∃ tuning s, bandpassDesign ctx.order tuning ctx.sections = .ok s ∧
      ctx' = { ctx with sections := s } := by
  rw [bpfSet] at h
  split at h
  · cases h
  · cases band with
    | error status => cases h
    | ok tuning =>
        rw [ok_bind] at h
        cases hdesign : bandpassDesign ctx.order tuning ctx.sections with
        | error status =>
            rw [hdesign] at h
            cases h
        | ok s =>
            rw [hdesign] at h
            cases h
            exact ⟨tuning, s, hdesign, rfl⟩

theorem bpfReset_eq_ok {initial : Q} {ctx ctx' : BpfContext}
    (h : bpfReset self initial ctx = .ok ctx') :
    ctx' = { ctx with sections := bpfSeed (FilterFormat.load initial) ctx.sections } := by
  rw [bpfReset] at h
  split at h
  · cases h
  · cases h
    rfl

theorem bpfStep_cases (self : Extent) (input : Q) (output : ℕ) (m : Memory BpfContext Unit Q) :
    (∃ status, bpfStep self input output m = (.error status, m)) ∨
    ∃ l result, cascade (fun i => if i = 0 then m.ctx.sections.1 else m.ctx.sections.2)
        (bpfCount m.ctx) input = .ok (l, result) ∧
      bpfStep self input output m = (.ok (), ⟨bpfCommit l m.ctx, m.scratch, result⟩) := by
  rw [bpfStep]
  cases hcheck : checkOutput self ⟨output, FilterFormat.scalarBytes Q⟩ with
  | error status => exact Or.inl ⟨status, rfl⟩
  | ok _ =>
      rw [attempt_bind_ok rfl, read_bind]
      cases hcascade : cascade (fun i => if i = 0 then m.ctx.sections.1 else m.ctx.sections.2)
          (bpfCount m.ctx) input with
      | error status => exact Or.inl ⟨status, rfl⟩
      | ok r => exact Or.inr ⟨r.1, r.2, rfl, rfl⟩

theorem bpfCommit_blocks {l : CascadeLocals} {ctx : BpfContext} (h : BlocksLevel ctx.sections) :
    BlocksLevel (bpfCommit l ctx).sections := by
  refine ⟨h.1, ?_⟩
  change IirSection.tapSum (if bpfCount ctx = 2 then _ else _) = 0
  split
  · exact h.2
  · exact h.2

theorem bpf_life {ctx : BpfContext} (hrun : (bpfLevels Q self).Life ctx) :
    BlocksLevel ctx.sections := by
  apply Levels.Life.invariant (L := bpfLevels Q self)
    (fun ctx => BlocksLevel ctx.sections) _ _ _ hrun
  · intro arguments ctx h hfits
    obtain ⟨tuning, s, hdesign, rfl⟩ := bpfInit_eq_ok h
    have hblocks : BlocksLevel s := bandpassDesign_sum hdesign hfits
    exact hblocks
  · intro request ctx ctx' hctx h hfits
    have hset : ∀ band, bpfSet self band ctx = .ok ctx' → BlocksLevel ctx'.sections := by
      intro band h
      obtain ⟨tuning, s, hdesign, rfl⟩ := bpfSet_eq_ok h
      exact bandpassDesign_sum hdesign hfits
    cases request with
    | setBand band => exact hset band h
    | setCenter band => exact hset band h
    | reset initial =>
        obtain rfl := bpfReset_eq_ok h
        exact hctx
  · intro input output m hm
    change BlocksLevel (bpfStep self input output m).2.ctx.sections
    rcases bpfStep_cases self input output m with ⟨status, hstep⟩ | ⟨l, result, -, hstep⟩
    · rw [hstep]
      exact hm
    · rw [hstep]
      exact bpfCommit_blocks hm

/-- At rest both section sums are zero, so the cascade gives zero and stages
the histories it found. -/
theorem bpf_cascade_settled {level : Q} {ctx : BpfContext} (h : BandRestsAt level ctx.sections) :
    ∃ l, cascade (fun i => if i = 0 then ctx.sections.1 else ctx.sections.2) (bpfCount ctx)
        level = .ok (l, FilterFormat.zero) ∧
      l.x 0 = FilterFormat.load level ∧ l.y 0 = 0 ∧
      (bpfCount ctx = 2 → l.x 1 = 0 ∧ l.y 1 = 0) := by
  obtain ⟨⟨hsum1, hsum2⟩, hs1, hs2⟩ := h
  have hzero : |(0 : Int64).toInt| ≤ 2 ^ 31 := by decide
  obtain ⟨sum1, hvalue1, hcall1⟩ := cascadeSection_settled
    (fun i => if i = 0 then ctx.sections.1 else ctx.sections.2) 0
    ⟨fun _ => 0, fun _ => 0, FilterFormat.load level, ⟨0, 0⟩⟩ (balances_zero hsum1) hs1
    (abs_toInt_load_le level) hzero
  by_cases hcount : bpfCount ctx = 2
  · obtain ⟨sum2, hvalue2, hcall2⟩ := cascadeSection_settled
      (fun i => if i = 0 then ctx.sections.1 else ctx.sections.2) 1
      ⟨Function.update (fun _ => 0) 0 (FilterFormat.load level),
        Function.update (fun _ => 0) 0 0, 0, sum1⟩ (balances_zero hsum2) hs2 hzero hzero
    rw [← load_zero (Q := Q)] at hvalue2
    have hcascade : cascade (fun i => if i = 0 then ctx.sections.1 else ctx.sections.2) 2 level =
        .ok (⟨Function.update (Function.update (fun _ => 0) 0 (FilterFormat.load level)) 1 0,
          Function.update (Function.update (fun _ => 0) 0 0) 1 0, 0, sum2⟩,
          FilterFormat.zero) := by
      rw [cascade, forRange_succ (Nat.zero_le 1), forRange_succ (Nat.zero_le 0),
        forRange_of_le le_rfl, ok_bind, hcall1, ok_bind, hcall2, ok_bind, accumToQ_load hvalue2,
        ok_bind]
    rw [hcount]
    exact ⟨_, hcascade, rfl, rfl, fun _ => ⟨rfl, rfl⟩⟩
  · have hone : bpfCount ctx = 1 := by
      rw [bpfCount] at hcount ⊢
      split at hcount
      · exact absurd rfl hcount
      · exact if_neg ‹_›
    rw [← load_zero (Q := Q)] at hvalue1
    have hcascade : cascade (fun i => if i = 0 then ctx.sections.1 else ctx.sections.2) 1 level =
        .ok (⟨Function.update (fun _ => 0) 0 (FilterFormat.load level),
          Function.update (fun _ => 0) 0 0, 0, sum1⟩, FilterFormat.zero) := by
      rw [cascade, forRange_succ (Nat.zero_le 0), forRange_of_le le_rfl, ok_bind, hcall1, ok_bind,
        accumToQ_load hvalue1, ok_bind]
    rw [hone]
    exact ⟨_, hcascade, rfl, rfl, nofun⟩

theorem bpfCommit_rests {level : Q} {ctx : BpfContext} (h : BandRestsAt level ctx.sections)
    {l : CascadeLocals} (hx0 : l.x 0 = FilterFormat.load level) (hy0 : l.y 0 = 0)
    (h1 : bpfCount ctx = 2 → l.x 1 = 0 ∧ l.y 1 = 0) :
    BandRestsAt level (bpfCommit l ctx).sections := by
  refine ⟨bpfCommit_blocks h.1, ?_, ?_⟩
  · change (shiftHistory (l.x 0) (l.y 0) ctx.sections.1).Settled _ _
    rw [hx0, hy0]
    exact h.2.1.shift
  · change (if bpfCount ctx = 2 then shiftHistory (l.x 1) (l.y 1) ctx.sections.2
      else ctx.sections.2).Settled 0 0
    split
    · rw [(h1 ‹_›).1, (h1 ‹_›).2]
      exact h.2.2.shift
    · exact h.2.2

theorem bpf_held {level : Q} {ctx : BpfContext} (hrun : (bpfLevels Q self).Held level level ctx) :
    BandRestsAt level ctx.sections := by
  apply Levels.Held.invariant (L := bpfLevels Q self)
    (fun ctx => BandRestsAt level ctx.sections) (fun _ => bpf_life) _ _ _ _ hrun
  · intro arguments ctx hlevel h hfits
    obtain ⟨tuning, s, hdesign, rfl⟩ := bpfInit_eq_ok h
    have hblocks : BlocksLevel s := bandpassDesign_sum hdesign hfits
    rw [← hlevel]
    exact ⟨hblocks, settled_seed _ _ _, settled_seed _ _ _⟩
  · intro request ctx ctx' hctx hlevel h hfits
    cases request with
    | setBand band => cases hlevel
    | setCenter band => cases hlevel
    | reset initial =>
        cases hlevel
        obtain rfl := bpfReset_eq_ok h
        exact ⟨hctx, settled_seed _ _ _, settled_seed _ _ _⟩
  · intro request ctx ctx' hctx hlevel h hfits
    have hset : ∀ band, bpfSet self band ctx = .ok ctx' → BandRestsAt level ctx'.sections := by
      intro band h
      obtain ⟨tuning, s, hdesign, rfl⟩ := bpfSet_eq_ok h
      exact ⟨bandpassDesign_sum hdesign hfits, bandpassDesign_histories hdesign hctx.2⟩
    cases request with
    | setBand band => exact hset band h
    | setCenter band => exact hset band h
    | reset initial => cases hlevel
  · intro output m hm
    change BandRestsAt level (bpfStep self level output m).2.ctx.sections
    rcases bpfStep_cases self level output m with ⟨status, hstep⟩ | ⟨l, w, hcascade, hstep⟩
    · rw [hstep]
      exact hm
    · obtain ⟨l', hcascade', hx, hy, hsecond⟩ := bpf_cascade_settled hm
      rw [hcascade] at hcascade'
      cases hcascade'
      rw [hstep]
      exact bpfCommit_rests hm hx hy hsecond

end Band

/-! ## The three filters -/

/-- The taps of every design have the sum its DC gain needs; a filter started
or reset at a level and fed that level gives its settled output at every step,
whatever retunings come between. -/
theorem designed_filters_hold_level (Q : Type) [FilterFormat Q] (self : Extent) :
    (∀ order tuning s s', lowpassDesign order tuning s = .ok s' → LowpassFits order s' →
      s'.b0.toInt + s'.b1.toInt + s'.b2.toInt = fixedOne.toInt + s'.a1.toInt + s'.a2.toInt) ∧
    (∀ order tuning s s', highpassDesign order tuning s = .ok s' → HighpassFits order s' →
      s'.b0.toInt + s'.b1.toInt + s'.b2.toInt = 0) ∧
    (∀ resonator s s', bandpassSection resonator s = .ok s' → BandpassFits s' →
      s'.b0.toInt + s'.b1.toInt + s'.b2.toInt = 0) ∧
    ∀ (level : Q) (output : ℕ) (scratch : Unit) (cell : Q),
      checkOutput self ⟨output, FilterFormat.scalarBytes Q⟩ = .ok () →
      (∀ ctx, Levels.Held (F := lpfFilter Q self) (passLevels (lpfKind Q) LowpassFits self)
          level level ctx →
        ∃ m, (lpfFilter Q self).step level output ⟨ctx, scratch, cell⟩ = (.ok (), m) ∧
          m.output = level) ∧
      (∀ ctx, Levels.Held (F := hpfFilter Q self) (passLevels (hpfKind Q) HighpassFits self)
          level level ctx →
        ∃ m, (hpfFilter Q self).step level output ⟨ctx, scratch, cell⟩ = (.ok (), m) ∧
          m.output = FilterFormat.zero) ∧
      ∀ ctx, (bpfLevels Q self).Held level level ctx →
        ∃ m, (bpfFilter Q self).step level output ⟨ctx, scratch, cell⟩ = (.ok (), m) ∧
          m.output = FilterFormat.zero := by
  refine ⟨fun _ _ _ _ => lowpassDesign_sum, fun _ _ _ _ => highpassDesign_sum,
    fun _ _ _ => bandpassSection_sum, ?_⟩
  intro level output scratch cell hpointers
  refine ⟨fun ctx hrun => ?_, fun ctx hrun => ?_, fun ctx hrun => ?_⟩
  · exact lpfKind_exact.step rfl hrun output scratch cell hpointers
  · exact hpfKind_exact.step load_zero.symm hrun output scratch cell hpointers
  · obtain ⟨l, hcascade, -, -⟩ := bpf_cascade_settled (bpf_held hrun)
    refine ⟨⟨bpfCommit l ctx, scratch, FilterFormat.zero⟩, ?_, rfl⟩
    change bpfStep self level output _ = _
    rw [bpfStep, attempt_bind_ok hpointers, read_bind, attempt_bind_ok hcascade]
    rfl

end Xhive.Filters
