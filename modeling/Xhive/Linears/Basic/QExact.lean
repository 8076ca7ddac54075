import Xhive.Linears.Basic.QKernels

/-!
# Exactness of the raw-Q kernels

Every accumulation path of a kernel carries the exact integer sum, so each
output element is the exact rational expression rounded once by the export.
-/

namespace Xhive.Linears

open Xhive.Support

section Exact

variable {Q : Type} [QFormat Q]

/-- `F`, the number of fractional bits of the format. -/
def fracBits (Q : Type) [QFormat Q] : ℕ :=
  (QFormat.qBits Q).toNat

/-- The raw code of a signal value. -/
def code (x : Q) : ℤ :=
  (QFormat.widen x).toInt

/-- The rational that a raw code stands for. -/
def qValue (x : Q) : ℚ :=
  code x / 2 ^ fracBits Q

theorem fracBits_cases (Q : Type) [QFormat Q] :
    (QFormat.qBits Q = 15 ∧ fracBits Q = 15) ∨ (QFormat.qBits Q = 31 ∧ fracBits Q = 31) := by
  rcases QFormat.qBits_cases (Q := Q) with h | h
  · exact Or.inl ⟨h, by rw [fracBits, h]; rfl⟩
  · exact Or.inr ⟨h, by rw [fracBits, h]; rfl⟩

theorem abs_code_le (x : Q) : |code x| ≤ 2 ^ fracBits Q := by
  rw [abs_le]
  exact ⟨QFormat.le_toInt_widen x, (QFormat.toInt_widen_lt x).le⟩

theorem fracBits_le : fracBits Q ≤ 31 := by
  rcases fracBits_cases Q with ⟨-, h⟩ | ⟨-, h⟩ <;> omega

theorem abs_code_mul_le (x y : Q) : |code x * code y| ≤ 2 ^ (2 * fracBits Q) := by
  rw [abs_mul, two_mul, pow_add]
  exact mul_le_mul (abs_code_le x) (abs_code_le y) (abs_nonneg _) (by positivity)

theorem two_pow_fracBits_le : (2 : ℤ) ^ (2 * fracBits Q) ≤ 2 ^ 62 :=
  pow_le_pow_right₀ (by norm_num) (by have := fracBits_le (Q := Q); omega)

/-- The product of two codes fits one word, `MIN * MIN` included. -/
theorem toInt_rawProduct (x y : Q) : (rawProduct x y).toInt = code x * code y := by
  have h := (abs_code_mul_le x y).trans two_pow_fracBits_le
  rw [abs_le] at h
  exact toInt_mul_of_fits ⟨by change -2 ^ 63 ≤ code x * code y; omega,
    by change code x * code y < 2 ^ 63; omega⟩

/-! ## Dot products -/

/-- The exact integer dot product of the first `count` codes. -/
def codeSum (a : ℕ → Q) (astride : ℕ) (b : ℕ → Q) (bstride count : ℕ) : ℤ :=
  ∑ i ∈ Finset.range count, code (a (i * astride)) * code (b (i * bstride))

variable (a : ℕ → Q) (astride : ℕ) (b : ℕ → Q) (bstride : ℕ)

theorem abs_codeSum_le (count : ℕ) :
    |codeSum a astride b bstride count| ≤ count * 2 ^ (2 * fracBits Q) := by
  calc
    |codeSum a astride b bstride count|
      ≤ ∑ i ∈ Finset.range count, |code (a (i * astride)) * code (b (i * bstride))| :=
        Finset.abs_sum_le_sum_abs _ _
    _ ≤ ∑ _i ∈ Finset.range count, (2 : ℤ) ^ (2 * fracBits Q) :=
        Finset.sum_le_sum fun i _ => abs_code_mul_le _ _
    _ = count * 2 ^ (2 * fracBits Q) := by
        rw [Finset.sum_const, Finset.card_range, nsmul_eq_mul]

theorem codeSum_succ (count : ℕ) :
    codeSum a astride b bstride (count + 1) =
      codeSum a astride b bstride count +
        code (a (count * astride)) * code (b (count * bstride)) := by
  rw [codeSum, Finset.sum_range_succ, codeSum]

/-- The q15 word sum never leaves int64 for the counts the path admits. -/
theorem fitsInt64_codeSum (hbits : fracBits Q = 15) {count : ℕ}
    (hcount : count ≤ (2 ^ 63 - 1) / 2 ^ 30) :
    FitsInt64 (codeSum a astride b bstride count) := by
  have h := abs_codeSum_le a astride b bstride count
  rw [hbits, abs_le] at h
  constructor <;> omega

theorem toInt_dotNarrow (hbits : fracBits Q = 15) {count : ℕ}
    (hcount : count ≤ (2 ^ 63 - 1) / 2 ^ 30) :
    (dotNarrow a astride b bstride count).toInt = codeSum a astride b bstride count := by
  induction count with
  | zero => rfl
  | succ count ih =>
      have hfits := fitsInt64_codeSum a astride b bstride hbits hcount
      have hpre := ih (by omega)
      rw [dotNarrow] at hpre
      rw [codeSum_succ] at hfits ⊢
      rw [dotNarrow, foldRange_succ (Nat.zero_le _), toInt_add_of_fits] <;>
        rw [hpre, toInt_rawProduct]
      exact hfits

/-- No prefix of the limb sum overflows for a count below `2 ^ 64`. -/
theorem fits_codeSum {count : ℕ} (hcount : count < 2 ^ 64) :
    Accum.Fits (codeSum a astride b bstride count) := by
  have h := abs_codeSum_le a astride b bstride count
  have hpow := two_pow_fracBits_le (Q := Q)
  have hmul : (count : ℤ) * 2 ^ (2 * fracBits Q) ≤ 2 ^ 64 * 2 ^ 62 :=
    mul_le_mul (by omega) hpow (by positivity) (by positivity)
  rw [abs_le] at h
  constructor <;> omega

theorem toInt_dotLimbs {count : ℕ} (hcount : count < 2 ^ 64) :
    (dotLimbs a astride b bstride count).toInt = codeSum a astride b bstride count := by
  induction count with
  | zero => exact Accum.toInt_zero
  | succ count ih =>
      have hfits := fits_codeSum a astride b bstride hcount
      have hpre := ih (by omega)
      rw [dotLimbs] at hpre
      rw [codeSum_succ] at hfits ⊢
      rw [dotLimbs, foldRange_succ (Nat.zero_le _), toInt_lnAddProduct64] <;>
        rw [hpre, toInt_rawProduct]
      exact hfits

/-- The q15 alignment of the limb sum stays inside 128 bits. -/
theorem fits_codeSum_shift (hbits : fracBits Q = 15) {count : ℕ} (hcount : count < 2 ^ 64) :
    Accum.Fits (codeSum a astride b bstride count * 2 ^ 32) := by
  have h := abs_codeSum_le a astride b bstride count
  rw [hbits, abs_le] at h
  constructor <;> omega

theorem toInt_dotFallback {count : ℕ} (hcount : count < 2 ^ 64) :
    (dotFallback a astride b bstride count).toInt =
      codeSum a astride b bstride count * 2 ^ (62 - 2 * fracBits Q) := by
  have hlimbs := toInt_dotLimbs a astride b bstride hcount
  rcases fracBits_cases Q with ⟨hword, hbits⟩ | ⟨hword, hbits⟩
  · rw [dotFallback, if_pos hword, toInt_lnShiftAccum (by decide) (by decide), hlimbs, hbits]
    · rfl
    · rw [hlimbs]
      exact fits_codeSum_shift a astride b bstride hbits hcount
  · rw [dotFallback, if_neg (by rw [hword]; decide), hlimbs, hbits]
    simp

/-- The guard is vacuous on narrow targets because their counts are small. -/
theorem narrowCount_le {wide : Bool} {count : ℕ} (hcount : count ≤ sizeMax wide)
    (hnarrow : narrowCount wide count) : count ≤ (2 ^ 63 - 1) / 2 ^ 30 := by
  cases wide with
  | true => exact hnarrow rfl
  | false =>
      rw [sizeMax, if_neg Bool.false_ne_true] at hcount
      omega

/-- Whichever path the build and the count select, the dot product is exact. -/
theorem toInt_dotRaw (wide : Bool) {count : ℕ} (hcount : count ≤ sizeMax wide) :
    (dotRaw wide a astride b bstride count).toInt =
      codeSum a astride b bstride count * 2 ^ (62 - 2 * fracBits Q) := by
  have hlt := sizeMax_lt wide
  rw [dotRaw]
  split
  · rename_i hpath
    obtain ⟨hword, hnarrow⟩ := hpath
    have hbits : fracBits Q = 15 := by rw [fracBits, hword]; rfl
    have hbound := narrowCount_le hcount hnarrow
    rw [toInt_lnShiftI64 _ _ (by decide) (by decide),
      toInt_dotNarrow a astride b bstride hbits hbound, hbits]
    rfl
  · exact toInt_dotFallback a astride b bstride (by omega)

/-- The int64 path and the limb fallback agree bit for bit. -/
theorem dotRaw_eq_dotFallback (wide : Bool) {count : ℕ} (hcount : count ≤ sizeMax wide) :
    dotRaw wide a astride b bstride count = dotFallback a astride b bstride count := by
  have hlt := sizeMax_lt wide
  rw [← Accum.toInt_inj, toInt_dotRaw a astride b bstride wide hcount,
    toInt_dotFallback a astride b bstride (by omega)]

end Exact

/-! ## Diagonal sums -/

section Trace

variable {Q : Type} [QFormat Q] (a : View Q)

/-- The exact integer diagonal sum of the first `count` rows. -/
def diagonalSum (count : ℕ) : ℤ :=
  ∑ i ∈ Finset.range count, code (a.data (i * a.cols + i))

theorem abs_diagonalSum_le (count : ℕ) :
    |diagonalSum a count| ≤ count * 2 ^ fracBits Q := by
  calc
    |diagonalSum a count| ≤ ∑ i ∈ Finset.range count, |code (a.data (i * a.cols + i))| :=
        Finset.abs_sum_le_sum_abs _ _
    _ ≤ ∑ _i ∈ Finset.range count, (2 : ℤ) ^ fracBits Q :=
        Finset.sum_le_sum fun i _ => abs_code_le _
    _ = count * 2 ^ fracBits Q := by
        rw [Finset.sum_const, Finset.card_range, nsmul_eq_mul]

/-- The aligned diagonal sum, hence each prefix of it, fits 128 bits. -/
theorem fits_diagonalSum_shift {count : ℕ} (hcount : count < 2 ^ 64) :
    Accum.Fits (diagonalSum a count * 2 ^ (62 - fracBits Q)) := by
  have h := abs_diagonalSum_le a count
  rw [abs_le] at h
  rcases fracBits_cases Q with ⟨-, hbits⟩ | ⟨-, hbits⟩ <;> rw [hbits] at h ⊢ <;>
    constructor <;> norm_num at h ⊢ <;> omega

theorem fits_diagonalSum {count : ℕ} (hcount : count < 2 ^ 64) :
    Accum.Fits (diagonalSum a count) := by
  have h := abs_diagonalSum_le a count
  rw [abs_le] at h
  rcases fracBits_cases Q with ⟨-, hbits⟩ | ⟨-, hbits⟩ <;> rw [hbits] at h <;>
    constructor <;> omega

theorem toInt_traceLimbs {count : ℕ} (hcount : count < 2 ^ 64) :
    (traceLimbs a count).toInt = diagonalSum a count := by
  induction count with
  | zero => exact Accum.toInt_zero
  | succ count ih =>
      have hfits := fits_diagonalSum a hcount
      have hpre := ih (by omega)
      rw [traceLimbs] at hpre
      rw [diagonalSum, Finset.sum_range_succ] at hfits ⊢
      rw [traceLimbs, foldRange_succ (Nat.zero_le _), toInt_lnAddProduct64] <;> rw [hpre]
      · rfl
      · exact hfits

theorem toNat_sixtyTwo_sub_qBits : (62 - QFormat.qBits Q).toNat = 62 - fracBits Q := by
  rcases fracBits_cases Q with ⟨hword, hbits⟩ | ⟨hword, hbits⟩ <;> rw [hword, hbits] <;> rfl

theorem toInt_traceShift {count : ℕ} (hcount : count < 2 ^ 64) :
    (lnShiftAccum (traceLimbs a count) (62 - QFormat.qBits Q)).toInt =
      diagonalSum a count * 2 ^ (62 - fracBits Q) := by
  have hle := fracBits_le (Q := Q)
  have hword := toNat_sixtyTwo_sub_qBits (Q := Q)
  rw [toInt_lnShiftAccum (by omega) (by omega), toInt_traceLimbs a hcount, hword]
  rw [toInt_traceLimbs a hcount, hword]
  exact fits_diagonalSum_shift a hcount

end Trace

/-! ## Element expressions -/

section Element

variable {Q : Type} [QFormat Q]

/-- The exact dot product in signal units. -/
def exactDot (a : ℕ → Q) (astride : ℕ) (b : ℕ → Q) (bstride count : ℕ) : ℚ :=
  ∑ i ∈ Finset.range count, qValue (a (i * astride)) * qValue (b (i * bstride))

/-- The second operand in signal units; NULL reads as zero. -/
def secondValue (b : Option (View Q)) (i : ℕ) : ℚ :=
  match b with
  | some b => qValue (b.data i)
  | none => 0

/-- Row of `a` times column of `b`. -/
def exactProduct (a : View Q) (b : Option (View Q)) (row col : ℕ) : ℚ :=
  match b with
  | some b =>
      exactDot (fun k => a.data (row * a.cols + k)) 1 (fun k => b.data (col + k)) b.cols a.cols
  | none => 0

/-- The exact value of an output element, before its one rounding. -/
def exactElement (operation : MatrixOp) (a : View Q) (b : Option (View Q))
    (alpha beta : Int64) (outcols row col : ℕ) : ℚ :=
  let i := row * outcols + col
  let x := qValue (a.data i)
  let y := secondValue b i
  match operation with
  | .add => x + y
  | .sub => x - y
  | .hadamard => x * y
  | .mul => exactProduct a b row col
  | .matvec => exactProduct a b row col
  | .transpose => qValue (a.data (col * a.cols + row))
  | .axpby => alpha.toInt / 2 ^ 31 * x + beta.toInt / 2 ^ 31 * y
  | .scale => alpha.toInt / 2 ^ 31 * x

theorem qValue_mul_qValue (x y : Q) :
    qValue x * qValue y * 2 ^ 62 = (code x * code y : ℤ) * 2 ^ (62 - 2 * fracBits Q) := by
  rw [qValue, qValue]
  push_cast
  rcases fracBits_cases Q with ⟨-, hbits⟩ | ⟨-, hbits⟩ <;> rw [hbits] <;> ring

theorem exactDot_mul (a : ℕ → Q) (astride : ℕ) (b : ℕ → Q) (bstride count : ℕ) :
    exactDot a astride b bstride count * 2 ^ 62 =
      (codeSum a astride b bstride count * 2 ^ (62 - 2 * fracBits Q) : ℤ) := by
  rw [exactDot, Finset.sum_mul, codeSum]
  push_cast
  rw [Finset.sum_mul]
  refine Finset.sum_congr rfl fun i _ => ?_
  rw [qValue_mul_qValue]
  push_cast
  rfl

/-- The inline sign extension of the q31 `HADAMARD` branch. -/
theorem toInt_signExtend (product : Int64) :
    Accum.toInt ⟨product.toUInt64, if product < 0 then 0xffffffffffffffff else 0⟩ =
      product.toInt := by
  have hfits := fitsInt64_toInt product
  have hzero : lnAddProduct64 ⟨0, 0⟩ product =
      ⟨product.toUInt64, if product < 0 then 0xffffffffffffffff else 0⟩ := by
    simp [lnAddProduct64]
  rw [← hzero, toInt_lnAddProduct64] <;> rw [Accum.toInt_zero, zero_add]
  have h1 := hfits.1
  have h2 := hfits.2
  constructor <;> omega

theorem toInt_alignedCode {x : Int64} (hx : |x.toInt| ≤ 2 ^ fracBits Q) :
    (alignedCode Q x).toInt = x.toInt * 2 ^ (31 - fracBits Q) := by
  rcases fracBits_cases Q with ⟨hword, hbits⟩ | ⟨hword, hbits⟩
  · rw [hbits, abs_le] at hx
    have hscale : (65536 : Int64).toInt = 65536 := by decide
    rw [alignedCode, if_pos hword, toInt_mul_of_fits (by rw [hscale]; constructor <;> omega),
      hscale, hbits]
    norm_num
  · rw [alignedCode, if_neg (by rw [hword]; decide), hbits]
    norm_num

/-- A coefficient product has magnitude at most `2 ^ 94`. -/
theorem abs_coefficient_product_le (alpha : Int64) {x : Int64}
    (hx : |x.toInt| ≤ 2 ^ fracBits Q) :
    |(lnProduct alpha (alignedCode Q x)).toInt| ≤ 2 ^ 94 := by
  have halpha : |alpha.toInt| ≤ 2 ^ 63 := by
    have hlow := alpha.le_toInt
    have hhigh := alpha.toInt_lt
    rw [abs_le]
    constructor <;> omega
  rw [toInt_lnProduct, toInt_alignedCode hx, abs_mul, abs_mul, abs_pow, abs_two]
  calc
    |alpha.toInt| * (|x.toInt| * 2 ^ (31 - fracBits Q))
      ≤ 2 ^ 63 * (2 ^ fracBits Q * 2 ^ (31 - fracBits Q)) := by gcongr
    _ = 2 ^ 94 := by
        rw [← pow_add, Nat.add_sub_cancel' fracBits_le]
        norm_num

theorem coefficient_product_eq (alpha : Int64) {x : Int64} {v : ℚ}
    (hx : |x.toInt| ≤ 2 ^ fracBits Q) (hv : v = x.toInt / 2 ^ fracBits Q) :
    ((lnProduct alpha (alignedCode Q x)).toInt : ℚ) = alpha.toInt / 2 ^ 31 * v * 2 ^ 62 := by
  rw [toInt_lnProduct, toInt_alignedCode hx, hv]
  push_cast
  rcases fracBits_cases Q with ⟨-, hbits⟩ | ⟨-, hbits⟩ <;> rw [hbits] <;> ring

theorem secondValue_eq (b : Option (View Q)) (i : ℕ) :
    secondValue b i = ((secondCode b i).toInt : ℚ) / 2 ^ fracBits Q := by
  cases b with
  | none => simp [secondValue, secondCode]
  | some b => rfl

theorem abs_secondCode_le (b : Option (View Q)) (i : ℕ) :
    |(secondCode b i).toInt| ≤ 2 ^ fracBits Q := by
  cases b with
  | none =>
      rw [secondCode, Int64.toInt_zero, abs_zero]
      positivity
  | some b => exact abs_code_le (b.data i)

/-- `x ± y` of two codes, aligned to F62. -/
theorem shifted_code_eq {z : Int64} {v : ℚ} (hv : v = z.toInt / 2 ^ fracBits Q) :
    ((lnShiftI64 z (62 - QFormat.qBits Q)).toInt : ℚ) = v * 2 ^ 62 := by
  have hle := fracBits_le (Q := Q)
  have hword := toNat_sixtyTwo_sub_qBits (Q := Q)
  rw [toInt_lnShiftI64 _ _ (by omega) (by omega), hword, hv]
  push_cast
  rcases fracBits_cases Q with ⟨-, hbits⟩ | ⟨-, hbits⟩ <;> rw [hbits] <;> ring

theorem hadamard_eq (x y : Int64) {u v : ℚ}
    (hx : |x.toInt| ≤ 2 ^ fracBits Q) (hy : |y.toInt| ≤ 2 ^ fracBits Q)
    (hu : u = x.toInt / 2 ^ fracBits Q) (hv : v = y.toInt / 2 ^ fracBits Q) :
    ((if QFormat.qBits Q = 15 then lnShiftI64 (x * y) 32
      else ⟨(x * y).toUInt64, if x * y < 0 then 0xffffffffffffffff else 0⟩ : Accum).toInt : ℚ) =
      u * v * 2 ^ 62 := by
  have hprod : |x.toInt * y.toInt| ≤ 2 ^ 62 := by
    refine le_trans ?_ (two_pow_fracBits_le (Q := Q))
    rw [abs_mul, two_mul, pow_add]
    exact mul_le_mul hx hy (abs_nonneg _) (by positivity)
  rw [abs_le] at hprod
  have hmul : (x * y).toInt = x.toInt * y.toInt :=
    toInt_mul_of_fits (by constructor <;> omega)
  rcases fracBits_cases Q with ⟨hword, hbits⟩ | ⟨hword, hbits⟩
  · rw [if_pos hword, toInt_lnShiftI64 _ _ (by decide) (by decide), hmul, hu, hv, hbits,
      show (32 : UInt64).toNat = 32 from rfl]
    push_cast
    ring
  · rw [if_neg (by rw [hword]; decide), toInt_signExtend, hmul, hu, hv, hbits]
    push_cast
    ring

theorem productSum_eq (wide : Bool) (a : Stored wide Q) (b : Option (View Q)) (row col : ℕ) :
    ((productSum wide a.toView b row col).toInt : ℚ) =
      exactProduct a.toView b row col * 2 ^ 62 := by
  cases b with
  | none => simp [productSum, exactProduct]
  | some b =>
      rw [productSum, exactProduct, exactDot_mul]
      split
      · rw [toInt_dotRaw _ _ _ _ _ a.cols_le]
      · rename_i hcols
        rw [not_not.mp hcols, codeSum]
        simp

/-- Every operation but `TRANSPOSE` exports its exact F62 value. -/
theorem elementSum_eq (wide : Bool) (operation : MatrixOp) (hop : operation ≠ .transpose)
    (a : Stored wide Q) (b : Option (View Q)) (alpha beta : Int64) (outcols row col : ℕ) :
    ((elementSum wide operation a.toView b alpha beta row col (row * outcols + col)).toInt : ℚ) =
      exactElement operation a.toView b alpha beta outcols row col * 2 ^ 62 := by
  have hx : |(QFormat.widen (a.data (row * outcols + col))).toInt| ≤ 2 ^ fracBits Q :=
    abs_code_le _
  have hy := abs_secondCode_le b (row * outcols + col)
  have hvalue : qValue (a.data (row * outcols + col)) =
      ((QFormat.widen (a.data (row * outcols + col))).toInt : ℚ) / 2 ^ fracBits Q := rfl
  have hsecond := secondValue_eq b (row * outcols + col)
  have hpow : (2 : ℤ) ^ fracBits Q ≤ 2 ^ 31 :=
    pow_le_pow_right₀ (by norm_num) fracBits_le
  have hx' := abs_le.mp (hx.trans hpow)
  have hy' := abs_le.mp (hy.trans hpow)
  cases operation with
  | transpose => exact absurd rfl hop
  | mul => exact productSum_eq wide a b row col
  | matvec => exact productSum_eq wide a b row col
  | add =>
      refine shifted_code_eq ?_
      rw [if_pos rfl, toInt_add_of_fits (by constructor <;> omega), exactElement, hvalue, hsecond]
      push_cast
      ring
  | sub =>
      refine shifted_code_eq ?_
      rw [if_neg nofun, toInt_sub_of_fits (by constructor <;> omega), exactElement, hvalue, hsecond]
      push_cast
      ring
  | hadamard => exact hadamard_eq _ _ hx hy hvalue hsecond
  | scale => exact coefficient_product_eq alpha hx hvalue
  | axpby =>
      have hsum := abs_le.mp (abs_coefficient_product_le alpha hx)
      have hsum' := abs_le.mp (abs_coefficient_product_le beta hy)
      change ((lnAddUnchecked _ _).toInt : ℚ) = _
      rw [toInt_lnAddUnchecked (by constructor <;> omega)]
      push_cast
      rw [coefficient_product_eq alpha hx hvalue, coefficient_product_eq beta hy hsecond]
      rw [exactElement]
      ring

/-! ## The export of an element -/

/-- The code of the exact value `v`: one rounding, then the endpoint rule. -/
def roundedCode (Q : Type) [QFormat Q] (v : ℚ) : ℤ :=
  endpoint (fracBits Q) (roundAway (v * 2 ^ fracBits Q))

theorem roundedCode_qValue (x : Q) : roundedCode Q (qValue x) = code x := by
  have hpow : (2 : ℚ) ^ fracBits Q ≠ 0 := by positivity
  have hlt : code x < 2 ^ fracBits Q := QFormat.toInt_widen_lt x
  rw [roundedCode, qValue, div_mul_cancel₀ _ hpow, roundAway_intCast, endpoint, if_neg hlt.ne]

theorem abs_qValue_le (x : Q) : |qValue x| ≤ 1 := by
  have hpow : (0 : ℚ) < 2 ^ fracBits Q := by positivity
  rw [qValue, abs_div, abs_of_pos hpow, div_le_one hpow]
  exact_mod_cast abs_code_le x

theorem quantizedCode_eq {n : ℤ} {v : ℚ} (h : (n : ℚ) = v * 2 ^ 62) :
    quantizedCode (fracBits Q) n = roundedCode Q v := by
  rw [quantizedCode, roundedCode, h]
  rcases fracBits_cases Q with ⟨-, hbits⟩ | ⟨-, hbits⟩ <;> rw [hbits] <;> congr 2 <;> ring

/-- Exporting an accumulator that holds `v` in F62. -/
theorem linearsAccumToQ_of_eq {value : Accum} {v : ℚ} (h : (value.toInt : ℚ) = v * 2 ^ 62)
    (old : Q) :
    (|v| ≤ 1 ∧ ∃ stored : Q, linearsAccumToQ value (some old) = (.ok, some stored) ∧
        code stored = roundedCode Q v) ∨
      (1 < |v| ∧ linearsAccumToQ value (some old) = (.errorRange, some old)) := by
  have habs : ((|value.toInt| : ℤ) : ℚ) = |v| * 2 ^ 62 := by
    rw [Int.cast_abs, h, abs_mul, abs_of_pos (show (0 : ℚ) < 2 ^ 62 by positivity)]
  have hscale : |value.toInt| ≤ 2 ^ 62 ↔ |v| ≤ 1 := by
    rw [← Int.cast_le (R := ℚ), habs]
    push_cast
    constructor <;> intro hle <;> linarith
  rcases linearsAccumToQ_eq value old with ⟨hle, stored, heq, hcode⟩ | ⟨hgt, heq⟩
  · exact Or.inl ⟨hscale.mp hle, stored, heq, hcode.trans (quantizedCode_eq h)⟩
  · exact Or.inr ⟨not_le.mp (fun hle => not_lt.mpr (hscale.mpr hle) hgt), heq⟩

theorem evaluateElement_eq (wide : Bool) (operation : MatrixOp) (a : Stored wide Q)
    (b : Option (View Q)) (outcols : ℕ) (alpha beta : Int64) (row col : ℕ) (old : Q) :
    (|exactElement operation a.toView b alpha beta outcols row col| ≤ 1 ∧
      ∃ stored : Q,
        evaluateElement wide operation a.toView b outcols alpha beta row col old = (.ok, stored) ∧
        code stored =
          roundedCode Q (exactElement operation a.toView b alpha beta outcols row col)) ∨
    (1 < |exactElement operation a.toView b alpha beta outcols row col| ∧
      evaluateElement wide operation a.toView b outcols alpha beta row col old =
        (.errorRange, old)) := by
  by_cases hop : operation = .transpose
  · subst hop
    exact Or.inl ⟨abs_qValue_le _, _, rfl, (roundedCode_qValue _).symm⟩
  · rw [evaluateElement, if_neg hop]
    have hsum := elementSum_eq wide operation hop a b alpha beta outcols row col
    rcases linearsAccumToQ_of_eq hsum old with ⟨hle, stored, heq, hcode⟩ | ⟨hgt, heq⟩
    · exact Or.inl ⟨hle, stored, by rw [heq]; rfl, hcode⟩
    · exact Or.inr ⟨hgt, by rw [heq]; rfl⟩

/-! ## The whole loop nest -/

theorem rowMajor_inj {cols row col row' col' : ℕ} (hcol : col < cols) (hcol' : col' < cols)
    (h : row * cols + col = row' * cols + col') : row = row' ∧ col = col' := by
  have hrow : row = row' := by
    have hdiv := congrArg (· / cols) h
    simpa [Nat.mul_add_div, Nat.add_div_of_dvd_right, Nat.div_eq_of_lt hcol,
      Nat.div_eq_of_lt hcol', Nat.mul_div_cancel _ (Nat.zero_lt_of_lt hcol)] using hdiv
  subst hrow
  exact ⟨rfl, by omega⟩

/-- The elements before `(row, col)` are in range and staged. -/
def Staged (exact : ℕ → ℕ → ℚ) (cols row col : ℕ) (workspace : ℕ → Q) : Prop :=
  ∀ r c, c < cols → (r < row ∨ r = row ∧ c < col) →
    |exact r c| ≤ 1 ∧ code (workspace (r * cols + c)) = roundedCode Q (exact r c)

theorem Staged.step {exact : ℕ → ℕ → ℚ} {cols row col : ℕ} {workspace : ℕ → Q} {v : Q}
    (h : Staged exact cols row col workspace) (hcol : col < cols) (hle : |exact row col| ≤ 1)
    (hv : code v = roundedCode Q (exact row col)) :
    Staged exact cols row (col + 1) (Function.update workspace (row * cols + col) v) := by
  intro r c hc hbefore
  by_cases hcell : r * cols + c = row * cols + col
  · obtain ⟨rfl, rfl⟩ := rowMajor_inj hc hcol hcell
    rw [Function.update_self]
    exact ⟨hle, hv⟩
  · rw [Function.update_of_ne hcell]
    refine h r c hc ?_
    rcases hbefore with hr | ⟨rfl, hlt⟩
    · exact Or.inl hr
    · have : c ≠ col := fun hEq => hcell (by rw [hEq])
      exact Or.inr ⟨rfl, by omega⟩

theorem evaluate_eq (wide : Bool) (operation : MatrixOp) (a : Stored wide Q)
    (b : Option (View Q)) (outrows outcols : ℕ) (alpha beta : Int64) (workspace : ℕ → Q) :
    let exact := exactElement operation a.toView b alpha beta outcols
    let result := evaluate wide operation a.toView b outrows outcols alpha beta workspace
    (result.1 = .ok ∧ Staged exact outcols outrows 0 result.2) ∨
      (result.1 = .errorRange ∧ ∃ row < outrows, ∃ col < outcols, 1 < |exact row col|) := by
  intro exact result
  have hloop : (result.1 = .ok ∧ Staged exact outcols outrows 0 result.2) ∨
      (result.1 ≠ .ok ∧ result.1 = .errorRange ∧
        ∃ row < outrows, ∃ col < outcols, 1 < |exact row col|) := by
    refine stageRows_induction (Staged exact outcols) (fun failed => failed.1 = .errorRange ∧
      ∃ row < outrows, ∃ col < outcols, 1 < |exact row col|) ?_ ?_ ?_
    · intro r c _ hbefore
      omega
    · intro row t _ ht r c hc hbefore
      exact ht r c hc (by omega)
    · intro row col t hrow hcol ht
      rcases evaluateElement_eq wide operation a b outcols alpha beta row col
        (t (row * outcols + col)) with ⟨hle, stored, heq, hcode⟩ | ⟨hgt, heq⟩ <;>
        dsimp only <;> rw [heq]
      · exact Or.inl ⟨rfl, ht.step hcol hle hcode⟩
      · exact Or.inr ⟨nofun, rfl, row, hrow, col, hcol, hgt⟩
  rcases hloop with h | h
  · exact Or.inl h
  · exact Or.inr h.2

/-! ## Reductions -/

/-- The exact value of a dot product or a trace. -/
def exactReduction (operation : ReductionOp) (a : View Q) (b : View Q) (count : ℕ) : ℚ :=
  match operation with
  | .dot => exactDot a.data 1 b.data 1 count
  | .trace => ∑ i ∈ Finset.range count, qValue (a.data (i * a.cols + i))
  | .norm => exactDot a.data 1 a.data 1 count

theorem exactTrace_mul (a : View Q) (count : ℕ) :
    (∑ i ∈ Finset.range count, qValue (a.data (i * a.cols + i))) * 2 ^ 62 =
      (diagonalSum a count * 2 ^ (62 - fracBits Q) : ℤ) := by
  rw [diagonalSum, Finset.sum_mul]
  push_cast
  rw [Finset.sum_mul]
  refine Finset.sum_congr rfl fun i _ => ?_
  rw [qValue]
  rcases fracBits_cases Q with ⟨-, hbits⟩ | ⟨-, hbits⟩ <;> rw [hbits] <;> ring

omit [QFormat Q] in
theorem reductionCount_le (wide : Bool) (operation : ReductionOp) (a : Stored wide Q) :
    reductionCount operation a.toView ≤ sizeMax wide := by
  rw [reductionCount]
  split
  · exact a.rows_le
  · exact a.count_le

/-- `DOT` and `TRACE` export their exact sum like an element. -/
theorem reduce_eq (wide : Bool) (operation : ReductionOp) (hop : operation ≠ .norm)
    (a : View Q) (b : View Q) {count : ℕ} (hcount : count ≤ sizeMax wide) (out : Q) :
    (|exactReduction operation a b count| ≤ 1 ∧
      ∃ stored : Q, reduce wide operation a (some b) count out = (.ok, stored) ∧
        code stored = roundedCode Q (exactReduction operation a b count)) ∨
    (1 < |exactReduction operation a b count| ∧
      reduce wide operation a (some b) count out = (.errorRange, out)) := by
  have hlt := sizeMax_lt wide
  obtain ⟨sum, hsum, heq⟩ : ∃ sum : Accum,
      (sum.toInt : ℚ) = exactReduction operation a b count * 2 ^ 62 ∧
      reduce wide operation a (some b) count out =
        ((linearsAccumToQ sum (some out)).1, (linearsAccumToQ sum (some out)).2.getD out) := by
    cases operation with
    | norm => exact absurd rfl hop
    | dot =>
        refine ⟨dotRaw wide a.data 1 b.data 1 count, ?_, rfl⟩
        rw [toInt_dotRaw _ _ _ _ _ hcount]
        exact (exactDot_mul _ _ _ _ _).symm
    | trace =>
        refine ⟨lnShiftAccum (traceLimbs a count) (62 - QFormat.qBits Q), ?_, rfl⟩
        rw [toInt_traceShift a (by omega)]
        exact (exactTrace_mul a count).symm
  rcases linearsAccumToQ_of_eq hsum out with ⟨hle, stored, hres, hcode⟩ | ⟨hgt, hres⟩
  · exact Or.inl ⟨hle, stored, by rw [heq, hres]; rfl, hcode⟩
  · exact Or.inr ⟨hgt, by rw [heq, hres]; rfl⟩

theorem codeSum_self_nonneg (a : ℕ → Q) (count : ℕ) : 0 ≤ codeSum a 1 a 1 count :=
  Finset.sum_nonneg fun _ _ => mul_self_nonneg _

/-- The norm of codes is the integer root of their exact sum of squares. -/
theorem sqrt_codeSum (a : ℕ → Q) (count : ℕ) :
    Real.sqrt (codeSum a 1 a 1 count) =
      Real.sqrt (exactDot a 1 a 1 count : ℚ) * 2 ^ fracBits Q := by
  have hscale : (exactDot a 1 a 1 count : ℚ) * (2 ^ fracBits Q * 2 ^ fracBits Q) =
      codeSum a 1 a 1 count := by
    have h := exactDot_mul a 1 a 1 count
    push_cast at h
    rcases fracBits_cases Q with ⟨-, hbits⟩ | ⟨-, hbits⟩ <;> rw [hbits] at h ⊢ <;>
      norm_num at h ⊢ <;> linarith
  have hreal : ((codeSum a 1 a 1 count : ℤ) : ℝ) =
      ((exactDot a 1 a 1 count : ℚ) : ℝ) * (2 ^ fracBits Q * 2 ^ fracBits Q) := by
    exact_mod_cast congrArg (Rat.cast (K := ℝ)) hscale.symm
  rw [hreal, Real.sqrt_mul' _ (by positivity), Real.sqrt_mul_self (by positivity)]

theorem reduce_norm_eq (wide : Bool) (a : View Q) (b : Option (View Q)) {count : ℕ}
    (hcount : count ≤ sizeMax wide) (out : Q) :
    (exactDot a.data 1 a.data 1 count ≤ 1 ∧
      ∃ stored : Q, reduce wide .norm a b count out = (.ok, stored) ∧
        code stored = endpoint (fracBits Q) (roundAway
          (Real.sqrt (exactDot a.data 1 a.data 1 count : ℚ) * 2 ^ fracBits Q))) ∨
    (1 < exactDot a.data 1 a.data 1 count ∧
      reduce wide .norm a b count out = (.errorRange, out)) := by
  have hexact := exactDot_mul a.data 1 a.data 1 count
  have hsqrt := sqrt_codeSum a.data count
  have hnonneg := codeSum_self_nonneg a.data count
  have hsum := toInt_dotRaw a.data 1 a.data 1 wide hcount
  generalize hN : codeSum a.data 1 a.data 1 count = N at *
  generalize hS : exactDot a.data 1 a.data 1 count = S at *
  have hreduce : reduce wide .norm a b count out =
      let sum := dotRaw wide a.data 1 a.data 1 count
      if sum.high ≠ 0 ∨ sum.low > (1 : UInt64) <<< 62 then
        (.errorRange, out)
      else
        let raw := lnSqrtNearest64
          (if QFormat.qBits Q = 15 then sum.low >>> 32 else sum.low)
        let raw := if raw = (1 : UInt64) <<< QFormat.qBits Q then raw - 1 else raw
        (.ok, QFormat.narrow raw.toInt64) := by
    cases b <;> rfl
  rw [hreduce]
  generalize dotRaw wide a.data 1 a.data 1 count = sum at *
  have hpow : (0 : ℤ) ≤ 2 ^ (62 - 2 * fracBits Q) := by positivity
  have hsumNonneg : 0 ≤ sum.toInt := by
    rw [hsum]
    exact mul_nonneg hnonneg hpow
  have htoNat : (sum.toNat : ℤ) = sum.toInt := by
    have := sum.toNat_lt
    rw [Accum.toInt] at hsumNonneg ⊢
    split at hsumNonneg
    · rw [if_pos ‹_›]
    · omega
  have hlow := sum.low.toNat_lt
  have hcap : ((1 : UInt64) <<< 62).toNat = 2 ^ 62 := rfl
  have hguard : (sum.high ≠ 0 ∨ sum.low > (1 : UInt64) <<< 62) ↔ 1 < S := by
    have hword : (sum.high ≠ 0 ∨ sum.low > (1 : UInt64) <<< 62) ↔ 2 ^ 62 < sum.toInt := by
      rw [ne_eq, ← UInt64.toNat_inj, UInt64.toNat_zero, gt_iff_lt, UInt64.lt_iff_toNat_lt,
        hcap, ← htoNat, Accum.toNat]
      omega
    rw [hword, hsum, ← Int.cast_lt (R := ℚ), ← hexact]
    push_cast
    constructor <;> intro h <;> linarith
  by_cases hrange : 1 < S
  · right
    exact ⟨hrange, by simp only [if_pos (hguard.mpr hrange)]⟩
  · left
    refine ⟨not_lt.mp hrange, ?_⟩
    have hfits := not_or.mp (fun h => hrange (hguard.mp h))
    have hlowEq : (sum.low.toNat : ℤ) = N * 2 ^ (62 - 2 * fracBits Q) := by
      rw [← hsum, ← htoNat, Accum.toNat, not_not.mp hfits.1, UInt64.toNat_zero]
      omega
    have hradicand : ((if QFormat.qBits Q = 15 then sum.low >>> 32 else sum.low).toNat : ℤ) =
        N := by
      rcases fracBits_cases Q with ⟨hword, hbits⟩ | ⟨hword, hbits⟩
      · rw [hbits] at hlowEq
        rw [if_pos hword, toNat_shiftRight_32]
        omega
      · rw [hbits] at hlowEq
        rw [if_neg (by rw [hword]; decide)]
        omega
    simp only [if_neg (fun h => hrange (hguard.mp h))]
    generalize (if QFormat.qBits Q = 15 then sum.low >>> 32 else sum.low) = radicand at *
    have hroot := toNat_lnSqrtNearest64 radicand
    rw [show ((radicand.toNat : ℕ) : ℝ) = ((N : ℤ) : ℝ) by exact_mod_cast hradicand,
      hsqrt] at hroot
    generalize lnSqrtNearest64 radicand = raw at *
    have hone : Real.sqrt (S : ℝ) ≤ 1 := by
      rw [Real.sqrt_le_one]
      exact_mod_cast not_lt.mp hrange
    have hle : (raw.toNat : ℤ) ≤ 2 ^ fracBits Q := by
      rw [hroot]
      refine roundAway_le ?_
      push_cast
      exact mul_le_of_le_one_left (by positivity) hone
    have hbits : (QFormat.qBits Q).toNat < 62 := by
      have := fracBits_le (Q := Q)
      rw [fracBits] at this
      omega
    have hword : raw.toNat ≤ 2 ^ (QFormat.qBits Q).toNat := by
      rw [fracBits] at hle
      exact_mod_cast hle
    have hstored := toInt_endpointWord hbits hword
    have habs : |(raw.toNat : ℤ)| ≤ 2 ^ fracBits Q := by
      rw [Nat.abs_cast]
      exact hle
    have hbounds := endpoint_bounds habs
    refine ⟨_, rfl, ?_⟩
    rw [code, QFormat.toInt_widen_narrow] <;> rw [hstored]
    · rw [hroot]
      rfl
    · exact hbounds.1
    · exact hbounds.2

end Element

/-! ## Both formats, all kernels -/

section Claim

variable {Q : Type} [QFormat Q]

theorem evaluate_iff (wide : Bool) (operation : MatrixOp) (a : Stored wide Q)
    (b : Option (View Q)) (outrows outcols : ℕ) (alpha beta : Int64) (workspace : ℕ → Q) :
    let exact := exactElement operation a.toView b alpha beta outcols
    let result := evaluate wide operation a.toView b outrows outcols alpha beta workspace
    (result.1 = .ok ∨ result.1 = .errorRange) ∧
      (result.1 = .errorRange ↔ ∃ row < outrows, ∃ col < outcols, 1 < |exact row col|) ∧
      (result.1 = .ok → ∀ row < outrows, ∀ col < outcols,
        code (result.2 (row * outcols + col)) = roundedCode Q (exact row col)) := by
  intro exact result
  rcases evaluate_eq wide operation a b outrows outcols alpha beta workspace with
    ⟨hok, hstaged⟩ | ⟨herr, hrange⟩
  · have helement : ∀ row < outrows, ∀ col < outcols, |exact row col| ≤ 1 ∧
        code (result.2 (row * outcols + col)) = roundedCode Q (exact row col) :=
      fun row hrow col hcol => hstaged row col hcol (Or.inl hrow)
    refine ⟨Or.inl hok, ⟨fun h => ?_, ?_⟩, fun _ row hrow col hcol => (helement row hrow col hcol).2⟩
    · exact absurd (hok.symm.trans h) nofun
    · rintro ⟨row, hrow, col, hcol, hgt⟩
      exact absurd (helement row hrow col hcol).1 (not_le.mpr hgt)
  · refine ⟨Or.inr herr, ⟨fun _ => hrange, fun _ => herr⟩, fun h => ?_⟩
    exact absurd (herr.symm.trans h) nofun

theorem reduce_iff (wide : Bool) (operation : ReductionOp) (hop : operation ≠ .norm)
    (a : Stored wide Q) (b : View Q) (out : Q) :
    let exact := exactReduction operation a.toView b (reductionCount operation a.toView)
    let result := reduce wide operation a.toView (some b) (reductionCount operation a.toView) out
    (result.1 = .ok ∨ result.1 = .errorRange) ∧ (result.1 = .errorRange ↔ 1 < |exact|) ∧
      (result.1 = .ok → code result.2 = roundedCode Q exact) := by
  intro exact result
  rcases reduce_eq wide operation hop a.toView b (reductionCount_le wide operation a) out with
    ⟨hle, stored, heq, hcode⟩ | ⟨hgt, heq⟩
  · have hresult : result = (.ok, stored) := heq
    rw [hresult]
    exact ⟨Or.inl rfl, ⟨nofun, fun hgt => absurd hle (not_le.mpr hgt)⟩, fun _ => hcode⟩
  · have hresult : result = (.errorRange, out) := heq
    rw [hresult]
    exact ⟨Or.inr rfl, ⟨fun _ => hgt, fun _ => rfl⟩, nofun⟩

theorem reduce_norm_iff (wide : Bool) (a : Stored wide Q) (b : Option (View Q)) (out : Q) :
    let squares := exactDot a.data 1 a.data 1 (reductionCount .norm a.toView)
    let result := reduce wide .norm a.toView b (reductionCount .norm a.toView) out
    (result.1 = .ok ∨ result.1 = .errorRange) ∧ (result.1 = .errorRange ↔ 1 < squares) ∧
      (result.1 = .ok → code result.2 = endpoint (fracBits Q)
        (roundAway (Real.sqrt (squares : ℚ) * 2 ^ fracBits Q))) := by
  intro squares result
  rcases reduce_norm_eq wide a.toView b (reductionCount_le wide .norm a) out with
    ⟨hle, stored, heq, hcode⟩ | ⟨hgt, heq⟩
  · have hresult : result = (.ok, stored) := heq
    rw [hresult]
    exact ⟨Or.inl rfl, ⟨nofun, fun hgt => absurd hle (not_le.mpr hgt)⟩, fun _ => hcode⟩
  · have hresult : result = (.errorRange, out) := heq
    rw [hresult]
    exact ⟨Or.inr rfl, ⟨fun _ => hgt, fun _ => rfl⟩, nofun⟩

/-- Each prefix of an accumulation that a count admits is exact, and so is the
alignment that follows. -/
def AccumulatesExactly (wide : Bool) (a : ℕ → Q) (astride : ℕ) (b : ℕ → Q) (bstride count : ℕ) :
    Prop :=
  (∀ k ≤ count,
    (fracBits Q = 15 ∧ narrowCount wide count →
      FitsInt64 (codeSum a astride b bstride k) ∧
        (dotNarrow a astride b bstride k).toInt = codeSum a astride b bstride k) ∧
    Accum.Fits (codeSum a astride b bstride k) ∧
      (dotLimbs a astride b bstride k).toInt = codeSum a astride b bstride k) ∧
  (dotRaw wide a astride b bstride count).toInt =
    codeSum a astride b bstride count * 2 ^ (62 - 2 * fracBits Q)

theorem accumulatesExactly (wide : Bool) (a : ℕ → Q) (astride : ℕ) (b : ℕ → Q)
    (bstride : ℕ) {count : ℕ} (hcount : count ≤ sizeMax wide) :
    AccumulatesExactly wide a astride b bstride count := by
  have hlt := sizeMax_lt wide
  refine ⟨fun k hk => ⟨fun hpath => ?_, ?_, ?_⟩, toInt_dotRaw a astride b bstride wide hcount⟩
  · have hbound := narrowCount_le hcount hpath.2
    exact ⟨fitsInt64_codeSum a astride b bstride hpath.1 (by omega),
      toInt_dotNarrow a astride b bstride hpath.1 (by omega)⟩
  · exact fits_codeSum a astride b bstride (by omega)
  · exact toInt_dotLimbs a astride b bstride (by omega)

/-- Every raw-Q kernel computes each output element exactly and rounds it once;
it fails exactly when an exact output leaves `[-1, 1]`, and no accumulation of
a `size_t` count overflows on either path. -/
theorem q_kernels_round_exact_elements_once (wide : Bool) :
    (∀ (operation : MatrixOp) (a : Stored wide Q) (b : Option (View Q))
        (outrows outcols : ℕ) (alpha beta : Int64) (workspace : ℕ → Q),
      let exact := exactElement operation a.toView b alpha beta outcols
      let result := evaluate wide operation a.toView b outrows outcols alpha beta workspace
      (result.1 = .ok ∨ result.1 = .errorRange) ∧
        (result.1 = .errorRange ↔ ∃ row < outrows, ∃ col < outcols, 1 < |exact row col|) ∧
        (result.1 = .ok → ∀ row < outrows, ∀ col < outcols,
          code (result.2 (row * outcols + col)) = roundedCode Q (exact row col))) ∧
    (∀ operation : ReductionOp, operation ≠ .norm → ∀ (a : Stored wide Q) (b : View Q) (out : Q),
      let exact := exactReduction operation a.toView b (reductionCount operation a.toView)
      let result :=
        reduce wide operation a.toView (some b) (reductionCount operation a.toView) out
      (result.1 = .ok ∨ result.1 = .errorRange) ∧ (result.1 = .errorRange ↔ 1 < |exact|) ∧
        (result.1 = .ok → code result.2 = roundedCode Q exact)) ∧
    (∀ (a : Stored wide Q) (b : Option (View Q)) (out : Q),
      let squares := exactDot a.data 1 a.data 1 (reductionCount .norm a.toView)
      let result := reduce wide .norm a.toView b (reductionCount .norm a.toView) out
      (result.1 = .ok ∨ result.1 = .errorRange) ∧ (result.1 = .errorRange ↔ 1 < squares) ∧
        (result.1 = .ok → code result.2 = endpoint (fracBits Q)
          (roundAway (Real.sqrt (squares : ℚ) * 2 ^ fracBits Q)))) ∧
    (∀ (a : ℕ → Q) (astride : ℕ) (b : ℕ → Q) (bstride count : ℕ), count ≤ sizeMax wide →
      AccumulatesExactly wide a astride b bstride count ∧
        dotRaw wide a astride b bstride count = dotFallback a astride b bstride count) ∧
    (∀ (a : View Q) (count : ℕ), count ≤ sizeMax wide →
      Accum.Fits (diagonalSum a count * 2 ^ (62 - fracBits Q)) ∧
        ∀ k ≤ count, Accum.Fits (diagonalSum a k) ∧
          (traceLimbs a k).toInt = diagonalSum a k) := by
  have hlt := sizeMax_lt wide
  refine ⟨?_, ?_, ?_, ?_, ?_⟩
  · exact evaluate_iff wide
  · exact reduce_iff wide
  · exact reduce_norm_iff wide
  · intro a astride b bstride count hcount
    exact ⟨accumulatesExactly wide a astride b bstride hcount,
      dotRaw_eq_dotFallback a astride b bstride wide hcount⟩
  · intro a count hcount
    exact ⟨fits_diagonalSum_shift a (by omega),
      fun k hk => ⟨fits_diagonalSum a (by omega), toInt_traceLimbs a (by omega)⟩⟩

end Claim

end Xhive.Linears
