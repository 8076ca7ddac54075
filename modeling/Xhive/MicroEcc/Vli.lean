import Xhive.Support.Outcome
import Mathlib.Logic.Function.Basic

/-!
# Large integers of `uECC.c`

A large integer is an array of words, the least significant first.  The width of
a word and the count of words are arbitrary; a loop writes the words below its
count and leaves the others.
-/

namespace Xhive.MicroEcc

open Xhive.Support

/-- An array of words of `w` bits. -/
abbrev Vli (w : ℕ) := ℕ → BitVec w

variable {w : ℕ}

/-- The words from a place on. -/
def Vli.drop (vli : Vli w) (base : ℕ) : Vli w := fun i => vli (base + i)

/-- The words from a place on are others. -/
def Vli.replace (vli : Vli w) (base : ℕ) (words : Vli w) : Vli w :=
  fun i => if base ≤ i then words (i - base) else vli i

/-! ## Words of one number -/

/-- `uECC_vli_clear`. -/
def vliClear (n : ℕ) (vli : Vli w) : Vli w :=
  foldRange 0 n vli fun i vli => Function.update vli i 0

/-- `uECC_vli_isZero`. -/
def vliIsZero (n : ℕ) (vli : Vli w) : Bool :=
  (foldRange 0 n 0 fun i (bits : BitVec w) => bits ||| vli i) == 0

/-- `uECC_vli_testBit`. -/
def vliTestBit (vli : Vli w) (bit : ℕ) : BitVec w :=
  vli (bit / w) &&& ((1 : BitVec w) <<< (bit % w))

/-- `vli_numDigits`. -/
def vliNumDigits (vli : Vli w) : ℕ → ℕ
  | 0 => 0
  | n + 1 => if vli n = 0 then vliNumDigits vli n else n + 1

/-- The loop of `uECC_vli_numBits` over its highest word. -/
def countBits : ℕ → BitVec w → ℕ
  | 0, _ => 0
  | fuel + 1, digit => if digit = 0 then 0 else countBits fuel (digit >>> 1) + 1

/-- `uECC_vli_numBits`. -/
def vliNumBits (n : ℕ) (vli : Vli w) : ℕ :=
  let numDigits := vliNumDigits vli n
  if numDigits = 0 then 0 else (numDigits - 1) * w + countBits w (vli (numDigits - 1))

/-- `uECC_vli_set`. -/
def vliSet (n : ℕ) (dest src : Vli w) : Vli w :=
  foldRange 0 n dest fun i dest => Function.update dest i (src i)

/-- `uECC_vli_cmp_unsafe`. -/
def vliCmpUnsafe (left right : Vli w) : ℕ → ℤ
  | 0 => 0
  | n + 1 =>
    if left n > right n then 1
    else if left n < right n then -1
    else vliCmpUnsafe left right n

/-- The loop of `uECC_vli_rshift1` below a word, with its carry. -/
def rshiftBelow : ℕ → Vli w × BitVec w → Vli w × BitVec w
  | 0, s => s
  | n + 1, s =>
    rshiftBelow n (Function.update s.1 n ((s.1 n >>> 1) ||| s.2), s.1 n <<< (w - 1))

/-- `uECC_vli_rshift1`. -/
def vliRshift1 (n : ℕ) (vli : Vli w) : Vli w :=
  (rshiftBelow n (vli, 0)).1

/-! ## Sums and products -/

/-- One iteration of `uECC_vli_add`. -/
def addWord (left right : Vli w) (i : ℕ) (s : Vli w × BitVec w) : Vli w × BitVec w :=
  let sum := left i + right i + s.2
  (Function.update s.1 i sum,
    if sum ≠ left i then (if sum < left i then 1 else 0) else s.2)

/-- `uECC_vli_add`; the carry is the second part. -/
def vliAdd (n : ℕ) (result left right : Vli w) : Vli w × BitVec w :=
  foldRange 0 n (result, 0) (addWord left right)

/-- One iteration of `uECC_vli_sub`. -/
def subWord (left right : Vli w) (i : ℕ) (s : Vli w × BitVec w) : Vli w × BitVec w :=
  let diff := left i - right i - s.2
  (Function.update s.1 i diff,
    if diff ≠ left i then (if diff > left i then 1 else 0) else s.2)

/-- `uECC_vli_sub`; the borrow is the second part. -/
def vliSub (n : ℕ) (result left right : Vli w) : Vli w × BitVec w :=
  foldRange 0 n (result, 0) (subWord left right)

/-- `uECC_vli_cmp`. -/
def vliCmp (n : ℕ) (tmp left right : Vli w) : ℤ :=
  let s := vliSub n tmp left right
  let neg : ℤ := if s.2 ≠ 0 then 1 else 0
  (if vliIsZero n s.1 then 0 else 1) - 2 * neg

/-- The three words that collect a column of a product. -/
@[ext] structure Column (w : ℕ) where
  r0 : BitVec w
  r1 : BitVec w
  r2 : BitVec w
  deriving DecidableEq, Repr

/-- `muladd` with a double word. -/
def muladd (a b : BitVec w) (c : Column w) : Column w :=
  let p : BitVec (2 * w) := a.setWidth (2 * w) * b.setWidth (2 * w)
  let r01 : BitVec (2 * w) := (c.r1.setWidth (2 * w) <<< w ||| c.r0.setWidth (2 * w)) + p
  { r0 := r01.setWidth w
    r1 := (r01 >>> w).setWidth w
    r2 := c.r2 + if r01 < p then 1 else 0 }

/-- `mul2add` with a double word. -/
def mul2add (a b : BitVec w) (c : Column w) : Column w :=
  let p : BitVec (2 * w) := a.setWidth (2 * w) * b.setWidth (2 * w)
  let r2 := c.r2 + (p >>> (w * 2 - 1)).setWidth w
  let p := p * 2
  let r01 : BitVec (2 * w) := (c.r1.setWidth (2 * w) <<< w ||| c.r0.setWidth (2 * w)) + p
  { r0 := r01.setWidth w
    r1 := (r01 >>> w).setWidth w
    r2 := r2 + if r01 < p then 1 else 0 }

/-- The two words of a product of 64-bit words, from the products of their halves. -/
def productHalves (a b : BitVec 64) : BitVec 64 × BitVec 64 :=
  let a0 := a &&& 0xffffffff
  let a1 := a >>> 32
  let b0 := b &&& 0xffffffff
  let b1 := b >>> 32
  let i0 := a0 * b0
  let i1 := a0 * b1
  let i2 := a1 * b0
  let i3 := a1 * b1
  let i2 := i2 + (i0 >>> 32)
  let i2 := i2 + i1
  let i3 := if i2 < i1 then i3 + 0x100000000 else i3
  ((i0 &&& (0xffffffff : BitVec 64)) ||| (i2 <<< 32), i3 + (i2 >>> 32))

/-- `muladd` of 64-bit words where no double word is supported. -/
def muladdHalves (a b : BitVec 64) (c : Column 64) : Column 64 :=
  let (p0, p1) := productHalves a b
  let r0 := c.r0 + p0
  let r1 := c.r1 + (p1 + if r0 < p0 then 1 else 0)
  { r0 := r0
    r1 := r1
    r2 := c.r2 + if r1 < p1 ∨ r1 = p1 ∧ r0 < p0 then 1 else 0 }

/-- The next column starts with the carries. -/
def Column.next (c : Column w) : Column w := ⟨c.r1, c.r2, 0⟩

/-- A finished column: its word is stored. -/
def storeColumn (k : ℕ) (s : Vli w × Column w) : Vli w × Column w :=
  (Function.update s.1 k s.2.r0, s.2.next)

/-- `uECC_vli_mult`. -/
def vliMult (n : ℕ) (result left right : Vli w) : Vli w :=
  let low := foldRange 0 n (result, (⟨0, 0, 0⟩ : Column w)) fun k s =>
    storeColumn k (s.1, foldRange 0 (k + 1) s.2 fun i c => muladd (left i) (right (k - i)) c)
  let high := foldRange n (n * 2 - 1) low fun k s =>
    storeColumn k (s.1, foldRange (k + 1 - n) n s.2 fun i c => muladd (left i) (right (k - i)) c)
  Function.update high.1 (n * 2 - 1) high.2.r0

/-- The inner loop of `uECC_vli_square`, which stops where the places cross. -/
def squareColumn (left : Vli w) (k : ℕ) : ℕ → ℕ → Column w → Column w
  | 0, _, c => c
  | fuel + 1, i, c =>
    if i ≤ k ∧ i ≤ k - i then
      squareColumn left k fuel (i + 1)
        (if i < k - i then mul2add (left i) (left (k - i)) c
          else muladd (left i) (left (k - i)) c)
    else c

/-- `uECC_vli_square` with its own function. -/
def vliSquare (n : ℕ) (result left : Vli w) : Vli w :=
  let s := foldRange 0 (n * 2 - 1) (result, (⟨0, 0, 0⟩ : Column w)) fun k s =>
    let min := if k < n then 0 else k + 1 - n
    storeColumn k (s.1, squareColumn left k (k + 1) min s.2)
  Function.update s.1 (n * 2 - 1) s.2.r0

/-! ## Residues -/

/-- `uECC_vli_modAdd`. -/
def vliModAdd (n : ℕ) (result left right mod : Vli w) : Vli w :=
  let s := vliAdd n result left right
  if s.2 ≠ 0 ∨ vliCmpUnsafe mod s.1 n ≠ 1 then (vliSub n s.1 s.1 mod).1 else s.1

/-- `uECC_vli_modSub`. -/
def vliModSub (n : ℕ) (result left right mod : Vli w) : Vli w :=
  let s := vliSub n result left right
  if s.2 ≠ 0 then (vliAdd n s.1 s.1 mod).1 else s.1

/-- The modulus shifted to the top of a double number. -/
def shiftedMod (n : ℕ) (memory mod : Vli w) : Vli w :=
  let shift := n * 2 * w - vliNumBits n mod
  let wordShift := shift / w
  let bitShift := shift % w
  let cleared := vliClear wordShift memory
  if 0 < bitShift then
    (foldRange 0 n (cleared, (0 : BitVec w)) fun index s =>
      (Function.update s.1 (wordShift + index) ((mod index <<< bitShift) ||| s.2),
        mod index >>> (w - bitShift))).1
  else cleared.replace wordShift (vliSet n (cleared.drop wordShift) mod)

/-- One subtraction and shift of `uECC_vli_mmod`: the number that is kept is `v`,
`spare` takes the difference, and where there was no borrow they change roles. -/
def mmodRound (n : ℕ) (s : Vli w × Vli w × Vli w) : Vli w × Vli w × Vli w :=
  let (multiple, v, spare) := s
  let diff := foldRange 0 (n * 2) (spare, (0 : BitVec w)) (subWord v multiple)
  let low := vliRshift1 n multiple
  let low : Vli w := Function.update low (n - 1) (low (n - 1) ||| (low n <<< (w - 1)))
  let halved := low.replace n (vliRshift1 n (low.drop n))
  if diff.2 = 0 then (halved, diff.1, v) else (halved, v, diff.1)

/-- `uECC_vli_mmod`; the two local arrays have any contents. -/
def vliMmod (n : ℕ) (result product mod multiple tmp : Vli w) : Vli w :=
  let shift := n * 2 * w - vliNumBits n mod
  let s := foldRange 0 (shift + 1) (shiftedMod n multiple mod, product, tmp) fun _ => mmodRound n
  vliSet n result s.2.1

/-- `uECC_vli_modMult`. -/
def vliModMult (n : ℕ) (result left right mod product multiple tmp : Vli w) : Vli w :=
  vliMmod n result (vliMult n product left right) mod multiple tmp

/-- `vli_modInv_update`. -/
def vliModInvUpdate (n : ℕ) (uv mod : Vli w) : Vli w :=
  let s := if uv 0 &&& 1 ≠ 0 then vliAdd n uv uv mod else (uv, 0)
  let halved := vliRshift1 n s.1
  if s.2 ≠ 0 then
    Function.update halved (n - 1) (halved (n - 1) ||| ((1 : BitVec w) <<< (w - 1)))
  else halved

/-- The four numbers of `uECC_vli_modInv`. -/
structure Inversion (w : ℕ) where
  a : Vli w
  b : Vli w
  u : Vli w
  v : Vli w

/-- One iteration of `uECC_vli_modInv` after its comparison. -/
def Inversion.step (n : ℕ) (mod : Vli w) (s : Inversion w) : Inversion w :=
  if s.a 0 &&& 1 = 0 then
    { s with a := vliRshift1 n s.a, u := vliModInvUpdate n s.u mod }
  else if s.b 0 &&& 1 = 0 then
    { s with b := vliRshift1 n s.b, v := vliModInvUpdate n s.v mod }
  else if vliCmpUnsafe s.a s.b n > 0 then
    let u := if vliCmpUnsafe s.u s.v n < 0 then (vliAdd n s.u s.u mod).1 else s.u
    { s with
      a := vliRshift1 n (vliSub n s.a s.a s.b).1
      u := vliModInvUpdate n (vliSub n u u s.v).1 mod }
  else
    let v := if vliCmpUnsafe s.v s.u n < 0 then (vliAdd n s.v s.v mod).1 else s.v
    { s with
      b := vliRshift1 n (vliSub n s.b s.b s.a).1
      v := vliModInvUpdate n (vliSub n v v s.u).1 mod }

/-- The loop of `uECC_vli_modInv`, for as long as the fuel lasts. -/
def Inversion.loop (n : ℕ) (mod : Vli w) : ℕ → Inversion w → Option (Inversion w)
  | 0, s => if vliCmpUnsafe s.a s.b n = 0 then some s else none
  | fuel + 1, s => if vliCmpUnsafe s.a s.b n = 0 then some s else loop n mod fuel (s.step n mod)

/-- `uECC_vli_modInv`; `memory` is what the four local arrays hold. -/
def vliModInv (fuel n : ℕ) (result input mod : Vli w) (memory : Inversion w) : Option (Vli w) :=
  if vliIsZero n input then some (vliClear n result)
  else
    let start : Inversion w :=
      { a := vliSet n memory.a input
        b := vliSet n memory.b mod
        u := Function.update (vliClear n memory.u) 0 1
        v := vliClear n memory.v }
    (Inversion.loop n mod fuel start).map fun s => vliSet n result s.u

end Xhive.MicroEcc
