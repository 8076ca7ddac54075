import Mathlib.Data.Nat.Count
import Xhive.Linears.Status
import Xhive.Support.Outcome
import Xhive.Support.Radix
import Xhive.Support.Words

/-!
# The bitmap

`bitmap.h`: a row of 64-bit words and a number of bits.  An access outside the
allocated words is a fault, as is a failed assertion.
-/

namespace Xhive.Bitmap

open Xhive.Support Xhive.Linears

inductive Fault where
  | assertion
  | outOfBounds
  deriving DecidableEq

/-- `xh_bitmap_t`, with the number of words that were allocated. -/
structure XhBitmap where
  data : ℕ → UInt64
  words : ℕ
  bits : UInt64

/-- `BITDAT_MAX`. -/
def bitdatMax : UInt64 := 0xFFFFFFFFFFFFFFFF

namespace XhBitmap

def read (b : XhBitmap) (i : ℕ) : Except Fault UInt64 :=
  if i < b.words then .ok (b.data i) else .error .outOfBounds

def write (b : XhBitmap) (i : ℕ) (v : UInt64) : Except Fault XhBitmap :=
  if i < b.words then .ok { b with data := Function.update b.data i v } else .error .outOfBounds

end XhBitmap

/-- `(bits + BITDAT_BITS - 1) / BITDAT_BITS`, where the sum may wrap. -/
def wordCount (bits : UInt64) : UInt64 := (bits + 64 - 1) / 64

/-- `calloc` takes a `size_t` and answers zeroed words or NULL. -/
def xhBitmapCreate (wide : Bool) (calloc : ℕ → Bool) (bits : UInt64) : Option XhBitmap :=
  if calloc (sizeT wide (wordCount bits).toNat) then
    some ⟨fun _ => 0, sizeT wide (wordCount bits).toNat, bits⟩
  else none

def xhBitmapAllTo (b : XhBitmap) (value : Bool) : Except Fault XhBitmap := do
  let qty := b.bits / 64
  let rem := b.bits % 64
  let b ← forRange 0 qty.toNat b fun i b => b.write i (if value then bitdatMax else 0)
  if rem ≠ 0 then
    b.write qty.toNat (if value then (bitdatMax <<< (64 - rem)) >>> (64 - rem) else 0)
  else .ok b

/-- `bitmap_assert (index < bitmap->bits)`. -/
def assertIndex (b : XhBitmap) (index : UInt64) : Except Fault Unit :=
  if index < b.bits then .ok () else .error .assertion

def xhBitmapSet (b : XhBitmap) (index : UInt64) : Except Fault XhBitmap := do
  assertIndex b index
  let word ← b.read (index / 64).toNat
  b.write (index / 64).toNat (word ||| (1 <<< (index % 64)))

def xhBitmapClear (b : XhBitmap) (index : UInt64) : Except Fault XhBitmap := do
  assertIndex b index
  let word ← b.read (index / 64).toNat
  b.write (index / 64).toNat (word &&& ~~~(1 <<< (index % 64)))

def xhBitmapTest (b : XhBitmap) (index : UInt64) : Except Fault Bool := do
  assertIndex b index
  let word ← b.read (index / 64).toNat
  .ok (word &&& (1 <<< (index % 64)) ≠ 0)

/-! ## Counting -/

/-- `__builtin_popcountll`: the number of set bits. -/
def builtinPopcountll (x : UInt64) : UInt64 :=
  UInt64.ofNat (Nat.count (fun i => x.toNat.testBit i = true) 64)

def popcountSwar64 (x : UInt64) : UInt64 :=
  let x := x - ((x >>> 1) &&& (0x5555555555555555 : UInt64))
  let x := (x &&& (0x3333333333333333 : UInt64)) + ((x >>> 2) &&& (0x3333333333333333 : UInt64))
  let x := (x + (x >>> 4)) &&& (0x0F0F0F0F0F0F0F0F : UInt64)
  (x * 0x0101010101010101) >>> 56

/-- `POPCOUNT64` is one of the two functions above. -/
def xhBitmapCountSetBits (popcount64 : UInt64 → UInt64) (b : XhBitmap) : Except Fault UInt64 :=
  forRange 0 (wordCount b.bits).toNat 0 fun i count => do
    let val ← b.read i
    .ok (count + popcount64 val)

/-! ## Searching -/

/-- The loop over the bits of a word, from `j` on. -/
def rightSetInWord (word : UInt64) : ℕ → ℕ → Option ℕ
  | 0, _ => none
  | count + 1, j =>
      if word &&& (1 <<< UInt64.ofNat j) = 0 then rightSetInWord word count (j + 1) else some j

/-- The loop over the words, from `i` on; the first one is searched from
`startRem`. -/
def rightSetFrom (b : XhBitmap) (startQty startRem : ℕ) : ℕ → ℕ → Except Fault UInt64
  | 0, _ => .ok bitdatMax
  | count + 1, i => do
      let word ← b.read i
      if word = 0 then rightSetFrom b startQty startRem count (i + 1)
      else
        let first := if i = startQty then startRem else 0
        match rightSetInWord word (64 - first) first with
        | some j =>
            let index := (UInt64.ofNat i * 64) ||| UInt64.ofNat j
            .ok (if index < b.bits then index else bitdatMax)
        | none => rightSetFrom b startQty startRem count (i + 1)

def xhBitmapIndexOfRightSet (b : XhBitmap) (startIndex : UInt64) : Except Fault UInt64 := do
  assertIndex b startIndex
  let qty := b.bits / 64
  let rem := b.bits % 64
  let stop := qty + (if rem ≠ 0 then 1 else 0)
  rightSetFrom b (startIndex / 64).toNat (startIndex % 64).toNat
    (stop.toNat - (startIndex / 64).toNat) (startIndex / 64).toNat

end Xhive.Bitmap

/-!
## The portable population count

The masks of `popcount_swar64` repeat one byte, so its first steps act on the
bytes of the word, and the product adds the eight counts in the top byte.
-/

namespace Xhive.Bitmap

open Xhive.Support

/-- A byte in every byte of a word. -/
def repeated (m : ℕ) : ℕ := digitSum (2 ^ 8) 8 fun _ => m

theorem repeated_eq :
    repeated 0x55 = 0x5555555555555555 ∧ repeated 0x33 = 0x3333333333333333 ∧
      repeated 0x0F = 0x0F0F0F0F0F0F0F0F := by
  decide

/-- Two-bit fields, each with the number of its set bits. -/
def foldPairs (x m : ℕ) : ℕ := x - ((x >>> 1) &&& m)

/-- Four-bit fields, from neighbouring two-bit fields. -/
def foldNibbles (x m : ℕ) : ℕ := (x &&& m) + ((x >>> 2) &&& m)

theorem byte_fields : ∀ b < 2 ^ 8,
    (b >>> 1) &&& 0x55 ≤ b ∧ foldNibbles (foldPairs b 0x55) 0x33 ≤ 0x44 ∧
      foldNibbles (foldPairs b 0x55) 0x33 % 2 ^ 4 ≤ 4 ∧
      foldNibbles (foldPairs b 0x55) 0x33 % 2 ^ 4 + foldNibbles (foldPairs b 0x55) 0x33 / 2 ^ 4 =
        Nat.count (fun i => b.testBit i = true) 8 := by
  decide +kernel

/-- The first two steps act on the bytes. -/
theorem foldPairs_lanes {x : ℕ} (hx : x < 2 ^ (8 * 8)) :
    foldPairs x (repeated 0x55) = digitSum (2 ^ 8) 8 fun i => foldPairs (lane 8 x i) 0x55 := by
  rw [foldPairs, repeated, shiftRight_and_mask 8 x (show 0x55 * 2 ^ 1 < 2 ^ 8 by norm_num)]
  calc x - (digitSum (2 ^ 8) 8 fun i => (lane 8 x i >>> 1) &&& 0x55)
      = digitSum (2 ^ 8) 8 (lane 8 x) -
          digitSum (2 ^ 8) 8 (fun i => (lane 8 x i >>> 1) &&& 0x55) := by rw [digitSum_lane hx]
    _ = digitSum (2 ^ 8) 8 fun i => foldPairs (lane 8 x i) 0x55 :=
        digitSum_sub_digits fun i _ => (byte_fields _ (lane_lt 8 x i)).1

theorem foldNibbles_lanes {digit : ℕ → ℕ} (h : ∀ i < 8, digit i < 2 ^ 8) :
    foldNibbles (digitSum (2 ^ 8) 8 digit) (repeated 0x33) =
      digitSum (2 ^ 8) 8 fun i => foldNibbles (digit i) 0x33 := by
  have hlane : ∀ i < 8, lane 8 (digitSum (2 ^ 8) 8 digit) i = digit i := by
    intro i hi
    rw [lane_digitSum h, if_pos hi]
  have hlow := shiftRight_and_mask 8 (digitSum (2 ^ 8) 8 digit)
    (show 0x33 * 2 ^ 0 < 2 ^ 8 by norm_num)
  have hhigh := shiftRight_and_mask 8 (digitSum (2 ^ 8) 8 digit)
    (show 0x33 * 2 ^ 2 < 2 ^ 8 by norm_num)
  rw [Nat.shiftRight_zero] at hlow
  rw [foldNibbles, repeated, hlow, hhigh, digitSum_add_digits]
  refine digitSum_congr fun i hi => ?_
  rw [hlane i hi, Nat.shiftRight_zero, foldNibbles]

/-- The bytes after two steps, in nibbles that hold at most four. -/
def folded (x : ℕ) : ℕ := foldNibbles (foldPairs x (repeated 0x55)) (repeated 0x33)

theorem foldPairs_lt {b : ℕ} (h : b < 2 ^ 8) : foldPairs b 0x55 < 2 ^ 8 :=
  (Nat.sub_le _ _).trans_lt h

theorem folded_eq {x : ℕ} (hx : x < 2 ^ (8 * 8)) :
    folded x = digitSum (2 ^ 8) 8 fun i => foldNibbles (foldPairs (lane 8 x i) 0x55) 0x33 := by
  rw [folded, foldPairs_lanes hx,
    foldNibbles_lanes fun i _ => foldPairs_lt (lane_lt 8 x i)]

theorem folded_byte_lt (x i : ℕ) :
    foldNibbles (foldPairs (lane 8 x i) 0x55) 0x33 < 2 ^ 8 :=
  (byte_fields _ (lane_lt 8 x i)).2.1.trans_lt (by norm_num)

theorem folded_lt {x : ℕ} (hx : x < 2 ^ (8 * 8)) : folded x < 2 ^ (8 * 8) := by
  rw [folded_eq hx, pow_mul]
  exact digitSum_lt fun i _ => folded_byte_lt x i

/-- No nibble exceeds four. -/
theorem folded_nibble_le {x : ℕ} (hx : x < 2 ^ (8 * 8)) (i : ℕ) : lane 4 (folded x) i ≤ 4 := by
  have hbyte : ∀ j, lane 8 (folded x) j ≤ 0x44 ∧ lane 8 (folded x) j % 2 ^ 4 ≤ 4 := by
    intro j
    rw [folded_eq hx, lane_digitSum fun i _ => folded_byte_lt x i]
    split
    · exact ⟨(byte_fields _ (lane_lt 8 x j)).2.1, (byte_fields _ (lane_lt 8 x j)).2.2.1⟩
    · exact ⟨Nat.zero_le _, Nat.zero_le _⟩
  obtain ⟨j, rfl | rfl⟩ := Nat.even_or_odd' i
  · rw [lane_even]
    exact (hbyte j).2
  · rw [lane_odd]
    exact Nat.lt_succ_iff.mp (Nat.div_lt_of_lt_mul ((hbyte j).1.trans_lt (by norm_num)))

/-- The nibbles leave room for the sum of the third step. -/
theorem folded_add_lt {x : ℕ} (hx : x < 2 ^ (8 * 8)) : folded x + folded x >>> 4 < 2 ^ 64 := by
  have hle : folded x ≤ repeated 0x44 := by
    rw [folded_eq hx, repeated]
    exact Finset.sum_le_sum fun i _ =>
      Nat.mul_le_mul_right _ (byte_fields _ (lane_lt 8 x i)).2.1
  have hrepeated : repeated 0x44 = 0x4444444444444444 := by decide
  have hshift := Nat.shiftRight_le (folded x) 4
  omega

/-- The third step leaves the count of each byte in it. -/
theorem folded_counts {x : ℕ} (hx : x < 2 ^ (8 * 8)) :
    (folded x + folded x >>> 4) &&& repeated 0x0F =
      digitSum (2 ^ 8) 8 fun i => Nat.count (fun j => (lane 8 x i).testBit j = true) 8 := by
  have hmask := shiftRight_and_mask 8 (folded x + folded x >>> 4)
    (show 0x0F * 2 ^ 0 < 2 ^ 8 by norm_num)
  rw [Nat.shiftRight_zero] at hmask
  rw [repeated, hmask]
  refine digitSum_congr fun i hi => ?_
  have hsums : ∀ j, lane 4 (folded x) j + lane 4 (folded x) (j + 1) < 2 ^ 4 := by
    intro j
    have hfirst := folded_nibble_le hx j
    have hsecond := folded_nibble_le hx (j + 1)
    omega
  have hnibbles : folded x < 2 ^ (4 * 16) := folded_lt hx
  have hbyte : lane 8 (folded x) i = foldNibbles (foldPairs (lane 8 x i) 0x55) 0x33 := by
    rw [folded_eq hx, lane_digitSum fun i _ => folded_byte_lt x i, if_pos hi]
  calc (lane 8 (folded x + folded x >>> 4) i >>> 0) &&& 0x0F
      = lane (2 * 4) (folded x + folded x >>> 4) i % 2 ^ 4 := Nat.and_two_pow_sub_one_eq_mod _ 4
    _ = lane 4 (folded x) (2 * i) + lane 4 (folded x) (2 * i + 1) := by
        rw [← lane_even, lane_add_shift hnibbles hsums (by omega)]
    _ = lane 8 (folded x) i % 2 ^ 4 + lane 8 (folded x) i / 2 ^ 4 := by
        rw [lane_even, lane_odd]
    _ = Nat.count (fun j => (lane 8 x i).testBit j = true) 8 := by
        rw [hbyte]
        exact (byte_fields _ (lane_lt 8 x i)).2.2.2

theorem top_byte {excess top low : ℕ} (htop : top < 2 ^ 8) (hlow : low < 2 ^ 56) :
    (2 ^ 64 * excess + (top * 2 ^ 56 + low)) % 2 ^ 64 / 2 ^ 56 = top := by
  omega

/-- The product collects the counts in the top byte. -/
theorem product_top {count : ℕ → ℕ} (h : ∀ i, count i ≤ 8) :
    digitSum (2 ^ 8) 8 count * 0x0101010101010101 % 2 ^ 64 / 2 ^ 56 =
      ∑ i ∈ Finset.range 8, count i := by
  have h0 := h 0
  have h1 := h 1
  have h2 := h 2
  have h3 := h 3
  have h4 := h 4
  have h5 := h 5
  have h6 := h 6
  have h7 := h 7
  -- the prefix sums of the counts, by their place in the product
  have hparts : digitSum (2 ^ 8) 8 count * 0x0101010101010101 =
      2 ^ 64 * ((count 1 + count 2 + count 3 + count 4 + count 5 + count 6 + count 7) +
        (count 2 + count 3 + count 4 + count 5 + count 6 + count 7) * 2 ^ 8 +
        (count 3 + count 4 + count 5 + count 6 + count 7) * 2 ^ 16 +
        (count 4 + count 5 + count 6 + count 7) * 2 ^ 24 +
        (count 5 + count 6 + count 7) * 2 ^ 32 + (count 6 + count 7) * 2 ^ 40 +
        count 7 * 2 ^ 48) +
      ((∑ i ∈ Finset.range 8, count i) * 2 ^ 56 +
        (∑ m ∈ Finset.range 7, (∑ i ∈ Finset.range (m + 1), count i) * (2 ^ 8) ^ m)) := by
    simp only [digitSum, Finset.sum_range_succ, Finset.sum_range_zero]
    ring
  have hlow : ∑ m ∈ Finset.range 7, (∑ i ∈ Finset.range (m + 1), count i) * (2 ^ 8) ^ m <
      2 ^ 56 := by
    simp only [Finset.sum_range_succ, Finset.sum_range_zero]
    omega
  have htotal : ∑ i ∈ Finset.range 8, count i < 2 ^ 8 := by
    simp only [Finset.sum_range_succ, Finset.sum_range_zero]
    omega
  rw [hparts, top_byte htotal hlow]

theorem toNat_popcountSwar64 (x : UInt64) :
    (popcountSwar64 x).toNat = Nat.count (fun i => x.toNat.testBit i = true) 64 := by
  have hx : x.toNat < 2 ^ (8 * 8) := x.toNat_lt
  obtain ⟨hpairs, hnibbles, hbytes⟩ := repeated_eq
  have hfirst : (x - ((x >>> 1) &&& (0x5555555555555555 : UInt64))).toNat =
      foldPairs x.toNat (repeated 0x55) := by
    rw [UInt64.toNat_sub_of_le, UInt64.toNat_and, UInt64.toNat_shiftRight, foldPairs, hpairs]
    · rfl
    · rw [UInt64.le_iff_toNat_le, UInt64.toNat_and, UInt64.toNat_shiftRight]
      exact Nat.and_le_left.trans (Nat.shiftRight_le _ _)
  rw [popcountSwar64]
  generalize x - ((x >>> 1) &&& (0x5555555555555555 : UInt64)) = pairs at *
  have hsecond : ((pairs &&& (0x3333333333333333 : UInt64)) +
      ((pairs >>> 2) &&& (0x3333333333333333 : UInt64))).toNat = folded x.toNat := by
    have hfits := folded_lt hx
    rw [folded, ← hfirst, foldNibbles, hnibbles] at hfits ⊢
    rw [UInt64.toNat_add, UInt64.toNat_and, UInt64.toNat_and, UInt64.toNat_shiftRight]
    exact Nat.mod_eq_of_lt hfits
  generalize (pairs &&& (0x3333333333333333 : UInt64)) +
    ((pairs >>> 2) &&& (0x3333333333333333 : UInt64)) = nibbles at *
  have hthird : ((nibbles + (nibbles >>> 4)) &&& (0x0F0F0F0F0F0F0F0F : UInt64)).toNat =
      digitSum (2 ^ 8) 8 fun i =>
        Nat.count (fun j => (lane 8 x.toNat i).testBit j = true) 8 := by
    have hsum := folded_add_lt hx
    rw [← hsecond] at hsum
    rw [← folded_counts hx, ← hsecond, hbytes, UInt64.toNat_and, UInt64.toNat_add,
      UInt64.toNat_shiftRight]
    congr 1
    exact Nat.mod_eq_of_lt hsum
  generalize (nibbles + (nibbles >>> 4)) &&& (0x0F0F0F0F0F0F0F0F : UInt64) = bytes at *
  rw [UInt64.toNat_shiftRight, UInt64.toNat_mul, hthird, Nat.shiftRight_eq_div_pow]
  change _ * 0x0101010101010101 % 2 ^ 64 / 2 ^ 56 = _
  rw [product_top fun i => Nat.count_le _, ← count_lanes]

/-- Both counts are the number of set bits. -/
theorem popcountSwar64_eq (x : UInt64) : popcountSwar64 x = builtinPopcountll x := by
  have hcount : Nat.count (fun i => x.toNat.testBit i = true) 64 ≤ 64 := Nat.count_le _
  rw [← UInt64.toNat_inj, toNat_popcountSwar64, builtinPopcountll, UInt64.toNat_ofNat',
    Nat.mod_eq_of_lt (hcount.trans_lt (by norm_num))]

end Xhive.Bitmap
