import Xhive.Support.Outcome
import Mathlib.Logic.Function.Basic

/-!
# The digest of `sha256.c`

The context takes bytes into a block buffer and digests every full block; the
words of the message schedule stand in static memory that no call clears.
-/

namespace Xhive.Sha256

open Xhive.Support

abbrev Word := BitVec 32

/-- The eight words of a hash value, and the variables of the rounds. -/
@[ext] structure Words where
  a : Word
  b : Word
  c : Word
  d : Word
  e : Word
  f : Word
  g : Word
  h : Word
  deriving DecidableEq, Repr

/-- `sha256_ctx_t`. -/
structure Ctx where
  buf : ℕ → UInt8
  hash : Words
  bits : Word × Word
  len : ℕ

/-- The static words `W` of the schedule. -/
abbrev Schedule := ℕ → Word

/-- The table `K`. -/
def roundConstants : List Word :=
  [0x428a2f98, 0x71374491, 0xb5c0fbcf, 0xe9b5dba5,
    0x3956c25b, 0x59f111f1, 0x923f82a4, 0xab1c5ed5,
    0xd807aa98, 0x12835b01, 0x243185be, 0x550c7dc3,
    0x72be5d74, 0x80deb1fe, 0x9bdc06a7, 0xc19bf174,
    0xe49b69c1, 0xefbe4786, 0x0fc19dc6, 0x240ca1cc,
    0x2de92c6f, 0x4a7484aa, 0x5cb0a9dc, 0x76f988da,
    0x983e5152, 0xa831c66d, 0xb00327c8, 0xbf597fc7,
    0xc6e00bf3, 0xd5a79147, 0x06ca6351, 0x14292967,
    0x27b70a85, 0x2e1b2138, 0x4d2c6dfc, 0x53380d13,
    0x650a7354, 0x766a0abb, 0x81c2c92e, 0x92722c85,
    0xa2bfe8a1, 0xa81a664b, 0xc24b8b70, 0xc76c51a3,
    0xd192e819, 0xd6990624, 0xf40e3585, 0x106aa070,
    0x19a4c116, 0x1e376c08, 0x2748774c, 0x34b0bcb5,
    0x391c0cb3, 0x4ed8aa4a, 0x5b9cca4f, 0x682e6ff3,
    0x748f82ee, 0x78a5636f, 0x84c87814, 0x8cc70208,
    0x90befffa, 0xa4506ceb, 0xbef9a3f7, 0xc67178f2]

/-- `init_value`. -/
def initValue : Words :=
  ⟨0x6a09e667, 0xbb67ae85, 0x3c6ef372, 0xa54ff53a, 0x510e527f, 0x9b05688c, 0x1f83d9ab,
    0x5be0cd19⟩

/-! ## Words -/

/-- `_shb`. -/
def shb (x : Word) (n : ℕ) : UInt8 :=
  UInt8.ofNat ((x >>> (n % 32)) &&& 0xff).toNat

/-- `_shw`. -/
def shw (x : Word) (n : ℕ) : Word :=
  (x <<< (n % 32)) &&& 0xffffffff

/-- `_r`. -/
def r (x : Word) (n : ℕ) : Word :=
  (x >>> n) ||| shw x (32 - n)

/-- `_Ch`. -/
def ch (x y z : Word) : Word :=
  (x &&& y) ^^^ (~~~x &&& z)

/-- `_Ma`. -/
def ma (x y z : Word) : Word :=
  (x &&& y) ^^^ (x &&& z) ^^^ (y &&& z)

/-- `_S0`. -/
def s0 (x : Word) : Word :=
  r x 2 ^^^ r x 13 ^^^ r x 22

/-- `_S1`. -/
def s1 (x : Word) : Word :=
  r x 6 ^^^ r x 11 ^^^ r x 25

/-- `_G0`. -/
def g0 (x : Word) : Word :=
  r x 7 ^^^ r x 18 ^^^ (x >>> 3)

/-- `_G1`. -/
def g1 (x : Word) : Word :=
  r x 17 ^^^ r x 19 ^^^ (x >>> 10)

/-- `_word` of the bytes from a place of the buffer on. -/
def word (buf : ℕ → UInt8) (i : ℕ) : Word :=
  shw ((buf i).toBitVec.setWidth 32) 24 ||| shw ((buf (i + 1)).toBitVec.setWidth 32) 16 |||
    shw ((buf (i + 2)).toBitVec.setWidth 32) 8 ||| (buf (i + 3)).toBitVec.setWidth 32

/-! ## Blocks -/

/-- `_addbits`. -/
def addbits (ctx : Ctx) (n : Word) : Ctx :=
  let high := if ctx.bits.1 > 0xffffffff - n then (ctx.bits.2 + 1) &&& 0xffffffff else ctx.bits.2
  { ctx with bits := ((ctx.bits.1 + n) &&& 0xffffffff, high) }

/-- One round of `_hash`. -/
def round (buf : ℕ → UInt8) (i : ℕ) (s : Schedule × Words) : Schedule × Words :=
  let w := Function.update s.1 i (if i < 16 then word buf (4 * i)
    else g1 (s.1 (i - 2)) + s.1 (i - 7) + g0 (s.1 (i - 15)) + s.1 (i - 16))
  let v := s.2
  let t0 := v.h + s1 v.e + ch v.e v.f v.g + roundConstants.getD i 0 + w i
  let t1 := s0 v.a + ma v.a v.b v.c
  (w, ⟨t0 + t1, v.a, v.b, v.c, v.d + t0, v.e, v.f, v.g⟩)

/-- `_hash` of the block in the buffer. -/
def hash (w : Schedule) (ctx : Ctx) : Schedule × Ctx :=
  let s : Schedule × Words := foldRange 0 64 (w, ctx.hash) (round ctx.buf)
  (s.1, { ctx with hash :=
    { a := ctx.hash.a + s.2.a
      b := ctx.hash.b + s.2.b
      c := ctx.hash.c + s.2.c
      d := ctx.hash.d + s.2.d
      e := ctx.hash.e + s.2.e
      f := ctx.hash.f + s.2.f
      g := ctx.hash.g + s.2.g
      h := ctx.hash.h + s.2.h } })

/-! ## Calls -/

/-- `sha256_init` of any memory. -/
def sha256Init (ctx : Ctx) : Ctx :=
  { ctx with bits := (0, 0), len := 0, hash := initValue }

/-- One iteration of `sha256_hash`. -/
def takeByte (s : Schedule × Ctx) (byte : UInt8) : Schedule × Ctx :=
  let ctx : Ctx := { s.2 with
    buf := Function.update s.2.buf s.2.len byte
    len := s.2.len + 1 }
  if ctx.len = 64 then
    let t := hash s.1 ctx
    (t.1, { addbits t.2 512 with len := 0 })
  else (s.1, ctx)

def sha256Hash (s : Schedule × Ctx) (data : List UInt8) : Schedule × Ctx :=
  data.foldl takeByte s

/-- `sha256_done`; the bytes are `hash`. -/
def sha256Done (s : Schedule × Ctx) : List UInt8 × Schedule × Ctx :=
  let j := s.2.len % 64
  let padded : Ctx := { s.2 with
    buf := foldRange (j + 1) 64 (Function.update s.2.buf j 0x80) fun i buf =>
      Function.update buf i 0x00 }
  let t : Schedule × Ctx := if s.2.len > 55 then
      let t := hash s.1 padded
      (t.1, { t.2 with buf := foldRange 0 64 t.2.buf fun j buf => Function.update buf j 0x00 })
    else (s.1, padded)
  let counted := addbits t.2 (BitVec.ofNat 32 (s.2.len * 8))
  let stored : Ctx := { counted with
    buf := foldRange 0 4 (foldRange 0 4 counted.buf fun i buf =>
      Function.update buf (63 - i) (shb counted.bits.1 (8 * i))) fun i buf =>
        Function.update buf (59 - i) (shb counted.bits.2 (8 * i)) }
  let t' := hash t.1 stored
  let v := t'.2.hash
  ([v.a, v.b, v.c, v.d, v.e, v.f, v.g, v.h].flatMap fun x =>
    (List.range 4).map fun i => shb x (24 - 8 * i), t')

/-- `sha256`; the context on the stack has any contents. -/
def sha256 (w : Schedule) (stack : Ctx) (data : List UInt8) : List UInt8 :=
  (sha256Done (sha256Hash (w, sha256Init stack) data)).1

end Xhive.Sha256
