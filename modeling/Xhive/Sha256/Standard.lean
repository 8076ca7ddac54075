import Xhive.Sha256.Digest
import Xhive.Support.BlockStreams
import Mathlib.Tactic.IntervalCases

/-!
# The digest against the standard

The standard pads the whole message and hashes its blocks, each with a schedule
of its own.  The context reaches the same value from the bytes as they come.
-/

namespace Xhive.Sha256

open Xhive.Support

/-! ## The standard -/

def bigSigma0 (x : Word) : Word :=
  x.rotateRight 2 ^^^ x.rotateRight 13 ^^^ x.rotateRight 22

def bigSigma1 (x : Word) : Word :=
  x.rotateRight 6 ^^^ x.rotateRight 11 ^^^ x.rotateRight 25

def smallSigma0 (x : Word) : Word :=
  x.rotateRight 7 ^^^ x.rotateRight 18 ^^^ (x >>> 3)

def smallSigma1 (x : Word) : Word :=
  x.rotateRight 17 ^^^ x.rotateRight 19 ^^^ (x >>> 10)

/-- The words of a block, its bytes in big-endian order. -/
def blockWord (block : List UInt8) (t : ℕ) : Word :=
  (block.getD (4 * t) 0).toBitVec ++ (block.getD (4 * t + 1) 0).toBitVec ++
    (block.getD (4 * t + 2) 0).toBitVec ++ (block.getD (4 * t + 3) 0).toBitVec

/-- The message schedule of a block. -/
def schedule (block : List UInt8) (t : ℕ) : Word :=
  if t < 16 then blockWord block t
  else smallSigma1 (schedule block (t - 2)) + schedule block (t - 7) +
    smallSigma0 (schedule block (t - 15)) + schedule block (t - 16)

/-- One round of the standard with its word of the schedule. -/
def standardRound (block : List UInt8) (t : ℕ) (v : Words) : Words :=
  let t1 := v.h + bigSigma1 v.e + ch v.e v.f v.g + roundConstants.getD t 0 + schedule block t
  let t2 := bigSigma0 v.a + ma v.a v.b v.c
  ⟨t1 + t2, v.a, v.b, v.c, v.d + t1, v.e, v.f, v.g⟩

def Words.add (v v' : Words) : Words :=
  ⟨v.a + v'.a, v.b + v'.b, v.c + v'.c, v.d + v'.d, v.e + v'.e, v.f + v'.f, v.g + v'.g,
    v.h + v'.h⟩

/-- The hash value after one more block. -/
def compress (v : Words) (block : List UInt8) : Words :=
  v.add (foldRange 0 64 v (standardRound block))

/-- The bytes of a number in big-endian order. -/
def bigEndian (count n : ℕ) : List UInt8 :=
  (List.range count).map fun i => UInt8.ofNat (n / 256 ^ (count - 1 - i))

/-- The padded message: a one, zeros to eight bytes below a full block and the length
in bits. -/
def pad (data : List UInt8) : List UInt8 :=
  data ++ (0x80 :: List.replicate ((119 - data.length % 64) % 64) 0 ++
    bigEndian 8 (8 * data.length))

def Words.bytes (v : Words) : List UInt8 :=
  [v.a, v.b, v.c, v.d, v.e, v.f, v.g, v.h].flatMap fun x => bigEndian 4 x.toNat

/-- The digest of a message. -/
def digest (data : List UInt8) : List UInt8 :=
  (absorbAll 64 compress initValue (pad data)).bytes

/-! ## Words -/

theorem shw_eq (x : Word) {n : ℕ} (h : n < 32) : shw x n = x <<< n := by
  have hall : (0xffffffff : Word) = BitVec.allOnes 32 := rfl
  rw [shw, Nat.mod_eq_of_lt h, hall, BitVec.and_allOnes]

theorem r_eq (x : Word) {n : ℕ} (hpos : 0 < n) (h : n < 32) : r x n = x.rotateRight n := by
  rw [r, shw_eq x (by omega), BitVec.rotateRight, Nat.mod_eq_of_lt h, BitVec.rotateRightAux]

theorem s0_eq (x : Word) : s0 x = bigSigma0 x := by
  rw [s0, r_eq x (by decide) (by decide), r_eq x (by decide) (by decide),
    r_eq x (by decide) (by decide), bigSigma0]

theorem s1_eq (x : Word) : s1 x = bigSigma1 x := by
  rw [s1, r_eq x (by decide) (by decide), r_eq x (by decide) (by decide),
    r_eq x (by decide) (by decide), bigSigma1]

theorem g0_eq (x : Word) : g0 x = smallSigma0 x := by
  rw [g0, r_eq x (by decide) (by decide), r_eq x (by decide) (by decide), smallSigma0]

theorem g1_eq (x : Word) : g1 x = smallSigma1 x := by
  rw [g1, r_eq x (by decide) (by decide), r_eq x (by decide) (by decide), smallSigma1]

/-- Four bytes shifted into their places. -/
theorem or_eq_append (b0 b1 b2 b3 : BitVec 8) :
    (b0.setWidth 32 <<< 24 ||| b1.setWidth 32 <<< 16 ||| b2.setWidth 32 <<< 8 |||
      b3.setWidth 32 : Word) = b0 ++ b1 ++ b2 ++ b3 := by
  ext i hi
  simp only [BitVec.getElem_or, BitVec.getElem_shiftLeft, BitVec.getElem_setWidth]
  grind

/-- The bytes in the buffer. -/
def Ctx.block (ctx : Ctx) : List UInt8 :=
  (List.range 64).map ctx.buf

theorem block_getD (buf : ℕ → UInt8) {i : ℕ} (h : i < 64) :
    ((List.range 64).map buf).getD i 0 = buf i := by
  rw [List.getD_eq_getElem?_getD, List.getElem?_map, List.getElem?_range h, Option.map_some,
    Option.getD_some]

theorem word_eq (ctx : Ctx) {t : ℕ} (h : t < 16) :
    word ctx.buf (4 * t) = blockWord ctx.block t := by
  rw [word, shw_eq _ (by decide), shw_eq _ (by decide), shw_eq _ (by decide), or_eq_append,
    blockWord, Ctx.block, block_getD _ (by omega), block_getD _ (by omega),
    block_getD _ (by omega), block_getD _ (by omega)]

theorem shb_ofNat (n : ℕ) {i : ℕ} (h : i < 4) :
    shb (BitVec.ofNat 32 n) (8 * i) = UInt8.ofNat (n / 256 ^ i) := by
  have hmask : ∀ x : Word, (x &&& 0xff).toNat = x.toNat % 256 := by
    intro x
    rw [BitVec.toNat_and]
    exact Nat.and_two_pow_sub_one_eq_mod _ 8
  have hplace : 8 * i % 32 = 8 * i := Nat.mod_eq_of_lt (by omega)
  have hpow : 2 ^ (8 * i) = 256 ^ i := pow_mul 2 8 i
  rw [shb, hmask, hplace, BitVec.toNat_ushiftRight, BitVec.toNat_ofNat,
    Nat.shiftRight_eq_div_pow, hpow]
  apply UInt8.toNat_inj.mp
  rw [UInt8.toNat_ofNat', UInt8.toNat_ofNat']
  interval_cases i <;> simp only [Nat.reducePow] <;> omega

/-! ## Blocks -/

/-- The schedule and the variables after some rounds over the static words. -/
structure Rounds (w : Schedule) (ctx : Ctx) (t : ℕ) (s : Schedule × Words) : Prop where
  words : ∀ i < t, s.1 i = schedule ctx.block i
  vars : s.2 = foldRange 0 t ctx.hash (standardRound ctx.block)

theorem rounds_step {w : Schedule} {ctx : Ctx} {t : ℕ} {s : Schedule × Words} (ht : t < 64)
    (h : Rounds w ctx t s) : Rounds w ctx (t + 1) (round ctx.buf t s) := by
  have hword : (if t < 16 then word ctx.buf (4 * t)
      else g1 (s.1 (t - 2)) + s.1 (t - 7) + g0 (s.1 (t - 15)) + s.1 (t - 16)) =
      schedule ctx.block t := by
    rw [schedule]
    by_cases hlow : t < 16
    · rw [if_pos hlow, if_pos hlow, word_eq ctx hlow]
    · rw [if_neg hlow, if_neg hlow, h.words _ (by omega), h.words _ (by omega),
        h.words _ (by omega), h.words _ (by omega), g0_eq, g1_eq]
  constructor
  · intro i hi
    show Function.update s.1 t _ i = _
    rcases Nat.lt_succ_iff_lt_or_eq.mp hi with hlt | rfl
    · rw [Function.update_of_ne hlt.ne, h.words i hlt]
    · rw [Function.update_self, hword]
  · rw [foldRange_succ (Nat.zero_le t), ← h.vars, round, hword]
    dsimp only
    rw [Function.update_self, s0_eq, s1_eq, standardRound]

/-- `_hash` adds the block in the buffer, whatever the static words held. -/
theorem hash_eq (w : Schedule) (ctx : Ctx) :
    (hash w ctx).2 = { ctx with hash := compress ctx.hash ctx.block } := by
  have hrounds : Rounds w ctx 64 (foldRange 0 64 (w, ctx.hash) (round ctx.buf)) := by
    refine foldRange_induction (Rounds w ctx) (Nat.zero_le 64) ?_ ?_
    · exact ⟨fun i hi => absurd hi (Nat.not_lt_zero i), (foldRange_of_le le_rfl _ _).symm⟩
    · intro t s _ ht h
      exact rounds_step ht h
  rw [hash, hrounds.vars, compress, Words.add]

/-! ## The stream -/

/-- The two words of a count of bits. -/
def counter (n : ℕ) : Word × Word :=
  (BitVec.ofNat 32 n, BitVec.ofNat 32 (n / 2 ^ 32))

theorem addbits_counter {ctx : Ctx} {m : ℕ} (h : ctx.bits = counter m) (x : Word) :
    (addbits ctx x).bits = counter (m + x.toNat) := by
  have hall : (0xffffffff : Word) = BitVec.allOnes 32 := rfl
  have hcarry : (BitVec.ofNat 32 m : Word) > 0xffffffff - x ↔ 2 ^ 32 ≤ m % 2 ^ 32 + x.toNat := by
    have hmax : (0xffffffff : Word).toNat = 2 ^ 32 - 1 := rfl
    rw [gt_iff_lt, BitVec.lt_def, BitVec.toNat_sub, BitVec.toNat_ofNat, hmax]
    omega
  have hhigh : (m + x.toNat) / 2 ^ 32 =
      if 2 ^ 32 ≤ m % 2 ^ 32 + x.toNat then m / 2 ^ 32 + 1 else m / 2 ^ 32 := by
    split <;> omega
  rw [addbits, h, counter, counter, hhigh]
  dsimp only
  rw [hall, BitVec.and_allOnes, BitVec.and_allOnes, ← hall, if_congr hcarry rfl rfl,
    BitVec.ofNat_add, BitVec.ofNat_toNat, BitVec.setWidth_eq]
  by_cases hc : 2 ^ 32 ≤ m % 2 ^ 32 + x.toNat
  · rw [if_pos hc, if_pos hc, BitVec.ofNat_add _ 1]
    rfl
  · rw [if_neg hc, if_neg hc]

/-- The context has taken some bytes. -/
structure Absorbed (data : List UInt8) (ctx : Ctx) : Prop where
  hash : ctx.hash = absorbAll 64 compress initValue data
  len : ctx.len = data.length % 64
  waiting : (List.range ctx.len).map ctx.buf = unfilled 64 data
  bits : ctx.bits = counter (512 * (data.length / 64))

theorem absorbed_init (ctx : Ctx) : Absorbed [] (sha256Init ctx) :=
  ⟨rfl, rfl, rfl, rfl⟩

theorem map_update (buf : ℕ → UInt8) (n : ℕ) (byte : UInt8) :
    (List.range (n + 1)).map (Function.update buf n byte) = (List.range n).map buf ++ [byte] := by
  rw [List.range_succ, List.map_append, List.map_singleton, Function.update_self]
  congr 1
  apply List.map_congr_left
  intro i hi
  exact Function.update_of_ne (List.mem_range.mp hi).ne _ _

theorem absorbed_takeByte {data : List UInt8} {s : Schedule × Ctx} (h : Absorbed data s.2)
    (byte : UInt8) : Absorbed (data ++ [byte]) (takeByte s byte).2 := by
  have hsplit : (List.range (s.2.len + 1)).map (Function.update s.2.buf s.2.len byte) =
      unfilled 64 data ++ [byte] := by
    rw [map_update, h.waiting]
  have hlen : (unfilled 64 data ++ [byte]).length = s.2.len + 1 := by
    rw [List.length_append, length_unfilled, h.len, List.length_singleton]
  have hbytes : (data ++ [byte]).length = data.length + 1 := by
    rw [List.length_append, List.length_singleton]
  have hlt : s.2.len < 64 := by
    rw [h.len]
    exact Nat.mod_lt _ (by decide)
  rw [takeByte]
  dsimp only
  by_cases hfull : s.2.len + 1 = 64
  · rw [if_pos hfull, hash_eq]
    have hdiv : (data.length + 1) / 64 = data.length / 64 + 1 := by
      have := h.len
      omega
    constructor
    · rw [absorbAll_append 64 compress (by decide),
        absorbAll_block compress (by decide) _ (hlen.trans hfull), ← hsplit, hfull, ← h.hash]
      rfl
    · show 0 = _
      rw [hbytes]
      have := h.len
      omega
    · rw [unfilled_append 64 (by decide), unfilled_block (by decide) (hlen.trans hfull)]
      rfl
    · have hcount : ∀ ctx : Ctx, ctx.bits = s.2.bits →
          (addbits ctx 512).bits = counter (512 * (data.length / 64) + 512) :=
        fun ctx hctx => addbits_counter (hctx.trans h.bits) 512
      rw [hbytes, hdiv, Nat.mul_succ]
      dsimp only
      exact hcount _ rfl
  · rw [if_neg hfull]
    have hshort : (unfilled 64 data ++ [byte]).length < 64 := by omega
    have hdiv : (data.length + 1) / 64 = data.length / 64 := by
      have := h.len
      omega
    constructor
    · rw [absorbAll_append 64 compress (by decide), absorbAll_short compress _ hshort]
      exact h.hash
    · show s.2.len + 1 = _
      rw [hbytes, h.len]
      have := h.len
      omega
    · rw [unfilled_append 64 (by decide), unfilled_short hshort]
      exact hsplit
    · rw [hbytes, hdiv]
      exact h.bits

theorem absorbed_hash {data : List UInt8} {s : Schedule × Ctx} (h : Absorbed data s.2)
    (chunk : List UInt8) : Absorbed (data ++ chunk) (sha256Hash s chunk).2 := by
  induction chunk generalizing data s with
  | nil =>
      rw [List.append_nil]
      exact h
  | cons byte chunk ih =>
      rw [List.append_cons]
      exact ih (absorbed_takeByte h byte)

/-! ## The end of the stream -/

theorem fill_zero (buf : ℕ → UInt8) {lo hi : ℕ} (hle : lo ≤ hi) :
    (foldRange lo hi buf fun i buf => Function.update buf i 0x00) =
      fun i => if lo ≤ i ∧ i < hi then 0 else buf i := by
  refine foldRange_induction
    (fun k (t : ℕ → UInt8) => t = fun i => if lo ≤ i ∧ i < k then 0 else buf i) hle ?_ ?_
  · funext i
    rw [if_neg (by omega)]
  · rintro k t hk - rfl
    funext i
    rw [Function.update_apply]
    split_ifs <;> first | rfl | omega

/-- Bytes stored downwards from a place. -/
theorem store_down (buf value : ℕ → UInt8) (hi : ℕ) {n : ℕ} (hn : n ≤ hi + 1) :
    (foldRange 0 n buf fun i buf => Function.update buf (hi - i) (value i)) =
      fun i => if hi + 1 - n ≤ i ∧ i ≤ hi then value (hi - i) else buf i := by
  refine foldRange_induction (fun k (t : ℕ → UInt8) =>
    t = fun i => if hi + 1 - k ≤ i ∧ i ≤ hi then value (hi - i) else buf i) (Nat.zero_le n) ?_ ?_
  · funext i
    rw [if_neg (by omega)]
  · rintro k t - hk rfl
    funext i
    rw [Function.update_apply]
    by_cases hplace : i = hi - k
    · have hback : hi - i = k := by omega
      rw [if_pos hplace, if_pos (by omega), hback]
    · rw [if_neg hplace]
      exact if_congr (by omega) rfl rfl

theorem map_split {f : ℕ → UInt8} {j m : ℕ} (h : j < m) :
    (List.range m).map f =
      (List.range j).map f ++ f j :: (List.range (m - 1 - j)).map fun i => f (j + 1 + i) := by
  have hm : m = j + 1 + (m - 1 - j) := by omega
  conv_lhs => rw [hm]
  rw [List.range_add, List.range_succ, List.map_append, List.map_append, List.map_map,
    List.append_assoc]
  rfl

theorem map_zero {f : ℕ → UInt8} {m : ℕ} (h : ∀ i < m, f i = 0) :
    (List.range m).map f = List.replicate m 0 := by
  apply List.eq_replicate_iff.mpr
  constructor
  · rw [List.length_map, List.length_range]
  · intro byte hbyte
    obtain ⟨i, hi, rfl⟩ := List.mem_map.mp hbyte
    exact h i (List.mem_range.mp hi)

/-- The buffer after the one and the zeros. -/
theorem map_padded (buf : ℕ → UInt8) {j m : ℕ} (hj : j < m) (hm : m ≤ 64) :
    ((List.range m).map (foldRange (j + 1) 64 (Function.update buf j 0x80) fun i buf =>
      Function.update buf i 0x00)) =
      (List.range j).map buf ++ 0x80 :: List.replicate (m - 1 - j) 0 := by
  rw [fill_zero _ (by omega), map_split hj]
  congr 1
  · apply List.map_congr_left
    intro i hi
    have hlt := List.mem_range.mp hi
    rw [if_neg (by omega), Function.update_of_ne (by omega)]
  · congr 1
    · rw [if_neg (by omega), Function.update_self]
    · exact map_zero fun i hi => if_pos (by omega)

/-- The buffer after the count of bits. -/
theorem map_stored (buf : ℕ → UInt8) (n : ℕ) :
    ((List.range 64).map (foldRange 0 4 (foldRange 0 4 buf fun i buf =>
      Function.update buf (63 - i) (shb (counter n).1 (8 * i))) fun i buf =>
        Function.update buf (59 - i) (shb (counter n).2 (8 * i)))) =
      (List.range 56).map buf ++ bigEndian 8 n := by
  rw [store_down _ (fun i => shb (counter n).1 (8 * i)) _ (by decide),
    store_down _ (fun i => shb (counter n).2 (8 * i)) _ (by decide),
    show 64 = 56 + 8 from rfl, List.range_add, List.map_append, List.map_map]
  refine congrArg₂ (· ++ ·) ?_ ?_
  · apply List.map_congr_left
    intro i hi
    have hlt := List.mem_range.mp hi
    rw [if_neg (by omega), if_neg (by omega)]
  · apply List.map_congr_left
    intro i hi
    have hlt := List.mem_range.mp hi
    dsimp only [Function.comp]
    by_cases hhigh : i < 4
    · have hplace : 59 - (56 + i) = 3 - i := by omega
      have hpow : 2 ^ 32 * 256 ^ (3 - i) = 256 ^ (8 - 1 - i) := by
        interval_cases i <;> rfl
      rw [if_pos (by omega), hplace, counter, shb_ofNat _ (by omega), Nat.div_div_eq_div_mul, hpow]
    · have hplace : 63 - (56 + i) = 8 - 1 - i := by omega
      rw [if_neg (by omega), if_pos (by omega), hplace, counter, shb_ofNat _ (by omega)]

theorem pad_eq (data : List UInt8) :
    absorbAll 64 compress initValue (pad data) =
      absorbAll 64 compress (absorbAll 64 compress initValue data)
        (unfilled 64 data ++ (0x80 :: List.replicate ((119 - data.length % 64) % 64) 0 ++
          bigEndian 8 (8 * data.length))) :=
  absorbAll_append 64 compress (by decide) _ _ _

theorem length_bigEndian (count n : ℕ) : (bigEndian count n).length = count := by
  rw [bigEndian, List.length_map, List.length_range]

theorem bytes_eq (v : Words) :
    ([v.a, v.b, v.c, v.d, v.e, v.f, v.g, v.h].flatMap fun x =>
      (List.range 4).map fun i => shb x (24 - 8 * i)) = v.bytes := by
  rw [Words.bytes]
  congr 1
  funext x
  apply List.map_congr_left
  intro i hi
  have hlt := List.mem_range.mp hi
  have hplace : 24 - 8 * i = 8 * (4 - 1 - i) := by omega
  have hword : x = BitVec.ofNat 32 x.toNat := by
    rw [BitVec.ofNat_toNat, BitVec.setWidth_eq]
  rw [hplace]
  conv_lhs => rw [hword]
  exact shb_ofNat _ (by omega)

/-- The last block of `sha256_done` ends with the count of bits. -/
theorem hash_counted (w : Schedule) (ctx : Ctx) (x : Word) {n : ℕ}
    (hbits : (addbits ctx x).bits = counter n) :
    (hash w { addbits ctx x with
      buf := foldRange 0 4 (foldRange 0 4 (addbits ctx x).buf fun i buf =>
        Function.update buf (63 - i) (shb (addbits ctx x).bits.1 (8 * i))) fun i buf =>
          Function.update buf (59 - i) (shb (addbits ctx x).bits.2 (8 * i)) }).2.hash =
      compress ctx.hash ((List.range 56).map ctx.buf ++ bigEndian 8 n) := by
  rw [hash_eq, Ctx.block, hbits]
  dsimp only
  rw [map_stored, addbits]

/-- `sha256_done` of a context that took a message returns its digest. -/
theorem done_eq {data : List UInt8} {s : Schedule × Ctx} (h : Absorbed data s.2) :
    (sha256Done s).1 = digest data := by
  have hlt : s.2.len < 64 := by
    rw [h.len]
    exact Nat.mod_lt _ (by decide)
  have hwaiting : (unfilled 64 data).length = s.2.len := by
    rw [length_unfilled, h.len]
  have hcount : ∀ ctx : Ctx, ctx.bits = s.2.bits →
      (addbits ctx (BitVec.ofNat 32 (s.2.len * 8))).bits = counter (8 * data.length) := by
    intro ctx hctx
    have hlen := h.len
    rw [addbits_counter (hctx.trans h.bits), BitVec.toNat_ofNat]
    congr 1
    omega
  have hfirst : ∀ m, s.2.len < m → m ≤ 64 →
      (List.range m).map (foldRange (s.2.len + 1) 64 (Function.update s.2.buf s.2.len 0x80)
        fun i buf => Function.update buf i 0x00) =
        unfilled 64 data ++ 0x80 :: List.replicate (m - 1 - s.2.len) 0 := by
    intro m hm hle
    rw [map_padded _ hm hle, h.waiting]
  rw [sha256Done, digest, pad_eq, ← h.hash, ← h.len]
  dsimp only
  rw [bytes_eq, Nat.mod_eq_of_lt hlt]
  congr 1
  by_cases hlong : s.2.len > 55
  · -- the one and the count of bits stand in two blocks
    have hzeros : (119 - s.2.len) % 64 = 63 - s.2.len + 56 := by omega
    have hblock : (unfilled 64 data ++ 0x80 :: List.replicate (63 - s.2.len) 0).length = 64 := by
      rw [List.length_append, List.length_cons, List.length_replicate, hwaiting]
      omega
    have hlast : (List.replicate 56 0 ++ bigEndian 8 (8 * data.length)).length = 64 := by
      rw [List.length_append, List.length_replicate, length_bigEndian]
    have hsplit : unfilled 64 data ++ (0x80 :: List.replicate (63 - s.2.len + 56) 0 ++
        bigEndian 8 (8 * data.length)) =
        (unfilled 64 data ++ 0x80 :: List.replicate (63 - s.2.len) 0) ++
          (List.replicate 56 0 ++ bigEndian 8 (8 * data.length)) := by
      rw [← List.replicate_append_replicate]
      simp only [List.cons_append, List.append_assoc]
    have hzero : ∀ buf : ℕ → UInt8, ((List.range 56).map
        (foldRange 0 64 buf fun j buf => Function.update buf j 0x00)) = List.replicate 56 0 := by
      intro buf
      rw [fill_zero buf (Nat.zero_le 64)]
      exact map_zero fun i hi => if_pos (by omega)
    rw [if_pos hlong]
    dsimp only
    rw [hash_counted (n := 8 * data.length), hzeros, hsplit,
      absorbAll_append 64 compress (by decide), absorbAll_block compress (by decide) _ hblock,
      unfilled_block (by decide) hblock, List.nil_append,
      absorbAll_block compress (by decide) _ hlast, hash_eq, ← hfirst 64 hlt le_rfl]
    · dsimp only
      rw [hzero]
      rfl
    · exact hcount _ rfl
  · have hzeros : (119 - s.2.len) % 64 = 55 - s.2.len := by omega
    have hblock : (unfilled 64 data ++ (0x80 :: List.replicate (55 - s.2.len) 0 ++
        bigEndian 8 (8 * data.length))).length = 64 := by
      rw [List.length_append, List.length_append, List.length_cons, List.length_replicate,
        length_bigEndian, hwaiting]
      omega
    rw [if_neg hlong]
    dsimp only
    rw [hash_counted (n := 8 * data.length), hzeros, absorbAll_block compress (by decide) _ hblock]
    · dsimp only
      rw [hfirst 56 (by omega) (by decide), List.append_assoc]
    · exact hcount _ rfl

theorem absorbed_chunks {data : List UInt8} {s : Schedule × Ctx} (h : Absorbed data s.2)
    (chunks : List (List UInt8)) :
    Absorbed (data ++ chunks.flatten) (chunks.foldl sha256Hash s).2 := by
  induction chunks generalizing data s with
  | nil =>
      rw [List.flatten_nil, List.append_nil]
      exact h
  | cons chunk chunks ih =>
      rw [List.flatten_cons, ← List.append_assoc]
      exact ih (absorbed_hash h chunk)

/-- A message in pieces, from a context and static words of any contents, gives the
digest of the whole. -/
theorem sha256_streams (w : Schedule) (memory : Ctx) (chunks : List (List UInt8)) :
    (sha256Done (chunks.foldl sha256Hash (w, sha256Init memory))).1 = digest chunks.flatten := by
  have hchunks := absorbed_chunks (absorbed_init memory) (s := (w, sha256Init memory)) chunks
  rw [List.nil_append] at hchunks
  exact done_eq hchunks

theorem sha256_eq_digest (w : Schedule) (stack : Ctx) (data : List UInt8) :
    sha256 w stack data = digest data := by
  have hdata := absorbed_hash (s := (w, sha256Init stack)) (absorbed_init stack) data
  exact done_eq hdata

end Xhive.Sha256
