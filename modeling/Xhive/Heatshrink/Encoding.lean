import Xhive.Heatshrink.Encoder
import Mathlib.Data.Nat.Bitwise

/-!
# What the encoder writes

The bytes written and the bits held back are the fields of a first part of the
input, of which the sliding buffer holds the rest and the window before it.
-/

namespace Xhive.Heatshrink

open Xhive.Support

namespace Encoder

/-! ## Writing bits -/

/-- The bits of the current byte that were not written yet. -/
structure Pending (hse : Encoder) (pend : List Bool) : Prop where
  length_lt : pend.length < 8
  mark : hse.bitIndex.toNat = 2 ^ (7 - pend.length)
  byte : hse.currentByte.toNat = ofBits pend * 2 ^ (8 - pend.length)

/-- Writing changes the current byte only. -/
def SameInput (hse hse' : Encoder) : Prop :=
  hse' = { hse with currentByte := hse'.currentByte, bitIndex := hse'.bitIndex }

theorem SameInput.trans {hse hse' hse'' : Encoder} (h : SameInput hse hse')
    (h' : SameInput hse' hse'') : SameInput hse hse'' := by
  rw [SameInput, h', h]

/-- `written` bits were added to those in the output and in the current byte. -/
def Wrote (hse : Encoder) (pend : List Bool) (output : List UInt8) (written : List Bool)
    (s : Encoder × List UInt8) : Prop :=
  ∃ pend', Pending s.1 pend' ∧
    bitsOfBytes s.2 ++ pend' = bitsOfBytes output ++ (pend ++ written) ∧ SameInput hse s.1

theorem mark_eq_zero {hse : Encoder} {pend : List Bool} (h : Pending hse pend) :
    hse.bitIndex >>> 1 = 0x00 ↔ pend.length = 7 := by
  have hlt := h.length_lt
  have hshift : (hse.bitIndex >>> 1).toNat = 2 ^ (7 - pend.length) / 2 := by
    rw [UInt8.toNat_shiftRight, h.mark]
    exact Nat.shiftRight_one _
  rw [← UInt8.toNat_inj, hshift, UInt8.toNat_zero]
  constructor
  · intro hzero
    by_contra hne
    obtain ⟨k, hk⟩ : ∃ k, 7 - pend.length = k + 1 := ⟨6 - pend.length, by omega⟩
    rw [hk, Nat.pow_succ, Nat.mul_div_cancel _ (by decide)] at hzero
    exact (Nat.two_pow_pos k).ne' hzero
  · intro hseven
    rw [hseven]
    rfl

/-- A bit set at the mark. -/
theorem toNat_set {hse : Encoder} {pend : List Bool} (h : Pending hse pend) (b : Bool) :
    (if b then hse.currentByte ||| hse.bitIndex else hse.currentByte).toNat =
      ofBits (pend ++ [b]) * 2 ^ (7 - pend.length) := by
  have hlt := h.length_lt
  have hpow : 2 ^ (8 - pend.length) = 2 * 2 ^ (7 - pend.length) := by
    rw [← Nat.pow_succ']
    congr 1
    omega
  rw [ofBits_concat]
  cases b with
  | false =>
      rw [if_neg Bool.false_ne_true, h.byte, hpow, Bool.toNat_false, Nat.add_zero]
      ring
  | true =>
      have hone : 2 ^ (7 - pend.length) < 2 ^ (8 - pend.length) :=
        Nat.pow_lt_pow_right (by decide) (by omega)
      have hor := Nat.two_pow_add_eq_or_of_lt hone (ofBits pend)
      rw [if_pos rfl, UInt8.toNat_or, h.byte, h.mark, Nat.mul_comm, ← hor, hpow, Bool.toNat_true]
      ring

theorem wrote_pushBit {hse : Encoder} {pend : List Bool} (h : Pending hse pend) (b : Bool)
    (output : List UInt8) : Wrote hse pend output [b] (pushBit b (hse, output)) := by
  have hlt := h.length_lt
  have hset := toNat_set h b
  rw [pushBit]
  dsimp only
  by_cases hseven : pend.length = 7
  · rw [if_pos ((mark_eq_zero h).mpr hseven)]
    refine ⟨[], ⟨by decide, rfl, rfl⟩, ?_, rfl⟩
    rw [hseven, Nat.sub_self, Nat.pow_zero, Nat.mul_one] at hset
    have hlength : (pend ++ [b]).length = 8 := by
      rw [List.length_append, hseven, List.length_singleton]
    have hbits := bitsOf_ofBits (pend ++ [b])
    rw [hlength, ← hset] at hbits
    rw [bitsOfBytes_concat, List.append_nil, byteBits, hbits]
  · rw [if_neg (mt (mark_eq_zero h).mp hseven)]
    have hlength : (pend ++ [b]).length = pend.length + 1 := List.length_append
    refine ⟨pend ++ [b], ⟨by omega, ?_, ?_⟩, rfl, rfl⟩
    · obtain ⟨k, hk⟩ : ∃ k, 7 - pend.length = k + 1 := ⟨6 - pend.length, by omega⟩
      have hk' : 7 - (pend ++ [b]).length = k := by omega
      rw [hk', UInt8.toNat_shiftRight, h.mark, hk, Nat.pow_succ]
      exact (Nat.shiftRight_one _).trans (Nat.mul_div_cancel _ (by decide))
    · rw [hset, hlength]
      congr 2
      omega

theorem take_succ_bitsOf {n k : ℕ} (v : ℕ) (hk : k < n) :
    (bitsOf n v).take (k + 1) = (bitsOf n v).take k ++ [v.testBit (n - 1 - k)] := by
  induction n generalizing k with
  | zero => exact absurd hk (Nat.not_lt_zero k)
  | succ n ih =>
      rw [bitsOf]
      cases k with
      | zero => rw [List.take_succ_cons, List.take_zero, List.take_zero]; rfl
      | succ k =>
          rw [List.take_succ_cons, List.take_succ_cons, ih (Nat.lt_of_succ_lt_succ hk),
            List.cons_append]
          congr 4
          omega

/-- `push_bits` adds the low `count` bits. -/
theorem wrote_pushBits {hse : Encoder} {pend : List Bool} (h : Pending hse pend) (count : ℕ)
    (bits : UInt8) (output : List UInt8) :
    Wrote hse pend output (bitsOf count bits.toNat) (hse.pushBits count bits output) := by
  rw [pushBits]
  by_cases hwhole : count = 8 ∧ hse.bitIndex = 0x80
  · rw [if_pos hwhole]
    have hmark := h.mark
    have hlt := h.length_lt
    rw [hwhole.2] at hmark
    have hseven : 7 - pend.length = 7 :=
      Nat.pow_right_injective (le_refl 2) (hmark.symm.trans (by decide : (128 : ℕ) = 2 ^ 7))
    have hnil : pend = [] := List.length_eq_zero_iff.mp (by omega)
    refine ⟨[], hnil ▸ h, ?_, rfl⟩
    rw [hnil, bitsOfBytes_concat, List.append_nil, List.nil_append, hwhole.1, byteBits]
  · rw [if_neg hwhole]
    have hall : (bitsOf count bits.toNat).take count = bitsOf count bits.toNat :=
      List.take_of_length_le (length_bitsOf _ _).le
    rw [← hall]
    refine foldRange_induction
      (fun k s => Wrote hse pend output ((bitsOf count bits.toNat).take k) s) (Nat.zero_le _)
      ⟨pend, h, by rw [List.take_zero, List.append_nil], rfl⟩ ?_
    rintro k ⟨t, written⟩ - hk ⟨pend', hpending, hwritten, hsame⟩
    obtain ⟨pend'', hpending', hwritten', hsame'⟩ :=
      wrote_pushBit hpending (bits.toNat.testBit (count - 1 - k)) written
    refine ⟨pend'', hpending', ?_, hsame.trans hsame'⟩
    rw [hwritten', ← List.append_assoc, hwritten, take_succ_bitsOf _ hk, List.append_assoc,
      List.append_assoc]

/-- `push_outgoing_bits` adds the first of the bits and leaves the others. -/
theorem pushOutgoingBits_eq {hse : Encoder} {pend : List Bool} (h : Pending hse pend)
    (output : List UInt8) :
    (hse.outgoingBitsCount = 0 ∧ hse.pushOutgoingBits output = (0, hse, output)) ∨
      ∃ n t, 0 < n ∧ n ≤ 8 ∧ n ≤ hse.outgoingBitsCount ∧
        hse.pushOutgoingBits output =
          (n, { t with outgoingBitsCount := hse.outgoingBitsCount - n },
            (hse.pushOutgoingBits output).2.2) ∧
        ∃ written, Wrote hse pend output written (t, (hse.pushOutgoingBits output).2.2) ∧
          written ++ bitsOf (hse.outgoingBitsCount - n) hse.outgoingBits =
            bitsOf hse.outgoingBitsCount hse.outgoingBits ∧ written.length = n := by
  by_cases hzero : hse.outgoingBitsCount = 0
  · refine Or.inl ⟨hzero, ?_⟩
    rw [pushOutgoingBits, hzero]
    rfl
  right
  by_cases hlong : hse.outgoingBitsCount > 8
  · have hwrote := wrote_pushBits h 8
      (UInt8.ofNat (hse.outgoingBits >>> (hse.outgoingBitsCount - 8))) output
    have hcount : (hse.pushBits 8
        (UInt8.ofNat (hse.outgoingBits >>> (hse.outgoingBitsCount - 8))) output).1.outgoingBitsCount =
          hse.outgoingBitsCount := by
      obtain ⟨-, -, -, hsame⟩ := hwrote
      rw [hsame]
    have hpush : hse.pushOutgoingBits output =
        (8, { (hse.pushBits 8
            (UInt8.ofNat (hse.outgoingBits >>> (hse.outgoingBitsCount - 8))) output).1 with
              outgoingBitsCount := hse.outgoingBitsCount - 8 },
          (hse.pushBits 8
            (UInt8.ofNat (hse.outgoingBits >>> (hse.outgoingBitsCount - 8))) output).2) := by
      rw [pushOutgoingBits]
      dsimp only
      rw [if_pos hlong, if_pos hlong, if_pos (by decide), hcount]
    rw [hpush]
    refine ⟨8, _, by decide, le_rfl, hlong.le, rfl, _, hwrote, ?_, length_bitsOf _ _⟩
    have hbits : bitsOf 8 (UInt8.ofNat (hse.outgoingBits >>> (hse.outgoingBitsCount - 8))).toNat =
        bitsOf 8 (hse.outgoingBits / 2 ^ (hse.outgoingBitsCount - 8)) := by
      rw [UInt8.toNat_ofNat', Nat.shiftRight_eq_div_pow]
      exact bitsOf_mod 8 _ le_rfl
    rw [hbits, ← bitsOf_add]
    congr 1
    omega
  · have hwrote := wrote_pushBits h hse.outgoingBitsCount (UInt8.ofNat hse.outgoingBits) output
    have hcount : (hse.pushBits hse.outgoingBitsCount
        (UInt8.ofNat hse.outgoingBits) output).1.outgoingBitsCount = hse.outgoingBitsCount := by
      obtain ⟨-, -, -, hsame⟩ := hwrote
      rw [hsame]
    have hpush : hse.pushOutgoingBits output =
        (hse.outgoingBitsCount,
          { (hse.pushBits hse.outgoingBitsCount (UInt8.ofNat hse.outgoingBits) output).1 with
            outgoingBitsCount := hse.outgoingBitsCount - hse.outgoingBitsCount },
          (hse.pushBits hse.outgoingBitsCount (UInt8.ofNat hse.outgoingBits) output).2) := by
      rw [pushOutgoingBits]
      dsimp only
      rw [if_neg hlong, if_neg hlong, if_pos (Nat.pos_of_ne_zero hzero), hcount]
    rw [hpush]
    refine ⟨hse.outgoingBitsCount, _, Nat.pos_of_ne_zero hzero, not_lt.mp hlong, le_rfl, rfl, _,
      hwrote, ?_, length_bitsOf _ _⟩
    rw [Nat.sub_self, bitsOf, List.append_nil, UInt8.toNat_ofNat']
    exact bitsOf_mod _ _ (not_lt.mp hlong)

/-- A write of up to eight bits takes at most one byte. -/
theorem Wrote.length_le {hse : Encoder} {pend written : List Bool} {output : List UInt8}
    {s : Encoder × List UInt8} (h : Wrote hse pend output written s) (hpend : pend.length < 8)
    (hwritten : written.length ≤ 8) : s.2.length ≤ output.length + 1 := by
  obtain ⟨pend', hpending, hbits, -⟩ := h
  have hlength := congrArg List.length hbits
  rw [List.length_append, List.length_append, List.length_append, length_bitsOfBytes,
    length_bitsOfBytes] at hlength
  omega

/-! ## The input -/

variable (config : Config)

/-- The window of zeros and the data after it. -/
def byteAt (data : List UInt8) (k : ℕ) : UInt8 :=
  (List.replicate (2 ^ config.windowBits) 0 ++ data).getD k 0

/-- The sliding buffer holds the data from `base` on, with a window before them. -/
structure Holds (data : List UInt8) (base : ℕ) (hse : Encoder) : Prop where
  length : data.length = base + hse.inputSize
  size_le : hse.inputSize ≤ 2 ^ config.windowBits
  scan_le : hse.matchScanIndex ≤ hse.inputSize
  buffer : ∀ i < 2 ^ config.windowBits + hse.inputSize,
    hse.buffer i = byteAt config data (base + i)

variable {config}

variable (config) in
theorem byteAt_data (data : List UInt8) {k : ℕ} (hk : k < data.length) :
    byteAt config data (2 ^ config.windowBits + k) = data[k] := by
  have hle : (List.replicate (2 ^ config.windowBits) (0 : UInt8)).length ≤
      2 ^ config.windowBits + k := by
    rw [List.length_replicate]
    exact Nat.le_add_right _ _
  rw [byteAt, List.getD_eq_getElem?_getD, List.getElem?_append_right hle, List.length_replicate,
    Nat.add_sub_cancel_left, List.getElem?_eq_getElem hk, Option.getD_some]

variable (config) in
theorem byteAt_zero (data : List UInt8) {k : ℕ} (hk : k < 2 ^ config.windowBits) :
    byteAt config data k = 0 := by
  have hlt : k < (List.replicate (2 ^ config.windowBits) (0 : UInt8)).length := by
    rwa [List.length_replicate]
  rw [byteAt, List.getD_eq_getElem?_getD, List.getElem?_append_left hlt,
    List.getElem?_replicate_of_lt hk, Option.getD_some]

/-- The bytes before a place are those of the window. -/
theorem back_take {data : List UInt8} {n d : ℕ} (hn : n ≤ data.length) (hd : 0 < d)
    (hd' : d ≤ 2 ^ config.windowBits) :
    back (data.take n) d = byteAt config data (2 ^ config.windowBits + n - d) := by
  have hlength : (data.take n).length = n := List.length_take_of_le hn
  rw [back, List.getD_eq_getElem?_getD]
  rcases Nat.lt_or_ge n d with hlt | hle
  · rw [List.getElem?_eq_none (by rw [List.length_reverse]; omega), Option.getD_none,
      byteAt_zero config _ (by omega)]
  · have hplace : 2 ^ config.windowBits + n - d = 2 ^ config.windowBits + (n - d) := by omega
    rw [hplace, byteAt_data config _ (by omega), List.getElem?_reverse (by omega), hlength,
      List.getElem?_take_of_lt (by omega), List.getElem?_eq_getElem (by omega), Option.getD_some]
    congr 1
    omega

variable (config) in
/-- A copy of bytes that agree goes on with the data. -/
theorem take_append_copyBack {data : List UInt8} {n d : ℕ} (hd : 0 < d)
    (hd' : d ≤ 2 ^ config.windowBits) (len : ℕ) (hn : n + len ≤ data.length)
    (h : ∀ j < len, byteAt config data (2 ^ config.windowBits + (n + j) - d) =
      byteAt config data (2 ^ config.windowBits + (n + j))) :
    data.take n ++ copyBack d len (data.take n) = data.take (n + len) := by
  induction len with
  | zero => rw [copyBack, List.append_nil, Nat.add_zero]
  | succ len ih =>
      have hfirst := ih (by omega) fun j hj => h j (Nat.lt_succ_of_lt hj)
      have hlast := h len (Nat.lt_succ_self len)
      rw [← back_take (by omega) hd hd', byteAt_data config _ (by omega)] at hlast
      rw [copyBack_add, ← List.append_assoc, hfirst, copyBack, copyBack, hlast, ← Nat.add_assoc,
        List.take_succ_eq_append_getElem (by omega)]

/-! ## Phases -/

/-- The states between an indexing and the end of a search. -/
def Searching : EncoderState → Prop
  | .search | .yieldTagBit | .yieldLiteral | .yieldBrIndex | .yieldBrLength => True
  | .notFull | .filled | .saveBacklog | .flushBits | .done => False

variable (config) in
/-- A match at the scan index, which goes on with the data. -/
structure HasMatch (data : List UInt8) (base : ℕ) (hse : Encoder) : Prop where
  pos_pos : 0 < hse.matchPos
  pos_le : hse.matchPos ≤ 2 ^ config.windowBits
  length_pos : 0 < hse.matchLength
  length_le : hse.matchLength ≤ 2 ^ config.lookaheadBits
  scan_le : hse.matchScanIndex + hse.matchLength ≤ hse.inputSize
  copies : data.take (base + hse.matchScanIndex) ++
      copyBack hse.matchPos hse.matchLength (data.take (base + hse.matchScanIndex)) =
    data.take (base + (hse.matchScanIndex + hse.matchLength))

theorem HasMatch.congr {data : List UInt8} {base : ℕ} {hse hse' : Encoder}
    (h : HasMatch config data base hse) (hpos : hse'.matchPos = hse.matchPos)
    (hlength : hse'.matchLength = hse.matchLength)
    (hscan : hse'.matchScanIndex = hse.matchScanIndex) (hsize : hse'.inputSize = hse.inputSize) :
    HasMatch config data base hse' where
  pos_pos := hpos ▸ h.pos_pos
  pos_le := hpos ▸ h.pos_le
  length_pos := hlength ▸ h.length_pos
  length_le := hlength ▸ h.length_le
  scan_le := by
    rw [hscan, hlength, hsize]
    exact h.scan_le
  copies := by
    rw [hscan, hlength, hpos]
    exact h.copies

variable (config) in
/-- What the bits so far stand for. -/
def Phase (data : List UInt8) (base : ℕ) (bits : List Bool) (hse : Encoder) : Prop :=
  match hse.state with
  | .notFull => hse.finishing = false ∧ hse.inputSize < 2 ^ config.windowBits ∧
      hse.matchScanIndex = 0 ∧ Encodes config bits (data.take base)
  | .filled => hse.matchScanIndex = 0 ∧ Encodes config bits (data.take base)
  | .search => Encodes config bits (data.take (base + hse.matchScanIndex))
  | .yieldTagBit =>
      (hse.matchLength = 0 ∧ ∃ n, hse.matchScanIndex = n + 1 ∧
        Encodes config bits (data.take (base + n))) ∨
      (HasMatch config data base hse ∧
        Encodes config bits (data.take (base + hse.matchScanIndex)))
  | .yieldLiteral => ∃ n done, hse.matchScanIndex = n + 1 ∧
      Encodes config done (data.take (base + n)) ∧ bits = done ++ [true]
  | .yieldBrIndex => HasMatch config data base hse ∧ hse.outgoingBits = hse.matchPos - 1 ∧
      hse.outgoingBitsCount ≤ config.windowBits ∧
      ∃ done, Encodes config done (data.take (base + hse.matchScanIndex)) ∧
        bits ++ bitsOf hse.outgoingBitsCount hse.outgoingBits =
          done ++ false :: bitsOf config.windowBits (hse.matchPos - 1)
  | .yieldBrLength => HasMatch config data base hse ∧ hse.outgoingBits = hse.matchLength - 1 ∧
      hse.outgoingBitsCount ≤ config.lookaheadBits ∧
      ∃ done, Encodes config done (data.take (base + hse.matchScanIndex)) ∧
        bits ++ bitsOf hse.outgoingBitsCount hse.outgoingBits =
          done ++ copyBits config hse.matchPos hse.matchLength
  | .saveBacklog => hse.finishing = false ∧ 0 < hse.matchScanIndex ∧
      Encodes config bits (data.take (base + hse.matchScanIndex))
  | .flushBits => hse.finishing = true ∧ Encodes config bits data
  | .done => hse.finishing = true ∧ ∃ done k, k < 8 ∧ Encodes config done data ∧
      bits = done ++ List.replicate k false

/-- The encoder took the bytes `data`, dropped the first `base` of them, and wrote
`written`, with the bits `pend` held back. -/
structure Follows (config : Config) (indexed : Bool) (data : List UInt8) (base : ℕ)
    (written : List UInt8) (pend : List Bool) (hse : Encoder) : Prop where
  holds : Holds config data base hse
  phase : Phase config data base (bitsOfBytes written ++ pend) hse
  full : hse.finishing = false → hse.state ≠ .notFull → hse.inputSize = 2 ^ config.windowBits
  links : indexed = true → Searching hse.state →
    Indexed hse.buffer (2 ^ config.windowBits + hse.inputSize) hse.searchIndex ∧
      2 ^ config.windowBits + hse.inputSize < 2 ^ 15
  pending : hse.state ≠ .done → Pending hse pend
  flushed : hse.state = .done → pend = []

/-- A bound for the passes before the next return. -/
def work (hse : Encoder) : ℕ :=
  let left := hse.inputSize - hse.matchScanIndex
  match hse.state with
  | .notFull | .done => 0
  | .flushBits | .saveBacklog => 1
  | .search => 64 * left + 2
  | .filled => 64 * left + 3
  | .yieldTagBit => if hse.matchLength = 0 then 64 * left + 4
      else 64 * (left - hse.matchLength) + 50
  | .yieldLiteral => 64 * left + 3
  | .yieldBrIndex => 64 * (left - hse.matchLength) + 25 + hse.outgoingBitsCount
  | .yieldBrLength => 64 * (left - hse.matchLength) + 4 + hse.outgoingBitsCount

/-- What a pass leaves: an encoder that goes on following its input and has less work
left, or a full output buffer. -/
structure Stepped (config : Config) (indexed : Bool) (bufSize : ℕ) (data before : List UInt8)
    (hse : Encoder) (output : List UInt8) (next : Encoder × List UInt8) : Prop where
  follows : ∃ base pend, Follows config indexed data base (before ++ next.2) pend next.1
  room : next.2.length ≤ bufSize
  finishing : next.1.finishing = hse.finishing
  not_filled : next.1.state ≠ .filled
  rests : next.1.state = hse.state → Searching next.1.state
  moves : next.1.work < hse.work ∨ (output.length = bufSize ∧ next = (hse, output))

/-- The only loop that fails is the indexing of a full buffer of 2 ^ 15 bytes. -/
def Overflows (config : Config) (indexed : Bool) (hse : Encoder) (e : Fault) : Prop :=
  e = .counterOverflow ∧ indexed = true ∧ config.windowBits = 14 ∧ hse.state = .filled ∧
    hse.inputSize = 2 ^ 14

/-! ## One pass -/

section Step

variable {indexed : Bool} {bufSize base : ℕ} {data before output : List UInt8}
  {pend : List Bool} {hse : Encoder}

/-- A pass that writes between an indexing and the end of a search. -/
theorem Follows.of_wrote (h : Follows config indexed data base (before ++ output) pend hse)
    (hstate : Searching hse.state) {written : List Bool} {s : Encoder × List UInt8}
    (hs : Wrote hse pend output written s) {hse' : Encoder}
    (hkeep : hse' = { s.1 with
      state := hse'.state
      matchScanIndex := hse'.matchScanIndex
      matchLength := hse'.matchLength
      outgoingBits := hse'.outgoingBits
      outgoingBitsCount := hse'.outgoingBitsCount })
    (hstate' : Searching hse'.state) (hscan : hse'.matchScanIndex ≤ hse.inputSize)
    (hphase : Phase config data base (bitsOfBytes (before ++ output) ++ pend ++ written) hse') :
    ∃ pend', Follows config indexed data base (before ++ s.2) pend' hse' := by
  obtain ⟨pend', hpending, hbits, hsame⟩ := hs
  have hinput : hse'.inputSize = hse.inputSize := by rw [hkeep, hsame]
  have hbuffer : hse'.buffer = hse.buffer := by rw [hkeep, hsame]
  have hindex : hse'.searchIndex = hse.searchIndex := by rw [hkeep, hsame]
  have hfinishing : hse'.finishing = hse.finishing := by rw [hkeep, hsame]
  have hstate_ne : hse.state ≠ .notFull := by
    intro heq
    rw [heq] at hstate
    exact hstate
  have hbits' : bitsOfBytes (before ++ s.2) ++ pend' =
      bitsOfBytes (before ++ output) ++ pend ++ written := by
    rw [bitsOfBytes_append, bitsOfBytes_append, List.append_assoc, hbits]
    simp only [List.append_assoc]
  refine ⟨pend', ⟨?_, ?_, ?_, ?_⟩, ?_, fun hrun _ => ?_, fun hflag _ => ?_, fun _ => ?_,
    fun hdone => ?_⟩
  · rw [hinput]
    exact h.holds.length
  · rw [hinput]
    exact h.holds.size_le
  · rw [hinput]
    exact hscan
  · rw [hinput, hbuffer]
    exact h.holds.buffer
  · rw [hbits']
    exact hphase
  · rw [hinput]
    exact h.full (hfinishing ▸ hrun) hstate_ne
  · rw [hinput, hbuffer, hindex]
    exact h.links hflag hstate
  · rw [hkeep]
    exact ⟨hpending.length_lt, hpending.mark, hpending.byte⟩
  · rw [hdone] at hstate'
    exact hstate'.elim

/-- A pass that writes, with less work left. -/
theorem Stepped.of_wrote (h : Follows config indexed data base (before ++ output) pend hse)
    (hstate : Searching hse.state) (hfree : output.length < bufSize) {written : List Bool}
    (hwritten : written.length ≤ 8) {s : Encoder × List UInt8}
    (hs : Wrote hse pend output written s) {hse' : Encoder}
    (hkeep : hse' = { s.1 with
      state := hse'.state
      matchScanIndex := hse'.matchScanIndex
      matchLength := hse'.matchLength
      outgoingBits := hse'.outgoingBits
      outgoingBitsCount := hse'.outgoingBitsCount })
    (hstate' : Searching hse'.state) (hscan : hse'.matchScanIndex ≤ hse.inputSize)
    (hphase : Phase config data base (bitsOfBytes (before ++ output) ++ pend ++ written) hse')
    (hwork : hse'.work < hse.work) :
    Stepped config indexed bufSize data before hse output (hse', s.2) := by
  have hpending := h.pending fun hdone => by
    rw [hdone] at hstate
    exact hstate
  have hone := hs.length_le hpending.length_lt hwritten
  obtain ⟨pend', hfollows⟩ := h.of_wrote hstate hs hkeep hstate' hscan hphase
  obtain ⟨-, -, -, hsame⟩ := hs
  refine ⟨⟨base, pend', hfollows⟩, hone.trans hfree, ?_, fun hfilled => ?_, fun _ => hstate',
    Or.inl hwork⟩
  · rw [hkeep, hsame]
  · rw [hfilled] at hstate'
    exact hstate'

/-- A pass that finds the output buffer full. -/
theorem stepped_stuck (h : Follows config indexed data base (before ++ output) pend hse)
    (hstate : Searching hse.state) (hroom : output.length ≤ bufSize) (hfull : ¬output.length < bufSize) :
    Stepped config indexed bufSize data before hse output (hse, output) :=
  ⟨⟨base, pend, h⟩, hroom, rfl, fun hfilled => (hfilled ▸ hstate : Searching .filled),
    fun _ => hstate, Or.inr ⟨Nat.le_antisymm hroom (not_lt.mp hfull), rfl⟩⟩

variable (config) in
theorem window_le : 2 ^ config.windowBits ≤ 2 ^ 15 :=
  Nat.pow_le_pow_right (by decide) config.le_maxWindowBits

variable (config) in
theorem lookahead_lt : 2 ^ config.lookaheadBits < 2 ^ config.windowBits :=
  Nat.pow_lt_pow_right (by decide) config.lookaheadBits_lt

theorem stepped_tagBit (h : Follows config indexed data base (before ++ output) pend hse)
    (hroom : output.length ≤ bufSize) (hstate : hse.state = .yieldTagBit) :
    ∃ next, hse.step config indexed bufSize output = .ok next ∧
      Stepped config indexed bufSize data before hse output next := by
  have hsearching : Searching hse.state := by rw [hstate]; trivial
  have hpending := h.pending (by rw [hstate]; decide)
  have hwindow := window_le config
  have hbits := config.le_maxWindowBits
  have hphase := h.phase
  simp only [Phase, hstate] at hphase
  refine ⟨_, by simp only [step, hstate]; rfl, ?_⟩
  by_cases hfree : output.length < bufSize
  · by_cases hliteral : hse.matchLength = 0
    · have hwrote := wrote_pushBits hpending 1 0x01 output
      obtain ⟨-, -, -, hsame⟩ := id hwrote
      simp only [stYieldTagBit, if_pos hfree, if_pos hliteral, addTagBit]
      refine Stepped.of_wrote h hsearching hfree (by decide) hwrote rfl trivial ?_ ?_ ?_
      · rw [hsame]
        exact h.holds.scan_le
      · rcases hphase with ⟨-, n, hn, hencodes⟩ | ⟨hmatch, -⟩
        · simp only [Phase]
          rw [hsame]
          exact ⟨n, _, hn, hencodes, rfl⟩
        · exact absurd hliteral hmatch.length_pos.ne'
      · simp only [work, hstate, if_pos hliteral]
        rw [hsame]
        dsimp only
        omega
    · have hwrote := wrote_pushBits hpending 1 0x00 output
      obtain ⟨-, -, -, hsame⟩ := id hwrote
      simp only [stYieldTagBit, if_pos hfree, if_neg hliteral, addTagBit]
      obtain ⟨hmatch, hencodes⟩ := hphase.resolve_left fun hzero => hliteral hzero.1
      have hpos := hmatch.pos_pos
      have hle := hmatch.pos_le
      have houtgoing : uint16 ((hse.matchPos : ℤ) - 1) = hse.matchPos - 1 :=
        uint16_sub hpos (by omega)
      refine Stepped.of_wrote h hsearching hfree (by decide) hwrote rfl trivial ?_ ?_ ?_
      · rw [hsame]
        exact h.holds.scan_le
      · simp only [Phase]
        rw [hsame]
        dsimp only
        rw [houtgoing]
        refine ⟨hmatch.congr rfl rfl rfl rfl, rfl, le_rfl, _, hencodes, ?_⟩
        rw [List.append_assoc]
        rfl
      · simp only [work, hstate, if_neg hliteral]
        rw [hsame]
        dsimp only
        omega
  · have hstep : hse.stYieldTagBit config bufSize output = (.yieldTagBit, hse, output) := by
      simp only [stYieldTagBit, if_neg hfree]
    rw [hstep, ← hstate]
    exact stepped_stuck h hsearching hroom hfree

theorem stepped_yieldLiteral (h : Follows config indexed data base (before ++ output) pend hse)
    (hroom : output.length ≤ bufSize) (hstate : hse.state = .yieldLiteral) :
    ∃ next, hse.step config indexed bufSize output = .ok next ∧
      Stepped config indexed bufSize data before hse output next := by
  have hsearching : Searching hse.state := by rw [hstate]; trivial
  have hpending := h.pending (by rw [hstate]; decide)
  have hwindow := window_le config
  have hphase := h.phase
  simp only [Phase, hstate] at hphase
  obtain ⟨n, done, hn, hencodes, hdone⟩ := hphase
  have hscan := h.holds.scan_le
  have hsize := h.holds.size_le
  have hlength := h.holds.length
  refine ⟨_, by simp only [step, hstate]; rfl, ?_⟩
  by_cases hfree : output.length < bufSize
  · have hprocessed : uint16 ((hse.matchScanIndex : ℤ) - 1) = n := by
      rw [uint16]
      omega
    have hoffset : uint16 ((getInputBufferSize config : ℤ) + n) = 2 ^ config.windowBits + n :=
      uint16_add (a := getInputBufferSize config) (by rw [getInputBufferSize]; omega)
    have hbyte : hse.buffer (2 ^ config.windowBits + n) = data[base + n] := by
      rw [h.holds.buffer _ (by omega), ← byteAt_data config data (by omega)]
      congr 1
      omega
    have hwrote := wrote_pushBits hpending 8 data[base + n] output
    obtain ⟨-, -, -, hsame⟩ := id hwrote
    simp only [stYieldLiteral, if_pos hfree, pushLiteralByte, hprocessed, hoffset, hbyte]
    refine Stepped.of_wrote h hsearching hfree (length_bitsOf _ _).le hwrote rfl trivial ?_ ?_ ?_
    · rw [hsame]
      exact hscan
    · have hnext := hencodes.literal data[base + n]
      rw [← List.take_succ_eq_append_getElem (by omega)] at hnext
      simp only [Phase]
      rw [hsame, hdone, List.append_assoc]
      dsimp only
      rw [hn]
      exact hnext
    · simp only [work, hstate]
      rw [hsame]
      dsimp only
      omega
  · have hstep : hse.stYieldLiteral config bufSize output = (.yieldLiteral, hse, output) := by
      simp only [stYieldLiteral, if_neg hfree]
    rw [hstep, ← hstate]
    exact stepped_stuck h hsearching hroom hfree

/-- The bits of a field that were not pushed follow those that were. -/
theorem push_field {bits written done rest : List Bool} {count n v : ℕ}
    (hwritten : written ++ bitsOf (count - n) v = bitsOf count v)
    (h : bits ++ bitsOf count v = done ++ rest) :
    bits ++ written ++ bitsOf (count - n) v = done ++ rest := by
  rw [List.append_assoc, hwritten, h]

theorem stepped_yieldBrIndex (h : Follows config indexed data base (before ++ output) pend hse)
    (hroom : output.length ≤ bufSize) (hstate : hse.state = .yieldBrIndex) :
    ∃ next, hse.step config indexed bufSize output = .ok next ∧
      Stepped config indexed bufSize data before hse output next := by
  have hsearching : Searching hse.state := by rw [hstate]; trivial
  have hpending := h.pending (by rw [hstate]; decide)
  have hwindow := window_le config
  have hlookahead := lookahead_lt config
  have hbits := config.le_maxWindowBits
  have hbits' := config.lookaheadBits_lt
  have hphase := h.phase
  simp only [Phase, hstate] at hphase
  obtain ⟨hmatch, houtgoing, hcount, done, hencodes, hdone⟩ := hphase
  have hpos := hmatch.length_pos
  have hle := hmatch.length_le
  refine ⟨_, by simp only [step, hstate]; rfl, ?_⟩
  by_cases hfree : output.length < bufSize
  · rcases pushOutgoingBits_eq hpending output with
      ⟨hzero, hpush⟩ | ⟨n, t, hn, hn', hnle, hpush, written, hwrote, hwritten, hlength⟩
    · have hlength : uint16 ((hse.matchLength : ℤ) - 1) = hse.matchLength - 1 := by
        rw [uint16]
        omega
      simp only [stYieldBrIndex, if_pos hfree, hpush, gt_iff_lt, lt_irrefl, if_false, hlength]
      rw [hzero, bitsOf, List.append_nil] at hdone
      have hnothing : Wrote hse pend output [] (hse, output) :=
        ⟨pend, hpending, by rw [List.append_nil], rfl⟩
      refine Stepped.of_wrote h hsearching hfree (by decide) hnothing rfl trivial
        h.holds.scan_le ?_ ?_
      · refine ⟨hmatch.congr rfl rfl rfl rfl, rfl, le_rfl, done, hencodes, ?_⟩
        dsimp only
        rw [List.append_nil, hdone, List.append_assoc, copyBits]
        rfl
      · simp only [work, hstate]
        omega
    · rw [stYieldBrIndex, if_pos hfree]
      dsimp only
      rw [hpush]
      dsimp only
      rw [if_pos hn]
      obtain ⟨-, -, -, hsame⟩ := id hwrote
      refine Stepped.of_wrote h hsearching hfree (hlength.le.trans hn') hwrote rfl trivial ?_ ?_ ?_
      · dsimp only at hsame ⊢
        rw [hsame]
        exact h.holds.scan_le
      · simp only [Phase]
        dsimp only at hsame
        rw [hsame]
        exact ⟨hmatch.congr rfl rfl rfl rfl, houtgoing, (Nat.sub_le _ _).trans hcount, done,
          hencodes, push_field hwritten hdone⟩
      · simp only [work, hstate]
        dsimp only at hsame
        rw [hsame]
        dsimp only
        omega
  · have hstep : hse.stYieldBrIndex config bufSize output = (.yieldBrIndex, hse, output) := by
      simp only [stYieldBrIndex, if_neg hfree]
    rw [hstep, ← hstate]
    exact stepped_stuck h hsearching hroom hfree

theorem stepped_yieldBrLength (h : Follows config indexed data base (before ++ output) pend hse)
    (hroom : output.length ≤ bufSize) (hstate : hse.state = .yieldBrLength) :
    ∃ next, hse.step config indexed bufSize output = .ok next ∧
      Stepped config indexed bufSize data before hse output next := by
  have hsearching : Searching hse.state := by rw [hstate]; trivial
  have hpending := h.pending (by rw [hstate]; decide)
  have hwindow := window_le config
  have hphase := h.phase
  simp only [Phase, hstate] at hphase
  obtain ⟨hmatch, houtgoing, hcount, done, hencodes, hdone⟩ := hphase
  have hpos := hmatch.length_pos
  have hle := hmatch.length_le
  have hscan := hmatch.scan_le
  have hsize := h.holds.size_le
  refine ⟨_, by simp only [step, hstate]; rfl, ?_⟩
  by_cases hfree : output.length < bufSize
  · rcases pushOutgoingBits_eq hpending output with
      ⟨hzero, hpush⟩ | ⟨n, t, hn, hn', hnle, hpush, written, hwrote, hwritten, hlength⟩
    · have hnext : uint16 ((hse.matchScanIndex : ℤ) + hse.matchLength) =
          hse.matchScanIndex + hse.matchLength := uint16_add (by omega)
      simp only [stYieldBrLength, if_pos hfree, hpush, gt_iff_lt, lt_irrefl, if_false, hnext]
      rw [hzero, bitsOf, List.append_nil] at hdone
      have hnothing : Wrote hse pend output [] (hse, output) :=
        ⟨pend, hpending, by rw [List.append_nil], rfl⟩
      refine Stepped.of_wrote h hsearching hfree (by decide) hnothing rfl trivial hscan ?_ ?_
      · have hcopy := hencodes.copy hmatch.pos_pos hmatch.pos_le hpos hle
        rw [hmatch.copies] at hcopy
        simp only [Phase]
        rw [List.append_nil, hdone]
        exact hcopy
      · simp only [work, hstate]
        omega
    · rw [stYieldBrLength, if_pos hfree]
      dsimp only
      rw [hpush]
      dsimp only
      rw [if_pos hn]
      obtain ⟨-, -, -, hsame⟩ := id hwrote
      refine Stepped.of_wrote h hsearching hfree (hlength.le.trans hn') hwrote rfl trivial ?_ ?_ ?_
      · dsimp only at hsame ⊢
        rw [hsame]
        exact h.holds.scan_le
      · simp only [Phase]
        dsimp only at hsame
        rw [hsame]
        exact ⟨hmatch.congr rfl rfl rfl rfl, houtgoing, (Nat.sub_le _ _).trans hcount, done,
          hencodes, push_field hwritten hdone⟩
      · simp only [work, hstate]
        dsimp only at hsame
        rw [hsame]
        dsimp only
        omega
  · have hstep : hse.stYieldBrLength bufSize output = (.yieldBrLength, hse, output) := by
      simp only [stYieldBrLength, if_neg hfree]
    rw [hstep, ← hstate]
    exact stepped_stuck h hsearching hroom hfree

theorem stepped_filled (hindexed : indexed = true → config.windowBits ≤ 14)
    (h : Follows config indexed data base (before ++ output) pend hse)
    (hroom : output.length ≤ bufSize) (hstate : hse.state = .filled) :
    Ensures (hse.step config indexed bufSize output)
      (Stepped config indexed bufSize data before hse output) (Overflows config indexed hse) := by
  have hphase := h.phase
  simp only [Phase, hstate] at hphase
  have hpending := h.pending (by rw [hstate]; decide)
  have hstate_ne : hse.state ≠ .notFull := by rw [hstate]; decide
  have hsize := h.holds.size_le
  have hstepped : ∀ index, (indexed = true →
        Indexed hse.buffer (2 ^ config.windowBits + hse.inputSize) index ∧
          2 ^ config.windowBits + hse.inputSize < 2 ^ 15) →
      Stepped config indexed bufSize data before hse output
        ({ hse with searchIndex := index, state := .search }, output) := by
    intro index hindex
    refine ⟨⟨base, pend, ⟨h.holds.length, hsize, h.holds.scan_le, h.holds.buffer⟩, ?_,
      fun hrun _ => h.full hrun hstate_ne, fun hflag _ => hindex hflag,
      fun _ => ⟨hpending.length_lt, hpending.mark, hpending.byte⟩,
      fun hdone => absurd hdone (by simp)⟩, hroom, rfl, by simp, fun _ => trivial, Or.inl ?_⟩
    · simp only [Phase]
      rw [hphase.1]
      exact hphase.2
    · simp only [work, hstate]
      omega
  cases hflag : indexed with
  | false =>
      have hstep : hse.step config false bufSize output =
          .ok ({ hse with searchIndex := hse.searchIndex, state := .search }, output) := by
        simp only [step, hstate]
        rfl
      rw [hstep, ← hflag]
      exact hstepped _ fun htrue => absurd (hflag.symm.trans htrue) (by decide)
  | true =>
      have hbits := hindexed hflag
      have hwindow : 2 ^ config.windowBits ≤ 2 ^ 14 := Nat.pow_le_pow_right (by decide) hbits
      have hend : uint16 ((getInputBufferSize config : ℤ) + hse.inputSize) =
          2 ^ config.windowBits + hse.inputSize :=
        uint16_add (a := getInputBufferSize config) (by rw [getInputBufferSize]; omega)
      have hindexing := doIndexing_spec hse.buffer (2 ^ config.windowBits + hse.inputSize)
        hse.searchIndex
      simp only [step, hstate, if_true, hend]
      cases hrun : doIndexing hse.buffer (2 ^ config.windowBits + hse.inputSize)
          hse.searchIndex with
      | ok index =>
          have hindex := hindexing.of_eq_ok hrun
          have hnext := hstepped index fun _ => ⟨hindex.2, hindex.1⟩
          rw [hflag] at hnext
          exact hnext
      | error e =>
          obtain ⟨he, hlarge⟩ := hindexing.of_eq_error hrun
          have hfourteen : 14 ≤ config.windowBits := by
            by_contra hlt
            have hsmall : 2 ^ config.windowBits ≤ 2 ^ 13 :=
              Nat.pow_le_pow_right (by decide) (by omega)
            omega
          exact ⟨he, rfl, Nat.le_antisymm hbits hfourteen, hstate, by omega⟩

theorem stepped_saveBacklog (h : Follows config indexed data base (before ++ output) pend hse)
    (hroom : output.length ≤ bufSize) (hstate : hse.state = .saveBacklog) :
    ∃ next, hse.step config indexed bufSize output = .ok next ∧
      Stepped config indexed bufSize data before hse output next := by
  have hphase := h.phase
  simp only [Phase, hstate] at hphase
  obtain ⟨hrun, hscanned, hencodes⟩ := hphase
  have hpending := h.pending (by rw [hstate]; decide)
  have hfull := h.full hrun (by rw [hstate]; decide)
  have hscan := h.holds.scan_le
  have hlength := h.holds.length
  have hwindow := window_le config
  have hrem : uint16 (((getInputBufferSize config : ℕ) : ℤ) - hse.matchScanIndex) =
      2 ^ config.windowBits - hse.matchScanIndex :=
    uint16_sub (a := getInputBufferSize config) (by rw [getInputBufferSize]; omega)
      (by rw [getInputBufferSize]; omega)
  have hshift : uint16 (((getInputBufferSize config : ℕ) : ℤ) +
      (2 ^ config.windowBits - hse.matchScanIndex : ℕ)) =
        2 ^ config.windowBits + (2 ^ config.windowBits - hse.matchScanIndex) :=
    uint16_add (a := getInputBufferSize config) (by rw [getInputBufferSize]; omega)
  have hfrom : getInputBufferSize config - (2 ^ config.windowBits - hse.matchScanIndex) =
      hse.matchScanIndex := by
    rw [getInputBufferSize]
    omega
  have hleft : uint16 ((hse.inputSize : ℤ) - (((getInputBufferSize config : ℕ) : ℤ) -
      (2 ^ config.windowBits - hse.matchScanIndex : ℕ))) =
        2 ^ config.windowBits - hse.matchScanIndex := by
    rw [getInputBufferSize, hfull, uint16]
    omega
  refine ⟨_, by simp only [step, hstate]; rfl, ?_⟩
  simp only [stSaveBacklog, saveBacklog, hrem, hshift, hfrom, hleft]
  refine ⟨⟨base + hse.matchScanIndex, pend, ⟨?_, Nat.sub_le _ _, Nat.zero_le _, ?_⟩, ?_,
    fun _ hne => absurd rfl hne, fun _ hsearch => hsearch.elim,
    fun _ => ⟨hpending.length_lt, hpending.mark, hpending.byte⟩,
    fun hdone => absurd hdone (by simp)⟩, hroom, rfl, by simp,
    fun hsame => absurd (hsame.trans hstate) (by simp), Or.inl ?_⟩
  · dsimp only
    omega
  · intro i hi
    dsimp only at hi ⊢
    rw [if_pos hi, h.holds.buffer _ (by omega), Nat.add_assoc]
  · simp only [Phase]
    exact ⟨hrun, by omega, trivial, hencodes⟩
  · simp only [work, hstate]
    exact Nat.one_pos

/-- A search within the input finds nothing or a match that goes on with the data. -/
theorem search_match (h : Follows config indexed data base (before ++ output) pend hse)
    (hstate : Searching hse.state) {maxlen : ℕ} (hmaxlen : 0 < maxlen)
    (hlookahead : maxlen ≤ 2 ^ config.lookaheadBits)
    (hleft : hse.matchScanIndex + maxlen ≤ hse.inputSize) :
    ∃ r, findLongestMatch config indexed hse.buffer hse.searchIndex hse.matchScanIndex
        (2 ^ config.windowBits + hse.matchScanIndex) maxlen = .ok r ∧
      (r = (matchNotFound, 0) ∨ (r.1 ≠ matchNotFound ∧
        HasMatch config data base { hse with matchPos := r.1, matchLength := r.2 })) := by
  have hwindow := window_le config
  have hsize := h.holds.size_le
  have hlength := h.holds.length
  have hinput : hse.matchScanIndex < hse.inputSize := by omega
  obtain ⟨r, hr, hsound⟩ : ∃ r, findLongestMatch config indexed hse.buffer hse.searchIndex
      hse.matchScanIndex (2 ^ config.windowBits + hse.matchScanIndex) maxlen = .ok r ∧
        Sound hse.buffer hse.matchScanIndex (2 ^ config.windowBits + hse.matchScanIndex)
          maxlen r := by
    cases hflag : indexed with
    | false => exact findLongestMatch_sound config (by omega) (by omega) (by omega) hmaxlen
    | true =>
        obtain ⟨hlinks, hsmall⟩ := h.links hflag hstate
        obtain ⟨r, hr, hfound⟩ := findLongestMatch_found config hse.matchScanIndex
          (fun _ : true = true =>
            (⟨hlinks, Nat.add_lt_add_left hinput _, hsmall.le⟩ :
              Indexed hse.buffer _ hse.searchIndex ∧
                2 ^ config.windowBits + hse.matchScanIndex < _ ∧ _))
          (by omega) (by omega) (by omega) hmaxlen
        exact ⟨r, hr, hfound.sound⟩
  refine ⟨r, hr, hsound.imp_right ?_⟩
  rintro ⟨pos, hmatch, hdistance⟩
  have hstart := hmatch.start_le
  have hend := hmatch.lt_end
  have hlen := hmatch.len_le
  refine ⟨?_, ⟨?_, ?_, hmatch.pos_len, hlen.trans hlookahead, ?_, ?_⟩⟩
  · rw [hdistance, matchNotFound]
    omega
  · dsimp only
    omega
  · dsimp only
    omega
  · dsimp only
    omega
  · dsimp only
    rw [hdistance, ← Nat.add_assoc]
    refine take_append_copyBack config (by omega) (by omega) r.2 (by omega) fun j hj => ?_
    have hagrees := hmatch.agrees j hj
    rw [h.holds.buffer _ (by omega), h.holds.buffer _ (by omega)] at hagrees
    calc byteAt config data (2 ^ config.windowBits + (base + hse.matchScanIndex + j) -
            (2 ^ config.windowBits + hse.matchScanIndex - pos))
        = byteAt config data (base + (pos + j)) := by
          congr 1
          omega
      _ = byteAt config data (base + (2 ^ config.windowBits + hse.matchScanIndex + j)) := hagrees
      _ = byteAt config data (2 ^ config.windowBits + (base + hse.matchScanIndex + j)) := by
          congr 1
          omega

theorem stepped_search (h : Follows config indexed data base (before ++ output) pend hse)
    (hroom : output.length ≤ bufSize) (hstate : hse.state = .search) :
    ∃ next, hse.step config indexed bufSize output = .ok next ∧
      Stepped config indexed bufSize data before hse output next := by
  have hsearching : Searching hse.state := by rw [hstate]; trivial
  have hphase := h.phase
  simp only [Phase, hstate] at hphase
  have hpending := h.pending (by rw [hstate]; decide)
  have hwindow := window_le config
  have hlookahead := lookahead_lt config
  have hone := Nat.two_pow_pos config.lookaheadBits
  have hscan := h.holds.scan_le
  have hsize := h.holds.size_le
  have hlength := h.holds.length
  have hstate_ne : hse.state ≠ .notFull := by rw [hstate]; decide
  by_cases hover : (hse.matchScanIndex : ℤ) >
      hse.inputSize - (if hse.finishing then 1 else ((getLookaheadSize config : ℕ) : ℤ))
  · cases hfin : hse.finishing with
    | true =>
        rw [if_pos hfin] at hover
        refine ⟨({ hse with state := .flushBits }, output), ?_, ⟨base, pend, ?_⟩, hroom, rfl,
          by simp, fun hsame => absurd (hsame.trans hstate) (by simp), Or.inl ?_⟩
        · simp only [step, hstate, stStepSearch, if_pos hfin, if_pos hover]
          rfl
        · refine ⟨⟨hlength, hsize, hscan, h.holds.buffer⟩, ?_,
            fun hrun _ => absurd (hfin.symm.trans hrun) (by decide),
            fun _ hsearch => hsearch.elim,
            fun _ => ⟨hpending.length_lt, hpending.mark, hpending.byte⟩,
            fun hdone => absurd hdone (by simp)⟩
          simp only [Phase]
          rw [List.take_of_length_le (by omega)] at hphase
          exact ⟨hfin, hphase⟩
        · simp only [work, hstate]
          omega
    | false =>
        have hfull := h.full hfin hstate_ne
        have hrun : ¬hse.finishing = true := fun htrue => Bool.noConfusion (hfin.symm.trans htrue)
        rw [if_neg hrun, getLookaheadSize] at hover
        refine ⟨({ hse with state := .saveBacklog }, output), ?_, ⟨base, pend, ?_⟩, hroom, rfl,
          by simp, fun hsame => absurd (hsame.trans hstate) (by simp), Or.inl ?_⟩
        · simp only [step, hstate, stStepSearch, if_neg hrun, getLookaheadSize, if_pos hover]
          rfl
        · refine ⟨⟨hlength, hsize, hscan, h.holds.buffer⟩, ?_, fun _ _ => hfull,
            fun _ hsearch => hsearch.elim,
            fun _ => ⟨hpending.length_lt, hpending.mark, hpending.byte⟩,
            fun hdone => absurd hdone (by simp)⟩
          simp only [Phase]
          refine ⟨hfin, ?_, hphase⟩
          have hcast : ((2 ^ config.lookaheadBits : ℕ) : ℤ) < ((2 ^ config.windowBits : ℕ) : ℤ) :=
            Int.ofNat_lt.mpr hlookahead
          rw [hfull] at hover
          omega
        · simp only [work, hstate]
          omega
  · obtain ⟨maxlen, hmax⟩ : ∃ maxlen, maxlen =
        min (hse.inputSize - hse.matchScanIndex) (2 ^ config.lookaheadBits) := ⟨_, rfl⟩
    have hinput : hse.matchScanIndex < hse.inputSize := by
      rw [getLookaheadSize] at hover
      split_ifs at hover <;> omega
    have hpossible : (if (hse.inputSize - hse.matchScanIndex : ℤ) < (getLookaheadSize config : ℕ)
        then uint16 (hse.inputSize - hse.matchScanIndex) else getLookaheadSize config) =
          maxlen := by
      rw [getLookaheadSize, hmax, uint16]
      split_ifs <;> omega
    have hend : uint16 ((getInputBufferSize config : ℤ) + hse.matchScanIndex) =
        2 ^ config.windowBits + hse.matchScanIndex :=
      uint16_add (a := getInputBufferSize config) (by rw [getInputBufferSize]; omega)
    have hstart : uint16 (((2 ^ config.windowBits + hse.matchScanIndex : ℕ) : ℤ) -
        (getInputBufferSize config : ℕ)) = hse.matchScanIndex :=
      (uint16_sub (b := getInputBufferSize config) (by rw [getInputBufferSize]; omega)
        (by omega)).trans (by rw [getInputBufferSize]; omega)
    have hpos : 0 < maxlen := by omega
    obtain ⟨r, hr, hfound⟩ := search_match h hsearching hpos (by omega) (by omega)
    have hstep : hse.step config indexed bufSize output =
        .ok ({ (if r.1 = matchNotFound then
            { hse with matchScanIndex := uint16 (hse.matchScanIndex + 1), matchLength := 0 }
          else { hse with matchPos := r.1, matchLength := r.2 }) with
            state := .yieldTagBit }, output) := by
      simp only [step, hstate, stStepSearch, if_neg hover, hend, hstart, hpossible, hr, ok_bind]
      by_cases hnone : r.1 = matchNotFound
      · simp only [if_pos hnone]
      · simp only [if_neg hnone]
    rw [hstep]
    refine ⟨_, rfl, ?_⟩
    rcases hfound with hnone | ⟨hsome, hmatch⟩
    · have hnext : uint16 ((hse.matchScanIndex : ℤ) + 1) = hse.matchScanIndex + 1 := by
        rw [uint16]
        omega
      rw [hnone, if_pos rfl, hnext]
      refine ⟨⟨base, pend, ⟨hlength, hsize, hinput, h.holds.buffer⟩, ?_,
        fun hrun _ => h.full hrun hstate_ne, fun hflag _ => h.links hflag hsearching,
        fun _ => ⟨hpending.length_lt, hpending.mark, hpending.byte⟩,
        fun hdone => absurd hdone (by simp)⟩, hroom, rfl, by simp, fun _ => trivial, Or.inl ?_⟩
      · exact Or.inl ⟨rfl, hse.matchScanIndex, rfl, hphase⟩
      · simp only [work, hstate, if_true]
        omega
    · have hpos := hmatch.length_pos
      have hle := hmatch.scan_le
      dsimp only at hpos hle
      rw [if_neg hsome]
      refine ⟨⟨base, pend, ⟨hlength, hsize, hscan, h.holds.buffer⟩, ?_,
        fun hrun _ => h.full hrun hstate_ne, fun hflag _ => h.links hflag hsearching,
        fun _ => ⟨hpending.length_lt, hpending.mark, hpending.byte⟩,
        fun hdone => absurd hdone (by simp)⟩, hroom, rfl, by simp, fun _ => trivial, Or.inl ?_⟩
      · exact Or.inr ⟨hmatch.congr rfl rfl rfl rfl, hphase⟩
      · simp only [work, hstate, if_neg hpos.ne']
        omega

/-- A pass of the loop, in any state that does not return. -/
theorem stepped (hindexed : indexed = true → config.windowBits ≤ 14)
    (h : Follows config indexed data base (before ++ output) pend hse)
    (hroom : output.length ≤ bufSize) (hfull : hse.state ≠ .notFull) (hdone : hse.state ≠ .done)
    (hflush : hse.state ≠ .flushBits) :
    Ensures (hse.step config indexed bufSize output)
      (Stepped config indexed bufSize data before hse output) (Overflows config indexed hse) := by
  have hreturns : (∃ next, hse.step config indexed bufSize output = .ok next ∧
      Stepped config indexed bufSize data before hse output next) →
        Ensures (hse.step config indexed bufSize output)
          (Stepped config indexed bufSize data before hse output)
          (Overflows config indexed hse) := by
    rintro ⟨next, hnext, hstepped⟩
    rw [hnext]
    exact hstepped
  cases hstate : hse.state with
  | notFull => exact absurd hstate hfull
  | filled => exact stepped_filled hindexed h hroom hstate
  | search => exact hreturns (stepped_search h hroom hstate)
  | yieldTagBit => exact hreturns (stepped_tagBit h hroom hstate)
  | yieldLiteral => exact hreturns (stepped_yieldLiteral h hroom hstate)
  | yieldBrIndex => exact hreturns (stepped_yieldBrIndex h hroom hstate)
  | yieldBrLength => exact hreturns (stepped_yieldBrLength h hroom hstate)
  | saveBacklog => exact hreturns (stepped_saveBacklog h hroom hstate)
  | flushBits => exact absurd hstate hflush
  | done => exact absurd hstate hdone

end Step

end Encoder

end Xhive.Heatshrink
