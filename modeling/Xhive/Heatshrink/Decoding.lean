import Xhive.Heatshrink.Decoder
import Mathlib.Algebra.Ring.Divisibility.Basic
import Mathlib.Data.Int.ModEq
import Mathlib.Data.Nat.Size
import Mathlib.Tactic.Positivity

/-!
# What the decoder writes

At any point of a run the decoder has written a first part of what its input
stands for, and its state and the bits it has not read stand for the rest.  So
the output does not depend on how the input is cut into calls, nor on the sizes
of the output buffers.
-/

namespace Xhive.Heatshrink

open Xhive.Support

namespace Decoder

/-! ## Reading bits -/

/-- The input bytes that were not pulled. -/
def pending (hsd : Decoder) : List UInt8 :=
  (List.range' hsd.inputIndex (hsd.inputSize - hsd.inputIndex)).map hsd.inputBuffer

/-- The bits that were not read. -/
def bits (hsd : Decoder) : List Bool :=
  bitsOf hsd.bitIndex.toNat.size hsd.currentByte.toNat ++ bitsOfBytes hsd.pending

/-- Of the current byte less than all bits are left, and the input buffer is empty
or has a byte to pull. -/
structure Readable (hsd : Decoder) : Prop where
  bitIndex : ∃ r < 8, hsd.bitIndex.toNat = 2 ^ r / 2
  index_lt : hsd.inputSize ≠ 0 → hsd.inputIndex < hsd.inputSize
  index_zero : hsd.inputSize = 0 → hsd.inputIndex = 0

/-- Reading leaves the output side as it is. -/
structure SameOutput (hsd hsd' : Decoder) : Prop where
  outputCount : hsd'.outputCount = hsd.outputCount
  outputIndex : hsd'.outputIndex = hsd.outputIndex
  headIndex : hsd'.headIndex = hsd.headIndex
  state : hsd'.state = hsd.state
  windowBuffer : hsd'.windowBuffer = hsd.windowBuffer

theorem SameOutput.refl (hsd : Decoder) : SameOutput hsd hsd :=
  ⟨rfl, rfl, rfl, rfl, rfl⟩

theorem SameOutput.trans {hsd hsd' hsd'' : Decoder} (h : SameOutput hsd hsd')
    (h' : SameOutput hsd' hsd'') : SameOutput hsd hsd'' :=
  ⟨h'.outputCount.trans h.outputCount, h'.outputIndex.trans h.outputIndex,
    h'.headIndex.trans h.headIndex, h'.state.trans h.state,
    h'.windowBuffer.trans h.windowBuffer⟩

/-- `bits` were read and `rest` is left. -/
structure Consumed (hsd hsd' : Decoder) (rest : List Bool) : Prop where
  bits : hsd'.bits = rest
  readable : Readable hsd'
  same : SameOutput hsd hsd'
  size_le : hsd'.inputSize ≤ hsd.inputSize

theorem size_half_two_pow (r : ℕ) : (2 ^ r / 2).size = r := by
  cases r with
  | zero => rfl
  | succ r => rw [Nat.pow_succ, Nat.mul_div_cancel _ (by decide), Nat.size_pow]

theorem length_bits (hsd : Decoder) {r : ℕ} (hr : hsd.bitIndex.toNat = 2 ^ r / 2) :
    hsd.bits.length = r + 8 * (hsd.inputSize - hsd.inputIndex) := by
  rw [bits, List.length_append, length_bitsOf, hr, size_half_two_pow, length_bitsOfBytes, pending,
    List.length_map, List.length_range']

theorem bits_of_empty {hsd : Decoder} (hsize : hsd.inputSize = 0) :
    hsd.bits = bitsOf hsd.bitIndex.toNat.size hsd.currentByte.toNat := by
  rw [bits, pending, hsize, Nat.zero_sub]
  exact List.append_nil _

theorem pending_cons {hsd : Decoder} (h : hsd.inputIndex < hsd.inputSize) :
    hsd.pending = hsd.inputBuffer hsd.inputIndex :: hsd.pullByte.pending := by
  obtain ⟨k, hk⟩ := Nat.exists_eq_add_of_lt h
  have hcount : hsd.inputSize - hsd.inputIndex = k + 1 := by omega
  rw [pending, hcount, List.range'_succ, List.map_cons]
  congr 1
  by_cases hlast : hsd.inputIndex + 1 = hsd.inputSize
  · have hzero : k = 0 := by omega
    simp [pending, pullByte, hlast, hzero]
  · have hrest : hsd.inputSize - (hsd.inputIndex + 1) = k := by omega
    simp [pending, pullByte, hlast, hrest]

/-- The marked bit of a byte, and the mark of the next. -/
theorem read_marked (byte mark : UInt8) {k : ℕ} (hk : mark.toNat = 2 ^ k) :
    (byte &&& mark != 0) = byte.toNat.testBit k ∧ (mark >>> 1).toNat = 2 ^ k / 2 := by
  constructor
  · rw [Bool.eq_iff_iff, bne_iff_ne, ne_eq, ← UInt8.toNat_inj, UInt8.toNat_and, hk,
      Nat.and_two_pow, UInt8.toNat_zero]
    cases byte.toNat.testBit k <;> simp
  · rw [UInt8.toNat_shiftRight, hk]
    exact Nat.shiftRight_one _

/-- A bit is read from the current byte. -/
theorem nextBit_marked {hsd : Decoder}
    (hlt : hsd.inputSize ≠ 0 → hsd.inputIndex < hsd.inputSize)
    (hempty : hsd.inputSize = 0 → hsd.inputIndex = 0) {k : ℕ} (hk : k < 8)
    (hmark : hsd.bitIndex.toNat = 2 ^ k) :
    ∃ hsd', hsd.nextBit = .ok (hsd.currentByte.toNat.testBit k, hsd') ∧
      Consumed hsd hsd' (bitsOf k hsd.currentByte.toNat ++ bitsOfBytes hsd.pending) := by
  have hne : ¬hsd.bitIndex = 0x00 := by
    intro hzero
    rw [hzero] at hmark
    exact absurd hmark (Nat.two_pow_pos k).ne
  obtain ⟨hbit, hnext⟩ := read_marked hsd.currentByte hsd.bitIndex hmark
  refine ⟨{ hsd with bitIndex := hsd.bitIndex >>> 1 }, ?_, ?_, ?_, ?_, le_rfl⟩
  · rw [nextBit, if_neg fun hnone => hne hnone.1, if_neg hne]
    dsimp only
    rw [hbit]
  · rw [bits, hnext, size_half_two_pow]
    rfl
  · exact ⟨⟨k, hk, hnext⟩, hlt, hempty⟩
  · exact ⟨rfl, rfl, rfl, rfl, rfl⟩

theorem nextBit_eq {hsd : Decoder} (h : Readable hsd) :
    (hsd.bits = [] ∧ hsd.nextBit = .error hsd) ∨
      ∃ b rest hsd', hsd.bits = b :: rest ∧ hsd.nextBit = .ok (b, hsd') ∧
        Consumed hsd hsd' rest := by
  obtain ⟨r, hr, hmark⟩ := h.bitIndex
  cases r with
  | succ k =>
      rw [Nat.pow_succ, Nat.mul_div_cancel _ (by decide)] at hmark
      obtain ⟨hsd', hread, hconsumed⟩ :=
        nextBit_marked h.index_lt h.index_zero (Nat.lt_of_succ_lt hr) hmark
      refine Or.inr ⟨_, _, hsd', ?_, hread, hconsumed⟩
      rw [bits, hmark, Nat.size_pow, bitsOf, List.cons_append]
  | zero =>
      have hzero : hsd.bitIndex = 0x00 := UInt8.toNat_inj.mp hmark
      by_cases hsize : hsd.inputSize = 0
      · refine Or.inl ⟨?_, if_pos ⟨hzero, hsize⟩⟩
        rw [bits_of_empty hsize, hmark]
        rfl
      · have hindex := h.index_lt hsize
        have hlt : hsd.pullByte.inputSize ≠ 0 →
            hsd.pullByte.inputIndex < hsd.pullByte.inputSize := by
          intro hne
          simp only [pullByte] at hne ⊢
          split_ifs with hlast
          · rw [if_pos hlast] at hne
            exact absurd rfl hne
          · omega
        have hempty : hsd.pullByte.inputSize = 0 → hsd.pullByte.inputIndex = 0 := by
          intro hempty
          simp only [pullByte] at hempty ⊢
          split_ifs with hlast
          · rfl
          · rw [if_neg hlast] at hempty
            exact absurd hempty hsize
        have hle : hsd.pullByte.inputSize ≤ hsd.inputSize := by
          simp only [pullByte]
          split_ifs
          · exact Nat.zero_le _
          · exact le_rfl
        obtain ⟨hsd', hread, hconsumed⟩ := nextBit_marked (k := 7) hlt hempty (by decide) rfl
        have hsame : SameOutput hsd hsd.pullByte := ⟨rfl, rfl, rfl, rfl, rfl⟩
        have hmark' : ¬hsd.pullByte.bitIndex = 0x00 := (by decide : ¬(0x80 : UInt8) = 0x00)
        refine Or.inr ⟨hsd.pullByte.currentByte.toNat.testBit 7, _, hsd', ?_, ?_,
          hconsumed.bits, hconsumed.readable, hsame.trans hconsumed.same,
          hconsumed.size_le.trans hle⟩
        · rw [bits, hmark, pending_cons hindex, bitsOfBytes_cons, byteBits, bitsOf]
          rfl
        · have hpull : hsd.nextBit = hsd.pullByte.nextBit := by
            rw [nextBit, nextBit, if_neg fun hempty => hsize hempty.2, if_pos hzero,
              if_neg fun hempty => hmark' hempty.1, if_neg hmark']
          rw [hpull, hread]

/-- A field of up to eight bits is read whole, or nothing is read and the input is
empty. -/
theorem getBits_eq {hsd : Decoder} (h : Readable hsd) {count : ℕ} (hpos : 0 < count)
    (hcount : count ≤ 8) :
    (takeField count hsd.bits = none ∧ hsd.getBits count = (none, hsd) ∧ hsd.inputSize = 0) ∨
      ∃ v rest hsd', takeField count hsd.bits = some (v, rest) ∧
        hsd.getBits count = (some v, hsd') ∧ Consumed hsd hsd' rest := by
  obtain ⟨r, hr, hmark⟩ := h.bitIndex
  have hlength := length_bits hsd hmark
  have hguard : (hsd.inputSize = 0 ∧ hsd.bitIndex.toNat < 2 ^ (count - 1)) ↔
      hsd.bits.length < count := by
    rw [hlength, hmark]
    have hhalf : 2 ^ r / 2 < 2 ^ (count - 1) ↔ r < count := by
      cases r with
      | zero => exact ⟨fun _ => hpos, fun _ => Nat.two_pow_pos _⟩
      | succ k =>
          rw [Nat.pow_succ, Nat.mul_div_cancel _ (by decide),
            Nat.pow_lt_pow_iff_right (by decide)]
          omega
    rw [hhalf]
    constructor
    · rintro ⟨hsize, hlt⟩
      rw [hsize]
      omega
    · intro hlt
      refine ⟨?_, by omega⟩
      by_contra hsize
      have hindex := h.index_lt hsize
      omega
  by_cases hshort : hsd.bits.length < count
  · refine Or.inl ⟨takeField_eq_none hshort, ?_, (hguard.mpr hshort).1⟩
    rw [getBits, if_neg (by omega), if_pos (hguard.mpr hshort)]
  · right
    have hle := not_lt.mp hshort
    have hloop : Ensures (forRange 0 count ((0 : ℕ), hsd) fun _ s => do
          let next ← s.2.nextBit
          .ok ((s.1 * 2 + next.1.toNat) % 2 ^ 16, next.2))
        (fun s => s.1 = ofBits (hsd.bits.take count) ∧ Consumed hsd s.2 (hsd.bits.drop count))
        (fun _ => False) := by
      refine Ensures.forRange
        (fun i (s : ℕ × Decoder) =>
          s.1 = ofBits (hsd.bits.take i) ∧ Consumed hsd s.2 (hsd.bits.drop i))
        (Nat.zero_le count) ⟨rfl, rfl, h, SameOutput.refl hsd, le_rfl⟩ ?_
      rintro i ⟨acc, s⟩ - hi ⟨hacc, hconsumed⟩
      dsimp only at hacc hconsumed ⊢
      have hget : hsd.bits.drop i = hsd.bits[i] :: hsd.bits.drop (i + 1) :=
        List.drop_eq_getElem_cons (by omega)
      rcases nextBit_eq hconsumed.readable with ⟨hnil, -⟩ | ⟨b, rest, s', hbits, hread, hnext⟩
      · rw [hconsumed.bits, hget] at hnil
        exact absurd hnil (List.cons_ne_nil _ _)
      · rw [hconsumed.bits, hget] at hbits
        obtain ⟨rfl, rfl⟩ := List.cons.inj hbits
        rw [hread]
        have htake : ofBits (hsd.bits.take (i + 1)) = acc * 2 + hsd.bits[i].toNat := by
          rw [List.take_succ_eq_append_getElem (by omega), ofBits_concat, hacc]
        have hsmall : ofBits (hsd.bits.take (i + 1)) < 2 ^ 16 :=
          (ofBits_lt _).trans_le (Nat.pow_le_pow_right (by decide)
            ((List.length_take_le _ _).trans (by omega)))
        refine ⟨?_, hnext.bits, hnext.readable, hconsumed.same.trans hnext.same,
          hnext.size_le.trans hconsumed.size_le⟩
        rw [← htake, Nat.mod_eq_of_lt hsmall]
    rw [getBits, if_neg (by omega), if_neg fun hempty => hshort (hguard.mp hempty)]
    cases hrun : forRange 0 count ((0 : ℕ), hsd) (fun _ s => do
          let next ← s.2.nextBit
          .ok ((s.1 * 2 + next.1.toNat) % 2 ^ 16, next.2)) with
    | error e => exact (hloop.of_eq_error hrun).elim
    | ok s =>
        obtain ⟨hvalue, hconsumed⟩ := hloop.of_eq_ok hrun
        refine ⟨_, _, s.2, if_pos hle, ?_, hconsumed⟩
        exact congrArg (fun v => (some v, s.2)) hvalue

/-! ## The window -/

variable {config : Config}

theorem slot_eq_iff {a b : ℤ} :
    slot config a = slot config b ↔ (2 : ℤ) ^ config.windowBits ∣ a - b := by
  have hpos : (2 : ℤ) ^ config.windowBits ≠ 0 := by positivity
  have ha := Int.toNat_of_nonneg (Int.emod_nonneg a hpos)
  have hb := Int.toNat_of_nonneg (Int.emod_nonneg b hpos)
  rw [Int.dvd_iff_emod_eq_zero, ← Int.emod_eq_emod_iff_emod_sub_eq_zero, slot, slot]
  omega

theorem windowBuffer_remember (hsd : Decoder) (c : UInt8) :
    (hsd.remember config c).windowBuffer =
      Function.update hsd.windowBuffer (slot config hsd.headIndex) c := rfl

theorem headIndex_remember (hsd : Decoder) (c : UInt8) :
    (hsd.remember config c).headIndex = (hsd.headIndex + 1) % 2 ^ 16 := rfl

variable (config) in
/-- The window holds the last bytes written, and zeros before the first. -/
def Remembers (hsd : Decoder) (hist : List UInt8) : Prop :=
  ∀ k : ℕ, 0 < k → k ≤ 2 ^ config.windowBits →
    hsd.windowBuffer (slot config ((hsd.headIndex : ℤ) - k)) = back hist k

/-- The head wraps at a multiple of the window. -/
theorem slot_next (head : ℕ) (k : ℤ) :
    slot config (((head + 1) % 2 ^ 16 : ℕ) - k) = slot config ((head : ℤ) + 1 - k) := by
  rw [slot_eq_iff]
  have hwrap : (2 : ℤ) ^ config.windowBits ∣ 2 ^ 16 :=
    pow_dvd_pow 2 (config.le_maxWindowBits.trans (by decide))
  have hsub : (((head + 1) % 2 ^ 16 : ℕ) : ℤ) - k - ((head : ℤ) + 1 - k) =
      -(2 ^ 16 * (((head + 1) / 2 ^ 16 : ℕ) : ℤ)) := by
    omega
  rw [hsub, dvd_neg]
  exact hwrap.mul_right _

theorem Remembers.remember {hsd : Decoder} {hist : List UInt8} (h : Remembers config hsd hist)
    (c : UInt8) : Remembers config (hsd.remember config c) (hist ++ [c]) := by
  intro k hpos hle
  obtain ⟨k, rfl⟩ := Nat.exists_eq_succ_of_ne_zero hpos.ne'
  have hslot : slot config ((hsd.remember config c).headIndex - (k + 1 : ℕ)) =
      slot config ((hsd.headIndex : ℤ) - k) := by
    rw [headIndex_remember, slot_next]
    congr 1
    push_cast
    ring
  rw [Nat.succ_eq_add_one, hslot]
  rcases Nat.eq_zero_or_pos k with rfl | hk
  · rw [Nat.cast_zero, sub_zero, windowBuffer_remember, Function.update_self]
    exact (back_concat_one hist c).symm
  · have hne : slot config ((hsd.headIndex : ℤ) - k) ≠ slot config hsd.headIndex := by
      rw [ne_eq, slot_eq_iff]
      intro hdvd
      rw [sub_sub_cancel_left, dvd_neg] at hdvd
      have hle' := Int.le_of_dvd (by omega) hdvd
      have hlt : (k : ℤ) < 2 ^ config.windowBits := by exact_mod_cast hle
      omega
    rw [windowBuffer_remember, Function.update_of_ne hne, back_concat hist c hk]
    exact h k hk (by omega)

/-- One byte of a copy. -/
theorem Remembers.copyByte {hsd : Decoder} {hist : List UInt8} (h : Remembers config hsd hist)
    (hpos : 0 < hsd.outputIndex) (hle : hsd.outputIndex ≤ 2 ^ config.windowBits)
    (output : List UInt8) :
    copyByte config (hsd, output) =
      (hsd.remember config (back hist hsd.outputIndex),
        output ++ [back hist hsd.outputIndex]) := by
  rw [Decoder.copyByte, h _ hpos hle]

/-- The copy loop writes the bytes of the copy and touches the window only. -/
theorem copy_spec {hsd : Decoder} {hist : List UInt8} (h : Remembers config hsd hist)
    (hpos : 0 < hsd.outputIndex) (hle : hsd.outputIndex ≤ 2 ^ config.windowBits)
    (count : ℕ) (output : List UInt8) :
    let s := foldRange 0 count (hsd, output) fun _ => copyByte config
    s.2 = output ++ copyBack hsd.outputIndex count hist ∧
      Remembers config s.1 (hist ++ copyBack hsd.outputIndex count hist) ∧
      s.1 = { hsd with windowBuffer := s.1.windowBuffer, headIndex := s.1.headIndex } := by
  refine foldRange_induction (fun k (s : Decoder × List UInt8) =>
    s.2 = output ++ copyBack hsd.outputIndex k hist ∧
      Remembers config s.1 (hist ++ copyBack hsd.outputIndex k hist) ∧
      s.1 = { hsd with windowBuffer := s.1.windowBuffer, headIndex := s.1.headIndex })
    (Nat.zero_le _) ?_ ?_
  · rw [copyBack, List.append_nil, List.append_nil]
    exact ⟨rfl, h, rfl⟩
  · rintro k ⟨t, written⟩ - - ⟨hwritten, hremembers, hsame⟩
    dsimp only at hwritten hremembers hsame
    have hindex : t.outputIndex = hsd.outputIndex := by rw [hsame]
    rw [hremembers.copyByte (hindex ▸ hpos) (hindex ▸ hle), hindex, copyBack_add, copyBack,
      copyBack, ← List.append_assoc, ← List.append_assoc]
    refine ⟨by rw [hwritten], hremembers.remember _, ?_⟩
    rw [hsame]
    rfl

/-! ## The rest of the output -/

variable (config) in
/-- What a state and further bits stand for. -/
def residual (hsd : Decoder) (hist : List UInt8) (bits : List Bool) : List UInt8 :=
  match hsd.state with
  | .tagBit => decodeFrom config hist bits
  | .yieldLiteral => decodeLiteral config hist bits
  | .backrefIndexMsb => decodeIndex config 0 config.windowBits hist bits
  | .backrefIndexLsb =>
      decodeIndex config (hsd.outputIndex / 2 ^ 8) (min config.windowBits 8) hist bits
  | .backrefCountMsb =>
      decodeCount config hsd.outputIndex 0 config.lookaheadBits hist bits
  | .backrefCountLsb =>
      decodeCount config hsd.outputIndex (hsd.outputCount / 2 ^ 8) (min config.lookaheadBits 8)
        hist bits
  | .yieldBackref => decodeCopy config hsd.outputIndex hsd.outputCount hist bits

variable (config) in
/-- A distance that was read. -/
def HasIndex (hsd : Decoder) : Prop :=
  0 < hsd.outputIndex ∧ hsd.outputIndex ≤ 2 ^ config.windowBits

variable (config) in
/-- The fields read so far are those of the state. -/
def Fields (hsd : Decoder) : Prop :=
  match hsd.state with
  | .tagBit => True
  | .yieldLiteral => True
  | .backrefIndexMsb => 8 < config.windowBits
  | .backrefIndexLsb => hsd.outputIndex % 2 ^ 8 = 0 ∧
      hsd.outputIndex / 2 ^ 8 < 2 ^ (config.windowBits - 8)
  | .backrefCountMsb => HasIndex config hsd ∧ 8 < config.lookaheadBits
  | .backrefCountLsb => HasIndex config hsd ∧ hsd.outputCount % 2 ^ 8 = 0 ∧
      hsd.outputCount / 2 ^ 8 < 2 ^ (config.lookaheadBits - 8)
  | .yieldBackref => HasIndex config hsd ∧ 0 < hsd.outputCount

variable (config) in
/-- The decoder took the bytes `sunk` and wrote `hist`, a first part of what they
stand for, whatever comes after them. -/
structure Follows (sunk : List UInt8) (hsd : Decoder) (hist : List UInt8) : Prop where
  readable : Readable hsd
  remembers : Remembers config hsd hist
  fields : Fields config hsd
  future : ∀ rest, decode config (bitsOfBytes sunk ++ rest) =
    hist ++ residual config hsd hist (hsd.bits ++ rest)

/-- What a pass of the loop leaves: a decoder that goes on following its input.  If
the state stays, all is written, or the output buffer is full and there is more. -/
structure Stepped (config : Config) (bufSize : ℕ) (sunk before : List UInt8)
    (hsd : Decoder) (output : List UInt8) (hsd' : Decoder) (output' : List UInt8) : Prop where
  follows : Follows config sunk hsd' (before ++ output')
  room : output'.length ≤ bufSize
  size_le : hsd'.inputSize ≤ hsd.inputSize
  moves : hsd'.state ≠ hsd.state →
    hsd'.bits.length + (bufSize - output'.length) < hsd.bits.length + (bufSize - output.length)
  stays : hsd'.state = hsd.state →
    (hsd'.finish = .done ∧ residual config hsd' (before ++ output') hsd'.bits = []) ∨
      (hsd'.finish = .more ∧ residual config hsd' (before ++ output') hsd'.bits ≠ [] ∧
        output'.length = bufSize)

/-! ## One pass -/

theorem decodeCopy_ne_nil {distance count : ℕ} (h : 0 < count) {hist : List UInt8}
    {bits : List Bool} : decodeCopy config distance count hist bits ≠ [] := by
  intro hnil
  have hcopy := (List.append_eq_nil_iff.mp hnil).1
  have hlength := length_copyBack distance count hist
  rw [hcopy, List.length_nil] at hlength
  exact h.ne hlength

theorem finish_of_empty {hsd : Decoder} (hempty : hsd.inputSize = 0)
    (hstate : hsd.state ≠ .yieldBackref) : hsd.finish = .done := by
  rw [finish]
  split
  · exact absurd ‹_› hstate
  · exact if_pos hempty

section Step

variable {bufSize : ℕ} {sunk before output : List UInt8} {hsd : Decoder}

/-- A decoder that read a field: its state moved on and stands for what follows the
field. -/
structure Continues (config : Config) (hsd t t' : Decoder) (hist : List UInt8)
    (after : List Bool → List UInt8) : Prop where
  bits : t'.bits = t.bits
  size_le : t'.inputSize ≤ t.inputSize
  readable : Readable t → Readable t'
  windowBuffer : t'.windowBuffer = t.windowBuffer
  headIndex : t'.headIndex = t.headIndex
  fields : Fields config t'
  moved : t'.state ≠ hsd.state
  residual : ∀ bits, residual config t' hist bits = after bits

/-- A pass that reads a field of `n` bits and writes nothing. -/
theorem Stepped.of_read (h : Follows config sunk hsd (before ++ output))
    (hroom : output.length ≤ bufSize) (n : ℕ) (after : ℕ × List Bool → List UInt8)
    (next : ℕ → Decoder → Decoder) (hpos : 0 < n) (hle : n ≤ 8)
    (hresidual : ∀ bits, residual config hsd (before ++ output) bits =
      (takeField n bits).elim [] after)
    (hstate : hsd.state ≠ .yieldBackref)
    (hnone : hsd.getBits n = (none, hsd) → hsd.step config bufSize output = (hsd, output))
    (hsome : ∀ v t, hsd.getBits n = (some v, t) →
      hsd.step config bufSize output = (next v t, output))
    (hnext : ∀ v t, v < 2 ^ n → SameOutput hsd t →
      Continues config hsd t (next v t) (before ++ output) fun bits => after (v, bits)) :
    Stepped config bufSize sunk before hsd output (hsd.step config bufSize output).1
      (hsd.step config bufSize output).2 := by
  rcases getBits_eq h.readable hpos hle with ⟨hshort, hread, hempty⟩ | ⟨v, rest, t, hfield, hread, ht⟩
  · rw [hnone hread]
    refine ⟨h, hroom, le_rfl, fun hne => absurd rfl hne,
      fun _ => Or.inl ⟨finish_of_empty hempty hstate, ?_⟩⟩
    rw [hresidual, hshort, Option.elim_none]
  · rw [hsome v t hread]
    have hcontinues := hnext v t (takeField_lt hfield) ht.same
    have hremembers : Remembers config (next v t) (before ++ output) := by
      intro k hk hk'
      rw [hcontinues.windowBuffer, hcontinues.headIndex, ht.same.windowBuffer, ht.same.headIndex]
      exact h.remembers k hk hk'
    refine ⟨⟨hcontinues.readable ht.readable, hremembers, hcontinues.fields, fun extra => ?_⟩,
      hroom, hcontinues.size_le.trans ht.size_le, fun _ => ?_,
      fun hsame => absurd hsame hcontinues.moved⟩
    · rw [h.future, hresidual, takeField_extend hfield, Option.elim_some, hcontinues.bits, ht.bits,
        hcontinues.residual]
    · have hlength := length_of_takeField hfield
      rw [hcontinues.bits, ht.bits]
      exact Nat.add_lt_add_right (by omega) _

theorem Readable.congr {t t' : Decoder} (h : Readable t) (hbit : t'.bitIndex = t.bitIndex)
    (hsize : t'.inputSize = t.inputSize) (hindex : t'.inputIndex = t.inputIndex) :
    Readable t' := by
  refine ⟨hbit ▸ h.bitIndex, ?_, ?_⟩
  · rw [hsize, hindex]
    exact h.index_lt
  · rw [hsize, hindex]
    exact h.index_zero

theorem stepped_tagBit (h : Follows config sunk hsd (before ++ output))
    (hroom : output.length ≤ bufSize) (hstate : hsd.state = .tagBit) :
    Stepped config bufSize sunk before hsd output (hsd.step config bufSize output).1
      (hsd.step config bufSize output).2 := by
  refine Stepped.of_read h hroom 1
    (fun x => if 0 < x.1 then decodeLiteral config (before ++ output) x.2
      else decodeIndex config 0 config.windowBits (before ++ output) x.2)
    (fun v t => if v > 0 then { t with state := .yieldLiteral }
      else if config.windowBits > 8 then { t with state := .backrefIndexMsb }
      else { t with outputIndex := 0, state := .backrefIndexLsb })
    (by decide) (by decide) (fun bits => ?_) (by rw [hstate]; decide) (fun hread => ?_)
    (fun v t hread => ?_) fun v t hv hsame => ?_
  · simp only [residual, hstate]
    exact decodeFrom_tag config _ bits
  · simp only [step, hstate, stTagBit, hread]
    rw [← hstate]
  · simp only [step, hstate, stTagBit, hread]
    split_ifs <;> rfl
  · dsimp only
    split_ifs with hliteral hwide
    · exact ⟨rfl, le_rfl, fun hr => hr.congr rfl rfl rfl, rfl, rfl, trivial,
        hstate ▸ DecoderState.noConfusion, fun bits => rfl⟩
    · exact ⟨rfl, le_rfl, fun hr => hr.congr rfl rfl rfl, rfl, rfl, hwide,
        hstate ▸ DecoderState.noConfusion, fun bits => rfl⟩
    · refine ⟨rfl, le_rfl, fun hr => hr.congr rfl rfl rfl, rfl, rfl,
        ⟨rfl, (Nat.zero_div _).trans_lt (Nat.two_pow_pos _)⟩,
        hstate ▸ DecoderState.noConfusion, fun bits => ?_⟩
      simp only [residual]
      rw [min_eq_left (by omega), Nat.zero_div]

/-- The low part of a field joins its high part. -/
theorem or_field {x v k : ℕ} (hlow : x % 2 ^ 8 = 0) (hhigh : x / 2 ^ 8 < 2 ^ (k - 8))
    (hv : v < 2 ^ min k 8) :
    x ||| v = x / 2 ^ 8 * 2 ^ min k 8 + v ∧ x ||| v < 2 ^ k := by
  rcases Nat.lt_or_ge k 8 with hk | hk
  · rw [Nat.sub_eq_zero_of_le hk.le, Nat.pow_zero] at hhigh
    rw [min_eq_left hk.le] at hv ⊢
    have hzero : x = 0 := by omega
    rw [hzero, Nat.zero_or]
    exact ⟨by rw [Nat.zero_div, Nat.zero_mul, Nat.zero_add], hv⟩
  · rw [min_eq_right hk] at hv ⊢
    have hx : 2 ^ 8 * (x / 2 ^ 8) = x := by omega
    have hor : x ||| v = x / 2 ^ 8 * 2 ^ 8 + v := by
      have hadd := Nat.two_pow_add_eq_or_of_lt hv (x / 2 ^ 8)
      rw [hx] at hadd
      rw [← hadd, Nat.mul_comm, hx]
    refine ⟨hor, ?_⟩
    have hpow : 2 ^ k = 2 ^ (k - 8) * 2 ^ 8 := by
      rw [← Nat.pow_add]
      congr 1
      omega
    rw [hor, hpow]
    calc x / 2 ^ 8 * 2 ^ 8 + v < x / 2 ^ 8 * 2 ^ 8 + 2 ^ 8 := Nat.add_lt_add_left hv _
      _ = (x / 2 ^ 8 + 1) * 2 ^ 8 := by ring
      _ ≤ 2 ^ (k - 8) * 2 ^ 8 := Nat.mul_le_mul_right _ hhigh

/-- A high part of up to seven bits, shifted in sixteen bits. -/
theorem high_field {v k : ℕ} (hk : k ≤ 15) (hv : v < 2 ^ (k - 8)) :
    v * 2 ^ 8 % 2 ^ 16 = v * 2 ^ 8 := by
  have hle : 2 ^ (k - 8) ≤ 2 ^ 7 := Nat.pow_le_pow_right (by decide) (by omega)
  exact Nat.mod_eq_of_lt (by omega)

/-- A field plus one still fits. -/
theorem succ_field {x k : ℕ} (hk : k ≤ 15) (hx : x < 2 ^ k) : (x + 1) % 2 ^ 16 = x + 1 := by
  have hle : 2 ^ k ≤ 2 ^ 15 := Nat.pow_le_pow_right (by decide) hk
  exact Nat.mod_eq_of_lt (by omega)

theorem ite_lt_eq_min (k : ℕ) : (if k < 8 then k else 8) = min k 8 := by
  split_ifs <;> omega

theorem stepped_indexMsb (h : Follows config sunk hsd (before ++ output))
    (hroom : output.length ≤ bufSize) (hstate : hsd.state = .backrefIndexMsb) :
    Stepped config bufSize sunk before hsd output (hsd.step config bufSize output).1
      (hsd.step config bufSize output).2 := by
  have hwide : 8 < config.windowBits := by
    have hfields := h.fields
    simpa only [Fields, hstate] using hfields
  have hmax := config.le_maxWindowBits
  have hwidth : config.windowBits = config.windowBits - 8 + 8 := by omega
  refine Stepped.of_read h hroom (config.windowBits - 8)
    (fun x => decodeIndex config (0 * 2 ^ (config.windowBits - 8) + x.1) 8 (before ++ output) x.2)
    (fun v t => { t with outputIndex := v * 2 ^ 8 % 2 ^ 16, state := .backrefIndexLsb })
    (by omega) (by omega) (fun bits => ?_) (by rw [hstate]; decide) (fun hread => ?_)
    (fun v t hread => ?_) fun v t hv hsame => ?_
  · simp only [residual, hstate]
    rw [← decodeIndex_add, ← hwidth]
  · simp only [step, hstate, stBackrefIndexMsb, hread]
    rw [← hstate]
  · simp only [step, hstate, stBackrefIndexMsb, hread]
  · have hhigh := high_field hmax hv
    refine ⟨rfl, le_rfl, fun hr => hr.congr rfl rfl rfl, rfl, rfl, ⟨?_, ?_⟩,
      hstate ▸ DecoderState.noConfusion, fun bits => ?_⟩
    · dsimp only
      rw [hhigh, Nat.mul_mod_left]
    · dsimp only
      rwa [hhigh, Nat.mul_div_cancel _ (Nat.two_pow_pos 8)]
    · simp only [residual]
      rw [hhigh, Nat.mul_div_cancel _ (Nat.two_pow_pos 8), min_eq_right (by omega), Nat.zero_mul,
        Nat.zero_add]

theorem stepped_indexLsb (h : Follows config sunk hsd (before ++ output))
    (hroom : output.length ≤ bufSize) (hstate : hsd.state = .backrefIndexLsb) :
    Stepped config bufSize sunk before hsd output (hsd.step config bufSize output).1
      (hsd.step config bufSize output).2 := by
  obtain ⟨hlow, hhigh⟩ : hsd.outputIndex % 2 ^ 8 = 0 ∧
      hsd.outputIndex / 2 ^ 8 < 2 ^ (config.windowBits - 8) := by
    have hfields := h.fields
    simpa only [Fields, hstate] using hfields
  have hmin := config.minWindowBits_le
  have hmax := config.le_maxWindowBits
  refine Stepped.of_read h hroom (min config.windowBits 8)
    (fun x => decodeCount config
      (hsd.outputIndex / 2 ^ 8 * 2 ^ min config.windowBits 8 + x.1 + 1) 0 config.lookaheadBits
      (before ++ output) x.2)
    (fun v t => { t with
      outputIndex := ((t.outputIndex ||| v) + 1) % 2 ^ 16
      outputCount := 0
      state := if config.lookaheadBits > 8 then .backrefCountMsb else .backrefCountLsb })
    (by omega) (by omega) (fun bits => ?_) (by rw [hstate]; decide) (fun hread => ?_)
    (fun v t hread => ?_) fun v t hv hsame => ?_
  · simp only [residual, hstate]
    rfl
  · simp only [step, hstate, stBackrefIndexLsb, ite_lt_eq_min, hread]
    rw [← hstate]
  · simp only [step, hstate, stBackrefIndexLsb, ite_lt_eq_min, hread]
  · obtain ⟨hor, hlt⟩ := or_field hlow hhigh hv
    have hindex : ((t.outputIndex ||| v) + 1) % 2 ^ 16 = (hsd.outputIndex ||| v) + 1 := by
      rw [hsame.outputIndex]
      exact succ_field hmax hlt
    have hhas : HasIndex config { t with
        outputIndex := ((t.outputIndex ||| v) + 1) % 2 ^ 16
        outputCount := 0
        state := if config.lookaheadBits > 8 then .backrefCountMsb else .backrefCountLsb } := by
      rw [HasIndex, hindex]
      exact ⟨Nat.succ_pos _, hlt⟩
    by_cases hlong : config.lookaheadBits > 8
    · simp only [if_pos hlong] at hhas ⊢
      refine ⟨rfl, le_rfl, fun hr => hr.congr rfl rfl rfl, rfl, rfl, ⟨hhas, hlong⟩,
        hstate ▸ DecoderState.noConfusion, fun bits => ?_⟩
      simp only [residual]
      rw [hindex, hor]
    · simp only [if_neg hlong] at hhas ⊢
      refine ⟨rfl, le_rfl, fun hr => hr.congr rfl rfl rfl, rfl, rfl,
        ⟨hhas, rfl, (Nat.zero_div _).trans_lt (Nat.two_pow_pos _)⟩,
        hstate ▸ DecoderState.noConfusion, fun bits => ?_⟩
      simp only [residual]
      rw [hindex, hor, min_eq_left (not_lt.mp hlong), Nat.zero_div]

theorem stepped_countMsb (h : Follows config sunk hsd (before ++ output))
    (hroom : output.length ≤ bufSize) (hstate : hsd.state = .backrefCountMsb) :
    Stepped config bufSize sunk before hsd output (hsd.step config bufSize output).1
      (hsd.step config bufSize output).2 := by
  obtain ⟨hindex, hwide⟩ : HasIndex config hsd ∧ 8 < config.lookaheadBits := by
    have hfields := h.fields
    simpa only [Fields, hstate] using hfields
  have hmax : config.lookaheadBits ≤ 15 :=
    config.lookaheadBits_lt.le.trans config.le_maxWindowBits
  have hwidth : config.lookaheadBits = config.lookaheadBits - 8 + 8 := by omega
  refine Stepped.of_read h hroom (config.lookaheadBits - 8)
    (fun x => decodeCount config hsd.outputIndex (0 * 2 ^ (config.lookaheadBits - 8) + x.1) 8
      (before ++ output) x.2)
    (fun v t => { t with outputCount := v * 2 ^ 8 % 2 ^ 16, state := .backrefCountLsb })
    (by omega) (by omega) (fun bits => ?_) (by rw [hstate]; decide) (fun hread => ?_)
    (fun v t hread => ?_) fun v t hv hsame => ?_
  · simp only [residual, hstate]
    rw [← decodeCount_add, ← hwidth]
  · simp only [step, hstate, stBackrefCountMsb, hread]
    rw [← hstate]
  · simp only [step, hstate, stBackrefCountMsb, hread]
  · have hhigh := high_field hmax hv
    have hindex' : HasIndex config { t with
        outputCount := v * 2 ^ 8 % 2 ^ 16, state := .backrefCountLsb } := by
      rw [HasIndex, hsame.outputIndex]
      exact hindex
    refine ⟨rfl, le_rfl, fun hr => hr.congr rfl rfl rfl, rfl, rfl, ⟨hindex', ?_, ?_⟩,
      hstate ▸ DecoderState.noConfusion, fun bits => ?_⟩
    · dsimp only
      rw [hhigh, Nat.mul_mod_left]
    · dsimp only
      rwa [hhigh, Nat.mul_div_cancel _ (Nat.two_pow_pos 8)]
    · simp only [residual]
      rw [hhigh, Nat.mul_div_cancel _ (Nat.two_pow_pos 8), min_eq_right (by omega), Nat.zero_mul,
        Nat.zero_add, hsame.outputIndex]

theorem stepped_countLsb (h : Follows config sunk hsd (before ++ output))
    (hroom : output.length ≤ bufSize) (hstate : hsd.state = .backrefCountLsb) :
    Stepped config bufSize sunk before hsd output (hsd.step config bufSize output).1
      (hsd.step config bufSize output).2 := by
  obtain ⟨hindex, hlow, hhigh⟩ : HasIndex config hsd ∧ hsd.outputCount % 2 ^ 8 = 0 ∧
      hsd.outputCount / 2 ^ 8 < 2 ^ (config.lookaheadBits - 8) := by
    have hfields := h.fields
    simpa only [Fields, hstate] using hfields
  have hmin := config.minLookaheadBits_le
  have hmax : config.lookaheadBits ≤ 15 :=
    config.lookaheadBits_lt.le.trans config.le_maxWindowBits
  refine Stepped.of_read h hroom (min config.lookaheadBits 8)
    (fun x => decodeCopy config hsd.outputIndex
      (hsd.outputCount / 2 ^ 8 * 2 ^ min config.lookaheadBits 8 + x.1 + 1)
      (before ++ output) x.2)
    (fun v t => { t with
      outputCount := ((t.outputCount ||| v) + 1) % 2 ^ 16
      state := .yieldBackref })
    (by omega) (by omega) (fun bits => ?_) (by rw [hstate]; decide) (fun hread => ?_)
    (fun v t hread => ?_) fun v t hv hsame => ?_
  · simp only [residual, hstate]
    rfl
  · simp only [step, hstate, stBackrefCountLsb, ite_lt_eq_min, hread]
    rw [← hstate]
  · simp only [step, hstate, stBackrefCountLsb, ite_lt_eq_min, hread]
  · obtain ⟨hor, hlt⟩ := or_field hlow hhigh hv
    have hcount : ((t.outputCount ||| v) + 1) % 2 ^ 16 = (hsd.outputCount ||| v) + 1 := by
      rw [hsame.outputCount]
      exact succ_field hmax hlt
    have hindex' : HasIndex config { t with
        outputCount := ((t.outputCount ||| v) + 1) % 2 ^ 16, state := .yieldBackref } := by
      rw [HasIndex, hsame.outputIndex]
      exact hindex
    refine ⟨rfl, le_rfl, fun hr => hr.congr rfl rfl rfl, rfl, rfl, ⟨hindex', ?_⟩,
      hstate ▸ DecoderState.noConfusion, fun bits => ?_⟩
    · dsimp only
      rw [hcount]
      exact Nat.succ_pos _
    · simp only [residual]
      rw [hcount, hor, hsame.outputIndex]

theorem stepped_yieldLiteral (h : Follows config sunk hsd (before ++ output))
    (hroom : output.length ≤ bufSize) (hstate : hsd.state = .yieldLiteral) :
    Stepped config bufSize sunk before hsd output (hsd.step config bufSize output).1
      (hsd.step config bufSize output).2 := by
  by_cases hfree : output.length < bufSize
  · rcases getBits_eq h.readable (by decide : 0 < 8) le_rfl with
      ⟨hshort, hread, hempty⟩ | ⟨v, rest, t, hfield, hread, ht⟩
    · have hstep : hsd.step config bufSize output = (hsd, output) := by
        simp only [step, hstate, stYieldLiteral, if_pos hfree, hread]
        rw [← hstate]
      rw [hstep]
      refine ⟨h, hroom, le_rfl, fun hne => absurd rfl hne,
        fun _ => Or.inl ⟨finish_of_empty hempty (by rw [hstate]; decide), ?_⟩⟩
      simp only [residual, hstate, decodeLiteral]
      rw [hshort, Option.elim_none]
    · have hstep : hsd.step config bufSize output =
          ({ t.remember config (UInt8.ofNat v) with state := .tagBit },
            output ++ [UInt8.ofNat v]) := by
        simp only [step, hstate, stYieldLiteral, if_pos hfree, hread]
      have hremembers : Remembers config t (before ++ output) := by
        intro k hk hk'
        rw [ht.same.windowBuffer, ht.same.headIndex]
        exact h.remembers k hk hk'
      have hbits : Decoder.bits { t.remember config (UInt8.ofNat v) with state := .tagBit } =
          rest := ht.bits
      have hlength := length_of_takeField hfield
      rw [hstep]
      refine ⟨⟨ht.readable.congr rfl rfl rfl, ?_, trivial, fun extra => ?_⟩, ?_, ht.size_le,
        fun _ => ?_, fun hsame => ?_⟩
      · rw [← List.append_assoc]
        exact hremembers.remember _
      · rw [h.future, hbits]
        simp only [residual, hstate, decodeLiteral]
        rw [takeField_extend hfield, Option.elim_some]
        simp only [List.append_assoc, List.singleton_append]
      · rw [List.length_append, List.length_singleton]
        exact hfree
      · rw [hbits, List.length_append, List.length_singleton]
        omega
      · rw [hstate] at hsame
        exact DecoderState.noConfusion hsame
  · have hstep : hsd.step config bufSize output = (hsd, output) := by
      simp only [step, hstate, stYieldLiteral, if_neg hfree]
      rw [← hstate]
    rw [hstep]
    have hfull := Nat.le_antisymm hroom (not_lt.mp hfree)
    refine ⟨h, hroom, le_rfl, fun hne => absurd rfl hne, fun _ => ?_⟩
    -- Seven bits of the current byte are no literal, a byte in the buffer makes one.
    obtain ⟨r, hr, hmark⟩ := h.readable.bitIndex
    have hlength := length_bits hsd hmark
    simp only [residual, hstate, decodeLiteral]
    by_cases hempty : hsd.inputSize = 0
    · refine Or.inl ⟨finish_of_empty hempty (by rw [hstate]; decide), ?_⟩
      rw [takeField_eq_none (by omega), Option.elim_none]
    · have hindex := h.readable.index_lt hempty
      have hfield : takeField 8 hsd.bits =
          some (ofBits (hsd.bits.take 8), hsd.bits.drop 8) := if_pos (by omega)
      refine Or.inr ⟨?_, ?_, hfull⟩
      · simp only [finish, hstate, if_neg hempty]
      · rw [hfield, Option.elim_some]
        exact List.cons_ne_nil _ _

theorem stepped_yieldBackref (h : Follows config sunk hsd (before ++ output))
    (hroom : output.length ≤ bufSize) (hstate : hsd.state = .yieldBackref) :
    Stepped config bufSize sunk before hsd output (hsd.step config bufSize output).1
      (hsd.step config bufSize output).2 := by
  obtain ⟨⟨hpos, hle⟩, hcount⟩ : HasIndex config hsd ∧ 0 < hsd.outputCount := by
    have hfields := h.fields
    simpa only [Fields, hstate] using hfields
  by_cases hfree : 0 < bufSize - output.length
  · obtain ⟨count, hmin⟩ : ∃ count, count = min hsd.outputCount (bufSize - output.length) :=
      ⟨_, rfl⟩
    have hcopy := copy_spec h.remembers hpos hle count output
    obtain ⟨s, hs⟩ : ∃ s, s = foldRange 0 count (hsd, output) fun _ => copyByte config := ⟨_, rfl⟩
    dsimp only at hcopy
    rw [← hs] at hcopy
    obtain ⟨hwritten, hremembers, hsame⟩ := hcopy
    have hleft : s.1.outputCount = hsd.outputCount := by rw [hsame]
    obtain ⟨t, ht⟩ : ∃ t : Decoder, t = { s.1 with
        outputCount := hsd.outputCount - count
        state := if hsd.outputCount - count = 0 then .tagBit else .yieldBackref } := ⟨_, rfl⟩
    have hstep : hsd.step config bufSize output = (t, s.2) := by
      have hite : (if hsd.outputCount < bufSize - output.length then hsd.outputCount
          else bufSize - output.length) = count := by
        rw [hmin]
        split_ifs <;> omega
      simp only [step, hstate, stYieldBackref, gt_iff_lt, if_pos hfree, hite]
      rw [← hs, hleft, ht]
    have hlength : s.2.length = output.length + count := by
      rw [hwritten, List.length_append, length_copyBack]
    have hbits : t.bits = hsd.bits := by
      rw [ht, hsame]
      rfl
    have hreadable : Readable t := by
      rw [ht, hsame]
      exact h.readable.congr rfl rfl rfl
    have hindex : t.outputIndex = hsd.outputIndex := by rw [ht, hsame]
    have htcount : t.outputCount = hsd.outputCount - count := by rw [ht]
    have hstate' : (hsd.outputCount - count = 0 ∧ t.state = .tagBit) ∨
        (0 < hsd.outputCount - count ∧ t.state = .yieldBackref) := by
      rw [ht]
      rcases Nat.eq_zero_or_pos (hsd.outputCount - count) with hdone | hmore
      · exact Or.inl ⟨hdone, if_pos hdone⟩
      · exact Or.inr ⟨hmore, if_neg hmore.ne'⟩
    have hresidual : ∀ hist bits, residual config t hist bits =
        decodeCopy config hsd.outputIndex (hsd.outputCount - count) hist bits := by
      intro hist bits
      rcases hstate' with ⟨hdone, hstate'⟩ | ⟨-, hstate'⟩
      · simp only [residual, hstate']
        rw [hdone, decodeCopy_zero]
      · simp only [residual, hstate']
        rw [hindex, htcount]
    have hfields : Fields config t := by
      rcases hstate' with ⟨-, hstate'⟩ | ⟨hmore, hstate'⟩
      · simp only [Fields, hstate']
      · simp only [Fields, hstate', HasIndex]
        rw [hindex, htcount]
        exact ⟨⟨hpos, hle⟩, hmore⟩
    have hsplit : hsd.outputCount = count + (hsd.outputCount - count) := by omega
    rw [hstep]
    refine ⟨⟨hreadable, ?_, hfields, fun extra => ?_⟩, ?_, ?_, fun _ => ?_, fun hstays => ?_⟩
    · rw [hwritten, ← List.append_assoc, ht]
      exact hremembers
    · rw [hresidual, h.future, hbits]
      simp only [residual, hstate]
      rw [hsplit, decodeCopy_add, ← hsplit, hwritten]
      simp only [List.append_assoc]
    · dsimp only
      omega
    · rw [ht, hsame]
    · rw [hbits]
      dsimp only
      omega
    · dsimp only at hstays ⊢
      rcases hstate' with ⟨-, hstate'⟩ | ⟨hmore, hstate'⟩
      · rw [hstate', hstate] at hstays
        exact absurd hstays (by decide)
      · refine Or.inr ⟨?_, ?_, by omega⟩
        · simp only [finish, hstate']
        · rw [hresidual]
          exact decodeCopy_ne_nil hmore
  · have hstep : hsd.step config bufSize output = (hsd, output) := by
      simp only [step, hstate, stYieldBackref, gt_iff_lt, if_neg hfree]
      rw [← hstate]
    rw [hstep]
    have hfull := Nat.le_antisymm hroom (not_lt.mp (mt Nat.sub_pos_of_lt hfree))
    refine ⟨h, hroom, le_rfl, fun hne => absurd rfl hne, fun _ => Or.inr ⟨?_, ?_, hfull⟩⟩
    · simp only [finish, hstate]
    · simp only [residual, hstate]
      exact decodeCopy_ne_nil hcount

/-- A pass of the loop, in any state. -/
theorem stepped (h : Follows config sunk hsd (before ++ output))
    (hroom : output.length ≤ bufSize) :
    Stepped config bufSize sunk before hsd output (hsd.step config bufSize output).1
      (hsd.step config bufSize output).2 := by
  cases hstate : hsd.state with
  | tagBit => exact stepped_tagBit h hroom hstate
  | yieldLiteral => exact stepped_yieldLiteral h hroom hstate
  | backrefIndexMsb => exact stepped_indexMsb h hroom hstate
  | backrefIndexLsb => exact stepped_indexLsb h hroom hstate
  | backrefCountMsb => exact stepped_countMsb h hroom hstate
  | backrefCountLsb => exact stepped_countLsb h hroom hstate
  | yieldBackref => exact stepped_yieldBackref h hroom hstate

end Step

end Decoder

end Xhive.Heatshrink
