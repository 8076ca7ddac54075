import Xhive.Heatshrink.Format
import Xhive.Support.Outcome

/-!
# The decoder

The polling state machine of `heatshrink_decoder.c` with its input buffer and
its window.
-/

namespace Xhive.Heatshrink

open Xhive.Support

/-- `HSD_state`. -/
inductive DecoderState where
  | tagBit
  | yieldLiteral
  | backrefIndexMsb
  | backrefIndexLsb
  | backrefCountMsb
  | backrefCountLsb
  | yieldBackref
  deriving DecidableEq, Repr

/-- `heatshrink_decoder` without its sizes, which a run never changes. -/
structure Decoder where
  inputSize : ℕ
  inputIndex : ℕ
  outputCount : ℕ
  outputIndex : ℕ
  headIndex : ℕ
  state : DecoderState
  currentByte : UInt8
  bitIndex : UInt8
  inputBuffer : ℕ → UInt8
  windowBuffer : ℕ → UInt8

/-- `HSD_sink_res` of a call with pointers that are not NULL. -/
inductive DecoderSinkRes where
  | ok
  | full
  deriving DecidableEq, Repr

/-- `HSD_poll_res` of a call with pointers that are not NULL. -/
inductive DecoderPollRes where
  | empty
  | more
  | errorUnknown
  deriving DecidableEq, Repr

/-- `HSD_finish_res`. -/
inductive DecoderFinishRes where
  | done
  | more
  deriving DecidableEq, Repr

namespace Decoder

/-- `heatshrink_decoder_reset`. -/
def reset : Decoder where
  inputSize := 0
  inputIndex := 0
  outputCount := 0
  outputIndex := 0
  headIndex := 0
  state := .tagBit
  currentByte := 0x00
  bitIndex := 0x00
  inputBuffer := fun _ => 0
  windowBuffer := fun _ => 0

/-- `heatshrink_decoder_sink`; the number is `*input_size`. -/
def sink (inputBufferSize : ℕ) (hsd : Decoder) (inBuf : List UInt8) :
    DecoderSinkRes × ℕ × Decoder :=
  let rem := inputBufferSize - hsd.inputSize
  if rem = 0 then (.full, 0, hsd)
  else
    let size := if rem < inBuf.length then rem else inBuf.length
    (.ok, size, { hsd with
      inputBuffer := fun i =>
        if hsd.inputSize ≤ i ∧ i < hsd.inputSize + size then inBuf.getD (i - hsd.inputSize) 0
        else hsd.inputBuffer i
      inputSize := hsd.inputSize + size })

/-! ## Bits -/

/-- The pull of the next input byte in `get_bits`. -/
def pullByte (hsd : Decoder) : Decoder :=
  let exhausted : Prop := hsd.inputIndex + 1 = hsd.inputSize
  { hsd with
    currentByte := hsd.inputBuffer hsd.inputIndex
    inputIndex := if exhausted then 0 else hsd.inputIndex + 1
    inputSize := if exhausted then 0 else hsd.inputSize
    bitIndex := 0x80 }

/-- One iteration of `get_bits`, which stops when it is out of bits. -/
def nextBit (hsd : Decoder) : Except Decoder (Bool × Decoder) :=
  if hsd.bitIndex = 0x00 ∧ hsd.inputSize = 0 then .error hsd
  else
    let hsd := if hsd.bitIndex = 0x00 then hsd.pullByte else hsd
    .ok (hsd.currentByte &&& hsd.bitIndex != 0, { hsd with bitIndex := hsd.bitIndex >>> 1 })

/-- `get_bits`; `none` is NO_BITS. -/
def getBits (hsd : Decoder) (count : ℕ) : Option ℕ × Decoder :=
  if count > 15 then (none, hsd)
  else if hsd.inputSize = 0 ∧ hsd.bitIndex.toNat < 2 ^ (count - 1) then (none, hsd)
  else
    let run := forRange 0 count (0, hsd) fun _ s => do
      let next ← s.2.nextBit
      .ok ((s.1 * 2 + next.1.toNat) % 2 ^ 16, next.2)
    match run with
    | .ok s => (some s.1, s.2)
    | .error hsd => (none, hsd)

/-! ## States -/

variable (config : Config)

/-- The place of an index under the mask of the window. -/
def slot (index : ℤ) : ℕ :=
  (index % 2 ^ config.windowBits).toNat

/-- A byte goes into the window. -/
def remember (hsd : Decoder) (c : UInt8) : Decoder :=
  { hsd with
    windowBuffer := Function.update hsd.windowBuffer (slot config hsd.headIndex) c
    headIndex := (hsd.headIndex + 1) % 2 ^ 16 }

def stTagBit (hsd : Decoder) : DecoderState × Decoder :=
  match hsd.getBits 1 with
  | (none, hsd) => (.tagBit, hsd)
  | (some bits, hsd) =>
      if bits > 0 then (.yieldLiteral, hsd)
      else if config.windowBits > 8 then (.backrefIndexMsb, hsd)
      else (.backrefIndexLsb, { hsd with outputIndex := 0 })

/-- `st_yield_literal` with the output written so far. -/
def stYieldLiteral (bufSize : ℕ) (hsd : Decoder) (output : List UInt8) :
    DecoderState × Decoder × List UInt8 :=
  if output.length < bufSize then
    match hsd.getBits 8 with
    | (none, hsd) => (.yieldLiteral, hsd, output)
    | (some byte, hsd) =>
        let c := UInt8.ofNat byte
        (.tagBit, hsd.remember config c, output ++ [c])
  else (.yieldLiteral, hsd, output)

def stBackrefIndexMsb (hsd : Decoder) : DecoderState × Decoder :=
  match hsd.getBits (config.windowBits - 8) with
  | (none, hsd) => (.backrefIndexMsb, hsd)
  | (some bits, hsd) => (.backrefIndexLsb, { hsd with outputIndex := bits * 2 ^ 8 % 2 ^ 16 })

def stBackrefIndexLsb (hsd : Decoder) : DecoderState × Decoder :=
  match hsd.getBits (if config.windowBits < 8 then config.windowBits else 8) with
  | (none, hsd) => (.backrefIndexLsb, hsd)
  | (some bits, hsd) =>
      (if config.lookaheadBits > 8 then .backrefCountMsb else .backrefCountLsb,
        { hsd with
          outputIndex := ((hsd.outputIndex ||| bits) + 1) % 2 ^ 16
          outputCount := 0 })

def stBackrefCountMsb (hsd : Decoder) : DecoderState × Decoder :=
  match hsd.getBits (config.lookaheadBits - 8) with
  | (none, hsd) => (.backrefCountMsb, hsd)
  | (some bits, hsd) => (.backrefCountLsb, { hsd with outputCount := bits * 2 ^ 8 % 2 ^ 16 })

def stBackrefCountLsb (hsd : Decoder) : DecoderState × Decoder :=
  match hsd.getBits (if config.lookaheadBits < 8 then config.lookaheadBits else 8) with
  | (none, hsd) => (.backrefCountLsb, hsd)
  | (some bits, hsd) =>
      (.yieldBackref, { hsd with outputCount := ((hsd.outputCount ||| bits) + 1) % 2 ^ 16 })

/-- One byte of a copy. -/
def copyByte (s : Decoder × List UInt8) : Decoder × List UInt8 :=
  let c := s.1.windowBuffer (slot config ((s.1.headIndex : ℤ) - s.1.outputIndex))
  (s.1.remember config c, s.2 ++ [c])

def stYieldBackref (bufSize : ℕ) (hsd : Decoder) (output : List UInt8) :
    DecoderState × Decoder × List UInt8 :=
  let room := bufSize - output.length
  if room > 0 then
    let count := if hsd.outputCount < room then hsd.outputCount else room
    let s : Decoder × List UInt8 := foldRange 0 count (hsd, output) fun _ => copyByte config
    let hsd : Decoder := { s.1 with outputCount := s.1.outputCount - count }
    (if hsd.outputCount = 0 then .tagBit else .yieldBackref, hsd, s.2)
  else (.yieldBackref, hsd, output)

/-! ## Polling -/

/-- One pass of the polling loop. -/
def step (bufSize : ℕ) (hsd : Decoder) (output : List UInt8) : Decoder × List UInt8 :=
  let next : DecoderState × Decoder × List UInt8 := match hsd.state with
    | .tagBit => let s := hsd.stTagBit config; (s.1, s.2, output)
    | .yieldLiteral => hsd.stYieldLiteral config bufSize output
    | .backrefIndexMsb => let s := hsd.stBackrefIndexMsb config; (s.1, s.2, output)
    | .backrefIndexLsb => let s := hsd.stBackrefIndexLsb config; (s.1, s.2, output)
    | .backrefCountMsb => let s := hsd.stBackrefCountMsb config; (s.1, s.2, output)
    | .backrefCountLsb => let s := hsd.stBackrefCountLsb config; (s.1, s.2, output)
    | .yieldBackref => hsd.stYieldBackref config bufSize output
  ({ next.2.1 with state := next.1 }, next.2.2)

/-- The polling loop, which goes on as long as the state changes. -/
def pollLoop (bufSize : ℕ) : ℕ → Decoder → List UInt8 → DecoderPollRes × Decoder × List UInt8
  | 0, hsd, output => (.errorUnknown, hsd, output)
  | fuel + 1, hsd, output =>
      let next := hsd.step config bufSize output
      if next.1.state = hsd.state then
        (if next.2.length = bufSize then .more else .empty, next)
      else pollLoop bufSize fuel next.1 next.2

/-- `heatshrink_decoder_poll` with an output buffer of `bufSize` bytes.  A pass
that goes on takes a bit or writes a byte, so the passes do not run out. -/
def poll (bufSize : ℕ) (hsd : Decoder) : DecoderPollRes × Decoder × List UInt8 :=
  pollLoop config bufSize (8 * hsd.inputSize + 8 + bufSize + 1) hsd []

/-- `heatshrink_decoder_finish`. -/
def finish (hsd : Decoder) : DecoderFinishRes :=
  match hsd.state with
  | .yieldBackref => .more
  | _ => if hsd.inputSize = 0 then .done else .more

end Decoder

end Xhive.Heatshrink
