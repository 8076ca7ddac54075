import Xhive.Heatshrink.Search

/-!
# The encoder

The polling state machine of `heatshrink_encoder.c` with its sliding buffer.  The
search index is a choice of the build, and its reads and writes are those of an
`int16_t` counter.
-/

namespace Xhive.Heatshrink

open Xhive.Support

/-- `HSE_state`. -/
inductive EncoderState where
  | notFull
  | filled
  | search
  | yieldTagBit
  | yieldLiteral
  | yieldBrIndex
  | yieldBrLength
  | saveBacklog
  | flushBits
  | done
  deriving DecidableEq, Repr

/-- `heatshrink_encoder` without its sizes; `finishing` is its one flag. -/
structure Encoder where
  inputSize : ℕ
  matchScanIndex : ℕ
  matchLength : ℕ
  matchPos : ℕ
  outgoingBits : ℕ
  outgoingBitsCount : ℕ
  finishing : Bool
  state : EncoderState
  currentByte : UInt8
  bitIndex : UInt8
  searchIndex : ℕ → ℤ
  buffer : ℕ → UInt8

/-- `HSE_sink_res` of a call with pointers that are not NULL. -/
inductive EncoderSinkRes where
  | ok
  | errorMisuse
  deriving DecidableEq, Repr

/-- `HSE_poll_res` of a call with pointers that are not NULL. -/
inductive EncoderPollRes where
  | empty
  | more
  | errorMisuse
  deriving DecidableEq, Repr

/-- `HSE_finish_res`. -/
inductive EncoderFinishRes where
  | done
  | more
  deriving DecidableEq, Repr

namespace Encoder

/-- `heatshrink_encoder_reset`, which leaves the match position and the index. -/
def reset (hse : Encoder) : Encoder :=
  { hse with
    buffer := fun _ => 0
    inputSize := 0
    state := .notFull
    matchScanIndex := 0
    finishing := false
    bitIndex := 0x80
    currentByte := 0x00
    matchLength := 0
    outgoingBits := 0
    outgoingBitsCount := 0 }

variable (config : Config)

/-- `get_input_buffer_size`, which is `get_input_offset` as well. -/
def getInputBufferSize : ℕ :=
  2 ^ config.windowBits

def getLookaheadSize : ℕ :=
  2 ^ config.lookaheadBits

/-- `heatshrink_encoder_sink`; the number is `*input_size`, and 0 on misuse. -/
def sink (hse : Encoder) (inBuf : List UInt8) : EncoderSinkRes × ℕ × Encoder :=
  if hse.finishing = true then (.errorMisuse, 0, hse)
  else if hse.state ≠ .notFull then (.errorMisuse, 0, hse)
  else
    let writeOffset := uint16 (getInputBufferSize config + hse.inputSize)
    let rem := uint16 (getInputBufferSize config - hse.inputSize)
    let cpSz := if rem < inBuf.length then rem else uint16 inBuf.length
    (.ok, cpSz, { hse with
      buffer := fun i =>
        if writeOffset ≤ i ∧ i < writeOffset + cpSz then inBuf.getD (i - writeOffset) 0
        else hse.buffer i
      inputSize := uint16 (hse.inputSize + cpSz)
      state := if cpSz = rem then .filled else hse.state })

/-! ## Bits -/

/-- One iteration of `push_bits`. -/
def pushBit (bit : Bool) (s : Encoder × List UInt8) : Encoder × List UInt8 :=
  let byte := if bit then s.1.currentByte ||| s.1.bitIndex else s.1.currentByte
  let mark := s.1.bitIndex >>> 1
  if mark = 0x00 then
    ({ s.1 with bitIndex := 0x80, currentByte := 0x00 }, s.2 ++ [byte])
  else ({ s.1 with bitIndex := mark, currentByte := byte }, s.2)

def pushBits (hse : Encoder) (count : ℕ) (bits : UInt8) (output : List UInt8) :
    Encoder × List UInt8 :=
  if count = 8 ∧ hse.bitIndex = 0x80 then (hse, output ++ [bits])
  else foldRange 0 count (hse, output) fun k => pushBit (bits.toNat.testBit (count - 1 - k))

/-- `push_outgoing_bits`, which returns the number of bits. -/
def pushOutgoingBits (hse : Encoder) (output : List UInt8) : ℕ × Encoder × List UInt8 :=
  let long : Prop := hse.outgoingBitsCount > 8
  let count := if long then 8 else hse.outgoingBitsCount
  let bits := if long then UInt8.ofNat (hse.outgoingBits >>> (hse.outgoingBitsCount - 8))
    else UInt8.ofNat hse.outgoingBits
  if count > 0 then
    let s := hse.pushBits count bits output
    (count, { s.1 with outgoingBitsCount := s.1.outgoingBitsCount - count }, s.2)
  else (count, hse, output)

/-- `add_tag_bit`. -/
def addTagBit (hse : Encoder) (tag : UInt8) (output : List UInt8) : Encoder × List UInt8 :=
  hse.pushBits 1 tag output

def pushLiteralByte (hse : Encoder) (output : List UInt8) : Encoder × List UInt8 :=
  let processedOffset := uint16 ((hse.matchScanIndex : ℤ) - 1)
  let inputOffset := uint16 (getInputBufferSize config + processedOffset)
  hse.pushBits 8 (hse.buffer inputOffset) output

/-! ## States

The states that write take the output so far and may write while there is room. -/

variable (indexed : Bool)

def stStepSearch (hse : Encoder) : Except Fault (EncoderState × Encoder) :=
  let windowLength := getInputBufferSize config
  let lookaheadSz := getLookaheadSize config
  let msi := hse.matchScanIndex
  if (msi : ℤ) > hse.inputSize - (if hse.finishing then 1 else (lookaheadSz : ℤ)) then
    .ok (if hse.finishing then .flushBits else .saveBacklog, hse)
  else do
    let end_ := uint16 (getInputBufferSize config + msi)
    let start := uint16 ((end_ : ℤ) - windowLength)
    let maxPossible := if (hse.inputSize - msi : ℤ) < lookaheadSz then
        uint16 (hse.inputSize - msi) else lookaheadSz
    let found ← findLongestMatch config indexed hse.buffer hse.searchIndex start end_ maxPossible
    .ok (if found.1 = matchNotFound then
        (.yieldTagBit, { hse with matchScanIndex := uint16 (msi + 1), matchLength := 0 })
      else (.yieldTagBit, { hse with matchPos := found.1, matchLength := found.2 }))

def stYieldTagBit (bufSize : ℕ) (hse : Encoder) (output : List UInt8) :
    EncoderState × Encoder × List UInt8 :=
  if output.length < bufSize then
    if hse.matchLength = 0 then (.yieldLiteral, hse.addTagBit 0x01 output)
    else
      let s := hse.addTagBit 0x00 output
      (.yieldBrIndex,
        { s.1 with
          outgoingBits := uint16 ((s.1.matchPos : ℤ) - 1)
          outgoingBitsCount := config.windowBits },
        s.2)
  else (.yieldTagBit, hse, output)

def stYieldLiteral (bufSize : ℕ) (hse : Encoder) (output : List UInt8) :
    EncoderState × Encoder × List UInt8 :=
  if output.length < bufSize then (.search, hse.pushLiteralByte config output)
  else (.yieldLiteral, hse, output)

def stYieldBrIndex (bufSize : ℕ) (hse : Encoder) (output : List UInt8) :
    EncoderState × Encoder × List UInt8 :=
  if output.length < bufSize then
    let s := hse.pushOutgoingBits output
    if s.1 > 0 then (.yieldBrIndex, s.2)
    else
      (.yieldBrLength,
        { s.2.1 with
          outgoingBits := uint16 ((s.2.1.matchLength : ℤ) - 1)
          outgoingBitsCount := config.lookaheadBits },
        s.2.2)
  else (.yieldBrIndex, hse, output)

def stYieldBrLength (bufSize : ℕ) (hse : Encoder) (output : List UInt8) :
    EncoderState × Encoder × List UInt8 :=
  if output.length < bufSize then
    let s := hse.pushOutgoingBits output
    if s.1 > 0 then (.yieldBrLength, s.2)
    else
      (.search,
        { s.2.1 with
          matchScanIndex := uint16 (s.2.1.matchScanIndex + s.2.1.matchLength)
          matchLength := 0 },
        s.2.2)
  else (.yieldBrLength, hse, output)

def saveBacklog (hse : Encoder) : Encoder :=
  let inputBufSz := getInputBufferSize config
  let rem := uint16 ((inputBufSz : ℤ) - hse.matchScanIndex)
  let shiftSz := uint16 (inputBufSz + rem)
  { hse with
    buffer := fun i => if i < shiftSz then hse.buffer (inputBufSz - rem + i) else hse.buffer i
    matchScanIndex := 0
    inputSize := uint16 (hse.inputSize - ((inputBufSz : ℤ) - rem)) }

def stSaveBacklog (hse : Encoder) : EncoderState × Encoder :=
  (.notFull, hse.saveBacklog config)

def stFlushBitBuffer (bufSize : ℕ) (hse : Encoder) (output : List UInt8) :
    EncoderState × List UInt8 :=
  if hse.bitIndex = 0x80 then (.done, output)
  else if output.length < bufSize then (.done, output ++ [hse.currentByte])
  else (.flushBits, output)

/-! ## Polling -/

/-- One pass of the polling loop in a state that does not return. -/
def step (bufSize : ℕ) (hse : Encoder) (output : List UInt8) :
    Except Fault (Encoder × List UInt8) := do
  let next : EncoderState × Encoder × List UInt8 ← match hse.state with
    | .filled => do
        let index ← if indexed then
            doIndexing hse.buffer (uint16 (getInputBufferSize config + hse.inputSize))
              hse.searchIndex
          else .ok hse.searchIndex
        .ok (.search, { hse with searchIndex := index }, output)
    | .search => do
        let s ← hse.stStepSearch config indexed
        .ok (s.1, s.2, output)
    | .yieldTagBit => .ok (hse.stYieldTagBit config bufSize output)
    | .yieldLiteral => .ok (hse.stYieldLiteral config bufSize output)
    | .yieldBrIndex => .ok (hse.stYieldBrIndex config bufSize output)
    | .yieldBrLength => .ok (hse.stYieldBrLength bufSize output)
    | .saveBacklog => let s := hse.stSaveBacklog config; .ok (s.1, s.2, output)
    | .notFull | .flushBits | .done => .ok (hse.state, hse, output)
  .ok ({ next.2.1 with state := next.1 }, next.2.2)

/-- The polling loop. -/
def pollLoop (bufSize : ℕ) :
    ℕ → Encoder → List UInt8 → Except Fault (EncoderPollRes × Encoder × List UInt8)
  | 0, _, _ => .error .endless
  | fuel + 1, hse, output =>
      if hse.state = .notFull ∨ hse.state = .done then .ok (.empty, hse, output)
      else if hse.state = .flushBits then
        let s := hse.stFlushBitBuffer bufSize output
        .ok (.empty, { hse with state := s.1 }, s.2)
      else do
        let next ← hse.step config indexed bufSize output
        if next.1.state = hse.state ∧ next.2.length = bufSize then .ok (.more, next)
        else pollLoop bufSize fuel next.1 next.2

/-- `heatshrink_encoder_poll` with an output buffer of `bufSize` bytes.  A pass that
goes on works off a byte of the input or a part of its fields, so the passes do not
run out. -/
def poll (bufSize : ℕ) (hse : Encoder) :
    Except Fault (EncoderPollRes × Encoder × List UInt8) :=
  if bufSize = 0 then .ok (.errorMisuse, hse, [])
  else pollLoop config indexed bufSize (64 * hse.inputSize + 65) hse []

/-- `heatshrink_encoder_finish`. -/
def finish (hse : Encoder) : EncoderFinishRes × Encoder :=
  let state := if hse.state = .notFull then .filled else hse.state
  (if state = .done then .done else .more, { hse with finishing := true, state := state })

end Encoder

end Xhive.Heatshrink
