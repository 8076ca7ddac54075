import Xhive.Heatshrink.Decoding

/-!
# Runs of the decoder

A caller sinks bytes and polls for output in any order and with buffers of any
sizes.  What was written so far is a first part of what the sunk bytes stand
for, and after a poll the finish call tells whether it is all of it.
-/

namespace Xhive.Heatshrink

open Xhive.Support

namespace Decoder

variable {config : Config} {bufSize inputBufferSize : ℕ} {sunk before : List UInt8}

/-! ## One poll -/

/-- What a poll reports and leaves. -/
structure Polled (config : Config) (bufSize : ℕ) (sunk before : List UInt8) (hsd : Decoder)
    (r : DecoderPollRes × Decoder × List UInt8) : Prop where
  follows : Follows config sunk r.2.1 (before ++ r.2.2)
  room : r.2.2.length ≤ bufSize
  size_le : r.2.1.inputSize ≤ hsd.inputSize
  reports : r.1 = if r.2.2.length = bufSize then .more else .empty
  finish : (r.2.1.finish = .done ∧ residual config r.2.1 (before ++ r.2.2) r.2.1.bits = []) ∨
    (r.2.1.finish = .more ∧ residual config r.2.1 (before ++ r.2.2) r.2.1.bits ≠ [] ∧
      r.2.2.length = bufSize)

/-- By induction on the passes left, of which a pass that goes on uses up one. -/
theorem pollLoop_spec {fuel : ℕ} {hsd : Decoder} {output : List UInt8}
    (h : Follows config sunk hsd (before ++ output)) (hroom : output.length ≤ bufSize)
    (hfuel : hsd.bits.length + (bufSize - output.length) < fuel) :
    Polled config bufSize sunk before hsd (hsd.pollLoop config bufSize fuel output) := by
  induction fuel generalizing hsd output with
  | zero => exact absurd hfuel (Nat.not_lt_zero _)
  | succ fuel ih =>
      have hstep := stepped h hroom
      rw [pollLoop]
      by_cases hstays : (hsd.step config bufSize output).1.state = hsd.state
      · rw [if_pos hstays]
        exact ⟨hstep.follows, hstep.room, hstep.size_le, rfl, hstep.stays hstays⟩
      · rw [if_neg hstays]
        have hmoves := hstep.moves hstays
        have hrest := ih hstep.follows hstep.room (by omega)
        exact ⟨hrest.follows, hrest.room, hrest.size_le.trans hstep.size_le, hrest.reports,
          hrest.finish⟩

variable (bufSize) in
theorem poll_spec {hsd : Decoder} (h : Follows config sunk hsd before) :
    Polled config bufSize sunk before hsd (hsd.poll config bufSize) := by
  obtain ⟨r, hr, hmark⟩ := h.readable.bitIndex
  have hlength := length_bits hsd hmark
  refine pollLoop_spec ((List.append_nil before).symm ▸ h) (Nat.zero_le _) ?_
  rw [List.length_nil]
  omega

/-- After a poll the finish call tells whether everything was written. -/
theorem Polled.finish_iff {hsd : Decoder} {r : DecoderPollRes × Decoder × List UInt8}
    (h : Polled config bufSize sunk before hsd r) :
    r.2.1.finish = .done ↔ before ++ r.2.2 = decode config (bitsOfBytes sunk) := by
  have hfuture := h.follows.future []
  rw [List.append_nil, List.append_nil] at hfuture
  rw [hfuture]
  rcases h.finish with ⟨hdone, hnil⟩ | ⟨hmore, hne, -⟩
  · rw [hnil, List.append_nil]
    exact iff_of_true hdone rfl
  · rw [hmore]
    exact iff_of_false (by decide) fun heq => hne (List.self_eq_append_right.mp heq)

/-! ## Sinking -/

/-- The decoder with `bytes` behind its input. -/
def stored (hsd : Decoder) (bytes : List UInt8) : Decoder :=
  { hsd with
    inputBuffer := fun i =>
      if hsd.inputSize ≤ i ∧ i < hsd.inputSize + bytes.length then
        bytes.getD (i - hsd.inputSize) 0
      else hsd.inputBuffer i
    inputSize := hsd.inputSize + bytes.length }

variable (inputBufferSize) in
/-- A sink stores what fits. -/
theorem sink_eq (hsd : Decoder) (inBuf : List UInt8) :
    (hsd.sink inputBufferSize inBuf).2 =
      (min (inputBufferSize - hsd.inputSize) inBuf.length,
        hsd.stored (inBuf.take (inputBufferSize - hsd.inputSize))) := by
  have hlength : (inBuf.take (inputBufferSize - hsd.inputSize)).length =
      min (inputBufferSize - hsd.inputSize) inBuf.length := List.length_take
  by_cases hfull : inputBufferSize - hsd.inputSize = 0
  · have hnone : (inBuf.take (inputBufferSize - hsd.inputSize)).length = 0 := by
      rw [hlength, hfull, Nat.zero_min]
    have hsame : hsd.stored (inBuf.take (inputBufferSize - hsd.inputSize)) = hsd := by
      rw [stored, hnone]
      congr 1
      funext i
      exact if_neg fun hi => absurd hi.1 (not_le.mpr hi.2)
    rw [sink, if_pos hfull, hsame, hfull, Nat.zero_min]
  · have hmin : (if inputBufferSize - hsd.inputSize < inBuf.length then
        inputBufferSize - hsd.inputSize else inBuf.length) =
          min (inputBufferSize - hsd.inputSize) inBuf.length := by
      split_ifs <;> omega
    rw [sink, stored, hlength, if_neg hfull]
    dsimp only
    rw [hmin]
    congr 2
    funext i
    split_ifs with hi
    · rw [List.getD_eq_getElem?_getD, List.getD_eq_getElem?_getD, List.getElem?_take_of_lt (by omega)]
    · rfl

theorem pending_stored {hsd : Decoder} (h : hsd.inputIndex ≤ hsd.inputSize)
    (bytes : List UInt8) : (hsd.stored bytes).pending = hsd.pending ++ bytes := by
  have hcount : hsd.inputSize + bytes.length - hsd.inputIndex =
      hsd.inputSize - hsd.inputIndex + bytes.length := by omega
  have hstart : hsd.inputIndex + 1 * (hsd.inputSize - hsd.inputIndex) = hsd.inputSize := by omega
  rw [pending, pending, stored]
  dsimp only
  rw [hcount, ← List.range'_append, List.map_append, hstart]
  congr 1
  · refine List.map_congr_left fun i hi => if_neg ?_
    rw [List.mem_range'_1] at hi
    omega
  · refine List.ext_getElem (by rw [List.length_map, List.length_range']) fun i hi hi' => ?_
    rw [List.getElem_map, List.getElem_range', Nat.one_mul, if_pos (by omega),
      Nat.add_sub_cancel_left, List.getD_eq_getElem _ _ hi']

theorem Follows.stored {hsd : Decoder} {hist : List UInt8} (h : Follows config sunk hsd hist)
    (bytes : List UInt8) : Follows config (sunk ++ bytes) (hsd.stored bytes) hist := by
  have hle : hsd.inputIndex ≤ hsd.inputSize := by
    by_cases hempty : hsd.inputSize = 0
    · exact (h.readable.index_zero hempty).le.trans (Nat.zero_le _)
    · exact (h.readable.index_lt hempty).le
  have hbits : (hsd.stored bytes).bits = hsd.bits ++ bitsOfBytes bytes := by
    rw [bits, bits, pending_stored hle, bitsOfBytes_append, List.append_assoc]
    rfl
  have hzero := h.readable.index_zero
  have hlt := h.readable.index_lt
  refine ⟨⟨h.readable.bitIndex, fun hne => ?_, fun hempty => ?_⟩, h.remembers, h.fields,
    fun rest => ?_⟩
  · rw [Decoder.stored] at hne ⊢
    dsimp only at hne ⊢
    omega
  · rw [Decoder.stored] at hempty ⊢
    dsimp only at hempty ⊢
    omega
  · rw [bitsOfBytes_append, List.append_assoc, h.future, hbits, List.append_assoc]
    rfl

theorem follows_reset : Follows config [] reset [] := by
  refine ⟨⟨⟨0, by decide, rfl⟩, fun hne => absurd rfl hne, fun _ => rfl⟩, fun k _ _ => rfl,
    trivial, fun rest => rfl⟩

/-! ## Runs -/

/-- A call that moves data. -/
inductive Call where
  | sink (inBuf : List UInt8)
  | poll (bufSize : ℕ)

/-- The decoder, the bytes it took and the bytes it wrote. -/
structure Session where
  hsd : Decoder
  sunk : List UInt8
  written : List UInt8

variable (config inputBufferSize) in
def Session.call (s : Session) : Call → Session
  | .sink inBuf =>
      let r := s.hsd.sink inputBufferSize inBuf
      ⟨r.2.2, s.sunk ++ inBuf.take r.2.1, s.written⟩
  | .poll bufSize =>
      let r := s.hsd.poll config bufSize
      ⟨r.2.1, s.sunk, s.written ++ r.2.2⟩

variable (config inputBufferSize) in
/-- Calls after a reset. -/
def Session.run (calls : List Call) : Session :=
  calls.foldl (Session.call config inputBufferSize) ⟨reset, [], []⟩

variable (config inputBufferSize) in
/-- The invariant of the runs; the input buffer is never written past its end. -/
structure Session.Sound (s : Session) : Prop where
  follows : Follows config s.sunk s.hsd s.written
  size_le : s.hsd.inputSize ≤ inputBufferSize

theorem Session.Sound.call {s : Session} (h : s.Sound config inputBufferSize) (c : Call) :
    (s.call config inputBufferSize c).Sound config inputBufferSize := by
  cases c with
  | sink inBuf =>
      have hsink := sink_eq inputBufferSize s.hsd inBuf
      have hsize := h.size_le
      refine ⟨?_, ?_⟩
      · have htake : inBuf.take (min (inputBufferSize - s.hsd.inputSize) inBuf.length) =
            inBuf.take (inputBufferSize - s.hsd.inputSize) := List.take_eq_take_min.symm
        rw [Session.call]
        dsimp only
        rw [hsink]
        dsimp only
        rw [htake]
        exact h.follows.stored _
      · rw [Session.call]
        dsimp only
        rw [hsink, stored]
        dsimp only
        rw [List.length_take]
        omega
  | poll bufSize =>
      have hpoll := poll_spec bufSize h.follows
      exact ⟨hpoll.follows, hpoll.size_le.trans h.size_le⟩

variable (config inputBufferSize) in
theorem Session.sound_run (calls : List Call) :
    (Session.run config inputBufferSize calls).Sound config inputBufferSize :=
  List.foldlRecOn calls _ ⟨follows_reset, Nat.zero_le _⟩ fun _ h c _ => h.call c

/-- After any calls a poll fills the output buffer or writes all that the sunk bytes
stand for; what was written is always a first part of that, and the finish call
then says whether it is the whole. -/
theorem decoder_streams (config : Config) (inputBufferSize : ℕ) (calls : List Call)
    (bufSize : ℕ) :
    let s := Session.run config inputBufferSize calls
    let r := s.hsd.poll config bufSize
    s.hsd.inputSize ≤ inputBufferSize ∧
      r.2.2.length ≤ bufSize ∧
      r.1 = (if r.2.2.length = bufSize then .more else .empty) ∧
      s.written ++ r.2.2 <+: decode config (bitsOfBytes s.sunk) ∧
      (r.2.1.finish = .done ↔ s.written ++ r.2.2 = decode config (bitsOfBytes s.sunk)) ∧
      (r.1 = .empty → r.2.1.finish = .done) := by
  intro s r
  have hsound := Session.sound_run config inputBufferSize calls
  have hpoll : Polled config bufSize s.sunk s.written s.hsd r :=
    poll_spec bufSize hsound.follows
  have hfuture := hpoll.follows.future []
  rw [List.append_nil] at hfuture
  refine ⟨hsound.size_le, hpoll.room, hpoll.reports, ⟨_, hfuture.symm⟩, hpoll.finish_iff,
    fun hempty => ?_⟩
  rcases hpoll.finish with ⟨hdone, -⟩ | ⟨-, -, hfull⟩
  · exact hdone
  · rw [hpoll.reports, if_pos hfull] at hempty
    exact absurd hempty (by decide)

end Decoder

end Xhive.Heatshrink
