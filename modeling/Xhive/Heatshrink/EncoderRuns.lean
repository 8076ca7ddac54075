import Xhive.Heatshrink.Encoding

/-!
# Runs of the encoder

A caller sinks bytes, polls and finishes in any order.  What was written always
stands for a first part of the sunk bytes, and for all of them when the encoder
says it is done, which it does after some polls.
-/

namespace Xhive.Heatshrink

open Xhive.Support

namespace Encoder

variable {config : Config} {indexed : Bool} {bufSize base : ℕ} {data before : List UInt8}
  {pend : List Bool} {hse : Encoder}

/-! ## What was written -/

/-- The bits so far can be completed to those of a first part of the data. -/
theorem Follows.completes {written : List UInt8}
    (h : Follows config indexed data base written pend hse) :
    ∃ extra n, decode config (bitsOfBytes written ++ pend ++ extra) = data.take n := by
  have hphase := h.phase
  have hscan := h.holds.scan_le
  have hlength := h.holds.length
  cases hstate : hse.state with
  | notFull =>
      simp only [Phase, hstate] at hphase
      refine ⟨[], base, ?_⟩
      rw [List.append_nil]
      exact hphase.2.2.2.decode_eq
  | filled =>
      simp only [Phase, hstate] at hphase
      refine ⟨[], base, ?_⟩
      rw [List.append_nil]
      exact hphase.2.decode_eq
  | search =>
      simp only [Phase, hstate] at hphase
      refine ⟨[], base + hse.matchScanIndex, ?_⟩
      rw [List.append_nil]
      exact hphase.decode_eq
  | yieldTagBit =>
      simp only [Phase, hstate] at hphase
      rcases hphase with ⟨-, n, -, hencodes⟩ | ⟨-, hencodes⟩
      · refine ⟨[], base + n, ?_⟩
        rw [List.append_nil]
        exact hencodes.decode_eq
      · refine ⟨[], base + hse.matchScanIndex, ?_⟩
        rw [List.append_nil]
        exact hencodes.decode_eq
  | yieldLiteral =>
      simp only [Phase, hstate] at hphase
      obtain ⟨n, done, hn, hencodes, hdone⟩ := hphase
      have hinside : base + n < data.length := by omega
      have hnext := hencodes.literal data[base + n]
      rw [← List.take_succ_eq_append_getElem hinside] at hnext
      refine ⟨byteBits data[base + n], base + n + 1, ?_⟩
      rw [hdone, List.append_assoc]
      exact hnext.decode_eq
  | yieldBrIndex =>
      simp only [Phase, hstate] at hphase
      obtain ⟨hmatch, -, -, done, hencodes, hdone⟩ := hphase
      have hcopy := hencodes.copy hmatch.pos_pos hmatch.pos_le hmatch.length_pos hmatch.length_le
      rw [hmatch.copies] at hcopy
      refine ⟨bitsOf hse.outgoingBitsCount hse.outgoingBits ++
        bitsOf config.lookaheadBits (hse.matchLength - 1),
        base + (hse.matchScanIndex + hse.matchLength), ?_⟩
      rw [← List.append_assoc, hdone, List.append_assoc]
      exact hcopy.decode_eq
  | yieldBrLength =>
      simp only [Phase, hstate] at hphase
      obtain ⟨hmatch, -, -, done, hencodes, hdone⟩ := hphase
      have hcopy := hencodes.copy hmatch.pos_pos hmatch.pos_le hmatch.length_pos hmatch.length_le
      rw [hmatch.copies] at hcopy
      refine ⟨bitsOf hse.outgoingBitsCount hse.outgoingBits,
        base + (hse.matchScanIndex + hse.matchLength), ?_⟩
      rw [hdone]
      exact hcopy.decode_eq
  | saveBacklog =>
      simp only [Phase, hstate] at hphase
      refine ⟨[], base + hse.matchScanIndex, ?_⟩
      rw [List.append_nil]
      exact hphase.2.2.decode_eq
  | flushBits =>
      simp only [Phase, hstate] at hphase
      refine ⟨[], data.length, ?_⟩
      rw [List.append_nil, List.take_length]
      exact hphase.2.decode_eq
  | done =>
      simp only [Phase, hstate] at hphase
      obtain ⟨-, done, k, hk, hencodes, hbits⟩ := hphase
      refine ⟨[], data.length, ?_⟩
      rw [List.append_nil, List.take_length, hbits]
      exact hencodes.decode_padded hk

/-- What was written stands for a first part of the data. -/
theorem Follows.decode_prefix {written : List UInt8}
    (h : Follows config indexed data base written pend hse) :
    decode config (bitsOfBytes written) <+: data := by
  obtain ⟨extra, n, hcomplete⟩ := h.completes
  have hprefix := decodeFrom_prefix config [] (bitsOfBytes written) (pend ++ extra)
  rw [← List.append_assoc, ← decode, ← decode, hcomplete] at hprefix
  exact hprefix.trans (List.take_prefix n data)

/-- When the encoder is done, it stands for all of them. -/
theorem Follows.decode_done {written : List UInt8}
    (h : Follows config indexed data base written pend hse) (hstate : hse.state = .done) :
    decode config (bitsOfBytes written) = data := by
  have hphase := h.phase
  simp only [Phase, hstate] at hphase
  obtain ⟨-, done, k, hk, hencodes, hbits⟩ := hphase
  rw [h.flushed hstate, List.append_nil] at hbits
  rw [hbits]
  exact hencodes.decode_padded hk

/-! ## One poll -/

/-- What a poll reports and leaves. -/
structure Polled (config : Config) (indexed : Bool) (bufSize : ℕ) (data before : List UInt8)
    (hse : Encoder) (output : List UInt8) (r : EncoderPollRes × Encoder × List UInt8) : Prop where
  follows : ∃ base pend, Follows config indexed data base (before ++ r.2.2) pend r.2.1
  room : r.2.2.length ≤ bufSize
  finishing : r.2.1.finishing = hse.finishing
  reports : (r.1 = .more ∧ r.2.2.length = bufSize ∧ Searching r.2.1.state) ∨
    (r.1 = .empty ∧ (r.2.1.state = .notFull ∨ r.2.1.state = .done ∨
      (r.2.1.state = .flushBits ∧ r.2.2.length = bufSize)))
  moves : r.2.1.work < hse.work ∨
    (r.2.1 = hse ∧ (hse.work = 0 ∨ output.length = bufSize))

/-- The flush at the end of the data. -/
theorem polled_flush {output : List UInt8}
    (h : Follows config indexed data base (before ++ output) pend hse)
    (hroom : output.length ≤ bufSize) (hstate : hse.state = .flushBits) :
    Polled config indexed bufSize data before hse output
      (.empty, { hse with state := (hse.stFlushBitBuffer bufSize output).1 },
        (hse.stFlushBitBuffer bufSize output).2) := by
  have hphase := h.phase
  simp only [Phase, hstate] at hphase
  obtain ⟨hfin, hencodes⟩ := hphase
  have hpending := h.pending (by rw [hstate]; decide)
  have hlt := hpending.length_lt
  have hwork : hse.work = 1 := by simp only [work, hstate]
  have hmark : hse.bitIndex = 0x80 ↔ pend.length = 0 := by
    rw [← UInt8.toNat_inj, hpending.mark]
    constructor
    · intro heq
      have hseven : 7 - pend.length = 7 :=
        Nat.pow_right_injective (le_refl 2) (heq.trans (by decide : (128 : ℕ) = 2 ^ 7))
      omega
    · intro hzero
      rw [hzero]
      rfl
  rw [stFlushBitBuffer]
  split_ifs with hempty hfree
  · have hnil : pend = [] := List.length_eq_zero_iff.mp (hmark.mp hempty)
    refine ⟨⟨base, [], ⟨h.holds.length, h.holds.size_le, h.holds.scan_le, h.holds.buffer⟩, ?_,
      fun hrun => absurd (hfin.symm.trans hrun) (by decide), fun _ hsearch => hsearch.elim,
      fun hne => absurd rfl hne, fun _ => rfl⟩, hroom, rfl, Or.inr ⟨rfl, Or.inr (Or.inl rfl)⟩,
      Or.inl ?_⟩
    · rw [hnil] at hencodes
      exact ⟨hfin, _, 0, by decide, hencodes, by rw [List.replicate_zero, List.append_nil,
        List.append_nil]⟩
    · rw [hwork]
      exact Nat.one_pos
  · have hne : pend.length ≠ 0 := fun hzero => hempty (hmark.mpr hzero)
    have hbyte : byteBits hse.currentByte =
        pend ++ List.replicate (8 - pend.length) false := by
      have hshift := bitsOf_shiftLeft pend (8 - pend.length)
      rw [← hpending.byte, Nat.add_sub_cancel' hlt.le] at hshift
      exact hshift
    refine ⟨⟨base, [], ⟨h.holds.length, h.holds.size_le, h.holds.scan_le, h.holds.buffer⟩, ?_,
      fun hrun => absurd (hfin.symm.trans hrun) (by decide), fun _ hsearch => hsearch.elim,
      fun hne => absurd rfl hne, fun _ => rfl⟩, ?_, rfl, Or.inr ⟨rfl, Or.inr (Or.inl rfl)⟩,
      Or.inl ?_⟩
    · refine ⟨hfin, _, 8 - pend.length, by omega, hencodes, ?_⟩
      rw [List.append_nil, ← List.append_assoc, bitsOfBytes_concat, hbyte, List.append_assoc]
    · rw [List.length_append]
      exact hfree
    · rw [hwork]
      exact Nat.one_pos
  · have hsame : { hse with state := EncoderState.flushBits } = hse := by rw [← hstate]
    rw [hsame]
    have hfull := Nat.le_antisymm hroom (not_lt.mp hfree)
    exact ⟨⟨base, pend, h⟩, hroom, rfl, Or.inr ⟨rfl, Or.inr (Or.inr ⟨hstate, hfull⟩)⟩,
      Or.inr ⟨rfl, Or.inr hfull⟩⟩

/-- By induction on the passes left, of which a pass that goes on uses up one. -/
theorem pollLoop_spec (hindexed : indexed = true → config.windowBits ≤ 14) {fuel : ℕ}
    {output : List UInt8} (h : Follows config indexed data base (before ++ output) pend hse)
    (hroom : output.length ≤ bufSize) (hfuel : hse.work < fuel) :
    Ensures (hse.pollLoop config indexed bufSize fuel output)
      (Polled config indexed bufSize data before hse output) (Overflows config indexed hse) := by
  induction fuel generalizing hse output base pend with
  | zero => exact absurd hfuel (Nat.not_lt_zero _)
  | succ fuel ih =>
      rw [pollLoop]
      by_cases hrests : hse.state = .notFull ∨ hse.state = .done
      · rw [if_pos hrests]
        have hwork : hse.work = 0 := by
          rcases hrests with hstate | hstate <;> simp only [work, hstate]
        exact ⟨⟨base, pend, h⟩, hroom, rfl, Or.inr ⟨rfl, hrests.imp_right Or.inl⟩,
          Or.inr ⟨rfl, Or.inl hwork⟩⟩
      · rw [if_neg hrests]
        by_cases hflush : hse.state = .flushBits
        · rw [if_pos hflush]
          exact polled_flush h hroom hflush
        · rw [if_neg hflush]
          obtain ⟨hfull, hdone⟩ := not_or.mp hrests
          refine (stepped hindexed h hroom hfull hdone hflush).seq fun next hstep => ?_
          obtain ⟨base', pend', hfollows⟩ := hstep.follows
          refine Ensures.ite (fun hstays => ?_) fun hgoes => ?_
          · refine ⟨hstep.follows, hstep.room, hstep.finishing,
              Or.inl ⟨rfl, hstays.2, hstep.rests hstays.1⟩, ?_⟩
            exact hstep.moves.imp_right fun hstuck =>
              ⟨congrArg Prod.fst hstuck.2, Or.inr hstuck.1⟩
          · have hless : next.1.work < hse.work := by
              refine hstep.moves.resolve_right fun hstuck => hgoes ?_
              rw [hstuck.2]
              exact ⟨rfl, hstuck.1⟩
            refine (ih hfollows hstep.room (by omega)).mono (fun r hr => ?_) fun e he => ?_
            · refine ⟨hr.follows, hr.room, hr.finishing.trans hstep.finishing, hr.reports,
                Or.inl ?_⟩
              rcases hr.moves with hlt | ⟨heq, -⟩
              · exact hlt.trans hless
              · rw [heq]
                exact hless
            · exact absurd he.2.2.2.1 hstep.not_filled

theorem Follows.work_lt {written : List UInt8}
    (h : Follows config indexed data base written pend hse) :
    hse.work < 64 * hse.inputSize + 65 := by
  have hphase := h.phase
  have hwindow := config.le_maxWindowBits
  have hlookahead := config.lookaheadBits_lt
  cases hstate : hse.state with
  | notFull | filled | search | yieldLiteral | saveBacklog | flushBits | done =>
      simp only [work, hstate]
      omega
  | yieldTagBit =>
      simp only [work, hstate]
      split_ifs <;> omega
  | yieldBrIndex =>
      simp only [Phase, hstate] at hphase
      obtain ⟨-, -, hcount, -⟩ := hphase
      simp only [work, hstate]
      omega
  | yieldBrLength =>
      simp only [Phase, hstate] at hphase
      obtain ⟨-, -, hcount, -⟩ := hphase
      simp only [work, hstate]
      omega

theorem poll_spec (hindexed : indexed = true → config.windowBits ≤ 14)
    (h : Follows config indexed data base before pend hse) (hbuf : 0 < bufSize) :
    Ensures (hse.poll config indexed bufSize)
      (Polled config indexed bufSize data before hse []) (Overflows config indexed hse) := by
  rw [poll, if_neg hbuf.ne']
  exact pollLoop_spec hindexed ((List.append_nil before).symm ▸ h) (Nat.zero_le _) h.work_lt

/-! ## Sinking and finishing -/

theorem byteAt_append_left (xs ys : List UInt8) {k : ℕ}
    (hk : k < 2 ^ config.windowBits + xs.length) :
    byteAt config (xs ++ ys) k = byteAt config xs k := by
  have hlt : k < (List.replicate (2 ^ config.windowBits) (0 : UInt8) ++ xs).length := by
    rwa [List.length_append, List.length_replicate]
  rw [byteAt, byteAt, ← List.append_assoc, List.getD_eq_getElem?_getD,
    List.getElem?_append_left hlt, List.getD_eq_getElem?_getD]

theorem byteAt_append_right (xs ys : List UInt8) (k : ℕ) :
    byteAt config (xs ++ ys) (2 ^ config.windowBits + xs.length + k) = ys.getD k 0 := by
  have hle : (List.replicate (2 ^ config.windowBits) (0 : UInt8) ++ xs).length ≤
      2 ^ config.windowBits + xs.length + k := by
    rw [List.length_append, List.length_replicate]
    exact Nat.le_add_right _ _
  rw [byteAt, ← List.append_assoc, List.getD_eq_getElem?_getD, List.getElem?_append_right hle,
    List.length_append, List.length_replicate, Nat.add_sub_cancel_left,
    ← List.getD_eq_getElem?_getD]

/-- What a sink takes before the input buffer is full. -/
theorem sink_eq (h : hse.state = .notFull) (hrun : hse.finishing = false)
    (hsize : hse.inputSize < 2 ^ config.windowBits) (inBuf : List UInt8) :
    (hse.sink config inBuf).2 =
      (min (2 ^ config.windowBits - hse.inputSize) inBuf.length,
        { hse with
          buffer := fun i =>
            if 2 ^ config.windowBits + hse.inputSize ≤ i ∧
                i < 2 ^ config.windowBits + hse.inputSize +
                  min (2 ^ config.windowBits - hse.inputSize) inBuf.length then
              inBuf.getD (i - (2 ^ config.windowBits + hse.inputSize)) 0
            else hse.buffer i
          inputSize := hse.inputSize +
            min (2 ^ config.windowBits - hse.inputSize) inBuf.length
          state := if min (2 ^ config.windowBits - hse.inputSize) inBuf.length =
              2 ^ config.windowBits - hse.inputSize then .filled else hse.state }) := by
  have hwindow := window_le config
  have hoffset : uint16 ((getInputBufferSize config : ℤ) + hse.inputSize) =
      2 ^ config.windowBits + hse.inputSize :=
    uint16_add (a := getInputBufferSize config) (by rw [getInputBufferSize]; omega)
  have hrem : uint16 ((getInputBufferSize config : ℤ) - hse.inputSize) =
      2 ^ config.windowBits - hse.inputSize :=
    uint16_sub (a := getInputBufferSize config) (by rw [getInputBufferSize]; omega)
      (by rw [getInputBufferSize]; omega)
  have hcount : (if 2 ^ config.windowBits - hse.inputSize < inBuf.length then
      2 ^ config.windowBits - hse.inputSize else uint16 inBuf.length) =
        min (2 ^ config.windowBits - hse.inputSize) inBuf.length := by
    split_ifs with hlong
    · omega
    · rw [uint16_natCast (by omega)]
      omega
  have hsum : uint16 ((hse.inputSize : ℤ) +
      (min (2 ^ config.windowBits - hse.inputSize) inBuf.length : ℕ)) =
        hse.inputSize + min (2 ^ config.windowBits - hse.inputSize) inBuf.length :=
    uint16_add (by omega)
  have hgo : ¬hse.finishing = true := fun htrue => Bool.noConfusion (hrun.symm.trans htrue)
  simp only [sink, if_neg hgo, if_neg (not_not.mpr h), hoffset, hrem, hcount, hsum]

theorem sink_misuse (h : hse.finishing = true ∨ hse.state ≠ .notFull) (inBuf : List UInt8) :
    (hse.sink config inBuf).2 = (0, hse) := by
  rw [sink]
  by_cases hfin : hse.finishing = true
  · rw [if_pos hfin]
  · rw [if_neg hfin, if_pos (h.resolve_left hfin)]

/-- A sink takes what fits, and only before the input buffer is full. -/
theorem sink_spec {written : List UInt8}
    (h : Follows config indexed data base written pend hse) (inBuf : List UInt8) :
    Follows config indexed (data ++ inBuf.take (hse.sink config inBuf).2.1) base written pend
        (hse.sink config inBuf).2.2 ∧
      (hse.sink config inBuf).2.2.finishing = hse.finishing ∧
      ((hse.sink config inBuf).2.2.state = hse.state ∨
        (hse.sink config inBuf).2.2.state = .filled) ∧
      (hse.state = .notFull → inBuf ≠ [] → 0 < (hse.sink config inBuf).2.1) := by
  by_cases hstate : hse.state = .notFull
  · have hphase := h.phase
    simp only [Phase, hstate] at hphase
    obtain ⟨hrun, hsize, hscan, hencodes⟩ := hphase
    have hpending := h.pending (by rw [hstate]; decide)
    have hlength := h.holds.length
    obtain ⟨count, hcount⟩ : ∃ count, count =
      min (2 ^ config.windowBits - hse.inputSize) inBuf.length := ⟨_, rfl⟩
    rw [sink_eq hstate hrun hsize, ← hcount]
    dsimp only
    have htaken : (inBuf.take count).length = count := by
      rw [List.length_take]
      omega
    refine ⟨⟨⟨?_, ?_, ?_, ?_⟩, ?_, fun _ hne => ?_, fun _ hsearch => ?_,
      fun _ => ⟨hpending.length_lt, hpending.mark, hpending.byte⟩, fun hdone => ?_⟩, rfl, ?_,
      fun _ hne => ?_⟩
    · dsimp only
      rw [List.length_append, htaken]
      omega
    · dsimp only
      omega
    · dsimp only
      omega
    · intro i hi
      dsimp only at hi ⊢
      by_cases hold : i < 2 ^ config.windowBits + hse.inputSize
      · rw [if_neg (by omega), byteAt_append_left _ _ (by omega)]
        exact h.holds.buffer i hold
      · obtain ⟨k, rfl⟩ := Nat.exists_eq_add_of_le (not_lt.mp hold)
        have hplace : base + (2 ^ config.windowBits + hse.inputSize + k) =
            2 ^ config.windowBits + data.length + k := by omega
        rw [if_pos (by omega), Nat.add_sub_cancel_left, hplace, byteAt_append_right,
          List.getD_eq_getElem?_getD, List.getD_eq_getElem?_getD,
          List.getElem?_take_of_lt (by omega)]
    · have htake : (data ++ inBuf.take count).take base = data.take base :=
        List.take_append_of_le_length (by omega)
      by_cases hfills : count = 2 ^ config.windowBits - hse.inputSize
      · simp only [Phase, if_pos hfills]
        rw [htake]
        exact ⟨hscan, hencodes⟩
      · simp only [Phase, if_neg hfills, hstate]
        rw [htake]
        exact ⟨hrun, by omega, hscan, hencodes⟩
    · dsimp only at hne ⊢
      by_contra hless
      rw [if_neg (by omega)] at hne
      exact hne hstate
    · dsimp only at hsearch
      split_ifs at hsearch
      · exact hsearch.elim
      · rw [hstate] at hsearch
        exact hsearch.elim
    · dsimp only at hdone
      split_ifs at hdone
      rw [hstate] at hdone
      exact absurd hdone (by decide)
    · split_ifs
      · exact Or.inr rfl
      · exact Or.inl rfl
    · have hpos := List.length_pos_iff.mpr hne
      omega
  · rw [sink_misuse (Or.inr hstate), List.take_zero, List.append_nil]
    exact ⟨h, rfl, Or.inl rfl, fun heq => absurd heq hstate⟩

/-- The finish call changes no bytes. -/
theorem finish_spec {written : List UInt8}
    (h : Follows config indexed data base written pend hse) (hstate : hse.state ≠ .saveBacklog) :
    Follows config indexed data base written pend hse.finish.2 ∧
      hse.finish.2.finishing = true ∧ hse.finish.2.state ≠ .notFull ∧
      hse.finish.2.state ≠ .saveBacklog := by
  have hphase := h.phase
  rw [finish]
  dsimp only
  by_cases hfull : hse.state = .notFull
  · simp only [if_pos hfull]
    simp only [Phase, hfull] at hphase
    have hpending := h.pending (by rw [hfull]; decide)
    refine ⟨⟨⟨h.holds.length, h.holds.size_le, h.holds.scan_le, h.holds.buffer⟩, ?_,
      fun hrun => absurd hrun (by simp), fun _ hsearch => hsearch.elim,
      fun _ => ⟨hpending.length_lt, hpending.mark, hpending.byte⟩,
      fun hdone => absurd hdone (by simp)⟩, trivial, by simp, by simp⟩
    exact ⟨hphase.2.2.1, hphase.2.2.2⟩
  · simp only [if_neg hfull]
    refine ⟨⟨⟨h.holds.length, h.holds.size_le, h.holds.scan_le, h.holds.buffer⟩, ?_,
      fun hrun => absurd hrun (by simp), h.links, fun hne => ?_, h.flushed⟩, trivial, hfull,
      hstate⟩
    · cases hcase : hse.state with
      | notFull => exact absurd hcase hfull
      | saveBacklog => exact absurd hcase hstate
      | filled | search | yieldLiteral =>
          simp only [Phase, hcase] at hphase ⊢
          exact hphase
      | flushBits | done =>
          simp only [Phase, hcase] at hphase ⊢
          exact ⟨trivial, hphase.2⟩
      | yieldTagBit =>
          simp only [Phase, hcase] at hphase ⊢
          exact hphase.imp_right fun hmatch => ⟨hmatch.1.congr rfl rfl rfl rfl, hmatch.2⟩
      | yieldBrIndex | yieldBrLength =>
          simp only [Phase, hcase] at hphase ⊢
          exact ⟨hphase.1.congr rfl rfl rfl rfl, hphase.2⟩
    · have hpending := h.pending hne
      exact ⟨hpending.length_lt, hpending.mark, hpending.byte⟩

theorem follows_reset (old : Encoder) : Follows config indexed [] 0 [] [] old.reset := by
  refine ⟨⟨rfl, Nat.zero_le _, le_rfl, fun i hi => ?_⟩, ?_, fun _ hne => absurd rfl hne,
    fun _ hsearch => hsearch.elim, fun _ => ⟨by decide, rfl, rfl⟩, fun _ => rfl⟩
  · rw [Nat.zero_add]
    exact (byteAt_zero config [] hi).symm
  · exact ⟨rfl, Nat.two_pow_pos _, rfl, Encodes.nil⟩

/-! ## Runs -/

/-- A call of the three that a caller makes between resets. -/
inductive Call where
  | sink (inBuf : List UInt8)
  | poll (bufSize : ℕ)
  | finish

/-- The encoder, the bytes it took and the bytes it wrote. -/
structure Session where
  hse : Encoder
  sunk : List UInt8
  written : List UInt8

variable (config indexed) in
def Session.call (s : Session) : Call → Except Fault Session
  | .sink inBuf =>
      let r := s.hse.sink config inBuf
      .ok ⟨r.2.2, s.sunk ++ inBuf.take r.2.1, s.written⟩
  | .poll bufSize => do
      let r ← s.hse.poll config indexed bufSize
      .ok ⟨r.2.1, s.sunk, s.written ++ r.2.2⟩
  | .finish => .ok ⟨s.hse.finish.2, s.sunk, s.written⟩

variable (config indexed) in
/-- Calls after a reset of any memory. -/
def Session.run (old : Encoder) (calls : List Call) : Except Fault Session :=
  calls.foldlM (Session.call config indexed) ⟨old.reset, [], []⟩

variable (config indexed) in
/-- The invariant of the runs. -/
structure Session.Sound (s : Session) : Prop where
  follows : ∃ base pend, Follows config indexed s.sunk base s.written pend s.hse
  rests : s.hse.state ≠ .saveBacklog

variable (config indexed) in
/-- The only way a run fails. -/
def RunFails (e : Fault) : Prop :=
  e = .counterOverflow ∧ indexed = true ∧ config.windowBits = 14

theorem Overflows.runFails {e : Fault} (h : Overflows config indexed hse e) :
    RunFails config indexed e :=
  ⟨h.1, h.2.1, h.2.2.1⟩

theorem Polled.rests {output : List UInt8} {r : EncoderPollRes × Encoder × List UInt8}
    (h : Polled config indexed bufSize data before hse output r) :
    r.2.1.state ≠ .saveBacklog := by
  intro hstate
  rcases h.reports with ⟨-, -, hsearch⟩ | ⟨-, hfull | hdone | ⟨hflush, -⟩⟩
  · rw [hstate] at hsearch
    exact hsearch
  · exact absurd (hstate.symm.trans hfull) (by decide)
  · exact absurd (hstate.symm.trans hdone) (by decide)
  · exact absurd (hstate.symm.trans hflush) (by decide)

theorem Session.Sound.call (hindexed : indexed = true → config.windowBits ≤ 14) {s : Session}
    (h : s.Sound config indexed) (c : Call) :
    Ensures (s.call config indexed c) (Session.Sound config indexed)
      (RunFails config indexed) := by
  obtain ⟨base, pend, hfollows⟩ := h.follows
  cases c with
  | sink inBuf =>
      obtain ⟨hnext, -, hstate, -⟩ := sink_spec hfollows inBuf
      refine ⟨⟨base, pend, hnext⟩, ?_⟩
      rcases hstate with hsame | hfilled
      · exact fun heq => h.rests (hsame.symm.trans heq)
      · exact fun heq => absurd (hfilled.symm.trans heq) (by decide)
  | poll bufSize =>
      rw [Session.call]
      rcases Nat.eq_zero_or_pos bufSize with rfl | hbuf
      · refine ⟨⟨base, pend, ?_⟩, h.rests⟩
        rw [List.append_nil]
        exact hfollows
      · refine ((poll_spec hindexed hfollows hbuf).mono (fun r hr => hr)
          fun e he => he.runFails).seq fun r hr => ?_
        exact ⟨hr.follows, hr.rests⟩
  | finish =>
      obtain ⟨hnext, -, -, hrests⟩ := finish_spec hfollows h.rests
      exact ⟨⟨base, pend, hnext⟩, hrests⟩

theorem Session.Sound.calls (hindexed : indexed = true → config.windowBits ≤ 14) {s : Session}
    (h : s.Sound config indexed) (calls : List Call) :
    Ensures (calls.foldlM (Session.call config indexed) s) (Session.Sound config indexed)
      (RunFails config indexed) :=
  Ensures.foldlM (fun _ => Session.Sound config indexed) h
    fun _ c _ _ _ ht => ht.call hindexed c

theorem Session.sound_run (hindexed : indexed = true → config.windowBits ≤ 14) (old : Encoder)
    (calls : List Call) :
    Ensures (Session.run config indexed old calls) (Session.Sound config indexed)
      (RunFails config indexed) :=
  Session.Sound.calls hindexed ⟨⟨0, [], follows_reset old⟩, by simp [reset]⟩ calls

theorem Follows.finishing_of_done {written : List UInt8}
    (h : Follows config indexed data base written pend hse)
    (hstate : hse.state = .done ∨ hse.state = .flushBits) : hse.finishing = true := by
  have hphase := h.phase
  rcases hstate with hstate | hstate
  · simp only [Phase, hstate] at hphase
    exact hphase.1
  · simp only [Phase, hstate] at hphase
    exact hphase.1

theorem Follows.not_notFull {written : List UInt8}
    (h : Follows config indexed data base written pend hse) (hfin : hse.finishing = true) :
    hse.state ≠ .notFull := by
  intro hstate
  have hphase := h.phase
  simp only [Phase, hstate] at hphase
  exact absurd (hfin.symm.trans hphase.1) (by decide)

/-- A poll fails exactly if it has to index a full buffer of 2 ^ 15 bytes. -/
theorem poll_fails_iff (hindexed : indexed = true → config.windowBits ≤ 14)
    {written : List UInt8} (h : Follows config indexed data base written pend hse)
    (hbuf : 0 < bufSize) (e : Fault) :
    hse.poll config indexed bufSize = .error e ↔ Overflows config indexed hse e := by
  refine ⟨fun hrun => (poll_spec hindexed h hbuf).of_eq_error hrun, ?_⟩
  rintro ⟨rfl, rfl, hbits, hstate, hsize⟩
  have hend : uint16 ((getInputBufferSize config : ℤ) + hse.inputSize) = 2 ^ 15 := by
    rw [getInputBufferSize, hbits, hsize, uint16]
    omega
  have hindexing : doIndexing hse.buffer (2 ^ 15) hse.searchIndex = .error .counterOverflow :=
    doIndexing_overflows hse.buffer le_rfl hse.searchIndex
  have hstep : hse.step config true bufSize [] = .error .counterOverflow := by
    simp only [step, hstate, if_true, hend, hindexing]
    rfl
  rw [poll, if_neg hbuf.ne', pollLoop, if_neg (by rw [hstate]; decide),
    if_neg (by rw [hstate]; decide), hstep]
  rfl

theorem finish_done_iff (hse : Encoder) : hse.finish.1 = .done ↔ hse.state = .done := by
  have hstate : ∀ s : EncoderState,
      (if (if s = .notFull then .filled else s) = EncoderState.done then EncoderFinishRes.done
        else .more) = .done ↔ s = .done := by
    intro s
    cases s <;> decide
  exact hstate hse.state

/-- What was written always stands for a first part of the sunk bytes, and for all of
them when the encoder is done.  A poll never writes past its buffer; it fills it, or
the next sink takes more, or, after the finish call, the encoder is done. -/
theorem encoder_streams (config : Config) (indexed : Bool) (old : Encoder) (calls : List Call)
    (hindexed : indexed = true → config.windowBits ≤ 14) :
    Ensures (Session.run config indexed old calls)
      (fun s => decode config (bitsOfBytes s.written) <+: s.sunk ∧
        (s.hse.finish.1 = .done → decode config (bitsOfBytes s.written) = s.sunk) ∧
        ∀ bufSize, 0 < bufSize →
          (∀ e, s.hse.poll config indexed bufSize = .error e ↔
            Overflows config indexed s.hse e) ∧
          Ensures (s.hse.poll config indexed bufSize)
            (fun r => r.2.2.length ≤ bufSize ∧
              ((r.1 = .more ∧ r.2.2.length = bufSize) ∨ (r.1 = .empty ∧
                if s.hse.finishing = true then
                  r.2.1.finish.1 = .done ∨ r.2.2.length = bufSize
                else ∀ inBuf, inBuf ≠ [] → 0 < (r.2.1.sink config inBuf).2.1)))
            (fun _ => True))
      (RunFails config indexed) := by
  refine (Session.sound_run hindexed old calls).imp fun s hs => ?_
  obtain ⟨base, pend, hfollows⟩ := hs.follows
  refine ⟨hfollows.decode_prefix, fun hdone => hfollows.decode_done ((finish_done_iff _).mp hdone),
    fun bufSize hbuf => ⟨fun e => poll_fails_iff hindexed hfollows hbuf e, ?_⟩⟩
  refine (poll_spec hindexed hfollows hbuf).mono (fun r hr => ⟨hr.room, ?_⟩) fun _ _ => trivial
  obtain ⟨base', pend', hnext⟩ := hr.follows
  rcases hr.reports with ⟨hmore, hfull, -⟩ | ⟨hempty, hstate⟩
  · exact Or.inl ⟨hmore, hfull⟩
  · refine Or.inr ⟨hempty, ?_⟩
    split_ifs with hfin
    · have hfin' := hr.finishing.trans hfin
      rcases hstate with hfull | hdone | ⟨-, hfull⟩
      · exact absurd hfull (hnext.not_notFull hfin')
      · exact Or.inl ((finish_done_iff _).mpr hdone)
      · exact Or.inr hfull
    · intro inBuf hne
      have hrun : ¬r.2.1.finishing = true := fun htrue => hfin (hr.finishing.symm.trans htrue)
      rcases hstate with hfull | hdone | ⟨hflush, -⟩
      · exact (sink_spec hnext inBuf).2.2.2 hfull hne
      · exact absurd (hnext.finishing_of_done (Or.inl hdone)) hrun
      · exact absurd (hnext.finishing_of_done (Or.inr hflush)) hrun

theorem encoder_streams_byte :
    ∃ s, Session.run ⟨4, 3, by decide, by decide, by decide, by decide⟩ true
        ⟨0, 0, 0, 0, 0, 0, false, .notFull, 0, 0x80, fun _ => 0, fun _ => 0⟩
        [.sink [0x61], .finish, .poll 1] = .ok s ∧
      decode ⟨4, 3, by decide, by decide, by decide, by decide⟩ (bitsOfBytes s.written) <+:
        s.sunk :=
  ((encoder_streams ⟨4, 3, by decide, by decide, by decide, by decide⟩ true
    ⟨0, 0, 0, 0, 0, 0, false, .notFull, 0, 0x80, fun _ => 0, fun _ => 0⟩
    [.sink [0x61], .finish, .poll 1] fun _ => by decide).mono (fun _ hs => hs.1)
      fun _ he => absurd he.2.2 (by decide)).exists_ok

end Encoder

end Xhive.Heatshrink
