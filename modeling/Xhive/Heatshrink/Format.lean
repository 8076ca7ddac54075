import Xhive.Support.BitStrings
import Mathlib.Data.List.GetD

/-!
# The compressed format

A compressed stream is a sequence of fields: a tag bit, then a literal byte, or
the distance and the length of a copy from the bytes already written.  Before
the first byte there are zeros, and a field that is cut off stands for nothing.
-/

namespace Xhive.Heatshrink

open Xhive.Support

/-- The parameters that the constructors accept. -/
structure Config where
  windowBits : ℕ
  lookaheadBits : ℕ
  minWindowBits_le : 4 ≤ windowBits
  le_maxWindowBits : windowBits ≤ 15
  minLookaheadBits_le : 3 ≤ lookaheadBits
  lookaheadBits_lt : lookaheadBits < windowBits

/-! ## Copies -/

/-- The byte `k` places back; there are zeros before the first. -/
def back (hist : List UInt8) (k : ℕ) : UInt8 :=
  hist.reverse.getD (k - 1) 0

theorem back_concat_one (hist : List UInt8) (c : UInt8) : back (hist ++ [c]) 1 = c := by
  simp [back]

theorem back_concat (hist : List UInt8) (c : UInt8) {k : ℕ} (hk : 0 < k) :
    back (hist ++ [c]) (k + 1) = back hist k := by
  obtain ⟨k, rfl⟩ := Nat.exists_eq_succ_of_ne_zero hk.ne'
  simp [back]

/-- The bytes of a copy; it may run into the bytes it writes itself. -/
def copyBack (distance : ℕ) : ℕ → List UInt8 → List UInt8
  | 0, _ => []
  | count + 1, hist =>
      back hist distance :: copyBack distance count (hist ++ [back hist distance])

@[simp] theorem length_copyBack (distance count : ℕ) (hist : List UInt8) :
    (copyBack distance count hist).length = count := by
  induction count generalizing hist with
  | zero => rfl
  | succ count ih => rw [copyBack, List.length_cons, ih]

/-- A copy in two parts. -/
theorem copyBack_add (distance m n : ℕ) (hist : List UInt8) :
    copyBack distance (m + n) hist =
      copyBack distance m hist ++ copyBack distance n (hist ++ copyBack distance m hist) := by
  induction m generalizing hist with
  | zero => rw [Nat.zero_add, copyBack, List.nil_append, List.append_nil]
  | succ m ih =>
      rw [Nat.add_right_comm, copyBack, copyBack, ih, List.cons_append, List.append_assoc,
        List.singleton_append]

/-! ## Decoding -/

theorem length_of_takeField {n v : ℕ} {bits rest : List Bool}
    (h : takeField n bits = some (v, rest)) : rest.length + n = bits.length := by
  rw [takeField] at h
  split at h
  · rw [← (Prod.mk.inj (Option.some.inj h)).2, List.length_drop]
    omega
  · exact absurd h (by simp)

variable (config : Config)

/-- The bytes that a stream of bits stands for after the bytes `hist`. -/
def decodeFrom (hist : List UInt8) (bits : List Bool) : List UInt8 :=
  match bits with
  | [] => []
  | true :: rest =>
      match h : takeField 8 rest with
      | none => []
      | some (byte, rest') =>
          have := length_of_takeField h
          UInt8.ofNat byte :: decodeFrom (hist ++ [UInt8.ofNat byte]) rest'
  | false :: rest =>
      match h : takeField config.windowBits rest with
      | none => []
      | some (index, rest') =>
          match h' : takeField config.lookaheadBits rest' with
          | none => []
          | some (count, rest'') =>
              have := length_of_takeField h
              have := length_of_takeField h'
              let out := copyBack (index + 1) (count + 1) hist
              out ++ decodeFrom (hist ++ out) rest''
termination_by bits.length
decreasing_by all_goals (rw [List.length_cons]; omega)

/-- The bytes of a whole stream. -/
def decode (bits : List Bool) : List UInt8 :=
  decodeFrom config [] bits

/-! ## Parts of a stream

What a stream stands for when its first fields were already read. -/

/-- After the tag of a literal. -/
def decodeLiteral (hist : List UInt8) (bits : List Bool) : List UInt8 :=
  ((takeField 8 bits).elim [] fun x =>
    UInt8.ofNat x.1 :: decodeFrom config (hist ++ [UInt8.ofNat x.1]) x.2)

/-- Within a copy, with `count` bytes to write. -/
def decodeCopy (distance count : ℕ) (hist : List UInt8) (bits : List Bool) : List UInt8 :=
  copyBack distance count hist ++ decodeFrom config (hist ++ copyBack distance count hist) bits

/-- Before the last `n` bits of a length, whose first bits are the number `high`. -/
def decodeCount (distance high n : ℕ) (hist : List UInt8) (bits : List Bool) : List UInt8 :=
  (takeField n bits).elim [] fun x =>
    decodeCopy config distance (high * 2 ^ n + x.1 + 1) hist x.2

/-- Before the last `n` bits of a distance, whose first bits are the number `high`. -/
def decodeIndex (high n : ℕ) (hist : List UInt8) (bits : List Bool) : List UInt8 :=
  (takeField n bits).elim [] fun x =>
    decodeCount config (high * 2 ^ n + x.1 + 1) 0 config.lookaheadBits hist x.2

theorem decodeFrom_nil (hist : List UInt8) : decodeFrom config hist [] = [] := by
  rw [decodeFrom]

theorem decodeFrom_true (hist : List UInt8) (bits : List Bool) :
    decodeFrom config hist (true :: bits) = decodeLiteral config hist bits := by
  rw [decodeFrom, decodeLiteral]
  split
  · rename_i h
    rw [h]
    rfl
  · rename_i h
    dsimp only
    rw [h, Option.elim_some]

theorem decodeFrom_false (hist : List UInt8) (bits : List Bool) :
    decodeFrom config hist (false :: bits) =
      decodeIndex config 0 config.windowBits hist bits := by
  rw [decodeFrom, decodeIndex]
  split
  · rename_i h
    rw [h]
    rfl
  · rename_i index rest h
    have hfields : decodeIndex config 0 config.windowBits hist bits =
        decodeCount config (index + 1) 0 config.lookaheadBits hist rest := by
      rw [decodeIndex, h, Option.elim_some, Nat.zero_mul, Nat.zero_add]
    rw [← decodeIndex, hfields, decodeCount]
    split
    · rename_i h'
      rw [h']
      rfl
    · rename_i h'
      dsimp only
      rw [h', Option.elim_some, decodeCopy, Nat.zero_mul, Nat.zero_add]

/-- A field begins with its tag. -/
theorem decodeFrom_tag (hist : List UInt8) (bits : List Bool) :
    decodeFrom config hist bits =
      (takeField 1 bits).elim [] fun x =>
        if 0 < x.1 then decodeLiteral config hist x.2
        else decodeIndex config 0 config.windowBits hist x.2 := by
  cases bits with
  | nil => exact decodeFrom_nil config hist
  | cons b rest =>
      rw [show b :: rest = [b] ++ rest from rfl, takeField_append (n := 1) rest rfl, Option.elim_some]
      cases b with
      | true => exact decodeFrom_true config hist rest
      | false => exact decodeFrom_false config hist rest

/-- The first bits of a distance are read apart. -/
theorem decodeIndex_add (high m n : ℕ) (hist : List UInt8) (bits : List Bool) :
    decodeIndex config high (m + n) hist bits =
      (takeField m bits).elim [] fun x => decodeIndex config (high * 2 ^ m + x.1) n hist x.2 := by
  rw [decodeIndex, takeField_add]
  cases takeField m bits with
  | none => rfl
  | some x =>
      rw [Option.bind_some, Option.elim_some, decodeIndex]
      cases takeField n x.2 with
      | none => rfl
      | some y =>
          rw [Option.map_some, Option.elim_some, Option.elim_some]
          congr 2
          rw [Nat.pow_add]
          ring

/-- The first bits of a length are read apart. -/
theorem decodeCount_add (distance high m n : ℕ) (hist : List UInt8) (bits : List Bool) :
    decodeCount config distance high (m + n) hist bits =
      (takeField m bits).elim [] fun x =>
        decodeCount config distance (high * 2 ^ m + x.1) n hist x.2 := by
  rw [decodeCount, takeField_add]
  cases takeField m bits with
  | none => rfl
  | some x =>
      rw [Option.bind_some, Option.elim_some, decodeCount]
      cases takeField n x.2 with
      | none => rfl
      | some y =>
          rw [Option.map_some, Option.elim_some, Option.elim_some]
          congr 2
          rw [Nat.pow_add]
          ring

/-- Part of a copy was written. -/
theorem decodeCopy_add (distance m n : ℕ) (hist : List UInt8) (bits : List Bool) :
    decodeCopy config distance (m + n) hist bits =
      copyBack distance m hist ++
        decodeCopy config distance n (hist ++ copyBack distance m hist) bits := by
  rw [decodeCopy, decodeCopy, copyBack_add, List.append_assoc, List.append_assoc]

theorem decodeCopy_zero (distance : ℕ) (hist : List UInt8) (bits : List Bool) :
    decodeCopy config distance 0 hist bits = decodeFrom config hist bits := by
  rw [decodeCopy, copyBack, List.nil_append, List.append_nil]

/-- More bits stand for more bytes. -/
theorem decodeFrom_prefix (hist : List UInt8) (bits extra : List Bool) :
    decodeFrom config hist bits <+: decodeFrom config hist (bits ++ extra) := by
  induction hlength : bits.length using Nat.strong_induction_on generalizing hist bits with
  | _ n ih =>
    cases bits with
    | nil =>
        rw [decodeFrom_nil]
        exact List.nil_prefix
    | cons b rest =>
        rw [List.length_cons] at hlength
        rw [List.cons_append]
        cases b with
        | true =>
            rw [decodeFrom_true, decodeFrom_true, decodeLiteral]
            cases hbyte : takeField 8 rest with
            | none => exact List.nil_prefix
            | some x =>
                have hrest := length_of_takeField hbyte
                rw [decodeLiteral, takeField_extend hbyte, Option.elim_some, Option.elim_some]
                exact List.prefix_cons_inj _ |>.mpr (ih _ (by omega) _ _ rfl)
        | false =>
            rw [decodeFrom_false, decodeFrom_false, decodeIndex]
            cases hindex : takeField config.windowBits rest with
            | none => exact List.nil_prefix
            | some x =>
                have hrest := length_of_takeField hindex
                rw [decodeIndex, takeField_extend hindex, Option.elim_some, Option.elim_some,
                  decodeCount]
                cases hcount : takeField config.lookaheadBits x.2 with
                | none => exact List.nil_prefix
                | some y =>
                    have hrest' := length_of_takeField hcount
                    rw [decodeCount, takeField_extend hcount, Option.elim_some,
                      Option.elim_some, decodeCopy, decodeCopy]
                    exact (List.prefix_append_right_inj _).mpr (ih _ (by omega) _ _ rfl)

/-! ## Writing -/

/-- The fields of a literal. -/
def literalBits (c : UInt8) : List Bool :=
  true :: byteBits c

/-- The fields of a copy. -/
def copyBits (distance count : ℕ) : List Bool :=
  false :: (bitsOf config.windowBits (distance - 1) ++ bitsOf config.lookaheadBits (count - 1))

theorem decodeFrom_literalBits (hist : List UInt8) (c : UInt8) (rest : List Bool) :
    decodeFrom config hist (literalBits c ++ rest) = c :: decodeFrom config (hist ++ [c]) rest := by
  rw [literalBits, List.cons_append, decodeFrom_true, decodeLiteral,
    takeField_append rest (length_byteBits c), Option.elim_some, ofBits_byteBits, UInt8.ofNat_toNat]

theorem decodeFrom_copyBits (hist : List UInt8) {distance count : ℕ} (rest : List Bool)
    (hdistance : 0 < distance) (hdistance' : distance ≤ 2 ^ config.windowBits)
    (hcount : 0 < count) (hcount' : count ≤ 2 ^ config.lookaheadBits) :
    decodeFrom config hist (copyBits config distance count ++ rest) =
      copyBack distance count hist ++
        decodeFrom config (hist ++ copyBack distance count hist) rest := by
  rw [copyBits, List.cons_append, decodeFrom_false, decodeIndex, List.append_assoc,
    takeField_bitsOf (by omega), Option.elim_some, decodeCount, takeField_bitsOf (by omega),
    Option.elim_some, decodeCopy, Nat.zero_mul, Nat.zero_mul, Nat.zero_add, Nat.zero_add,
    Nat.sub_add_cancel hdistance, Nat.sub_add_cancel hcount]

/-- The padding of the last byte stands for nothing. -/
theorem decodeFrom_padding (hist : List UInt8) {k : ℕ} (hk : k < 8) :
    decodeFrom config hist (List.replicate k false) = [] := by
  have hwindow := config.minWindowBits_le
  have hlookahead := config.minLookaheadBits_le
  cases k with
  | zero => exact decodeFrom_nil config hist
  | succ k =>
      rw [List.replicate_succ, decodeFrom_false, decodeIndex, takeField, List.length_replicate]
      split
      · rw [Option.elim_some, decodeCount, takeField_eq_none, Option.elim_none]
        rw [List.drop_replicate, List.length_replicate]
        omega
      · rfl

/-- The bits stand for the bytes, whatever bits follow. -/
def Encodes (bits : List Bool) (bytes : List UInt8) : Prop :=
  ∀ rest, decode config (bits ++ rest) = bytes ++ decodeFrom config bytes rest

variable {config}

theorem Encodes.nil : Encodes config [] [] :=
  fun _ => rfl

theorem Encodes.literal {bits : List Bool} {bytes : List UInt8} (h : Encodes config bits bytes)
    (c : UInt8) : Encodes config (bits ++ literalBits c) (bytes ++ [c]) := by
  intro rest
  rw [List.append_assoc, h, decodeFrom_literalBits, List.append_assoc, List.singleton_append]

theorem Encodes.copy {bits : List Bool} {bytes : List UInt8} (h : Encodes config bits bytes)
    {distance count : ℕ} (hdistance : 0 < distance)
    (hdistance' : distance ≤ 2 ^ config.windowBits) (hcount : 0 < count)
    (hcount' : count ≤ 2 ^ config.lookaheadBits) :
    Encodes config (bits ++ copyBits config distance count)
      (bytes ++ copyBack distance count bytes) := by
  intro rest
  rw [List.append_assoc, h, decodeFrom_copyBits config bytes rest hdistance hdistance' hcount
    hcount', List.append_assoc]

theorem Encodes.decode_eq {bits : List Bool} {bytes : List UInt8}
    (h : Encodes config bits bytes) : decode config bits = bytes := by
  have hnil := h []
  rwa [List.append_nil, decodeFrom_nil, List.append_nil] at hnil

theorem Encodes.decode_padded {bits : List Bool} {bytes : List UInt8}
    (h : Encodes config bits bytes) {k : ℕ} (hk : k < 8) :
    decode config (bits ++ List.replicate k false) = bytes := by
  rw [h, decodeFrom_padding config bytes hk, List.append_nil]

end Xhive.Heatshrink
