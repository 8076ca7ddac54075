import Xhive.Linears.Status
import Xhive.Support.Regroup
import Xhive.Support.Words
import Mathlib.Tactic.NormNum

/-!
# Base64

`base64.c`: the character test, the decoder with its bit buffer, and the encoder
of three bytes at a time.  A pointer to a string is the memory from its address
on; a size is computed modulo the width of `size_t`.
-/

namespace Xhive.Base64

open Xhive.Support Xhive.Linears

/-- The padding character. -/
def equals : UInt8 := 61

/-- `base64_lut`, with the terminator of its string literal. -/
def base64Lut : List UInt8 :=
  [65, 66, 67, 68, 69, 70, 71, 72, 73, 74, 75, 76, 77, 78, 79, 80,
    81, 82, 83, 84, 85, 86, 87, 88, 89, 90, 97, 98, 99, 100, 101, 102,
    103, 104, 105, 106, 107, 108, 109, 110, 111, 112, 113, 114, 115, 116, 117, 118,
    119, 120, 121, 122, 48, 49, 50, 51, 52, 53, 54, 55, 56, 57, 43, 47, 61, 0]

/-- `decode_table`. -/
def decodeTable : List Int8 :=
  [-1, -1, -1, -1, -1, -1, -1, -1, -1, -1, -1, -1, -1, -1, -1, -1,
    -1, -1, -1, -1, -1, -1, -1, -1, -1, -1, -1, -1, -1, -1, -1, -1,
    -1, -1, -1, -1, -1, -1, -1, -1, -1, -1, -1, 62, -1, -1, -1, 63,
    52, 53, 54, 55, 56, 57, 58, 59, 60, 61, -1, -1, -1, -1, -1, -1,
    -1, 0, 1, 2, 3, 4, 5, 6, 7, 8, 9, 10, 11, 12, 13, 14,
    15, 16, 17, 18, 19, 20, 21, 22, 23, 24, 25, -1, -1, -1, -1, -1,
    -1, 26, 27, 28, 29, 30, 31, 32, 33, 34, 35, 36, 37, 38, 39, 40,
    41, 42, 43, 44, 45, 46, 47, 48, 49, 50, 51, -1, -1, -1, -1, -1,
    -1, -1, -1, -1, -1, -1, -1, -1, -1, -1, -1, -1, -1, -1, -1, -1,
    -1, -1, -1, -1, -1, -1, -1, -1, -1, -1, -1, -1, -1, -1, -1, -1,
    -1, -1, -1, -1, -1, -1, -1, -1, -1, -1, -1, -1, -1, -1, -1, -1,
    -1, -1, -1, -1, -1, -1, -1, -1, -1, -1, -1, -1, -1, -1, -1, -1,
    -1, -1, -1, -1, -1, -1, -1, -1, -1, -1, -1, -1, -1, -1, -1, -1,
    -1, -1, -1, -1, -1, -1, -1, -1, -1, -1, -1, -1, -1, -1, -1, -1,
    -1, -1, -1, -1, -1, -1, -1, -1, -1, -1, -1, -1, -1, -1, -1, -1,
    -1, -1, -1, -1, -1, -1, -1, -1, -1, -1, -1, -1, -1, -1, -1, -1]

def base64CharDecode (c : UInt8) : Int8 :=
  decodeTable.getD c.toNat (-1)

/-- Every character is found by `memchr` over the whole array. -/
def isBase64 (str : Option (List UInt8)) : Bool :=
  match str with
  | none => false
  | some chars => !chars.isEmpty && chars.all (base64Lut.contains ·)

/-! ## Decoding -/

/-- The characters before the terminator. -/
def cString (memory : List UInt8) : List UInt8 :=
  memory.takeWhile (· ≠ 0)

/-- The `=` among the last two characters. -/
def base64Padding (text : List UInt8) : ℕ :=
  (if text.length > 0 ∧ text.getD (text.length - 1) 0 = equals then 1 else 0) +
    (if text.length > 1 ∧ text.getD (text.length - 2) 0 = equals then 1 else 0)

def base64OutputLen (wide : Bool) (text : List UInt8) : ℕ :=
  sizeT wide ((sizeT wide (text.length * 3) / 4 : ℕ) - base64Padding text)

/-- The bit buffer, which is never masked, and the bytes stored so far. -/
structure Decoder where
  buffer : UInt32
  bufferBits : ℕ
  out : List UInt8

def Decoder.push (s : Decoder) (value : Int8) : Decoder :=
  let buffer := (s.buffer <<< 6) ||| value.toInt32.toUInt32
  let bits := s.bufferBits + 6
  if bits ≥ 8 then
    ⟨buffer, bits - 8, s.out ++ [((buffer >>> UInt32.ofNat (bits - 8)) &&& 0xFF).toUInt8]⟩
  else ⟨buffer, bits, s.out⟩

/-- The loop stops at the first `=` and skips other characters. -/
def decodeLoop : List UInt8 → Decoder → Decoder
  | [], s => s
  | c :: rest, s =>
      if c = equals then s
      else if base64CharDecode c = -1 then decodeLoop rest s
      else decodeLoop rest (s.push (base64CharDecode c))

/-- The returned size and the bytes stored, in order, when there is an output. -/
def base64Decode (wide : Bool) (base64 : Option (List UInt8)) (output : Bool) : ℕ × List UInt8 :=
  match base64 with
  | none => (0, [])
  | some memory =>
      if (cString memory).length = 0 then (0, [])
      else if !output then (base64OutputLen wide (cString memory), [])
      else
        let out := (decodeLoop (cString memory) ⟨0, 0, []⟩).out
        (out.length, out)

/-! ## Encoding -/

/-- `bytes_to_process` of the group at `i`. -/
def groupSize (data : List UInt8) (i : ℕ) : ℕ :=
  if data.length - i ≥ 3 then 3 else data.length - i

def pack (buffer : UInt32) (byte : UInt8) : UInt32 :=
  (buffer <<< 8) ||| byte.toUInt32

/-- The bytes of a group, padded to 24 bits. -/
def groupBuffer (data : List UInt8) (i : ℕ) : UInt32 :=
  let packed := (List.range (groupSize data i)).foldl
    (fun buffer j => pack buffer (data.getD (i + j) 0)) 0
  (List.range (3 - groupSize data i)).foldl (fun buffer _ => buffer <<< 8) packed

/-- The character of place `j` in a group. -/
def groupChar (data : List UInt8) (i j : ℕ) : UInt8 :=
  if j < groupSize data i + 1 then
    base64Lut.getD ((groupBuffer data i >>> UInt32.ofNat (18 - j * 6)) &&& 0x3F).toNat 0
  else equals

/-- The cells a group writes; the loop breaks at the end of the output. -/
def groupWrites (data : List UInt8) (outputLen i : ℕ) : List (ℕ × UInt8) :=
  ((List.range 4).map fun j => (i / 3 * 4 + j, groupChar data i j)).takeWhile
    fun write => write.1 < outputLen

def base64EncodedLen (wide : Bool) (len : ℕ) : ℕ :=
  sizeT wide (sizeT wide (len + 2) / 3 * 4 : ℕ)

/-- The returned size and the cells written, in order, when there is an output. -/
def base64Encode (wide : Bool) (data : Option (List UInt8)) (output : Bool) :
    ℕ × List (ℕ × UInt8) :=
  match data with
  | none => (0, [])
  | some bytes =>
      if bytes.length = 0 then (0, [])
      else if !output then (base64EncodedLen wide bytes.length, [])
      else
        (base64EncodedLen wide bytes.length,
          (List.range ((bytes.length + 2) / 3)).flatMap fun k =>
            groupWrites bytes (base64EncodedLen wide bytes.length) (3 * k))

/-!
## What the decoder stores

The bit buffer holds the pending bits of a stream of six-bit digits, so the
decoder stores one byte for every eight bits of the characters it reads.
-/

/-! ## The bit buffer -/

/-- The six bits of a character. -/
def digit (c : UInt8) : ℕ :=
  (base64CharDecode c).toInt32.toUInt32.toNat

theorem digit_lt {c : UInt8} (h : base64CharDecode c ≠ -1) : digit c < 2 ^ 6 := by
  have htable : ∀ x ∈ decodeTable, x ≠ -1 → x.toInt32.toUInt32.toNat < 2 ^ 6 := by
    decide +kernel
  have hmem : base64CharDecode c ∈ decodeTable := by
    have hlength : c.toNat < decodeTable.length := by
      rw [show decodeTable.length = 2 ^ 8 by decide +kernel]
      exact c.toNat_lt
    rw [base64CharDecode, List.getD_eq_getElem _ _ hlength]
    exact List.getElem_mem hlength
  exact htable _ hmem h

/-- The pending bits and the stored bytes, as numbers. -/
def Decoder.view (s : Decoder) : Regrouped :=
  ⟨s.out.map UInt8.toNat, s.buffer.toNat % 2 ^ s.bufferBits, s.bufferBits⟩

/-- Bits shifted out of the word are older than the pending ones. -/
theorem toNat_shift_or (buffer : UInt32) {value : UInt32} (hvalue : value.toNat < 2 ^ 6) :
    ((buffer <<< 6) ||| value).toNat = buffer.toNat % 2 ^ 26 * 2 ^ 6 + value.toNat := by
  have hshift : (buffer <<< 6).toNat = buffer.toNat % 2 ^ 26 * 2 ^ 6 := by
    rw [UInt32.toNat_shiftLeft, Nat.shiftLeft_eq]
    change buffer.toNat * 2 ^ 6 % 2 ^ 32 = _
    omega
  rw [UInt32.toNat_or, hshift, mul_two_pow_lor _ hvalue]

/-- The pending bits with six more. -/
theorem shifted_mod (buffer : ℕ) {value bits : ℕ} (hbits : bits ≤ 26) (hvalue : value < 2 ^ 6) :
    (buffer % 2 ^ 26 * 2 ^ 6 + value) % 2 ^ (bits + 6) = buffer % 2 ^ bits * 2 ^ 6 + value := by
  have hlow : (buffer % 2 ^ 26 * 2 ^ 6 + value) % 2 ^ 6 = value := by
    rw [Nat.mul_add_mod_self_right, Nat.mod_eq_of_lt hvalue]
  have hhigh : (buffer % 2 ^ 26 * 2 ^ 6 + value) / 2 ^ 6 = buffer % 2 ^ 26 := by
    rw [Nat.mul_comm, Nat.mul_add_div (by norm_num), Nat.div_eq_of_lt hvalue, Nat.add_zero]
  rw [Nat.add_comm bits, pow_add, Nat.mod_mul, hlow, hhigh,
    Nat.mod_mod_of_dvd _ (pow_dvd_pow 2 hbits), Nat.add_comm, Nat.mul_comm]

/-- The byte above `m` pending bits. -/
theorem toNat_byte (word : UInt32) {m : ℕ} (hm : m < 32) :
    ((word >>> UInt32.ofNat m) &&& 0xFF).toUInt8.toNat = word.toNat % 2 ^ (m + 8) / 2 ^ m := by
  have hshift : (UInt32.ofNat m).toNat % 32 = m := by
    rw [UInt32.toNat_ofNat', Nat.mod_eq_of_lt (hm.trans (by norm_num)), Nat.mod_eq_of_lt hm]
  rw [UInt32.toNat_toUInt8, UInt32.toNat_and, UInt32.toNat_shiftRight, hshift,
    Nat.shiftRight_eq_div_pow]
  change (_ &&& (2 ^ 8 - 1)) % 2 ^ 8 = _
  rw [Nat.and_two_pow_sub_one_eq_mod, Nat.mod_mod, pow_add, Nat.mod_mul_right_div_self]

/-- Reading a character moves the view as the regrouping does. -/
theorem view_push {s : Decoder} {value : Int8} (hbits : s.bufferBits < 8)
    (hvalue : value.toInt32.toUInt32.toNat < 2 ^ 6) :
    (s.push value).view = s.view.push 6 8 value.toInt32.toUInt32.toNat := by
  have hword := toNat_shift_or s.buffer hvalue
  have hpending := shifted_mod s.buffer.toNat (show s.bufferBits ≤ 26 by omega) hvalue
  rw [← hword] at hpending
  rw [Decoder.push, Regrouped.push]
  by_cases hready : 8 ≤ s.bufferBits + 6
  · have hsplit : s.bufferBits + 6 = s.bufferBits + 6 - 8 + 8 := by omega
    have hbyte := toNat_byte ((s.buffer <<< 6) ||| value.toInt32.toUInt32)
      (show s.bufferBits + 6 - 8 < 32 by omega)
    have hrest := Nat.mod_mod_of_dvd ((s.buffer <<< 6) ||| value.toInt32.toUInt32).toNat
      (pow_dvd_pow 2 (show s.bufferBits + 6 - 8 ≤ s.bufferBits + 6 by omega))
    rw [← hsplit] at hbyte
    rw [hpending] at hbyte hrest
    rw [if_pos hready, if_pos (show 8 ≤ s.view.bits + 6 from hready)]
    simp only [Decoder.view, List.map_append, List.map_cons, List.map_nil, hbyte, hrest]
  · rw [if_neg hready, if_neg (show ¬8 ≤ s.view.bits + 6 from hready)]
    simp only [Decoder.view, hpending]

/-! ## The loop -/

/-- The characters that the loop reads. -/
def decodable (text : List UInt8) : List UInt8 :=
  (text.takeWhile (· ≠ equals)).filter (base64CharDecode · ≠ -1)

theorem decodeLoop_eq (text : List UInt8) (s : Decoder) :
    decodeLoop text s = (decodable text).foldl (fun s c => s.push (base64CharDecode c)) s := by
  induction text generalizing s with
  | nil => rfl
  | cons c rest ih =>
      rw [decodeLoop]
      by_cases hequals : c = equals
      · simp [decodable, hequals]
      · by_cases hvalid : base64CharDecode c = -1
        · rw [if_neg hequals, if_pos hvalid, ih]
          simp [decodable, hequals, hvalid]
        · rw [if_neg hequals, if_neg hvalid, ih]
          simp [decodable, hequals, hvalid]

theorem digit_decodable (text : List UInt8) : ∀ d ∈ (decodable text).map digit, d < 2 ^ 6 := by
  intro d hd
  obtain ⟨c, hc, rfl⟩ := List.mem_map.mp hd
  exact digit_lt (of_decide_eq_true (List.mem_filter.mp hc).2)

/-- The decoder regroups the digits of its characters. -/
theorem view_decodeLoop (text : List UInt8) :
    (decodeLoop text ⟨0, 0, []⟩).view = Regrouped.run 6 8 ((decodable text).map digit) := by
  rw [decodeLoop_eq]
  have hdigits := digit_decodable text
  generalize decodable text = chars at hdigits
  induction chars using List.reverseRecOn with
  | nil => rfl
  | append_singleton chars c ih =>
      rw [List.map_append, List.map_singleton] at hdigits ⊢
      have hbefore : ∀ d ∈ chars.map digit, d < 2 ^ 6 :=
        fun d hd => hdigits d (List.mem_append_left _ hd)
      have hlast : digit c < 2 ^ 6 :=
        hdigits _ (List.mem_append_right _ (List.mem_singleton_self _))
      have hview := ih hbefore
      have hheld := Regrouped.run_holds (a := 6) (b := 8) (by norm_num) (by norm_num) hbefore
      rw [← hview] at hheld
      rw [List.foldl_append, Regrouped.run_append, ← hview]
      exact view_push hheld.rest hlast

/-- A byte is stored for every eight bits read. -/
theorem length_decodeLoop (text : List UInt8) :
    (decodeLoop text ⟨0, 0, []⟩).out.length = 6 * (decodable text).length / 8 := by
  have hheld := Regrouped.run_holds (a := 6) (b := 8) (by norm_num) (by norm_num)
    (digit_decodable text)
  have hlength := Regrouped.length_out hheld
  rw [← view_decodeLoop, List.length_map] at hlength
  rw [← hlength, Decoder.view, List.length_map]

end Xhive.Base64
