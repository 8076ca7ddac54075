import Xhive.Base64.SizeQuery

/-!
# What the character tests let through

The library tests against its table, the native module against ranges of
characters, and the decoder reads a third table.  They agree on all characters
but three: the ranges contain the URL-safe `-` and `_`, and the search through
the table finds its terminator.
-/

namespace Xhive.Base64

open Xhive.Support Xhive.Linears

/-! ## The native module -/

def isValidString (str : Option (List UInt8)) : Bool :=
  match str with
  | none => false
  | some chars => 0 < chars.length

/-- The characters that the loop of the validator passes over. -/
def isBase64Char (c : UInt8) : Bool :=
  (65 ≤ c && c ≤ 90) || (97 ≤ c && c ≤ 122) || (48 ≤ c && c ≤ 57) ||
    c == 43 || c == 47 || c == 45 || c == 95

/-- The loop; from the first `=` on all characters are `=`. -/
def validChars : List UInt8 → Bool
  | [] => true
  | c :: rest =>
      if isBase64Char c then validChars rest
      else if c = equals then (c :: rest).all (· = equals)
      else false

/-- The `=` counted from the last character down.  The counter `i` is unsigned, so
the loop also reads the memory below the string. -/
def paddingCount (below chars : List UInt8) : ℕ :=
  ((chars.reverse ++ below).takeWhile (· = equals)).length

def isValidBase64String (below : List UInt8) (str : Option (List UInt8)) : Bool :=
  match str with
  | none => false
  | some chars =>
      if !isValidString (some chars) then false
      else if !validChars chars then false
      else if chars.length < 4 then false
      else if paddingCount below chars > 2 then false
      else true

/-! ## The three alphabets -/

/-- The characters before the first `=`. -/
def beforePadding (chars : List UInt8) : List UInt8 :=
  chars.takeWhile (· ≠ equals)

theorem forall_byte {p : UInt8 → Prop} (h : ∀ n < 2 ^ 8, p (UInt8.ofNat n)) (c : UInt8) : p c := by
  have hc := h c.toNat c.toNat_lt
  rwa [UInt8.ofNat_toNat] at hc

/-- The table of the library has the digits, the padding and the terminator. -/
theorem lut_contains_iff (c : UInt8) :
    base64Lut.contains c = true ↔ base64CharDecode c ≠ -1 ∨ c = equals ∨ c = 0 :=
  forall_byte (p := fun c => base64Lut.contains c = true ↔
    base64CharDecode c ≠ -1 ∨ c = equals ∨ c = 0) (by decide +kernel) c

/-- The ranges of the native module have the digits and two characters more. -/
theorem isBase64Char_iff (c : UInt8) :
    isBase64Char c = true ↔ base64CharDecode c ≠ -1 ∨ c = 45 ∨ c = 95 :=
  forall_byte (p := fun c => isBase64Char c = true ↔
    base64CharDecode c ≠ -1 ∨ c = 45 ∨ c = 95) (by decide +kernel) c

theorem base64CharDecode_stray {c : UInt8} (h : c = 45 ∨ c = 95 ∨ c = 0) :
    base64CharDecode c = -1 := by
  rcases h with rfl | rfl | rfl <;> decide

/-! ## Accepted strings -/

theorem isBase64_chars {chars : List UInt8} (h : isBase64 (some chars) = true) :
    ∀ c ∈ beforePadding chars, base64CharDecode c ≠ -1 ∨ c = 0 := by
  rw [isBase64, Bool.and_eq_true, List.all_eq_true] at h
  intro c hc
  have hequals : c ≠ equals := by
    simpa using List.mem_takeWhile_imp hc
  obtain hdigit | hpadding | hzero :=
    (lut_contains_iff c).mp (h.2 c ((List.takeWhile_sublist _).subset hc))
  · exact .inl hdigit
  · exact absurd hpadding hequals
  · exact .inr hzero

theorem validChars_chars {chars : List UInt8} (h : validChars chars = true) :
    ∀ c ∈ beforePadding chars, isBase64Char c = true := by
  induction chars with
  | nil => simp [beforePadding]
  | cons c rest ih =>
      rw [validChars] at h
      by_cases hequals : c = equals
      · simp [beforePadding, hequals]
      · by_cases hchar : isBase64Char c = true
        · rw [if_pos hchar] at h
          simpa [beforePadding, hequals, hchar] using ih h
        · simp [hchar, hequals] at h

theorem isValidBase64String_chars {below chars : List UInt8}
    (h : isValidBase64String below (some chars) = true) :
    ∀ c ∈ beforePadding chars, base64CharDecode c ≠ -1 ∨ c = 45 ∨ c = 95 := by
  have hvalid : validChars chars = true := by
    by_contra hinvalid
    simp [isValidBase64String, hinvalid] at h
  exact fun c hc => (isBase64Char_iff c).mp (validChars_chars hvalid c hc)

/-- One of the two tests lets the string through. -/
def Accepted (below chars : List UInt8) : Prop :=
  isBase64 (some chars) = true ∨ isValidBase64String below (some chars) = true

theorem Accepted.chars {below chars : List UInt8} (h : Accepted below chars) :
    ∀ c ∈ beforePadding chars, base64CharDecode c ≠ -1 ∨ c = 45 ∨ c = 95 ∨ c = 0 := by
  intro c hc
  obtain htable | hranges := h
  · exact (isBase64_chars htable c hc).imp_right fun hzero => .inr (.inr hzero)
  · obtain hdigit | hdash | hunder := isValidBase64String_chars hranges c hc
    · exact .inl hdigit
    · exact .inr (.inl hdash)
    · exact .inr (.inr (.inl hunder))

/-! ## Strings decoded whole -/

/-- The decoder reads all characters before the first `=`, so it stores a byte for
every eight of their bits. -/
structure DecodesWhole (wide : Bool) (chars : List UInt8) : Prop where
  read : decodable (cString chars) = beforePadding chars
  written : (base64Decode wide (some chars) true).1 = 6 * (beforePadding chars).length / 8

theorem base64Decode_written (wide : Bool) (chars : List UInt8) :
    (base64Decode wide (some chars) true).1 = 6 * (decodable (cString chars)).length / 8 := by
  rw [base64Decode]
  split
  · next hempty =>
      rw [List.length_eq_zero_iff.mp hempty]
      rfl
  · exact length_decodeLoop _

/-- A terminator after the first `=` cuts off nothing before it. -/
theorem beforePadding_cString {chars : List UInt8} (h : 0 ∉ beforePadding chars) :
    beforePadding (cString chars) = beforePadding chars := by
  induction chars with
  | nil => rfl
  | cons c rest ih =>
      by_cases hequals : c = equals
      · have hzero : equals ≠ 0 := by decide
        simp [beforePadding, cString, hequals, hzero]
      · simp only [beforePadding, cString] at h ih ⊢
        rw [List.takeWhile_cons_of_pos (by simpa using hequals), List.mem_cons, not_or] at h
        have hzero : decide (c ≠ 0) = true := decide_eq_true fun heq => h.1 heq.symm
        rw [List.takeWhile_cons (p := fun x => decide (x ≠ 0)), if_pos hzero,
          List.takeWhile_cons_of_pos (by simpa using hequals),
          List.takeWhile_cons_of_pos (by simpa using hequals), ih h.2]

/-- An accepted string is decoded whole unless one of the three characters comes
before its first `=`. -/
theorem decodesWhole_iff (wide : Bool) {below chars : List UInt8} (h : Accepted below chars) :
    DecodesWhole wide chars ↔ ∀ c ∈ beforePadding chars, c ≠ 45 ∧ c ≠ 95 ∧ c ≠ 0 := by
  constructor
  · rintro ⟨hread, -⟩ c hc
    rw [← hread] at hc
    have hdigit : base64CharDecode c ≠ -1 := of_decide_eq_true (List.mem_filter.mp hc).2
    refine ⟨fun hdash => ?_, fun hunder => ?_, fun hzero => ?_⟩
    · exact hdigit (base64CharDecode_stray (.inl hdash))
    · exact hdigit (base64CharDecode_stray (.inr (.inl hunder)))
    · exact hdigit (base64CharDecode_stray (.inr (.inr hzero)))
  · intro hclean
    have hdigits : ∀ c ∈ beforePadding chars, base64CharDecode c ≠ -1 := by
      intro c hc
      obtain ⟨hdash, hunder, hzero⟩ := hclean c hc
      simpa [hdash, hunder, hzero] using h.chars c hc
    have hread : decodable (cString chars) = beforePadding chars := by
      have hcut := beforePadding_cString fun hzero => (hclean 0 hzero).2.2 rfl
      change (beforePadding (cString chars)).filter _ = _
      rw [hcut, List.filter_eq_self.mpr fun c hc => decide_eq_true (hdigits c hc)]
    exact ⟨hread, by rw [base64Decode_written, hread]⟩

theorem decodesWhole_abcd : DecodesWhole true [65, 66, 67, 68] := by
  have haccepted : Accepted [] [65, 66, 67, 68] := .inl (by decide)
  exact (decodesWhole_iff true haccepted).mpr (by decide +kernel)

/-- `ab-_` is valid and only its first byte is stored; the bytes of `A`, a
terminator and `AA` pass the test of the library and nothing is stored. -/
theorem decodes_part :
    (isValidBase64String [] (some [97, 98, 45, 95]) = true ∧
      (base64Decode true (some [97, 98, 45, 95]) true).1 = 1) ∧
    (isBase64 (some [65, 0, 65, 65]) = true ∧
      (base64Decode true (some [65, 0, 65, 65]) true).1 = 0) ∧
    ¬∀ (wide : Bool) (below chars : List UInt8), Accepted below chars →
      (base64Decode wide (some chars) true).1 = 6 * (beforePadding chars).length / 8 := by
  have hvalid : isValidBase64String [] (some [97, 98, 45, 95]) = true := by decide
  have hwritten : (base64Decode true (some [97, 98, 45, 95]) true).1 = 1 := by
    decide +kernel
  refine ⟨⟨hvalid, hwritten⟩, ⟨by decide, by decide +kernel⟩, fun hclaim => ?_⟩
  have hthree := hclaim true [] [97, 98, 45, 95] (.inr hvalid)
  rw [hwritten] at hthree
  exact absurd hthree (by decide)

end Xhive.Base64
