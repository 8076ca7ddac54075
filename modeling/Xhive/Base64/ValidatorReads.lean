import Xhive.Base64.Validation
import Xhive.Support.Outcome

/-!
# The reads of the native validator

`is_valid_base64_string` counts the padding with an unsigned index that runs down.
The test `i >= 0` never ends that loop, so only a character that is not `=` does.
-/

namespace Xhive.Base64

open Xhive.Support Xhive.Linears

/-! ## The validator with checked reads -/

inductive ScanFault where
  | outOfBounds (index : ℕ)
  | unfinished
  deriving DecidableEq

/-- `str[i]`. -/
def charAt (chars : List UInt8) (i : ℕ) : Except ScanFault UInt8 :=
  chars[i]?.elim (.error (.outOfBounds i)) .ok

/-- The inner loop, over the `count` characters from `j` on. -/
def scanPadding (chars : List UInt8) : ℕ → ℕ → Except ScanFault Bool
  | 0, _ => .ok true
  | count + 1, j => do
      let c ← charAt chars j
      if c ≠ equals then .ok false else scanPadding chars count (j + 1)

/-- The outer loop, over the `count` characters from `i` on. -/
def scanChars (chars : List UInt8) : ℕ → ℕ → Except ScanFault Bool
  | 0, _ => .ok true
  | count + 1, i => do
      let c ← charAt chars i
      if isBase64Char c then scanChars chars count (i + 1)
      else if c = equals then scanPadding chars (count + 1) i
      else .ok false

/-- The backward loop, from index `i` on. -/
def countPadding (wide : Bool) (chars : List UInt8) : ℕ → ℕ → ℕ → Except ScanFault ℕ
  | 0, _, _ => .error .unfinished
  | fuel + 1, i, paddingCount => do
      let c ← charAt chars i
      if c = equals then
        countPadding wide chars fuel (if i = 0 then sizeMax wide else i - 1) (paddingCount + 1)
      else .ok paddingCount

def scanBase64String (wide : Bool) (str : Option (List UInt8)) : Except ScanFault Bool :=
  match str with
  | none => .ok false
  | some chars => do
      if !isValidString (some chars) then .ok false
      else
        let valid ← scanChars chars chars.length 0
        if !valid then .ok false
        else if chars.length < 4 then .ok false
        else
          let paddingCount ← countPadding wide chars (chars.length + 1) (chars.length - 1) 0
          .ok (!decide (2 < paddingCount))

/-! ## The forward loops -/

theorem charAt_drop {chars rest : List UInt8} {c : UInt8} {i : ℕ} (h : chars.drop i = c :: rest) :
    charAt chars i = .ok c ∧ chars.drop (i + 1) = rest := by
  have hget : chars[i]? = some c := by
    rw [← List.head?_drop, h, List.head?_cons]
  have hrest : chars.drop (i + 1) = (chars.drop i).drop 1 := by
    rw [List.drop_drop]
  rw [charAt, hget, hrest, h]
  exact ⟨rfl, rfl⟩

theorem scanPadding_eq {chars rest : List UInt8} {i : ℕ} (h : chars.drop i = rest) :
    scanPadding chars rest.length i = .ok (rest.all (· = equals)) := by
  induction rest generalizing i with
  | nil => rfl
  | cons c rest ih =>
      obtain ⟨hchar, hrest⟩ := charAt_drop h
      rw [List.length_cons, scanPadding, hchar, ok_bind, ih hrest, List.all_cons]
      by_cases hequals : c = equals <;> simp [hequals]

theorem scanChars_eq {chars rest : List UInt8} {i : ℕ} (h : chars.drop i = rest) :
    scanChars chars rest.length i = .ok (validChars rest) := by
  induction rest generalizing i with
  | nil => rfl
  | cons c rest ih =>
      obtain ⟨hchar, hrest⟩ := charAt_drop h
      have hpadding := scanPadding_eq h
      rw [List.length_cons] at hpadding ⊢
      rw [scanChars, hchar, ok_bind, ih hrest, hpadding, validChars]
      split_ifs <;> rfl

/-! ## The backward loop -/

/-- The padding at the end of a list. -/
def trailing (chars : List UInt8) : List UInt8 := chars.reverse.takeWhile (· = equals)

theorem trailing_concat (chars : List UInt8) (c : UInt8) :
    trailing (chars ++ [c]) = if c = equals then c :: trailing chars else [] := by
  rw [trailing, List.reverse_append, List.reverse_singleton, List.singleton_append,
    List.takeWhile_cons, trailing]
  simp only [decide_eq_true_eq]

/-- The loop ends above index 0, or it leaves the string. -/
theorem countPadding_eq {wide : Bool} {chars : List UInt8} (hsize : chars.length ≤ sizeMax wide)
    {fuel i : ℕ} (hi : i < chars.length) (hfuel : i + 2 ≤ fuel) (paddingCount : ℕ) :
    countPadding wide chars fuel i paddingCount =
      if (chars.take (i + 1)).all (· = equals) then .error (.outOfBounds (sizeMax wide))
      else .ok (paddingCount + (trailing (chars.take (i + 1))).length) := by
  have hchar : ∀ j (hj : j < chars.length), charAt chars j = .ok (chars.get ⟨j, hj⟩) := by
    intro j hj
    rw [charAt, List.getElem?_eq_getElem hj]
    rfl
  have hbeyond : charAt chars (sizeMax wide) = .error (.outOfBounds (sizeMax wide)) := by
    rw [charAt, List.getElem?_eq_none hsize]
    rfl
  induction i generalizing fuel paddingCount with
  | zero =>
      obtain ⟨fuel, rfl⟩ := Nat.exists_eq_add_of_le' hfuel
      have htake : chars.take 1 = [chars.get ⟨0, hi⟩] := by
        obtain ⟨c, rest, rfl⟩ := List.exists_cons_of_length_pos hi
        rfl
      rw [countPadding, hchar 0 hi, ok_bind, htake, ← List.nil_append [chars.get ⟨0, hi⟩],
        trailing_concat]
      by_cases hequals : chars.get ⟨0, hi⟩ = equals
      · rw [if_pos hequals, if_pos rfl, countPadding, hbeyond]
        simp only [List.get_eq_getElem] at hequals
        simp [hequals, error_bind]
      · rw [if_neg hequals, if_neg hequals]
        simp only [List.get_eq_getElem] at hequals
        simp [hequals]
  | succ i ih =>
      obtain ⟨fuel, rfl⟩ := Nat.exists_eq_add_of_le' (show 1 ≤ fuel by omega)
      have htake : chars.take (i + 1 + 1) = chars.take (i + 1) ++ [chars.get ⟨i + 1, hi⟩] := by
        simp
      rw [countPadding, hchar (i + 1) hi, ok_bind, htake, trailing_concat, List.all_append]
      by_cases hequals : chars.get ⟨i + 1, hi⟩ = equals
      · rw [if_pos hequals, if_pos hequals, if_neg (Nat.succ_ne_zero i), Nat.add_sub_cancel,
          ih (by omega) (by omega)]
        simp only [List.all_cons, List.all_nil, hequals, decide_true, Bool.and_true,
          List.length_cons]
        split_ifs
        · rfl
        · rw [Nat.add_assoc, Nat.add_comm 1]
      · rw [if_neg hequals, if_neg hequals]
        simp only [List.all_cons, List.all_nil, hequals, decide_false, Bool.false_and,
          Bool.and_false, Bool.false_eq_true, if_false, List.length_nil, Nat.add_zero]

/-! ## Accepted strings -/

/-- `[A-Za-z0-9+/_-]`. -/
def InAlphabet (c : UInt8) : Prop :=
  (65 ≤ c ∧ c ≤ 90) ∨ (97 ≤ c ∧ c ≤ 122) ∨ (48 ≤ c ∧ c ≤ 57) ∨ c = 43 ∨ c = 47 ∨ c = 95 ∨ c = 45

theorem isBase64Char_eq_true (c : UInt8) : isBase64Char c = true ↔ InAlphabet c := by
  simp only [isBase64Char, InAlphabet, Bool.or_eq_true, Bool.and_eq_true, decide_eq_true_eq,
    beq_iff_eq, or_assoc]
  rw [@or_comm (c = 45)]

/-- The characters from the first `=` on. -/
def fromPadding (chars : List UInt8) : List UInt8 := chars.dropWhile (· ≠ equals)

structure WellFormed (chars : List UInt8) : Prop where
  length : 4 ≤ chars.length
  letters : ∀ c ∈ beforePadding chars, InAlphabet c
  padding : ∀ c ∈ fromPadding chars, c = equals
  padding_le : chars.count equals ≤ 2

theorem validChars_iff {chars : List UInt8} :
    validChars chars = true ↔
      (∀ c ∈ beforePadding chars, InAlphabet c) ∧ ∀ c ∈ fromPadding chars, c = equals := by
  induction chars with
  | nil => simp [validChars, beforePadding, fromPadding]
  | cons c rest ih =>
      rw [validChars]
      by_cases hequals : c = equals
      · have hchar : isBase64Char equals = false := by decide
        simp [hequals, hchar, beforePadding, fromPadding]
      · have hbefore : beforePadding (c :: rest) = c :: beforePadding rest := by
          simp [beforePadding, hequals]
        have hafter : fromPadding (c :: rest) = fromPadding rest := by
          simp [fromPadding, hequals]
        rw [hbefore, hafter, List.forall_mem_cons, ← isBase64Char_eq_true c]
        by_cases hchar : isBase64Char c = true
        · rw [if_pos hchar, ih]
          simp [hchar]
        · rw [if_neg hchar, if_neg hequals]
          simp [hchar]

theorem trailing_length {chars : List UInt8} (h : ∀ c ∈ fromPadding chars, c = equals) :
    (trailing chars).length = chars.count equals := by
  have hsplit : chars = beforePadding chars ++ fromPadding chars :=
    (List.takeWhile_append_dropWhile (p := fun c => decide (c ≠ equals)) (l := chars)).symm
  have hbefore : ∀ c ∈ beforePadding chars, c ≠ equals := by
    intro c hc
    simpa using List.mem_takeWhile_imp hc
  have hcount : (beforePadding chars).count equals = 0 :=
    List.count_eq_zero.mpr fun hmem => hbefore _ hmem rfl
  have hnone : (beforePadding chars).reverse.takeWhile (· = equals) = [] := by
    rw [List.takeWhile_eq_nil_iff]
    intro hlt
    have hmem := List.mem_reverse.mp (List.getElem_mem hlt)
    simpa using hbefore _ hmem
  have hall : ∀ c ∈ (fromPadding chars).reverse, decide (c = equals) = true := by
    intro c hc
    exact decide_eq_true (h c (List.mem_reverse.mp hc))
  have htrailing : trailing chars = (fromPadding chars).reverse := by
    rw [trailing]
    conv_lhs => rw [hsplit]
    rw [List.reverse_append, List.takeWhile_append_of_pos hall, hnone, List.append_nil]
  rw [htrailing, List.length_reverse]
  conv_rhs => rw [hsplit]
  rw [List.count_append, hcount, Nat.zero_add, eq_comm, List.count_eq_length]
  intro c hc
  exact (h c hc).symm

/-- The validator ends within the string. -/
def ScansWithin (wide : Bool) (chars : List UInt8) : Prop :=
  ∃ verdict, scanBase64String wide (some chars) = .ok verdict ∧
    (verdict = true ↔ WellFormed chars)

theorem scanBase64String_eq (wide : Bool) {chars : List UInt8}
    (hsize : chars.length ≤ sizeMax wide) :
    scanBase64String wide (some chars) =
      if validChars chars = true ∧ 4 ≤ chars.length then
        if chars.all (· = equals) then .error (.outOfBounds (sizeMax wide))
        else .ok (decide ((trailing chars).length ≤ 2))
      else .ok false := by
  have hscan := scanChars_eq (List.drop_zero (l := chars))
  by_cases hempty : chars = []
  · subst hempty
    rfl
  · have hpos : 0 < chars.length := List.length_pos_iff.mpr hempty
    have hstring : isValidString (some chars) = true := decide_eq_true hpos
    have hpadding := countPadding_eq hsize (show chars.length - 1 < chars.length by omega)
      (show chars.length - 1 + 2 ≤ chars.length + 1 by omega) 0
    rw [Nat.sub_add_cancel hpos, List.take_length, Nat.zero_add] at hpadding
    simp only [scanBase64String, hstring, Bool.not_true, Bool.false_eq_true, if_false, hscan,
      ok_bind, hpadding]
    cases validChars chars with
    | false => simp
    | true =>
        by_cases hlength : chars.length < 4
        · simp [hlength, Nat.not_le.mpr hlength]
        · simp only [Bool.not_true, Bool.false_eq_true, if_false, hlength, true_and,
            Nat.not_lt.mp hlength, if_true]
          split_ifs
          · rfl
          · rw [ok_bind, ← decide_not, decide_eq_decide.mpr Nat.not_lt]

/-- A scan that ends within the string gives the answer of the validator, whatever lies
below the string. -/
theorem scan_eq_validator {wide : Bool} (below : List UInt8) {chars : List UInt8}
    (hsize : chars.length ≤ sizeMax wide) {verdict : Bool}
    (h : scanBase64String wide (some chars) = .ok verdict) :
    isValidBase64String below (some chars) = verdict := by
  rw [scanBase64String_eq wide hsize] at h
  by_cases hvalid : validChars chars = true ∧ 4 ≤ chars.length
  · rw [if_pos hvalid] at h
    split_ifs at h with honly
    cases h
    have hcount : paddingCount below chars = (trailing chars).length := by
      have hnot : ¬∀ c ∈ chars.reverse, c = equals := by simpa [List.all_eq_true] using honly
      have hshort : (chars.reverse.takeWhile (· = equals)).length ≠ chars.reverse.length := by
        intro hlength
        have hwhole := List.takeWhile_eq_self_iff.mp
          ((List.takeWhile_sublist _).eq_of_length hlength)
        exact hnot fun c hc => of_decide_eq_true (hwhole c hc)
      rw [paddingCount, List.takeWhile_append, if_neg hshort, trailing]
    have hpos : 0 < chars.length := by omega
    have hverdict : (!decide (2 < (trailing chars).length)) =
        decide ((trailing chars).length ≤ 2) := by
      rw [← decide_not, decide_eq_decide.mpr Nat.not_lt]
    rw [← hverdict]
    simp [isValidBase64String, isValidString, hpos, hvalid.1, Nat.not_lt.mpr hvalid.2, hcount]
  · rw [if_neg hvalid] at h
    cases h
    by_contra htrue
    refine hvalid ?_
    simp only [isValidBase64String] at htrue
    split_ifs at htrue <;> simp_all

/-- The validator ends, reads within the string and accepts what it should, exactly for
the strings that are not four or more characters of padding alone. -/
theorem validator_within_iff (wide : Bool) {chars : List UInt8}
    (hsize : chars.length ≤ sizeMax wide) :
    ScansWithin wide chars ↔ ¬(4 ≤ chars.length ∧ ∀ c ∈ chars, c = equals) := by
  have hall : chars.all (· = equals) = true ↔ ∀ c ∈ chars, c = equals := by
    simp [List.all_eq_true]
  rw [ScansWithin, scanBase64String_eq wide hsize]
  by_cases hvalid : validChars chars = true ∧ 4 ≤ chars.length
  · rw [if_pos hvalid]
    obtain ⟨hletters, hpadding⟩ := validChars_iff.mp hvalid.1
    by_cases honly : chars.all (· = equals) = true
    · rw [if_pos honly]
      refine iff_of_false ?_ (not_not.mpr ⟨hvalid.2, hall.mp honly⟩)
      rintro ⟨verdict, hcall, -⟩
      cases hcall
    · rw [if_neg honly]
      refine iff_of_true ⟨_, rfl, ?_⟩ fun h => honly (hall.mpr h.2)
      rw [decide_eq_true_iff, trailing_length hpadding]
      exact ⟨fun hle => ⟨hvalid.2, hletters, hpadding, hle⟩, fun h => h.padding_le⟩
  · rw [if_neg hvalid]
    refine iff_of_true ⟨false, rfl, iff_of_false Bool.false_ne_true fun h => ?_⟩ fun h => ?_
    · exact hvalid ⟨validChars_iff.mpr ⟨h.letters, h.padding⟩, h.length⟩
    · refine hvalid ⟨?_, h.1⟩
      have hnil : beforePadding chars = [] := by
        rw [beforePadding, List.takeWhile_eq_nil_iff]
        intro hlt
        simpa using h.2 _ (List.getElem_mem hlt)
      rw [validChars_iff, hnil]
      exact ⟨fun c hc => absurd hc List.not_mem_nil, fun c hc => h.2 c ((List.dropWhile_sublist _).subset hc)⟩

theorem validator_within_abc : ScansWithin true [65, 66, 67, 61] := by
  have hsize : [65, 66, 67, 61].length ≤ sizeMax true := by decide
  exact (validator_within_iff true hsize).mpr (by decide)

/-- `====` is read below its first character. -/
theorem validator_leaves_padding :
    scanBase64String true (some [61, 61, 61, 61]) = .error (.outOfBounds (2 ^ 64 - 1)) ∧
      ¬ScansWithin true [61, 61, 61, 61] := by
  have hcall : scanBase64String true (some [61, 61, 61, 61]) =
      .error (.outOfBounds (2 ^ 64 - 1)) := rfl
  refine ⟨hcall, ?_⟩
  rintro ⟨verdict, hok, -⟩
  rw [hcall] at hok
  cases hok

end Xhive.Base64
