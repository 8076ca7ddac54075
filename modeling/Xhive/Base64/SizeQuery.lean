import Mathlib.Data.List.Basic
import Mathlib.Data.List.TakeWhile
import Mathlib.Tactic.IntervalCases
import Xhive.Base64.Codec

/-!
# The size query of the decoder

The query is computed from the length and the last two characters, while the
loop stores a byte for every eight bits before the first `=`.  They differ on
characters followed by padding that completes no group of four.
-/

namespace Xhive.Base64

open Xhive.Support Xhive.Linears

/-- A string in memory, without its terminator. -/
structure CString (wide : Bool) where
  chars : List UInt8
  terminated : 0 ∉ chars
  fits : chars.length < sizeMax wide

theorem cString_eq {chars : List UInt8} (h : 0 ∉ chars) : cString chars = chars := by
  rw [cString, List.takeWhile_eq_self_iff]
  intro c hc
  exact decide_eq_true fun hzero => h (hzero ▸ hc)

/-- The query is the exact size, is at most three quarters of the length, and
bounds what is stored. -/
structure QueryBounds (wide : Bool) (chars : List UInt8) : Prop where
  exact : ((base64Decode wide (some chars) false).1 : ℤ) =
    (3 * chars.length / 4 : ℕ) - base64Padding chars
  le : (base64Decode wide (some chars) false).1 ≤ 3 * chars.length / 4
  stored : (base64Decode wide (some chars) true).2.length ≤
    (base64Decode wide (some chars) false).1

/-- Characters followed by one `=` after whole groups of four, or by two after
whole groups or three characters of one. -/
def StrayPadding (text : List UInt8) : Prop :=
  ∃ v : List UInt8, (∀ c ∈ v, base64CharDecode c ≠ -1) ∧
    (text = v ++ [equals] ∧ v.length % 4 = 0 ∨
      text = v ++ [equals, equals] ∧ (v.length % 4 = 0 ∨ v.length % 4 = 3))

/-! ## The characters before the padding -/

theorem decodable_append (w t : List UInt8) : decodable (w ++ equals :: t) = decodable w := by
  induction w with
  | nil => simp [decodable]
  | cons c w ih =>
      by_cases hequals : c = equals
      · simp [decodable, hequals]
      · simp only [decodable, List.cons_append] at ih ⊢
        rw [List.takeWhile_cons_of_pos (by simpa using hequals),
          List.takeWhile_cons_of_pos (by simpa using hequals), List.filter_cons, List.filter_cons, ih]

theorem decodable_sublist (text : List UInt8) : (decodable text).Sublist text :=
  List.filter_sublist.trans (List.takeWhile_sublist _)

/-- All characters are read when all of them are digits. -/
theorem length_decodable_eq_iff (text : List UInt8) :
    (decodable text).length = text.length ↔ ∀ c ∈ text, base64CharDecode c ≠ -1 := by
  constructor
  · intro h c hc
    rw [← (decodable_sublist text).eq_of_length h] at hc
    exact of_decide_eq_true (List.mem_filter.mp hc).2
  · intro h
    have hequals : base64CharDecode equals = -1 := by decide
    have hread : text.takeWhile (· ≠ equals) = text := by
      rw [List.takeWhile_eq_self_iff]
      intro c hc
      exact decide_eq_true fun heq => h c hc (heq ▸ hequals)
    rw [decodable, hread, List.filter_eq_self.mpr]
    exact fun c hc => decide_eq_true (h c hc)

theorem base64Padding_singleton (x : UInt8) :
    base64Padding [x] = if x = equals then 1 else 0 := by
  simp [base64Padding]

theorem base64Padding_append (w : List UInt8) (y x : UInt8) :
    base64Padding (w ++ [y, x]) =
      (if x = equals then 1 else 0) + (if y = equals then 1 else 0) := by
  rw [base64Padding, List.length_append, List.length_cons, List.length_singleton]
  simp

/-! ## Stray padding -/

theorem stray_singleton (x : UInt8) : StrayPadding [x] ↔ x = equals := by
  constructor
  · rintro ⟨v, -, ⟨h, -⟩ | ⟨h, -⟩⟩
    · have hlast := congrArg List.getLast? h
      simpa using hlast
    · have hlength := congrArg List.length h
      simp at hlength
  · rintro rfl
    exact ⟨[], nofun, .inl ⟨rfl, rfl⟩⟩

theorem stray_append (w : List UInt8) (y x : UInt8) :
    StrayPadding (w ++ [y, x]) ↔ x = equals ∧
      ((∀ c ∈ w ++ [y], base64CharDecode c ≠ -1) ∧ (w.length + 1) % 4 = 0 ∨
        y = equals ∧ (∀ c ∈ w, base64CharDecode c ≠ -1) ∧
          (w.length % 4 = 0 ∨ w.length % 4 = 3)) := by
  constructor
  · rintro ⟨v, hvalid, ⟨h, hv⟩ | ⟨h, hv⟩⟩
    · rw [show w ++ [y, x] = w ++ [y] ++ [x] by simp] at h
      obtain ⟨rfl, hx⟩ := List.append_inj' h rfl
      refine ⟨List.head_eq_of_cons_eq hx, .inl ⟨hvalid, ?_⟩⟩
      rwa [List.length_append, List.length_singleton] at hv
    · obtain ⟨rfl, hyx⟩ := List.append_inj' h rfl
      obtain ⟨rfl, hx⟩ := List.cons.inj hyx
      exact ⟨List.head_eq_of_cons_eq hx, .inr ⟨rfl, hvalid, hv⟩⟩
  · rintro ⟨rfl, ⟨hvalid, hw⟩ | ⟨rfl, hvalid, hw⟩⟩
    · refine ⟨w ++ [y], hvalid, .inl ⟨by simp, ?_⟩⟩
      rwa [List.length_append, List.length_singleton]
    · exact ⟨w, hvalid, .inr ⟨rfl, hw⟩⟩

/-- Two padding characters after `n` others, `k` of them read. -/
theorem two_padding_iff {k n : ℕ} (h : k ≤ n) :
    3 * (n + 2) / 4 < 6 * k / 8 + 2 ↔ k = n ∧ (n % 4 = 0 ∨ n % 4 = 3) := by
  by_cases heq : k = n
  · subst heq
    have hmod := Nat.mod_lt k (show 0 < 4 by norm_num)
    have hdiv := Nat.div_add_mod k 4
    interval_cases hrest : k % 4 <;> omega
  · omega

/-- One padding character after `n` others, `k` of them read. -/
theorem one_padding_iff {k n : ℕ} (h : k ≤ n) :
    3 * (n + 1) / 4 < 6 * k / 8 + 1 ↔ k = n ∧ n % 4 = 0 := by
  by_cases heq : k = n
  · subst heq
    have hmod := Nat.mod_lt k (show 0 < 4 by norm_num)
    have hdiv := Nat.div_add_mod k 4
    interval_cases hrest : k % 4 <;> omega
  · omega

/-- The stored bytes and the padding exceed three quarters of the length
exactly on stray padding. -/
theorem stored_exceeds_iff (text : List UInt8) :
    3 * text.length / 4 < 6 * (decodable text).length / 8 + base64Padding text ↔
      StrayPadding text := by
  have hle : ∀ w, (decodable w).length ≤ w.length := fun w => (decodable_sublist w).length_le
  obtain rfl | ⟨front, x, rfl⟩ := List.eq_nil_or_concat' text
  · simp [decodable, base64Padding, StrayPadding]
  obtain rfl | ⟨w, y, rfl⟩ := List.eq_nil_or_concat' front
  · rw [List.nil_append, stray_singleton, base64Padding_singleton]
    have hread := hle [x]
    by_cases hx : x = equals
    · simp [hx, decodable]
    · rw [if_neg hx, List.length_singleton] at *
      simp only [hx, iff_false]
      omega
  have hsplit : w ++ [y] ++ [x] = w ++ [y, x] := by simp
  rw [hsplit, stray_append, base64Padding_append, List.length_append, List.length_cons,
    List.length_singleton]
  by_cases hx : x = equals
  · subst hx
    by_cases hy : y = equals
    · subst hy
      have hall := length_decodable_eq_iff w
      have hnone : ¬∀ c ∈ w ++ [equals], base64CharDecode c ≠ -1 :=
        fun h => h equals (by simp) (by decide)
      have hread := hle w
      rw [decodable_append, if_pos rfl]
      simp only [hnone, ← hall, false_and, false_or, true_and]
      exact two_padding_iff hread
    · have hall := length_decodable_eq_iff (w ++ [y])
      have hread := hle (w ++ [y])
      rw [← hsplit, decodable_append (w ++ [y]) [], if_pos rfl, if_neg hy]
      simp only [hy, ← hall, false_and, or_false, true_and]
      rw [List.length_append, List.length_singleton] at hread ⊢
      exact one_padding_iff hread
  · rw [if_neg hx]
    simp only [hx, false_and, iff_false, not_lt]
    by_cases hy : y = equals
    · subst hy
      have hread := hle w
      rw [decodable_append, if_pos rfl]
      omega
    · have hread := hle (w ++ [y, x])
      rw [List.length_append, List.length_cons, List.length_singleton] at hread
      rw [if_neg hy]
      omega

/-! ## The query -/

theorem base64Padding_le (text : List UInt8) : base64Padding text ≤ 2 := by
  rw [base64Padding]
  split_ifs <;> omega

/-- Wrapping takes a quarter of the modulus off the quotient, each time. -/
theorem wrapped_quotient (wide : Bool) (n : ℕ) :
    ((sizeT wide n / 4 : ℕ) : ℤ) =
      (n / 4 : ℕ) - n / (sizeMax wide + 1 : ℕ) * ((sizeMax wide + 1) / 4 : ℕ) := by
  have hwrapped := toNat_sizeT wide n
  cases wide <;> rw [sizeMax] at * <;> norm_num at hwrapped ⊢ <;> omega

/-- No operation of the query wraps exactly when the product and the difference
are representable. -/
theorem base64OutputLen_exact_iff {wide : Bool} {text : List UInt8}
    (h : text.length < sizeMax wide) :
    (base64OutputLen wide text : ℤ) = (3 * text.length / 4 : ℕ) - base64Padding text ↔
      3 * text.length ≤ sizeMax wide ∧ base64Padding text ≤ 3 * text.length / 4 := by
  have hpadding := base64Padding_le text
  have hquotient := wrapped_quotient wide (3 * text.length)
  have hwraps : (3 * text.length : ℕ) / (sizeMax wide + 1) ≤ 2 := by
    rw [← Nat.lt_succ_iff, Nat.div_lt_iff_lt_mul (Nat.succ_pos _)]
    omega
  have hproduct : (3 * text.length : ℕ) / (sizeMax wide + 1) = 0 ↔
      3 * text.length ≤ sizeMax wide := by
    rw [Nat.div_eq_zero_iff]
    omega
  rw [base64OutputLen, toNat_sizeT, show ((text.length : ℤ) * 3) = (3 * text.length : ℕ) by
    push_cast; ring, hquotient, ← hproduct, ← Int.natCast_ediv]
  have hsmall : 3 * text.length / 4 < sizeMax wide := by omega
  clear hquotient hproduct
  generalize 3 * text.length / (sizeMax wide + 1) = wraps at *
  generalize 3 * text.length / 4 = quotient at *
  interval_cases wraps <;> cases wide <;> rw [sizeMax] at * <;> norm_num at hsmall ⊢ <;> omega

theorem base64Decode_query {wide : Bool} {chars : List UInt8} (h : 0 ∉ chars) (hne : chars ≠ []) :
    (base64Decode wide (some chars) false).1 = base64OutputLen wide chars := by
  rw [base64Decode, cString_eq h, if_neg (by simpa using hne)]
  rfl

theorem base64Decode_stored {wide : Bool} {chars : List UInt8} (h : 0 ∉ chars) (hne : chars ≠ []) :
    (base64Decode wide (some chars) true).2 = (decodeLoop chars ⟨0, 0, []⟩).out := by
  rw [base64Decode, cString_eq h, if_neg (by simpa using hne)]
  rfl

/-- The query bounds what is stored unless the tripled length wraps or the
padding is stray. -/
theorem queryBounds_iff (wide : Bool) (s : CString wide) :
    QueryBounds wide s.chars ↔ 3 * s.chars.length ≤ sizeMax wide ∧ ¬StrayPadding s.chars := by
  obtain ⟨chars, hterminated, hfits⟩ := s
  dsimp only
  rw [← stored_exceeds_iff]
  by_cases hempty : chars = []
  · subst hempty
    refine ⟨fun _ => ⟨Nat.zero_le _, by decide⟩, fun _ => ⟨by cases wide <;> rfl, ?_, ?_⟩⟩
    · cases wide <;> decide
    · cases wide <;> decide
  · have hexact := base64OutputLen_exact_iff hfits
    have hstored := length_decodeLoop chars
    constructor
    · rintro ⟨hquery, -, hbound⟩
      rw [base64Decode_query hterminated hempty] at hquery hbound
      rw [base64Decode_stored hterminated hempty, hstored] at hbound
      exact ⟨(hexact.mp hquery).1, by omega⟩
    · rintro ⟨hlength, hstray⟩
      have hquery := hexact.mpr ⟨hlength, by omega⟩
      refine ⟨?_, ?_, ?_⟩
      · rw [base64Decode_query hterminated hempty, hquery]
      · rw [base64Decode_query hterminated hempty]
        omega
      · rw [base64Decode_query hterminated hempty, base64Decode_stored hterminated hempty, hstored]
        omega

/-- `ABCD=` asks for two bytes and stores three; `=` alone asks for `SIZE_MAX`. -/
theorem query_overrun :
    (base64Decode true (some [65, 66, 67, 68, 61]) false).1 = 2 ∧
      (base64Decode true (some [65, 66, 67, 68, 61]) true).2 = [0, 16, 131] ∧
      (base64Decode true (some [61]) false).1 = sizeMax true ∧
      ¬∀ (wide : Bool) (s : CString wide), QueryBounds wide s.chars := by
  have hquery : (base64Decode true (some [65, 66, 67, 68, 61]) false).1 = 2 := by decide
  have hstored : (base64Decode true (some [65, 66, 67, 68, 61]) true).2 = [0, 16, 131] := by
    decide +kernel
  refine ⟨hquery, hstored, by decide, fun hclaim => ?_⟩
  have hbound := (hclaim true ⟨[65, 66, 67, 68, 61], by decide, by decide⟩).stored
  rw [hquery, hstored] at hbound
  exact absurd hbound (by decide)

end Xhive.Base64
