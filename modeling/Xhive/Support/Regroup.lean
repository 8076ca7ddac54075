import Mathlib.Data.Nat.Digits.Lemmas
import Mathlib.Tactic.Ring

/-!
# Regrouping the digits of a bit stream

A stream of digits of one width is read as a stream of wider digits, through a
buffer that holds the bits not yet delivered.  What has been delivered and what
is held always stand for the same number as the digits read, so a stream that is
a numeral of the wider digits followed by a few zero bits gives them back.
-/

namespace Xhive.Support

/-- The number that a list of `k`-bit digits stands for, most significant digit
first. -/
def bigEndian (k : ℕ) (digits : List ℕ) : ℕ :=
  Nat.ofDigits (2 ^ k) digits.reverse

@[simp] theorem bigEndian_nil (k : ℕ) : bigEndian k [] = 0 := rfl

theorem bigEndian_append (k : ℕ) (high low : List ℕ) :
    bigEndian k (high ++ low) = bigEndian k high * 2 ^ (k * low.length) + bigEndian k low := by
  rw [bigEndian, List.reverse_append, Nat.ofDigits_append, List.length_reverse, ← pow_mul,
    bigEndian, bigEndian]
  ring

@[simp] theorem bigEndian_singleton (k d : ℕ) : bigEndian k [d] = d := by
  rw [bigEndian, List.reverse_singleton, Nat.ofDigits_singleton]

theorem bigEndian_cons (k d : ℕ) (low : List ℕ) :
    bigEndian k (d :: low) = d * 2 ^ (k * low.length) + bigEndian k low := by
  have h := bigEndian_append k [d] low
  rwa [bigEndian_singleton] at h

/-- Numerals of one length are equal when they stand for the same number. -/
theorem bigEndian_inj {k : ℕ} (hk : 0 < k) {xs ys : List ℕ} (hlength : xs.length = ys.length)
    (hxs : ∀ d ∈ xs, d < 2 ^ k) (hys : ∀ d ∈ ys, d < 2 ^ k)
    (h : bigEndian k xs = bigEndian k ys) : xs = ys := by
  apply List.reverse_injective
  refine Nat.ofDigits_inj_of_len_eq (Nat.one_lt_two_pow hk.ne') ?_ ?_ ?_ h
  · rw [List.length_reverse, List.length_reverse, hlength]
  · exact fun d hd => hxs d (List.mem_reverse.mp hd)
  · exact fun d hd => hys d (List.mem_reverse.mp hd)

/-! ## The buffer -/

/-- The digits delivered, and the bits held back. -/
structure Regrouped where
  out : List ℕ
  value : ℕ
  bits : ℕ

namespace Regrouped

variable {a b : ℕ}

/-- Read a digit of `a` bits; deliver one of `b` bits as soon as they are there. -/
def push (a b : ℕ) (s : Regrouped) (digit : ℕ) : Regrouped :=
  let value := s.value * 2 ^ a + digit
  let bits := s.bits + a
  if b ≤ bits then ⟨s.out ++ [value / 2 ^ (bits - b)], value % 2 ^ (bits - b), bits - b⟩
  else ⟨s.out, value, bits⟩

/-- What the buffer is after a list of digits. -/
structure Holds (a b : ℕ) (digits : List ℕ) (s : Regrouped) : Prop where
  size : b * s.out.length + s.bits = a * digits.length
  value : bigEndian b s.out * 2 ^ s.bits + s.value = bigEndian a digits
  small : s.value < 2 ^ s.bits
  rest : s.bits < b
  wide : ∀ d ∈ s.out, d < 2 ^ b

theorem push_holds {digits : List ℕ} {s : Regrouped} {digit : ℕ} (hab : a ≤ b)
    (h : Holds a b digits s) (hdigit : digit < 2 ^ a) :
    Holds a b (digits ++ [digit]) (push a b s digit) := by
  have hsmall : s.value * 2 ^ a + digit < 2 ^ (s.bits + a) := by
    rw [pow_add]
    calc s.value * 2 ^ a + digit < s.value * 2 ^ a + 2 ^ a := Nat.add_lt_add_left hdigit _
      _ = (s.value + 1) * 2 ^ a := by ring
      _ ≤ 2 ^ s.bits * 2 ^ a := Nat.mul_le_mul_right _ h.small
  have hsize : b * s.out.length + (s.bits + a) = a * (digits ++ [digit]).length := by
    rw [List.length_append, List.length_singleton, Nat.mul_add, ← h.size]
    ring
  have hvalue : bigEndian b s.out * 2 ^ (s.bits + a) + (s.value * 2 ^ a + digit) =
      bigEndian a (digits ++ [digit]) := by
    rw [bigEndian_append, ← h.value, bigEndian_singleton, List.length_singleton, Nat.mul_one]
    ring
  rw [push]
  split
  · rename_i hready
    have hrest := h.rest
    have hsplit : s.bits + a = b + (s.bits + a - b) := by omega
    have hdelivered : (s.value * 2 ^ a + digit) / 2 ^ (s.bits + a - b) < 2 ^ b := by
      rw [Nat.div_lt_iff_lt_mul (by positivity), ← pow_add, ← hsplit]
      exact hsmall
    refine ⟨?_, ?_, Nat.mod_lt _ (by positivity), by dsimp only; omega, ?_⟩
    · dsimp only
      rw [List.length_append, List.length_singleton, ← hsize, Nat.mul_succ]
      omega
    · have hparts := Nat.div_add_mod (s.value * 2 ^ a + digit) (2 ^ (s.bits + a - b))
      have hpow : (2 : ℕ) ^ (s.bits + a) = 2 ^ b * 2 ^ (s.bits + a - b) := by
        rw [← pow_add, ← hsplit]
      dsimp only
      rw [bigEndian_append, bigEndian_singleton, List.length_singleton, Nat.mul_one, ← hvalue,
        hpow, Nat.add_mul, Nat.add_assoc, Nat.mul_comm (_ / _), hparts, Nat.mul_assoc]
    · intro d hd
      rcases List.mem_append.mp hd with hd | hd
      · exact h.wide d hd
      · rw [List.mem_singleton.mp hd]
        exact hdelivered
  · exact ⟨hsize, hvalue, hsmall, by dsimp only; omega, h.wide⟩

/-- Read a list of digits. -/
def run (a b : ℕ) (digits : List ℕ) : Regrouped :=
  digits.foldl (push a b) ⟨[], 0, 0⟩

theorem run_append (a b : ℕ) (digits : List ℕ) (digit : ℕ) :
    run a b (digits ++ [digit]) = push a b (run a b digits) digit := by
  rw [run, List.foldl_append]
  rfl

theorem run_holds (hb : 0 < b) (hab : a ≤ b) {digits : List ℕ} (h : ∀ d ∈ digits, d < 2 ^ a) :
    Holds a b digits (run a b digits) := by
  induction digits using List.reverseRecOn with
  | nil => exact ⟨rfl, rfl, Nat.one_pos, hb, nofun⟩
  | append_singleton digits digit ih =>
      rw [run_append]
      refine push_holds hab (ih fun d hd => h d (List.mem_append_left _ hd)) ?_
      exact h digit (List.mem_append_right _ (List.mem_singleton_self digit))

/-- Every full digit is delivered. -/
theorem length_out {digits : List ℕ} {s : Regrouped} (h : Holds a b digits s) :
    s.out.length = a * digits.length / b := by
  rw [← h.size, Nat.mul_add_div (Nat.zero_lt_of_lt h.rest), Nat.div_eq_of_lt h.rest, Nat.add_zero]

/-- A numeral followed by fewer zero bits than a digit has is delivered. -/
theorem out_eq {digits numeral : List ℕ} {s : Regrouped} {pad : ℕ} (h : Holds a b digits s)
    (hpad : pad < b) (hsize : b * numeral.length + pad = a * digits.length)
    (hvalue : bigEndian b numeral * 2 ^ pad = bigEndian a digits)
    (hnumeral : ∀ d ∈ numeral, d < 2 ^ b) : s.out = numeral := by
  have hb : 0 < b := Nat.zero_lt_of_lt h.rest
  have hlength : s.out.length = numeral.length := by
    rw [length_out h, ← hsize, Nat.mul_add_div hb, Nat.div_eq_of_lt hpad, Nat.add_zero]
  have hbits : s.bits = pad := by
    have hboth := h.size.trans hsize.symm
    rw [hlength] at hboth
    exact Nat.add_left_cancel hboth
  have hnumber := h.value
  have hsmall := h.small
  rw [hbits] at hnumber hsmall
  refine bigEndian_inj hb hlength h.wide hnumeral ?_
  calc bigEndian b s.out = (bigEndian b s.out * 2 ^ pad + s.value) / 2 ^ pad := by
        rw [Nat.mul_comm, Nat.mul_add_div (by positivity), Nat.div_eq_of_lt hsmall, Nat.add_zero]
    _ = bigEndian b numeral * 2 ^ pad / 2 ^ pad := by rw [hnumber, ← hvalue]
    _ = bigEndian b numeral := Nat.mul_div_cancel _ (by positivity)

end Regrouped

end Xhive.Support
