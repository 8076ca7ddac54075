import Mathlib.Data.List.Basic
import Mathlib.Tactic.Common

/-!
# Absorbing a stream in blocks

A state takes a stream block by block.  What is left after the full blocks waits
for more, and a stream that comes in pieces is absorbed like the whole.
-/

namespace Xhive.Support

variable {σ β : Type} (n : ℕ) (absorb : σ → List β → σ)

/-- The state after the first `count` blocks. -/
def absorbBlocks : ℕ → σ → List β → σ
  | 0, s, _ => s
  | count + 1, s, l => absorbBlocks count (absorb s (l.take n)) (l.drop n)

/-- The state after all full blocks. -/
def absorbAll (s : σ) (l : List β) : σ :=
  absorbBlocks n absorb (l.length / n) s l

/-- What is left after the full blocks. -/
def unfilled (l : List β) : List β :=
  l.drop (n * (l.length / n))

theorem length_unfilled (l : List β) : (unfilled n l).length = l.length % n := by
  rw [unfilled, List.length_drop, Nat.mod_eq_sub]

theorem absorbBlocks_add (a b : ℕ) (s : σ) (l : List β) :
    absorbBlocks n absorb (a + b) s l =
      absorbBlocks n absorb b (absorbBlocks n absorb a s l) (l.drop (n * a)) := by
  induction a generalizing s l with
  | zero => rw [Nat.zero_add, Nat.mul_zero, List.drop_zero, absorbBlocks]
  | succ a ih =>
      rw [Nat.add_right_comm, absorbBlocks, absorbBlocks, ih, List.drop_drop, Nat.mul_succ,
        Nat.add_comm n]

theorem absorbBlocks_append {count : ℕ} (s : σ) {xs : List β} (ys : List β)
    (h : n * count ≤ xs.length) :
    absorbBlocks n absorb count s (xs ++ ys) = absorbBlocks n absorb count s xs := by
  induction count generalizing s xs with
  | zero => rfl
  | succ count ih =>
      rw [Nat.mul_succ] at h
      have hfirst : n ≤ xs.length := by omega
      rw [absorbBlocks, absorbBlocks, List.take_append_of_le_length hfirst,
        List.drop_append_of_le_length hfirst, ih]
      rw [List.length_drop]
      omega

theorem blocks_append (hn : 0 < n) (xs ys : List β) :
    (xs ++ ys).length / n = xs.length / n + (unfilled n xs ++ ys).length / n := by
  have hdiv := Nat.mod_add_div xs.length n
  rw [List.length_append, List.length_append, length_unfilled]
  calc (xs.length + ys.length) / n
      = (xs.length % n + ys.length + n * (xs.length / n)) / n := by
        congr 1
        omega
    _ = (xs.length % n + ys.length) / n + xs.length / n := Nat.add_mul_div_left _ _ hn
    _ = xs.length / n + (xs.length % n + ys.length) / n := Nat.add_comm _ _

/-- A stream in two pieces. -/
theorem absorbAll_append (hn : 0 < n) (s : σ) (xs ys : List β) :
    absorbAll n absorb s (xs ++ ys) =
      absorbAll n absorb (absorbAll n absorb s xs) (unfilled n xs ++ ys) := by
  have hle : n * (xs.length / n) ≤ xs.length := Nat.mul_div_le _ _
  rw [absorbAll, blocks_append n hn, absorbBlocks_add, absorbBlocks_append n absorb s ys hle,
    List.drop_append_of_le_length hle]
  rfl

variable {n}

theorem absorbAll_short (s : σ) {l : List β} (h : l.length < n) : absorbAll n absorb s l = s := by
  rw [absorbAll, Nat.div_eq_of_lt h, absorbBlocks]

theorem absorbAll_block (hn : 0 < n) (s : σ) {l : List β} (h : l.length = n) :
    absorbAll n absorb s l = absorb s l := by
  rw [absorbAll, h, Nat.div_self hn, absorbBlocks, absorbBlocks,
    List.take_of_length_le (Nat.le_of_eq h)]

theorem unfilled_short {l : List β} (h : l.length < n) : unfilled n l = l := by
  rw [unfilled, Nat.div_eq_of_lt h, Nat.mul_zero, List.drop_zero]

theorem unfilled_block (hn : 0 < n) {l : List β} (h : l.length = n) : unfilled n l = [] := by
  rw [unfilled, h, Nat.div_self hn, Nat.mul_one, List.drop_eq_nil_of_le (Nat.le_of_eq h)]

variable (n)

theorem unfilled_append (hn : 0 < n) (xs ys : List β) :
    unfilled n (xs ++ ys) = unfilled n (unfilled n xs ++ ys) := by
  have hle : n * (xs.length / n) ≤ xs.length := Nat.mul_div_le _ _
  rw [unfilled, blocks_append n hn, Nat.mul_add, ← List.drop_drop,
    List.drop_append_of_le_length hle]
  rfl

end Xhive.Support
