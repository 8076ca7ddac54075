import Mathlib.Order.Nat
import Mathlib.Tactic.Common

/-!
# Searches through a range

The greatest index below a bound that has a property, as a loop that counts
down finds it, and the same search done block by block; and the first candidate
that succeeds.
-/

namespace Xhive.Support

variable {p q : ℕ → Bool}

/-- The greatest index below the bound with `p`. -/
def lastHit (p : ℕ → Bool) : ℕ → Option ℕ
  | 0 => none
  | n + 1 => if p n then some n else lastHit p n

theorem lastHit_eq_none {n : ℕ} : lastHit p n = none ↔ ∀ k < n, p k = false := by
  induction n with
  | zero => simp [lastHit]
  | succ n ih =>
      rw [lastHit]
      split_ifs with hp
      · simp only [false_iff]
        intro hclear
        rw [hclear n (Nat.lt_succ_self n)] at hp
        cases hp
      · rw [ih]
        constructor
        · intro hclear k hk
          rcases Nat.lt_succ_iff_lt_or_eq.mp hk with hlt | rfl
          · exact hclear k hlt
          · exact Bool.not_eq_true _ ▸ hp
        · intro hclear k hk
          exact hclear k (Nat.lt_succ_of_lt hk)

theorem lastHit_eq_some {n j : ℕ} :
    lastHit p n = some j ↔ j < n ∧ p j = true ∧ ∀ k, j < k → k < n → p k = false := by
  induction n with
  | zero => simp [lastHit]
  | succ n ih =>
      rw [lastHit]
      split_ifs with hp
      · rw [Option.some_inj]
        constructor
        · rintro rfl
          exact ⟨Nat.lt_succ_self n, hp, fun k hk hkn => by omega⟩
        · rintro ⟨hj, -, hclear⟩
          by_contra hne
          rw [hclear n (by omega) (Nat.lt_succ_self n)] at hp
          cases hp
      · rw [ih]
        constructor
        · rintro ⟨hj, hset, hclear⟩
          refine ⟨Nat.lt_succ_of_lt hj, hset, fun k hk hkn => ?_⟩
          rcases Nat.lt_succ_iff_lt_or_eq.mp hkn with hlt | rfl
          · exact hclear k hk hlt
          · exact Bool.not_eq_true _ ▸ hp
        · rintro ⟨hj, hset, hclear⟩
          have hne : j ≠ n := by
            rintro rfl
            exact hp hset
          exact ⟨by omega, hset, fun k hk hkn => hclear k hk (by omega)⟩

theorem lastHit_congr {n : ℕ} (h : ∀ k < n, p k = q k) : lastHit p n = lastHit q n := by
  induction n with
  | zero => rfl
  | succ n ih =>
      rw [lastHit, lastHit, h n (Nat.lt_succ_self n), ih fun k hk => h k (Nat.lt_succ_of_lt hk)]

/-- The last block first, and then the blocks below it. -/
theorem lastHit_add (m n : ℕ) :
    lastHit p (m + n) =
      ((lastHit (fun j => p (m + j)) n).map (m + ·)).or (lastHit p m) := by
  induction n with
  | zero => simp [lastHit]
  | succ n ih =>
      rw [← Nat.add_assoc, lastHit, lastHit]
      split_ifs with hp
      · rfl
      · exact ih

/-! ## The first of several candidates -/

/-- A search through the candidates in order finds the first that succeeds. -/
theorem findSome?_range_eq_some {α : Type*} {f : ℕ → Option α} {n : ℕ} {a : α} :
    (List.range n).findSome? f = some a ↔ ∃ i < n, f i = some a ∧ ∀ j < i, f j = none := by
  rw [List.findSome?_eq_some_iff]
  constructor
  · rintro ⟨before, i, after, hrange, hi, hbefore⟩
    have hlength : before.length < n := by
      have hcount := congrArg List.length hrange
      simp only [List.length_range, List.length_append, List.length_cons] at hcount
      omega
    have hentry : i = before.length := by
      have hget := congrArg (fun l => l[before.length]?) hrange
      simpa [hlength] using hget.symm
    subst hentry
    refine ⟨_, hlength, hi, fun j hj => hbefore j ?_⟩
    have htake := congrArg (List.take before.length) hrange
    rw [List.take_left, List.take_range, min_eq_left hlength.le] at htake
    exact htake ▸ List.mem_range.mpr hj
  · rintro ⟨i, hi, hsome, hbefore⟩
    refine ⟨List.range i, i, (List.range (n - (i + 1))).map (i + 1 + ·), ?_, hsome, ?_⟩
    · have hsplit := List.range_add (n := i + 1) (m := n - (i + 1))
      rw [Nat.add_sub_cancel' hi] at hsplit
      rw [hsplit, List.range_succ, List.append_assoc, List.singleton_append]
    · exact fun j hj => hbefore j (List.mem_range.mp hj)

theorem findSome?_range_eq_none {α : Type*} {f : ℕ → Option α} {n : ℕ} :
    (List.range n).findSome? f = none ↔ ∀ i < n, f i = none := by
  simp [List.findSome?_eq_none_iff]

end Xhive.Support
