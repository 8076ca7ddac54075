import Xhive.Support.Outcome

/-!
# Blocks filled row by row

A rectangular array whose entries are computed independently in row-major
order, stopping at the first error.
-/

namespace Xhive.Support

universe u v

variable {ε : Type u} {V : Type v}

/-! ## Row-major order -/

theorem rowMajor_div {n c : ℕ} (r : ℕ) (hc : c < n) : (r * n + c) / n = r := by
  rw [Nat.mul_comm, Nat.mul_add_div (by omega), Nat.div_eq_of_lt hc, Nat.add_zero]

theorem rowMajor_mod {n c : ℕ} (r : ℕ) (hc : c < n) : (r * n + c) % n = c := by
  rw [Nat.mul_comm, Nat.mul_add_mod, Nat.mod_eq_of_lt hc]

theorem rowMajor_lt {m n r c : ℕ} (hr : r < m) (hc : c < n) : r * n + c < m * n := by
  calc
    r * n + c < r * n + n := Nat.add_lt_add_left hc _
    _ = (r + 1) * n := (Nat.succ_mul r n).symm
    _ ≤ m * n := Nat.mul_le_mul_right n hr

/-! ## Blocks -/

/-- The entries of a `rows`-by-`cols` block over the array `start`. -/
def fillBlock (rows cols : ℕ) (start : ℕ × ℕ → V) (entry : ℕ → ℕ → Except ε V) :
    Except ε (ℕ × ℕ → V) :=
  forRange 0 rows start fun i block =>
    fillRange 0 cols (fun j => (i, j)) block fun j _ => entry i j

/-- A filled block holds its entries and is untouched elsewhere; an error is
that of an entry. -/
theorem Ensures.fillBlock (rows cols : ℕ) (start : ℕ × ℕ → V) (entry : ℕ → ℕ → Except ε V) :
    Ensures (Xhive.Support.fillBlock rows cols start entry)
      (fun block => (∀ i < rows, ∀ j < cols, entry i j = .ok (block (i, j))) ∧
        ∀ p, ¬(p.1 < rows ∧ p.2 < cols) → block p = start p)
      (fun e => ∃ i < rows, ∃ j < cols, entry i j = .error e) := by
  refine Ensures.forRange (fun k (block : ℕ × ℕ → V) =>
    (∀ i < k, ∀ j < cols, entry i j = .ok (block (i, j))) ∧
      ∀ p, ¬(p.1 < k ∧ p.2 < cols) → block p = start p) (Nat.zero_le rows) ?_ ?_
  · exact ⟨fun i hi => absurd hi (Nat.not_lt_zero i), fun p _ => rfl⟩
  · rintro k block _ hk ⟨hdone, hframe⟩
    have hrow : Ensures (Xhive.Support.fillRange 0 cols (fun j => (k, j)) block
        fun j _ => entry k j)
        (fun next => (∀ j, 0 ≤ j → j < cols → entry k j = .ok (next (k, j))) ∧
          ∀ p, (∀ j, 0 ≤ j → j < cols → p ≠ (k, j)) → next p = block p)
        (fun e => ∃ i < rows, ∃ j < cols, entry i j = .error e) := by
      refine Ensures.fillRange ?_ ?_ ?_
      · intro i j _ hij _ heq
        exact hij.ne (congrArg Prod.snd heq)
      · exact fun j t _ _ _ => rfl
      · exact fun j e _ hj he => ⟨k, hk, j, hj, he⟩
    refine hrow.imp ?_
    · rintro next ⟨hrow, hother⟩
      constructor
      · intro i hi j hj
        rcases Nat.lt_succ_iff_lt_or_eq.mp hi with hlt | rfl
        · rw [hother (i, j) fun l _ _ heq => hlt.ne (congrArg Prod.fst heq)]
          exact hdone i hlt j hj
        · exact hrow j (Nat.zero_le j) hj
      · intro p hp
        rw [hother p fun l _ hl heq => hp ⟨by rw [heq]; exact Nat.lt_succ_self k,
          by rw [heq]; exact hl⟩]
        exact hframe p fun h => hp ⟨Nat.lt_succ_of_lt h.1, h.2⟩

theorem fillBlock_ok {rows cols : ℕ} {start block : ℕ × ℕ → V} {entry : ℕ → ℕ → Except ε V}
    (h : fillBlock rows cols start entry = .ok block) :
    (∀ i < rows, ∀ j < cols, entry i j = .ok (block (i, j))) ∧
      ∀ p, ¬(p.1 < rows ∧ p.2 < cols) → block p = start p :=
  (Ensures.fillBlock rows cols start entry).of_eq_ok h

end Xhive.Support
