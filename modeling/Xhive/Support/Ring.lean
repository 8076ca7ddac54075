import Mathlib.Data.List.Perm.Basic
import Mathlib.Data.List.GetD
import Mathlib.Data.List.Range
import Mathlib.Data.List.Nodup
import Mathlib.Tactic.Common

/-!
# Rings that keep the latest entries

A ring of `count` slots whose head is the slot of the oldest entry, which the
next entry overwrites.  Walking back from the head meets the entries from the
latest to the oldest.
-/

namespace Xhive.Support

variable {V : Type}

/-- The slot after `head`. -/
def ringNext (head count : ℕ) : ℕ :=
  if head + 1 = count then 0 else head + 1

/-- The slot before `index`. -/
def ringPrevious (index count : ℕ) : ℕ :=
  if index = 0 then count - 1 else index - 1

/-- The slot `i` steps before `head`. -/
def walkBack (head count : ℕ) : ℕ → ℕ
  | 0 => head
  | i + 1 => ringPrevious (walkBack head count i) count

theorem ringNext_lt {head count : ℕ} (hhead : head < count) : ringNext head count < count := by
  rw [ringNext]
  split <;> omega

theorem walkBack_eq {head count i : ℕ} (hhead : head < count) (hi : i ≤ count) :
    walkBack head count i = if i ≤ head then head - i else head + count - i := by
  induction i with
  | zero => simp [walkBack]
  | succ i ih =>
      have hprev := ih (by omega)
      rw [walkBack, hprev, ringPrevious]
      split_ifs <;> omega

theorem walkBack_lt {head count i : ℕ} (hhead : head < count) (hi : i ≤ count) :
    walkBack head count i < count := by
  rw [walkBack_eq hhead hi]
  split_ifs <;> omega

/-- Only a full turn comes back to the head. -/
theorem walkBack_ne_head {head count i : ℕ} (hhead : head < count) (hpos : 0 < i)
    (hi : i < count) : walkBack head count i ≠ head := by
  rw [walkBack_eq hhead hi.le]
  split_ifs <;> omega

theorem walkBack_full {head count : ℕ} (hhead : head < count) :
    walkBack head count count = head := by
  rw [walkBack_eq hhead le_rfl, if_neg (by omega)]
  omega

/-- Seen from the next head, every slot is one step further back. -/
theorem walkBack_next {head count i : ℕ} (hhead : head < count) (hi : i < count) :
    walkBack (ringNext head count) count (i + 1) = walkBack head count i := by
  rw [walkBack_eq (ringNext_lt hhead) (by omega), walkBack_eq hhead hi.le, ringNext]
  split_ifs <;> omega

/-- The ring holds the latest entries of a history, newest first, and `blank`
where the history is too short. -/
structure RingHolds (blank : V) (cells : ℕ → V) (head count : ℕ) (history : List V) : Prop where
  head_lt : head < count
  cell_eq : ∀ i, i < count → cells (walkBack head count (i + 1)) = history.getD i blank

namespace RingHolds

variable {blank : V} {cells : ℕ → V} {head count : ℕ} {history : List V}

theorem clear (hcount : 0 < count) (hcells : ∀ i, i < count → cells i = blank) :
    RingHolds blank cells 0 count [] where
  head_lt := hcount
  cell_eq i hi := by
    rw [hcells _ (walkBack_lt hcount hi), List.getD_nil]

/-- The slot under the head holds the oldest entry. -/
theorem oldest (h : RingHolds blank cells head count history) :
    cells head = history.getD (count - 1) blank := by
  have hpos := h.head_lt
  have hlast := h.cell_eq (count - 1) (by omega)
  rwa [Nat.sub_add_cancel (by omega), walkBack_full hpos] at hlast

/-- Overwriting the oldest entry and moving the head records a new entry. -/
theorem push (h : RingHolds blank cells head count history) (value : V) :
    RingHolds blank (Function.update cells head value) (ringNext head count) count
      (value :: history) where
  head_lt := ringNext_lt h.head_lt
  cell_eq i hi := by
    rw [walkBack_next h.head_lt hi]
    cases i with
    | zero => rw [walkBack, Function.update_self, List.getD_cons_zero]
    | succ i =>
        rw [Function.update_of_ne (walkBack_ne_head h.head_lt (Nat.succ_pos i) hi),
          List.getD_cons_succ]
        exact h.cell_eq i (by omega)

/-- In slot order the ring is a rearrangement of the latest entries. -/
theorem perm (h : RingHolds blank cells head count history) :
    ((List.range count).map cells).Perm
      ((List.range count).map fun i => history.getD i blank) := by
  have hslots : ((List.range count).map fun i => walkBack head count (i + 1)).Perm
      (List.range count) := by
    rw [List.perm_ext_iff_of_nodup _ List.nodup_range]
    · intro slot
      rw [List.mem_map, List.mem_range]
      constructor
      · rintro ⟨i, hi, rfl⟩
        rw [List.mem_range] at hi
        exact walkBack_lt h.head_lt hi
      · intro hslot
        have hhead := h.head_lt
        refine ⟨if slot < head then head - slot - 1 else head + count - slot - 1, ?_, ?_⟩
        · rw [List.mem_range]
          split_ifs <;> omega
        · rw [walkBack_eq hhead (by split_ifs <;> omega)]
          split_ifs <;> omega
    · refine List.Nodup.map_on ?_ List.nodup_range
      intro i hi j hj heq
      rw [List.mem_range] at hi hj
      have hhead := h.head_lt
      rw [walkBack_eq hhead hi, walkBack_eq hhead hj] at heq
      split_ifs at heq <;> omega
  have hmap := hslots.map cells
  rw [List.map_map] at hmap
  apply hmap.symm.trans
  apply List.Perm.of_eq
  apply List.map_congr_left
  intro i hi
  exact h.cell_eq i (List.mem_range.mp hi)

end RingHolds

end Xhive.Support
