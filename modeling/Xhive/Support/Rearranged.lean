import Mathlib.Data.List.Perm.Basic
import Mathlib.Data.List.Range
import Mathlib.Data.List.Nodup
import Mathlib.Logic.Equiv.Basic

/-!
# Rearranging the first cells of an array

An in-place sort only exchanges cells.  `Rearranged` says that the first cells
of one array are those of another in a different order.
-/

namespace Xhive.Support

variable {V : Type}

/-- The first `count` cells of `g` are those of `f` up to a permutation. -/
def Rearranged (count : ℕ) (g f : ℕ → V) : Prop :=
  ∃ σ : Equiv.Perm ℕ, (∀ k, σ k < count ↔ k < count) ∧ ∀ k < count, g k = f (σ k)

namespace Rearranged

variable {count : ℕ} {f g h : ℕ → V}

theorem of_eq (heq : ∀ k < count, g k = f k) : Rearranged count g f :=
  ⟨Equiv.refl ℕ, fun _ => Iff.rfl, heq⟩

theorem trans (hgf : Rearranged count h g) (hf : Rearranged count g f) : Rearranged count h f := by
  obtain ⟨σ, hσ, hg⟩ := hgf
  obtain ⟨τ, hτ, hf⟩ := hf
  refine ⟨σ.trans τ, fun k => (hτ (σ k)).trans (hσ k), fun k hk => ?_⟩
  rw [hg k hk, hf (σ k) ((hσ k).mpr hk), Equiv.trans_apply]

/-- Exchanging two cells in range. -/
theorem exchange {a b : ℕ} (ha : a < count) (hb : b < count)
    (heq : ∀ k < count, g k = f (Equiv.swap a b k)) : Rearranged count g f := by
  refine ⟨Equiv.swap a b, fun k => ?_, heq⟩
  rw [Equiv.swap_apply_def]
  split_ifs with hka hkb
  · rw [hka]
    exact iff_of_true hb ha
  · rw [hkb]
    exact iff_of_true ha hb
  · rfl

theorem perm (hgf : Rearranged count g f) :
    ((List.range count).map g).Perm ((List.range count).map f) := by
  obtain ⟨σ, hσ, hg⟩ := hgf
  have hslots : ((List.range count).map σ).Perm (List.range count) := by
    rw [List.perm_ext_iff_of_nodup (List.nodup_range.map σ.injective) List.nodup_range]
    intro slot
    rw [List.mem_map, List.mem_range]
    constructor
    · rintro ⟨k, hk, rfl⟩
      exact (hσ k).mpr (List.mem_range.mp hk)
    · intro hslot
      refine ⟨σ.symm slot, ?_, σ.apply_symm_apply slot⟩
      rw [List.mem_range, ← hσ, σ.apply_symm_apply]
      exact hslot
  have hmap := hslots.map f
  rw [List.map_map] at hmap
  apply List.Perm.trans _ hmap
  apply List.Perm.of_eq
  apply List.map_congr_left
  intro k hk
  exact hg k (List.mem_range.mp hk)

end Rearranged

end Xhive.Support
