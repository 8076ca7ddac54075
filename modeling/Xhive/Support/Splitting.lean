import Xhive.Support.Outcome

/-!
# A computation beside its parts

`Splits R whole part` compares one computation with a family of computations:
the whole returns exactly when every part does, and then each part's value is
related to the value of the whole.  A fallible loop over a state of independent
parts is followed iteration by iteration.
-/

namespace Xhive.Support

universe u v

variable {ε : Type u} {ι : Type} {α β σ τ : Type v}

def Splits (R : ι → α → β → Prop) (whole : Except ε α) (part : ι → Except ε β) : Prop :=
  (∀ a, whole = .ok a → ∀ c, ∃ b, part c = .ok b ∧ R c a b) ∧
    ((∀ c, ∃ b, part c = .ok b) → ∃ a, whole = .ok a)

namespace Splits

theorem related {R : ι → α → β → Prop} {whole : Except ε α} {part : ι → Except ε β}
    (h : Splits R whole part) {a : α} (ha : whole = .ok a) {c : ι} {b : β}
    (hb : part c = .ok b) : R c a b := by
  obtain ⟨b', hb', hR⟩ := h.1 a ha c
  rw [hb] at hb'
  cases hb'
  exact hR

theorem ok {R : ι → α → β → Prop} {a : α} {b : ι → β} (h : ∀ c, R c a (b c)) :
    Splits R (.ok a : Except ε α) fun c => .ok (b c) := by
  refine ⟨?_, fun _ => ⟨a, rfl⟩⟩
  intro a' ha' c
  cases ha'
  exact ⟨b c, rfl, h c⟩

theorem error [Nonempty ι] (R : ι → α → β → Prop) (e : ε) :
    Splits R (.error e : Except ε α) fun _ => .error e := by
  refine ⟨nofun, fun h => ?_⟩
  obtain ⟨c⟩ := ‹Nonempty ι›
  obtain ⟨b, hb⟩ := h c
  cases hb

/-- A computation that the whole and the parts share. -/
theorem shared [Nonempty ι] (m : Except ε α) : Splits (fun _ a b => b = a) m fun _ : ι => m := by
  refine ⟨fun a ha _ => ⟨a, ha, rfl⟩, fun h => ?_⟩
  obtain ⟨c⟩ := ‹Nonempty ι›
  exact h c

theorem bind {R : ι → α → β → Prop} {R' : ι → σ → τ → Prop} {whole : Except ε α}
    {part : ι → Except ε β} {f : α → Except ε σ} {g : ι → β → Except ε τ}
    (h : Splits R whole part)
    (hf : ∀ (a : α) (b : ι → β), (∀ c, R c a (b c)) → Splits R' (f a) fun c => g c (b c)) :
    Splits R' (whole >>= f) fun c => part c >>= g c := by
  constructor
  · intro s hs c
    obtain ⟨a, ha, hfa⟩ := ok_of_bind hs
    choose b hb hR using h.1 a ha
    obtain ⟨t, ht, hRt⟩ := (hf a b hR).1 s hfa c
    have hpart : part c >>= g c = .ok t := by
      rw [hb]
      exact ht
    exact ⟨t, hpart, hRt⟩
  · intro hparts
    choose t ht using hparts
    choose b hb hg using fun c => ok_of_bind (ht c)
    obtain ⟨a, ha⟩ := h.2 fun c => ⟨b c, hb c⟩
    obtain ⟨s, hs⟩ := (hf a b fun c => h.related ha (hb c)).2 fun c => ⟨t c, hg c⟩
    rw [ha]
    exact ⟨s, hs⟩

/-- The rest of a computation after a shared first part. -/
theorem bind_shared [Nonempty ι] {R : ι → σ → τ → Prop} (m : Except ε α) {f : α → Except ε σ}
    {g : ι → α → Except ε τ} (hf : ∀ a, Splits R (f a) fun c => g c a) :
    Splits R (m >>= f) fun c => m >>= g c := by
  apply (shared m).bind
  intro a b hb
  obtain rfl : b = fun _ => a := funext hb
  exact hf a

theorem forRange {R : ι → σ → τ → Prop} {lo hi : ℕ} {s : σ} {t : ι → τ}
    {body : ℕ → σ → Except ε σ} {body' : ι → ℕ → τ → Except ε τ}
    (hinit : ∀ c, R c s (t c))
    (hstep : ∀ i s (t : ι → τ), lo ≤ i → i < hi → (∀ c, R c s (t c)) →
      Splits R (body i s) fun c => body' c i (t c)) :
    Splits R (Support.forRange lo hi s body) fun c => Support.forRange lo hi (t c) (body' c) := by
  rcases Nat.lt_or_ge hi lo with hlt | hle
  · simp only [forRange_of_le hlt.le]
    exact ok hinit
  · induction hi, hle using Nat.le_induction with
    | base =>
        simp only [forRange_of_le le_rfl]
        exact ok hinit
    | succ hi hle ih =>
        simp only [forRange_succ hle]
        apply (ih fun i s t hlo hhi => hstep i s t hlo (by omega)).bind
        exact fun s t hst => hstep hi s t hle (Nat.lt_succ_self hi) hst

end Splits

/-! ## Filling a range -/

section Fill

variable {κ V : Type} [DecidableEq κ] {lo hi : ℕ} {cell : ℕ → κ} {s : κ → V}
  {value : ℕ → (κ → V) → Except ε V}
  (hcell : ∀ i j, lo ≤ i → i < j → j < hi → cell i ≠ cell j)
  (hlocal : ∀ j t, lo ≤ j → j < hi → (∀ x, (∀ i, lo ≤ i → i < j → x ≠ cell i) → t x = s x) →
    value j t = value j s)
include hcell hlocal

theorem fillRange_eq_ok {t : κ → V} (h : fillRange lo hi cell s value = .ok t) :
    (∀ j, lo ≤ j → j < hi → value j s = .ok (t (cell j))) ∧
      ∀ x, (∀ j, lo ≤ j → j < hi → x ≠ cell j) → t x = s x := by
  have hspec := Ensures.fillRange hcell hlocal fun j e _ _ _ => trivial
  exact hspec.of_eq_ok h

theorem fillRange_exists_ok (h : ∀ j, lo ≤ j → j < hi → ∃ v, value j s = .ok v) :
    ∃ t, fillRange lo hi cell s value = .ok t := by
  have hnever : ∀ j e, lo ≤ j → j < hi → value j s = .error e → False := by
    intro j e hlo hhi he
    obtain ⟨v, hv⟩ := h j hlo hhi
    rw [he] at hv
    cases hv
  obtain ⟨t, ht, -⟩ := (Ensures.fillRange hcell hlocal hnever).exists_ok
  exact ⟨t, ht⟩

end Fill

end Xhive.Support
