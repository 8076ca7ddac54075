import Xhive.Bitmap.Queries

/-!
# Runs of a bitmap

After any calls in range, the storage of a created bitmap stands for the array
of bits that the same updates make, and every query answers for that array;
provided that `create` could compute the number of words.
-/

namespace Xhive.Bitmap

open Xhive.Support Xhive.Linears

/-! ## Updates -/

inductive Update where
  | allTo (value : Bool)
  | set (index : UInt64)
  | clear (index : UInt64)

/-- The index of the call is below the number of bits. -/
def Update.InRange (bits : UInt64) : Update → Prop
  | .allTo _ => True
  | .set index => index < bits
  | .clear index => index < bits

def perform (b : XhBitmap) : Update → Except Fault XhBitmap
  | .allTo value => xhBitmapAllTo b value
  | .set index => xhBitmapSet b index
  | .clear index => xhBitmapClear b index

/-- The same update of an array of bits. -/
def Update.apply (model : ℕ → Bool) : Update → ℕ → Bool
  | .allTo value => fun _ => value
  | .set index => Function.update model index.toNat true
  | .clear index => Function.update model index.toNat false

def performAll (b : XhBitmap) (updates : List Update) : Except Fault XhBitmap :=
  updates.foldlM perform b

/-- The array after some updates; it starts with all bits clear. -/
def applyAll (updates : List Update) : ℕ → Bool :=
  updates.foldl Update.apply fun _ => false

theorem perform_represents {b : XhBitmap} {model : ℕ → Bool} (h : Represents b model)
    {update : Update} (hrange : update.InRange b.bits) :
    ∃ next, perform b update = .ok next ∧ next.bits = b.bits ∧
      Represents next (update.apply model) := by
  cases update with
  | allTo value => exact xhBitmapAllTo_represents h value
  | set index => exact xhBitmapSet_represents h hrange
  | clear index => exact xhBitmapClear_represents h hrange

theorem performAll_represents {b : XhBitmap} {model : ℕ → Bool} (h : Represents b model)
    {updates : List Update} (hrange : ∀ update ∈ updates, update.InRange b.bits) :
    ∃ next, performAll b updates = .ok next ∧ next.bits = b.bits ∧
      Represents next (updates.foldl Update.apply model) := by
  induction updates generalizing b model with
  | nil => exact ⟨b, rfl, rfl, h⟩
  | cons update updates ih =>
      obtain ⟨mid, hcall, hbits, hmid⟩ := perform_represents h (hrange update List.mem_cons_self)
      obtain ⟨next, hcalls, hnext, hlast⟩ := ih hmid fun u hu =>
        hbits ▸ hrange u (List.mem_cons_of_mem _ hu)
      refine ⟨next, ?_, hnext.trans hbits, hlast⟩
      rw [performAll, List.foldlM_cons, hcall]
      exact hcalls

/-! ## Creation -/

/-- The words that `create` asks for are the words needed when neither the sum
nor the size wraps. -/
theorem allocated_eq_iff (wide : Bool) (bits : UInt64) :
    wordsNeeded bits ≤ sizeT wide (wordCount bits).toNat ↔
      bits.toNat + 63 < 2 ^ 64 ∧ wordsNeeded bits ≤ sizeMax wide := by
  have hcount := toNat_wordCount bits
  have hlt := bits.toNat_lt
  constructor
  · intro h
    have hsize := h.trans (sizeT_le wide (wordCount bits).toNat)
    refine ⟨?_, hsize⟩
    by_contra hwrap
    have hzero : (wordCount bits).toNat = 0 := by omega
    rw [hzero, wordsNeeded] at h
    have hnone : sizeT wide (0 : ℕ) = 0 := sizeT_of_le wide (Nat.zero_le _)
    omega
  · rintro ⟨hsum, hsize⟩
    rw [Nat.mod_eq_of_lt hsum, ← wordsNeeded] at hcount
    rw [hcount, sizeT_of_le wide hsize]

theorem xhBitmapCreate_eq {wide : Bool} {calloc : ℕ → Bool} {bits : UInt64} {b : XhBitmap}
    (h : xhBitmapCreate wide calloc bits = some b) :
    b = ⟨fun _ => 0, sizeT wide (wordCount bits).toNat, bits⟩ := by
  rw [xhBitmapCreate] at h
  split at h
  · exact (Option.some.inj h).symm
  · exact absurd h nofun

theorem created_represents {bits : UInt64} {words : ℕ} (hwords : words = wordsNeeded bits)
    (hfits : bits.toNat + 63 < 2 ^ 64) : Represents ⟨fun _ => 0, words, bits⟩ fun _ => false :=
  ⟨hfits, hwords, fun i _ => by simp [storageBit]⟩

/-! ## Queries -/

/-- Every query answers for the array, and the storage above it is zero. -/
structure Answers (bits : UInt64) (b : XhBitmap) (model : ℕ → Bool) : Prop where
  test : ∀ index < bits, xhBitmapTest b index = .ok (model index.toNat)
  tail : ∀ i, bits.toNat ≤ i → i < 64 * b.words → storageBit b i = false
  count : ∀ popcount64, popcount64 = builtinPopcountll ∨ popcount64 = popcountSwar64 →
    xhBitmapCountSetBits popcount64 b =
      .ok (UInt64.ofNat (Nat.count (fun i => model i = true) bits.toNat))
  rightSet : ∀ start < bits, ∃ answer, xhBitmapIndexOfRightSet b start = .ok answer ∧
    IsRightSet model bits.toNat start.toNat answer

theorem Represents.answers {b : XhBitmap} {model : ℕ → Bool} (h : Represents b model) :
    Answers b.bits b model where
  test _ hindex := xhBitmapTest_eq h hindex
  tail i hlow hhigh := by
    rw [h.bit i hhigh, decide_eq_false (Nat.not_lt.mpr hlow), Bool.false_and]
  count _ hpopcount := xhBitmapCountSetBits_eq h hpopcount
  rightSet _ hstart := xhBitmapIndexOfRightSet_spec h hstart

/-- A created bitmap stands for the array after all updates in range exactly
when its words could be counted. -/
theorem bitmap_refines_iff {wide : Bool} {calloc : ℕ → Bool} {bits : UInt64} {b : XhBitmap}
    (h : xhBitmapCreate wide calloc bits = some b) :
    (∀ updates : List Update, (∀ update ∈ updates, update.InRange bits) →
      ∃ next, performAll b updates = .ok next ∧ Answers bits next (applyAll updates)) ↔
      bits.toNat + 63 < 2 ^ 64 ∧ (bits.toNat + 63) / 64 ≤ sizeMax wide := by
  have hb := xhBitmapCreate_eq h
  rw [← wordsNeeded, ← allocated_eq_iff]
  constructor
  · intro hruns
    obtain ⟨next, hcall, -⟩ := hruns [.allTo true] fun update hupdate => by
      rw [List.mem_singleton.mp hupdate]
      trivial
    rw [performAll, List.foldlM_cons] at hcall
    obtain ⟨mid, hfill, -⟩ := ok_of_bind hcall
    have hroom := ((xhBitmapAllTo_spec b true).of_eq_ok hfill).2.2.1
    rwa [hb] at hroom
  · intro hroom updates hrange
    obtain ⟨hsum, hsize⟩ := (allocated_eq_iff wide bits).mp hroom
    have hwords : sizeT wide (wordCount bits).toNat = wordsNeeded bits := by
      rw [toNat_wordCount, Nat.mod_eq_of_lt hsum, ← wordsNeeded, sizeT_of_le wide hsize]
    subst hb
    obtain ⟨next, hcalls, hbits, hnext⟩ :=
      performAll_represents (created_represents hwords hsum) hrange
    have hanswers := hnext.answers
    rw [hbits] at hanswers
    exact ⟨next, hcalls, hanswers⟩

theorem bitmap_refines_hundred :
    ∃ next, performAll ⟨fun _ => 0, 2, 100⟩ [.allTo true, .clear 99] = .ok next ∧
      Answers 100 next (applyAll [.allTo true, .clear 99]) := by
  have hcreate : xhBitmapCreate true (fun _ => true) 100 = some ⟨fun _ => 0, 2, 100⟩ := rfl
  refine (bitmap_refines_iff hcreate).mpr ⟨by decide, by decide⟩ _ fun update hupdate => ?_
  rcases List.mem_pair.mp hupdate with rfl | rfl
  · trivial
  · exact (by decide : (99 : UInt64) < 100)

/-- The number of words wraps to zero, and the first update is out of bounds. -/
theorem create_wraps :
    ∃ b, xhBitmapCreate true (fun _ => true) 0xFFFFFFFFFFFFFFFF = some b ∧
      performAll b [.set 0] = .error .outOfBounds ∧
      ¬∀ updates : List Update, (∀ update ∈ updates, update.InRange 0xFFFFFFFFFFFFFFFF) →
        ∃ next, performAll b updates = .ok next ∧
          Answers 0xFFFFFFFFFFFFFFFF next (applyAll updates) := by
  have hfault : performAll ⟨fun _ => 0, 0, 0xFFFFFFFFFFFFFFFF⟩ [.set 0] = .error .outOfBounds := rfl
  refine ⟨⟨fun _ => 0, 0, 0xFFFFFFFFFFFFFFFF⟩, rfl, hfault, fun hclaim => ?_⟩
  obtain ⟨next, hcall, -⟩ := hclaim [.set 0] fun update hupdate => by
    rw [List.mem_singleton.mp hupdate]
    exact (by decide : (0 : UInt64) < 0xFFFFFFFFFFFFFFFF)
  rw [hfault] at hcall
  exact absurd hcall nofun

end Xhive.Bitmap
