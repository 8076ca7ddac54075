import Xhive.Ukf.Bits
import Xhive.Ukf.Cholesky

/-!
# Symmetry and sign of a posterior covariance

An update writes both triangles of its covariance from one value, and a factor
certifies a positive diagonal.
-/

namespace Xhive.Ukf

open Xhive.Support Xhive.Linears Xhive.Particles

/-! ## Mirrored matrices -/

/-- Both triangles hold the same values. -/
def Mirrored {W : Type} (grid : Grid W) : Prop :=
  ∀ i j, grid (i, j) = grid (j, i)

section Mirrored

variable {Q W : Type} [UkfFormat Q] {A : SignalArith Q W}

/-- A value stored in both cells of a pair. -/
theorem Mirrored.update_pair {grid : Grid W} (h : Mirrored grid) (r i : ℕ) (value : W) :
    Mirrored (Function.update (Function.update grid (r, i) value) (i, r) value) := by
  intro a b
  by_cases hpair : (a, b) = (i, r) ∨ (a, b) = (r, i)
  · have hswap : (b, a) = (i, r) ∨ (b, a) = (r, i) := by
      simp only [Prod.mk.injEq] at hpair ⊢
      tauto
    have hcell : ∀ p, p = (i, r) ∨ p = (r, i) →
        Function.update (Function.update grid (r, i) value) (i, r) value p = value := by
      rintro p (rfl | rfl)
      · rw [Function.update_self]
      · by_cases heq : ((r, i) : ℕ × ℕ) = (i, r)
        · rw [heq, Function.update_self]
        · rw [Function.update_of_ne heq, Function.update_self]
    rw [hcell _ hpair, hcell _ hswap]
  · have hswap : ¬((b, a) = (i, r) ∨ (b, a) = (r, i)) := by
      simp only [Prod.mk.injEq] at hpair ⊢
      tauto
    rw [not_or] at hpair hswap
    rw [Function.update_of_ne hpair.1, Function.update_of_ne hpair.2,
      Function.update_of_ne hswap.1, Function.update_of_ne hswap.2]
    exact h a b

theorem updateRow_mirrored {m r : ℕ} {mean inverse innovation : ℕ → W}
    {covariance factor cross : Grid W} {out next : UpdateOutput W}
    (h : updateRow A m mean covariance factor cross inverse innovation r out = .ok next)
    (hout : Mirrored out.covariance) : Mirrored next.covariance := by
  obtain ⟨gain, -, h⟩ := ok_of_bind h
  obtain ⟨value, -, h⟩ := ok_of_bind h
  obtain ⟨reduced, hreduced, h⟩ := ok_of_bind h
  cases h
  have hloop : Ensures (forRange 0 (r + 1) out.covariance fun i pout => do
      let reduction := foldRange 0 m A.zero fun j sum => A.add sum (A.mul (gain j) (cross (i, j)))
      let value ← A.check (A.sub (covariance (r, i)) reduction)
      .ok (Function.update (Function.update pout (r, i) value) (i, r) value))
      Mirrored fun _ => True := by
    refine Ensures.forRange (fun _ pout => Mirrored pout) (Nat.zero_le _) hout ?_
    intro i pout _ _ hpout
    exact ((A.check_spec _).mono (fun _ h => h) fun _ _ => trivial).seq fun value _ =>
      hpout.update_pair r i value
  exact hloop.of_eq_ok hreduced

/-- Every stored pair of the posterior covariance is one value. -/
theorem qUpdateCore_mirrored {n m : ℕ} {mean measurement : ℕ → W}
    {covariance measurementNoise : Grid W} {weights : UkfWeights W} {observation : UkfFn W}
    {residual : UkfResidual W} {posterior : (ℕ → W) × Grid W}
    (h : qUpdateCore A n m mean covariance measurementNoise measurement weights observation
      residual = .ok posterior) : Mirrored posterior.2 := by
  obtain ⟨factor, -, h⟩ := ok_of_bind h
  obtain ⟨samples, -, h⟩ := ok_of_bind h
  obtain ⟨zbar, -, h⟩ := ok_of_bind h
  obtain ⟨deviations, -, h⟩ := ok_of_bind h
  obtain ⟨cross, -, h⟩ := ok_of_bind h
  obtain ⟨innovationCovariance, -, h⟩ := ok_of_bind h
  obtain ⟨pivots, -, h⟩ := ok_of_bind h
  obtain ⟨innovation, -, h⟩ := ok_of_bind h
  obtain ⟨out, hout, h⟩ := ok_of_bind h
  cases h
  have hloop : Ensures (forRange 0 n (⟨fun _ => A.zero, A.blank⟩ : UpdateOutput W)
      (updateRow A m mean covariance pivots cross.1 (fun j => A.div A.one (pivots (j, j)))
        innovation)) (fun out => Mirrored out.covariance) fun _ => True := by
    refine Ensures.forRange (fun _ (out : UpdateOutput W) => Mirrored out.covariance)
      (Nat.zero_le n) (fun _ _ => rfl) ?_
    intro r out _ _ hmirrored
    rcases hrow : updateRow A m mean covariance pivots cross.1
      (fun j => A.div A.one (pivots (j, j))) innovation r out with e | next
    · trivial
    · exact updateRow_mirrored hrow hmirrored
  exact hloop.of_eq_ok hout

end Mirrored

/-! ## Positive diagonals -/

/-- What is used of the floating operations: the signs of a square, of a
difference and of a positive value. -/
structure WorkArith.Signed {Q : Type} [UkfFormat Q] (ops : WorkArith (WorkBits Q)) :
    Prop where
  square : ∀ x, workFinite (ops.mul x x) = true → (ops.mul x x).msb = false
  sub_pos : ∀ x y, y.msb = false → ops.less ops.zero (ops.sub x y) = true →
    ops.less ops.zero x = true
  pos : ∀ x, ops.less ops.zero x = true → x.msb = false

/-- A matrix with a factor has a positive diagonal. -/
theorem ukfCholesky_diagonal_pos {Q : Type} [UkfFormat Q] {ops : WorkArith (WorkBits Q)}
    (hops : ops.Signed) {truncate : WorkBits Q → ℕ} {n i : ℕ}
    {a lower : Grid (WorkBits Q)}
    (h : ukfCholesky (bitArith ops truncate).toWorkArith n a = .ok lower) (hi : i < n) :
    (a (i, i)).msb = false := by
  obtain ⟨value, hpos, -, hsum⟩ := ukfCholesky_pivot h hi
  apply hops.pos
  -- the subtrahends are squares, so the value before each of them was positive
  have hloop : Ensures (forRange 0 i (a (i, i)) (fun k value => do
      let product ← (bitArith ops truncate).check (ops.mul (lower (i, k)) (lower (i, k)))
      (bitArith ops truncate).check (ops.sub value product)))
      (fun value => ops.less ops.zero value = true → ops.less ops.zero (a (i, i)) = true)
      fun _ => True := by
    refine Ensures.forRange
      (fun _ value => ops.less ops.zero value = true → ops.less ops.zero (a (i, i)) = true)
      (Nat.zero_le i) id ?_
    intro k value _ _ hvalue
    refine ((WorkArith.check_spec _ _).mono (fun _ h => h) fun _ _ => trivial).seq
      fun product hproduct => ?_
    obtain ⟨rfl, hfinite⟩ := hproduct
    refine (WorkArith.check_spec _ _).mono (fun next hnext => ?_) fun _ _ => trivial
    obtain ⟨rfl, -⟩ := hnext
    exact fun hpositive => hvalue (hops.sub_pos _ _ (hops.square _ hfinite) hpositive)
  exact hloop.of_eq_ok hsum hpos

end Xhive.Ukf
