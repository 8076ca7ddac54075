import Xhive.Linears.Numeric.Fixed
import Mathlib.Algebra.BigOperators.Group.List.Basic

/-!
# The F62 accumulator

`linears_fixed_mac` and `linears_fixed_msu` add and subtract exact products in
a two-limb accumulator; the export functions round its value once.
-/

namespace Xhive.Linears

open Xhive.Support

def linearsFixedMac (accumulator : Option Accum) (a b : Int64) :
    Status × Option Accum :=
  withOut accumulator fun acc => lnAddChecked acc (lnProduct a b) acc

def linearsFixedMsu (accumulator : Option Accum) (a b : Int64) :
    Status × Option Accum :=
  withOut accumulator fun acc => lnAddChecked acc (lnNegate (lnProduct a b)) acc

def linearsAccumToFixed (value : Accum) (out : Option Int64) :
    Status × Option Int64 :=
  withOut out fun old => roundShift (lnAbsolute value) 31 (lnNegative value) old

theorem toInt_lnNegate_lnProduct (a b : Int64) :
    (lnNegate (lnProduct a b)).toInt = -(a.toInt * b.toInt) := by
  have hbound := abs_toInt_lnProduct_le a b
  rw [abs_le, toInt_lnProduct] at hbound
  rw [toInt_lnNegate] <;> rw [toInt_lnProduct]
  constructor <;> omega

theorem toInt_eq_signed_absolute (value : Accum) :
    value.toInt = signed (lnNegative value) ((lnAbsolute value).toNat : ℤ) := by
  rw [toNat_lnAbsolute, show lnNegative value = decide (value.toInt < 0) by
    rw [Bool.eq_iff_iff, lnNegative_iff, decide_eq_true_iff], signed_natAbs]

theorem linearsAccumToFixed_eq (value : Accum) (old : Int64) :
    linearsAccumToFixed value (some old) =
      checkedCall (roundAway ((value.toInt : ℚ) / 2 ^ 31)) old := by
  have hround := roundAway_div_of_signed (toInt_eq_signed_absolute value)
    (show (2 ^ 31 : ℤ) = signed false ((2 ^ 31 : ℕ) : ℤ) by norm_num) (by norm_num)
  rw [Bool.bne_false] at hround
  have hcast : ((2 ^ 31 : ℤ) : ℚ) = 2 ^ 31 := by norm_num
  rw [← hcast, hround, linearsAccumToFixed, withOut_some,
    roundShift_eq _ (by decide) (by decide), toNat_thirtyOne, checkedCall]

/-! ## Runs of accumulator calls -/

/-- One accumulating call. -/
inductive AccumCall where
  | mac (a b : Int64)
  | msu (a b : Int64)
  deriving DecidableEq, Repr

namespace AccumCall

/-- The exact integer the call adds. -/
def term : AccumCall → ℤ
  | mac a b => a.toInt * b.toInt
  | msu a b => -(a.toInt * b.toInt)

/-- The call applied to a caller's accumulator. -/
def apply (accumulator : Option Accum) : AccumCall → Status × Option Accum
  | mac a b => linearsFixedMac accumulator a b
  | msu a b => linearsFixedMsu accumulator a b

/-- One call adds its term exactly or reports RANGE and changes nothing. -/
theorem apply_cases (call : AccumCall) (acc : Accum) :
    (Accum.Fits (acc.toInt + call.term) ∧
      ∃ next : Accum, call.apply (some acc) = (.ok, some next) ∧
        next.toInt = acc.toInt + call.term) ∨
    (¬Accum.Fits (acc.toInt + call.term) ∧
      call.apply (some acc) = (.errorRange, some acc)) := by
  have hchecked : ∀ addend : Accum, addend.toInt = call.term →
      call.apply (some acc) =
        ((lnAddChecked acc addend acc).1, some (lnAddChecked acc addend acc).2) →
      (Accum.Fits (acc.toInt + call.term) ∧
        ∃ next : Accum, call.apply (some acc) = (.ok, some next) ∧
          next.toInt = acc.toInt + call.term) ∨
      (¬Accum.Fits (acc.toInt + call.term) ∧
        call.apply (some acc) = (.errorRange, some acc)) := by
    intro addend hterm happly
    rw [lnAddChecked_eq, hterm] at happly
    by_cases hfits : Accum.Fits (acc.toInt + call.term)
    · rw [if_pos hfits] at happly
      refine Or.inl ⟨hfits, lnAddUnchecked acc addend, happly, ?_⟩
      rw [toInt_lnAddUnchecked (by rwa [hterm]), hterm]
    · rw [if_neg hfits] at happly
      exact Or.inr ⟨hfits, happly⟩
  cases call with
  | mac a b => exact hchecked (lnProduct a b) (toInt_lnProduct a b) rfl
  | msu a b =>
      exact hchecked (lnNegate (lnProduct a b)) (toInt_lnNegate_lnProduct a b) rfl

end AccumCall

/-- A finite sequence of calls on one accumulator, with each call's status. -/
def runAccum (acc : Option Accum) : List AccumCall → Option Accum × List (AccumCall × Status)
  | [] => (acc, [])
  | call :: calls =>
      let step := call.apply acc
      let rest := runAccum step.2 calls
      (rest.1, (call, step.1) :: rest.2)

/-- The sum of the terms of exactly the calls that returned OK. -/
def acceptedSum (log : List (AccumCall × Status)) : ℤ :=
  ((log.filter fun entry => entry.2 = .ok).map fun entry => entry.1.term).sum

theorem acceptedSum_cons (entry : AccumCall × Status) (log : List (AccumCall × Status)) :
    acceptedSum (entry :: log) =
      (if entry.2 = .ok then entry.1.term else 0) + acceptedSum log := by
  rw [acceptedSum, acceptedSum, List.filter_cons]
  by_cases h : entry.2 = .ok
  · simp [h]
  · simp [h]

theorem runAccum_toInt (start : Accum) (calls : List AccumCall) :
    ∃ final : Accum, (runAccum (some start) calls).1 = some final ∧
      final.toInt = start.toInt + acceptedSum (runAccum (some start) calls).2 := by
  induction calls generalizing start with
  | nil => exact ⟨start, rfl, by simp [runAccum, acceptedSum]⟩
  | cons call calls ih =>
      rcases call.apply_cases start with ⟨_, next, happly, hnext⟩ | ⟨_, happly⟩
      · obtain ⟨final, hfinal, hsum⟩ := ih next
        refine ⟨final, by rw [runAccum, happly, hfinal], ?_⟩
        rw [runAccum, happly, acceptedSum_cons, if_pos rfl, hsum, hnext]
        ring
      · obtain ⟨final, hfinal, hsum⟩ := ih start
        refine ⟨final, by rw [runAccum, happly, hfinal], ?_⟩
        rw [runAccum, happly, acceptedSum_cons, if_neg nofun, hsum, zero_add]

/-- Over every run of accumulator calls, from every 128-bit value: the final
value is the exact sum of the accepted terms, the next call is refused exactly
when its sum leaves the signed range and then changes nothing, and the export
of the final value is its correctly rounded quotient by `2 ^ 31`. -/
theorem runAccum_exact (start : Accum) (calls : List AccumCall) :
    ∃ final : Accum, (runAccum (some start) calls).1 = some final ∧
      final.toInt = start.toInt + acceptedSum (runAccum (some start) calls).2 ∧
      (∀ call : AccumCall,
        ((call.apply (some final)).1 = .errorRange ↔
          ¬(-2 ^ 127 ≤ final.toInt + call.term ∧
            final.toInt + call.term ≤ 2 ^ 127 - 1)) ∧
        ((call.apply (some final)).1 = .errorRange →
          (call.apply (some final)).2 = some final) ∧
        ((call.apply (some final)).1 ≠ .errorRange →
          (call.apply (some final)).1 = .ok)) ∧
      StoresRounded (linearsAccumToFixed final) ((final.toInt : ℚ) / 2 ^ 31) := by
  obtain ⟨final, hfinal, hsum⟩ := runAccum_toInt start calls
  refine ⟨final, hfinal, hsum, ?_, storesRounded_of_eq (linearsAccumToFixed_eq final)⟩
  intro call
  have hrange : (-2 ^ 127 ≤ final.toInt + call.term ∧
      final.toInt + call.term ≤ 2 ^ 127 - 1) ↔
        Accum.Fits (final.toInt + call.term) := by
    rw [Accum.Fits]
    omega
  rw [hrange]
  rcases call.apply_cases final with ⟨hfits, next, happly, _⟩ | ⟨hfits, happly⟩
  · simp [happly, hfits]
  · simp [happly, hfits]

end Xhive.Linears
