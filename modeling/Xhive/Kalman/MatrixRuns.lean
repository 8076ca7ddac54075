import Xhive.Kalman.Matrix

/-!
# What the matrix filter keeps of its covariance

Symmetry is restored by averaging before every commit and survives the export,
so it holds after every successful call.  The sign of the diagonal does not:
neither the products nor their rounding are projected onto the semidefinite
cone, and the next call refuses a negative entry.
-/

namespace Xhive.Kalman

open Xhive.Support Xhive.Linears Xhive.Filters Xhive.Particles

variable {Q : Type} [FilterFormat Q]

/-- The integer of an element. -/
def code (matrix : SignalMatrix Q) (i j : ℕ) : ℤ :=
  (QFormat.widen (matrix.data (i, j))).toInt

/-! ## The validity check -/

/-- What the check accepts. -/
def ValidCovariance (matrix : SignalMatrix Q) (checkDiagonal : Bool) : Prop :=
  ∀ i < matrix.rows, (checkDiagonal = true → 0 ≤ code matrix i i) ∧
    ∀ j < i, code matrix i j = code matrix j i

/-- The check decides validity and has one error. -/
theorem kalmanCovariance_spec (matrix : SignalMatrix Q) (checkDiagonal : Bool) :
    Ensures (kalmanCovariance matrix checkDiagonal)
      (fun _ => ValidCovariance matrix checkDiagonal)
      (fun e => e = .errorDomain ∧ ¬ValidCovariance matrix checkDiagonal) := by
  refine Ensures.forRange (fun k _ => ∀ i < k, (checkDiagonal = true → 0 ≤ code matrix i i) ∧
    ∀ j < i, code matrix i j = code matrix j i) (Nat.zero_le _) ?_ ?_
  · exact fun i hi => absurd hi (Nat.not_lt_zero i)
  · intro i _ _ hi hdone
    by_cases hneg : checkDiagonal = true ∧ (QFormat.widen (matrix.data (i, i))).toInt < 0
    · rw [if_pos hneg]
      exact ⟨rfl, fun hvalid => not_lt.mpr ((hvalid i hi).1 hneg.1) hneg.2⟩
    · rw [if_neg hneg]
      refine (Ensures.forRange (fun k _ => ∀ j < k, code matrix i j = code matrix j i)
        (Nat.zero_le i) ?_ ?_).imp ?_
      · exact fun j hj => absurd hj (Nat.not_lt_zero j)
      · intro j _ _ hj hrow
        by_cases hne : (QFormat.widen (matrix.data (i, j))).toInt ≠
            (QFormat.widen (matrix.data (j, i))).toInt
        · rw [if_pos hne]
          exact ⟨rfl, fun hvalid => hne ((hvalid i hi).2 j hj)⟩
        · rw [if_neg hne]
          intro k hk
          rcases Nat.lt_succ_iff_lt_or_eq.mp hk with hlt | rfl
          · exact hrow k hlt
          · exact not_not.mp hne
      · intro _ hrow k hk
        rcases Nat.lt_succ_iff_lt_or_eq.mp hk with hlt | rfl
        · exact hdone k hlt
        · refine ⟨fun hcheck => ?_, hrow⟩
          rw [not_and, not_lt] at hneg
          exact hneg hcheck

/-! ## Symmetric objects -/

/-- The stored covariance is exactly symmetric. -/
def SymmetricObject (s : KalmanMatrix Q) : Prop :=
  s.covariance.rows = s.dimension ∧
    ∀ i < s.dimension, ∀ j < s.dimension, code s.covariance i j = code s.covariance j i

/-- A checked object has a square covariance of its dimension. -/
theorem kalmanState_rows {wide : Bool} {views : KalmanViews} {s : KalmanMatrix Q}
    (h : kalmanState wide views s = .ok ()) : s.covariance.rows = s.dimension := by
  obtain ⟨_, -, h⟩ := ok_of_bind h
  simp only at h
  split at h
  · cases h
  · split at h
    · cases h
    · rename_i hshape
      simp only [not_or, not_not] at hshape
      exact hshape.2.2.1

/-- A committed covariance inherits the symmetry of its working matrix. -/
theorem kalmanCommit_symmetric {estimate covariance : Grid Int64} {s t : KalmanMatrix Q}
    (h : kalmanCommit estimate covariance s = (.ok (), t))
    (hrows : s.covariance.rows = s.dimension)
    (hsym : ∀ i < s.dimension, ∀ j < s.dimension, covariance (i, j) = covariance (j, i)) :
    SymmetricObject t := by
  rw [kalmanCommit, Procedure.read_bind] at h
  obtain ⟨x, -, h⟩ := Procedure.attempt_bind_eq_ok h
  obtain ⟨p, hp, h⟩ := Procedure.attempt_bind_eq_ok h
  cases h
  refine ⟨hrows, fun i hi j hj => ?_⟩
  have hleft := (fillBlock_ok hp).1 i hi j hj
  have hright := (fillBlock_ok hp).1 j hj i hi
  rw [hsym i hi j hj] at hleft
  exact congrArg (fun x => (QFormat.widen x).toInt)
    (Except.ok.inj (hleft.symm.trans hright))

theorem symmetrise_symmetric {n : ℕ} {a c : Grid Int64} (h : symmetrise n a = .ok c) :
    ∀ i < n, ∀ j < n, c (i, j) = c (j, i) := by
  obtain ⟨t, ht, h⟩ := ok_of_bind h
  exact fun i hi j hj => average_symmetric ht h hi hj

theorem predictValues_symmetric {n : ℕ} {x p f q : Grid Int64} {next : Grid Int64 × Grid Int64}
    (h : predictValues n x p f q = .ok next) :
    ∀ i < n, ∀ j < n, next.2 (i, j) = next.2 (j, i) := by
  obtain ⟨nx, -, h⟩ := ok_of_bind h
  obtain ⟨a, -, h⟩ := ok_of_bind h
  obtain ⟨b, -, h⟩ := ok_of_bind h
  obtain ⟨c, -, h⟩ := ok_of_bind h
  obtain ⟨d, -, h⟩ := ok_of_bind h
  obtain ⟨average, haverage, h⟩ := ok_of_bind h
  cases h
  exact symmetrise_symmetric haverage

theorem updateCovariance_symmetric {n m : ℕ} {p h r k kt a : Grid Int64}
    (hok : updateCovariance n m p h r k kt = .ok a) :
    ∀ i < n, ∀ j < n, a (i, j) = a (j, i) := by
  obtain ⟨kh, -, hok⟩ := ok_of_bind hok
  obtain ⟨jm, -, hok⟩ := ok_of_bind hok
  obtain ⟨jt, -, hok⟩ := ok_of_bind hok
  obtain ⟨jp, -, hok⟩ := ok_of_bind hok
  obtain ⟨d, -, hok⟩ := ok_of_bind hok
  obtain ⟨kr, -, hok⟩ := ok_of_bind hok
  obtain ⟨krk, -, hok⟩ := ok_of_bind hok
  obtain ⟨b, -, hok⟩ := ok_of_bind hok
  exact symmetrise_symmetric hok

theorem updateValues_symmetric {n m : ℕ} {x p z h r : Grid Int64}
    {next : Grid Int64 × Grid Int64} (hok : updateValues n m x p z h r = .ok next) :
    ∀ i < n, ∀ j < n, next.2 (i, j) = next.2 (j, i) := by
  obtain ⟨gain, -, hok⟩ := ok_of_bind hok
  obtain ⟨nx, -, hok⟩ := ok_of_bind hok
  obtain ⟨a, ha, hok⟩ := ok_of_bind hok
  cases hok
  exact updateCovariance_symmetric ha

/-! ## The calls -/

/-- No entry of the diagonal is negative. -/
def NonnegativeDiagonal (s : KalmanMatrix Q) : Prop :=
  ∀ i < s.dimension, 0 ≤ code s.covariance i i

/-- For a symmetric object the check is a check of the diagonal. -/
theorem SymmetricObject.validCovariance_iff {s : KalmanMatrix Q} (h : SymmetricObject s) :
    ValidCovariance s.covariance true ↔ NonnegativeDiagonal s := by
  obtain ⟨hrows, hsym⟩ := h
  simp only [ValidCovariance, NonnegativeDiagonal, hrows, true_implies]
  constructor
  · intro hvalid i hi
    exact (hvalid i hi).1
  · intro hdiag i hi
    exact ⟨hdiag i hi, fun j hj => hsym i hi j (hj.trans hi)⟩

theorem SymmetricObject.kalmanCovariance_eq {s : KalmanMatrix Q} (h : SymmetricObject s) :
    (kalmanCovariance s.covariance true = .ok () ↔ NonnegativeDiagonal s) ∧
      (kalmanCovariance s.covariance true = .error .errorDomain ↔ ¬NonnegativeDiagonal s) := by
  have hspec := kalmanCovariance_spec s.covariance true
  rw [h.validCovariance_iff] at hspec
  cases hcheck : kalmanCovariance s.covariance true with
  | ok u =>
      rw [hcheck] at hspec
      exact ⟨⟨fun _ => hspec, fun _ => rfl⟩, ⟨nofun, fun hneg => absurd hspec hneg⟩⟩
  | error e =>
      rw [hcheck] at hspec
      obtain ⟨rfl, hneg⟩ := hspec
      exact ⟨⟨nofun, fun hdiag => absurd hdiag hneg⟩, ⟨fun _ => hneg, fun _ => rfl⟩⟩

/-- A shape the caller names. -/
theorem kalmanShape_rows {wide : Bool} {matrix : SignalMatrix Q} {rows cols : ℕ}
    {view : MatrixView} (h : kalmanShape wide matrix rows cols view = .ok ()) (hrows : rows ≠ 0) :
    matrix.rows = rows := by
  obtain ⟨_, -, h⟩ := ok_of_bind h
  simp only at h
  split at h
  · cases h
  · rename_i hshape
    simp only [not_or, not_and, not_not] at hshape
    exact hshape.2.2.1 hrows

theorem kalmanState_dimension {wide : Bool} {views : KalmanViews} {s : KalmanMatrix Q}
    (h : kalmanState wide views s = .ok ()) : s.dimension ≠ 0 := by
  obtain ⟨_, -, h⟩ := ok_of_bind h
  simp only at h
  split at h
  · cases h
  · split at h
    · cases h
    · rename_i hshape
      simp only [not_or, not_not] at hshape
      exact hshape.1

/-- A reset stores a matrix that passed the check. -/
theorem kalmanReset_ok {wide : Bool} {call : KalmanReset Q} {s t : KalmanMatrix Q}
    (h : kalmanReset wide call s = (.ok (), t)) :
    SymmetricObject t ∧ NonnegativeDiagonal t := by
  rw [kalmanReset, Procedure.read_bind] at h
  obtain ⟨_, hchecks, h⟩ := Procedure.attempt_bind_eq_ok h
  cases h
  obtain ⟨_, hstate, hchecks⟩ := ok_of_bind hchecks
  obtain ⟨_, -, hchecks⟩ := ok_of_bind hchecks
  obtain ⟨_, hshape, hchecks⟩ := ok_of_bind hchecks
  obtain ⟨_, -, hcheck⟩ := ok_of_bind hchecks
  have hrows := kalmanShape_rows hshape (kalmanState_dimension hstate)
  have hvalid : ValidCovariance call.covariance true :=
    (kalmanCovariance_spec call.covariance true).of_eq_ok hcheck
  rw [ValidCovariance, hrows] at hvalid
  -- every element the object reads was copied
  have hcopied : ∀ i < s.dimension, ∀ j < s.dimension,
      copyBlock s.dimension s.dimension call.covariance.data s.covariance.data (i, j) =
        call.covariance.data (i, j) :=
    fun i hi j hj => if_pos ⟨hi, hj⟩
  have hdata : ∀ i < s.dimension, ∀ j < s.dimension, (QFormat.widen
      (copyBlock s.dimension s.dimension call.covariance.data s.covariance.data (i, j))).toInt =
        code call.covariance i j :=
    fun i hi j hj => congrArg (fun x => (QFormat.widen x).toInt) (hcopied i hi j hj)
  refine ⟨⟨kalmanState_rows hstate, fun i hi j hj => ?_⟩, fun i hi => ?_⟩
  · refine (hdata i hi j hj).trans (Eq.trans ?_ (hdata j hj i hi).symm)
    rcases lt_trichotomy i j with hlt | rfl | hlt
    · exact ((hvalid j hj).2 i hlt).symm
    · rfl
    · exact (hvalid i hi).2 j hlt
  · exact le_of_le_of_eq ((hvalid i hi).1 rfl) (hdata i hi i hi).symm

theorem kalmanPredict_symmetric {wide : Bool} {call : KalmanPredict Q} {s t : KalmanMatrix Q}
    (h : kalmanPredict wide call s = (.ok (), t)) : SymmetricObject t := by
  rw [kalmanPredict, Procedure.read_bind] at h
  obtain ⟨_, hchecks, h⟩ := Procedure.attempt_bind_eq_ok h
  obtain ⟨next, hnext, h⟩ := Procedure.attempt_bind_eq_ok h
  obtain ⟨_, hstate, -⟩ := ok_of_bind hchecks
  exact kalmanCommit_symmetric h (kalmanState_rows hstate) (predictValues_symmetric hnext)

theorem kalmanUpdate_symmetric {wide : Bool} {call : KalmanUpdate Q} {s t : KalmanMatrix Q}
    (h : kalmanUpdate wide call s = (.ok (), t)) : SymmetricObject t := by
  rw [kalmanUpdate, Procedure.read_bind] at h
  obtain ⟨_, hchecks, h⟩ := Procedure.attempt_bind_eq_ok h
  obtain ⟨next, hnext, h⟩ := Procedure.attempt_bind_eq_ok h
  obtain ⟨_, hstate, -⟩ := ok_of_bind hchecks
  exact kalmanCommit_symmetric h (kalmanState_rows hstate) (updateValues_symmetric hnext)

theorem KalmanCall.perform_symmetric {wide : Bool} (call : KalmanCall Q) {s t : KalmanMatrix Q}
    (h : call.perform wide s = (.ok (), t)) : SymmetricObject t := by
  cases call with
  | reset call => exact (kalmanReset_ok h).1
  | predict call => exact kalmanPredict_symmetric h
  | update call => exact kalmanUpdate_symmetric h

/-! ## Failing calls -/

/-- Both stores follow everything that can fail. -/
theorem kalmanCommit_atomic (estimate covariance : Grid Int64) :
    (kalmanCommit estimate covariance : Procedure Status (KalmanMatrix Q) Unit).Atomic := by
  refine Procedure.Atomic.read_bind _ fun s => ?_
  refine Procedure.Atomic.attempt_bind _ fun x => ?_
  refine Procedure.Atomic.attempt_bind _ fun p => ?_
  exact ((Procedure.Unfailing.write _).bind fun _ => Procedure.Unfailing.write _).atomic

theorem KalmanCall.perform_atomic (wide : Bool) (call : KalmanCall Q) :
    (call.perform wide).Atomic := by
  cases call with
  | reset call =>
      refine Procedure.Atomic.read_bind _ fun s => ?_
      refine Procedure.Atomic.attempt_bind _ fun _ => ?_
      exact ((Procedure.Unfailing.write _).bind fun _ => Procedure.Unfailing.write _).atomic
  | predict call =>
      refine Procedure.Atomic.read_bind _ fun s => ?_
      refine Procedure.Atomic.attempt_bind _ fun _ => ?_
      exact Procedure.Atomic.attempt_bind _ fun next => kalmanCommit_atomic next.1 next.2
  | update call =>
      refine Procedure.Atomic.read_bind _ fun s => ?_
      refine Procedure.Atomic.attempt_bind _ fun _ => ?_
      exact Procedure.Atomic.attempt_bind _ fun next => kalmanCommit_atomic next.1 next.2

/-! ## Runs -/

theorem kalmanMachine_preserves (wide : Bool) :
    (kalmanMachine Q wide).Preserves SymmetricObject := by
  intro call s hs
  exact (call.perform_atomic wide).preserves hs fun _ _ hok => call.perform_symmetric hok

/-- A predict or update that returns found no negative diagonal entry. -/
theorem KalmanCall.perform_diagonal {wide : Bool} {call : KalmanCall Q} {s t : KalmanMatrix Q}
    (h : call.perform wide s = (.ok (), t)) (hs : SymmetricObject s)
    (hcall : ∀ c, call ≠ .reset c) : NonnegativeDiagonal s := by
  have hchecked : kalmanCovariance s.covariance true = .ok () := by
    cases call with
    | reset c => exact absurd rfl (hcall c)
    | predict call =>
        rw [KalmanCall.perform, kalmanPredict, Procedure.read_bind] at h
        obtain ⟨_, hchecks, -⟩ := Procedure.attempt_bind_eq_ok h
        obtain ⟨_, -, hchecks⟩ := ok_of_bind hchecks
        obtain ⟨_, -, hchecks⟩ := ok_of_bind hchecks
        obtain ⟨_, -, hchecks⟩ := ok_of_bind hchecks
        obtain ⟨_, -, hchecks⟩ := ok_of_bind hchecks
        obtain ⟨_, -, hchecks⟩ := ok_of_bind hchecks
        obtain ⟨_, hcheck, -⟩ := ok_of_bind hchecks
        exact hcheck
    | update call =>
        rw [KalmanCall.perform, kalmanUpdate, Procedure.read_bind] at h
        obtain ⟨_, hchecks, -⟩ := Procedure.attempt_bind_eq_ok h
        obtain ⟨_, -, hchecks⟩ := ok_of_bind hchecks
        obtain ⟨_, -, hchecks⟩ := ok_of_bind hchecks
        obtain ⟨_, -, hchecks⟩ := ok_of_bind hchecks
        obtain ⟨_, -, hchecks⟩ := ok_of_bind hchecks
        obtain ⟨_, -, hchecks⟩ := ok_of_bind hchecks
        obtain ⟨_, -, hchecks⟩ := ok_of_bind hchecks
        obtain ⟨_, hcheck, -⟩ := ok_of_bind hchecks
        exact hcheck
  exact hs.kalmanCovariance_eq.1.mp hchecked

/-- After a reset, along every run: the covariance is symmetric, the check of
the next call can refuse it only for a negative diagonal entry, and a failing
call changes nothing. -/
theorem kalman_run_symmetric {wide : Bool} {call : KalmanReset Q} {s t : KalmanMatrix Q}
    (hreset : kalmanReset wide call s = (.ok (), t)) (calls : List (KalmanCall Q)) :
    NonnegativeDiagonal t ∧ ∀ u, ((kalmanMachine Q wide).run calls t).2 = u →
      SymmetricObject u ∧
      (kalmanCovariance u.covariance true = .ok () ↔ NonnegativeDiagonal u) ∧
      (kalmanCovariance u.covariance true = .error .errorDomain ↔ ¬NonnegativeDiagonal u) ∧
      ∀ next : KalmanCall Q,
        (∀ v, next.perform wide u = (.ok (), v) → SymmetricObject v ∧
          ((∃ c, next = .reset c) → NonnegativeDiagonal v) ∧
          ((∀ c, next ≠ .reset c) → NonnegativeDiagonal u)) ∧
        ∀ e v, next.perform wide u = (.error e, v) → v = u := by
  obtain ⟨hsym, hdiag⟩ := kalmanReset_ok hreset
  refine ⟨hdiag, ?_⟩
  rintro u rfl
  have hu := (kalmanMachine_preserves wide).run calls hsym
  refine ⟨hu, hu.kalmanCovariance_eq.1, hu.kalmanCovariance_eq.2, fun next => ⟨?_, ?_⟩⟩
  · intro v hv
    refine ⟨next.perform_symmetric hv, ?_, fun hnext => KalmanCall.perform_diagonal hv hu hnext⟩
    rintro ⟨c, rfl⟩
    exact (kalmanReset_ok hv).2
  · exact fun e v hv => next.perform_atomic wide _ e v hv

/-! ## A diagonal that turns negative -/

/-- A two-by-two array. -/
def pairGrid (a b c d : Int32) : ℕ × ℕ → Int32
  | (0, 0) => a
  | (0, 1) => b
  | (1, 0) => c
  | (1, 1) => d
  | _ => 0

def admittedViews : KalmanViews :=
  ⟨.ok (), ⟨.ok (), .ok ()⟩, ⟨.ok (), .ok ()⟩, .ok ()⟩

def driftObject : KalmanMatrix Int32 :=
  ⟨⟨2, 1, fun _ => 0⟩, ⟨2, 2, fun _ => 0⟩, 2, 4⟩

/-- The covariance is the product of the column `3, 2` with its transpose. -/
def driftReset : KalmanReset Int32 :=
  ⟨admittedViews, ⟨2, 1, fun _ => 0⟩, ⟨2, 2, pairGrid 9 6 6 4⟩, ⟨.ok (), .ok ()⟩,
    ⟨.ok (), .ok ()⟩, .ok ()⟩

/-- The first row of the transition is about `-0.59, 0.985`. -/
def driftPredict : KalmanPredict Int32 :=
  ⟨admittedViews, ⟨2, 2, pairGrid (-1267015352) 2115271557 0 0⟩, ⟨2, 2, fun _ => 0⟩,
    ⟨.ok (), .ok ()⟩, ⟨.ok (), .ok ()⟩, .ok (), .ok ()⟩

/-- The run of the theorem, at a reset and one prediction. -/
theorem kalman_run_symmetric_drift :
    SymmetricObject ((kalmanMachine Int32 true).run [.predict driftPredict]
      (kalmanReset true driftReset driftObject).2).2 :=
  ((kalman_run_symmetric (show kalmanReset true driftReset driftObject =
      (.ok (), (kalmanReset true driftReset driftObject).2) from Prod.ext (by decide +kernel) rfl)
    [.predict driftPredict]).2 _ rfl).1

/-- Rounding alone makes a variance negative, and the filter then refuses its
own state. -/
theorem kalman_predict_drift :
    ((kalmanMachine Int32 true).run
        [.reset driftReset, .predict driftPredict, .predict driftPredict] driftObject).1 =
      [.ok (), .ok (), .error .errorDomain] ∧
    code ((kalmanMachine Int32 true).run
        [.reset driftReset, .predict driftPredict] driftObject).2.covariance 0 0 = -1 := by
  decide +kernel

end Xhive.Kalman
