import Xhive.Particles.Upf
import Xhive.Particles.WeightRuns
import Xhive.Ukf.QSymmetry

/-!
# What an unscented particle filter keeps over its runs

A step narrows a symmetric posterior whose factor it took, so the check of the
stored covariances never refuses.  The weights behave as those of the plain
filter, and resampling moves particles and covariances by one ordered index
array.
-/

namespace Xhive.Particles

open Xhive.Support Xhive.Linears Xhive.Filters Xhive.Ukf Procedure

/-! ## Stored covariances -/

section Stored

variable {Q : Type} [UkfFormat Q]

/-- Exactly symmetric, with a diagonal that is not negative. -/
structure StoredCovariance (matrix : SignalMatrix Q) : Prop where
  diagonal : ∀ i < matrix.rows, 0 ≤ rawCode (matrix.data (i, i))
  symmetric : ∀ i < matrix.rows, ∀ j < i,
    rawCode (matrix.data (i, j)) = rawCode (matrix.data (j, i))

/-- The check decides this. -/
theorem ukfSymmetric_spec (matrix : SignalMatrix Q) :
    Ensures (ukfSymmetric matrix true) (fun _ => StoredCovariance matrix)
      (fun _ => ¬StoredCovariance matrix) := by
  have hloop : Ensures (ukfSymmetric matrix true)
      (fun _ => ∀ i < matrix.rows, 0 ≤ rawCode (matrix.data (i, i)) ∧
        ∀ j < i, rawCode (matrix.data (i, j)) = rawCode (matrix.data (j, i)))
      (fun _ => ¬StoredCovariance matrix) := by
    refine Ensures.forAll fun i hi => ?_
    refine Ensures.ite (fun hneg hstored => ?_) fun hnonneg => ?_
    · exact absurd (hstored.diagonal i hi) (not_le.mpr (Int64.lt_iff_toInt_lt.mp hneg.2))
    · have hrow : Ensures (forRange 0 i () fun j _ =>
          if QFormat.widen (matrix.data (i, j)) ≠ QFormat.widen (matrix.data (j, i)) then
            (.error .errorDomain : Except Status Unit)
          else .ok ())
          (fun _ => ∀ j < i, rawCode (matrix.data (i, j)) = rawCode (matrix.data (j, i)))
          (fun _ => ¬StoredCovariance matrix) := by
        refine Ensures.forAll fun j hj => Ensures.ite (fun hne => ?_) fun heq => ?_
        · exact fun hstored => hne (Int64.toInt_inj.mp (hstored.symmetric i hi j hj))
        · exact congrArg Int64.toInt (not_not.mp heq)
      refine hrow.imp fun _ hrow => ⟨?_, hrow⟩
      rw [not_and, Int64.lt_iff_toInt_lt, not_lt] at hnonneg
      exact hnonneg rfl
  refine hloop.imp fun _ h => ⟨fun i hi => (h i hi).1, fun i hi => (h i hi).2⟩

theorem StoredCovariance.accepted {matrix : SignalMatrix Q} (h : StoredCovariance matrix) :
    ukfSymmetric matrix true = .ok () := by
  have hspec := ukfSymmetric_spec matrix
  cases hcheck : ukfSymmetric matrix true with
  | ok u => rfl
  | error e =>
      rw [hcheck] at hspec
      exact absurd h hspec

end Stored

/-! ## Moved rows -/

section Rows

variable {Q : Type} {n count : ℕ} {indices : ℕ → ℕ}

theorem spreadCovariance_apply {i r c : ℕ} {covariance : SignalMatrix Q}
    {data : ℕ × ℕ → Q} (hi : i < count) (hr : r < n) (hc : c < n) :
    spreadCovariance count n covariance data (i, r * n + c) = covariance.data (r, c) := by
  rw [spreadCovariance, if_pos ⟨hi, rowMajor_lt hr hc⟩]
  dsimp only
  rw [rowMajor_div r hc, rowMajor_mod r hc]

/-- The first pass moves the rows that come from below. -/
theorem gatherUp_spec (data : ℕ × ℕ → Q) (p : ℕ × ℕ) :
    foldRange 0 count data (fun i data =>
      if indices i > i then copyRow n (indices i) i data else data) p =
        if p.1 < count ∧ indices p.1 > p.1 ∧ p.2 < n then data (indices p.1, p.2) else data p := by
  refine foldRange_induction (fun k (t : ℕ × ℕ → Q) => ∀ p : ℕ × ℕ, t p =
    if p.1 < k ∧ indices p.1 > p.1 ∧ p.2 < n then data (indices p.1, p.2) else data p)
    (Nat.zero_le count) ?_ ?_ p
  · intro p
    rw [if_neg fun h => absurd h.1 (Nat.not_lt_zero _)]
  · intro k t _ _ ht p
    by_cases hgt : indices k > k
    · rw [if_pos hgt, copyRow]
      by_cases hp : p.1 = k ∧ p.2 < n
      · rw [if_pos hp, ht, if_neg (by omega), if_pos ⟨by omega, by rw [hp.1]; exact hgt, hp.2⟩, hp.1]
      · rw [if_neg hp, ht]
        exact if_congr (by omega) rfl rfl
    · rw [if_neg hgt, ht]
      apply if_congr _ rfl rfl
      constructor
      · exact fun h => ⟨by omega, h.2⟩
      · rintro ⟨hlt, hrest⟩
        refine ⟨?_, hrest⟩
        rcases Nat.lt_succ_iff_lt_or_eq.mp hlt with hlt | heq
        · exact hlt
        · rw [heq] at hrest
          exact absurd hrest.1 hgt

/-- The second pass moves the rows that come from above. -/
theorem gatherDown_spec (data : ℕ × ℕ → Q) (p : ℕ × ℕ) :
    gatherDown n indices count data p =
      if p.1 < count ∧ indices p.1 < p.1 ∧ p.2 < n then data (indices p.1, p.2) else data p := by
  induction count generalizing data with
  | zero => rw [gatherDown, if_neg fun h => absurd h.1 (Nat.not_lt_zero _)]
  | succ k ih =>
      rw [gatherDown, ih]
      by_cases hlt : indices k < k
      · rw [if_pos hlt]
        by_cases hrow : p.1 < k ∧ indices p.1 < p.1 ∧ p.2 < n
        · rw [if_pos hrow, if_pos ⟨by omega, hrow.2⟩, copyRow,
            if_neg fun h => absurd h.1 (by have := hrow.1; have := hrow.2.1; dsimp only; omega)]
        · rw [if_neg hrow, copyRow]
          by_cases hp : p.1 = k ∧ p.2 < n
          · rw [if_pos hp, if_pos ⟨by omega, by rw [hp.1]; exact hlt, hp.2⟩, hp.1]
          · rw [if_neg hp, if_neg (by omega)]
      · rw [if_neg hlt]
        apply if_congr _ rfl rfl
        constructor
        · exact fun h => ⟨by omega, h.2⟩
        · rintro ⟨hk, hrest⟩
          refine ⟨?_, hrest⟩
          rcases Nat.lt_succ_iff_lt_or_eq.mp hk with hk | heq
          · exact hk
          · rw [heq] at hrest
            exact absurd hrest.1 hlt

/-- Under ordered indices every row is the old row of its index. -/
theorem ukfGatherRows_of_mono (hmono : ∀ i k, i ≤ k → k < count → indices i ≤ indices k)
    (data : ℕ × ℕ → Q) {i j : ℕ} (hi : i < count) (hj : j < n) :
    ukfGatherRows n indices count data (i, j) = data (indices i, j) := by
  rw [ukfGatherRows, gatherDown_spec]
  rcases Nat.lt_trichotomy (indices i) i with hlt | heq | hgt
  · -- the source row is above, and the first pass left it alone
    have hkept : ¬indices (indices i) > indices i := not_lt.mpr (hmono _ _ hlt.le hi)
    rw [if_pos ⟨hi, hlt, hj⟩, gatherUp_spec, if_neg fun h => hkept h.2.1]
  · rw [if_neg fun h => h.2.1.ne heq, gatherUp_spec, if_neg fun h => h.2.1.ne' heq, heq]
  · rw [if_neg fun h => absurd h.2.1 (not_lt.mpr hgt.le), gatherUp_spec, if_pos ⟨hi, hgt, hj⟩]

/-- No pass writes outside the gathered rows. -/
theorem ukfGatherRows_outside (data : ℕ × ℕ → Q) {p : ℕ × ℕ} (hp : ¬(p.1 < count ∧ p.2 < n)) :
    ukfGatherRows n indices count data p = data p := by
  rw [ukfGatherRows, gatherDown_spec, if_neg fun h => hp ⟨h.1, h.2.2⟩, gatherUp_spec,
    if_neg fun h => hp ⟨h.1, h.2.2⟩]

/-- The two passes in place are the gather out of place. -/
theorem gather_rows_in_place (hmono : ∀ i k, i ≤ k → k < count → indices i ≤ indices k)
    (data : ℕ × ℕ → Q) :
    ukfGatherRows n indices count data = fun p =>
      if p.1 < count ∧ p.2 < n then data (indices p.1, p.2) else data p := by
  funext p
  by_cases hp : p.1 < count ∧ p.2 < n
  · rw [if_pos hp]
    exact ukfGatherRows_of_mono hmono data hp.1 hp.2
  · rw [if_neg hp]
    exact ukfGatherRows_outside data hp

/-- Rows that come from below, from above and from themselves. -/
theorem gather_rows_in_place_sample :
    ukfGatherRows 1 (fun i => [1, 1, 1, 3].getD i 3) 4 (fun p => 10 * p.1 + p.2) = fun p =>
      if p.1 < 4 ∧ p.2 < 1 then 10 * [1, 1, 1, 3].getD p.1 3 + p.2 else 10 * p.1 + p.2 :=
  gather_rows_in_place (by
    intro i k hik hk
    have hcases : ∀ k < 4, ∀ i ≤ k, [1, 1, 1, 3].getD i 3 ≤ [1, 1, 1, 3].getD k 3 := by decide
    exact hcases k hk i hik) _

end Rows

/-! ## Calls -/

section Calls

variable {Q : Type} [UkfFormat Q]

/-- What every reachable object satisfies. -/
structure UpfInvariant (wide : Bool) (s : UpfState Q) : Prop where
  base : PfInvariant wide s.base
  stored : ∀ i < s.base.count, StoredCovariance (s.covariance i)

/-- A copied row holds a checked matrix in row-major order. -/
theorem StoredCovariance.of_rowMajor {s : UpfState Q} {i : ℕ} {matrix : SignalMatrix Q}
    (h : StoredCovariance matrix) (hrows : matrix.rows = s.base.dimension)
    (hdata : ∀ r < s.base.dimension, ∀ c < s.base.dimension,
      s.covariances.data (i, r * s.base.dimension + c) = matrix.data (r, c)) :
    StoredCovariance (s.covariance i) := by
  constructor
  · intro r hr
    have hvalue := h.diagonal r (hrows ▸ hr)
    rw [← hdata r hr r hr] at hvalue
    exact hvalue
  · intro r hr c hc
    have hvalue := h.symmetric r (hrows ▸ hr) c hc
    rw [← hdata r hr c (hc.trans hr), ← hdata c (hc.trans hr) r hr] at hvalue
    exact hvalue

/-! ### Init -/

theorem upfCheckState_eq_ok {wide : Bool} {views : UpfViews} {s : UpfState Q}
    (h : upfCheckState wide views s = .ok ()) :
    0 < s.base.count ∧ 0 < s.base.dimension ∧ s.base.weights.rows = s.base.count ∧
      s.base.count * FilterFormat.scalarBytes Q < sizeMax wide := by
  obtain ⟨_, hbase, -⟩ := ok_of_bind h
  obtain ⟨hcount, hrows, hfits⟩ := pfCheckState_eq_ok hbase
  obtain ⟨_, -, hbase⟩ := ok_of_bind hbase
  obtain ⟨_, hparticles, -⟩ := ok_of_bind hbase
  obtain ⟨_, hparticles, -⟩ := ok_of_bind hparticles
  obtain ⟨-, hcols, -, -, -⟩ := ukfShape_eq_ok hparticles
  exact ⟨hcount, hcols, hrows, hfits⟩

/-- The checks of an init that reach its commits. -/
theorem upfInitChecks_ok {env : UpfEnvironment Q} {call : UpfInitCall Q} {s : UpfState Q}
    {checked : RowSampler Q × UkfWeights (WorkBits Q)}
    (h : upfInitChecks env call s = .ok checked) :
    upfCheckState env.wide call.views s = .ok () ∧
      call.base.covariance.rows = s.base.dimension ∧ StoredCovariance call.base.covariance := by
  rw [upfInitChecks] at h
  rcases hsample : call.base.sample with _ | sample
  · simp only [hsample] at h
    cases h
  · simp only [hsample] at h
    obtain ⟨_, hstate, h⟩ := ok_of_bind h
    obtain ⟨_, -, h⟩ := ok_of_bind h
    obtain ⟨_, hmatrix, h⟩ := ok_of_bind h
    obtain ⟨_, -, h⟩ := ok_of_bind h
    obtain ⟨_, -, h⟩ := ok_of_bind h
    obtain ⟨_, -, h⟩ := ok_of_bind h
    obtain ⟨_, -, h⟩ := ok_of_bind h
    obtain ⟨_, hsymmetric, -⟩ := ok_of_bind h
    obtain ⟨_, -, hmatrix⟩ := ok_of_bind hmatrix
    obtain ⟨_, hshape, -⟩ := ok_of_bind hmatrix
    obtain ⟨-, -, hrows, -, -⟩ := ukfShape_eq_ok hshape
    obtain ⟨-, hdimension, -, -⟩ := upfCheckState_eq_ok hstate
    exact ⟨hstate, hrows hdimension.ne', (ukfSymmetric_spec _).of_eq_ok hsymmetric⟩

/-- A successful init establishes the invariant. -/
theorem upfInit_invariant {env : UpfEnvironment Q} {call : UpfInitCall Q} {s t : UpfState Q}
    (h : upfInit env call s = (.ok (), t)) : UpfInvariant env.wide t := by
  rw [upfInit, read_bind, id_eq] at h
  obtain ⟨checked, hchecks, h⟩ := attempt_bind_eq_ok h
  obtain ⟨base, hbase, h⟩ := attempt_bind_eq_ok h
  rw [write_bind, write_bind] at h
  cases h
  obtain ⟨hstate, hrows, hstored⟩ := upfInitChecks_ok hchecks
  obtain ⟨hcount, -, hweights, hfits⟩ := upfCheckState_eq_ok hstate
  obtain ⟨factor, -, hbase⟩ := ok_of_bind hbase
  obtain ⟨signal, -, hbase⟩ := ok_of_bind hbase
  cases hbase
  have hscaled := resetWeights_scaled s.base.weights (by rw [hweights]; exact hcount)
  rw [hweights] at hscaled
  constructor
  · exact ⟨hweights, hfits, hscaled⟩
  · intro i hi
    exact hstored.of_rowMajor hrows fun r hr c hc => spreadCovariance_apply hi hr hc

/-! ### Step -/

theorem workFits_ok {A : SignalArith Q (WorkBits Q)} {count : ℕ} {value : ℕ → WorkBits Q}
    (h : workFits A count value = .ok ()) : ∀ i < count, A.inUnit (value i) = true := by
  have hspec : Ensures (workFits A count value) (fun _ => ∀ i < count, A.inUnit (value i) = true)
      fun _ => True :=
    Ensures.forAll fun i _ => Ensures.ite (fun hunit => hunit) fun _ => trivial
  exact hspec.of_eq_ok h

/-- A staged covariance is symmetric, in range and has a positive diagonal. -/
theorem upfRow_covariance {env : UpfEnvironment Q} (hops : env.ops.Signed)
    {o : UpfOperands (WorkBits Q)} {model : UpfModel (WorkBits Q)} {sample : RowSampler Q} {i : ℕ}
    {particle : ℕ → WorkBits Q} {covariance : Grid (WorkBits Q)} {row : UpfRow (WorkBits Q)}
    (h : upfRow env.arith env.kernels o model sample i particle covariance = .ok row) :
    Mirrored row.covariance ∧
      (∀ r < o.n, ∀ c < o.n, workInUnit (row.covariance (r, c)) = true) ∧
      ∀ r < o.n, (row.covariance (r, r)).msb = false := by
  obtain ⟨posterior, hposterior, h⟩ := ok_of_bind h
  obtain ⟨factor, hfactor, h⟩ := ok_of_bind h
  obtain ⟨draw, -, h⟩ := ok_of_bind h
  obtain ⟨_, -, h⟩ := ok_of_bind h
  obtain ⟨moved, -, h⟩ := ok_of_bind h
  obtain ⟨term, -, h⟩ := ok_of_bind h
  obtain ⟨term', -, h⟩ := ok_of_bind h
  obtain ⟨exponent, -, h⟩ := ok_of_bind h
  obtain ⟨_, -, h⟩ := ok_of_bind h
  obtain ⟨_, hfits, h⟩ := ok_of_bind h
  cases h
  obtain ⟨prior, -, hposterior⟩ := ok_of_bind hposterior
  obtain ⟨_, -, hupdate⟩ := ok_of_bind hposterior
  refine ⟨qUpdateCore_mirrored hupdate, ?_, fun r hr => ukfCholesky_diagonal_pos hops hfactor hr⟩
  intro r hr c hc
  have hcell := workFits_ok hfits _ (rowMajor_lt hr hc)
  rw [rowMajor_div r hc, rowMajor_mod r hc] at hcell
  exact hcell

/-- The staged rows before `i` hold valid covariances. -/
def StagedValid (n i : ℕ) (staged : UpfStaged Q) : Prop :=
  ∀ k < i, StoredCovariance ⟨n, n, fun p => staged.covariances (k, p.1 * n + p.2)⟩

theorem upfStage_valid {env : UpfEnvironment Q} (hops : env.ops.Signed) {s : UpfState Q}
    {o : UpfOperands (WorkBits Q)} {model : UpfModel (WorkBits Q)} {sample : RowSampler Q} {i : ℕ}
    {staged next : UpfStaged Q} (h : upfStage env s o model sample i staged = .ok next)
    (hvalid : StagedValid o.n i staged) : StagedValid o.n (i + 1) next := by
  obtain ⟨_, -, h⟩ := ok_of_bind h
  obtain ⟨row, hrow, h⟩ := ok_of_bind h
  cases h
  obtain ⟨hmirrored, hunit, hsign⟩ := upfRow_covariance hops hrow
  intro k hk
  rcases Nat.lt_succ_iff_lt_or_eq.mp hk with hlt | rfl
  · -- another row is as it was
    have hsame : ∀ a, stageRow env.base.platform (o.n * o.n) i
        (fun a => row.covariance (a / o.n, a % o.n)) staged.covariances (k, a) =
          staged.covariances (k, a) := fun a => if_neg fun hp => hlt.ne hp.1
    simp only [hsame]
    exact hvalid k hlt
  · have hcell : ∀ r < o.n, ∀ c < o.n, stageRow env.base.platform (o.n * o.n) k
        (fun a => row.covariance (a / o.n, a % o.n)) staged.covariances (k, r * o.n + c) =
          narrowBits (row.covariance (r, c)) := by
      intro r hr c hc
      rw [stageRow, if_pos ⟨rfl, rowMajor_lt hr hc⟩, rowMajor_div r hc, rowMajor_mod r hc]
      rfl
    constructor
    · intro r hr
      dsimp only
      rw [hcell r hr r hr]
      exact rawCode_narrowBits_nonneg (hunit r hr r hr) (hsign r hr)
    · intro r hr c hc
      dsimp only
      rw [hcell r hr c (hc.trans hr), hcell c (hc.trans hr) r hr, hmirrored r c]

theorem upfOperands_n {env : UpfEnvironment Q} {call : UpfStepCall Q} {s : UpfState Q}
    {o : UpfOperands (WorkBits Q)} (h : upfOperands env call s = .ok o) :
    o.n = s.base.dimension := by
  obtain ⟨_, -, h⟩ := ok_of_bind h
  obtain ⟨_, -, h⟩ := ok_of_bind h
  obtain ⟨_, -, h⟩ := ok_of_bind h
  cases h
  rfl

/-- What a successful step commits. -/
theorem upfStep_ok {env : UpfEnvironment Q} (hops : env.ops.Signed) {call : UpfStepCall Q}
    {s t : UpfState Q} {a : Unit} (h : upfStep env call s = (.ok a, t)) :
    t.base.count = s.base.count ∧ t.base.weights.rows = s.base.weights.rows ∧
      (∀ i < s.base.count, StoredCovariance (t.covariance i)) ∧
      ∃ exponents staged, reweight env.base.platform s.base.weight exponents s.base.count
          call.weights = .ok staged ∧
        ∀ i < s.base.count, t.base.weight i = staged i := by
  rw [upfStep, read_bind, id_eq] at h
  obtain ⟨given, -, h⟩ := attempt_bind_eq_ok h
  obtain ⟨o, ho, h⟩ := attempt_bind_eq_ok h
  obtain ⟨staged, hstaged, h⟩ := attempt_bind_eq_ok h
  obtain ⟨weights, hweights, h⟩ := attempt_bind_eq_ok h
  rw [write_bind, write_bind] at h
  cases h
  have hn := upfOperands_n ho
  have hloop : Ensures (forRange 0 s.base.count
      (⟨call.particles, call.covariances, fun _ => 0⟩ : UpfStaged Q)
      (upfStage env s o given.1 given.2)) (StagedValid o.n s.base.count) fun _ => True := by
    refine Ensures.forRange (StagedValid o.n) (Nat.zero_le _)
      (fun k hk => absurd hk (Nat.not_lt_zero k)) ?_
    intro i staged _ _ hvalid
    rcases hstage : upfStage env s o given.1 given.2 i staged with e | next
    · trivial
    · exact upfStage_valid hops hstage hvalid
  have hvalid := hloop.of_eq_ok hstaged
  refine ⟨rfl, rfl, fun i hi => ?_, staged.exponents, weights, hweights, fun i hi => ?_⟩
  · refine (hvalid i hi).of_rowMajor hn fun r hr c hc => ?_
    rw [hn]
    exact if_pos ⟨hi, rowMajor_lt hr hc⟩
  · exact if_pos ⟨hi, Nat.one_pos⟩

/-! ### Resample -/

/-- The rows of a successful resampling come from one ordered index array. -/
theorem upfResample_ok {env : UpfEnvironment Q} {call : UpfResampleCall} {s t : UpfState Q}
    (hs : PfInvariant env.wide s.base) {indices : ℕ → ℕ}
    (h : upfResample env call s = (.ok indices, t)) :
    t.base.count = s.base.count ∧ t.base.dimension = s.base.dimension ∧
      t.base.weights = resetWeights s.base.weights ∧
      ∀ i < s.base.count, indices i < s.base.count ∧
        (∀ j < s.base.dimension, t.base.particle i j = s.base.particle (indices i) j) ∧
        ∀ j < s.base.dimension * s.base.dimension,
          t.covariances.data (i, j) = s.covariances.data (indices i, j) := by
  rw [upfResample, read_bind, id_eq] at h
  obtain ⟨out, hout, h⟩ := attempt_bind_eq_ok h
  rw [write_bind, write_bind, write_bind] at h
  cases h
  obtain ⟨_, -, hout⟩ := ok_of_bind hout
  rcases hindices : call.indices with _ | given
  · simp only [hindices] at hout
    cases hout
  simp only [hindices] at hout
  by_cases hcapacity : call.capacity < s.base.count
  · rw [if_pos hcapacity] at hout
    cases hout
  rw [if_neg hcapacity] at hout
  obtain ⟨_, -, hout⟩ := ok_of_bind hout
  have hordered : (∀ i k, i ≤ k → k < s.base.count → indices i ≤ indices k) ∧
      ∀ i < s.base.count, indices i < s.base.count := by
    rcases huniform : call.uniform with _ | _ | d
    · rw [huniform, resampleIndices, if_neg hcapacity] at hout
      cases hout
    · rw [huniform, resampleIndices, if_neg hcapacity] at hout
      cases hout
    · have hadmitted := hs.scaled.admitted hs.fits
      obtain ⟨least, hleast, hrows⟩ :=
        resampleIndices_least hadmitted d given (not_lt.mp hcapacity)
      rw [huniform] at hout
      obtain rfl := Except.ok.inj (hleast.symm.trans hout)
      exact ⟨fun i k hik hk => (hrows i (hik.trans_lt hk)).mono (hrows k hk) hik,
        fun i hi => (hrows i hi).lt⟩
  refine ⟨rfl, rfl, rfl, fun i hi => ⟨hordered.2 i hi, fun j hj => ?_, fun j hj => ?_⟩⟩
  · exact ukfGatherRows_of_mono hordered.1 _ hi hj
  · exact ukfGatherRows_of_mono hordered.1 _ hi hj

/-! ### Runs -/

theorem upfStep_atomic (env : UpfEnvironment Q) (call : UpfStepCall Q) :
    (upfStep env call).Atomic := by
  apply Atomic.read_bind
  intro s
  iterate 4
    apply Atomic.attempt_bind
    intro _
  apply Unfailing.atomic
  apply (Unfailing.write _).bind
  intro _
  apply (Unfailing.write _).bind
  intro _
  exact Unfailing.write _

theorem upfResample_atomic (env : UpfEnvironment Q) (call : UpfResampleCall) :
    (upfResample env call).Atomic := by
  apply Atomic.read_bind
  intro s
  apply Atomic.attempt_bind
  intro _
  apply Unfailing.atomic
  iterate 3
    apply (Unfailing.write _).bind
    intro _
  exact Unfailing.pure _

/-- A failing call changes nothing. -/
theorem UpfCall.perform_atomic (env : UpfEnvironment Q) (call : UpfCall Q) :
    (call.perform env).Atomic := by
  cases call with
  | step call => exact upfStep_atomic env call
  | resample call => exact (upfResample_atomic env call).bind_unfailing fun _ => Unfailing.pure _

/-- Every call keeps the invariant. -/
theorem UpfInvariant.perform {env : UpfEnvironment Q} (hplatform : env.base.platform.Standard)
    (hops : env.ops.Signed) {s : UpfState Q} (h : UpfInvariant env.wide s) (call : UpfCall Q) :
    UpfInvariant env.wide (call.perform env s).2 := by
  apply (call.perform_atomic env).preserves h
  intro a t ht
  cases call with
  | step call =>
      obtain ⟨hcount, hrows, hstored, exponents, staged, hstaged, hweight⟩ := upfStep_ok hops ht
      constructor
      · constructor
        · rw [hcount, hrows]
          exact h.base.rows
        · rw [hcount]
          exact h.base.fits
        · rw [hcount]
          exact (reweight_scaled hplatform h.base.scaled hstaged).congr hweight
      · rw [hcount]
        exact hstored
  | resample call =>
      obtain ⟨indices, u, hresample, hrest⟩ := bind_eq_ok ht
      cases hrest
      obtain ⟨hcount, hdimension, hweights, hgathered⟩ := upfResample_ok h.base hresample
      have hpos : 0 < s.base.weights.rows := by
        obtain ⟨i, hi, -⟩ := h.base.scaled.full
        rw [h.base.rows]
        exact Nat.zero_lt_of_lt hi
      have hscaled := resetWeights_scaled s.base.weights hpos
      rw [h.base.rows] at hscaled
      constructor
      · constructor
        · rw [hcount, hweights]
          exact h.base.rows
        · rw [hcount]
          exact h.base.fits
        · rw [hcount]
          apply hscaled.congr
          intro i _
          rw [PfState.weight, hweights]
      · intro i hi
        rw [hcount] at hi
        obtain ⟨hindex, -, hcovariance⟩ := hgathered i hi
        refine (h.stored _ hindex).of_rowMajor hdimension.symm fun r hr c hc => ?_
        rw [hdimension] at hr hc ⊢
        exact hcovariance _ (rowMajor_lt hr hc)

/-- The invariant of a run. -/
theorem UpfReachable.invariant {env : UpfEnvironment Q} (hplatform : env.base.platform.Standard)
    (hops : env.ops.Signed) {s : UpfState Q} (h : UpfReachable env s) :
    UpfInvariant env.wide s := by
  induction h with
  | init call h => exact upfInit_invariant h
  | call call _ ih => exact ih.perform hplatform hops call

/-- After a successful init and any steps and resamplings, failing or not: every
stored covariance is exactly symmetric with a diagonal that is not negative, so
the check of a step accepts it; every weight is in range and one is the largest
signal; a successful resampling gives row `i` of the particles and of the
covariances the old rows of one index; and a failing call changes nothing. -/
theorem unscented_runs_stay_valid {env : UpfEnvironment Q} (hplatform : env.base.platform.Standard)
    (hops : env.ops.Signed) {s : UpfState Q} (hs : UpfReachable env s) :
    (∀ i < s.base.count, ∀ r < s.base.dimension,
      0 ≤ rawCode ((s.covariance i).data (r, r)) ∧ ∀ c < s.base.dimension,
        rawCode ((s.covariance i).data (r, c)) = rawCode ((s.covariance i).data (c, r))) ∧
    (∀ i < s.base.count, ukfSymmetric (s.covariance i) true = .ok ()) ∧
    (∀ i < s.base.count, 0 ≤ rawCode (s.base.weight i) ∧
      rawCode (s.base.weight i) ≤ rawCode (ParticleFormat.signalMax : Q)) ∧
    (∃ i < s.base.count, s.base.weight i = ParticleFormat.signalMax) ∧
    (∀ (call : UpfResampleCall) (indices : ℕ → ℕ) (t : UpfState Q),
      upfResample env call s = (.ok indices, t) → ∀ i < s.base.count,
        indices i < s.base.count ∧
        (∀ j < s.base.dimension, t.base.particle i j = s.base.particle (indices i) j) ∧
        ∀ j < s.base.dimension * s.base.dimension,
          t.covariances.data (i, j) = s.covariances.data (indices i, j)) ∧
    ∀ (call : UpfCall Q) (e : Status) (t : UpfState Q), call.perform env s = (.error e, t) →
      t = s := by
  have hinv := hs.invariant hplatform hops
  refine ⟨fun i hi r hr => ⟨(hinv.stored i hi).diagonal r hr, fun c hc => ?_⟩,
    fun i hi => (hinv.stored i hi).accepted,
    fun i hi => ⟨hinv.base.scaled.nonneg i hi, toInt_le_signalMax _⟩, hinv.base.scaled.full, ?_,
    fun call e t ht => call.perform_atomic env s e t ht⟩
  · rcases Nat.lt_trichotomy c r with hlt | rfl | hgt
    · exact (hinv.stored i hi).symmetric r hr c hlt
    · rfl
    · exact ((hinv.stored i hi).symmetric c hc r hgt).symm
  · intro call indices t ht
    exact (upfResample_ok hinv.base ht).2.2.2

/-! ### Two particles -/

/-- Operations that are right on zero and one. -/
def stillOps : WorkArith (WorkBits Int16) where
  ofInt k := if k = 0 then 0 else 0x3f800000
  exp2 _ := 0x3f000000
  add x y := if x = 0 then y else x
  sub _ _ := 0
  mul x y := if x = 0x3f800000 ∧ y = 0x3f800000 then 0x3f800000 else 0
  div x _ := x
  abs x := x
  sqrt x := x
  less := exponentLess
  lessEq x y := !exponentLess y x
  equal x y := x == y
  finite := workFinite

theorem stillOps_signed : stillOps.Signed where
  square x _ := by
    have hcases : stillOps.mul x x = 0x3f800000 ∨ stillOps.mul x x = 0 :=
      ite_eq_or_eq _ _ _
    rcases hcases with heq | heq
    · rw [heq]
      decide
    · rw [heq]
      decide
  sub_pos _ _ _ h := by
    have hzero : stillOps.less stillOps.zero (0 : WorkBits Int16) = false := by decide
    exact absurd (hzero.symm.trans h) Bool.false_ne_true
  pos x h := by
    have hkey := (exponentLess_iff _ _).mp h
    have hzero : exponentKey (stillOps.zero : WorkBits Int16) = 0 := by decide
    rw [hzero, exponentKey] at hkey
    by_contra hsign
    rw [Bool.not_eq_false] at hsign
    rw [hsign, if_pos rfl] at hkey
    omega

def stillUnscented : UpfEnvironment Int16 where
  wide := true
  ops := stillOps
  truncate _ := 0
  scaledExp _ := 2147483648
  kernels :=
    { dot := fun _ _ _ => 0
      perturbTry := fun _ _ _ => none
      dotTry := fun _ _ => none
      logDeterminantTry := fun _ _ => none
      halfNorm := fun _ _ _ => .ok 0
      log := fun x => x }
  initKernels := stillEnvironment.kernels

theorem stillUnscented_standard : stillUnscented.base.platform.Standard where
  sub_nonneg _ _ _ _ _ := by
    have hzero : workNan (0 : WorkBits Int16) = false ∧ workBelowZero (0 : WorkBits Int16) = false :=
      by decide
    exact hzero
  scaledExp_le _ _ _ := UInt64.le_refl _

def stillUnscentedInit : UpfInitCall Int16 where
  base := stillInit
  views := ⟨stillInit.views, .ok ()⟩
  alpha := 0x3f800000
  beta := 0
  kappa := 0

/-- Two particles at zero with a variance of one quarter. -/
def stillUnscentedState : UpfState Int16 :=
  (upfInit stillUnscented stillUnscentedInit
    ⟨stillObject, constantMatrix 2 0, ⟨0, 0, 0, 0⟩⟩).2

theorem stillUnscentedState_reachable : UpfReachable stillUnscented stillUnscentedState := by
  have hok : (upfInit stillUnscented stillUnscentedInit
      ⟨stillObject, constantMatrix 2 0, ⟨0, 0, 0, 0⟩⟩).1 = .ok () := by decide +kernel
  exact .init stillUnscentedInit (Prod.ext hok rfl)

theorem unscented_runs_stay_valid_two :
    ∃ i < stillUnscentedState.base.count,
      stillUnscentedState.base.weight i = ParticleFormat.signalMax :=
  (unscented_runs_stay_valid stillUnscented_standard stillOps_signed
    stillUnscentedState_reachable).2.2.2.1

end Calls

end Xhive.Particles
