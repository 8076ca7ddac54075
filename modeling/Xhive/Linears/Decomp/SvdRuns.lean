import Xhive.Linears.Decomp.Svd

/-!
# Runs of the sweep loop

The loop of `svd_factor` as a sequence of positions: a sweep, the pair visited
next in it, and the arrays.  The loop visits nothing else, whether it ends or
stops with a status; the last sweep rotates nothing; and no path leaves a norm
that is not the norm of its column.
-/

namespace Xhive.Linears

open Xhive.Support

section Runs

variable {S A : Type} [LinearOrder S] {D : Adapter S A}
variable {rows columns maxSweeps sweep p q : ℕ} {tolerance : S} {last : Bool}
variable {start s t : SvdState S}

/-! ## Positions -/

variable (D rows columns tolerance) in
/-- The head of a sweep, up to its first pair. -/
def svdBegin (s : SvdState S) : Except Status (SvdState S) := do
  let norms ← svdNorms D rows columns s
  let cutoff ← D.mul norms.2 tolerance
  .ok (svdCutoff D columns cutoff { s with norms := norms.1, rotated := false })

theorem svdSweep_eq : svdSweep D rows columns tolerance last s =
    svdBegin D rows columns tolerance s >>= fun s =>
      forRange 0 columns s fun p s =>
        forRange (p + 1) columns s fun q s => svdPair D rows columns tolerance last p q s := by
  rw [svdSweep, svdBegin]
  cases svdNorms D rows columns s with
  | error e => rfl
  | ok norms =>
      rw [ok_bind, ok_bind]
      cases D.mul norms.2 tolerance <;> rfl

variable (D rows columns tolerance maxSweeps) in
/-- In sweep number `sweep`, with state `s`, the pair `(p, q)` comes next. -/
inductive SvdVisits (start : SvdState S) : ℕ → ℕ → ℕ → SvdState S → Prop
  | enter {s : SvdState S} (hbegin : svdBegin D rows columns tolerance start = .ok s) :
      SvdVisits start 0 0 1 s
  | pair {sweep p q : ℕ} {s t : SvdState S} (h : SvdVisits start sweep p q s)
      (hp : p < columns) (hq : q < columns)
      (hpair : svdPair D rows columns tolerance (sweep == maxSweeps) p q s = .ok t) :
      SvdVisits start sweep p (q + 1) t
  | row {sweep p q : ℕ} {s : SvdState S} (h : SvdVisits start sweep p q s)
      (hp : p < columns) (hq : columns ≤ q) :
      SvdVisits start sweep (p + 1) (p + 2) s
  | again {sweep p q : ℕ} {s t : SvdState S} (h : SvdVisits start sweep p q s)
      (hp : columns ≤ p) (hrotated : s.rotated = true)
      (hbegin : svdBegin D rows columns tolerance s = .ok t) :
      SvdVisits start (sweep + 1) 0 1 t

variable (D rows columns tolerance maxSweeps) in
/-- The loop stops with `e` at a position it visits. -/
def SvdStops (start : SvdState S) (e : Status) : Prop :=
  svdBegin D rows columns tolerance start = .error e ∨
    ∃ sweep p q s, SvdVisits D rows columns maxSweeps tolerance start sweep p q s ∧
      (p < columns ∧ q < columns ∧
        svdPair D rows columns tolerance (sweep == maxSweeps) p q s = .error e ∨
      columns ≤ p ∧ s.rotated = true ∧ svdBegin D rows columns tolerance s = .error e)

/-! ## What a pair does -/

/-- A pair is skipped, found within the tolerance, or rotated. -/
theorem svdPair_cases (h : svdPair D rows columns tolerance last p q s = .ok t) :
    ((s.norms p = D.zero ∨ s.norms q = D.zero) ∧ t = s) ∨
    ¬(s.norms p = D.zero ∨ s.norms q = D.zero) ∧ ∃ correlation,
      svdCorrelation D rows p q (s.norms p) (s.norms q) s.b = .ok correlation ∧
      ((∃ magnitude, D.abs correlation = .ok magnitude ∧ magnitude ≤ tolerance ∧
        t = { s with pending := .ok }) ∨
      (∃ e, D.abs correlation = .error e ∧ t = { s with pending := e }) ∨
      last = false ∧ svdRotateStep D rows columns p q correlation s = .ok t) := by
  rw [svdPair] at h
  split at h
  · exact Or.inl ⟨‹_›, (Except.ok.inj h).symm⟩
  · obtain ⟨correlation, hcorrelation, h⟩ := ok_of_bind h
    refine Or.inr ⟨‹_›, correlation, hcorrelation, ?_⟩
    cases habs : D.abs correlation with
    | ok magnitude =>
        rw [habs] at h
        by_cases hle : magnitude ≤ tolerance
        · exact Or.inl ⟨magnitude, rfl, hle, (Except.ok.inj ((if_pos hle).symm.trans h)).symm⟩
        · have hlarge := (if_neg hle).symm.trans h
          cases last with
          | true => exact absurd hlarge nofun
          | false => exact Or.inr (Or.inr ⟨rfl, hlarge⟩)
    | error e =>
        rw [habs] at h
        by_cases hle : D.zero ≤ tolerance
        · exact Or.inr (Or.inl ⟨e, rfl, (Except.ok.inj ((if_pos hle).symm.trans h)).symm⟩)
        · have hlarge := (if_neg hle).symm.trans h
          cases last with
          | true => exact absurd hlarge nofun
          | false => exact Or.inr (Or.inr ⟨rfl, hlarge⟩)

/-- The arrays after a rotation. -/
theorem svdRotateStep_cases {correlation : S}
    (h : svdRotateStep D rows columns p q correlation s = .ok t) :
    t.rotated = true ∧ t.pending = .ok ∧ ∃ cosine sine changed normP normQ,
      svdRotateColumns D rows p q cosine sine s.b = .ok (t.b, changed) ∧
      D.norm (fun row => t.b (row, p)) rows = .ok normP ∧
      D.norm (fun row => t.b (row, q)) rows = .ok normQ ∧
      t.norms = Function.update (Function.update s.norms p normP) q normQ := by
  rw [svdRotateStep] at h
  obtain ⟨angle, -, h⟩ := ok_of_bind h
  split at h
  · exact absurd h nofun
  · obtain ⟨b, hb, h⟩ := ok_of_bind h
    split at h
    · exact absurd h nofun
    · obtain ⟨w, -, h⟩ := ok_of_bind h
      obtain ⟨normP, hnormP, h⟩ := ok_of_bind h
      obtain ⟨normQ, hnormQ, h⟩ := ok_of_bind h
      cases h
      exact ⟨rfl, rfl, angle.1, angle.2, b.2, normP, normQ, hb, hnormP, hnormQ, rfl⟩

theorem svdRotateStep_rotated {correlation : S}
    (h : svdRotateStep D rows columns p q correlation s = .ok t) : t.rotated = true :=
  (svdRotateStep_cases h).1

theorem svdBegin_rotated (h : svdBegin D rows columns tolerance s = .ok t) : t.rotated = false := by
  obtain ⟨norms, -, h⟩ := ok_of_bind h
  obtain ⟨cutoff, -, h⟩ := ok_of_bind h
  cases h
  rfl

/-! ## The number of sweeps -/

/-- The sweeps before this one all rotated, and this one only may while it is not
the last. -/
theorem SvdVisits.sweep_le (h : SvdVisits D rows columns maxSweeps tolerance start sweep p q s) :
    sweep + (if s.rotated then 1 else 0) ≤ maxSweeps := by
  induction h with
  | enter hbegin => simp [svdBegin_rotated hbegin]
  | pair h hp hq hpair ih =>
      rcases svdPair_cases hpair with ⟨-, rfl⟩ | ⟨-, _, -, ⟨_, -, -, rfl⟩ | ⟨_, -, rfl⟩ |
        ⟨hlast, hrotate⟩⟩
      · exact ih
      · exact ih
      · exact ih
      · rw [svdRotateStep_rotated hrotate, if_pos rfl]
        have hne := ne_of_beq_false hlast
        omega
  | row h hp hq ih => exact ih
  | again h hp hrotated hbegin ih =>
      rw [hrotated, if_pos rfl] at ih
      rw [svdBegin_rotated hbegin, if_neg Bool.false_ne_true]
      exact ih

theorem SvdVisits.lt (h : SvdVisits D rows columns maxSweeps tolerance start sweep p q s) :
    p < q := by
  induction h with
  | enter => exact Nat.one_pos
  | pair h hp hq hpair ih => exact Nat.lt_succ_of_lt ih
  | row => exact Nat.lt_succ_self _
  | again => exact Nat.one_pos

/-! ## The loop visits these positions -/

theorem SvdVisits.finishSweep
    (h : SvdVisits D rows columns maxSweeps tolerance start sweep 0 1 s) :
    Ensures (forRange 0 columns s fun p s => forRange (p + 1) columns s fun q s =>
        svdPair D rows columns tolerance (sweep == maxSweeps) p q s)
      (fun t => ∃ q, SvdVisits D rows columns maxSweeps tolerance start sweep columns q t)
      (SvdStops D rows columns maxSweeps tolerance start) := by
  refine Ensures.imp (Ensures.forRange (fun p t =>
    SvdVisits D rows columns maxSweeps tolerance start sweep p (p + 1) t) (Nat.zero_le columns)
    h ?_) fun t ht => ⟨_, ht⟩
  intro p t _ hp ht
  refine Ensures.imp (Ensures.forRange (fun q t =>
    SvdVisits D rows columns maxSweeps tolerance start sweep p q t) hp ht ?_)
    fun u hu => hu.row hp le_rfl
  intro q t _ hq ht
  cases hpair : svdPair D rows columns tolerance (sweep == maxSweeps) p q t with
  | ok u => exact ht.pair hp hq hpair
  | error e => exact Or.inr ⟨sweep, p, q, t, ht, Or.inl ⟨hp, hq, hpair⟩⟩

/-- The loop from the head of a sweep it visits. -/
theorem svdSweeps_visits
    (hbegin : ∀ t, svdBegin D rows columns tolerance s = .ok t →
      SvdVisits D rows columns maxSweeps tolerance start sweep 0 1 t)
    (hstops : ∀ e, svdBegin D rows columns tolerance s = .error e →
      SvdStops D rows columns maxSweeps tolerance start e) :
    Ensures (svdSweeps D rows columns tolerance maxSweeps sweep s)
      (fun t => (∃ sweep q,
        SvdVisits D rows columns maxSweeps tolerance start sweep columns q t) ∧
        t.rotated = false)
      (SvdStops D rows columns maxSweeps tolerance start) := by
  induction hrest : maxSweeps - sweep using Nat.strong_induction_on generalizing sweep s with
  | h rest ih =>
    rw [svdSweeps, svdSweep_eq]
    cases hs : svdBegin D rows columns tolerance s with
    | error e => exact hstops e hs
    | ok t =>
        refine (hbegin t hs).finishSweep.seq ?_
        rintro u ⟨q, hu⟩
        refine Ensures.ite (fun hrotated => ?_) fun hrotated => ?_
        · have hle := hu.sweep_le
          rw [hrotated, if_pos rfl] at hle
          -- the sweep that rotated was not the last
          rw [if_pos (show sweep < maxSweeps from hle)]
          refine ih (maxSweeps - (sweep + 1)) (by omega) (fun v hv => ?_) (fun e he => ?_) rfl
          · exact hu.again le_rfl hrotated hv
          · exact Or.inr ⟨sweep, columns, q, u, hu, Or.inr ⟨le_rfl, hrotated, he⟩⟩
        · exact ⟨⟨sweep, q, hu⟩, Bool.not_eq_true _ ▸ hrotated⟩

theorem svdSweeps_start (start : SvdState S) :
    Ensures (svdSweeps D rows columns tolerance maxSweeps 0 start)
      (fun t => (∃ sweep q,
        SvdVisits D rows columns maxSweeps tolerance start sweep columns q t) ∧
        t.rotated = false)
      (SvdStops D rows columns maxSweeps tolerance start) :=
  svdSweeps_visits (fun _ h => .enter h) fun _ h => Or.inl h

/-! ## The norm cache -/

/-- Every stored norm is the norm of its column. -/
def SvdCached (D : Adapter S A) (rows columns : ℕ) (s : SvdState S) : Prop :=
  ∀ j < columns, D.norm (fun row => s.b (row, j)) rows = .ok (s.norms j)

theorem svdNorms_cached {norms : (ℕ → S) × S} (h : svdNorms D rows columns s = .ok norms) :
    ∀ j < columns, D.norm (fun row => s.b (row, j)) rows = .ok (norms.1 j) := by
  have hspec : Ensures (svdNorms D rows columns s) (fun norms => ∀ j < columns,
      D.norm (fun row => s.b (row, j)) rows = .ok (norms.1 j)) (fun _ => True) := by
    refine Ensures.forRange (fun k (norms : (ℕ → S) × S) => ∀ j < k,
      D.norm (fun row => s.b (row, j)) rows = .ok (norms.1 j)) (Nat.zero_le columns)
      (fun j hj => absurd hj (Nat.not_lt_zero j)) ?_
    intro k norms _ _ hnorms
    refine Ensures.ite (fun _ => trivial) fun _ => ?_
    cases hk : D.norm (fun row => s.b (row, k)) rows with
    | error e => trivial
    | ok norm =>
        intro j hj
        dsimp only
        rcases Nat.lt_succ_iff_lt_or_eq.mp hj with hlt | rfl
        · rw [Function.update_of_ne hlt.ne]
          exact hnorms j hlt
        · rw [Function.update_self]
          exact hk
  exact hspec.of_eq_ok h

/-- Clearing a column and its norm together keeps the cache. -/
theorem svdBegin_cached (hzero : D.norm (fun _ => D.zero) rows = .ok D.zero)
    (h : svdBegin D rows columns tolerance s = .ok t) : SvdCached D rows columns t := by
  obtain ⟨norms, hnorms, h⟩ := ok_of_bind h
  obtain ⟨cutoff, -, h⟩ := ok_of_bind h
  cases h
  intro j hj
  change D.norm (fun row => if j < columns ∧ norms.1 j ≤ cutoff then D.zero else s.b (row, j))
    rows = .ok (if j < columns ∧ norms.1 j ≤ cutoff then D.zero else norms.1 j)
  by_cases hclear : j < columns ∧ norms.1 j ≤ cutoff
  · simp only [if_pos hclear]
    exact hzero
  · simp only [if_neg hclear]
    exact svdNorms_cached hnorms j hj

/-- A rotation writes its two columns and no other. -/
theorem svdRotateColumns_other {cosine sine : S} {b : Grid S} {next : Grid S × Bool}
    (h : svdRotateColumns D rows p q cosine sine b = .ok next) {j : ℕ} (hp : j ≠ p)
    (hq : j ≠ q) (row : ℕ) : next.1 (row, j) = b (row, j) := by
  have hspec : Ensures (svdRotateColumns D rows p q cosine sine b)
      (fun next => next.1 (row, j) = b (row, j)) (fun _ => True) := by
    refine Ensures.forRange (fun _ (state : Grid S × Bool) => state.1 (row, j) = b (row, j))
      (Nat.zero_le rows) rfl ?_
    intro k state _ _ hstate
    cases svdRotatePair D cosine sine (state.1 (k, p)) (state.1 (k, q)) with
    | error e => trivial
    | ok pair =>
        change Function.update (Function.update state.1 (k, p) pair.1) (k, q) pair.2 (row, j) = _
        rw [Function.update_of_ne fun heq => hq (congrArg Prod.snd heq),
          Function.update_of_ne fun heq => hp (congrArg Prod.snd heq), hstate]
  exact hspec.of_eq_ok h

theorem SvdCached.rotate {correlation : S} (hs : SvdCached D rows columns s)
    (h : svdRotateStep D rows columns p q correlation s = .ok t) :
    SvdCached D rows columns t := by
  obtain ⟨-, -, cosine, sine, changed, normP, normQ, hb, hnormP, hnormQ, hnorms⟩ :=
    svdRotateStep_cases h
  intro j hj
  rw [hnorms]
  by_cases hjq : j = q
  · rw [hjq, Function.update_self]
    exact hnormQ
  · rw [Function.update_of_ne hjq]
    by_cases hjp : j = p
    · rw [hjp, Function.update_self]
      exact hnormP
    · rw [Function.update_of_ne hjp, ← hs j hj]
      have hcolumn := svdRotateColumns_other hb hjp hjq
      exact congrArg (D.norm · rows) (funext hcolumn)

theorem SvdCached.pair (hs : SvdCached D rows columns s)
    (h : svdPair D rows columns tolerance last p q s = .ok t) : SvdCached D rows columns t := by
  rcases svdPair_cases h with ⟨-, rfl⟩ | ⟨-, _, -, ⟨_, -, -, rfl⟩ | ⟨_, -, rfl⟩ | ⟨-, hrotate⟩⟩
  · exact hs
  · exact hs
  · exact hs
  · exact hs.rotate hrotate

/-- The run lemma: the cache is never stale. -/
theorem SvdVisits.cached (hzero : D.norm (fun _ => D.zero) rows = .ok D.zero)
    (h : SvdVisits D rows columns maxSweeps tolerance start sweep p q s) :
    SvdCached D rows columns s := by
  induction h with
  | enter hbegin => exact svdBegin_cached hzero hbegin
  | pair h hp hq hpair ih => exact ih.pair hpair
  | row h hp hq ih => exact ih
  | again h hp hrotated hbegin ih => exact svdBegin_cached hzero hbegin

/-! ## The certificate of a sweep without a rotation -/

/-- The pair is exempt or its correlation is within the tolerance. -/
def SvdSettled (D : Adapter S A) (rows : ℕ) (tolerance : S) (s : SvdState S) (i j : ℕ) : Prop :=
  s.norms i ≠ D.zero → s.norms j ≠ D.zero → ∃ correlation magnitude,
    svdCorrelation D rows i j (s.norms i) (s.norms j) s.b = .ok correlation ∧
      D.abs correlation = .ok magnitude ∧ magnitude ≤ tolerance

/-- `D_ABS` of a correlation cannot fail while the cache is sound. -/
def SvdMagnitudes (D : Adapter S A) (rows columns : ℕ) : Prop :=
  ∀ s, SvdCached D rows columns s → ∀ p q correlation, p < columns → q < columns →
    s.norms p ≠ D.zero → s.norms q ≠ D.zero →
    svdCorrelation D rows p q (s.norms p) (s.norms q) s.b = .ok correlation →
    ∃ magnitude, D.abs correlation = .ok magnitude

/-- A pair left unrotated is settled, and the arrays are those before it. -/
theorem svdPair_settled (hmagnitude : SvdMagnitudes D rows columns)
    (hs : SvdCached D rows columns s) (hp : p < columns) (hq : q < columns)
    (h : svdPair D rows columns tolerance last p q s = .ok t) (hrotated : t.rotated = false) :
    s.rotated = false ∧ t.b = s.b ∧ t.norms = s.norms ∧ SvdSettled D rows tolerance s p q := by
  rcases svdPair_cases h with ⟨hzero, rfl⟩ | ⟨hnonzero, correlation, hcorrelation,
    ⟨magnitude, habs, hle, rfl⟩ | ⟨e, habs, -⟩ | ⟨-, hrotate⟩⟩
  · refine ⟨hrotated, rfl, rfl, fun hi hj => ?_⟩
    rcases hzero with hzero | hzero
    · exact absurd hzero hi
    · exact absurd hzero hj
  · exact ⟨hrotated, rfl, rfl, fun _ _ => ⟨correlation, magnitude, hcorrelation, habs, hle⟩⟩
  · obtain ⟨hnormP, hnormQ⟩ := not_or.mp hnonzero
    obtain ⟨magnitude, hok⟩ := hmagnitude s hs p q correlation hp hq hnormP hnormQ hcorrelation
    rw [hok] at habs
    cases habs
  · rw [svdRotateStep_rotated hrotate] at hrotated
    cases hrotated

theorem SvdSettled.congr {i j : ℕ} (h : SvdSettled D rows tolerance s i j) (hb : t.b = s.b)
    (hnorms : t.norms = s.norms) : SvdSettled D rows tolerance t i j := by
  rw [SvdSettled, hb, hnorms]
  exact h

/-- As long as the sweep has not rotated, the pairs it has visited are settled. -/
theorem SvdVisits.settled (hzero : D.norm (fun _ => D.zero) rows = .ok D.zero)
    (hmagnitude : SvdMagnitudes D rows columns)
    (h : SvdVisits D rows columns maxSweeps tolerance start sweep p q s)
    (hrotated : s.rotated = false) {i j : ℕ} (hij : i < j) (hj : j < columns)
    (hbefore : i < p ∨ i = p ∧ j < q) : SvdSettled D rows tolerance s i j := by
  induction h generalizing i j with
  | enter => omega
  | pair h hp hq hpair ih =>
      obtain ⟨hold, hb, hnorms, hsettled⟩ :=
        svdPair_settled hmagnitude (h.cached hzero) hp hq hpair hrotated
      refine SvdSettled.congr ?_ hb hnorms
      rename_i p q _ _
      by_cases hpair : i = p ∧ j = q
      · rw [hpair.1, hpair.2]
        exact hsettled
      · exact ih hold hij hj (by omega)
  | row h hp hq ih => exact ih hrotated hij hj (by omega)
  | again => omega

end Runs

end Xhive.Linears
