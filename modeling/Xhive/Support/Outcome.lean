import Mathlib.Order.Nat
import Mathlib.Tactic.Common

/-!
# Postconditions of fallible computations and counted loops

A small program logic for code that either returns a value or stops with an
error.  `Ensures m post fail` describes both outcomes at once, so that one
derivation says what a computation returns and which errors it can raise.
Counted loops come with the usual invariant rules.
-/

namespace Xhive.Support

universe u v

variable {ε : Type u} {α β σ : Type v}

/-! ## Outcomes -/

/-- `post` holds of a returned value, `fail` of a raised error. -/
def Ensures (m : Except ε α) (post : α → Prop) (fail : ε → Prop) : Prop :=
  match m with
  | .ok a => post a
  | .error e => fail e

@[simp] theorem ensures_ok {a : α} {post : α → Prop} {fail : ε → Prop} :
    Ensures (.ok a) post fail ↔ post a := Iff.rfl

@[simp] theorem ensures_pure {a : α} {post : α → Prop} {fail : ε → Prop} :
    Ensures (pure a : Except ε α) post fail ↔ post a := Iff.rfl

@[simp] theorem ensures_error {e : ε} {post : α → Prop} {fail : ε → Prop} :
    Ensures (.error e) post fail ↔ fail e := Iff.rfl

@[simp] theorem ensures_throw {e : ε} {post : α → Prop} {fail : ε → Prop} :
    Ensures (throw e : Except ε α) post fail ↔ fail e := Iff.rfl

theorem ok_bind (a : α) (f : α → Except ε β) : (.ok a >>= f) = f a := rfl

theorem error_bind (e : ε) (f : α → Except ε β) : (.error e >>= f) = .error e := rfl

/-- A computation that returns has returned from each of its parts. -/
theorem ok_of_bind {m : Except ε α} {f : α → Except ε β} {b : β} (h : (m >>= f) = .ok b) :
    ∃ a, m = .ok a ∧ f a = .ok b := by
  cases m with
  | ok a => exact ⟨a, rfl, h⟩
  | error e => cases h

/-- A computation that returns has passed its guards. -/
theorem ok_of_guard {c : Prop} [Decidable c] {e : ε} {f : α → Except ε β} {m : Except ε β}
    {b : β} (h : (if c then (throw e : Except ε α) >>= f else m) = .ok b) : ¬c ∧ m = .ok b := by
  by_cases hc : c
  · rw [if_pos hc] at h
    cases h
  · rw [if_neg hc] at h
    exact ⟨hc, h⟩

namespace Ensures

variable {m : Except ε α} {post post' : α → Prop} {fail fail' : ε → Prop}

theorem mono (h : Ensures m post fail) (hpost : ∀ a, post a → post' a)
    (hfail : ∀ e, fail e → fail' e) : Ensures m post' fail' := by
  cases m with
  | ok a => exact hpost a h
  | error e => exact hfail e h

theorem imp (h : Ensures m post fail) (hpost : ∀ a, post a → post' a) :
    Ensures m post' fail :=
  h.mono hpost fun _ he => he

theorem bind {f : α → Except ε β} {post : β → Prop}
    (h : Ensures m (fun a => Ensures (f a) post fail) fail) :
    Ensures (m >>= f) post fail := by
  cases m with
  | ok a => exact h
  | error e => exact h

/-- The usual sequencing step: a specification of the first computation, then
the rest from its postcondition. -/
theorem seq {f : α → Except ε β} {mid : α → Prop} {post : β → Prop}
    (h : Ensures m mid fail) (hf : ∀ a, mid a → Ensures (f a) post fail) :
    Ensures (m >>= f) post fail :=
  bind (h.imp hf)

theorem ite {c : Prop} [Decidable c] {m₁ m₂ : Except ε α}
    (h₁ : c → Ensures m₁ post fail) (h₂ : ¬c → Ensures m₂ post fail) :
    Ensures (if c then m₁ else m₂) post fail := by
  split
  · exact h₁ ‹_›
  · exact h₂ ‹_›

theorem of_eq_ok {a : α} (h : Ensures m post fail) (hm : m = .ok a) : post a := by
  rw [hm] at h
  exact h

theorem of_eq_error {e : ε} (h : Ensures m post fail) (hm : m = .error e) :
    fail e := by
  rw [hm] at h
  exact h

/-- A computation that can raise no error returns. -/
theorem exists_ok (h : Ensures m post fun _ => False) : ∃ a, m = .ok a ∧ post a := by
  cases m with
  | ok a => exact ⟨a, rfl, h⟩
  | error e => exact h.elim

end Ensures

/-! ## Counted loops -/

/-- `count` iterations of a body that may stop, from index `i` on. -/
def forCount (body : ℕ → σ → Except ε σ) : ℕ → ℕ → σ → Except ε σ
  | 0, _, s => .ok s
  | count + 1, i, s => body i s >>= forCount body count (i + 1)

/-- `for (i = lo; i < hi; ++i)` with a body that may stop. -/
def forRange (lo hi : ℕ) (s : σ) (body : ℕ → σ → Except ε σ) : Except ε σ :=
  forCount body (hi - lo) lo s

theorem forRange_of_le {lo hi : ℕ} (h : hi ≤ lo) (s : σ)
    (body : ℕ → σ → Except ε σ) : forRange lo hi s body = .ok s := by
  rw [forRange, Nat.sub_eq_zero_of_le h, forCount]

theorem forCount_append (body : ℕ → σ → Except ε σ) (count i : ℕ) (s : σ) :
    forCount body (count + 1) i s =
      forCount body count i s >>= body (i + count) := by
  induction count generalizing i s with
  | zero =>
      rw [forCount]
      cases h : body i s with
      | ok t => simp [forCount, h, bind, Except.bind]
      | error e => simp [forCount, h, bind, Except.bind]
  | succ count ih =>
      rw [forCount]
      cases h : body i s with
      | ok t =>
          have hrec := ih (i + 1) t
          rw [Nat.add_right_comm] at hrec
          rw [show forCount body (count + 1) i s = forCount body count (i + 1) t by
            rw [forCount, h]
            rfl]
          exact hrec
      | error e =>
          rw [forCount, h]
          rfl

/-- A loop runs its last iteration after the loop that stops before it. -/
theorem forRange_succ {lo hi : ℕ} (h : lo ≤ hi) (s : σ)
    (body : ℕ → σ → Except ε σ) :
    forRange lo (hi + 1) s body = forRange lo hi s body >>= body hi := by
  rw [forRange, forRange, Nat.succ_sub h, forCount_append, Nat.add_sub_cancel' h]

/-- A loop reads its body at the indices of its range. -/
theorem forRange_congr {lo hi : ℕ} {s : σ} {body body' : ℕ → σ → Except ε σ}
    (h : ∀ i t, lo ≤ i → i < hi → body i t = body' i t) :
    forRange lo hi s body = forRange lo hi s body' := by
  rcases Nat.lt_or_ge hi lo with hlt | hle
  · rw [forRange_of_le hlt.le, forRange_of_le hlt.le]
  · induction hi, hle using Nat.le_induction with
    | base => rw [forRange_of_le le_rfl, forRange_of_le le_rfl]
    | succ hi hle ih =>
        rw [forRange_succ hle, forRange_succ hle,
          ih fun i t hlo hhi => h i t hlo (by omega)]
        congr 1
        funext t
        exact h hi t hle (Nat.lt_succ_self hi)

/-- Invariant rule for a counted loop that may stop. -/
theorem Ensures.forRange {lo hi : ℕ} {s : σ} {body : ℕ → σ → Except ε σ}
    {fail : ε → Prop} (inv : ℕ → σ → Prop) (hle : lo ≤ hi) (hinit : inv lo s)
    (hstep : ∀ i t, lo ≤ i → i < hi → inv i t →
      Ensures (body i t) (inv (i + 1)) fail) :
    Ensures (Xhive.Support.forRange lo hi s body) (inv hi) fail := by
  induction hi, hle using Nat.le_induction with
  | base => rwa [forRange_of_le le_rfl]
  | succ hi hle ih =>
      rw [forRange_succ hle]
      have hpre := ih fun i t hlo hhi => hstep i t hlo (by omega)
      exact hpre.seq fun t ht => hstep hi t hle (by omega) ht

/-- A loop of checks. -/
theorem Ensures.forAll {ε : Type u} {n : ℕ} {check : ℕ → Except ε Unit} {P : ℕ → Prop}
    {fail : ε → Prop} (h : ∀ i < n, Ensures (check i) (fun _ => P i) fail) :
    Ensures (Xhive.Support.forRange 0 n () fun i _ => check i) (fun _ => ∀ i < n, P i) fail := by
  refine Ensures.forRange (fun k _ => ∀ i < k, P i) (Nat.zero_le n) ?_ ?_
  · exact fun i hi => absurd hi (Nat.not_lt_zero i)
  · intro k _ _ hk hdone
    refine (h k hk).imp fun _ hP i hi => ?_
    rcases Nat.lt_succ_iff_lt_or_eq.mp hi with hlt | rfl
    · exact hdone i hlt
    · exact hP

/-- Invariant rule for a loop over a list that may stop; the invariant speaks of
the entries that are done. -/
theorem Ensures.foldlM {ι : Type v} {xs : List ι} {s : σ} {body : σ → ι → Except ε σ}
    {fail : ε → Prop} (inv : List ι → σ → Prop) (hinit : inv [] s)
    (hstep : ∀ done x rest t, xs = done ++ x :: rest → inv done t →
      Ensures (body t x) (inv (done ++ [x])) fail) :
    Ensures (xs.foldlM body s) (inv xs) fail := by
  have hrun : ∀ rest done t, xs = done ++ rest → inv done t →
      Ensures (rest.foldlM body t) (inv xs) fail := by
    intro rest
    induction rest with
    | nil =>
        intro done t heq ht
        rw [List.append_nil] at heq
        rw [heq]
        exact ht
    | cons x rest ih =>
        intro done t heq ht
        rw [List.foldlM_cons]
        refine (hstep done x rest t heq ht).seq fun u hu => ih (done ++ [x]) u ?_ hu
        rw [heq, List.append_assoc, List.singleton_append]
  exact hrun xs [] s rfl hinit

/-! ## Loops that write one cell per iteration -/

section Fill

variable {ι : Type} [DecidableEq ι] {V : Type v}

/-- `for (j = lo; j < hi; ++j)` computing a value and storing it in its cell. -/
def fillRange (lo hi : ℕ) (cell : ℕ → ι) (s : ι → V)
    (value : ℕ → (ι → V) → Except ε V) : Except ε (ι → V) :=
  forRange lo hi s fun j t => do
    let v ← value j t
    .ok (Function.update t (cell j) v)

/-- If the cells are distinct and no iteration reads a cell written before it,
every cell receives its value computed in the initial state. -/
theorem Ensures.fillRange {lo hi : ℕ} {cell : ℕ → ι} {s : ι → V}
    {value : ℕ → (ι → V) → Except ε V} {fail : ε → Prop}
    (hcell : ∀ i j, lo ≤ i → i < j → j < hi → cell i ≠ cell j)
    (hlocal : ∀ j t, lo ≤ j → j < hi → (∀ x, (∀ i, lo ≤ i → i < j → x ≠ cell i) → t x = s x) →
      value j t = value j s)
    (hfail : ∀ j e, lo ≤ j → j < hi → value j s = .error e → fail e) :
    Ensures (Xhive.Support.fillRange lo hi cell s value)
      (fun t => (∀ j, lo ≤ j → j < hi → value j s = .ok (t (cell j))) ∧
        ∀ x, (∀ j, lo ≤ j → j < hi → x ≠ cell j) → t x = s x) fail := by
  rw [Xhive.Support.fillRange]
  rcases Nat.lt_or_ge hi lo with hlt | hle
  · rw [forRange_of_le hlt.le]
    exact ⟨fun j hlo hhi => by omega, fun x _ => rfl⟩
  · refine Ensures.forRange (fun k (t : ι → V) =>
      (∀ j, lo ≤ j → j < k → value j s = .ok (t (cell j))) ∧
        ∀ x, (∀ j, lo ≤ j → j < k → x ≠ cell j) → t x = s x) hle ?_ ?_
    · exact ⟨fun j hlo hlt => by omega, fun x _ => rfl⟩
    · rintro k t hlo hhi ⟨hdone, hframe⟩
      have hvalue := hlocal k t hlo hhi hframe
      cases hres : value k s with
      | error e =>
          rw [hvalue, hres]
          exact hfail k e hlo hhi hres
      | ok v =>
          rw [hvalue, hres]
          refine ⟨fun j hj hjk => ?_, fun x hx => ?_⟩
          · rcases Nat.lt_succ_iff_lt_or_eq.mp hjk with hlt | rfl
            · rw [Function.update_of_ne (hcell j k hj hlt hhi)]
              exact hdone j hj hlt
            · rw [Function.update_self]
              exact hres
          · rw [Function.update_of_ne (hx k hlo (Nat.lt_succ_self k))]
            exact hframe x fun j hj hjk => hx j hj (by omega)

/-- Rewriting every cell of a range from its own content. -/
theorem Ensures.fillRange_map {lo hi : ℕ} {cell : ℕ → ι} {s : ι → V}
    {value : ℕ → (ι → V) → Except ε V} (next : ℕ → V → V)
    (hvalue : ∀ j t, lo ≤ j → j < hi → value j t = .ok (next j (t (cell j))))
    (hcell : ∀ i j, lo ≤ i → i < j → j < hi → cell i ≠ cell j) :
    Ensures (Xhive.Support.fillRange lo hi cell s value)
      (fun t => (∀ j, lo ≤ j → j < hi → t (cell j) = next j (s (cell j))) ∧
        ∀ x, (∀ j, lo ≤ j → j < hi → x ≠ cell j) → t x = s x) (fun _ => False) := by
  refine (Ensures.fillRange hcell ?_ ?_).imp ?_
  · intro j t hlo hhi hframe
    rw [hvalue j t hlo hhi, hvalue j s hlo hhi,
      hframe (cell j) fun i hi hij => (hcell i j hi hij hhi).symm]
  · intro j e hlo hhi heq
    rw [hvalue j s hlo hhi] at heq
    exact absurd heq nofun
  · rintro t ⟨hdone, hframe⟩
    refine ⟨fun j hlo hhi => ?_, hframe⟩
    have heq := hdone j hlo hhi
    rw [hvalue j s hlo hhi] at heq
    exact (Except.ok.inj heq).symm

end Fill

section FillSymmetric

variable {V : Type v}

/-- Visit the pairs `lo ≤ i ≤ j < hi` row by row and store the value of each
pair in both of its cells. -/
def fillSymmetric (lo hi : ℕ) (s : ℕ × ℕ → V)
    (value : ℕ → ℕ → (ℕ × ℕ → V) → Except ε V) : Except ε (ℕ × ℕ → V) :=
  forRange lo hi s fun i t => forRange i hi t fun j t => do
    let v ← value i j t
    .ok (Function.update (Function.update t (j, i) v) (i, j) v)

/-- If a pair reads only its own cell below the diagonal and cells outside the
block, both of its cells receive its value computed in the initial state. -/
theorem Ensures.fillSymmetric {lo hi : ℕ} {s : ℕ × ℕ → V}
    {value : ℕ → ℕ → (ℕ × ℕ → V) → Except ε V} {fail : ε → Prop} (hle : lo ≤ hi)
    (hlocal : ∀ i j t, lo ≤ i → i ≤ j → j < hi →
      (∀ x : ℕ × ℕ, x.1 < lo ∨ x.2 < lo ∨ x = (j, i) → t x = s x) →
        value i j t = value i j s)
    (hfail : ∀ i j e, lo ≤ i → i ≤ j → j < hi → value i j s = .error e → fail e) :
    Ensures (Xhive.Support.fillSymmetric lo hi s value)
      (fun t => (∀ i j, lo ≤ i → i ≤ j → j < hi →
          value i j s = .ok (t (i, j)) ∧ t (j, i) = t (i, j)) ∧
        ∀ x : ℕ × ℕ, x.1 < lo ∨ x.2 < lo → t x = s x) fail := by
  -- the pairs before `(i, j)` in the order of the visit are done
  let inv : ℕ → ℕ → (ℕ × ℕ → V) → Prop := fun i j t =>
    (∀ a b, lo ≤ a → a ≤ b → b < hi → a < i ∨ a = i ∧ b < j →
      value a b s = .ok (t (a, b)) ∧ t (b, a) = t (a, b)) ∧
    ∀ a b, a < lo ∨ b < lo ∨ i < min a b ∨ i = min a b ∧ j ≤ max a b → t (a, b) = s (a, b)
  have hrow : ∀ i t, lo ≤ i → i < hi → inv i i t →
      Ensures (Xhive.Support.forRange i hi t fun j t => do
        let v ← value i j t
        .ok (Function.update (Function.update t (j, i) v) (i, j) v))
        (inv i hi) fail := by
    intro i t hlo hhi ht
    refine Ensures.forRange (inv i) hhi.le ht ?_
    rintro j t hij hj ⟨hdone, hframe⟩
    have hvalue : value i j t = value i j s := by
      refine hlocal i j t hlo hij hj fun x hx => hframe x.1 x.2 ?_
      rcases hx with h | h | rfl
      · exact Or.inl h
      · exact Or.inr (Or.inl h)
      · dsimp only
        omega
    rw [hvalue]
    cases hres : value i j s with
    | error e => exact hfail i j e hlo hij hj hres
    | ok v =>
        have hother : ∀ a b, ¬(a = i ∧ b = j) → ¬(a = j ∧ b = i) →
            Function.update (Function.update t (j, i) v) (i, j) v (a, b) = t (a, b) := by
          intro a b h h'
          rw [Function.update_of_ne (fun heq => h (Prod.mk.inj heq)),
            Function.update_of_ne (fun heq => h' (Prod.mk.inj heq))]
        have hself : Function.update (Function.update t (j, i) v) (i, j) v (i, j) = v :=
          Function.update_self ..
        have hmirror : Function.update (Function.update t (j, i) v) (i, j) v (j, i) = v := by
          by_cases heq : j = i
          · rw [heq, Function.update_self]
          · rw [Function.update_of_ne (fun h => heq (Prod.mk.inj h).1), Function.update_self]
        refine ⟨fun a b hla hab hb hbefore => ?_, fun a b hout => ?_⟩
        · by_cases hpair : a = i ∧ b = j
          · obtain ⟨rfl, rfl⟩ := hpair
            rw [hself, hmirror]
            exact ⟨hres, rfl⟩
          · rw [hother a b hpair (by omega), hother b a (by omega) (by omega)]
            exact hdone a b hla hab hb (by omega)
        · rw [hother a b (by omega) (by omega)]
          exact hframe a b (by omega)
  refine Ensures.imp (Ensures.forRange (fun i t => inv i i t) hle ?_ ?_) ?_
  · exact ⟨fun a b hla hab hb h => by omega, fun a b _ => rfl⟩
  · intro i t hlo hhi ht
    refine (hrow i t hlo hhi ht).imp ?_
    rintro u ⟨hdone, hframe⟩
    exact ⟨fun a b hla hab hb h => hdone a b hla hab hb (by omega),
      fun a b h => hframe a b (by omega)⟩
  · rintro t ⟨hdone, hframe⟩
    refine ⟨fun i j hlo hij hj => hdone i j hlo hij hj (by omega), ?_⟩
    rintro ⟨a, b⟩ h
    exact hframe a b (by omega)

end FillSymmetric

/-- `for (i = lo; i < hi; ++i)` with a body that cannot stop. -/
def foldRange (lo hi : ℕ) (s : σ) (body : ℕ → σ → σ) : σ :=
  (List.range' lo (hi - lo)).foldl (fun t i => body i t) s

theorem foldRange_of_le {lo hi : ℕ} (h : hi ≤ lo) (s : σ) (body : ℕ → σ → σ) :
    foldRange lo hi s body = s := by
  rw [foldRange, Nat.sub_eq_zero_of_le h]
  rfl

theorem foldRange_succ {lo hi : ℕ} (h : lo ≤ hi) (s : σ) (body : ℕ → σ → σ) :
    foldRange lo (hi + 1) s body = body hi (foldRange lo hi s body) := by
  rw [foldRange, foldRange, Nat.succ_sub h, List.range'_concat, List.foldl_append]
  simp [Nat.add_sub_cancel' h]

/-- Invariant rule for a counted loop that cannot stop. -/
theorem foldRange_induction {lo hi : ℕ} {s : σ} {body : ℕ → σ → σ}
    (inv : ℕ → σ → Prop) (hle : lo ≤ hi) (hinit : inv lo s)
    (hstep : ∀ i t, lo ≤ i → i < hi → inv i t → inv (i + 1) (body i t)) :
    inv hi (foldRange lo hi s body) := by
  induction hi, hle using Nat.le_induction with
  | base => rwa [foldRange_of_le le_rfl]
  | succ hi hle ih =>
      rw [foldRange_succ hle]
      exact hstep hi _ hle (by omega) (ih fun i t hlo hhi => hstep i t hlo (by omega))

theorem foldRange_congr {lo hi : ℕ} {s : σ} {body body' : ℕ → σ → σ}
    (h : ∀ i t, lo ≤ i → i < hi → body i t = body' i t) :
    foldRange lo hi s body = foldRange lo hi s body' := by
  rcases Nat.lt_or_ge hi lo with hlt | hle
  · rw [foldRange_of_le hlt.le, foldRange_of_le hlt.le]
  · induction hi, hle using Nat.le_induction with
    | base => rw [foldRange_of_le le_rfl, foldRange_of_le le_rfl]
    | succ hi hle ih =>
        rw [foldRange_succ hle, foldRange_succ hle,
          ih fun i t hlo hhi => h i t hlo (by omega)]
        exact h hi _ hle (Nat.lt_succ_self hi)

/-- A loop that stores a value in a cell of its own per iteration. -/
theorem foldRange_fill {ι : Type} [DecidableEq ι] {V : Type v} {cell : ℕ → ι}
    (hcell : Function.Injective cell) (n : ℕ) (s : ι → V) (value : ℕ → V) :
    ∀ i < n, foldRange 0 n s (fun i t => Function.update t (cell i) (value i)) (cell i) =
      value i := by
  refine foldRange_induction (fun k (t : ι → V) => ∀ i < k, t (cell i) = value i) (Nat.zero_le n)
    (fun _ hi => absurd hi (Nat.not_lt_zero _)) ?_
  intro k t _ _ ht i hi
  by_cases heq : i = k
  · rw [heq, Function.update_self]
  · rw [Function.update_of_ne (fun h => heq (hcell h))]
    exact ht i (by omega)

/-- A loop whose body never stops is a fold. -/
theorem forRange_eq_ok {lo hi : ℕ} {s : σ} {body : ℕ → σ → Except ε σ} (next : ℕ → σ → σ)
    (hbody : ∀ i t, lo ≤ i → i < hi → body i t = .ok (next i t)) :
    forRange lo hi s body = .ok (foldRange lo hi s next) := by
  rcases Nat.lt_or_ge hi lo with hlt | hle
  · rw [forRange_of_le hlt.le, foldRange_of_le hlt.le]
  · induction hi, hle using Nat.le_induction with
    | base => rw [forRange_of_le le_rfl, foldRange_of_le le_rfl]
    | succ hi hle ih =>
        rw [forRange_succ hle, foldRange_succ hle,
          ih fun i t hlo hhi => hbody i t hlo (by omega)]
        exact hbody hi _ hle (by omega)

/-!
## Computations that agree

`Agree x y post` says that two fallible computations are the same computation
and that a value they return satisfies `post`.  What the first part of a
computation promises is a premise for its rest, so that two programs which
differ only on states that never occur are still shown equal.
-/

def Agree (x y : Except ε α) (post : α → Prop) : Prop :=
  x = y ∧ ∀ value, y = .ok value → post value

namespace Agree

theorem ok {value : α} {post : α → Prop} (h : post value) :
    Agree (.ok value : Except ε α) (.ok value) post := by
  refine ⟨rfl, fun result hresult => ?_⟩
  rwa [← Except.ok.inj hresult]

theorem bind {x y : Except ε α} {f g : α → Except ε β} {post : α → Prop} {post' : β → Prop}
    (h : Agree x y post) (hrest : ∀ value, post value → Agree (f value) (g value) post') :
    Agree (x >>= f) (y >>= g) post' := by
  obtain ⟨rfl, hpost⟩ := h
  constructor
  · cases x with
    | error e => rfl
    | ok value => exact (hrest value (hpost value rfl)).1
  · intro result hresult
    obtain ⟨value, hvalue, hrun⟩ := ok_of_bind hresult
    exact (hrest value (hpost value hvalue)).2 result hrun

/-- Invariant rule for two loops. -/
theorem forRange {lo hi : ℕ} {s : σ} {body body' : ℕ → σ → Except ε σ} (inv : ℕ → σ → Prop)
    (hle : lo ≤ hi) (hinit : inv lo s)
    (hstep : ∀ i t, lo ≤ i → i < hi → inv i t → Agree (body i t) (body' i t) (inv (i + 1))) :
    Agree (Support.forRange lo hi s body) (Support.forRange lo hi s body') (inv hi) := by
  induction hi, hle using Nat.le_induction with
  | base =>
      rw [forRange_of_le le_rfl, forRange_of_le le_rfl]
      exact ok hinit
  | succ hi hle ih =>
      rw [forRange_succ hle, forRange_succ hle]
      apply (ih fun i t hlo hhi => hstep i t hlo (by omega)).bind
      exact fun t ht => hstep hi t hle (Nat.lt_succ_self hi) ht

end Agree

/-- A loop whose iterations follow a known course. -/
theorem forRange_along {n : ℕ} {body : ℕ → σ → Except ε σ} (course : ℕ → σ)
    (hstep : ∀ i < n, body i (course i) = .ok (course (i + 1))) :
    forRange 0 n (course 0) body = .ok (course n) := by
  induction n with
  | zero => exact forRange_of_le le_rfl _ _
  | succ n ih =>
      rw [forRange_succ (Nat.zero_le n), ih fun i hi => hstep i (by omega)]
      exact hstep n (Nat.lt_succ_self n)

end Xhive.Support
