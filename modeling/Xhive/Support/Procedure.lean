import Mathlib.Order.Nat
import Mathlib.Tactic.Common

/-!
# Procedures that may stop after writing

A procedure runs on a memory and may stop with an error; a stop keeps the
writes made before it.  `Lockstep` relates the runs of one procedure from two
memories.  From it comes the notion of a transaction: what is visible of the
memory changes only on success, and in a way that only what was visible
decides.
-/

namespace Xhive.Support

/-- A computation over memory `σ`.  An error comes with the memory it leaves. -/
def Procedure (ε σ α : Type) : Type :=
  σ → Except ε α × σ

namespace Procedure

variable {ε σ τ α β : Type}

instance : Monad (Procedure ε σ) where
  pure a s := (.ok a, s)
  bind m f s :=
    match m s with
    | (.ok a, t) => f a t
    | (.error e, t) => (.error e, t)

def read (f : σ → α) : Procedure ε σ α := fun s => (.ok (f s), s)

def write (f : σ → σ) : Procedure ε σ Unit := fun s => (.ok (), f s)

/-- A computation that touches no memory. -/
def attempt (m : Except ε α) : Procedure ε σ α := fun s => (m, s)

/-- `count` iterations from index `i` on, with a loop-carried value. -/
def repeatFrom (body : ℕ → α → Procedure ε σ α) : ℕ → ℕ → α → Procedure ε σ α
  | 0, _, a => pure a
  | count + 1, i, a => do
      let b ← body i a
      repeatFrom body count (i + 1) b

@[simp] theorem pure_apply (a : α) (s : σ) :
    (pure a : Procedure ε σ α) s = (.ok a, s) := rfl

@[simp] theorem read_apply (f : σ → α) (s : σ) :
    (read f : Procedure ε σ α) s = (.ok (f s), s) := rfl

@[simp] theorem write_apply (f : σ → σ) (s : σ) :
    (write f : Procedure ε σ Unit) s = (.ok (), f s) := rfl

@[simp] theorem attempt_apply (m : Except ε α) (s : σ) :
    (attempt m : Procedure ε σ α) s = (m, s) := rfl

theorem bind_apply (m : Procedure ε σ α) (f : α → Procedure ε σ β) (s : σ) :
    (m >>= f) s =
      match m s with
      | (.ok a, t) => f a t
      | (.error e, t) => (.error e, t) := rfl

theorem bind_ok {m : Procedure ε σ α} {f : α → Procedure ε σ β} {s t : σ} {a : α}
    (h : m s = (.ok a, t)) : (m >>= f) s = f a t := by
  rw [bind_apply, h]

theorem bind_error {m : Procedure ε σ α} {f : α → Procedure ε σ β} {s t : σ} {e : ε}
    (h : m s = (.error e, t)) : (m >>= f) s = (.error e, t) := by
  rw [bind_apply, h]

/-- A procedure that returns has returned from each of its parts. -/
theorem bind_eq_ok {m : Procedure ε σ α} {f : α → Procedure ε σ β} {s u : σ} {b : β}
    (h : (m >>= f) s = (.ok b, u)) : ∃ a t, m s = (.ok a, t) ∧ f a t = (.ok b, u) := by
  rw [bind_apply] at h
  rcases hm : m s with ⟨_ | a, t⟩
  · rw [hm] at h
    cases h
  · rw [hm] at h
    exact ⟨a, t, rfl, h⟩

theorem attempt_bind_eq_ok {m : Except ε α} {f : α → Procedure ε σ β} {s u : σ} {b : β}
    (h : (attempt m >>= f) s = (.ok b, u)) : ∃ a, m = .ok a ∧ f a s = (.ok b, u) := by
  obtain ⟨a, t, hm, hf⟩ := bind_eq_ok h
  cases hm
  exact ⟨a, rfl, hf⟩

theorem attempt_bind_ok {m : Except ε α} {a : α} (h : m = .ok a) (f : α → Procedure ε σ β)
    (s : σ) : (attempt m >>= f) s = f a s := by
  rw [h]
  rfl

theorem read_bind (g : σ → α) (f : α → Procedure ε σ β) (s : σ) :
    (read g >>= f) s = f (g s) s := rfl

theorem write_bind (g : σ → σ) (f : Unit → Procedure ε σ β) (s : σ) :
    (write g >>= f) s = f () (g s) := rfl

/-- A loop whose every iteration returns returns, with its invariant. -/
theorem repeatFrom_total {body : ℕ → α → Procedure ε σ α} (inv : ℕ → α → σ → Prop) (count : ℕ)
    {i : ℕ} {a : α} {s : σ} (hinit : inv i a s)
    (hbody : ∀ k b t, i ≤ k → k < i + count → inv k b t →
      ∃ c u, body k b t = (.ok c, u) ∧ inv (k + 1) c u) :
    ∃ b t, repeatFrom body count i a s = (.ok b, t) ∧ inv (i + count) b t := by
  induction count generalizing i a s with
  | zero => exact ⟨a, s, rfl, hinit⟩
  | succ count ih =>
      obtain ⟨c, u, hstep, hinv⟩ := hbody i a s le_rfl (by omega) hinit
      obtain ⟨b, t, hrest, hpost⟩ := ih hinv fun k b t hik hk => hbody k b t (by omega) (by omega)
      refine ⟨b, t, ?_, ?_⟩
      · rw [repeatFrom, bind_ok hstep]
        exact hrest
      · rwa [show i + (count + 1) = i + 1 + count by omega]

/-! ## Procedures that write last -/

/-- An error leaves the memory as it was. -/
def Atomic (m : Procedure ε σ α) : Prop :=
  ∀ s e t, m s = (.error e, t) → t = s

/-- There is no error. -/
def Unfailing (m : Procedure ε σ α) : Prop :=
  ∀ s, ∃ a t, m s = (.ok a, t)

namespace Unfailing

theorem pure (a : α) : Unfailing (pure a : Procedure ε σ α) :=
  fun s => ⟨a, s, rfl⟩

theorem write (f : σ → σ) : Unfailing (write f : Procedure ε σ Unit) :=
  fun s => ⟨(), f s, rfl⟩

theorem bind {m : Procedure ε σ α} {f : α → Procedure ε σ β} (hm : Unfailing m)
    (hf : ∀ a, Unfailing (f a)) : Unfailing (m >>= f) := by
  intro s
  obtain ⟨a, t, ht⟩ := hm s
  obtain ⟨b, u, hu⟩ := hf a t
  exact ⟨b, u, (bind_ok ht).trans hu⟩

theorem atomic {m : Procedure ε σ α} (hm : Unfailing m) : Atomic m := by
  intro s e t hs
  obtain ⟨a, u, hu⟩ := hm s
  rw [hs] at hu
  cases hu

end Unfailing

namespace Atomic

theorem attempt (m : Except ε α) : Atomic (attempt m : Procedure ε σ α) := by
  intro s e t hs
  cases hs
  rfl

/-- Checks and readings before the rest. -/
theorem attempt_bind (m : Except ε α) {f : α → Procedure ε σ β} (hf : ∀ a, Atomic (f a)) :
    Atomic (.attempt m >>= f) := by
  intro s e t hs
  cases m with
  | ok a => exact hf a s e t hs
  | error e' =>
      cases hs
      rfl

theorem read_bind (g : σ → α) {f : α → Procedure ε σ β} (hf : ∀ a, Atomic (f a)) :
    Atomic (.read g >>= f) :=
  fun s => hf (g s) s

/-- Nothing after the procedure can fail. -/
theorem bind_unfailing {m : Procedure ε σ α} {f : α → Procedure ε σ β} (hm : Atomic m)
    (hf : ∀ a, Unfailing (f a)) : Atomic (m >>= f) := by
  intro s e t hs
  rcases h : m s with ⟨_ | a, u⟩
  · rw [bind_error h] at hs
    cases hs
    exact hm s e t h
  · obtain ⟨b, v, hv⟩ := hf a u
    rw [bind_ok h, hv] at hs
    cases hs

/-- What success establishes holds after any outcome, if it held before. -/
theorem preserves {m : Procedure ε σ α} (hm : Atomic m) {P : σ → Prop} {s : σ} (hs : P s)
    (hok : ∀ a t, m s = (.ok a, t) → P t) : P (m s).2 := by
  rcases h : m s with ⟨e | a, t⟩
  · rw [hm s e t h]
    exact hs
  · exact hok a t h

end Atomic

/-- The procedure computes `f` of the memory it finds, and the memory becomes
the result if there is one. -/
def Commits (m : Procedure ε σ Unit) (f : σ → Except ε σ) : Prop :=
  ∀ s, m s =
    match f s with
    | .ok t => (.ok (), t)
    | .error e => (.error e, s)

namespace Commits

variable {m : Procedure ε σ Unit} {f : σ → Except ε σ}

theorem atomic (h : Commits m f) : Atomic m := by
  intro s e t hs
  rw [h s] at hs
  cases hf : f s with
  | ok u =>
      rw [hf] at hs
      cases hs
  | error e' =>
      rw [hf] at hs
      cases hs
      rfl

theorem attempt_bind (r : Except ε α) {m : α → Procedure ε σ Unit} {f : α → σ → Except ε σ}
    (h : ∀ a, Commits (m a) (f a)) :
    Commits (.attempt r >>= m) fun s => r >>= fun a => f a s := by
  intro s
  cases r with
  | ok a => exact h a s
  | error e => rfl

theorem read_bind (g : σ → α) {m : α → Procedure ε σ Unit} {f : α → σ → Except ε σ}
    (h : ∀ a, Commits (m a) (f a)) : Commits (.read g >>= m) fun s => f (g s) s :=
  fun s => h (g s) s

theorem write (g : σ → σ) : Commits (.write g : Procedure ε σ Unit) fun s => .ok (g s) :=
  fun _ => rfl

/-- Stores one after the other are one store. -/
theorem write_bind (g : σ → σ) {m : Unit → Procedure ε σ Unit} {k : σ → σ}
    (h : Commits (m ()) fun s => .ok (k s)) :
    Commits (.write g >>= m) fun s => .ok (k (g s)) :=
  fun s => h (g s)

theorem congr {f' : σ → Except ε σ} (h : Commits m f) (hf : ∀ s, f s = f' s) : Commits m f' := by
  intro s
  rw [← hf s]
  exact h s

end Commits

/-- A callee that works on the locals `t` of its caller, which are gone after an
error. -/
def onLocals (m : Procedure ε τ Unit) (t : τ) : Except ε τ :=
  match m t with
  | (.ok (), t') => .ok t'
  | (.error e, _) => .error e

theorem Commits.onLocals {m : Procedure ε τ Unit} {f : τ → Except ε τ} (h : Commits m f) (t : τ) :
    onLocals m t = f t := by
  rw [Procedure.onLocals, h t]
  cases f t <;> rfl

/-- No outcome changes the view. -/
def Keeps (view : σ → τ) (m : Procedure ε σ α) : Prop :=
  ∀ s, view (m s).2 = view s

namespace Keeps

variable {view : σ → τ}

theorem attempt (m : Except ε α) : Keeps view (attempt m : Procedure ε σ α) := fun _ => rfl

theorem write {f : σ → σ} (hf : ∀ s, view (f s) = view s) :
    Keeps view (write f : Procedure ε σ Unit) := hf

theorem bind {m : Procedure ε σ α} {f : α → Procedure ε σ β} (hm : Keeps view m)
    (hf : ∀ a, Keeps view (f a)) : Keeps view (m >>= f) := by
  intro s
  rcases h : m s with ⟨e | a, t⟩
  · rw [bind_error h, ← hm s, h]
  · rw [bind_ok h, hf a t, ← hm s, h]

theorem attempt_bind (m : Except ε α) {f : α → Procedure ε σ β} (hf : ∀ a, Keeps view (f a)) :
    Keeps view (.attempt m >>= f) :=
  (attempt m).bind hf

theorem read_bind (g : σ → α) {f : α → Procedure ε σ β} (hf : ∀ a, Keeps view (f a)) :
    Keeps view (.read g >>= f) :=
  fun s => hf (g s) s

end Keeps

/-! ## Two runs of one procedure -/

/-- From memories related by `R`, both runs return the same value in memories
related by `S`, or both stop with the same error in memories related by `E`. -/
def Lockstep (R : σ → σ → Prop) (m : Procedure ε σ α) (S : α → σ → σ → Prop)
    (E : σ → σ → Prop) : Prop :=
  ∀ s t, R s t →
    (∃ a s' t', m s = (.ok a, s') ∧ m t = (.ok a, t') ∧ S a s' t') ∨
    (∃ e s' t', m s = (.error e, s') ∧ m t = (.error e, t') ∧ E s' t')

namespace Lockstep

variable {R R' E : σ → σ → Prop} {S : α → σ → σ → Prop} {T : β → σ → σ → Prop}

theorem pure {a : α} (h : ∀ s t, R s t → S a s t) :
    Lockstep R (Pure.pure a : Procedure ε σ α) S E := by
  intro s t hst
  exact Or.inl ⟨a, s, t, rfl, rfl, h s t hst⟩

theorem attempt {m : Except ε α} (hok : ∀ a, m = .ok a → ∀ s t, R s t → S a s t)
    (herror : ∀ s t, R s t → E s t) : Lockstep R (Procedure.attempt m) S E := by
  intro s t hst
  cases hm : m with
  | ok a => exact Or.inl ⟨a, s, t, rfl, rfl, hok a hm s t hst⟩
  | error e => exact Or.inr ⟨e, s, t, rfl, rfl, herror s t hst⟩

theorem read {f : σ → α} (hf : ∀ s t, R s t → f s = f t ∧ S (f s) s t) :
    Lockstep R (Procedure.read f : Procedure ε σ α) S E := by
  intro s t hst
  obtain ⟨hvalue, hpost⟩ := hf s t hst
  exact Or.inl ⟨f s, s, t, rfl, by rw [read_apply, hvalue], hpost⟩

theorem write {f : σ → σ} {S : Unit → σ → σ → Prop} (h : ∀ s t, R s t → S () (f s) (f t)) :
    Lockstep R (Procedure.write f : Procedure ε σ Unit) S E := by
  intro s t hst
  exact Or.inl ⟨(), f s, f t, rfl, rfl, h s t hst⟩

theorem bind {m : Procedure ε σ α} {f : α → Procedure ε σ β} (hm : Lockstep R m S E)
    (hf : ∀ a, Lockstep (S a) (f a) T E) : Lockstep R (m >>= f) T E := by
  intro s t hst
  rcases hm s t hst with ⟨a, s', t', hs, ht, hpost⟩ | ⟨e, s', t', hs, ht, hfail⟩
  · rw [bind_ok hs, bind_ok ht]
    exact hf a s' t' hpost
  · right
    exact ⟨e, s', t', bind_error hs, bind_error ht, hfail⟩

theorem mono {m : Procedure ε σ α} (hm : Lockstep R m S E) (hpre : ∀ s t, R' s t → R s t) :
    Lockstep R' m S E := by
  intro s t hst
  exact hm s t (hpre s t hst)

theorem ite {c : Prop} [Decidable c] {m m' : Procedure ε σ α} (hm : c → Lockstep R m S E)
    (hm' : ¬c → Lockstep R m' S E) : Lockstep R (if c then m else m') S E := by
  split
  · exact hm ‹_›
  · exact hm' ‹_›

/-- Invariant rule: the invariant may mention the index and the carried value. -/
theorem repeatFrom {body : ℕ → α → Procedure ε σ α} (inv : ℕ → α → σ → σ → Prop) (count : ℕ)
    {i : ℕ} {a : α} (hbody : ∀ k b, i ≤ k → k < i + count →
      Lockstep (inv k b) (body k b) (inv (k + 1)) E) :
    Lockstep (inv i a) (Procedure.repeatFrom body count i a) (inv (i + count)) E := by
  induction count generalizing i a with
  | zero => exact Lockstep.pure fun s t hst => hst
  | succ count ih =>
      apply (hbody i a le_rfl (by omega)).bind
      intro b
      rw [show i + (count + 1) = i + 1 + count by omega]
      apply ih
      intro k c hik hk
      exact hbody k c (by omega) (by omega)

end Lockstep

/-! ## Transactions -/

/-- A procedure whose visible effect is all or nothing: on an error the view is
the initial one, and outcome and final view depend on the initial view only.
Views satisfy `inv` before and after. -/
def Transaction (view : σ → τ) (inv : τ → Prop) (m : Procedure ε σ α) : Prop :=
  ∀ v, inv v → Lockstep (fun s t => view s = v ∧ view t = v) m
    (fun _ s t => view s = view t ∧ inv (view s)) (fun s t => view s = v ∧ view t = v)

namespace Transaction

variable {view : σ → τ} {inv : τ → Prop} {m : Procedure ε σ α}

theorem error_view (h : Transaction view inv m) {s s' : σ} {e : ε} (hs : inv (view s))
    (hm : m s = (.error e, s')) : view s' = view s := by
  rcases h (view s) hs s s ⟨rfl, rfl⟩ with ⟨a, t, t', heq, _, _⟩ | ⟨f, t, t', heq, _, hview, _⟩
  · rw [hm] at heq
    cases heq
  · rw [hm] at heq
    cases heq
    exact hview

theorem preserved (h : Transaction view inv m) {s : σ} (hs : inv (view s)) :
    inv (view (m s).2) := by
  rcases h (view s) hs s s ⟨rfl, rfl⟩ with ⟨a, t, t', heq, _, _, hinv⟩ | ⟨f, t, t', heq, _, hview, _⟩
  · rw [heq]
    exact hinv
  · rw [heq, hview]
    exact hs

theorem outcome_eq (h : Transaction view inv m) {s t : σ} (hs : inv (view s))
    (hst : view s = view t) : (m s).1 = (m t).1 ∧ view (m s).2 = view (m t).2 := by
  rcases h (view s) hs s t ⟨rfl, hst.symm⟩ with
    ⟨a, s', t', heq, heq', hview, _⟩ | ⟨e, s', t', heq, heq', hs', ht'⟩
  · rw [heq, heq']
    exact ⟨rfl, hview⟩
  · rw [heq, heq']
    exact ⟨rfl, hs'.trans ht'.symm⟩

end Transaction

end Procedure

/-! ## Runs with the failing calls deleted -/

section Runs

variable {ε P W O Call : Type}

/-- A service: each call acts on a persistent and a scratch part, and answers
with an error or an observation. -/
structure Service (ε P W O Call : Type) where
  perform : Call → P × W → Except ε O × (P × W)

namespace Service

variable (F : Service ε P W O Call)

/-- The state after a run of calls. -/
def final : P × W → List Call → P × W
  | s, [] => s
  | s, call :: calls => final (F.perform call s).2 calls

/-- The observations of the calls that succeeded, in order. -/
def outputs : P × W → List Call → List O
  | _, [] => []
  | s, call :: calls =>
      match (F.perform call s).1 with
      | .ok o => o :: outputs (F.perform call s).2 calls
      | .error _ => outputs (F.perform call s).2 calls

/-- The calls of a run that succeeded in it. -/
def succeeding : P × W → List Call → List Call
  | _, [] => []
  | s, call :: calls =>
      match (F.perform call s).1 with
      | .ok _ => call :: succeeding (F.perform call s).2 calls
      | .error _ => succeeding (F.perform call s).2 calls

/-- While the persistent part satisfies `inv`: a failing call changes nothing
persistent, and no call reads the scratch part it was given. -/
structure Transactional (inv : P → Prop) : Prop where
  preserved : ∀ call s, inv s.1 → inv (F.perform call s).2.1
  atomic : ∀ call s e, inv s.1 → (F.perform call s).1 = .error e →
    (F.perform call s).2.1 = s.1
  oblivious : ∀ call s t, inv s.1 → s.1 = t.1 →
    (F.perform call s).1 = (F.perform call t).1 ∧ (F.perform call s).2.1 = (F.perform call t).2.1

variable {F} {inv : P → Prop}

/-- The failing calls of a run leave no trace in its observations and in the
persistent state, whatever scratch the shorter run starts from. -/
theorem Transactional.run_succeeding (h : F.Transactional inv) (calls : List Call) :
    ∀ s t : P × W, inv s.1 → s.1 = t.1 →
      F.outputs t (F.succeeding s calls) = F.outputs s calls ∧
        (F.final t (F.succeeding s calls)).1 = (F.final s calls).1 := by
  induction calls with
  | nil => exact fun s t _ hst => ⟨rfl, hst.symm⟩
  | cons call calls ih =>
      intro s t hinv hst
      have hnextInv := h.preserved call s hinv
      obtain ⟨hout, hnext⟩ := h.oblivious call s t hinv hst
      cases hs : (F.perform call s).1 with
      | ok o =>
          rw [hs] at hout
          simp only [succeeding, outputs, final, hs, ← hout, List.cons.injEq, true_and]
          exact ih _ _ hnextInv hnext
      | error e =>
          simp only [succeeding, outputs, final, hs]
          exact ih _ _ hnextInv ((h.atomic call s e hinv hs).trans hst)

/-- The service whose calls are procedures on one memory; a call that succeeds
is observed by the memory it leaves. -/
def ofProcedures (perform : Call → Procedure ε P Unit) : Service ε P Unit P Call where
  perform call s :=
    ((perform call s.1).1.map fun _ => (perform call s.1).2, (perform call s.1).2, ())

theorem transactional_ofProcedures {perform : Call → Procedure ε P Unit}
    (h : ∀ call, (perform call).Atomic) :
    (ofProcedures perform).Transactional fun _ => True where
  preserved _ _ _ := trivial
  atomic call s e _ hcall := by
    simp only [ofProcedures] at hcall ⊢
    rcases hrun : perform call s.1 with ⟨_ | _, t⟩
    · exact h call s.1 _ t hrun
    · rw [hrun] at hcall
      cases hcall
  oblivious call s t _ hst := by
    simp only [ofProcedures, hst, and_self]

end Service

end Runs

end Xhive.Support
