import Mathlib.Tactic.Common

/-!
# Deterministic machines and their runs

A machine answers each request and moves to its next state.  A property that
every request keeps holds along every run, and two machines whose requests keep
a relation between their states give the same answers along every run.  Two runs
over related requests stay related for as long as the answers are admissible.
-/

namespace Xhive.Support

universe u

/-- A machine over requests `A`, answers `B` and states `σ`. -/
structure Machine (A B : Type u) (σ : Type u) where
  react : A → σ → B × σ

namespace Machine

variable {A B σ τ : Type u}

/-- The answers of a run, and the state it ends in. -/
def run (M : Machine A B σ) : List A → σ → List B × σ
  | [], s => ([], s)
  | a :: as, s => ((M.react a s).1 :: (M.run as (M.react a s).2).1, (M.run as (M.react a s).2).2)

@[simp] theorem run_nil (M : Machine A B σ) (s : σ) : M.run [] s = ([], s) := rfl

@[simp] theorem run_cons (M : Machine A B σ) (a : A) (as : List A) (s : σ) :
    M.run (a :: as) s =
      ((M.react a s).1 :: (M.run as (M.react a s).2).1, (M.run as (M.react a s).2).2) := rfl

theorem run_concat (M : Machine A B σ) (as : List A) (a : A) (s : σ) :
    M.run (as ++ [a]) s =
      ((M.run as s).1 ++ [(M.react a (M.run as s).2).1], (M.react a (M.run as s).2).2) := by
  induction as generalizing s with
  | nil => rfl
  | cons first as ih => rw [List.cons_append, run_cons, ih, run_cons, List.cons_append]

/-- Every request keeps `inv`. -/
def Preserves (M : Machine A B σ) (inv : σ → Prop) : Prop :=
  ∀ a s, inv s → inv (M.react a s).2

theorem Preserves.run {M : Machine A B σ} {inv : σ → Prop} (h : M.Preserves inv) (as : List A)
    {s : σ} (hs : inv s) : inv (M.run as s).2 := by
  induction as generalizing s with
  | nil => exact hs
  | cons a as ih => exact ih (h a s hs)

/-- Related states answer alike and stay related. -/
def Simulates (M : Machine A B σ) (N : Machine A B τ) (R : σ → τ → Prop) : Prop :=
  ∀ a s t, R s t → (M.react a s).1 = (N.react a t).1 ∧ R (M.react a s).2 (N.react a t).2

theorem Simulates.run {M : Machine A B σ} {N : Machine A B τ} {R : σ → τ → Prop}
    (h : M.Simulates N R) (as : List A) {s : σ} {t : τ} (hst : R s t) :
    (M.run as s).1 = (N.run as t).1 ∧ R (M.run as s).2 (N.run as t).2 := by
  induction as generalizing s t with
  | nil => exact ⟨rfl, hst⟩
  | cons a as ih =>
      obtain ⟨hanswer, hnext⟩ := h a s t hst
      obtain ⟨hanswers, hfinal⟩ := ih hnext
      exact ⟨congrArg₂ List.cons hanswer hanswers, hfinal⟩

/-- Two runs over related requests: where both answers are admissible, the
answers are related and the states stay related. -/
theorem forall₂_run {M : Machine A B σ} {N : Machine A B τ} {R : σ → τ → Prop}
    {P : A → A → Prop} {S : B → B → Prop} {admissible : A → B → Prop}
    (h : ∀ a a' s t, P a a' → R s t → admissible a (M.react a s).1 →
      admissible a' (N.react a' t).1 →
        S (M.react a s).1 (N.react a' t).1 ∧ R (M.react a s).2 (N.react a' t).2)
    {as as' : List A} (has : List.Forall₂ P as as') {s : σ} {t : τ} (hst : R s t)
    (hM : List.Forall₂ admissible as (M.run as s).1)
    (hN : List.Forall₂ admissible as' (N.run as' t).1) :
    List.Forall₂ S (M.run as s).1 (N.run as' t).1 ∧ R (M.run as s).2 (N.run as' t).2 := by
  induction has generalizing s t with
  | nil => exact ⟨.nil, hst⟩
  | cons ha _ ih =>
      rw [run_cons, List.forall₂_cons] at hM hN
      obtain ⟨hanswer, hnext⟩ := h _ _ s t ha hst hM.1 hN.1
      obtain ⟨hanswers, hfinal⟩ := ih hnext hM.2 hN.2
      exact ⟨.cons hanswer hanswers, hfinal⟩

end Machine

end Xhive.Support

/-!
## Runs under a condition on every step

A step function moves a state along a list of events.  `Along` asks something
of every step of a run, `Throughout` of every state.  When one step keeps a
property exactly under a condition, a whole run keeps it exactly when every
step meets that condition.
-/

namespace Xhive.Support

variable {E σ : Type} (step : E → σ → σ)

/-- The state a run ends in. -/
def after : List E → σ → σ
  | [], s => s
  | e :: es, s => after es (step e s)

/-- Every event of the run meets `good` in the state it finds. -/
def Along (good : E → σ → Prop) : List E → σ → Prop
  | [], _ => True
  | e :: es, s => good e s ∧ Along good es (step e s)

/-- Every state of the run, the first and the last included, satisfies `P`. -/
def Throughout (P : σ → Prop) : List E → σ → Prop
  | [], s => P s
  | e :: es, s => P s ∧ Throughout P es (step e s)

/-- The run watched by an observer, which notes something about every step
from the state the step finds. -/
def observing {γ : Type} (note : E → σ → γ → γ) (e : E) (s : σ × γ) : σ × γ :=
  (step e s.1, note e s.1 s.2)

variable {step}

@[simp] theorem after_nil (s : σ) : after step [] s = s := rfl

@[simp] theorem after_cons (e : E) (es : List E) (s : σ) :
    after step (e :: es) s = after step es (step e s) := rfl

theorem after_append (es fs : List E) (s : σ) :
    after step (es ++ fs) s = after step fs (after step es s) := by
  induction es generalizing s with
  | nil => rfl
  | cons e es ih => simp [ih]

/-- The observer does not disturb the run. -/
theorem after_observing {γ : Type} (note : E → σ → γ → γ) (es : List E) (s : σ × γ) :
    (after (observing step note) es s).1 = after step es s.1 := by
  induction es generalizing s with
  | nil => rfl
  | cons e es ih => exact ih _

@[simp] theorem throughout_nil {P : σ → Prop} {s : σ} : Throughout step P [] s ↔ P s := Iff.rfl

@[simp] theorem throughout_cons {P : σ → Prop} {e : E} {es : List E} {s : σ} :
    Throughout step P (e :: es) s ↔ P s ∧ Throughout step P es (step e s) := Iff.rfl

theorem Throughout.initial {P : σ → Prop} {es : List E} {s : σ} (h : Throughout step P es s) :
    P s := by
  cases es with
  | nil => exact h
  | cons e es => exact h.1

/-- A property that every step keeps holds throughout every run. -/
theorem throughout_of_preserved {P : σ → Prop} (hstep : ∀ e s, P s → P (step e s)) (es : List E)
    {s : σ} (hs : P s) : Throughout step P es s := by
  induction es generalizing s with
  | nil => exact hs
  | cons e es ih => exact ⟨hs, ih (hstep e s hs)⟩

theorem Throughout.imp {P Q : σ → Prop} (hPQ : ∀ s, P s → Q s) {es : List E} {s : σ}
    (h : Throughout step P es s) : Throughout step Q es s := by
  induction es generalizing s with
  | nil => exact hPQ s h
  | cons e es ih => exact ⟨hPQ s h.1, ih h.2⟩

/-- What the invariant and the condition on a step imply holds of every step. -/
theorem Along.imp {good good' : E → σ → Prop} {P : σ → Prop}
    (hstep : ∀ e s, P s → good e s → P (step e s) ∧ good' e s) {es : List E} {s : σ} (hs : P s)
    (h : Along step good es s) : Along step good' es s := by
  induction es generalizing s with
  | nil => trivial
  | cons e es ih =>
      obtain ⟨hnext, hgood⟩ := hstep e s hs h.1
      exact ⟨hgood, ih hnext h.2⟩

/-- What an invariant implies of a step holds of every step of every run. -/
theorem along_of_preserved {good : E → σ → Prop} {P : σ → Prop}
    (hstep : ∀ e s, P s → P (step e s)) (hgood : ∀ e s, P s → good e s) (es : List E) {s : σ}
    (hs : P s) : Along step good es s := by
  induction es generalizing s with
  | nil => trivial
  | cons e es ih => exact ⟨hgood e s hs, ih (hstep e s hs)⟩

/-- The last step of a run. -/
theorem Along.last {good : E → σ → Prop} {es : List E} {e : E} {s : σ}
    (h : Along step good (es ++ [e]) s) : good e (after step es s) := by
  induction es generalizing s with
  | nil => exact h.1
  | cons f es ih => exact ih h.2

/-- Where a step of an `inv`-state keeps `P` exactly under `good`, a run keeps
`P` exactly when all its steps are good. -/
theorem throughout_iff_along {good : E → σ → Prop} {P : σ → Prop} (inv : σ → Prop)
    (hinv : ∀ e s, inv s → inv (step e s))
    (hstep : ∀ e s, inv s → P s → (P (step e s) ↔ good e s)) (es : List E) {s : σ}
    (hs : inv s) (hP : P s) : Throughout step P es s ↔ Along step good es s := by
  induction es generalizing s with
  | nil => exact ⟨fun _ => trivial, fun _ => hP⟩
  | cons e es ih =>
      constructor
      · rintro ⟨-, hrest⟩
        have hnext := hrest.initial
        exact ⟨(hstep e s hs hP).mp hnext, (ih (hinv e s hs) hnext).mp hrest⟩
      · rintro ⟨hgood, hrest⟩
        have hnext := (hstep e s hs hP).mpr hgood
        exact ⟨hP, (ih (hinv e s hs) hnext).mpr hrest⟩

end Xhive.Support
