import Mathlib.Data.List.Infix

/-!
# Programs in dialogue with a device

A driver is a program that reads and writes the registers of a device, where
each read may answer any word.  Such a program is a tree, so that it ends
whatever it is answered, and its runs are the traces of its accesses.
-/

namespace Xhive.Support

/-- An access to a register. -/
inductive Event (R V : Type) where
  | read (r : R) (v : V)
  | write (r : R) (v : V)
  deriving DecidableEq, Repr

/-- A program that reads and writes registers `R` of words `V`. -/
inductive Dialogue (R V α : Type) where
  | done (result : α)
  | read (r : R) (next : V → Dialogue R V α)
  | write (r : R) (v : V) (next : Dialogue R V α)

namespace Dialogue

variable {R V α β : Type}

/-- Goes on with `k` where `m` ends. -/
def andThen : Dialogue R V α → (α → Dialogue R V β) → Dialogue R V β
  | done a, k => k a
  | read r next, k => read r fun v => (next v).andThen k
  | write r v next, k => write r v (next.andThen k)

instance : Monad (Dialogue R V) where
  pure := done
  bind := andThen

/-- Reads a register. -/
def get (r : R) : Dialogue R V V :=
  read r done

/-- Writes a register. -/
def put (r : R) (v : V) : Dialogue R V Unit :=
  write r v (done ())

/-- `trace` is a run of the program that ends with `result`. -/
def Runs : Dialogue R V α → List (Event R V) → α → Prop
  | done a, trace, result => trace = [] ∧ result = a
  | read r next, trace, result => ∃ v rest, trace = .read r v :: rest ∧ (next v).Runs rest result
  | write r v next, trace, result => ∃ rest, trace = .write r v :: rest ∧ next.Runs rest result

@[simp] theorem runs_pure {a result : α} {trace : List (Event R V)} :
    (pure a : Dialogue R V α).Runs trace result ↔ trace = [] ∧ result = a :=
  Iff.rfl

@[simp] theorem runs_get {r : R} {result : V} {trace : List (Event R V)} :
    (get r).Runs trace result ↔ trace = [.read r result] := by
  constructor
  · rintro ⟨v, rest, rfl, rfl, rfl⟩
    rfl
  · rintro rfl
    exact ⟨result, [], rfl, rfl, rfl⟩

@[simp] theorem runs_put {r : R} {v : V} {result : Unit} {trace : List (Event R V)} :
    (put r v).Runs trace result ↔ trace = [.write r v] := by
  constructor
  · rintro ⟨rest, rfl, rfl, -⟩
    rfl
  · rintro rfl
    exact ⟨[], rfl, rfl, rfl⟩

/-- A run of two programs in sequence is a run of the one and then of the other. -/
@[simp] theorem runs_bind {m : Dialogue R V α} {k : α → Dialogue R V β}
    {trace : List (Event R V)} {result : β} :
    (m >>= k).Runs trace result ↔
      ∃ first middle second, trace = first ++ second ∧ m.Runs first middle ∧
        (k middle).Runs second result := by
  change (m.andThen k).Runs trace result ↔ _
  induction m generalizing trace with
  | done a =>
      constructor
      · intro h
        exact ⟨[], a, trace, rfl, ⟨rfl, rfl⟩, h⟩
      · rintro ⟨first, middle, second, rfl, ⟨rfl, rfl⟩, h⟩
        exact h
  | read r next ih =>
      constructor
      · rintro ⟨v, rest, rfl, h⟩
        obtain ⟨first, middle, second, rfl, hfirst, hsecond⟩ := (ih v).mp h
        exact ⟨.read r v :: first, middle, second, rfl, ⟨v, first, rfl, hfirst⟩, hsecond⟩
      · rintro ⟨_, middle, second, rfl, ⟨v, first, rfl, hfirst⟩, hsecond⟩
        exact ⟨v, first ++ second, rfl, (ih v).mpr ⟨first, middle, second, rfl, hfirst, hsecond⟩⟩
  | write r v next ih =>
      constructor
      · rintro ⟨rest, rfl, h⟩
        obtain ⟨first, middle, second, rfl, hfirst, hsecond⟩ := ih.mp h
        exact ⟨.write r v :: first, middle, second, rfl, ⟨first, rfl, hfirst⟩, hsecond⟩
      · rintro ⟨_, middle, second, rfl, ⟨first, rfl, hfirst⟩, hsecond⟩
        exact ⟨first ++ second, rfl, ih.mpr ⟨first, middle, second, rfl, hfirst, hsecond⟩⟩

/-- The trace of the run against `device`, which answers a read by the place of
the access in the run. -/
def converse (device : ℕ → R → V) : Dialogue R V α → ℕ → List (Event R V) × α
  | done a, _ => ([], a)
  | read r next, n =>
      let rest := converse device (next (device n r)) (n + 1)
      (.read r (device n r) :: rest.1, rest.2)
  | write r v next, n =>
      let rest := converse device next (n + 1)
      (.write r v :: rest.1, rest.2)

/-- The program has a run against every device. -/
theorem converse_runs (device : ℕ → R → V) (m : Dialogue R V α) (n : ℕ) :
    m.Runs (converse device m n).1 (converse device m n).2 := by
  induction m generalizing n with
  | done a => exact ⟨rfl, rfl⟩
  | read r next ih => exact ⟨device n r, _, rfl, ih _ (n + 1)⟩
  | write r v next ih => exact ⟨_, rfl, ih (n + 1)⟩

end Dialogue

/-! ## Devices with a state -/

/-- A device answers a read by its state, and every access may change it. -/
structure Device (S R V : Type) where
  answer : S → R → V
  after : S → Event R V → S

namespace Device

variable {S R V α β : Type}

/-- The run against the device: each access with the state that it meets, the
result, and the state that is left. -/
def serve (device : Device S R V) : Dialogue R V α → S → List (S × Event R V) × α × S
  | .done a, s => ([], a, s)
  | .read r next, s =>
      let e := .read r (device.answer s r)
      let rest := device.serve (next (device.answer s r)) (device.after s e)
      ((s, e) :: rest.1, rest.2)
  | .write r v next, s =>
      let rest := device.serve next (device.after s (.write r v))
      ((s, .write r v) :: rest.1, rest.2)

variable (device : Device S R V)

@[simp] theorem serve_pure (a : α) (s : S) :
    device.serve (pure a : Dialogue R V α) s = ([], a, s) := rfl

@[simp] theorem serve_get (r : R) (s : S) :
    device.serve (Dialogue.get r) s =
      ([(s, .read r (device.answer s r))], device.answer s r,
        device.after s (.read r (device.answer s r))) := rfl

@[simp] theorem serve_put (r : R) (v : V) (s : S) :
    device.serve (Dialogue.put r v) s =
      ([(s, .write r v)], (), device.after s (.write r v)) := rfl

/-- Two programs in sequence meet the device one after the other. -/
@[simp] theorem serve_bind (m : Dialogue R V α) (k : α → Dialogue R V β) (s : S) :
    device.serve (m >>= k) s =
      ((device.serve m s).1 ++
          (device.serve (k (device.serve m s).2.1) (device.serve m s).2.2).1,
        (device.serve (k (device.serve m s).2.1) (device.serve m s).2.2).2) := by
  change device.serve (m.andThen k) s = _
  induction m generalizing s with
  | done a => rfl
  | read r next ih =>
      rw [Dialogue.andThen, serve, ih]
      rfl
  | write r v next ih =>
      rw [Dialogue.andThen, serve, ih]
      rfl

/-- What a run writes, in order. -/
def writes (trace : List (S × Event R V)) : List (R × V) :=
  trace.filterMap fun
    | (_, .write r v) => some (r, v)
    | (_, .read _ _) => none

@[simp] theorem writes_nil : writes ([] : List (S × Event R V)) = [] := rfl

@[simp] theorem writes_read (s : S) (r : R) (v : V) (trace : List (S × Event R V)) :
    writes ((s, .read r v) :: trace) = writes trace := rfl

@[simp] theorem writes_write (s : S) (r : R) (v : V) (trace : List (S × Event R V)) :
    writes ((s, .write r v) :: trace) = (r, v) :: writes trace := rfl

@[simp] theorem writes_append (first second : List (S × Event R V)) :
    writes (first ++ second) = writes first ++ writes second :=
  List.filterMap_append

end Device

/-! ## Events that follow others -/

section Temporal

variable {E : Type}

/-- Some event of the history satisfies `p`, and those after it satisfy `q`. -/
def Since (p q : E → Prop) (history : List E) : Prop :=
  ∃ earlier e later, history = earlier ++ e :: later ∧ p e ∧ ∀ x ∈ later, q x

theorem Since.prepend {p q : E → Prop} {history : List E} (h : Since p q history)
    (before : List E) : Since p q (before ++ history) := by
  obtain ⟨earlier, e, later, rfl, he, hlater⟩ := h
  exact ⟨before ++ earlier, e, later, by simp, he, hlater⟩

/-- Each event that satisfies `p` comes after a history that satisfies `good`. -/
def Follows (p : E → Prop) (good : List E → Prop) (trace : List E) : Prop :=
  ∀ before e after, trace = before ++ e :: after → p e → good before

theorem follows_of_forall_not {p : E → Prop} {good : List E → Prop} {trace : List E}
    (h : ∀ x ∈ trace, ¬p x) : Follows p good trace := by
  rintro before e after rfl he
  exact absurd he (h e (by simp))

/-- An event of two traces in sequence is one of the first or one of the second. -/
theorem append_eq_append_cons {first second before after : List E} {e : E}
    (h : first ++ second = before ++ e :: after) :
    (∃ middle, first = before ++ e :: middle ∧ after = middle ++ second) ∨
      ∃ middle, before = first ++ middle ∧ second = middle ++ e :: after := by
  rcases List.append_eq_append_iff.mp h with ⟨middle, hbefore, hsecond⟩ | ⟨middle, hfirst, hcons⟩
  · exact .inr ⟨middle, hbefore, hsecond⟩
  · rcases List.cons_eq_append_iff.mp hcons with ⟨rfl, hsecond⟩ | ⟨later, rfl, hafter⟩
    · exact .inr ⟨[], by simpa using hfirst.symm, by simpa using hsecond⟩
    · exact .inl ⟨later, hfirst, hafter⟩

theorem Follows.append {p : E → Prop} {good : List E → Prop} {first second : List E}
    (hgood : ∀ before history, good history → good (before ++ history))
    (h₁ : Follows p good first) (h₂ : Follows p good second) :
    Follows p good (first ++ second) := by
  intro before e after heq he
  obtain ⟨middle, hfirst, -⟩ | ⟨middle, rfl, hsecond⟩ := append_eq_append_cons heq
  · exact h₁ before e middle hfirst he
  · exact hgood _ _ (h₂ middle e after hsecond he)

end Temporal

end Xhive.Support
