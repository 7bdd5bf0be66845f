import Mathlib.Tactic

/-!
# Computations that keep their state when they fail

A `Trial ε σ α` works on a state `σ` and ends with a result or a failure. What it did to the
state before it failed stays done, as with an object whose member function threw an exception
half way.

The lemmas `…_ok` take a sequence that succeeded apart.
-/

namespace TortoiseSvn.Lib

/-- A computation on a state `σ` that may fail with an `ε` and keeps its state when it does. -/
def Trial (ε σ α : Type) : Type := σ → Except ε α × σ

namespace Trial

variable {ε σ τ α β : Type}

/-- Run the second computation on what the first one left, unless that failed. -/
protected def bind (x : Trial ε σ α) (f : α → Trial ε σ β) : Trial ε σ β := fun s =>
  match x s with
  | (.ok a, s') => f a s'
  | (.error e, s') => (.error e, s')

instance : Monad (Trial ε σ) where
  pure a := fun s => (.ok a, s)
  bind := Trial.bind

/-- Fail. -/
def fail (e : ε) : Trial ε σ α := fun s => (.error e, s)

/-- A computation that does not touch the state. -/
def lift (r : Except ε α) : Trial ε σ α := fun s => (r, s)

/-- Go on if `p` holds and fail otherwise. -/
def require (p : Prop) [Decidable p] (e : ε) : Trial ε σ Unit := fun s =>
  (if p then .ok () else .error e, s)

/-- Change the state. -/
def modify (f : σ → σ) : Trial ε σ Unit := fun s => (.ok (), f s)

/-- The state. -/
def get : Trial ε σ σ := fun s => (.ok s, s)

/-- Work on a part of the state. -/
def zoom (part : σ → τ) (put : σ → τ → σ) (x : Trial ε τ α) : Trial ε σ α := fun s =>
  ((x (part s)).1, put s (x (part s)).2)

@[simp] theorem pure_run (a : α) (s : σ) : (pure a : Trial ε σ α) s = (.ok a, s) := rfl

@[simp] theorem fail_run (e : ε) (s : σ) : (fail e : Trial ε σ α) s = (.error e, s) := rfl

@[simp] theorem lift_run (r : Except ε α) (s : σ) : (lift r : Trial ε σ α) s = (r, s) := rfl

theorem require_run (p : Prop) [Decidable p] (e : ε) (s : σ) :
    (require p e : Trial ε σ Unit) s = (if p then .ok () else .error e, s) := rfl

theorem require_ok {p : Prop} [Decidable p] {e : ε} {s s' : σ} {u : Unit}
    (h : (require p e : Trial ε σ Unit) s = (.ok u, s')) : p ∧ s' = s := by
  rw [require_run] at h
  obtain ⟨h1, rfl⟩ := Prod.mk.inj h
  by_cases hp : p
  · exact ⟨hp, rfl⟩
  · simp [hp] at h1

@[simp] theorem modify_run (f : σ → σ) (s : σ) :
    (modify f : Trial ε σ Unit) s = (.ok (), f s) := rfl

@[simp] theorem get_run (s : σ) : (get : Trial ε σ σ) s = (.ok s, s) := rfl

@[simp] theorem zoom_run (part : σ → τ) (put : σ → τ → σ) (x : Trial ε τ α) (s : σ) :
    zoom part put x s = ((x (part s)).1, put s (x (part s)).2) := rfl

theorem bind_run (x : Trial ε σ α) (f : α → Trial ε σ β) (s : σ) :
    (x >>= f) s = match x s with
      | (.ok a, s') => f a s'
      | (.error e, s') => (.error e, s') := rfl

theorem bind_run_ok {x : Trial ε σ α} {s s' : σ} {a : α} (h : x s = (.ok a, s'))
    (f : α → Trial ε σ β) : (x >>= f) s = f a s' := by
  rw [bind_run, h]

theorem bind_run_error {x : Trial ε σ α} {s s' : σ} {e : ε} (h : x s = (.error e, s'))
    (f : α → Trial ε σ β) : (x >>= f) s = (.error e, s') := by
  rw [bind_run, h]

/-- A sequence that succeeds is two computations that do. -/
theorem bind_eq_ok {x : Trial ε σ α} {f : α → Trial ε σ β} {s s'' : σ} {b : β}
    (h : (x >>= f) s = (.ok b, s'')) : ∃ a s', x s = (.ok a, s') ∧ f a s' = (.ok b, s'') := by
  rw [bind_run] at h
  rcases hx : x s with ⟨e | a, s'⟩
  · simp [hx] at h
  · rw [hx] at h
    exact ⟨a, s', rfl, h⟩

/-- A sequence that succeeds and begins with a computation that does not touch the state. -/
theorem lift_bind_eq_ok {r : Except ε α} {f : α → Trial ε σ β} {s s' : σ} {b : β}
    (h : (lift r >>= f) s = (.ok b, s')) : ∃ a, r = .ok a ∧ f a s = (.ok b, s') := by
  obtain ⟨a, t, ht, hf⟩ := bind_eq_ok h
  obtain ⟨rfl, rfl⟩ := Prod.mk.inj ht
  exact ⟨a, rfl, hf⟩

/-- A sequence that succeeds and begins with work on a part of the state. -/
theorem zoom_bind_eq_ok {part : σ → τ} {put : σ → τ → σ} {x : Trial ε τ α} {f : α → Trial ε σ β}
    {s s' : σ} {b : β} (h : (zoom part put x >>= f) s = (.ok b, s')) :
    ∃ a t, x (part s) = (.ok a, t) ∧ f a (put s t) = (.ok b, s') := by
  obtain ⟨a, u, hu, hf⟩ := bind_eq_ok h
  obtain ⟨ha, rfl⟩ := Prod.mk.inj hu
  exact ⟨a, _, Prod.ext ha rfl, hf⟩

theorem modify_bind_eq {g : σ → σ} {f : Unit → Trial ε σ β} {s : σ} {r : Except ε β × σ}
    (h : (modify g >>= f) s = r) : f () (g s) = r := h

end Trial

end TortoiseSvn.Lib
