import Mathlib.Logic.Function.Basic
import Mathlib.Logic.Relation
import Mathlib.Tactic

/-!
# Locks for readers and writers

What a lock for readers and writers is for, whatever it is made of. A thread may hold it several
times, for reading and for writing. A reader that wants to write lets go of the lock while it waits,
and has its reader locks again when it goes on.

Main result: `Exclusive.of_reachable`, while one thread writes no other holds the lock.
-/

namespace TortoiseSvn.Lib.SharedLock

/-- What a thread holds. -/
@[ext]
structure Hold where
  reads : ℕ := 0
  writes : ℕ := 0
  /-- The thread has let go of its reader locks. -/
  suspended : Bool := false
  deriving DecidableEq

namespace Hold

/-- The thread may write. -/
def Writes (h : Hold) : Prop := 0 < h.writes

/-- The thread may read. -/
def Reads (h : Hold) : Prop := 0 < h.reads ∧ h.suspended = false

/-- The thread keeps nobody out. -/
def Free (h : Hold) : Prop := ¬ h.Writes ∧ ¬ h.Reads

instance (h : Hold) : Decidable h.Writes := inferInstanceAs (Decidable (0 < h.writes))

instance (h : Hold) : Decidable h.Reads :=
  inferInstanceAs (Decidable (0 < h.reads ∧ h.suspended = false))

instance (h : Hold) : Decidable h.Free := inferInstanceAs (Decidable (¬ h.Writes ∧ ¬ h.Reads))

/-- The thread holds no more than before. -/
structure Below (h' h : Hold) : Prop where
  writes : h'.writes ≤ h.writes
  reads : h'.reads ≤ h.reads
  suspended : h.suspended = true → h'.suspended = true

end Hold

variable {T : Type*} [DecidableEq T]

/-- The steps of the lock: a thread gets a reader lock, gets a writer lock, lets go of something, or
has its reader locks again. -/
inductive Step (s : T → Hold) : (T → Hold) → Prop
  | read (t : T) : (s t).suspended = false →
      (s t).Writes ∨ (s t).Reads ∨ (∀ u, u ≠ t → ¬ (s u).Writes) →
      Step s (Function.update s t { s t with reads := (s t).reads + 1 })
  | write (t : T) : (∀ u, u ≠ t → (s u).Free) →
      Step s (Function.update s t { s t with writes := (s t).writes + 1, suspended := false })
  | leave (t : T) (h : Hold) : h.Below (s t) → Step s (Function.update s t h)
  | resume (t : T) : (∀ u, u ≠ t → ¬ (s u).Writes) →
      Step s (Function.update s t { s t with suspended := false })

/-- While one thread writes no other holds the lock. -/
def Exclusive (s : T → Hold) : Prop := ∀ t u, (s t).Writes → u ≠ t → (s u).Free

omit [DecidableEq T] in
theorem exclusive_init : Exclusive fun _ : T => ({} : Hold) :=
  fun _ _ h _ => absurd h (Nat.lt_irrefl 0)

variable {s s' : T → Hold}

theorem Exclusive.step (h : Exclusive s) (hstep : Step s s') : Exclusive s' := by
  intro a b ha hne
  cases hstep with
  | read t hactive hallowed =>
    by_cases hat : a = t
    · subst hat
      rw [Function.update_self] at ha
      rw [Function.update_of_ne hne]
      exact h a b ha hne
    · rw [Function.update_of_ne hat] at ha
      by_cases hbt : b = t
      · subst hbt
        -- a reader lock is not granted beside a writer
        exfalso
        obtain ⟨hwrites, hreads⟩ := h a b ha hne
        rcases hallowed with hw | hr | hothers
        · exact hwrites hw
        · exact hreads hr
        · exact hothers a hat ha
      · rw [Function.update_of_ne hbt]
        exact h a b ha hne
  | write t hfree =>
    by_cases hat : a = t
    · subst hat
      rw [Function.update_of_ne hne]
      exact hfree b hne
    · rw [Function.update_of_ne hat] at ha
      exact absurd ha (hfree a hat).1
  | leave t hold hbelow =>
    have hwrites : (s a).Writes := by
      by_cases hat : a = t
      · subst hat
        rw [Function.update_self] at ha
        exact Nat.lt_of_lt_of_le ha hbelow.writes
      · rwa [Function.update_of_ne hat] at ha
    obtain ⟨hnw, hnr⟩ := h a b hwrites hne
    by_cases hbt : b = t
    · subst hbt
      rw [Function.update_self]
      refine ⟨fun hw => hnw (Nat.lt_of_lt_of_le hw hbelow.writes), fun hr => hnr ⟨?_, ?_⟩⟩
      · exact Nat.lt_of_lt_of_le hr.1 hbelow.reads
      · by_contra hsuspended
        rw [Bool.not_eq_false] at hsuspended
        exact absurd (hbelow.suspended hsuspended) (by rw [hr.2]; decide)
    · rw [Function.update_of_ne hbt]
      exact ⟨hnw, hnr⟩
  | resume t hothers =>
    by_cases hat : a = t
    · subst hat
      rw [Function.update_self] at ha
      rw [Function.update_of_ne hne]
      exact h a b ha hne
    · rw [Function.update_of_ne hat] at ha
      exact absurd ha (hothers a hat)

/-- **While one thread writes no other holds the lock**, whatever the order of the steps. -/
theorem Exclusive.of_reachable (h : Exclusive s) (hreach : Relation.ReflTransGen Step s s') :
    Exclusive s' := by
  induction hreach with
  | refl => exact h
  | tail _ hstep ih => exact ih.step hstep

end TortoiseSvn.Lib.SharedLock
