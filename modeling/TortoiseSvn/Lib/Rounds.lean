import Mathlib.Tactic

/-!
# Loops that count

`rounds` runs the body of a loop once for each index of a range, and fails when the body does.

Main rule: `rounds_ok`, an invariant that the body leads from each index to the next one.
-/

namespace TortoiseSvn.Lib

variable {ε σ α : Type}

/-- The loop `for (i = first; i < first + n; ++i)`. -/
def rounds (body : ℕ → σ → Except ε σ) (first : ℕ) : ℕ → σ → Except ε σ
  | 0, s => .ok s
  | n + 1, s => body first s >>= rounds body (first + 1) n

/-- A loop whose body never fails under its invariant runs to the end of its range. -/
theorem rounds_ok {body : ℕ → σ → Except ε σ} (inv : ℕ → σ → Prop) {first n : ℕ}
    (hbody : ∀ i s, first ≤ i → i < first + n → inv i s → ∃ s', body i s = .ok s' ∧ inv (i + 1) s')
    {s : σ} (hs : inv first s) : ∃ s', rounds body first n s = .ok s' ∧ inv (first + n) s' := by
  induction n generalizing first s with
  | zero => exact ⟨s, rfl, hs⟩
  | succ n ih =>
    obtain ⟨s₁, hrun, hs₁⟩ := hbody first s le_rfl (by omega) hs
    obtain ⟨s₂, hrest, hs₂⟩ := @ih (first + 1)
      (fun i s hle hlt => hbody i s (by omega) (by omega)) s₁ hs₁
    refine ⟨s₂, ?_, ?_⟩
    · rw [rounds, hrun]
      exact hrest
    · rwa [Nat.add_right_comm, Nat.add_assoc] at hs₂

/-- A loop whose body cannot fail. -/
theorem iterate_inv {f : σ → σ} (inv : ℕ → σ → Prop) {n : ℕ}
    (hf : ∀ i s, i < n → inv i s → inv (i + 1) (f s)) {s : σ} (hs : inv 0 s) :
    inv n (f^[n] s) := by
  induction n with
  | zero => exact hs
  | succ n ih =>
    rw [Function.iterate_succ_apply']
    exact hf n _ (Nat.lt_succ_self n) (ih fun i s hi => hf i s (Nat.lt_succ_of_lt hi))

end TortoiseSvn.Lib
