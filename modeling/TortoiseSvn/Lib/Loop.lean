import Mathlib.Tactic

/-!
# Loops that may fail or never end

The body of a loop either leaves it with a result, goes round with a new state, or fails.
`loop` runs a body with fuel; `Returns` says that some amount of fuel gives a result.

Main rule: `Returns.of_measure`, an invariant and a measure that every round decreases.
-/

namespace TortoiseSvn.Lib

variable {ε σ α : Type}

/-- Run a loop for at most `fuel` rounds; `none` when it is still running. -/
def loop (body : σ → Except ε (σ ⊕ α)) : ℕ → σ → Option (Except ε α)
  | 0, _ => none
  | fuel + 1, s =>
    match body s with
    | .error e => some (.error e)
    | .ok (.inl s') => loop body fuel s'
    | .ok (.inr a) => some (.ok a)

attribute [local simp] loop

/-- The loop ends, without a failure and with result `a`. -/
def Returns (body : σ → Except ε (σ ⊕ α)) (s : σ) (a : α) : Prop :=
  ∃ fuel, loop body fuel s = some (.ok a)

section Outcomes

variable {body : σ → Except ε (σ ⊕ α)} {s s' : σ} (P : Except ε α → Prop)

theorem loop_mono {n m : ℕ} {r : Except ε α} (hnm : n ≤ m) (h : loop body n s = some r) :
    loop body m s = some r := by
  induction n generalizing s m with
  | zero => exact nomatch h
  | succ n ih =>
    cases m with
    | zero => omega
    | succ m =>
      rw [loop] at h ⊢
      rcases hb : body s with e | s' | a
      · rw [hb] at h
        exact h
      · rw [hb] at h
        exact ih (Nat.le_of_succ_le_succ hnm) h
      · rw [hb] at h
        exact h

/-- A loop that goes round ends as it does from its next state. -/
theorem loop_iff_of_round (h : body s = .ok (.inl s')) :
    (∃ fuel r, loop body fuel s = some r ∧ P r) ↔ ∃ fuel r, loop body fuel s' = some r ∧ P r := by
  constructor
  · rintro ⟨fuel, r, hr, hP⟩
    cases fuel with
    | zero => exact nomatch hr
    | succ fuel =>
      rw [loop, h] at hr
      exact ⟨fuel, r, hr, hP⟩
  · rintro ⟨fuel, r, hr, hP⟩
    refine ⟨fuel + 1, r, ?_, hP⟩
    rw [loop, h]
    exact hr

/-- A loop whose body does not go round ends at once. -/
theorem loop_iff_of_exit {r : Except ε α} (h : loop body 1 s = some r) :
    (∃ fuel r, loop body fuel s = some r ∧ P r) ↔ P r := by
  constructor
  · rintro ⟨fuel, r', hr, hP⟩
    cases fuel with
    | zero => exact nomatch hr
    | succ fuel =>
      rw [loop] at h hr
      cases hb : body s with
      | error e =>
        rw [hb] at h hr
        rw [← Option.some.inj h, Option.some.inj hr]
        exact hP
      | ok next =>
        rw [hb] at h hr
        cases next with
        | inl s' => exact nomatch h
        | inr a =>
          rw [← Option.some.inj h, Option.some.inj hr]
          exact hP
  · exact fun hP => ⟨1, r, h, hP⟩

end Outcomes

namespace Returns

variable {body : σ → Except ε (σ ⊕ α)} {s s' : σ} {a : α}

theorem leave (h : body s = .ok (.inr a)) : Returns body s a := ⟨1, by simp [loop, h]⟩

theorem round (h : body s = .ok (.inl s')) (hr : Returns body s' a) : Returns body s a := by
  obtain ⟨fuel, hf⟩ := hr
  exact ⟨fuel + 1, by simp [loop, h, hf]⟩

/-- The first round of a loop that returns does not fail. -/
theorem body_ok (hr : Returns body s a) :
    body s = .ok (.inr a) ∨ ∃ s', body s = .ok (.inl s') ∧ Returns body s' a := by
  obtain ⟨_ | fuel, hf⟩ := hr
  · simp [loop] at hf
  · rw [loop] at hf
    rcases hb : body s with e | s' | b
    · simp [hb] at hf
    · exact .inr ⟨s', rfl, fuel, by simpa [hb] using hf⟩
    · rw [hb] at hf
      exact .inl (by simpa using hf)

/-- A loop returns one result only. -/
theorem unique {b : α} (ha : Returns body s a) (hb : Returns body s b) : a = b := by
  obtain ⟨n, hn⟩ := ha
  induction n generalizing s with
  | zero => simp [loop] at hn
  | succ n ih =>
    rw [loop] at hn
    rcases hs : body s with e | s' | c
    · simp [hs] at hn
    · simp only [hs] at hn
      rcases hb.body_ok with h | ⟨t, h, ht⟩
      · simp [hs] at h
      · obtain rfl : s' = t := by simpa [hs] using h
        exact ih ht hn
    · obtain rfl : c = a := by simpa [hs] using hn
      rcases hb.body_ok with h | ⟨t, h, -⟩
      · simpa [hs] using h
      · simp [hs] at h

/-- What holds at the beginning and is kept by every round holds of the result. -/
theorem invariant (inv : σ → Prop) (post : α → Prop)
    (hround : ∀ s s', inv s → body s = .ok (.inl s') → inv s')
    (hleave : ∀ s a, inv s → body s = .ok (.inr a) → post a) (hr : Returns body s a) (hs : inv s) :
    post a := by
  obtain ⟨fuel, hf⟩ := hr
  induction fuel generalizing s with
  | zero => exact nomatch hf
  | succ fuel ih =>
    rw [loop] at hf
    rcases hb : body s with e | s' | b
    · rw [hb] at hf
      exact nomatch hf
    · rw [hb] at hf
      exact ih (hround s s' hs hb) hf
    · rw [hb] at hf
      obtain rfl := Except.ok.inj (Option.some.inj hf)
      exact hleave s b hs hb

/-- A loop whose rounds keep an invariant, never fail and decrease a measure returns, with a
result for which the postcondition holds. -/
theorem of_measure (body : σ → Except ε (σ ⊕ α)) (inv : σ → Prop) (post : σ → α → Prop) (μ : σ → ℕ)
    (hstep : ∀ s, inv s → (∃ a, body s = .ok (.inr a) ∧ post s a) ∨
      ∃ s', body s = .ok (.inl s') ∧ inv s' ∧ μ s' < μ s ∧ ∀ a, post s' a → post s a)
    {s : σ} (hs : inv s) : ∃ a, Returns body s a ∧ post s a := by
  induction hn : μ s using Nat.strong_induction_on generalizing s with
  | _ n ih =>
    rcases hstep s hs with ⟨a, hb, hp⟩ | ⟨s', hb, hi, hlt, hpost⟩
    · exact ⟨a, leave hb, hp⟩
    · obtain ⟨a, hr, hp⟩ := ih (μ s') (hn ▸ hlt) hi rfl
      exact ⟨a, round hb hr, hpost a hp⟩

/-- The rule for termination alone. -/
theorem exists_of_measure (body : σ → Except ε (σ ⊕ α)) (inv : σ → Prop) (μ : σ → ℕ)
    (hstep : ∀ s, inv s → (∃ a, body s = .ok (.inr a)) ∨
      ∃ s', body s = .ok (.inl s') ∧ inv s' ∧ μ s' < μ s)
    {s : σ} (hs : inv s) : ∃ a, Returns body s a := by
  have hstep' : ∀ s, inv s → (∃ a, body s = .ok (.inr a) ∧ True) ∨
      ∃ s', body s = .ok (.inl s') ∧ inv s' ∧ μ s' < μ s ∧ ∀ _ : α, True → True := by
    intro s hi
    rcases hstep s hi with ⟨a, hb⟩ | ⟨s', hb, hi', hlt⟩
    · exact .inl ⟨a, hb, trivial⟩
    · exact .inr ⟨s', hb, hi', hlt, fun _ _ => trivial⟩
  obtain ⟨a, ha, -⟩ := of_measure body inv (fun _ _ => True) μ hstep' hs
  exact ⟨a, ha⟩

end Returns

end TortoiseSvn.Lib
