import Mathlib.Data.List.Basic

/-!
# What a pattern with wildcards matches

A pattern is a list of symbols: a character, one arbitrary character, or an arbitrary sequence. The
characters between two sequences match a part of fixed length, so of several places where such a part
matches, the first one serves all that follows (`Matches.of_block`). A matcher therefore needs to go back
to its last sequence only.
-/

namespace TortoiseSvn.Lib

variable {α : Type}

/-- A symbol of a pattern. -/
inductive Symbol (α : Type)
  | char (c : α)
  | one
  | many
  deriving DecidableEq, Repr

open Symbol

/-- The whole text matches the pattern. -/
def Matches : List (Symbol α) → List α → Prop
  | [], s => s = []
  | char c :: p, s => ∃ rest, s = c :: rest ∧ Matches p rest
  | one :: p, s => ∃ c rest, s = c :: rest ∧ Matches p rest
  | many :: p, s => ∃ i, Matches p (s.drop i)

attribute [local simp] Matches

/-- A symbol that stands for the character. -/
def Symbol.Takes (c : α) : Symbol α → Prop
  | char d => d = c
  | one => True
  | many => False

variable {x : Symbol α} {p q : List (Symbol α)} {c : α} {s t : List α} {i j : ℕ}

@[simp] theorem matches_nil_iff : Matches [] s ↔ s = [] := Iff.rfl

@[simp] theorem matches_many_iff : Matches (many :: p) s ↔ ∃ i, Matches p (s.drop i) := Iff.rfl

/-- A pattern that begins with a character, or with one arbitrary character. -/
theorem matches_cons_iff (h : x ≠ many) :
    Matches (x :: p) s ↔ ∃ c rest, s = c :: rest ∧ x.Takes c ∧ Matches p rest := by
  cases x with
  | char d =>
    constructor
    · rintro ⟨rest, rfl, hrest⟩
      exact ⟨d, rest, rfl, rfl, hrest⟩
    · rintro ⟨c, rest, rfl, rfl, hrest⟩
      exact ⟨rest, rfl, hrest⟩
  | one =>
    constructor
    · rintro ⟨c, rest, rfl, hrest⟩
      exact ⟨c, rest, rfl, trivial, hrest⟩
    · rintro ⟨c, rest, rfl, -, hrest⟩
      exact ⟨c, rest, rfl, hrest⟩
  | many => exact absurd rfl h

/-- One character against one symbol. -/
theorem matches_cons_cons_iff (h : x ≠ many) :
    Matches (x :: p) (c :: s) ↔ x.Takes c ∧ Matches p s := by
  rw [matches_cons_iff h]
  constructor
  · rintro ⟨d, rest, heq, htakes, hrest⟩
    obtain ⟨rfl, rfl⟩ := List.cons.inj heq
    exact ⟨htakes, hrest⟩
  · rintro ⟨htakes, hrest⟩
    exact ⟨c, s, rfl, htakes, hrest⟩

theorem not_matches_cons_nil (h : x ≠ many) : ¬ Matches (x :: p) [] := by
  rw [matches_cons_iff h]
  rintro ⟨c, rest, heq, -⟩
  exact nomatch heq

/-- A pattern of sequences only, and no other, matches the empty text. -/
theorem matches_empty_iff : Matches p [] ↔ ∀ x ∈ p, x = many := by
  induction p with
  | nil => simp
  | cons x p ih =>
    by_cases hx : x = many
    · subst hx
      simp [ih]
    · simp [not_matches_cons_nil hx, hx]

/-! ### One arbitrary sequence -/

theorem matches_many_self (s : List α) : Matches [many] s := ⟨s.length, by simp⟩

/-- A sequence may begin earlier. -/
theorem Matches.of_drop (h : Matches (many :: p) (s.drop i)) : Matches (many :: p) s := by
  obtain ⟨k, hk⟩ := h
  exact ⟨i + k, by rwa [← List.drop_drop]⟩

/-- A sequence is empty, or takes the first character. -/
theorem matches_many_iff_tail :
    Matches (many :: p) s ↔ Matches p s ∨ Matches (many :: p) s.tail := by
  constructor
  · rintro ⟨_ | i, h⟩
    · exact Or.inl h
    · rw [← List.drop_tail] at h
      exact Or.inr ⟨i, h⟩
  · rintro (h | ⟨i, h⟩)
    · exact ⟨0, h⟩
    · rw [List.drop_tail] at h
      exact ⟨i + 1, h⟩

/-! ### A part of fixed length -/

/-- Symbols that each stand for one character take as many characters as they are. -/
theorem Matches.drop_block (hq : many ∉ q) (h : Matches (q ++ p) s) :
    q.length ≤ s.length ∧ Matches p (s.drop q.length) := by
  induction q generalizing s with
  | nil => exact ⟨Nat.zero_le _, h⟩
  | cons x q ih =>
    rw [List.mem_cons, not_or] at hq
    obtain ⟨hx, hq⟩ := hq
    obtain ⟨c, rest, rfl, -, hrest⟩ := (matches_cons_iff (Ne.symm hx)).mp h
    obtain ⟨hlen, hdrop⟩ := ih hq hrest
    exact ⟨Nat.succ_le_succ hlen, hdrop⟩

/-- **The first place serves**: when the part in front of a sequence matches somewhere, what follows it
matches behind any earlier place. -/
theorem Matches.of_block (hq : many ∉ q) (h : Matches (q ++ many :: p) (s.drop j))
    (hi : i ≤ j + q.length) : Matches (many :: p) (s.drop i) := by
  have hdrop := (h.drop_block hq).2
  rw [List.drop_drop] at hdrop
  obtain ⟨k, hk⟩ := Nat.exists_eq_add_of_le hi
  rw [hk, ← List.drop_drop] at hdrop
  exact hdrop.of_drop

end TortoiseSvn.Lib
