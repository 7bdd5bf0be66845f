import Mathlib.Data.List.TakeWhile
import TortoiseSvn.Merge.StripComments

/-!
# Quotation marks in front of a position

`IsInsideString` counts the double quotes and the single quotes in front of a position, and is true when
one of the two numbers is odd. The loop for the single quotes goes on with a search for double quotes.

Main result: `isInsideString_iff`. In front of the position, the function reads the characters up to a
terminator. It tells whether one of the numbers is odd exactly when an odd number of double quotes hides
the mistake, or there is no single quote, or as many single as double quotes follow the first single
quote, up to parity.
-/

namespace TortoiseSvn.Merge

namespace FileText

/-! ### What is counted -/

/-- The number of double quotes is odd, or the number of single quotes. -/
def Quoted (t : Text) : Prop := Odd (t.count 34) ∨ Odd (t.count 39)

/-- The characters in front of a position, up to a terminator. -/
def visible (s : Text) (pos : ℕ) : Text := (s.takeWhile (· ≠ 0)).take pos

/-- The characters behind the first single quote. -/
def behind (t : Text) : Text := (t.dropWhile (· ≠ 39)).tail

/-- The condition under which the numbers of quotes have the parities that the function computes. -/
def Paired (t : Text) : Prop :=
  Odd (t.count 34) ∨ 39 ∉ t ∨ ((behind t).count 39 % 2 = (behind t).count 34 % 2)

instance (t : Text) : Decidable (Quoted t) := inferInstanceAs (Decidable (_ ∨ _))

instance (t : Text) : Decidable (Paired t) := inferInstanceAs (Decidable (_ ∨ _))

/-! ### The loops -/

section Loops

variable (s : Text) (pos : ℕ)

/-- The search passes a character that is neither the one in question nor a terminator. -/
theorem position_succ (i : ℕ) (o : Option ℕ) :
    position i (o.map (· + 1)) = position ((i + 1 : ℕ) : ℤ) o := by
  cases o with
  | none => rfl
  | some k =>
    simp only [Option.map_some, position]
    omega

/-- Nothing is counted from the position on. -/
theorem countLoop_of_le {i : ℕ} (o : Option ℕ) (count : ℕ) (h : pos ≤ i) :
    countLoop s pos (position i o) count = count := by
  rw [countLoop, if_neg]
  rcases le_position i o with hnone | hle
  · omega
  · omega

/-- The characters between two positions, up to a terminator. -/
def between (i : ℕ) : Text := ((s.drop i).takeWhile (· ≠ 0)).take (pos - i)

variable {s pos}

theorem drop_succ_of_cons {i : ℕ} {c : UInt16} {rest : Text} (h : s.drop i = c :: rest) :
    s.drop (i + 1) = rest := by
  rw [← List.drop_drop, h, List.drop_one, List.tail_cons]

theorem between_of_le {i : ℕ} (h : pos ≤ i) : between s pos i = [] := by
  rw [between, Nat.sub_eq_zero_of_le h, List.take_zero]

theorem between_of_nil {i : ℕ} (h : s.drop i = []) : between s pos i = [] := by
  rw [between, h, List.takeWhile_nil, List.take_nil]

theorem between_of_nul {i : ℕ} {rest : Text} (h : s.drop i = 0 :: rest) : between s pos i = [] := by
  rw [between, h, List.takeWhile_cons_of_neg (by simp), List.take_nil]

theorem between_of_cons {i : ℕ} {c : UInt16} {rest : Text} (h : s.drop i = c :: rest) (hc : c ≠ 0)
    (hi : i < pos) : between s pos i = c :: between s pos (i + 1) := by
  rw [between, h, List.takeWhile_cons_of_pos (by simpa using hc),
    show pos - i = (pos - (i + 1)) + 1 by omega, List.take_succ_cons, between, drop_succ_of_cons h]

variable (s pos)

/-- The first loop counts the double quotes. -/
theorem countLoop_double (i count : ℕ) :
    countLoop s pos (findChar s 34 i) count = count + (between s pos i).count 34 := by
  rw [findChar_natCast]
  -- the induction is on what is left of the line
  induction hl : s.drop i generalizing i count with
  | nil =>
    rw [between_of_nil hl, countLoop, if_neg (by simp [wcschr, position])]
    rfl
  | cons c rest ih =>
    have hrest := drop_succ_of_cons hl
    rcases le_or_gt pos i with hle | hi
    · rw [countLoop_of_le s pos _ count hle, between_of_le hle]
      rfl
    · rw [wcschr]
      split_ifs with hch hnul
      · -- a quotation mark
        subst hch
        rw [between_of_cons hl (by decide) hi, List.count_cons_self, countLoop,
          if_pos (by simp only [position]; omega)]
        have hnext : position i (some 0) + 1 = ((i + 1 : ℕ) : ℤ) := by
          simp only [position]
          omega
        rw [hnext, findChar_natCast, hrest, ih (i + 1) (count + 1) hrest]
        omega
      · subst hnul
        rw [between_of_nul hl, countLoop, if_neg (by simp [position])]
        rfl
      · rw [between_of_cons hl hnul hi, List.count_cons_of_ne hch, position_succ,
          ih (i + 1) count hrest]

/-- The second loop counts the first single quote, and the double quotes behind it. -/
theorem countLoop_single (i : ℕ) : countLoop s pos (findChar s 39 i) 0 =
    if 39 ∈ between s pos i then 1 + (behind (between s pos i)).count 34 else 0 := by
  rw [findChar_natCast]
  induction hl : s.drop i generalizing i with
  | nil =>
    rw [between_of_nil hl, countLoop, if_neg (by simp [wcschr, position])]
    rfl
  | cons c rest ih =>
    have hrest := drop_succ_of_cons hl
    rcases le_or_gt pos i with hle | hi
    · rw [countLoop_of_le s pos _ 0 hle, between_of_le hle]
      rfl
    · rw [wcschr]
      by_cases hch : c = 39
      · -- the first single quote
        subst hch
        rw [if_pos rfl, between_of_cons hl (by decide) hi, if_pos List.mem_cons_self, countLoop,
          if_pos (by simp only [position]; omega)]
        have hnext : position i (some 0) + 1 = ((i + 1 : ℕ) : ℤ) := by
          simp only [position]
          omega
        rw [hnext, countLoop_double]
        rfl
      · rw [if_neg hch]
        by_cases hnul : c = 0
        · rw [if_pos hnul, countLoop, if_neg (by simp [position])]
          subst hnul
          rw [between_of_nul hl]
          rfl
        · have hbehind : behind (c :: between s pos (i + 1)) = behind (between s pos (i + 1)) := by
            rw [behind, List.dropWhile_cons_of_pos (by simpa using hch)]
            rfl
          rw [if_neg hnul, between_of_cons hl hnul hi, position_succ, ih (i + 1) hrest, hbehind]
          simp [Ne.symm hch]

end Loops

/-! ### The result -/

/-- What the function computes. -/
theorem isInsideString_eq (s : Text) (pos : ℕ) : IsInsideString s pos = true ↔
    Odd ((visible s pos).count 34) ∨
      39 ∈ visible s pos ∧ Even ((behind (visible s pos)).count 34) := by
  have hvisible : between s pos 0 = visible s pos := rfl
  have hdouble := countLoop_double s pos 0 0
  have hsingle := countLoop_single s pos 0
  rw [hvisible] at hdouble hsingle
  unfold IsInsideString
  rw [Nat.cast_zero] at hdouble hsingle
  rw [hdouble, hsingle, Nat.zero_add, decide_eq_true_iff]
  apply or_congr
  · rw [Nat.odd_iff, Nat.mod_two_ne_zero]
  · by_cases hmem : 39 ∈ visible s pos
    · simp only [hmem, if_true, true_and]
      rw [Nat.even_iff]
      omega
    · simp [hmem]

/-- The first single quote is one of the single quotes. -/
theorem count_behind {t : Text} (h : 39 ∈ t) : t.count 39 = (behind t).count 39 + 1 := by
  induction t with
  | nil => exact absurd h List.not_mem_nil
  | cons c rest ih =>
    by_cases hc : c = 39
    · subst hc
      rw [List.count_cons_self]
      rfl
    · have hrest : 39 ∈ rest := (List.mem_cons.mp h).resolve_left (Ne.symm hc)
      have hbehind : behind (c :: rest) = behind rest := by
        rw [behind, List.dropWhile_cons_of_pos (by simpa using hc)]
        rfl
      rw [List.count_cons_of_ne hc, hbehind]
      exact ih hrest

/-- Of what it sees, the function tells the truth if the quotes are paired. -/
theorem isInsideString_iff_quoted_visible (s : Text) (pos : ℕ) :
    (IsInsideString s pos = true ↔ Quoted (visible s pos)) ↔ Paired (visible s pos) := by
  rw [isInsideString_eq, Quoted, Paired]
  by_cases hodd : Odd ((visible s pos).count 34)
  · simp [hodd]
  · by_cases hmem : 39 ∈ visible s pos
    · rw [count_behind hmem]
      simp only [hodd, hmem, Nat.odd_iff, Nat.even_iff, false_or, true_and, not_true_eq_false]
      omega
    · have hcount : (visible s pos).count 39 = 0 := List.count_eq_zero.mpr hmem
      simp [hodd, hmem, hcount]

/-- **The function tells whether a position lies inside a string** when the terminators in front of it
hide nothing and the quotes are paired, or when the two mistakes cancel each other.
Source: `FileTextLines.cpp` `CFileTextLines::IsInsideString` -/
theorem isInsideString_iff (s : Text) (pos : ℕ) :
    (IsInsideString s pos = true ↔ Quoted (s.take pos)) ↔
      ((Quoted (s.take pos) ↔ Quoted (visible s pos)) ↔ Paired (visible s pos)) := by
  rw [← isInsideString_iff_quoted_visible]
  by_cases hsaid : IsInsideString s pos = true
  · by_cases hquoted : Quoted (s.take pos) <;> simp [hsaid, hquoted]
  · by_cases hquoted : Quoted (s.take pos) <;> simp [hsaid, hquoted]

/-- Two single quotes in front of a position count as one. -/
theorem isInsideString_two_single :
    ¬ ∀ (s : Text) (pos : ℕ), IsInsideString s pos = true ↔ Quoted (s.take pos) := by
  intro h
  have hquoted := (h [39, 97, 39] 3).mp ((isInsideString_eq _ _).mpr (by decide))
  exact absurd hquoted (by decide)

/-- A line without a terminator is seen as far as the position. -/
theorem visible_of_not_mem {s : Text} (pos : ℕ) (h : 0 ∉ s) : visible s pos = s.take pos := by
  have hall : ∀ c ∈ s, decide (c ≠ 0) = true := by
    intro c hc
    simpa using ne_of_mem_of_not_mem hc h
  rw [visible, List.takeWhile_eq_self_iff.mpr hall]

/-- In a line without a terminator only the quotes matter. -/
theorem isInsideString_iff_paired {s : Text} (pos : ℕ) (h : 0 ∉ s) :
    (IsInsideString s pos = true ↔ Quoted (s.take pos)) ↔ Paired (s.take pos) := by
  rw [← visible_of_not_mem pos h]
  exact isInsideString_iff_quoted_visible s pos

/-- A double quote behind a single quote is counted twice. -/
example : IsInsideString [39, 34, 39, 34] 4 = true ∧ ¬ Quoted [39, 34, 39, 34] := by
  constructor
  · exact (isInsideString_eq _ 4).mpr (by decide)
  · decide

end FileText

end TortoiseSvn.Merge
