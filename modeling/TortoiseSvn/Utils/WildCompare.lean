import Mathlib.Data.List.GetD
import Mathlib.Data.UInt
import TortoiseSvn.Lib.Glob
import TortoiseSvn.Lib.Loop

/-!
# Comparing a string with a wildcard pattern

`strwildcmp` and `wcswildcmp` are one function for two types of characters. The first loop compares up to
the first asterisk. The second one remembers the place behind the last asterisk, and where in the string
to go on from after a mismatch; both pointers are NULL until there was an asterisk. The third loop skips
the asterisks at the end of the pattern.

Main result: `wildcmp_spec`. The function ends, and tells whether the string matches.
-/

namespace TortoiseSvn.StringUtils

open Lib

/-- A string in front of its terminator. -/
structure CStr (α : Type) [Zero α] where
  chars : List α
  noNul : 0 ∉ chars

/-- The two characters with a meaning. -/
structure Wildcards (α : Type) [Zero α] where
  star : α
  question : α
  star_ne_zero : star ≠ 0
  question_ne_zero : question ≠ 0
  question_ne_star : question ≠ star

/-- What must not happen. -/
inductive Fault
  | nullPointer
  | outOfRange
  deriving DecidableEq, Repr

variable {α : Type} [Zero α]

/-- Read a character, or the terminator behind the last one. -/
def peek (s : List α) (i : ℕ) : Except Fault α :=
  if i < s.length then .ok (s.getD i 0)
  else if i = s.length then .ok 0
  else .error .outOfRange

/-- A loop, and its variables: the places in the two strings, and the two pointers for the way back. -/
inductive Place
  | compare (wild string : ℕ)
  | scan (wild string : ℕ) (mp cp : Option ℕ)
  | trail (wild : ℕ)
  deriving DecidableEq, Repr

section Code

variable [DecidableEq α] (w : Wildcards α) (wild string : List α)

/-- Source: `StringUtils.cpp` `strwildcmp`, the first loop -/
def compareRound (i j : ℕ) : Except Fault (Place ⊕ Bool) := do
  let c ← peek string j
  if c = 0 then .ok (.inl (.scan i j none none))
  else do
    let p ← peek wild i
    if p = w.star then .ok (.inl (.scan i j none none))
    else if p ≠ c ∧ p ≠ w.question then .ok (.inr false)
    else .ok (.inl (.compare (i + 1) (j + 1)))

/-- `wild = mp; string = cp++;`.
Source: `StringUtils.cpp` `strwildcmp`, the second loop -/
def goBack : Option ℕ → Option ℕ → Except Fault (Place ⊕ Bool)
  | some mp, some cp => .ok (.inl (.scan mp cp (some mp) (some (cp + 1))))
  | _, _ => .error .nullPointer

/-- Source: `StringUtils.cpp` `strwildcmp`, the second loop -/
def scanRound (i j : ℕ) (mp cp : Option ℕ) : Except Fault (Place ⊕ Bool) := do
  let c ← peek string j
  if c = 0 then .ok (.inl (.trail i))
  else do
    let p ← peek wild i
    if p = w.star then do
      let next ← peek wild (i + 1)
      if next = 0 then .ok (.inr true)
      else .ok (.inl (.scan (i + 1) j (some (i + 1)) (some (j + 1))))
    else if p = c ∨ p = w.question then .ok (.inl (.scan (i + 1) (j + 1) mp cp))
    else goBack mp cp

/-- Source: `StringUtils.cpp` `strwildcmp`, the third loop -/
def trailRound (i : ℕ) : Except Fault (Place ⊕ Bool) := do
  let p ← peek wild i
  if p = w.star then .ok (.inl (.trail (i + 1))) else .ok (.inr (decide (p = 0)))

/-- The three loops, for any type of characters.
Source: `StringUtils.cpp` `strwildcmp` -/
def wildcmp : Place → Except Fault (Place ⊕ Bool)
  | .compare i j => compareRound w wild string i j
  | .scan i j mp cp => scanRound w wild string i j mp cp
  | .trail i => trailRound w wild i

end Code

/-- The characters of type `char`. -/
def narrow : Wildcards UInt8 where
  star := 42
  question := 63
  star_ne_zero := by decide
  question_ne_zero := by decide
  question_ne_star := by decide

/-- The characters of type `wchar_t`. -/
def wide : Wildcards UInt16 where
  star := 42
  question := 63
  star_ne_zero := by decide
  question_ne_zero := by decide
  question_ne_star := by decide

/-- Source: `StringUtils.cpp` `strwildcmp` -/
def strwildcmp (wild string : CStr UInt8) : Place → Except Fault (Place ⊕ Bool) :=
  wildcmp narrow wild.chars string.chars

/-- Source: `StringUtils.cpp` `wcswildcmp` -/
def wcswildcmp (wild string : CStr UInt16) : Place → Except Fault (Place ⊕ Bool) :=
  wildcmp wide wild.chars string.chars

/-! ### What is read -/

/-- What a character of the pattern stands for. -/
def Wildcards.symbol [DecidableEq α] (w : Wildcards α) (c : α) : Symbol α :=
  if c = w.star then .many else if c = w.question then .one else .char c

/-- The meaning of a pattern. -/
def Wildcards.pattern [DecidableEq α] (w : Wildcards α) (wild : List α) : List (Symbol α) :=
  wild.map w.symbol

section Reading

variable {s rest : List α} {i : ℕ} {c : α}

theorem peek_of_cons (h : s.drop i = c :: rest) : peek s i = .ok c := by
  have hlt : i < s.length := by
    by_contra hle
    rw [List.drop_of_length_le (by omega)] at h
    exact nomatch h
  have hget : s.getD i 0 = c := by
    rw [List.drop_eq_getElem_cons hlt] at h
    rw [List.getD_eq_getElem _ _ hlt]
    exact (List.cons.inj h).1
  rw [peek, if_pos hlt, hget]

theorem peek_of_nil (h : s.drop i = []) (hi : i ≤ s.length) : peek s i = .ok 0 := by
  have hlen := List.drop_eq_nil_iff.mp h
  rw [peek, if_neg (by omega), if_pos (by omega)]

omit [Zero α] in
theorem drop_succ_of_cons (h : s.drop i = c :: rest) : s.drop (i + 1) = rest ∧ i + 1 ≤ s.length := by
  constructor
  · rw [← List.drop_drop, h, List.drop_one, List.tail_cons]
  · by_contra hle
    rw [List.drop_of_length_le (by omega)] at h
    exact nomatch h

theorem ne_zero_of_cons (hs : 0 ∉ s) (h : s.drop i = c :: rest) : c ≠ 0 := by
  rintro rfl
  exact hs (List.mem_of_mem_drop (h ▸ List.mem_cons_self))

end Reading

/-! ### The invariant -/

section Invariant

variable [DecidableEq α] {w : Wildcards α} {wild string : List α}

/-- The pointers for the way back are both NULL, and there is an asterisk or nothing left to compare. Or
they are the ends of a part that matched: there is no asterisk in it, and it began one character
before `cp`. -/
def Tracks (w : Wildcards α) (wild string : List α) (i j : ℕ) : Option ℕ → Option ℕ → Prop
  | none, none => string.drop j = [] ∨ ∃ rest, wild.drop i = w.star :: rest
  | some m, some k => m ≤ wild.length ∧ ∃ block, .many ∉ block ∧
      w.pattern (wild.drop m) = block ++ w.pattern (wild.drop i) ∧ k + block.length = j + 1
  | _, _ => False

/-- What holds in front of every round. -/
def Runs (w : Wildcards α) (wild string : List α) : Place → Prop
  | .compare i j => i ≤ wild.length ∧ j ≤ string.length
  | .scan i j mp cp => i ≤ wild.length ∧ j ≤ string.length ∧ Tracks w wild string i j mp cp
  | .trail i => i ≤ wild.length

/-- A match that the loops will still find: here, or from the place for the way back. -/
def Accepts (w : Wildcards α) (wild string : List α) : Place → Prop
  | .compare i j => Matches (w.pattern (wild.drop i)) (string.drop j)
  | .scan i j (some m) (some k) => Matches (w.pattern (wild.drop i)) (string.drop j) ∨
      Matches (.many :: w.pattern (wild.drop m)) (string.drop k)
  | .scan i j _ _ => Matches (w.pattern (wild.drop i)) (string.drop j)
  | .trail i => Matches (w.pattern (wild.drop i)) []

/-- The place for the way back only moves on; while it stays, the pattern is consumed. -/
def remaining (wild string : List α) : Place → ℕ
  | .compare i _ => (string.length + 2) * (wild.length + 2) + (wild.length - i)
  | .scan i _ _ cp => (string.length + 1 - cp.getD 0) * (wild.length + 2) + (wild.length - i) + 1
  | .trail i => wild.length - i

/-- The loops are left with the answer, or a round goes on with the same answer and less to do. -/
def Advances (w : Wildcards α) (wild string : List α) (s : Place) : Prop :=
  (∃ r, wildcmp w wild string s = .ok (.inr r) ∧ (r = true ↔ Accepts w wild string s)) ∨
    ∃ s', wildcmp w wild string s = .ok (.inl s') ∧ Runs w wild string s' ∧
      remaining wild string s' < remaining wild string s ∧
      (Accepts w wild string s' ↔ Accepts w wild string s)

@[simp] theorem pattern_nil : w.pattern [] = [] := rfl

@[simp] theorem pattern_cons (c : α) (rest : List α) :
    w.pattern (c :: rest) = w.symbol c :: w.pattern rest := rfl

theorem symbol_star : w.symbol w.star = .many := if_pos rfl

theorem symbol_ne_many {c : α} (h : c ≠ w.star) : w.symbol c ≠ .many := by
  rw [Wildcards.symbol, if_neg h]
  split_ifs <;> exact nofun

/-- A symbol takes a character when the code goes on. -/
theorem symbol_takes {p c : α} (h : p ≠ w.star) :
    (w.symbol p).Takes c ↔ p = c ∨ p = w.question := by
  rw [Wildcards.symbol, if_neg h]
  split_ifs with hquestion
  · simp [Symbol.Takes, hquestion]
  · simp [Symbol.Takes, hquestion]

theorem advances_compare {i j : ℕ} (hstring : 0 ∉ string)
    (h : Runs w wild string (.compare i j)) : Advances w wild string (.compare i j) := by
  obtain ⟨hi, hj⟩ := h
  have hless : remaining wild string (.scan i j none none) <
      remaining wild string (.compare i j) := by
    have hmul : (string.length + 2) * (wild.length + 2) =
        (string.length + 1) * (wild.length + 2) + (wild.length + 2) := by ring
    simp only [remaining, Option.getD_none, Nat.sub_zero]
    omega
  cases hs : string.drop j with
  | nil =>
    refine Or.inr ⟨.scan i j none none, ?_, ⟨hi, hj, Or.inl hs⟩, hless, Iff.rfl⟩
    simp [wildcmp, compareRound, peek_of_nil hs hj, bind, Except.bind]
  | cons c s =>
    have hc := ne_zero_of_cons hstring hs
    obtain ⟨hs', hj'⟩ := drop_succ_of_cons hs
    cases hp : wild.drop i with
    | nil =>
      -- the pattern is at its end, the string is not
      refine Or.inl ⟨false, ?_, ?_⟩
      · simp [wildcmp, compareRound, peek_of_cons hs, peek_of_nil hp hi, bind, Except.bind, hc,
          Ne.symm hc, w.star_ne_zero.symm, w.question_ne_zero.symm]
      · simp [Accepts, hs, hp]
    | cons p patt =>
      obtain ⟨hp', hi'⟩ := drop_succ_of_cons hp
      by_cases hstar : p = w.star
      · subst hstar
        refine Or.inr ⟨.scan i j none none, ?_, ⟨hi, hj, Or.inr ⟨patt, hp⟩⟩, hless, Iff.rfl⟩
        simp [wildcmp, compareRound, peek_of_cons hs, peek_of_cons hp, bind, Except.bind]
      · have hcase : Matches (w.pattern (p :: patt)) (c :: s) ↔
            (p = c ∨ p = w.question) ∧ Matches (w.pattern patt) s := by
          rw [pattern_cons, matches_cons_cons_iff (symbol_ne_many hstar), symbol_takes hstar]
        by_cases htakes : p = c ∨ p = w.question
        · refine Or.inr ⟨.compare (i + 1) (j + 1), ?_, ⟨hi', hj'⟩, ?_, ?_⟩
          · simp [wildcmp, compareRound, peek_of_cons hs, peek_of_cons hp, bind, Except.bind, hc,
              hstar, htakes, ← not_or]
          · simp only [remaining]
            omega
          · simp only [Accepts, hs, hp, hs', hp', hcase, htakes, true_and]
        · refine Or.inl ⟨false, ?_, ?_⟩
          · simp [wildcmp, compareRound, peek_of_cons hs, peek_of_cons hp, bind, Except.bind, hc,
              hstar, htakes, ← not_or]
          · simp only [Accepts, hs, hp, hcase, htakes, false_and, Bool.false_eq_true]

/-- At the end of the string the way back is of no use: too few characters are left. -/
theorem Tracks.accepts_end {i j : ℕ} {mp cp : Option ℕ} (h : Tracks w wild string i j mp cp)
    (hj : string.length ≤ j) : Accepts w wild string (.scan i j mp cp) ↔
      Matches (w.pattern (wild.drop i)) [] := by
  have hs : string.drop j = [] := List.drop_of_length_le hj
  match mp, cp, h with
  | none, none, _ => simp only [Accepts, hs]
  | some m, some k, ⟨_, block, hblock, hpatt, hk⟩ =>
    simp only [Accepts, hs]
    apply or_iff_left_of_imp
    rintro ⟨n, hn⟩
    rw [hpatt] at hn
    have hlen : string.length ≤ k + (n + block.length) := by omega
    have hrest := (hn.drop_block hblock).2
    rwa [List.drop_drop, List.drop_drop, List.drop_of_length_le hlen] at hrest

/-- In front of an asterisk the way back is of no use: what it finds is found from here, too. -/
theorem Tracks.accepts_star {i j : ℕ} {mp cp : Option ℕ} {patt : List α}
    (h : Tracks w wild string i j mp cp) (hp : wild.drop i = w.star :: patt) :
    Accepts w wild string (.scan i j mp cp) ↔
      Matches (.many :: w.pattern patt) (string.drop j) := by
  match mp, cp, h with
  | none, none, _ => simp only [Accepts, hp, pattern_cons, symbol_star]
  | some m, some k, ⟨_, block, hblock, hpatt, hk⟩ =>
    simp only [Accepts, hpatt, hp, pattern_cons, symbol_star]
    apply or_iff_left_of_imp
    rintro ⟨n, hn⟩
    rw [List.drop_drop] at hn
    exact hn.of_block hblock (by omega)

/-- A character that is taken is added to the part that matches. -/
theorem Tracks.accepts_taken {i j : ℕ} {mp cp : Option ℕ} {p c : α} {patt s : List α}
    (h : Tracks w wild string i j mp cp) (hp : wild.drop i = p :: patt)
    (hs : string.drop j = c :: s) (hstar : p ≠ w.star) (htakes : p = c ∨ p = w.question) :
    Tracks w wild string (i + 1) (j + 1) mp cp ∧
      (Accepts w wild string (.scan (i + 1) (j + 1) mp cp) ↔
        Accepts w wild string (.scan i j mp cp)) := by
  have hcase : Matches (w.pattern (wild.drop i)) (string.drop j) ↔
      Matches (w.pattern (wild.drop (i + 1))) (string.drop (j + 1)) := by
    rw [hp, hs, (drop_succ_of_cons hp).1, (drop_succ_of_cons hs).1, pattern_cons,
      matches_cons_cons_iff (symbol_ne_many hstar), symbol_takes hstar, and_iff_right htakes]
  match mp, cp, h with
  | none, none, h =>
    rcases h with hnil | ⟨rest, hrest⟩
    · rw [hs] at hnil
      exact nomatch hnil
    · rw [hp] at hrest
      exact absurd (List.cons.inj hrest).1 hstar
  | some m, some k, ⟨hm, block, hblock, hpatt, hk⟩ =>
    refine ⟨⟨hm, block ++ [w.symbol p], ?_, ?_, ?_⟩, ?_⟩
    · have hne := Ne.symm (symbol_ne_many hstar)
      simp [hblock, hne]
    · rw [hpatt, hp, (drop_succ_of_cons hp).1, pattern_cons, List.append_assoc, List.cons_append,
        List.nil_append]
    · rw [List.length_append, List.length_singleton]
      omega
    · simp only [Accepts, hcase]

theorem Tracks.cp_le {i j : ℕ} {mp cp : Option ℕ} (h : Tracks w wild string i j mp cp) :
    cp.getD 0 ≤ j + 1 := by
  match mp, cp, h with
  | none, none, _ => exact Nat.zero_le _
  | some m, some k, ⟨_, block, _, _, hk⟩ =>
    rw [Option.getD_some]
    omega

/-- After a mismatch the part that matched is tried one character further on. -/
theorem advances_back {i j : ℕ} {mp cp : Option ℕ} (h : Tracks w wild string i j mp cp)
    (hj : j < string.length) (hround : wildcmp w wild string (.scan i j mp cp) = goBack mp cp)
    (hstar : ∀ rest, wild.drop i ≠ w.star :: rest)
    (hno : ¬ Matches (w.pattern (wild.drop i)) (string.drop j)) :
    Advances w wild string (.scan i j mp cp) := by
  match mp, cp, h with
  | none, none, h =>
    rcases h with hnil | ⟨rest, hrest⟩
    · have hlen := List.drop_eq_nil_iff.mp hnil
      omega
    · exact absurd hrest (hstar rest)
  | some m, some k, ⟨hm, block, hblock, hpatt, hk⟩ =>
    have htail : (string.drop k).tail = string.drop (k + 1) := List.tail_drop
    refine Or.inr ⟨.scan m k (some m) (some (k + 1)), hround, ⟨hm, by omega, ?_⟩, ?_, ?_⟩
    · exact ⟨hm, [], List.not_mem_nil, rfl, rfl⟩
    · have hmul : (string.length + 1 - k) * (wild.length + 2) =
          (string.length + 1 - (k + 1)) * (wild.length + 2) + (wild.length + 2) := by
        rw [← Nat.succ_mul]
        congr 1
        omega
      simp only [remaining, Option.getD_some]
      omega
    · simp only [Accepts]
      rw [or_iff_right hno, matches_many_iff_tail (s := string.drop k), htail]

theorem advances_scan {i j : ℕ} {mp cp : Option ℕ} (hwild : 0 ∉ wild) (hstring : 0 ∉ string)
    (h : Runs w wild string (.scan i j mp cp)) : Advances w wild string (.scan i j mp cp) := by
  obtain ⟨hi, hj, htracks⟩ := h
  cases hs : string.drop j with
  | nil =>
    have hlen := List.drop_eq_nil_iff.mp hs
    refine Or.inr ⟨.trail i, ?_, hi, ?_, (htracks.accepts_end hlen).symm⟩
    · simp [wildcmp, scanRound, peek_of_nil hs hj, bind, Except.bind]
    · simp only [remaining]
      omega
  | cons c s =>
    have hc := ne_zero_of_cons hstring hs
    obtain ⟨hs', hj'⟩ := drop_succ_of_cons hs
    cases hp : wild.drop i with
    | nil =>
      apply advances_back htracks (by omega)
      · simp [wildcmp, scanRound, peek_of_cons hs, peek_of_nil hp hi, bind, Except.bind, hc,
          Ne.symm hc, w.star_ne_zero.symm, w.question_ne_zero.symm]
      · intro rest hrest
        rw [hp] at hrest
        exact nomatch hrest
      · rw [hp, hs]
        exact nofun
    | cons p patt =>
      obtain ⟨hp', hi'⟩ := drop_succ_of_cons hp
      by_cases hstar : p = w.star
      · subst hstar
        have hmany := htracks.accepts_star hp
        cases hnext : patt with
        | nil =>
          refine Or.inl ⟨true, ?_, ?_⟩
          · rw [hnext] at hp'
            simp [wildcmp, scanRound, peek_of_cons hs, peek_of_cons hp, bind, Except.bind, hc,
              peek_of_nil hp' hi']
          · rw [hmany, hnext]
            exact iff_of_true rfl (matches_many_self _)
        | cons q rest =>
          rw [hnext] at hp' hmany
          have hq := ne_zero_of_cons hwild hp'
          have htail : (string.drop j).tail = string.drop (j + 1) := List.tail_drop
          refine Or.inr ⟨.scan (i + 1) j (some (i + 1)) (some (j + 1)), ?_, ⟨hi', hj, ?_⟩, ?_, ?_⟩
          · simp [wildcmp, scanRound, peek_of_cons hs, peek_of_cons hp, bind, Except.bind, hc,
              peek_of_cons hp', hq]
          · exact ⟨hi', [], List.not_mem_nil, rfl, rfl⟩
          · have hmono := Nat.mul_le_mul_right (wild.length + 2)
              (Nat.sub_le_sub_left htracks.cp_le (string.length + 1))
            simp only [remaining, Option.getD_some]
            omega
          · rw [hmany, matches_many_iff_tail, htail]
            simp only [Accepts, hp']
      · by_cases htakes : p = c ∨ p = w.question
        · obtain ⟨htracks', haccepts⟩ := htracks.accepts_taken hp hs hstar htakes
          refine Or.inr ⟨.scan (i + 1) (j + 1) mp cp, ?_, ⟨hi', hj', htracks'⟩, ?_, haccepts⟩
          · simp [wildcmp, scanRound, peek_of_cons hs, peek_of_cons hp, bind, Except.bind, hc,
              hstar, htakes]
          · simp only [remaining]
            omega
        · apply advances_back htracks (by omega)
          · simp [wildcmp, scanRound, peek_of_cons hs, peek_of_cons hp, bind, Except.bind, hc,
              hstar, htakes]
          · intro rest hrest
            rw [hp] at hrest
            exact hstar (List.cons.inj hrest).1
          · rw [hp, hs, pattern_cons, matches_cons_cons_iff (symbol_ne_many hstar),
              symbol_takes hstar]
            exact fun h => htakes h.1

theorem advances_trail {i : ℕ} (hwild : 0 ∉ wild) (hi : i ≤ wild.length) :
    Advances w wild string (.trail i) := by
  cases hp : wild.drop i with
  | nil =>
    refine Or.inl ⟨true, ?_, ?_⟩
    · simp [wildcmp, trailRound, peek_of_nil hp hi, bind, Except.bind, w.star_ne_zero.symm]
    · simp [Accepts, hp]
  | cons p patt =>
    obtain ⟨hp', hi'⟩ := drop_succ_of_cons hp
    by_cases hstar : p = w.star
    · subst hstar
      refine Or.inr ⟨.trail (i + 1), ?_, hi', ?_, ?_⟩
      · simp [wildcmp, trailRound, peek_of_cons hp, bind, Except.bind]
      · simp only [remaining]
        omega
      · simp [Accepts, hp, hp', symbol_star]
    · refine Or.inl ⟨false, ?_, ?_⟩
      · simp [wildcmp, trailRound, peek_of_cons hp, bind, Except.bind, hstar,
          ne_zero_of_cons hwild hp]
      · simp [Accepts, hp, not_matches_cons_nil (symbol_ne_many hstar)]

theorem advances (hwild : 0 ∉ wild) (hstring : 0 ∉ string) {s : Place}
    (h : Runs w wild string s) : Advances w wild string s := by
  cases s with
  | compare i j => exact advances_compare hstring h
  | scan i j mp cp => exact advances_scan hwild hstring h
  | trail i => exact advances_trail hwild h

end Invariant

/-! ### The result -/

/-- The loops end without a failure, and tell whether the string matches the pattern. -/
theorem wildcmp_spec [DecidableEq α] (w : Wildcards α) (wild string : CStr α) :
    ∃ r, Returns (wildcmp w wild.chars string.chars) (.compare 0 0) r ∧
      (r = true ↔ Matches (w.pattern wild.chars) string.chars) := by
  apply Returns.of_measure _ (Runs w wild.chars string.chars)
    (fun s r => r = true ↔ Accepts w wild.chars string.chars s) (remaining wild.chars string.chars)
  · intro s hs
    rcases advances wild.noNul string.noNul hs with hleave | ⟨s', hround, hruns, hless, haccepts⟩
    · exact Or.inl hleave
    · exact Or.inr ⟨s', hround, hruns, hless, fun r hr => hr.trans haccepts⟩
  · exact ⟨Nat.zero_le _, Nat.zero_le _⟩

/-- **Wildcard matching** for both types of characters: the functions end, never follow a NULL pointer
or leave the strings, and tell whether the string as a whole matches the pattern.
Source: `StringUtils.cpp` `strwildcmp`, `wcswildcmp` -/
theorem strwildcmp_wcswildcmp_spec :
    (∀ wild string : CStr UInt8, ∃ r, Returns (strwildcmp wild string) (.compare 0 0) r ∧
      (r = true ↔ Matches (narrow.pattern wild.chars) string.chars)) ∧
    ∀ wild string : CStr UInt16, ∃ r, Returns (wcswildcmp wild string) (.compare 0 0) r ∧
      (r = true ↔ Matches (wide.pattern wild.chars) string.chars) :=
  ⟨wildcmp_spec narrow, wildcmp_spec wide⟩

/-- `a*b*c` and `abbc`: the second asterisk is the one that is gone back to. -/
example : loop (wildcmp narrow [97, 42, 98, 42, 99] [97, 98, 98, 99]) 20 (.compare 0 0) =
    some (.ok true) := by
  decide

end TortoiseSvn.StringUtils
