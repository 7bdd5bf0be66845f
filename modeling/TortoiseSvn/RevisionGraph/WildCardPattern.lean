import Mathlib.Data.List.GetD
import Mathlib.Tactic
import TortoiseSvn.Lib.LittleEndian

/-!
# Patterns for trunk, branches and tags

`CWildCardPattern` matches a path element against a pattern with asterisks and question marks. The
pattern is put in lower case and cut off behind an asterisk that another wildcard follows, but only
if there are wildcards at all. `Glob` is what a pattern means.

Main results: `wildCardMatch_iff`, `match_iff_glob`.
-/

namespace TortoiseSvn

open Lib (forall_byte)

namespace CWildCardPattern

/-! ### The code -/

def star : UInt8 := '*'.toUInt8

def question : UInt8 := '?'.toUInt8

def IsUpper (c : UInt8) : Prop := 'A'.toUInt8 ≤ c ∧ c ≤ 'Z'.toUInt8

instance (c : UInt8) : Decidable (IsUpper c) := inferInstanceAs (Decidable (_ ∧ _))

/-- A letter in lower case. -/
def lower (c : UInt8) : UInt8 := if IsUpper c then c + ('a'.toUInt8 - 'A'.toUInt8) else c

/-- Source: `PathClassificator.cpp` `CompareCI` -/
def CompareCI (lhs rhs : UInt8) : Bool :=
  let diffs := lhs ^^^ rhs
  if diffs &&& 0x1f ≠ 0 then false
  else if diffs ≠ 0 then
    let lowLhs := lower lhs
    if lowLhs ≠ rhs then false else true
  else true

/-- Try to find a matching position, before the end of the string.
Source: `PathClassificator.cpp` `CWildCardPattern::WildCardMatch` -/
def matchFrom (wildCardMatch : List UInt8 → Bool) : List UInt8 → Bool
  | [] => false
  | c :: s => if wildCardMatch (c :: s) then true else matchFrom wildCardMatch s

/-- One pattern character is consumed per loop.
Source: `PathClassificator.cpp` `CWildCardPattern::WildCardMatch` -/
def WildCardMatch : List UInt8 → List UInt8 → Bool
  | [], s => decide (s = [])
  | p :: patt, s =>
    if p = star then
      if patt = [] then true else matchFrom (WildCardMatch patt) s
    else if p = question then
      if s = [] then false else WildCardMatch patt s.tail
    else if CompareCI (s.headD 0) p = false then false
    else WildCardMatch patt s.tail

/-- The loop over the characters of the pattern.
Source: `PathClassificator.cpp` `CWildCardPattern::StraightMatch` -/
def straightLoop : List UInt8 → List UInt8 → Bool
  | [], _ => true
  | p :: pattern, s =>
    if CompareCI (s.headD 0) p = false then false else straightLoop pattern s.tail

/-- Cut off what is behind an asterisk that another wildcard follows.
Source: `PathClassificator.cpp` `CWildCardPattern::NormalizePattern` -/
def normalizeLoop (pattern : List UInt8) (i : ℕ) : List UInt8 :=
  if _ : i + 1 < pattern.length then
    if pattern.getD i 0 = star ∧
        (pattern.getD (i + 1) 0 = star ∨ pattern.getD (i + 1) 0 = question) then
      normalizeLoop (pattern.take (i + 1)) i
    else normalizeLoop pattern (i + 1)
  else pattern
termination_by pattern.length - i
decreasing_by
  · rw [List.length_take]
    omega
  · omega

/-- Source: `PathClassificator.cpp` `CWildCardPattern::NormalizePattern` -/
def NormalizePattern (pattern : List UInt8) : List UInt8 := normalizeLoop (pattern.map lower) 0

end CWildCardPattern

open CWildCardPattern

/-- Source: `PathClassificator.h` `CPathClassificator::CWildCardPattern` -/
structure CWildCardPattern where
  pattern : List UInt8
  hasWildCards : Bool

namespace CWildCardPattern

/-- `find_first_of ("?*")` finds something. -/
def hasWildCard (pattern : List UInt8) : Bool :=
  pattern.any fun c => decide (c = question ∨ c = star)

/-- The constructor.
Source: `PathClassificator.cpp` `CWildCardPattern::CWildCardPattern` -/
def ofPattern (pattern : List UInt8) : CWildCardPattern where
  pattern := if hasWildCard pattern then NormalizePattern pattern else pattern
  hasWildCards := hasWildCard pattern

/-- Source: `PathClassificator.cpp` `CWildCardPattern::StraightMatch` -/
def StraightMatch (p : CWildCardPattern) (s : List UInt8) (length : ℕ) : Bool :=
  if p.pattern.length ≠ length then false else straightLoop p.pattern s

/-- Source: `PathClassificator.cpp` `CWildCardPattern::Match` -/
def Match (p : CWildCardPattern) (s : List UInt8) (length : ℕ) : Bool :=
  if p.hasWildCards then WildCardMatch p.pattern s else p.StraightMatch s length

/-! ### What a pattern means -/

/-- A question mark stands for one character, an asterisk for any sequence, every other character
for itself in either case. -/
def Glob : List UInt8 → List UInt8 → Prop
  | [], s => s = []
  | p :: patt, s =>
    if p = star then ∃ a b, s = a ++ b ∧ Glob patt b
    else ∃ c b, s = c :: b ∧ (p = question ∨ lower c = lower p) ∧ Glob patt b

/-- Behind an asterisk that a wildcard follows there are only asterisks. -/
def StarsBehind : List UInt8 → Prop
  | p :: q :: rest =>
    if p = star ∧ (q = star ∨ q = question) then ∀ c ∈ q :: rest, c = star
    else StarsBehind (q :: rest)
  | _ => True

/-- The pattern after it has been cut off. -/
def cut : List UInt8 → List UInt8
  | p :: q :: rest =>
    if p = star ∧ (q = star ∨ q = question) then [star] else p :: cut (q :: rest)
  | l => l

attribute [local simp] matchFrom WildCardMatch straightLoop Glob StarsBehind cut

/-! ### Single characters -/

/-- What holds of all characters, by enumeration. -/
theorem lower_cases : ∀ c, lower (lower c) = lower c ∧ ¬ IsUpper (lower c) ∧
    (lower c = 0 ↔ c = 0) ∧ (lower c = star ↔ c = star) ∧ (lower c = question ↔ c = question) ∧
    CompareCI c (lower c) = true ∧ (IsUpper c → CompareCI (lower c) c = false) :=
  forall_byte (by decide +kernel)

theorem lower_lower (c : UInt8) : lower (lower c) = lower c := (lower_cases c).1

theorem not_isUpper_lower (c : UInt8) : ¬ IsUpper (lower c) := (lower_cases c).2.1

theorem lower_eq_zero (c : UInt8) : lower c = 0 ↔ c = 0 := (lower_cases c).2.2.1

theorem lower_eq_star (c : UInt8) : lower c = star ↔ c = star := (lower_cases c).2.2.2.1

theorem lower_eq_question (c : UInt8) : lower c = question ↔ c = question :=
  (lower_cases c).2.2.2.2.1

theorem compareCI_lower_self (c : UInt8) : CompareCI c (lower c) = true :=
  (lower_cases c).2.2.2.2.2.1

theorem compareCI_upper (c : UInt8) : IsUpper c → CompareCI (lower c) c = false :=
  (lower_cases c).2.2.2.2.2.2

/-- A character of a pattern in lower case is compared without case. -/
theorem compareCI_iff {lhs rhs : UInt8} (h : ¬ IsUpper rhs) :
    CompareCI lhs rhs = true ↔ lower lhs = rhs := by
  constructor
  · intro hcompare
    unfold CompareCI at hcompare
    dsimp only at hcompare
    split_ifs at hcompare with hbits hdiffs hlow
    · exact not_not.mp hlow
    · have heq : lhs = rhs := UInt8.xor_eq_zero_iff.mp (not_not.mp hdiffs)
      rw [heq, lower, if_neg h]
  · rintro rfl
    exact compareCI_lower_self lhs

/-! ### The pattern that is matched -/

theorem normalizeLoop_eq (front rest : List UInt8) :
    normalizeLoop (front ++ rest) front.length = front ++ cut rest := by
  induction rest generalizing front with
  | nil =>
    rw [normalizeLoop, dif_neg (by simp)]
    rfl
  | cons p rest ih =>
    rcases rest with _ | ⟨q, rest⟩
    · rw [normalizeLoop, dif_neg (by simp)]
      rfl
    · have hp : (front ++ p :: q :: rest).getD front.length 0 = p := by
        rw [List.getD_append_right _ _ _ _ le_rfl, Nat.sub_self]
        rfl
      have hq : (front ++ p :: q :: rest).getD (front.length + 1) 0 = q := by
        rw [List.getD_append_right _ _ _ _ (Nat.le_add_right _ 1), Nat.add_sub_cancel_left]
        rfl
      have htake : (front ++ p :: q :: rest).take (front.length + 1) = front ++ [p] := by
        rw [List.take_length_add_append]
        rfl
      rw [normalizeLoop, dif_pos (by simp), hp, hq, htake, cut]
      split_ifs with hcut
      · rw [normalizeLoop, dif_neg (by simp), hcut.1]
      · have hnext := ih (front ++ [p])
        rw [List.length_append, List.append_assoc, List.append_assoc] at hnext
        exact hnext

theorem normalizePattern_eq (pattern : List UInt8) :
    NormalizePattern pattern = cut (pattern.map lower) :=
  normalizeLoop_eq [] _

/-- An asterisk is at the end or before an ordinary character. -/
def Single : List UInt8 → Prop
  | p :: q :: rest => (p = star → q ≠ star ∧ q ≠ question) ∧ Single (q :: rest)
  | _ => True

theorem cut_head (p : UInt8) (rest : List UInt8) : ∃ rest', cut (p :: rest) = p :: rest' := by
  rcases rest with _ | ⟨q, rest⟩
  · exact ⟨[], rfl⟩
  · rw [cut]
    split_ifs with hcut
    · exact ⟨[], by rw [hcut.1]⟩
    · exact ⟨_, rfl⟩

theorem single_cut (l : List UInt8) : Single (cut l) := by
  induction l with
  | nil => trivial
  | cons p rest ih =>
    rcases rest with _ | ⟨q, rest⟩
    · trivial
    · rw [cut]
      split_ifs with hcut
      · trivial
      · obtain ⟨rest', hrest⟩ := cut_head q rest
        rw [hrest] at ih ⊢
        exact ⟨fun hp => not_or.mp fun hq => hcut ⟨hp, hq⟩, ih⟩

theorem Single.tail {p : UInt8} {rest : List UInt8} (h : Single (p :: rest)) : Single rest := by
  rcases rest with _ | ⟨q, rest⟩
  · trivial
  · exact h.2

theorem cut_subset (l : List UInt8) : cut l ⊆ l := by
  induction l with
  | nil => exact fun _ h => h
  | cons p rest ih =>
    rcases rest with _ | ⟨q, rest⟩
    · exact fun _ h => h
    · rw [cut]
      split_ifs with hcut
      · intro c hc
        rw [List.mem_singleton.mp hc, hcut.1]
        exact List.mem_cons_self ..
      · exact List.cons_subset_cons _ ih

/-! ### Matching -/

theorem matchFrom_iff {f : List UInt8 → Bool} {s : List UInt8} :
    matchFrom f s = true ↔ ∃ a b, s = a ++ b ∧ b ≠ [] ∧ f b = true := by
  induction s with
  | nil =>
    refine iff_of_false Bool.false_ne_true ?_
    rintro ⟨a, b, hab, hb, -⟩
    exact hb (List.append_eq_nil_iff.mp hab.symm).2
  | cons c s ih =>
    rw [matchFrom]
    split_ifs with hf
    · exact iff_of_true rfl ⟨[], c :: s, rfl, List.cons_ne_nil _ _, hf⟩
    · rw [ih]
      constructor
      · rintro ⟨a, b, rfl, hb, hf'⟩
        exact ⟨c :: a, b, rfl, hb, hf'⟩
      · rintro ⟨_ | ⟨d, a⟩, b, hab, hb, hf'⟩
        · rw [List.nil_append] at hab
          exact absurd (hab ▸ hf') hf
        · exact ⟨a, b, (List.cons.inj hab).2, hb, hf'⟩

/-- Only a pattern of asterisks matches the empty string. -/
theorem ne_nil_of_glob {p : UInt8} {patt s : List UInt8} (hp : p ≠ star) (h : Glob (p :: patt) s) :
    s ≠ [] := by
  rw [Glob, if_neg hp] at h
  obtain ⟨c, b, rfl, -⟩ := h
  exact List.cons_ne_nil _ _

/-- **A pattern in lower case without runs of wildcards is matched as it is meant.** -/
theorem wildCardMatch_iff {patt s : List UInt8} (hsingle : Single patt)
    (hlower : ∀ c ∈ patt, ¬ IsUpper c) (hzero : 0 ∉ patt) :
    WildCardMatch patt s = true ↔ Glob patt s := by
  induction patt generalizing s with
  | nil => exact decide_eq_true_iff
  | cons p patt ih =>
    have ih' : ∀ s, WildCardMatch patt s = true ↔ Glob patt s := fun s =>
      ih hsingle.tail (fun c hc => hlower c (List.mem_cons_of_mem _ hc))
        fun hz => hzero (List.mem_cons_of_mem _ hz)
    rw [WildCardMatch, Glob]
    by_cases hstar : p = star
    · rw [if_pos hstar, if_pos hstar]
      rcases patt with _ | ⟨q, patt⟩
      · -- an asterisk at the end of a pattern matches everything
        exact iff_of_true (if_pos rfl) ⟨s, [], by simp, rfl⟩
      · rw [if_neg (List.cons_ne_nil _ _), matchFrom_iff]
        constructor
        · rintro ⟨a, b, hab, -, hb⟩
          exact ⟨a, b, hab, (ih' b).mp hb⟩
        · rintro ⟨a, b, hab, hb⟩
          exact ⟨a, b, hab, ne_nil_of_glob (hsingle.1 hstar).1 hb, (ih' b).mpr hb⟩
    · rw [if_neg hstar, if_neg hstar]
      by_cases hquestion : p = question
      · rw [if_pos hquestion]
        rcases s with _ | ⟨c, s⟩
        · rw [if_pos rfl]
          refine iff_of_false Bool.false_ne_true ?_
          rintro ⟨c, b, hcb, -⟩
          exact nomatch hcb
        · rw [if_neg (List.cons_ne_nil _ _), List.tail_cons, ih']
          constructor
          · exact fun h => ⟨c, s, rfl, .inl hquestion, h⟩
          · rintro ⟨d, b, hdb, -, h⟩
            exact (List.cons.inj hdb).2 ▸ h
      · rw [if_neg hquestion]
        have hp := hlower p (List.mem_cons_self ..)
        have hlowerp : lower p = p := if_neg hp
        rcases s with _ | ⟨c, s⟩
        · have hcompare : CompareCI 0 p = false := by
            rw [Bool.eq_false_iff, ne_eq, compareCI_iff hp]
            rintro rfl
            exact hzero (List.mem_cons_self ..)
          rw [List.headD_nil, if_pos hcompare]
          refine iff_of_false Bool.false_ne_true ?_
          rintro ⟨c, b, hcb, -⟩
          exact nomatch hcb
        · rw [List.headD_cons, List.tail_cons]
          constructor
          · intro h
            split_ifs at h with hc
            have hc' := (compareCI_iff hp).mp (Bool.not_eq_false _ ▸ hc)
            exact ⟨c, s, rfl, .inr (hc'.trans hlowerp.symm), (ih' s).mp h⟩
          · rintro ⟨d, b, hdb, hd, h⟩
            obtain ⟨rfl, rfl⟩ := List.cons.inj hdb
            have hc := (compareCI_iff hp).mpr ((hd.resolve_left hquestion).trans hlowerp)
            rw [if_neg (by rw [hc]; exact Bool.noConfusion)]
            exact (ih' _).mpr h

/-! ### What is cut off -/

theorem glob_nil_iff {patt : List UInt8} : (∀ c ∈ patt, c = star) ↔ Glob patt [] := by
  induction patt with
  | nil => exact iff_of_true (fun c hc => absurd hc List.not_mem_nil) rfl
  | cons p patt ih =>
    rw [List.forall_mem_cons, ih, Glob]
    by_cases hp : p = star
    · rw [if_pos hp, and_iff_right hp]
      constructor
      · exact fun h => ⟨[], [], rfl, h⟩
      · rintro ⟨a, b, hab, h⟩
        exact (List.append_eq_nil_iff.mp hab.symm).2 ▸ h
    · rw [if_neg hp]
      refine iff_of_false (fun h => hp h.1) ?_
      rintro ⟨c, b, hcb, -⟩
      exact nomatch hcb

/-- Asterisks match everything. -/
theorem glob_star_cons {patt : List UInt8} (h : ∀ c ∈ patt, c = star) (s : List UInt8) :
    Glob (star :: patt) s := by
  rw [Glob, if_pos rfl]
  exact ⟨s, [], (List.append_nil s).symm, glob_nil_iff.mp h⟩

/-- Nothing is lost when only asterisks are cut off. -/
theorem glob_cut {patt : List UInt8} (h : StarsBehind patt) (s : List UInt8) :
    Glob (cut patt) s ↔ Glob patt s := by
  induction patt generalizing s with
  | nil => rfl
  | cons p rest ih =>
    rcases rest with _ | ⟨q, rest⟩
    · rfl
    · rw [StarsBehind] at h
      rw [cut]
      split_ifs at h ⊢ with hcut
      · rw [hcut.1]
        exact iff_of_true (glob_star_cons (fun c hc => absurd hc List.not_mem_nil) s)
          (glob_star_cons h s)
      · rw [Glob, Glob]
        simp only [ih h]

/-- A shortest string that a pattern matches. -/
def shortest : List UInt8 → List UInt8
  | [] => []
  | p :: patt =>
    if p = star then shortest patt
    else (if p = question then 'a'.toUInt8 else p) :: shortest patt

theorem glob_shortest (patt : List UInt8) : Glob patt (shortest patt) := by
  induction patt with
  | nil => rfl
  | cons p patt ih =>
    rw [Glob, shortest]
    split_ifs with hp hq
    · exact ⟨[], _, rfl, ih⟩
    · exact ⟨_, _, rfl, .inl hq, ih⟩
    · exact ⟨_, _, rfl, .inr rfl, ih⟩

theorem zero_notMem_shortest {patt : List UInt8} (h : 0 ∉ patt) : 0 ∉ shortest patt := by
  induction patt with
  | nil => exact List.not_mem_nil
  | cons p patt ih =>
    obtain ⟨hp, hpatt⟩ := not_or.mp (mt List.mem_cons.mpr h)
    rw [shortest]
    split_ifs with hstar hquestion
    · exact ih hpatt
    · exact fun hmem => (List.mem_cons.mp hmem).elim (by decide) (ih hpatt)
    · exact fun hmem => (List.mem_cons.mp hmem).elim hp (ih hpatt)

theorem length_shortest_le {patt s : List UInt8} (h : Glob patt s) :
    (shortest patt).length ≤ s.length := by
  induction patt generalizing s with
  | nil => exact Nat.zero_le _
  | cons p patt ih =>
    rw [Glob] at h
    rw [shortest]
    by_cases hp : p = star
    · rw [if_pos hp] at h ⊢
      obtain ⟨a, b, rfl, hb⟩ := h
      have := ih hb
      rw [List.length_append]
      omega
    · rw [if_neg hp] at h ⊢
      obtain ⟨c, b, rfl, -, hb⟩ := h
      exact Nat.succ_le_succ (ih hb)

/-- A pattern of which more than asterisks is cut off matches shorter strings afterwards. -/
theorem length_shortest_cut {patt : List UInt8} (h : ¬ StarsBehind patt) :
    (shortest (cut patt)).length < (shortest patt).length := by
  induction patt with
  | nil => exact absurd trivial h
  | cons p rest ih =>
    rcases rest with _ | ⟨q, rest⟩
    · exact absurd trivial h
    · rw [StarsBehind] at h
      rw [cut]
      split_ifs at h ⊢ with hcut
      · rw [hcut.1, shortest, if_pos rfl, shortest, shortest, if_pos rfl]
        by_contra hle
        apply h
        rw [glob_nil_iff]
        have hnil : shortest (q :: rest) = [] :=
          List.eq_nil_of_length_eq_zero (Nat.eq_zero_of_not_pos hle)
        exact hnil ▸ glob_shortest (q :: rest)
      · rw [shortest, shortest]
        by_cases hp : p = star
        · rw [if_pos hp, if_pos hp]
          exact ih h
        · rw [if_neg hp, if_neg hp]
          exact Nat.succ_lt_succ (ih h)

/-! ### Lower case -/

theorem glob_map_lower {patt s : List UInt8} : Glob (patt.map lower) s ↔ Glob patt s := by
  induction patt generalizing s with
  | nil => rfl
  | cons p patt ih =>
    rw [List.map_cons, Glob, Glob]
    simp only [lower_eq_star, lower_eq_question, lower_lower, ih]

theorem starsBehind_map_lower {patt : List UInt8} :
    StarsBehind (patt.map lower) ↔ StarsBehind patt := by
  induction patt with
  | nil => rfl
  | cons p rest ih =>
    rcases rest with _ | ⟨q, rest⟩
    · rfl
    · rw [List.map_cons, List.map_cons, StarsBehind, StarsBehind]
      rw [List.map_cons] at ih
      simp only [lower_eq_star, lower_eq_question, ih, List.forall_mem_cons, List.forall_mem_map]

theorem zero_notMem_map_lower {patt : List UInt8} (h : 0 ∉ patt) : 0 ∉ patt.map lower := by
  intro hmem
  obtain ⟨c, hc, hzero⟩ := List.mem_map.mp hmem
  exact h ((lower_eq_zero c).mp hzero ▸ hc)

/-! ### Patterns without wildcards -/

section Straight

variable {pattern : List UInt8}

/-- Without wildcards a pattern means itself in either case. -/
theorem glob_iff_of_plain (h : ∀ c ∈ pattern, c ≠ question ∧ c ≠ star) {s : List UInt8} :
    Glob pattern s ↔ s.map lower = pattern.map lower := by
  induction pattern generalizing s with
  | nil => exact List.map_eq_nil_iff.symm
  | cons p pattern ih =>
    obtain ⟨hp, hrest⟩ := List.forall_mem_cons.mp h
    rw [Glob, if_neg hp.2]
    constructor
    · rintro ⟨c, b, rfl, hc, hb⟩
      rw [List.map_cons, List.map_cons, hc.resolve_left hp.1, (ih hrest).mp hb]
    · intro heq
      rcases s with _ | ⟨c, s⟩
      · exact nomatch heq
      · obtain ⟨hc, hs⟩ := List.cons.inj heq
        exact ⟨c, s, rfl, .inr hc, (ih hrest).mpr hs⟩

theorem straightLoop_iff (h : ∀ c ∈ pattern, ¬ IsUpper c) {s : List UInt8}
    (hlength : pattern.length = s.length) :
    straightLoop pattern s = true ↔ s.map lower = pattern.map lower := by
  induction pattern generalizing s with
  | nil =>
    rw [List.length_eq_zero_iff.mp hlength.symm]
    exact iff_of_true rfl rfl
  | cons p pattern ih =>
    obtain ⟨hp, hrest⟩ := List.forall_mem_cons.mp h
    rcases s with _ | ⟨c, s⟩
    · exact nomatch hlength
    · have hcompare : CompareCI c p = true ↔ lower c = p := compareCI_iff hp
      have hlowerp : lower p = p := if_neg hp
      rw [straightLoop, List.headD_cons, List.tail_cons, List.map_cons, List.map_cons,
        List.cons.injEq, hlowerp, ← hcompare, ← ih hrest (Nat.succ.inj hlength)]
      cases CompareCI c p with
      | false => simp
      | true => simp

/-- An upper-case letter of the pattern does not match the lower-case letter. -/
theorem straightLoop_upper {c : UInt8} (hc : c ∈ pattern) (hupper : IsUpper c) :
    straightLoop pattern (pattern.map lower) = false := by
  induction pattern with
  | nil => exact absurd hc List.not_mem_nil
  | cons p pattern ih =>
    rw [List.map_cons, straightLoop, List.headD_cons, List.tail_cons]
    rcases List.mem_cons.mp hc with rfl | hc
    · exact if_pos (compareCI_upper c hupper)
    · rw [ih hc, ite_self]

end Straight

/-! ### Matching as a whole -/

/-- With wildcards, there are only asterisks behind an asterisk that a wildcard follows. Without
wildcards, there is no upper-case letter. -/
def MatchedAsMeant (pattern : List UInt8) : Prop :=
  if hasWildCard pattern then StarsBehind pattern else ∀ c ∈ pattern, ¬ IsUpper c

/-- With wildcards, the pattern is matched as far as it is not cut off. -/
theorem match_wild {pattern : List UInt8} (hwild : hasWildCard pattern = true)
    (hzero : 0 ∉ pattern) (s : List UInt8) :
    (ofPattern pattern).Match s s.length = true ↔ Glob (cut (pattern.map lower)) s := by
  have hmatch : (ofPattern pattern).Match s s.length = WildCardMatch (cut (pattern.map lower)) s := by
    rw [Match, ofPattern]
    dsimp only
    rw [if_pos hwild, if_pos hwild, normalizePattern_eq]
  rw [hmatch, wildCardMatch_iff (single_cut _)]
  · intro c hc
    obtain ⟨d, -, rfl⟩ := List.mem_map.mp (cut_subset _ hc)
    exact not_isUpper_lower d
  · exact fun hmem => zero_notMem_map_lower hzero (cut_subset _ hmem)

theorem match_plain {pattern : List UInt8} (hwild : ¬ hasWildCard pattern = true)
    (s : List UInt8) : (ofPattern pattern).Match s s.length = true ↔
      pattern.length = s.length ∧ straightLoop pattern s = true := by
  rw [Match, ofPattern]
  dsimp only
  rw [if_neg hwild, if_neg hwild, StraightMatch]
  by_cases hlength : pattern.length = s.length
  · rw [if_neg (not_not.mpr hlength), and_iff_right hlength]
  · rw [if_pos hlength]
    exact iff_of_false Bool.false_ne_true fun h => hlength h.1

/-- **A pattern matches what it means iff nothing but asterisks is cut off, or, without wildcards,
it is in lower case.** -/
theorem match_iff_glob (pattern : List UInt8) (hzero : 0 ∉ pattern) :
    (∀ s, 0 ∉ s → ((ofPattern pattern).Match s s.length = true ↔ Glob pattern s)) ↔
      MatchedAsMeant pattern := by
  rw [MatchedAsMeant]
  by_cases hwild : hasWildCard pattern = true
  · rw [if_pos hwild]
    simp only [match_wild hwild hzero]
    constructor
    · intro hall
      by_contra hstars
      have hshort := hall (shortest (cut (pattern.map lower))) (zero_notMem_shortest fun hmem =>
        zero_notMem_map_lower hzero (cut_subset _ hmem))
      have hle := length_shortest_le (glob_map_lower.mpr (hshort.mp (glob_shortest _)))
      have hlt := length_shortest_cut (mt starsBehind_map_lower.mp hstars)
      omega
    · intro hstars s _
      rw [glob_cut (starsBehind_map_lower.mpr hstars), glob_map_lower]
  · rw [if_neg hwild]
    have hplain : ∀ c ∈ pattern, c ≠ question ∧ c ≠ star := by
      intro c hc
      rw [← not_or]
      exact fun heq => hwild (List.any_eq_true.mpr ⟨c, hc, decide_eq_true heq⟩)
    simp only [match_plain hwild, glob_iff_of_plain hplain]
    constructor
    · intro hall c hc hupper
      have hlow := hall (pattern.map lower) (zero_notMem_map_lower hzero)
      rw [straightLoop_upper hc hupper] at hlow
      have hsame : (pattern.map lower).map lower = pattern.map lower := by
        rw [List.map_map]
        exact List.map_congr_left fun c _ => lower_lower c
      exact Bool.false_ne_true (hlow.mpr hsame).2
    · intro hlower s _
      constructor
      · rintro ⟨hlength, hloop⟩
        exact (straightLoop_iff hlower hlength).mp hloop
      · intro heq
        have hlength : pattern.length = s.length := by simpa using (congrArg List.length heq).symm
        exact ⟨hlength, (straightLoop_iff hlower hlength).mpr heq⟩

/-- `qa ?.*` -/
theorem match_iff_glob_qa :
    (∀ s, 0 ∉ s → ((ofPattern [113, 97, 32, 63, 46, 42]).Match s s.length = true ↔
      Glob [113, 97, 32, 63, 46, 42] s)) ↔ MatchedAsMeant [113, 97, 32, 63, 46, 42] :=
  match_iff_glob _ (by decide)

/-- The pattern `Trunk` does not match `trunk`. -/
theorem match_trunk : ¬ ∀ pattern, 0 ∉ pattern → ';'.toUInt8 ∉ pattern → ∀ s, 0 ∉ s →
    ((ofPattern pattern).Match s s.length = true ↔ Glob pattern s) := by
  intro hall
  have h := hall [84, 114, 117, 110, 107] (by decide) (by decide) [116, 114, 117, 110, 107]
    (by decide)
  rw [glob_iff_of_plain (by decide +kernel)] at h
  exact absurd (h.mpr (by decide)) (by decide)

end CWildCardPattern

end TortoiseSvn
