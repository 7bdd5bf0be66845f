import Mathlib.Data.List.DropRight
import Mathlib.Data.List.Lex
import Mathlib.Tactic
import TortoiseSvn.Lib.TextSearch

/-!
# Paths in two spellings

A `CTSVNPath` keeps its text with backslashes, with slashes, or both; a spelling that is missing is
computed from the other one when it is needed. `Compare` ignores the case of letters,
`IsEquivalentTo` does not, and `IsAncestorOf` looks for a separator behind the common text.

Main results: `fastCompareNoCase_neg_iff`, `isAncestorOf_iff`. Both functions work on the text in
lower case.
-/

namespace TortoiseSvn.Svn

open Lib

/-! ### Characters -/

def backslash : UInt16 := 0x5c

def slash : UInt16 := 0x2f

def colon : UInt16 := 0x3a

/-- `towlower` of some locale: the letters of ASCII are put in lower case, the other characters of
ASCII stay, and no other character becomes one of those. -/
structure CaseMap where
  towlower : UInt16 → UInt16
  ascii : ∀ c < 0x80, towlower c = if 0x41 ≤ c ∧ c ≤ 0x5a then c + 0x20 else c
  letter : ∀ c, 0x80 ≤ c → 0x80 ≤ towlower c ∨ 0x61 ≤ towlower c ∧ towlower c ≤ 0x7a

namespace CaseMap

/-- The locale `C`. -/
def minimal : CaseMap where
  towlower c := if 0x41 ≤ c ∧ c ≤ 0x5a then c + 0x20 else c
  ascii _ _ := rfl
  letter c hc := by
    have hupper : ¬ (0x41 ≤ c ∧ c ≤ 0x5a) := fun h =>
      absurd (UInt16.le_trans hc h.2) (by decide)
    rw [if_neg hupper]
    exact .inl hc

/-- A text in lower case, as numbers. -/
def key (m : CaseMap) (s : List UInt16) : List ℕ := s.map fun c => (m.towlower c).toNat

/-- The result of `_wcsicmp`: the difference of the first characters in lower case that differ. -/
def wcsicmp (m : CaseMap) : List UInt16 → List UInt16 → ℤ
  | [], [] => 0
  | [], c :: _ => -(m.towlower c).toNat
  | c :: _, [] => (m.towlower c).toNat
  | a :: lhs, b :: rhs =>
    if m.towlower a = m.towlower b then wcsicmp m lhs rhs
    else (m.towlower a).toNat - (m.towlower b).toNat

/-- Normalize to lower case. -/
def latinLower (c : ℤ) : ℤ := if 0x41 ≤ c ∧ c ≤ 0x5a then c + (0x61 - 0x41) else c

/-- The loop over the characters, where the end of a text is a zero.
Source: `StringUtils.cpp` `CStringUtils::FastCompareNoCase` -/
def compareLoop (m : CaseMap) (lhs rhs : List UInt16) :
    ℕ → List UInt16 → List UInt16 → ℤ
  | 0, _, _ => 0
  | n + 1, left, right =>
    let leftChar : ℤ := (left.headD 0).toNat
    let rightChar : ℤ := (right.headD 0).toNat
    if leftChar - rightChar ≠ 0 then
      if 0x80 ≤ left.headD 0 ||| right.headD 0 then m.wcsicmp lhs rhs
      else
        let diff := latinLower leftChar - latinLower rightChar
        if diff ≠ 0 then diff else compareLoop m lhs rhs n left.tail right.tail
    else compareLoop m lhs rhs n left.tail right.tail

/-- Source: `StringUtils.cpp` `CStringUtils::FastCompareNoCase` -/
def FastCompareNoCase (m : CaseMap) (lhs rhs : List UInt16) : ℤ :=
  m.compareLoop lhs rhs (min lhs.length (rhs.length + 1) + 1) lhs rhs

end CaseMap

/-! ### The paths -/

/-- The two spellings of a path; what else it caches is left out.
Source: `TSVNPath.h` `CTSVNPath` -/
structure CTSVNPath where
  m_sBackslashPath : List UInt16
  m_sFwdslashPath : List UInt16
  deriving DecidableEq

namespace CTSVNPath

/-- `\\?\` -/
def longMark : List UInt16 := [0x5c, 0x5c, 0x3f, 0x5c]

/-- `//?/` -/
def fwdLongMark : List UInt16 := [0x2f, 0x2f, 0x3f, 0x2f]

/-- `file://` -/
def fileScheme : List UInt16 := [0x66, 0x69, 0x6c, 0x65, 0x3a, 0x2f, 0x2f]

/-- `CString::Replace` of a character. -/
def replaceChar (old new : UInt16) (s : List UInt16) : List UInt16 :=
  s.map fun c => if c = old then new else c

/-- Add the trailing slash to root paths such as `C:`.
Source: `TSVNPath.cpp` `CTSVNPath::SanitizeRootPath` -/
def SanitizeRootPath (sPath : List UInt16) (bIsForwardPath : Bool) : List UInt16 :=
  if sPath.length = 2 ∧ sPath[1]? = some colon then
    sPath ++ [if bIsForwardPath then slash else backslash]
  else sPath

/-- The text that is stored. Source: `TSVNPath.cpp` `CTSVNPath::SetFwdslashPath` -/
def SetFwdslashPath (sPath : List UInt16) : List UInt16 :=
  let s := replaceChar backslash slash sPath
  let s := s.rdropWhile (· = slash)
  let s := Text.replace fwdLongMark [] s
  let s := SanitizeRootPath s true
  Text.replace (fileScheme ++ [slash, slash]) fileScheme s

/-- The text that is stored. Source: `TSVNPath.cpp` `CTSVNPath::SetBackslashPath` -/
def SetBackslashPath (sPath : List UInt16) : List UInt16 :=
  let s := replaceChar slash backslash sPath
  let s := s.rdropWhile (· = backslash)
  SanitizeRootPath s false

/-- Source: `TSVNPath.cpp` `CTSVNPath::SetFromSVN` -/
def SetFromSVN (sPath : List UInt16) : CTSVNPath := ⟨[], SanitizeRootPath sPath true⟩

/-- Source: `TSVNPath.cpp` `CTSVNPath::SetFromWin (sPath)` -/
def SetFromWin (sPath : List UInt16) : CTSVNPath :=
  ⟨SanitizeRootPath (Text.replace longMark [] sPath) false, []⟩

/-- Whether the path is a directory is left out.
Source: `TSVNPath.cpp` `CTSVNPath::SetFromWin (sPath, bIsDirectory)` -/
def SetFromWinDirectory (sPath : List UInt16) : CTSVNPath := ⟨SanitizeRootPath sPath false, []⟩

/-- Source: `TSVNPath.cpp` `CTSVNPath::SetFromUnknown` -/
def SetFromUnknown (sPath : List UInt16) : CTSVNPath := ⟨[], SetFwdslashPath sPath⟩

/-- Source: `TSVNPath.cpp` `CTSVNPath::EnsureBackslashPathSet` -/
def EnsureBackslashPathSet (p : CTSVNPath) : CTSVNPath :=
  if p.m_sBackslashPath = [] then
    { p with m_sBackslashPath := SetBackslashPath p.m_sFwdslashPath }
  else p

/-- Source: `TSVNPath.cpp` `CTSVNPath::EnsureFwdslashPathSet` -/
def EnsureFwdslashPathSet (p : CTSVNPath) : CTSVNPath :=
  if p.m_sFwdslashPath = [] then { p with m_sFwdslashPath := SetFwdslashPath p.m_sBackslashPath }
  else p

/-- The text; the path itself changes as in `EnsureBackslashPathSet`.
Source: `TSVNPath.cpp` `CTSVNPath::GetWinPathString` -/
def GetWinPathString (p : CTSVNPath) : List UInt16 := p.EnsureBackslashPathSet.m_sBackslashPath

/-- The text; the path itself changes as in `EnsureFwdslashPathSet`.
Source: `TSVNPath.cpp` `CTSVNPath::GetSVNPathString` -/
def GetSVNPathString (p : CTSVNPath) : List UInt16 := p.EnsureFwdslashPathSet.m_sFwdslashPath

/-- Compare texts of the same length from the end.
Source: `TSVNPath.cpp` `CTSVNPath::ArePathStringsEqual`, `ArePathStringsEqualWithCase`, the loop -/
def equalFromEnd (f : UInt16 → UInt16) : List UInt16 → List UInt16 → Bool
  | a :: sP1, b :: sP2 => if f a ≠ f b then false else equalFromEnd f sP1 sP2
  | _, _ => true

/-- Source: `TSVNPath.cpp` `CTSVNPath::ArePathStringsEqual` -/
def ArePathStringsEqual (m : CaseMap) (sP1 sP2 : List UInt16) : Bool :=
  if sP1.length ≠ sP2.length then false else equalFromEnd m.towlower sP1.reverse sP2.reverse

/-- Source: `TSVNPath.cpp` `CTSVNPath::ArePathStringsEqualWithCase` -/
def ArePathStringsEqualWithCase (sP1 sP2 : List UInt16) : Bool :=
  if sP1.length ≠ sP2.length then false else equalFromEnd id sP1.reverse sP2.reverse

/-- Source: `TSVNPath.cpp` `CTSVNPath::IsEquivalentTo` -/
def IsEquivalentTo (p rhs : CTSVNPath) : Bool :=
  if p.m_sBackslashPath ≠ [] then
    ArePathStringsEqualWithCase p.m_sBackslashPath rhs.EnsureBackslashPathSet.m_sBackslashPath
  else ArePathStringsEqualWithCase p.m_sFwdslashPath rhs.EnsureFwdslashPathSet.m_sFwdslashPath

/-- Source: `TSVNPath.cpp` `CTSVNPath::IsAncestorOf` -/
def IsAncestorOf (m : CaseMap) (p possibleDescendant : CTSVNPath) : Bool :=
  let path := p.EnsureBackslashPathSet.m_sBackslashPath
  let descendant := possibleDescendant.EnsureBackslashPathSet.m_sBackslashPath
  let bPathStringsEqual := ArePathStringsEqual m path (descendant.take path.length)
  if descendant.length ≤ path.length then bPathStringsEqual
  else bPathStringsEqual && (decide (descendant[path.length]? = some backslash) ||
    decide (path.length = 3 ∧ path[1]? = some colon))

/-- Source: `TSVNPath.cpp` `CTSVNPath::Compare` -/
def Compare (m : CaseMap) (left right : CTSVNPath) : ℤ :=
  m.FastCompareNoCase left.EnsureBackslashPathSet.m_sBackslashPath
    right.EnsureBackslashPathSet.m_sBackslashPath

/-- Source: `TSVNPath.cpp` `operator<` -/
def Less (m : CaseMap) (left right : CTSVNPath) : Prop := Compare m left right < 0

instance (m : CaseMap) (left right : CTSVNPath) : Decidable (Less m left right) :=
  inferInstanceAs (Decidable (_ < _))

end CTSVNPath

/-- `std::sort` with `operator<` leaves a permutation in which no path stands before a smaller one.
It compares every path of a list with at least two.
Source: `TSVNPath.cpp` `CTSVNPathList::SortByPathname` -/
def SortByPathname (m : CaseMap) (m_paths sorted : List CTSVNPath) : Prop :=
  sorted.Perm (if m_paths.length < 2 then m_paths
    else m_paths.map CTSVNPath.EnsureBackslashPathSet) ∧
  sorted.Pairwise fun p q => ¬ CTSVNPath.Less m q p

/-! ### The comparison without case -/

namespace CaseMap

variable (m : CaseMap)

theorem towlower_of_latin {c : UInt16} (h : c < 0x80) :
    ((m.towlower c).toNat : ℤ) = latinLower c.toNat := by
  rw [m.ascii c h, latinLower]
  simp only [UInt16.le_iff_toNat_le]
  by_cases hupper : 0x41 ≤ c.toNat ∧ c.toNat ≤ 0x5a
  · rw [if_pos (by simpa using hupper), if_pos (by simpa using hupper), UInt16.toNat_add]
    simp
    omega
  · rw [if_neg (by simpa using hupper), if_neg (by simpa using hupper)]

theorem towlower_eq_of_small {c d : UInt16} (hd : d < 0x80) (hother : ¬ (0x41 ≤ d ∧ d ≤ 0x5a))
    (hlower : ¬ (0x61 ≤ d ∧ d ≤ 0x7a)) : m.towlower c = d ↔ c = d := by
  constructor
  · intro h
    by_cases hc : c < 0x80
    · rw [m.ascii c hc] at h
      split_ifs at h with hupper
      · refine absurd ?_ hlower
        subst h
        have h1 := UInt16.le_iff_toNat_le.mp hupper.1
        have h2 := UInt16.le_iff_toNat_le.mp hupper.2
        simp only [UInt16.le_iff_toNat_le, UInt16.toNat_add]
        simp at h1 h2 ⊢
        omega
      · exact h
    · rcases m.letter c (UInt16.not_lt.mp hc) with hle | hle
      · exact absurd (UInt16.lt_of_lt_of_le (h ▸ hd) hle) (UInt16.lt_irrefl _)
      · exact absurd (h ▸ hle) hlower
  · rintro rfl
    rw [m.ascii c hd, if_neg hother]

theorem towlower_eq_backslash {c : UInt16} : m.towlower c = backslash ↔ c = backslash :=
  m.towlower_eq_of_small (by decide) (by decide) (by decide)

theorem towlower_eq_colon {c : UInt16} : m.towlower c = colon ↔ c = colon :=
  m.towlower_eq_of_small (by decide) (by decide) (by decide)

theorem towlower_eq_zero {c : UInt16} : m.towlower c = 0 ↔ c = 0 :=
  m.towlower_eq_of_small (by decide) (by decide) (by decide)

@[simp] theorem key_nil : m.key [] = [] := rfl

theorem key_cons (c : UInt16) (s : List UInt16) : m.key (c :: s) = (m.towlower c).toNat :: m.key s :=
  rfl

@[simp] theorem length_key (s : List UInt16) : (m.key s).length = s.length := List.length_map _

/-- `_wcsicmp` compares the texts in lower case. -/
theorem wcsicmp_neg_iff {lhs rhs : List UInt16} (hl : 0 ∉ lhs) (hr : 0 ∉ rhs) :
    m.wcsicmp lhs rhs < 0 ↔ m.key lhs < m.key rhs := by
  induction lhs generalizing rhs with
  | nil =>
    cases rhs with
    | nil => exact iff_of_false (lt_irrefl 0) (lt_irrefl _)
    | cons c rhs =>
      have hpos : 0 < (m.towlower c).toNat := by
        rw [Nat.pos_iff_ne_zero, ne_eq, ← UInt16.toNat_zero, UInt16.toNat_inj, m.towlower_eq_zero]
        exact fun h => hr (h ▸ List.mem_cons_self ..)
      rw [wcsicmp, key_cons]
      exact iff_of_true (by omega) (List.nil_lt_cons _ _)
  | cons a lhs ih =>
    cases rhs with
    | nil =>
      rw [wcsicmp]
      exact iff_of_false (by omega) (List.not_lt_nil _)
    | cons b rhs =>
      rw [wcsicmp, key_cons, key_cons, List.cons_lt_cons_iff]
      by_cases hab : m.towlower a = m.towlower b
      · rw [if_pos hab, hab, ih (fun h => hl (List.mem_cons_of_mem _ h))
          fun h => hr (List.mem_cons_of_mem _ h)]
        simp
      · have hne : (m.towlower a).toNat ≠ (m.towlower b).toNat := fun h =>
          hab (UInt16.toNat_inj.mp h)
        rw [if_neg hab]
        omega

theorem latin_of_or {c d : UInt16} (h : ¬ 0x80 ≤ c ||| d) : c < 0x80 ∧ d < 0x80 := by
  rw [UInt16.not_le, UInt16.lt_iff_toNat_lt, UInt16.toNat_or] at h
  exact ⟨UInt16.lt_iff_toNat_lt.mpr (Nat.left_le_or.trans_lt h),
    UInt16.lt_iff_toNat_lt.mpr (Nat.right_le_or.trans_lt h)⟩

theorem towlower_zero : m.towlower 0 = 0 := m.towlower_eq_zero.mpr rfl

/-- One round: characters that are not the same are compared in lower case. -/
theorem compareLoop_succ (lhs rhs : List UInt16) (n : ℕ) {left right : List UInt16} (c d : UInt16)
    (hc : left.headD 0 = c) (hd : right.headD 0 = d) : m.compareLoop lhs rhs (n + 1) left right =
      if c = d then m.compareLoop lhs rhs n left.tail right.tail
      else if 0x80 ≤ c ||| d then m.wcsicmp lhs rhs
      else if m.towlower c = m.towlower d then m.compareLoop lhs rhs n left.tail right.tail
      else (m.towlower c).toNat - (m.towlower d).toNat := by
  subst hc hd
  rw [compareLoop]
  dsimp only
  by_cases hcd : left.headD 0 = right.headD 0
  · rw [if_pos hcd, if_neg (by rw [hcd, sub_self]; exact not_not.mpr rfl)]
  · have hne : (left.headD 0).toNat ≠ (right.headD 0).toNat := fun h => hcd (UInt16.toNat_inj.mp h)
    rw [if_neg hcd, if_pos (by omega)]
    by_cases hlatin : 0x80 ≤ left.headD 0 ||| right.headD 0
    · rw [if_pos hlatin, if_pos hlatin]
    · obtain ⟨hl, hr⟩ := latin_of_or hlatin
      rw [if_neg hlatin, if_neg hlatin, ← m.towlower_of_latin hl, ← m.towlower_of_latin hr]
      by_cases hlow : m.towlower (left.headD 0) = m.towlower (right.headD 0)
      · rw [if_pos hlow, if_neg (by rw [hlow, sub_self]; exact not_not.mpr rfl)]
      · have hne' : (m.towlower (left.headD 0)).toNat ≠ (m.towlower (right.headD 0)).toNat :=
          fun h => hlow (UInt16.toNat_inj.mp h)
        rw [if_neg hlow, if_pos (by omega)]

/-- What is left of the texts decides, as long as what is behind them does not. -/
theorem compareLoop_neg_iff {lhs rhs left right : List UInt16} (hl : 0 ∉ left) (hr : 0 ∉ right)
    (h : m.wcsicmp lhs rhs < 0 ↔ m.key left < m.key right) :
    m.compareLoop lhs rhs (min left.length (right.length + 1) + 1) left right < 0 ↔
      m.key left < m.key right := by
  induction left generalizing right with
  | nil =>
    cases right with
    | nil =>
      rw [m.compareLoop_succ lhs rhs _ 0 0 rfl rfl, if_pos rfl]
      exact iff_of_false (lt_irrefl 0) (lt_irrefl _)
    | cons d right =>
      have hd : d ≠ 0 := fun h0 => hr (h0 ▸ List.mem_cons_self ..)
      have hlow : m.towlower 0 ≠ m.towlower d := by
        rw [m.towlower_zero]
        exact fun h0 => hd (m.towlower_eq_zero.mp h0.symm)
      rw [m.compareLoop_succ lhs rhs _ 0 d rfl rfl, if_neg hd.symm, if_neg hlow, m.towlower_zero]
      split_ifs
      · exact h
      · have hpos : (m.towlower d).toNat ≠ 0 := fun h0 =>
          hd (m.towlower_eq_zero.mp (UInt16.toNat_inj.mp h0))
        have hneg : ((0 : UInt16).toNat : ℤ) - (m.towlower d).toNat < 0 := by
          rw [UInt16.toNat_zero]
          omega
        exact iff_of_true hneg (List.nil_lt_cons _ _)
  | cons c left ih =>
    have hc : c ≠ 0 := fun h0 => hl (h0 ▸ List.mem_cons_self ..)
    cases right with
    | nil =>
      have hlow : m.towlower c ≠ m.towlower 0 := by
        rw [m.towlower_zero]
        exact fun h0 => hc (m.towlower_eq_zero.mp h0)
      rw [m.compareLoop_succ lhs rhs _ c 0 rfl rfl, if_neg hc, if_neg hlow, m.towlower_zero]
      split_ifs
      · exact h
      · have hnonneg : ¬ ((m.towlower c).toNat : ℤ) - (0 : UInt16).toNat < 0 := by
          rw [UInt16.toNat_zero]
          omega
        exact iff_of_false hnonneg (List.not_lt_nil _)
    | cons d right =>
      have hlength : min (c :: left).length ((d :: right).length + 1) =
          min left.length (right.length + 1) + 1 := by
        rw [List.length_cons, List.length_cons]
        omega
      have hrest (heq : m.towlower c = m.towlower d) :
          m.compareLoop lhs rhs (min left.length (right.length + 1) + 1) left right < 0 ↔
            m.key (c :: left) < m.key (d :: right) := by
        have hnext : m.key (c :: left) < m.key (d :: right) ↔ m.key left < m.key right := by
          rw [key_cons, key_cons, List.cons_lt_cons_iff, heq]
          simp
        rw [hnext]
        exact ih (fun h0 => hl (List.mem_cons_of_mem _ h0))
          (fun h0 => hr (List.mem_cons_of_mem _ h0)) (h.trans hnext)
      rw [hlength, m.compareLoop_succ lhs rhs _ c d rfl rfl, List.tail_cons, List.tail_cons]
      split_ifs with hcd _ hlow
      · exact hrest (congrArg _ hcd)
      · exact h
      · exact hrest hlow
      · have hne : (m.towlower c).toNat ≠ (m.towlower d).toNat := fun h0 =>
          hlow (UInt16.toNat_inj.mp h0)
        rw [key_cons, key_cons, List.cons_lt_cons_iff]
        omega

/-- **The fast comparison is that of the texts in lower case.** -/
theorem fastCompareNoCase_neg_iff {lhs rhs : List UInt16} (hl : 0 ∉ lhs) (hr : 0 ∉ rhs) :
    m.FastCompareNoCase lhs rhs < 0 ↔ m.key lhs < m.key rhs :=
  m.compareLoop_neg_iff hl hr (m.wcsicmp_neg_iff hl hr)

end CaseMap

/-! ### The comparisons of paths -/

namespace CTSVNPath

theorem equalFromEnd_iff {f : UInt16 → UInt16} {s t : List UInt16} (h : s.length = t.length) :
    equalFromEnd f s t = true ↔ s.map f = t.map f := by
  induction s generalizing t with
  | nil =>
    rw [List.length_eq_zero_iff.mp h.symm]
    exact iff_of_true rfl rfl
  | cons a s ih =>
    cases t with
    | nil => exact nomatch h
    | cons b t =>
      rw [equalFromEnd, List.map_cons, List.map_cons, List.cons.injEq, ← ih (Nat.succ.inj h)]
      by_cases hab : f a = f b
      · rw [if_neg (not_not.mpr hab), and_iff_right hab]
      · rw [if_pos hab]
        exact iff_of_false Bool.false_ne_true fun h => hab h.1

/-- Texts are compared as a whole. -/
theorem equal_iff {f : UInt16 → UInt16} (s t : List UInt16) :
    (if s.length ≠ t.length then false else equalFromEnd f s.reverse t.reverse) = true ↔
      s.map f = t.map f := by
  by_cases h : s.length = t.length
  · rw [if_neg (not_not.mpr h), equalFromEnd_iff (by simpa using h), List.map_reverse,
      List.map_reverse, List.reverse_inj]
  · rw [if_pos h]
    exact iff_of_false Bool.false_ne_true fun heq => h (by simpa using congrArg List.length heq)

theorem arePathStringsEqualWithCase_iff {s t : List UInt16} :
    ArePathStringsEqualWithCase s t = true ↔ s = t := by
  rw [ArePathStringsEqualWithCase, equal_iff, List.map_id, List.map_id]

theorem arePathStringsEqual_iff {m : CaseMap} {s t : List UInt16} :
    ArePathStringsEqual m s t = true ↔ m.key s = m.key t := by
  have hinj : Function.Injective UInt16.toNat := fun _ _ => UInt16.toNat_inj.mp
  have hkey : ∀ s, m.key s = (s.map m.towlower).map UInt16.toNat := fun s => by
    rw [List.map_map]
    rfl
  rw [ArePathStringsEqual, equal_iff, hkey, hkey, (List.map_injective_iff.mpr hinj).eq_iff]

/-- One key is that of an ancestor of the other one, or they are the same. Behind a drive root no
separator is needed. -/
def Above (parent child : List ℕ) : Prop :=
  parent = child ∨ parent ++ [0x5c] <+: child ∨
    (parent.length = 3 ∧ parent[1]? = some 0x3a) ∧ parent <+: child

theorem concat_prefix_iff {α : Type*} {l t : List α} {a : α} :
    l ++ [a] <+: t ↔ l <+: t ∧ t[l.length]? = some a := by
  constructor
  · rintro ⟨rest, rfl⟩
    simp
  · rintro ⟨⟨rest, rfl⟩, h⟩
    cases rest with
    | nil => simp at h
    | cons b rest =>
      obtain rfl : b = a := by simpa using h
      exact ⟨rest, by simp⟩

theorem getElem?_key {m : CaseMap} {s : List UInt16} {c : UInt16} {i : ℕ}
    (hc : ∀ d, m.towlower d = c ↔ d = c) : (m.key s)[i]? = some c.toNat ↔ s[i]? = some c := by
  rw [CaseMap.key, List.getElem?_map, Option.map_eq_some_iff]
  constructor
  · rintro ⟨d, hd, hdc⟩
    rw [hd, (hc d).mp (UInt16.toNat_inj.mp hdc)]
  · intro h
    exact ⟨c, h, congrArg _ ((hc c).mpr rfl)⟩

/-- **The test for ancestors looks at the texts in lower case.** -/
theorem isAncestorOf_iff {m : CaseMap} {p q : CTSVNPath} :
    IsAncestorOf m p q = true ↔ Above (m.key p.GetWinPathString) (m.key q.GetWinPathString) := by
  rw [IsAncestorOf, GetWinPathString, GetWinPathString]
  generalize p.EnsureBackslashPathSet.m_sBackslashPath = w
  generalize q.EnsureBackslashPathSet.m_sBackslashPath = v
  have hback := getElem?_key (s := v) (i := w.length) (fun _ => m.towlower_eq_backslash)
  have hcolon := getElem?_key (s := w) (i := 1) (fun _ => m.towlower_eq_colon)
  have htake : m.key (v.take w.length) = (m.key v).take (m.key w).length := by
    rw [m.length_key, CaseMap.key, CaseMap.key, List.map_take]
  rw [Above]
  by_cases hlen : v.length ≤ w.length
  · rw [if_pos hlen, arePathStringsEqual_iff, List.take_of_length_le hlen]
    constructor
    · exact .inl
    · rintro (h | h | ⟨-, h⟩)
      · exact h
      · have hle := h.length_le
        rw [List.length_append, m.length_key, m.length_key, List.length_singleton] at hle
        omega
      · exact h.eq_of_length_le (by simpa using hlen)
  · rw [if_neg hlen, Bool.and_eq_true, arePathStringsEqual_iff, htake, ← List.prefix_iff_eq_take,
      Bool.or_eq_true, decide_eq_true_iff, decide_eq_true_iff, ← hback, ← hcolon, concat_prefix_iff,
      m.length_key]
    have hne : m.key w ≠ m.key v := fun h => hlen (by
      rw [← m.length_key v, ← h, m.length_key])
    constructor
    · rintro ⟨hpre, h | h⟩
      · exact .inr (.inl ⟨hpre, h⟩)
      · exact .inr (.inr ⟨h, hpre⟩)
    · rintro (h | h | h)
      · exact absurd h hne
      · exact ⟨h.1, .inl h.2⟩
      · exact ⟨h.2, .inr h.1⟩

theorem less_iff {m : CaseMap} {p q : CTSVNPath} (hp : 0 ∉ p.GetWinPathString)
    (hq : 0 ∉ q.GetWinPathString) :
    Less m p q ↔ m.key p.GetWinPathString < m.key q.GetWinPathString :=
  m.fastCompareNoCase_neg_iff hp hq

theorem ensureBackslashPathSet_idem (p : CTSVNPath) :
    p.EnsureBackslashPathSet.EnsureBackslashPathSet = p.EnsureBackslashPathSet := by
  by_cases h : p.m_sBackslashPath = []
  · have hset : p.EnsureBackslashPathSet =
        { p with m_sBackslashPath := SetBackslashPath p.m_sFwdslashPath } := if_pos h
    rw [hset, EnsureBackslashPathSet]
    split_ifs <;> rfl
  · have hset : p.EnsureBackslashPathSet = p := if_neg h
    rw [hset, hset]

@[simp] theorem getWinPathString_ensure (p : CTSVNPath) :
    p.EnsureBackslashPathSet.GetWinPathString = p.GetWinPathString :=
  congrArg m_sBackslashPath p.ensureBackslashPathSet_idem

end CTSVNPath

end TortoiseSvn.Svn
