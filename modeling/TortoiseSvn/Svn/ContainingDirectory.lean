import TortoiseSvn.Svn.CommonRoot

/-!
# Containing directories

`GetContainingDirectory` cuts a path at its last separator, and `IsAdminDir` looks for the name of
the administrative directory among the elements of a path.

Main results: `getContainingDirectory_shorter`, `getContainingDirectory_above`. Going up ends, and
every directory on the way is above the path.
-/

namespace TortoiseSvn.Svn

open Lib

namespace CTSVNPath

/-! ### The code -/

/-- Source: `TSVNPath.cpp` `CTSVNPath::IsEmpty` -/
def IsEmpty (p : CTSVNPath) : Bool := decide (p.m_sBackslashPath = [] ∧ p.m_sFwdslashPath = [])

/-- The text that the result is set from.
Source: `TSVNPath.cpp` `CTSVNPath::GetContainingDirectory`, `sDirName` -/
def directoryName (w : List UInt16) : List UInt16 :=
  let sDirName := w.take (CTSVNPathList.reverseFind w backslash).toNat
  let sDirName :=
    if sDirName.length = 2 ∧ sDirName[1]? = some colon then
      -- a root directory needs a trailing separator, and the root itself has no directory
      if sDirName ++ [backslash] = w then [] else sDirName ++ [backslash]
    else sDirName
  if sDirName.length = 1 ∧ sDirName[0]? = some backslash then [] else sDirName

/-- Source: `TSVNPath.cpp` `CTSVNPath::GetContainingDirectory` -/
def GetContainingDirectory (p : CTSVNPath) : CTSVNPath :=
  SetFromWin (directoryName p.GetWinPathString)

/-- `\.svn` -/
def svnDir : List UInt16 := [0x5c, 0x2e, 0x73, 0x76, 0x6e]

/-- `\_svn` -/
def hackedDir : List UInt16 := [0x5c, 0x5f, 0x73, 0x76, 0x6e]

/-- One of the two loops, on what is left of the text. `Find` goes on one character behind the last
place that it found.
Source: `SVNAdminDir.cpp` `SVNAdminDir::IsAdminDirPath`, the loop -/
def adminDirLoop (name : List UInt16) : List UInt16 → Bool
  | [] => false
  | c :: rest =>
    if name <+: c :: rest then
      if (c :: rest).length = 5 then true
      else if (Text.find (name ++ [backslash]) (c :: rest)).isSome then true
      else adminDirLoop name rest
    else adminDirLoop name rest

/-- Source: `SVNAdminDir.cpp` `SVNAdminDir::IsAdminDirPath` -/
def IsAdminDirPath (m : CaseMap) (m_bVSNETHack : Bool) (path : List UInt16) : Bool :=
  if path = [] then false
  else
    let lowerpath := path.map m.towlower
    adminDirLoop svnDir lowerpath || m_bVSNETHack && adminDirLoop hackedDir lowerpath

/-- Source: `TSVNPath.cpp` `CTSVNPath::IsAdminDir` -/
def IsAdminDir (m : CaseMap) (m_bVSNETHack : Bool) (p : CTSVNPath) : Bool :=
  IsAdminDirPath m m_bVSNETHack p.GetWinPathString

/-! ### Going up -/

variable {w : List UInt16} {p : CTSVNPath}

/-- The directory of a path begins the path, up to a separator. The separator stays behind a
drive. -/
theorem directoryName_cases (w : List UInt16) : directoryName w = [] ∨
    (¬ ((directoryName w).length = 2 ∧ (directoryName w)[1]? = some colon) ∧
      directoryName w ++ [backslash] <+: w) ∨
    ∃ x, directoryName w = [x, colon, backslash] ∧ directoryName w <+: w ∧
      directoryName w ≠ w := by
  by_cases hback : backslash ∈ w
  · obtain ⟨back, front, hsplit, hlast⟩ := List.eq_append_cons_of_mem (List.mem_reverse.mpr hback)
    obtain rfl : w = front.reverse ++ backslash :: back.reverse := by
      rw [← List.reverse_reverse w, hsplit]
      simp
    generalize hf : front.reverse = dir
    generalize hb : back.reverse = name
    have hname : backslash ∉ name := by
      rw [← hb]
      exact fun hmem => hlast (List.mem_reverse.mp hmem)
    have hcut : (dir ++ backslash :: name).take (CTSVNPathList.reverseFind
        (dir ++ backslash :: name) backslash).toNat = dir := by
      rw [CTSVNPathList.reverseFind_eq hname, Int.toNat_natCast, List.take_left]
    rw [directoryName, hcut]
    by_cases hdrive : dir.length = 2 ∧ dir[1]? = some colon
    · obtain ⟨x, rfl⟩ : ∃ x, dir = [x, colon] := by
        obtain ⟨x, y, rfl⟩ := List.length_eq_two.mp hdrive.1
        obtain rfl : y = colon := by simpa using hdrive.2
        exact ⟨x, rfl⟩
      rw [if_pos hdrive]
      by_cases hroot : name = []
      · left
        simp [hroot]
      · right; right
        refine ⟨x, ?_⟩
        simp [hroot]
    · rw [if_neg hdrive]
      by_cases hunc : dir.length = 1 ∧ dir[0]? = some backslash
      · exact .inl (if_pos hunc)
      · rw [if_neg hunc]
        exact .inr (.inl ⟨hdrive, name, by simp⟩)
  · left
    rw [directoryName, CTSVNPathList.reverseFind_of_notMem hback]
    rfl

theorem directoryName_starts (w : List UInt16) : directoryName w <+: w := by
  rcases directoryName_cases w with h | ⟨-, h⟩ | ⟨x, -, h, -⟩
  · rw [h]
    exact List.nil_prefix
  · exact (List.prefix_append _ _).trans h
  · exact h

theorem directoryName_shorter (hw : w ≠ []) : (directoryName w).length < w.length := by
  rcases directoryName_cases w with h | ⟨-, h⟩ | ⟨x, -, h, hne⟩
  · rw [h]
    exact List.length_pos_of_ne_nil hw
  · have hle := h.length_le
    rw [List.length_append, List.length_singleton] at hle
    omega
  · exact lt_of_le_of_ne h.length_le fun heq => hne (h.eq_of_length heq)

theorem win_getContainingDirectory (p : CTSVNPath) : p.GetContainingDirectory.GetWinPathString =
    SanitizeRootPath (Text.replace longMark [] (directoryName p.GetWinPathString)) false := by
  rw [GetContainingDirectory, SetFromWin, getWinPathString_eq]
  split_ifs with h
  · exact h.symm
  · rfl

theorem length_sanitizeRootPath_le (w : List UInt16) (bIsForwardPath : Bool) :
    (SanitizeRootPath w bIsForwardPath).length ≤ w.length + 1 := by
  rw [SanitizeRootPath]
  split_ifs <;> simp

/-- The directory of a path is not a drive without a separator. -/
theorem sanitizeRootPath_directoryName (w : List UInt16) :
    SanitizeRootPath (directoryName w) false = directoryName w := by
  apply if_neg
  rcases directoryName_cases w with h | ⟨h, -⟩ | ⟨x, h, -⟩
  · simp [h]
  · exact h
  · simp [h]

/-- **The text of the containing directory is shorter than that of a path.** -/
theorem getContainingDirectory_shorter (hp : p.GetWinPathString ≠ []) :
    p.GetContainingDirectory.GetWinPathString.length < p.GetWinPathString.length := by
  have hshorter := directoryName_shorter hp
  rw [win_getContainingDirectory]
  by_cases hmark : longMark <:+: directoryName p.GetWinPathString
  · have hle := length_sanitizeRootPath_le
      (Text.replace longMark [] (directoryName p.GetWinPathString)) false
    have hremoved := Text.length_replace_nil (by decide) hmark
    have hfour : longMark.length = 4 := rfl
    omega
  · rw [Text.replace_of_absent hmark, sanitizeRootPath_directoryName]
    exact hshorter

theorem isEmpty_getContainingDirectory (p : CTSVNPath) :
    p.GetContainingDirectory.IsEmpty = true ↔ p.GetContainingDirectory.GetWinPathString = [] := by
  rw [win_getContainingDirectory, GetContainingDirectory, SetFromWin, IsEmpty, decide_eq_true_iff]
  exact and_iff_left rfl

/-- The empty path is in no directory. -/
theorem win_ne_nil_of_directory (h : p.GetContainingDirectory.IsEmpty ≠ true) :
    p.GetWinPathString ≠ [] := by
  intro hp
  apply h
  rw [isEmpty_getContainingDirectory, win_getContainingDirectory, hp]
  rfl

theorem not_isAdminDir_nil (m : CaseMap) (m_bVSNETHack : Bool) (hp : p.GetWinPathString = []) :
    IsAdminDir m m_bVSNETHack p = false := if_pos hp

/-- The text of the containing directory of a path without `\\?\`. -/
theorem win_getContainingDirectory_of_plain (h : ¬ longMark <:+: p.GetWinPathString) :
    p.GetContainingDirectory.GetWinPathString = directoryName p.GetWinPathString := by
  have hdir : ¬ longMark <:+: directoryName p.GetWinPathString := fun hmark =>
    h (hmark.trans (directoryName_starts _).isInfix)
  rw [win_getContainingDirectory, Text.replace_of_absent hdir, sanitizeRootPath_directoryName]

/-- **The containing directory is above a path.** -/
theorem isAncestorOf_getContainingDirectory (m : CaseMap) (h : ¬ longMark <:+: p.GetWinPathString)
    (hdir : p.GetContainingDirectory.IsEmpty ≠ true) :
    IsAncestorOf m p.GetContainingDirectory p = true := by
  rw [ne_eq, isEmpty_getContainingDirectory] at hdir
  rw [isAncestorOf_iff]
  rw [win_getContainingDirectory_of_plain h] at hdir ⊢
  generalize p.GetWinPathString = w at *
  rcases directoryName_cases w with hnil | ⟨-, hsep⟩ | ⟨x, hdrive, hstarts, -⟩
  · exact absurd hnil hdir
  · have hkey : m.key (directoryName w ++ [backslash]) = m.key (directoryName w) ++ [0x5c] := by
      rw [CaseMap.key, List.map_append, List.map_singleton, m.towlower_eq_backslash.mpr rfl]
      rfl
    right; left
    rw [← hkey]
    exact hsep.map _
  · right; right
    refine ⟨⟨by rw [m.length_key, hdrive]; rfl, ?_⟩, hstarts.map _⟩
    exact (getElem?_key fun _ => m.towlower_eq_colon).mpr (by rw [hdrive]; rfl)

end CTSVNPath

end TortoiseSvn.Svn
