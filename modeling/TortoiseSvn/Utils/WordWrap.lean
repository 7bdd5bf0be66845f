import Mathlib.Data.List.GetD
import Mathlib.Tactic
import TortoiseSvn.Lib.Loop

/-!
# Word wrapping

`WordWrap` inserts line feeds into a text. It remembers the last space or tab as the place where a line
may end; when a line has reached its limit without one, the line is either cut off right there or goes on
to the end of the word. The next line begins where the last one ended, which may be far behind the
place that the scan has reached.

Main result: `wordWrap_spec`. The text is cut into pieces without loss; when lines are cut off and there
are no tabs, no piece is longer than the limit.
-/

namespace TortoiseSvn.CStringUtils

open Lib

/-- The arithmetic of `int`. -/
def int32 (v : ℤ) : ℤ := Int.bmod v (2 ^ 32)

/-- `CString::Mid`. -/
def mid (s : List UInt16) (first count : ℕ) : List UInt16 := (s.drop first).take count

/-- A division by zero. -/
inductive DivisionByZero
  | divisionByZero
  deriving DecidableEq, Repr

/-- The variables of the loop. -/
structure WrapState where
  i : ℕ := 0
  nLineStart : ℕ := 0
  nLineEnd : ℕ := 0
  tabOffset : ℤ := 0
  retString : List UInt16 := []
  deriving DecidableEq, Repr

section Code

variable (longstring : List UInt16) (limit : ℤ) (bForceWrap : Bool) (tabSize : Int32)

/-- The end of the word at a place.
Source: `StringUtils.cpp` `CStringUtils::WordWrap`, the inner loop -/
def skipWord (i : ℕ) : ℕ :=
  i + ((longstring.drop i).takeWhile fun c => c ≠ 32 ∧ c ≠ 9).length

/-- Where the line ends: at the remembered place, or else right here or behind the word.
Source: `StringUtils.cpp` `CStringUtils::WordWrap`, `if (nLineEnd == nLineStart)` -/
def findLineEnd (st : WrapState) : WrapState :=
  if st.nLineEnd = st.nLineStart then
    if bForceWrap then { st with nLineEnd := st.i }
    else { st with i := skipWord longstring st.i, nLineEnd := skipWord longstring st.i }
  else st

/-- End the line, without compacting it as a path.
Source: `StringUtils.cpp` `CStringUtils::WordWrap`, `if (i-nLineStart+tabOffset >= limit)` -/
def endLine (st : WrapState) : WrapState :=
  { st with
    retString := st.retString ++ mid longstring st.nLineStart (st.nLineEnd - st.nLineStart) ++ [10]
    tabOffset := 0
    nLineStart := st.nLineEnd }

/-- Remember a space or a tab.
Source: `StringUtils.cpp` `CStringUtils::WordWrap` -/
def remember (st : WrapState) : Except DivisionByZero WrapState :=
  let st := if longstring.getD st.i 0 = 32 then { st with nLineEnd := st.i } else st
  if longstring.getD st.i 0 = 9 then
    if tabSize = 0 then .error .divisionByZero
    else .ok { st with
      tabOffset := int32 (st.tabOffset + (tabSize.toInt - Int.tmod st.i tabSize.toInt))
      nLineEnd := st.i }
  else .ok st

/-- A round of the loop.
Source: `StringUtils.cpp` `CStringUtils::WordWrap` -/
def wrapRound (st : WrapState) : Except DivisionByZero (WrapState ⊕ List UInt16) :=
  if st.i < longstring.length then do
    let st :=
      if limit ≤ int32 (st.i - st.nLineStart + st.tabOffset) then
        endLine longstring (findLineEnd longstring bForceWrap st)
      else st
    let st ← remember longstring tabSize st
    .ok (.inl { st with i := st.i + 1 })
  else .ok (.inr (st.retString ++ longstring.drop st.nLineStart))

end Code

/-- The text with line feeds, when paths are not compacted (`bCompactPaths` is false).
Source: `StringUtils.cpp` `CStringUtils::WordWrap` -/
def WordWrap (longstring : List UInt16) (limit : Int32) (bForceWrap : Bool) (tabSize : Int32)
    (retString : List UInt16) : Prop :=
  Returns (wrapRound longstring (max limit.toInt 0) bForceWrap tabSize) {} retString

/-! ### The pieces -/

/-- Each piece with its line feed. -/
def ended (pieces : List (List UInt16)) : List UInt16 := (pieces.map (· ++ [10])).flatten

theorem ended_concat (pieces : List (List UInt16)) (p : List UInt16) :
    ended (pieces ++ [p]) = ended pieces ++ p ++ [10] := by
  simp [ended]

/-- Line feeds stand between the pieces. -/
theorem ended_append (pieces : List (List UInt16)) (last : List UInt16) :
    ended pieces ++ last = [10].intercalate (pieces ++ [last]) := by
  induction pieces with
  | nil => simp [ended]
  | cons p pieces ih =>
    have hne : pieces ++ [last] ≠ [] := by simp
    have hcons : ended (p :: pieces) = p ++ [10] ++ ended pieces := by simp [ended]
    rw [hcons, List.append_assoc, ih, List.cons_append, List.intercalate_cons_of_ne_nil hne,
      List.append_assoc]

/-- What holds in front of every round: the last place where a line may end is not in front of the
current line, and the pieces so far are all that is in front of it. -/
structure Wraps (longstring : List UInt16) (pieces : List (List UInt16)) (st : WrapState) : Prop where
  start_le : st.nLineStart ≤ st.nLineEnd
  end_le : st.nLineEnd ≤ st.i
  end_le_length : st.nLineEnd ≤ longstring.length
  retString : st.retString = ended pieces
  flatten : pieces.flatten = longstring.take st.nLineStart

/-- What holds besides when lines are cut off and there are no tabs: no piece is too long, and neither
is the current line. -/
structure Fits (longstring : List UInt16) (limit : ℤ) (pieces : List (List UInt16))
    (st : WrapState) : Prop where
  pieces_le : ∀ p ∈ pieces, (p.length : ℤ) ≤ limit
  tabOffset : st.tabOffset = 0
  i_le : st.i ≤ longstring.length
  line_le : (st.i : ℤ) - st.nLineStart ≤ limit

section Steps

variable {longstring : List UInt16} {limit : ℤ} {bForceWrap : Bool} {tabSize : Int32}
  {pieces : List (List UInt16)} {st : WrapState}

theorem skipWord_spec (hi : st.i < longstring.length) : st.i ≤ skipWord longstring st.i ∧
    skipWord longstring st.i ≤ longstring.length := by
  unfold skipWord
  have hlen := (List.takeWhile_sublist (p := fun c : UInt16 => decide (c ≠ 32 ∧ c ≠ 9))
    (l := longstring.drop st.i)).length_le
  rw [List.length_drop] at hlen
  omega

theorem Wraps.findLineEnd (bForceWrap : Bool) (h : Wraps longstring pieces st)
    (hi : st.i < longstring.length) :
    Wraps longstring pieces (findLineEnd longstring bForceWrap st) ∧
      st.i ≤ (CStringUtils.findLineEnd longstring bForceWrap st).i := by
  have hskip := skipWord_spec hi
  have hstart := h.start_le.trans h.end_le
  unfold CStringUtils.findLineEnd
  split_ifs
  · exact ⟨⟨hstart, le_rfl, hi.le, h.retString, h.flatten⟩, le_rfl⟩
  · exact ⟨⟨hstart.trans hskip.1, le_rfl, hskip.2, h.retString, h.flatten⟩, hskip.1⟩
  · exact ⟨h, le_rfl⟩

/-- A line ends, and the next one begins there. -/
theorem Wraps.endLine (h : Wraps longstring pieces st) :
    Wraps longstring (pieces ++ [mid longstring st.nLineStart (st.nLineEnd - st.nLineStart)])
      (endLine longstring st) := by
  refine ⟨le_rfl, h.end_le, h.end_le_length, ?_, ?_⟩
  · rw [ended_concat, CStringUtils.endLine, h.retString]
  · rw [List.flatten_concat, h.flatten, mid, ← List.take_add, Nat.add_sub_cancel' h.start_le]
    rfl

/-- A place may be remembered as the end of the line. -/
theorem Wraps.remember (h : Wraps longstring pieces st) (htab : tabSize ≠ 0) :
    ∃ st', remember longstring tabSize st = .ok st' ∧ st'.i = st.i ∧
      st'.nLineStart = st.nLineStart ∧ (longstring.getD st.i 0 ≠ 9 → st'.tabOffset = st.tabOffset) ∧
      Wraps longstring pieces { st' with i := st'.i + 1 } := by
  have hstart := h.start_le.trans h.end_le
  have hi : ∀ c : UInt16, c ≠ 0 → longstring.getD st.i 0 = c → st.i ≤ longstring.length := by
    intro c hc hget
    by_contra hlt
    rw [List.getD_eq_default _ _ (by omega)] at hget
    exact hc hget.symm
  unfold CStringUtils.remember
  by_cases h9 : longstring.getD st.i 0 = 9
  · have h32 : longstring.getD st.i 0 ≠ 32 := h9 ▸ by decide
    rw [if_neg h32]
    dsimp only
    rw [if_pos h9, if_neg htab]
    exact ⟨_, rfl, rfl, rfl, fun hne => absurd h9 hne, hstart, Nat.le_succ _, hi 9 (by decide) h9,
      h.retString, h.flatten⟩
  · by_cases h32 : longstring.getD st.i 0 = 32
    · rw [if_pos h32]
      dsimp only
      rw [if_neg h9]
      exact ⟨_, rfl, rfl, rfl, fun _ => rfl, hstart, Nat.le_succ _, hi 32 (by decide) h32,
        h.retString, h.flatten⟩
    · rw [if_neg h32]
      dsimp only
      rw [if_neg h9]
      exact ⟨_, rfl, rfl, rfl, fun _ => rfl, h.start_le, h.end_le.trans (Nat.le_succ _),
        h.end_le_length, h.retString, h.flatten⟩

theorem int32_of_lt {v : ℤ} (h0 : 0 ≤ v) (h : v < 2 ^ 31) : int32 v = v := by
  apply Int.bmod_eq_of_le
  · norm_num
    omega
  · norm_num
    omega

/-- Without tabs the length of the line is its number of characters. -/
theorem Fits.int32_eq (hfits : Fits longstring limit pieces st) (h : Wraps longstring pieces st)
    (hbound : limit < 2 ^ 31) : int32 (st.i - st.nLineStart + st.tabOffset) = st.i - st.nLineStart := by
  have hstart := h.start_le.trans h.end_le
  have hline := hfits.line_le
  rw [hfits.tabOffset, add_zero]
  exact int32_of_lt (by omega) (by omega)

theorem getD_ne_tab (hnotab : 9 ∉ longstring) (i : ℕ) : longstring.getD i 0 ≠ 9 := by
  rcases lt_or_ge i longstring.length with hi | hi
  · rw [List.getD_eq_getElem _ _ hi]
    exact fun heq => hnotab (heq ▸ List.getElem_mem hi)
  · rw [List.getD_eq_default _ _ hi]
    decide

/-- A line that is full is cut off at most at the limit, and the rest of it is shorter. -/
theorem Fits.endLine (hfits : Fits longstring limit pieces st) (h : Wraps longstring pieces st)
    (hlimit : 1 ≤ limit) (hfull : limit ≤ (st.i : ℤ) - st.nLineStart) :
    (∀ p ∈ pieces ++ [mid longstring (findLineEnd longstring true st).nLineStart
        ((findLineEnd longstring true st).nLineEnd - (findLineEnd longstring true st).nLineStart)],
      (p.length : ℤ) ≤ limit) ∧
    (findLineEnd longstring true st).i = st.i ∧
    (st.i : ℤ) - (findLineEnd longstring true st).nLineEnd < limit := by
  have hstart := h.start_le
  have hend := h.end_le
  have hline := hfits.line_le
  have hplaces : (findLineEnd longstring true st).i = st.i ∧
      (findLineEnd longstring true st).nLineStart = st.nLineStart ∧
      st.nLineStart < (findLineEnd longstring true st).nLineEnd ∧
      (findLineEnd longstring true st).nLineEnd ≤ st.i := by
    unfold CStringUtils.findLineEnd
    by_cases hsame : st.nLineEnd = st.nLineStart
    · rw [if_pos hsame, if_pos rfl]
      exact ⟨rfl, rfl, by dsimp only; omega, le_rfl⟩
    · rw [if_neg hsame]
      exact ⟨rfl, rfl, by omega, hend⟩
  obtain ⟨hi, hfrom, hlt, hle⟩ := hplaces
  refine ⟨?_, hi, by omega⟩
  intro p hp
  rcases List.mem_append.mp hp with hold | hnew
  · exact hfits.pieces_le p hold
  · rw [List.mem_singleton.mp hnew, mid, List.length_take]
    omega

/-- One round keeps what holds, and goes on. -/
theorem Wraps.round (limit : ℤ) (bForceWrap : Bool) (h : Wraps longstring pieces st)
    (hi : st.i < longstring.length) (htab : tabSize ≠ 0) : ∃ st' pieces',
      wrapRound longstring limit bForceWrap tabSize st = .ok (.inl st') ∧
      Wraps longstring pieces' st' ∧ st.i < st'.i ∧
      (bForceWrap = true → 9 ∉ longstring → 1 ≤ limit → limit < 2 ^ 31 →
        Fits longstring limit pieces st → Fits longstring limit pieces' st') := by
  by_cases hfull : limit ≤ int32 (st.i - st.nLineStart + st.tabOffset)
  · obtain ⟨hfound, hle⟩ := h.findLineEnd bForceWrap hi
    obtain ⟨st', hremember, hi', hstart', hoffset, hwraps⟩ := hfound.endLine.remember htab
    refine ⟨_, _, ?_, hwraps, ?_, ?_⟩
    · rw [wrapRound, if_pos hi, if_pos hfull]
      dsimp only
      rw [hremember]
      rfl
    · rw [hi']
      exact Nat.lt_succ_of_le hle
    · rintro rfl hnotab hlimit hbound hfits
      rw [hfits.int32_eq h hbound] at hfull
      obtain ⟨hpieces, hsame, hless⟩ := hfits.endLine h hlimit hfull
      have hi'' : st'.i = st.i := hi'.trans hsame
      have hstart'' : st'.nLineStart = (CStringUtils.findLineEnd longstring true st).nLineEnd :=
        hstart'
      refine ⟨hpieces, hoffset (getD_ne_tab hnotab _), ?_, ?_⟩
      · dsimp only
        omega
      · dsimp only
        omega
  · obtain ⟨st', hremember, hi', hstart', hoffset, hwraps⟩ := h.remember htab
    refine ⟨_, _, ?_, hwraps, ?_, ?_⟩
    · rw [wrapRound, if_pos hi, if_neg hfull]
      dsimp only
      rw [hremember]
      rfl
    · rw [hi']
      exact Nat.lt_succ_self _
    · rintro rfl hnotab hlimit hbound hfits
      rw [hfits.int32_eq h hbound] at hfull
      refine ⟨hfits.pieces_le, ?_, ?_, ?_⟩
      · exact (hoffset (getD_ne_tab hnotab _)).trans hfits.tabOffset
      · dsimp only
        omega
      · dsimp only
        omega

end Steps

/-! ### The result -/

/-- Deleting the line feeds again. -/
theorem filter_intercalate (pieces : List (List UInt16)) :
    (([10] : List UInt16).intercalate pieces).filter (fun c => decide (c ≠ 10)) =
      pieces.flatten.filter fun c => decide (c ≠ 10) := by
  induction pieces with
  | nil => rfl
  | cons p pieces ih =>
    rcases eq_or_ne pieces [] with rfl | hne
    · simp
    · rw [List.intercalate_cons_of_ne_nil hne, List.filter_append, List.filter_append, ih,
        List.flatten_cons, List.filter_append]
      simp

/-- What the text is when the loop is left. -/
theorem wordWrap_pieces (longstring : List UInt16) (limit : ℤ) (bForceWrap : Bool) {tabSize : Int32}
    (htab : tabSize ≠ 0) : ∃ r, Returns (wrapRound longstring limit bForceWrap tabSize) {} r ∧
      ∃ pieces, r = [10].intercalate pieces ∧ pieces ≠ [] ∧ pieces.flatten = longstring ∧
        (bForceWrap = true → 9 ∉ longstring → 1 ≤ limit → limit < 2 ^ 31 →
          ∀ p ∈ pieces, (p.length : ℤ) ≤ limit) := by
  apply Returns.of_measure (wrapRound longstring limit bForceWrap tabSize)
    (fun st => ∃ pieces, Wraps longstring pieces st ∧
      (bForceWrap = true → 9 ∉ longstring → 1 ≤ limit → limit < 2 ^ 31 →
        Fits longstring limit pieces st))
    (fun _ r => ∃ pieces, r = [10].intercalate pieces ∧ pieces ≠ [] ∧ pieces.flatten = longstring ∧
      (bForceWrap = true → 9 ∉ longstring → 1 ≤ limit → limit < 2 ^ 31 →
        ∀ p ∈ pieces, (p.length : ℤ) ≤ limit))
    (fun st => longstring.length - st.i)
  · rintro st ⟨pieces, hwraps, hfits⟩
    by_cases hi : st.i < longstring.length
    · obtain ⟨st', pieces', hround, hwraps', hlt, hfits'⟩ :=
        hwraps.round limit bForceWrap hi htab
      refine Or.inr ⟨st', hround, ⟨pieces', hwraps', ?_⟩, by omega, fun _ => id⟩
      intro hforce hnotab hlimit hbound
      exact hfits' hforce hnotab hlimit hbound (hfits hforce hnotab hlimit hbound)
    · refine Or.inl ⟨_, by rw [wrapRound, if_neg hi], pieces ++ [longstring.drop st.nLineStart], ?_,
        by simp, ?_, ?_⟩
      · rw [hwraps.retString, ended_append]
      · rw [List.flatten_concat, hwraps.flatten, List.take_append_drop]
      · intro hforce hnotab hlimit hbound p hp
        have hfit := hfits hforce hnotab hlimit hbound
        have hile := hfit.i_le
        have hline := hfit.line_le
        rcases List.mem_append.mp hp with hold | hlast
        · exact hfit.pieces_le p hold
        · rw [List.mem_singleton.mp hlast, List.length_drop]
          omega
  · refine ⟨[], ⟨le_rfl, le_rfl, Nat.zero_le _, rfl, by simp⟩, ?_⟩
    intro _ _ hlimit _
    refine ⟨fun _ hp => absurd hp List.not_mem_nil, rfl, Nat.zero_le _, ?_⟩
    dsimp only
    omega

/-- The text is cut without loss: the loop ends, and the pieces between the line feeds are the text.
Source: `StringUtils.cpp` `CStringUtils::WordWrap` -/
theorem wordWrap_spec {longstring : List UInt16} (hfeed : 10 ∉ longstring) (limit : Int32)
    {tabSize : Int32} (htab : tabSize ≠ 0) : ∃ r, WordWrap longstring limit true tabSize r ∧
      (r.splitOn 10).flatten = longstring ∧ (r.filter fun c => c ≠ 10) = longstring ∧
      (9 ∉ longstring → 1 ≤ limit.toInt → ∀ p ∈ r.splitOn 10, (p.length : ℤ) ≤ limit.toInt) := by
  obtain ⟨r, hr, pieces, rfl, hne, rfl, hshort⟩ :=
    wordWrap_pieces longstring (max limit.toInt 0) true htab
  have hfeeds : ∀ p ∈ pieces, 10 ∉ p := fun p hp hmem => hfeed (List.mem_flatten_of_mem hp hmem)
  have hsplit : ([10].intercalate pieces).splitOn 10 = pieces := List.splitOn_intercalate 10 hfeeds hne
  refine ⟨_, hr, ?_, ?_, ?_⟩
  · rw [hsplit]
  · rw [filter_intercalate, List.filter_eq_self]
    intro c hc
    simpa using ne_of_mem_of_not_mem hc hfeed
  · intro hnotab hlimit p hp
    rw [hsplit] at hp
    have hmax : max limit.toInt 0 = limit.toInt := max_eq_left (by omega)
    rw [hmax] at hshort
    exact hshort rfl hnotab hlimit limit.toInt_lt p hp

/-- The line ends at the space, which begins the next line. -/
example : WordWrap [97, 98, 32, 99, 100] 4 true 4 [97, 98, 10, 32, 99, 100] := ⟨6, by decide⟩

end TortoiseSvn.CStringUtils
