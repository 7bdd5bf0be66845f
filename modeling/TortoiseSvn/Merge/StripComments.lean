import TortoiseSvn.Lib.Loop
import TortoiseSvn.Merge.FileTextLines

/-!
# Stripping comments

`StripComments` cuts comments out of a line. It remembers where a block comment starts and looks for its
end from the beginning of the line. An end in front of the start is no end, with one exception: an end
at position 0 is always taken. The part between the two is then doubled, and the search begins again.

Main result: `stripComments_ends`. The loop ends with a line that is no longer than the given one when
it takes no end at position 0 for a block that starts behind that end.
-/

namespace TortoiseSvn.Merge

namespace FileText

open Lib

/-- The tokens of a language, read from a settings file as C strings.
Source: `FileTextLines.h` `m_sCommentLine`, `m_sCommentBlockStart`, `m_sCommentBlockEnd` -/
structure CommentTokens where
  line : Text
  blockStart : Text
  blockEnd : Text
  noNul : 0 ∉ line ∧ 0 ∉ blockStart ∧ 0 ∉ blockEnd

/-! ### Searching -/

/-- The first occurrence of a text, up to the terminator. -/
def wcsstr (sub : Text) : Text → Option ℕ
  | [] => if sub = [] then some 0 else none
  | c :: rest =>
    if sub <+: c :: rest then some 0
    else if c = 0 then none
    else (wcsstr sub rest).map (· + 1)

/-- The first occurrence of a character, up to the terminator. -/
def wcschr (ch : UInt16) : Text → Option ℕ
  | [] => none
  | c :: rest =>
    if c = ch then some 0
    else if c = 0 then none
    else (wcschr ch rest).map (· + 1)

/-- A position behind a start, or -1. -/
def position (iStart : ℤ) : Option ℕ → ℤ
  | some k => iStart + k
  | none => -1

/-- `CString::Find` for a text. -/
def find (s sub : Text) (iStart : ℤ) : ℤ :=
  if iStart < 0 ∨ (s.length : ℤ) < iStart then -1
  else position iStart (wcsstr sub (s.drop iStart.toNat))

/-- `CString::Find` for a character. -/
def findChar (s : Text) (ch : UInt16) (iStart : ℤ) : ℤ :=
  if iStart < 0 ∨ (s.length : ℤ) ≤ iStart then -1
  else position iStart (wcschr ch (s.drop iStart.toNat))

theorem le_position (iStart : ℤ) (k : Option ℕ) : position iStart k = -1 ∨ iStart ≤ position iStart k := by
  cases k with
  | none => exact Or.inl rfl
  | some k =>
    right
    change iStart ≤ iStart + k
    omega

theorem findChar_cases (s : Text) (ch : UInt16) (iStart : ℤ) :
    findChar s ch iStart = -1 ∨ iStart ≤ findChar s ch iStart := by
  unfold findChar
  split
  · exact Or.inl rfl
  · exact le_position iStart _

theorem findChar_natCast (s : Text) (ch : UInt16) (i : ℕ) :
    findChar s ch i = position i (wcschr ch (s.drop i)) := by
  unfold findChar
  rw [Int.toNat_natCast]
  split_ifs with h
  · rw [List.drop_of_length_le (by omega)]
    rfl
  · rfl

/-- Count the quotation marks in front of a position, from one that was found.
Source: `FileTextLines.cpp` `CFileTextLines::IsInsideString`, the loops -/
def countLoop (sLine : Text) (pos spos : ℤ) (count : ℕ) : ℕ :=
  if 0 ≤ spos ∧ spos < pos then
    countLoop sLine pos (findChar sLine 34 (spos + 1)) (count + 1)
  else count
termination_by if spos < 0 then 0 else (pos - spos).toNat
decreasing_by
  rename_i h
  rcases findChar_cases sLine 34 (spos + 1) with hnone | hle
  · rw [hnone, if_pos (by omega), if_neg (by omega)]
    omega
  · rw [if_neg (by omega), if_neg (by omega)]
    omega

/-- Behind the first apostrophe, the second loop goes on to the next quotation mark too.
Source: `FileTextLines.cpp` `CFileTextLines::IsInsideString` -/
def IsInsideString (sLine : Text) (pos : ℤ) : Bool :=
  let scount := countLoop sLine pos (findChar sLine 34 0) 0
  let ccount := countLoop sLine pos (findChar sLine 39 0) 0
  scount % 2 ≠ 0 ∨ ccount % 2 ≠ 0

/-! ### The loop -/

/-- The variables of the loop. -/
structure StripState where
  sLine : Text
  bInBlockComment : Bool
  startpos : ℤ := 0
  oldStartPos : ℤ := -1
  deriving DecidableEq, Repr

/-- `CString::Left`. -/
def left (s : Text) (n : ℤ) : Text := s.take n.toNat

/-- `CString::Mid`. -/
def mid (s : Text) (n : ℤ) : Text := s.drop n.toNat

section Loop

variable (tokens : CommentTokens)

/-- Source: `FileTextLines.cpp` `CFileTextLines::StripComments`, `if (bInBlockComment)` -/
def inBlock (st : StripState) : StripState :=
  let found := find st.sLine tokens.blockEnd 0
  let endpos := if IsInsideString st.sLine found then -1 else found
  if 0 ≤ endpos ∧ (st.startpos < endpos ∨ endpos = 0) then
    { st with
      sLine := left st.sLine st.startpos ++ mid st.sLine (endpos + tokens.blockEnd.length)
      bInBlockComment := false
      startpos := endpos }
  else { st with sLine := left st.sLine st.startpos, startpos := -1 }

/-- The condition of the loop. -/
def continueLoop (st : StripState) : Except Empty (StripState ⊕ (Bool × Text)) :=
  if 0 ≤ st.startpos then .ok (.inl st) else .ok (.inr (st.bInBlockComment, st.sLine))

/-- Source: `FileTextLines.cpp` `CFileTextLines::StripComments`, `if (!bInBlockComment)` -/
def outsideBlock (st : StripState) : Except Empty (StripState ⊕ (Bool × Text)) :=
  let startpos := if tokens.blockStart = [] then -1 else find st.sLine tokens.blockStart st.startpos
  let startpos2 := if tokens.line = [] then -1 else find st.sLine tokens.line 0
  if (startpos2 < startpos ∧ 0 ≤ startpos2) ∨ (0 ≤ startpos2 ∧ startpos < 0) then
    let st : StripState :=
      if IsInsideString st.sLine startpos2 then { st with startpos := startpos }
      else { st with sLine := left st.sLine startpos2, startpos := -1 }
    if st.startpos = st.oldStartPos then .ok (.inr (false, st.sLine))
    else continueLoop { st with oldStartPos := st.startpos }
  else if 0 ≤ startpos then
    if IsInsideString st.sLine startpos then continueLoop { st with startpos := startpos + 1 }
    else continueLoop { st with startpos := startpos, bInBlockComment := true }
  else continueLoop { st with startpos := startpos }

/-- The body of the loop; it returns whether the line ends in a comment, and the line.
Source: `FileTextLines.cpp` `CFileTextLines::StripComments` -/
def stripBody (st : StripState) : Except Empty (StripState ⊕ (Bool × Text)) :=
  let st := if st.bInBlockComment then inBlock tokens st else st
  if st.bInBlockComment then continueLoop st else outsideBlock tokens st

/-- The loop goes round. -/
def Goes (st st' : StripState) : Prop := stripBody tokens st = .ok (.inl st')

/-- A block that starts behind an end at position 0 is ended by it. -/
def GoesBack (st : StripState) : Prop :=
  st.bInBlockComment = true ∧ 0 < st.startpos ∧ (tokens.blockEnd.length : ℤ) ≤ st.startpos ∧
    find st.sLine tokens.blockEnd 0 = 0

end Loop

/-! ### What is found -/

theorem wcsstr_eq_zero {sub s : Text} (h : sub <+: s) : wcsstr sub s = some 0 := by
  cases s with
  | nil => rw [wcsstr, if_pos (List.prefix_nil.mp h)]
  | cons c rest => rw [wcsstr, if_pos h]

theorem prefix_of_wcsstr {sub s : Text} {k : ℕ} (h : wcsstr sub s = some k) : sub <+: s.drop k := by
  induction s generalizing k with
  | nil =>
    rw [wcsstr] at h
    split_ifs at h with hnil
    rw [hnil]
    exact List.nil_prefix
  | cons c rest ih =>
    rw [wcsstr] at h
    split_ifs at h with hpre hnul
    · obtain rfl := Option.some.inj h
      exact hpre
    · obtain ⟨k, hk, rfl⟩ := Option.map_eq_some_iff.mp h
      exact ih hk

variable {s sub : Text} {iStart : ℤ}

theorem find_cases (s sub : Text) (iStart : ℤ) : find s sub iStart = -1 ∨
    ∃ i k : ℕ, iStart = i ∧ i ≤ s.length ∧ find s sub iStart = (i + k : ℕ) ∧
      wcsstr sub (s.drop i) = some k := by
  unfold find
  split_ifs with h
  · exact Or.inl rfl
  · obtain ⟨i, rfl⟩ := Int.eq_ofNat_of_zero_le (show 0 ≤ iStart by omega)
    rw [Int.toNat_natCast]
    cases hk : wcsstr sub (s.drop i) with
    | none => exact Or.inl rfl
    | some k => exact Or.inr ⟨i, k, rfl, by omega, by simp [position], hk⟩

/-- What is found lies behind the start and inside the text, and is found from there again. -/
theorem find_spec (h : 0 ≤ find s sub iStart) : iStart ≤ find s sub iStart ∧
    find s sub iStart + sub.length ≤ s.length ∧ find s sub (find s sub iStart) = find s sub iStart := by
  rcases find_cases s sub iStart with hnone | ⟨i, k, rfl, hi, hfind, hk⟩
  · omega
  · have hpre := prefix_of_wcsstr hk
    rw [List.drop_drop] at hpre
    have hlen := hpre.length_le
    rw [List.length_drop] at hlen
    have hbound : i + k + sub.length ≤ s.length := by
      rcases eq_or_ne sub [] with rfl | hne
      · rw [wcsstr_eq_zero List.nil_prefix] at hk
        obtain rfl := Option.some.inj hk
        simpa using hi
      · have hpos := List.length_pos_iff.mpr hne
        omega
    rw [hfind]
    refine ⟨by omega, by omega, ?_⟩
    unfold find
    rw [if_neg (by omega), Int.toNat_natCast, wcsstr_eq_zero hpre]
    simp [position]

theorem length_left_le (n : ℤ) : (left s n).length ≤ s.length := by
  rw [left, List.length_take]
  exact min_le_right _ _

/-! ### Rounds -/

section Rounds

variable {tokens : CommentTokens} {st st' : StripState}

/-- A block start behind a line comment in a string, which is not cut off, was seen once; the second
time the loop is left. -/
structure Pending (tokens : CommentTokens) (st : StripState) : Prop where
  outside : st.bInBlockComment = false
  blockStart : tokens.blockStart ≠ []
  found : find st.sLine tokens.blockStart st.startpos = st.startpos
  line : tokens.line ≠ []
  first : find st.sLine tokens.line 0 < st.startpos ∧ 0 ≤ find st.sLine tokens.line 0
  inString : IsInsideString st.sLine (find st.sLine tokens.line 0) = true
  seen : st.startpos = st.oldStartPos

/-- What holds at the beginning of a round. -/
structure Runs (tokens : CommentTokens) (st : StripState) : Prop where
  nonneg : 0 ≤ st.startpos
  le_length : st.startpos ≤ st.sLine.length
  seen : st.oldStartPos = -1 ∨ Pending tokens st

/-- What is left to do without a change of the line. -/
def remaining (st : StripState) : ℕ :=
  if st.bInBlockComment then 0
  else if st.startpos = st.oldStartPos then 1
  else (st.sLine.length - st.startpos).toNat + 2

/-- The line first, then what is left to do with it. -/
def measure (st : StripState) : ℕ := (st.sLine.length + 4) ^ 2 + remaining st

/-- The loop is left with a line that is no longer, or goes on with the same line and less to do. -/
def Advances (tokens : CommentTokens) (st : StripState) (limit : ℕ)
    (result : Except Empty (StripState ⊕ (Bool × Text))) : Prop :=
  (∃ a, result = .ok (.inr a) ∧ a.2.length ≤ st.sLine.length) ∨
    tokens.blockStart ≠ [] ∧ ∃ st', result = .ok (.inl st') ∧ st'.sLine = st.sLine ∧
      Runs tokens st' ∧ remaining st' < limit

theorem advances_outsideBlock (hout : st.bInBlockComment = false)
    (hseen : st.oldStartPos = -1) : Advances tokens st
      ((st.sLine.length - st.startpos).toNat + 2) (outsideBlock tokens st) := by
  unfold outsideBlock
  generalize hq : (if tokens.blockStart = [] then (-1 : ℤ)
    else find st.sLine tokens.blockStart st.startpos) = q
  generalize hl : (if tokens.line = [] then (-1 : ℤ) else find st.sLine tokens.line 0) = l
  dsimp only
  -- what is known about a block start that was found
  have hfound : 0 ≤ q → tokens.blockStart ≠ [] ∧ find st.sLine tokens.blockStart st.startpos = q ∧
      st.startpos ≤ q ∧ q < st.sLine.length ∧ find st.sLine tokens.blockStart q = q := by
    intro hpos
    by_cases hempty : tokens.blockStart = []
    · rw [if_pos hempty] at hq
      omega
    · rw [if_neg hempty] at hq
      subst hq
      obtain ⟨hle, hlen, hagain⟩ := find_spec hpos
      have hlength := List.length_pos_iff.mpr hempty
      exact ⟨hempty, rfl, hle, by omega, hagain⟩
  split_ifs with hline hstring hsame hsame hstart hstring
  · exact Or.inl ⟨_, rfl, le_rfl⟩
  · -- a line comment in a string
    dsimp only at hsame ⊢
    unfold continueLoop
    dsimp only
    split_ifs with hpos
    · obtain ⟨hblock, -, hle, hlt, hagain⟩ := hfound hpos
      have hlines : tokens.line ≠ [] := by
        rintro hempty
        rw [if_pos hempty] at hl
        omega
      rw [if_neg hlines] at hl
      subst hl
      refine Or.inr ⟨hblock, _, rfl, rfl, ⟨hpos, by dsimp only; omega, Or.inr ?_⟩, ?_⟩
      · have hfirst : find st.sLine tokens.line 0 < q ∧ 0 ≤ find st.sLine tokens.line 0 := by omega
        exact ⟨hout, hblock, hagain, hlines, hfirst, hstring, rfl⟩
      · rw [remaining, if_neg (by simp [hout]), if_pos rfl]
        omega
    · exact Or.inl ⟨_, rfl, le_rfl⟩
  · exact Or.inl ⟨_, rfl, length_left_le l⟩
  · -- a line comment is cut off
    unfold continueLoop
    rw [if_neg (show ¬ (0 : ℤ) ≤ -1 by decide)]
    exact Or.inl ⟨_, rfl, length_left_le l⟩
  · -- a block start in a string
    obtain ⟨hblock, -, hle, hlt, -⟩ := hfound hstart
    unfold continueLoop
    dsimp only
    rw [if_pos (by omega)]
    refine Or.inr ⟨hblock, _, rfl, rfl, ⟨by dsimp only; omega, by dsimp only; omega, Or.inl hseen⟩, ?_⟩
    rw [remaining, if_neg (by simp [hout]), if_neg (by dsimp only; omega)]
    dsimp only
    omega
  · -- a block
    obtain ⟨hblock, -, hle, hlt, -⟩ := hfound hstart
    unfold continueLoop
    dsimp only
    rw [if_pos hstart]
    refine Or.inr ⟨hblock, _, rfl, rfl, ⟨hstart, hlt.le, Or.inl hseen⟩, ?_⟩
    rw [remaining, if_pos rfl]
    omega
  · unfold continueLoop
    rw [if_neg hstart]
    exact Or.inl ⟨_, rfl, le_rfl⟩

/-- The second time, the loop is left. -/
theorem outsideBlock_pending (h : Pending tokens st) :
    outsideBlock tokens st = .ok (.inr (false, st.sLine)) := by
  unfold outsideBlock
  dsimp only
  rw [if_neg h.blockStart, if_neg h.line, h.found, if_pos (Or.inl h.first), h.inString, if_pos rfl,
    if_pos h.seen]

/-- The end of a block makes the line shorter, if it is not empty. -/
theorem inBlock_spec (hruns : Runs tokens st) (hblock : st.bInBlockComment = true)
    (hback : ¬ GoesBack tokens st) :
    (inBlock tokens st).sLine.length ≤ st.sLine.length ∧
      ((inBlock tokens st).bInBlockComment = true ∧ (inBlock tokens st).startpos = -1 ∨
        (inBlock tokens st).bInBlockComment = false ∧ 0 ≤ (inBlock tokens st).startpos ∧
          (inBlock tokens st).oldStartPos = st.oldStartPos ∧
          (tokens.blockEnd ≠ [] → (inBlock tokens st).sLine.length < st.sLine.length)) := by
  have hnonneg := hruns.nonneg
  have hle := hruns.le_length
  unfold inBlock
  dsimp only
  split_ifs with hstring hfound hfound
  · omega
  · exact ⟨length_left_le _, Or.inl ⟨hblock, rfl⟩⟩
  · obtain ⟨-, hinside, -⟩ := find_spec hfound.1
    have hlength : (left st.sLine st.startpos ++
        mid st.sLine (find st.sLine tokens.blockEnd 0 + tokens.blockEnd.length)).length +
          tokens.blockEnd.length ≤ st.sLine.length ∨ (left st.sLine st.startpos ++
        mid st.sLine (find st.sLine tokens.blockEnd 0 + tokens.blockEnd.length)).length <
          st.sLine.length := by
      rw [List.length_append, left, mid, List.length_take, List.length_drop]
      rcases hfound.2 with hbehind | hzero
      · omega
      · have hnot : ¬ (0 < st.startpos ∧ (tokens.blockEnd.length : ℤ) ≤ st.startpos) := fun h =>
          hback ⟨hblock, h.1, h.2, hzero⟩
        omega
    refine ⟨by dsimp only; omega, Or.inr ⟨rfl, hfound.1, rfl, fun hend => ?_⟩⟩
    have hpos := List.length_pos_iff.mpr hend
    dsimp only
    omega
  · exact ⟨length_left_le _, Or.inl ⟨hblock, rfl⟩⟩

/-- Every round leaves the loop, or there is less to do. -/
theorem stripBody_spec (hboth : tokens.blockStart = [] ↔ tokens.blockEnd = [])
    (hruns : Runs tokens st) (hback : ¬ GoesBack tokens st) :
    (∃ a, stripBody tokens st = .ok (.inr a) ∧ a.2.length ≤ st.sLine.length) ∨
      ∃ st', stripBody tokens st = .ok (.inl st') ∧ Runs tokens st' ∧ measure st' < measure st ∧
        st'.sLine.length ≤ st.sLine.length := by
  unfold stripBody
  cases hblock : st.bInBlockComment with
  | false =>
    dsimp only
    rw [if_neg Bool.false_ne_true, hblock, if_neg Bool.false_ne_true]
    rcases hruns.seen with hseen | hpending
    · rcases advances_outsideBlock hblock hseen with hleave | ⟨-, st', hgo, hline, hruns', hlt⟩
      · exact Or.inl hleave
      · refine Or.inr ⟨st', hgo, hruns', ?_, by rw [hline]⟩
        have hne : st.startpos ≠ st.oldStartPos := by
          have hnonneg := hruns.nonneg
          omega
        have hremaining : remaining st = (st.sLine.length - st.startpos).toNat + 2 := by
          rw [remaining, if_neg (by simp [hblock]), if_neg hne]
        rw [measure, measure, hline, hremaining]
        omega
    · exact Or.inl ⟨_, outsideBlock_pending hpending, le_rfl⟩
  | true =>
    dsimp only
    rw [if_pos rfl]
    obtain ⟨hle, hend⟩ := inBlock_spec hruns hblock hback
    rcases hend with ⟨hstill, hleave⟩ | ⟨hout, hnonneg, hseen, hshorter⟩
    · rw [if_pos hstill]
      refine Or.inl ⟨((inBlock tokens st).bInBlockComment, (inBlock tokens st).sLine), ?_, hle⟩
      rw [continueLoop, if_neg (by omega)]
    · rw [if_neg (by simp [hout])]
      have hseen : (inBlock tokens st).oldStartPos = -1 := by
        rcases hruns.seen with h | hpending
        · rw [hseen, h]
        · rw [hpending.outside] at hblock
          exact nomatch hblock
      rcases advances_outsideBlock hout hseen with ⟨a, hleave, hlen⟩ | ⟨hne, st', hgo, hline, hruns', hlt⟩
      · exact Or.inl ⟨a, hleave, hlen.trans hle⟩
      · have hshorter := hshorter (mt hboth.mpr hne)
        refine Or.inr ⟨st', hgo, hruns', ?_, by rw [hline]; exact hle⟩
        have hless : remaining st' < (inBlock tokens st).sLine.length + 2 := by omega
        rw [measure, measure, hline]
        generalize (inBlock tokens st).sLine.length = n at hshorter hless
        have hsquare : (n + 5) ^ 2 ≤ (st.sLine.length + 4) ^ 2 :=
          Nat.pow_le_pow_left (by omega) 2
        have hexpand : (n + 5) ^ 2 = (n + 4) ^ 2 + (2 * n + 9) := by ring
        omega

end Rounds

/-! ### The whole loop -/

/-- The state in front of the loop. -/
def stripStart (sLine : Text) (bInBlockComment : Bool) : StripState where
  sLine := sLine
  bInBlockComment := bInBlockComment

/-- **Stripping comments ends with a line that is no longer**, when no end of a block at position 0 is
taken for a block that starts behind it. -/
theorem stripComments_ends (tokens : CommentTokens)
    (hboth : tokens.blockStart = [] ↔ tokens.blockEnd = []) (sLine : Text) (bInBlockComment : Bool)
    (hback : ∀ st, Relation.ReflTransGen (Goes tokens) (stripStart sLine bInBlockComment) st →
      ¬ GoesBack tokens st) :
    ∃ result, Returns (stripBody tokens) (stripStart sLine bInBlockComment) result ∧
      result.2.length ≤ sLine.length := by
  refine Returns.of_measure (stripBody tokens) (fun st => Runs tokens st ∧
      Relation.ReflTransGen (Goes tokens) (stripStart sLine bInBlockComment) st)
    (fun st result => result.2.length ≤ st.sLine.length) measure ?_
    ⟨⟨le_rfl, Int.natCast_nonneg _, Or.inl rfl⟩, .refl⟩
  rintro st ⟨hruns, hreach⟩
  rcases stripBody_spec hboth hruns (hback st hreach) with hleave | ⟨st', hgo, hruns', hlt, hlen⟩
  · exact Or.inl hleave
  · exact Or.inr ⟨st', hgo, ⟨hruns', hreach.tail hgo⟩, hlt, fun a ha => ha.trans hlen⟩

/-- The tokens of CSS, which has no line comments. -/
def cssTokens : CommentTokens := ⟨[], [47, 42], [42, 47], by decide⟩

theorem isInsideString_eq_false (hquote : findChar s 34 0 = -1) (happ : findChar s 39 0 = -1)
    (pos : ℤ) : IsInsideString s pos = false := by
  unfold IsInsideString
  rw [hquote, happ, countLoop, if_neg (by omega)]
  rfl

/-- The line `a/*b` ends in a block, which has no end. -/
theorem stripComments_ends_open :
    ∃ result, Returns (stripBody cssTokens) (stripStart [97, 47, 42, 98] false) result ∧
      result.2.length ≤ [97, 47, 42, 98].length := by
  have hin : ∀ pos, IsInsideString [97, 47, 42, 98] pos = false :=
    isInsideString_eq_false (by decide) (by decide)
  have hfirst : stripBody cssTokens (stripStart [97, 47, 42, 98] false) =
      .ok (.inl ⟨[97, 47, 42, 98], true, 1, -1⟩) := by
    simp [stripBody, stripStart, outsideBlock, cssTokens, find, position, wcsstr, hin, continueLoop]
  have hsecond : stripBody cssTokens ⟨[97, 47, 42, 98], true, 1, -1⟩ = .ok (.inr (true, [97])) := by
    simp [stripBody, inBlock, cssTokens, find, position, wcsstr, hin, continueLoop, left]
  refine stripComments_ends cssTokens (by decide) [97, 47, 42, 98] false fun st hreach => ?_
  rcases Relation.ReflTransGen.cases_head hreach with rfl | ⟨next, hgo, hrest⟩
  · exact fun hback => Bool.false_ne_true hback.1
  · rw [Goes, hfirst] at hgo
    obtain rfl := Sum.inl.inj (Except.ok.inj hgo)
    rcases Relation.ReflTransGen.cases_head hrest with rfl | ⟨next, hgo, -⟩
    · exact fun hback => absurd hback.2.2.2 (by decide)
    · rw [Goes, hsecond] at hgo
      exact nomatch hgo

/-- The line `*//*` stays as it is for ever. -/
theorem stripComments_end_first : ¬ ∀ (tokens : CommentTokens),
    (tokens.blockStart = [] ↔ tokens.blockEnd = []) → ∀ (sLine : Text) (bInBlockComment : Bool),
      ∃ result, Returns (stripBody tokens) (stripStart sLine bInBlockComment) result ∧
        result.2.length ≤ sLine.length := by
  intro h
  have hin : ∀ pos, IsInsideString [42, 47, 47, 42] pos = false :=
    isInsideString_eq_false (by decide) (by decide)
  have hfirst : stripBody cssTokens (stripStart [42, 47, 47, 42] false) =
      .ok (.inl ⟨[42, 47, 47, 42], true, 2, -1⟩) := by
    simp [stripBody, stripStart, outsideBlock, cssTokens, find, position, wcsstr, hin, continueLoop]
  have hagain : stripBody cssTokens ⟨[42, 47, 47, 42], true, 2, -1⟩ =
      .ok (.inl ⟨[42, 47, 47, 42], true, 2, -1⟩) := by
    simp [stripBody, inBlock, outsideBlock, cssTokens, find, position, wcsstr, hin, continueLoop, left,
      mid]
  have hloop : ∀ fuel, loop (stripBody cssTokens) fuel ⟨[42, 47, 47, 42], true, 2, -1⟩ = none := by
    intro fuel
    induction fuel with
    | zero => rfl
    | succ fuel ih =>
      rw [loop, hagain]
      exact ih
  obtain ⟨result, ⟨fuel, hfuel⟩, -⟩ := h cssTokens (by decide) [42, 47, 47, 42] false
  cases fuel with
  | zero => exact nomatch hfuel
  | succ fuel =>
    rw [loop, hfirst] at hfuel
    exact nomatch (hloop fuel).symm.trans hfuel

end FileText

end TortoiseSvn.Merge
