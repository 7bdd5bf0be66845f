import TortoiseSvn.Merge.DiffData

/-!
# Three-way diffs

`DoThreeWayDiff` builds the three views of a merge. Each hunk adds the same number of rows to all of
them. In hunks that their and your file changed alike, the rows of their view get the line numbers of
the result, where those of the other views get the numbers of their own file.

Main result: `doThreeWayDiff_iff`. The views are always aligned, and they number all lines as in the
files iff in front of each such hunk the result has as many lines as their file.
-/

namespace TortoiseSvn.Merge

open TortoiseSvn.Lib

namespace CDiffData

/-! ### The hunks -/

/-- The positions in the three files that each row was added at.
Source: `DiffData.cpp` `DoThreeWayDiff`, `m_arDiff3LinesBase`, `m_arDiff3LinesYour`,
`m_arDiff3LinesTheir` -/
structure RowLines where
  base : List ℕ := []
  your : List ℕ := []
  their : List ℕ := []

/-- The views, the positions of their rows, and the positions in the files and in the result.
Source: `DiffData.cpp` `DoThreeWayDiff`, the variables -/
structure Merging where
  diff3 : CViewData
  yourBaseBoth : CViewData
  theirBaseBoth : CViewData
  lines : RowLines := {}
  baseline : ℕ := 0
  yourline : ℕ := 0
  theirline : ℕ := 0
  resline : ℕ := 0

/-- A row of a view. -/
def rowOf (sLine : String) (state : DiffStates) (linenumber : ℤ) (ending : EOL) (hide : HideState) :
    Viewdata :=
  { sLine, state, linenumber, ending, hidestate := hide, movedIndex := -1 }

/-- `DIFF_EMPTYLINENUMBER`, as an `int`. Source: `DiffData.h` -/
def emptyLineNumber : ℤ := -1

/-- Source: `DiffData.cpp` `DoThreeWayDiff`, `AddLines` -/
def Merging.addLines (s : Merging) : Merging :=
  { s with
    lines := ⟨s.lines.base ++ [s.baseline], s.lines.your ++ [s.yourline],
      s.lines.their ++ [s.theirline]⟩ }

/-- A row for each view. -/
def Merging.addRows (s : Merging) (bottom right left : Viewdata) : Merging :=
  { s.addLines with
    diff3 := s.diff3.addRow bottom
    yourBaseBoth := s.yourBaseBoth.addRow right
    theirBaseBoth := s.theirBaseBoth.addRow left }

/-- The positions behind a row. -/
def Merging.advance (s : Merging) (base your their res : ℕ) : Merging :=
  { s with
    baseline := s.baseline + base
    yourline := s.yourline + your
    theirline := s.theirline + their
    resline := s.resline + res }

/-- Source: `DiffData.cpp` `DoThreeWayDiff`, `svn_diff__type_common` -/
def addCommonRow (d : CDiffData) (s : Merging) : Merging :=
  match d.arYourFile[s.yourline]?, d.arTheirFile[s.theirline]? with
  | some your, some their =>
    (s.addRows (rowOf your.sLine .normal s.resline your.eEnding .hidden)
      (rowOf your.sLine .normal s.yourline your.eEnding .hidden)
      (rowOf their.sLine .normal s.theirline their.eEnding .hidden)).advance 1 1 1 1
  | _, _ => s

/-- Source: `DiffData.cpp` `DoThreeWayDiff`, `svn_diff__type_diff_common`, the lines of the base -/
def addIdenticalRemoved (d : CDiffData) (s : Merging) : Merging :=
  match d.arBaseFile[s.baseline]? with
  | some base =>
    (s.addRows (rowOf base.sLine .identicalRemoved emptyLineNumber base.eEnding .shown)
      (rowOf base.sLine .identicalRemoved emptyLineNumber .noEnding .shown)
      (rowOf base.sLine .identicalRemoved emptyLineNumber .noEnding .shown)).advance 1 0 0 0
  | none => s

/-- The row of their view gets the line number of the result.
Source: `DiffData.cpp` `DoThreeWayDiff`, `svn_diff__type_diff_common`, the new lines -/
def addIdenticalAdded (d : CDiffData) (s : Merging) : Merging :=
  match d.arYourFile[s.yourline]?, d.arTheirFile[s.theirline]? with
  | some your, some their =>
    (s.addRows (rowOf your.sLine .identicalAdded s.resline your.eEnding .shown)
      (rowOf your.sLine .identicalAdded s.yourline your.eEnding .shown)
      (rowOf their.sLine .identicalAdded s.resline their.eEnding .shown)).advance 0 1 1 1
  | _, _ => s

/-- Source: `DiffData.cpp` `DoThreeWayDiff`, `svn_diff__type_diff_modified`, the lines of the base -/
def addTheirsRemoved (d : CDiffData) (s : Merging) : Merging :=
  match d.arBaseFile[s.baseline]?, d.arYourFile[s.yourline]? with
  | some base, some your =>
    (s.addRows (rowOf base.sLine .theirsRemoved emptyLineNumber base.eEnding .shown)
      (rowOf your.sLine .normal s.yourline your.eEnding .shown)
      (rowOf base.sLine .theirsRemoved emptyLineNumber .noEnding .shown)).advance 1 1 0 0
  | _, _ => s

/-- Source: `DiffData.cpp` `DoThreeWayDiff`, `svn_diff__type_diff_modified`, their lines -/
def addTheirsAdded (d : CDiffData) (s : Merging) : Merging :=
  match d.arTheirFile[s.theirline]? with
  | some their =>
    (s.addRows (rowOf their.sLine .theirsAdded s.resline their.eEnding .shown)
      (rowOf "" .empty (-1) .noEnding .shown)
      (rowOf their.sLine .theirsAdded s.theirline their.eEnding .shown)).advance 0 0 1 1
  | none => s

/-- Source: `DiffData.cpp` `DoThreeWayDiff`, `svn_diff__type_diff_latest`, the lines of the base -/
def addYoursRemoved (d : CDiffData) (s : Merging) : Merging :=
  match d.arBaseFile[s.baseline]?, d.arTheirFile[s.theirline]? with
  | some base, some their =>
    (s.addRows (rowOf base.sLine .yoursRemoved emptyLineNumber base.eEnding .shown)
      (rowOf base.sLine .yoursRemoved emptyLineNumber base.eEnding .shown)
      (rowOf their.sLine .normal s.theirline their.eEnding .hidden)).advance 1 0 1 0
  | _, _ => s

/-- Source: `DiffData.cpp` `DoThreeWayDiff`, `svn_diff__type_diff_latest`, your lines -/
def addYoursAdded (d : CDiffData) (s : Merging) : Merging :=
  match d.arYourFile[s.yourline]? with
  | some your =>
    (s.addRows (rowOf your.sLine .yoursAdded s.resline your.eEnding .shown)
      (rowOf your.sLine .identicalAdded s.yourline your.eEnding .shown)
      (rowOf "" .empty (-1) .noEnding .shown)).advance 0 1 0 1
  | none => s

/-! ### Conflicts -/

/-- The lines that are left of a conflict and of its resolution.
Source: `DiffData.cpp` `DoThreeWayDiff`, the counters of a conflict -/
structure Counters where
  rest : HunkLengths
  resolved : HunkLengths

/-- Source: `DiffData.cpp` `DoThreeWayDiff`, `svn_diff__type_conflict`, the end of both loops -/
def Counters.next (c : Counters) : Counters where
  rest := ⟨c.rest.original - 1, c.rest.modified - 1, c.rest.latest - 1⟩
  resolved := ⟨c.resolved.original - 1, c.resolved.modified - 1, c.resolved.latest - 1⟩

@[inherit_doc Counters.next] def Merging.next (s : Merging) (c : Counters) : Merging :=
  s.advance (if c.rest.original ≠ 0 then 1 else 0) (if c.rest.latest ≠ 0 then 1 else 0)
    (if c.rest.modified ≠ 0 then 1 else 0) 0

/-- `emptyIdenticalRemoved`. Source: `DiffData.cpp` `DoThreeWayDiff` -/
def emptyIdenticalRemoved : Viewdata := rowOf "" .identicalRemoved emptyLineNumber .noEnding .shown

/-- `emptyConflictEmpty`. Source: `DiffData.cpp` `DoThreeWayDiff` -/
def emptyConflictEmpty : Viewdata := rowOf "" .conflictEmpty emptyLineNumber .noEnding .shown

/-- Source: `DiffData.cpp` `DoThreeWayDiff`, `svn_diff__type_conflict`, the first loop -/
def addConflictRemoved (d : CDiffData) (p : Merging × Counters) : Merging × Counters :=
  let s := p.1
  let c := p.2
  let s :=
    if c.rest.original ≠ 0 then
      match d.arBaseFile[s.baseline]? with
      | some base =>
        let row := rowOf base.sLine .identicalRemoved emptyLineNumber base.eEnding .shown
        s.addRows row row row
      | none => s
    else if c.resolved.original ≠ 0 ∨ c.resolved.modified ≠ 0 ∧ c.resolved.latest ≠ 0 then
      let s := { s.addLines with diff3 := s.diff3.addRow emptyIdenticalRemoved }
      if c.resolved.latest ≠ 0 ∧ c.resolved.modified ≠ 0 then
        { s with
          yourBaseBoth := s.yourBaseBoth.addRow emptyIdenticalRemoved
          theirBaseBoth := s.theirBaseBoth.addRow emptyIdenticalRemoved }
      else s
    else s
  (s.next c, c.next)

/-- Source: `DiffData.cpp` `DoThreeWayDiff`, `svn_diff__type_conflict`, the row of the bottom view -/
def addConflicted (c : Counters) (s : Merging) : Merging :=
  if c.rest.latest ≠ 0 ∨ c.rest.modified ≠ 0 then
    { s.addLines with
      diff3 := s.diff3.addRow (rowOf "" .conflicted s.resline .noEnding .shown)
      resline := s.resline + 1 }
  else s

/-- Source: `DiffData.cpp` `DoThreeWayDiff`, `svn_diff__type_conflict`, the row of your view -/
def addYourConflict (d : CDiffData) (c : Counters) (s : Merging) : Merging :=
  if c.rest.latest ≠ 0 then
    match d.arYourFile[s.yourline]? with
    | some your =>
      { s with
        yourBaseBoth := s.yourBaseBoth.addRow
          (rowOf your.sLine .conflictAdded s.yourline your.eEnding .shown) }
    | none => s
  else if c.resolved.latest ≠ 0 ∨ c.rest.modified ≠ 0 ∨ c.resolved.modified ≠ 0 then
    { s with yourBaseBoth := s.yourBaseBoth.addRow emptyConflictEmpty }
  else s

/-- Source: `DiffData.cpp` `DoThreeWayDiff`, `svn_diff__type_conflict`, the row of their view -/
def addTheirConflict (d : CDiffData) (c : Counters) (s : Merging) : Merging :=
  if c.rest.modified ≠ 0 then
    match d.arTheirFile[s.theirline]? with
    | some their =>
      { s with
        theirBaseBoth := s.theirBaseBoth.addRow
          (rowOf their.sLine .conflictAdded s.theirline their.eEnding .shown) }
    | none => s
  else if c.resolved.modified ≠ 0 ∨ c.rest.latest ≠ 0 ∨ c.resolved.latest ≠ 0 then
    { s with theirBaseBoth := s.theirBaseBoth.addRow emptyConflictEmpty }
  else s

/-- Source: `DiffData.cpp` `DoThreeWayDiff`, `svn_diff__type_conflict`, the second loop -/
def addConflictAdded (d : CDiffData) (p : Merging × Counters) : Merging × Counters :=
  ((d.addTheirConflict p.2 (d.addYourConflict p.2 (addConflicted p.2 p.1))).next p.2, p.2.next)

/-- The counters at the beginning of both loops. -/
def countersOf (hunk : SvnDiff) : Counters :=
  ⟨hunk.toHunkLengths, hunk.resolvedDiff.getD ⟨0, 0, 0⟩⟩

/-- The positions go back to the beginning of the conflict before the second loop.
Source: `DiffData.cpp` `DoThreeWayDiff`, `svn_diff__type_conflict` -/
def addConflict (d : CDiffData) (s : Merging) (hunk : SvnDiff) : Merging :=
  let length := max hunk.latest (max hunk.original hunk.modified)
  let removed := (d.addConflictRemoved^[length] (s, countersOf hunk)).1
  let start := { removed with
    baseline := s.baseline, yourline := s.yourline, theirline := s.theirline }
  (d.addConflictAdded^[length] (start, countersOf hunk)).1

/-- Source: `DiffData.cpp` `DoThreeWayDiff`, the loop over the hunks -/
def threeWayHunk (d : CDiffData) (s : Merging) (hunk : SvnDiff) : Merging :=
  match hunk.type with
  | .common => d.addCommonRow^[hunk.original] s
  | .diffCommon =>
    d.addIdenticalAdded^[hunk.modified] (d.addIdenticalRemoved^[hunk.original] s)
  | .conflict => d.addConflict s hunk
  | .diffModified => d.addTheirsAdded^[hunk.modified] (d.addTheirsRemoved^[hunk.original] s)
  | .diffLatest => d.addYoursAdded^[hunk.latest] (d.addYoursRemoved^[hunk.original] s)

/-! ### Missed conflicts -/

/-- The three lines differ in `f`. -/
def allDiffer {α : Type} [DecidableEq α] (f : CFileTextLine → α) (your their base : CFileTextLine) :
    Bool :=
  f your ≠ f base ∧ f their ≠ f base ∧ f your ≠ f their

/-- The state of lines that neither side marks as changed.
Source: `DiffData.cpp` `DoThreeWayDiff`, the conflict re-check -/
def isUnmarked (state : DiffStates) : Bool := state = .identicalAdded ∨ state = .normal

/-- Source: `DiffData.cpp` `DoThreeWayDiff`, the conflict re-check of row `i` -/
def recheckRow (d : CDiffData) (i : ℕ) (s : Merging) : Except DiffFailure Merging := do
  let state1 ← orUndefined (s.yourBaseBoth.getState i)
  let state2 ← orUndefined (s.theirBaseBoth.getState i)
  if isUnmarked state1 ∧ isUnmarked state2 then
    let lineyour ← orUndefined s.lines.your[i]?
    let linetheir ← orUndefined s.lines.their[i]?
    let linebase ← orUndefined s.lines.base[i]?
    match d.arYourFile[lineyour]?, d.arTheirFile[linetheir]?, d.arBaseFile[linebase]? with
    | some your, some their, some base =>
      if allDiffer CFileTextLine.eEnding your their base ∨
          allDiffer CFileTextLine.sLine your their base then
        let diff3 ← orUndefined (s.diff3.setState i .conflictedIgnored)
        let yourBaseBoth ← orUndefined (s.yourBaseBoth.setState i .conflictAdded)
        let theirBaseBoth ← orUndefined (s.theirBaseBoth.setState i .conflictAdded)
        return { s with
          diff3 := diff3, yourBaseBoth := yourBaseBoth, theirBaseBoth := theirBaseBoth }
      else return s
    | _, _, _ => return s
  else return s

/-- Lines that differ may have been compared as equal.
Source: `DiffData.cpp` `DoThreeWayDiff`, the condition of the conflict re-check -/
def ignoresDifferences (o : DiffOptions) : Bool :=
  o.dwIgnoreWS = 1 ∨ o.dwIgnoreWS = 2 ∨ o.bIgnoreCase ∨ o.bIgnoreEOL ∨ o.bIgnoreComments ∨ ¬ o.rxEmpty

/-- The positions of the rows are returned for reference.
Source: `DiffData.cpp` `DoThreeWayDiff` -/
def doThreeWayDiff (d : CDiffData) (hunks : List SvnDiff) :
    Except DiffFailure (CDiffData × RowLines) := do
  let s := hunks.foldl d.threeWayHunk
    { diff3 := d.diff3, yourBaseBoth := d.yourBaseBoth, theirBaseBoth := d.theirBaseBoth }
  let s ← rounds d.recheckRow 0 (if ignoresDifferences d.options then s.diff3.data.length else 0) s
  let views ← hideUnchangedSections d.options.contextLines
    [s.diff3, s.yourBaseBoth, s.theirBaseBoth]
  return ({ d with
    diff3 := views.headD {}
    yourBaseBoth := views.tail.headD {}
    theirBaseBoth := views.tail.tail.headD {} }, s.lines)

/-! ### Rows -/

/-- A row carries a line number. -/
def hasNumber (row : Viewdata) : Bool := row.linenumber ≠ -1

/-- All views have as many rows, each with its positions, and the numbered rows of your view are the
first `y` lines of your file. -/
structure Aligned (d : CDiffData) (s : Merging) (y : ℕ) : Prop where
  yourRows : s.yourBaseBoth.data.length = s.diff3.data.length
  theirRows : s.theirBaseBoth.data.length = s.diff3.data.length
  base : s.lines.base.length = s.diff3.data.length
  your : s.lines.your.length = s.diff3.data.length
  their : s.lines.their.length = s.diff3.data.length
  yours : s.yourBaseBoth.linesWhere hasNumber = numbered d.arYourFile y

/-- The numbered rows of their view are the first `t` lines of their file. -/
def TheirsRight (d : CDiffData) (s : Merging) (t : ℕ) : Prop :=
  s.theirBaseBoth.linesWhere hasNumber = numbered d.arTheirFile t

section Rows

variable {d : CDiffData} {s : Merging} {y t : ℕ}

theorem hasNumber_coe (sLine : String) (state : DiffStates) (n : ℕ) (ending : EOL)
    (hide : HideState) : hasNumber (rowOf sLine state n ending hide) = true := by
  unfold hasNumber rowOf
  apply decide_eq_true
  dsimp only
  omega

/-- A row with the next line of a file. -/
theorem takes_line {file : CFileTextLines} {n : ℕ} {line : CFileTextLine}
    (h : file[n]? = some line) (state : DiffStates) (ending : EOL) (hide : HideState) :
    Takes hasNumber file (rowOf line.sLine state n ending hide) n (n + 1) :=
  .line (hasNumber_coe _ _ _ _ _) h rfl rfl

/-- A row without a line. -/
theorem takes_skip (file : CFileTextLines) (n : ℕ) (sLine : String) (state : DiffStates)
    (ending : EOL) (hide : HideState) :
    Takes hasNumber file (rowOf sLine state emptyLineNumber ending hide) n n := .skip rfl

theorem Aligned.addRows (h : d.Aligned s y) {bottom right left : Viewdata} {y' : ℕ}
    (hright : Takes hasNumber d.arYourFile right y y') :
    d.Aligned (s.addRows bottom right left) y' where
  yourRows := by
    show (s.yourBaseBoth.data ++ [right]).length = (s.diff3.data ++ [bottom]).length
    rw [List.length_append, List.length_append, h.yourRows]
    rfl
  theirRows := by
    show (s.theirBaseBoth.data ++ [left]).length = (s.diff3.data ++ [bottom]).length
    rw [List.length_append, List.length_append, h.theirRows]
    rfl
  base := by
    show (s.lines.base ++ [s.baseline]).length = (s.diff3.data ++ [bottom]).length
    rw [List.length_append, List.length_append, h.base]
    rfl
  your := by
    show (s.lines.your ++ [s.yourline]).length = (s.diff3.data ++ [bottom]).length
    rw [List.length_append, List.length_append, h.your]
    rfl
  their := by
    show (s.lines.their ++ [s.theirline]).length = (s.diff3.data ++ [bottom]).length
    rw [List.length_append, List.length_append, h.their]
    rfl
  yours := hright.linesWhere h.yours

theorem Aligned.advance (h : d.Aligned s y) (b u v r : ℕ) : d.Aligned (s.advance b u v r) y :=
  ⟨h.yourRows, h.theirRows, h.base, h.your, h.their, h.yours⟩

theorem Aligned.goBack (h : d.Aligned s y) (b u v : ℕ) :
    d.Aligned { s with baseline := b, yourline := u, theirline := v } y :=
  ⟨h.yourRows, h.theirRows, h.base, h.your, h.their, h.yours⟩

theorem theirsRight_addRows (bottom right : Viewdata) {left : Viewdata} {t' : ℕ}
    (hleft : Takes hasNumber d.arTheirFile left t t') :
    d.TheirsRight (s.addRows bottom right left) t' ↔ d.TheirsRight s t :=
  hleft.linesWhere_iff s.theirBaseBoth

/-- A row with the next of their lines under another number. -/
theorem theirsRight_addRows_number (bottom right : Viewdata) {line : CFileTextLine} {n : ℕ}
    (h : d.arTheirFile[t]? = some line) (state : DiffStates) (ending : EOL) (hide : HideState) :
    d.TheirsRight (s.addRows bottom right (rowOf line.sLine state n ending hide)) (t + 1) ↔
      d.TheirsRight s t ∧ n = t := by
  unfold TheirsRight Merging.addRows
  dsimp only
  rw [CViewData.linesWhere_addRow, if_pos (hasNumber_coe _ _ _ _ _), numbered_succ h]
  constructor
  · intro heq
    obtain ⟨hinit, hlast⟩ := List.append_inj' heq rfl
    have hnumber := (Prod.mk.inj (List.cons.inj hlast).1).2
    exact ⟨hinit, Int.ofNat_inj.mp hnumber⟩
  · rintro ⟨hinit, rfl⟩
    rw [hinit]
    rfl

end Rows

/-! ### The rounds of the hunks -/

/-- What a loop did: the positions went ahead, and rows were added to all views. `p` says whether
their rows still have the right numbers, if they had them before. -/
structure Went (d : CDiffData) (s s' : Merging) (b y t r : ℕ) (p : Prop) : Prop where
  baseline : s'.baseline = s.baseline + b
  yourline : s'.yourline = s.yourline + y
  theirline : s'.theirline = s.theirline + t
  resline : s'.resline = s.resline + r
  aligned : d.Aligned s s.yourline → d.Aligned s' s'.yourline
  theirs : d.TheirsRight s' s'.theirline ↔ d.TheirsRight s s.theirline ∧ p

section Went

variable {d : CDiffData} {s s₁ s₂ : Merging} {b y t r : ℕ}

theorem Went.refl (d : CDiffData) (s : Merging) : d.Went s s 0 0 0 0 True :=
  ⟨rfl, rfl, rfl, rfl, id, (and_iff_left trivial).symm⟩

theorem Went.trans {b' y' t' r' : ℕ} {p p' : Prop} (h : d.Went s s₁ b y t r p)
    (h' : d.Went s₁ s₂ b' y' t' r' p') :
    d.Went s s₂ (b + b') (y + y') (t + t') (r + r') (p ∧ p') where
  baseline := by rw [h'.baseline, h.baseline, Nat.add_assoc]
  yourline := by rw [h'.yourline, h.yourline, Nat.add_assoc]
  theirline := by rw [h'.theirline, h.theirline, Nat.add_assoc]
  resline := by rw [h'.resline, h.resline, Nat.add_assoc]
  aligned := h'.aligned ∘ h.aligned
  theirs := by rw [h'.theirs, h.theirs, and_assoc]

theorem Went.congr {p p' : Prop} (h : d.Went s s₁ b y t r p) (hp : p ↔ p') :
    d.Went s s₁ b y t r p' :=
  { h with theirs := by rw [h.theirs, hp] }

/-- A row of each view. -/
theorem went_addRows {bottom right left : Viewdata} (b : ℕ) {y t : ℕ} (r : ℕ)
    (hright : Takes hasNumber d.arYourFile right s.yourline (s.yourline + y))
    (hleft : Takes hasNumber d.arTheirFile left s.theirline (s.theirline + t)) :
    d.Went s ((s.addRows bottom right left).advance b y t r) b y t r True where
  baseline := rfl
  yourline := rfl
  theirline := rfl
  resline := rfl
  aligned := fun h => (h.addRows hright).advance b y t r
  theirs := (theirsRight_addRows bottom right hleft).trans (and_iff_left trivial).symm

/-- A row of each view, theirs with another number. -/
theorem went_addRows_number {bottom right : Viewdata} {line : CFileTextLine} {n y : ℕ} (r : ℕ)
    (hright : Takes hasNumber d.arYourFile right s.yourline (s.yourline + y))
    (h : d.arTheirFile[s.theirline]? = some line) (state : DiffStates) (ending : EOL)
    (hide : HideState) :
    d.Went s ((s.addRows bottom right (rowOf line.sLine state n ending hide)).advance 0 y 1 r)
      0 y 1 r (n = s.theirline) where
  baseline := rfl
  yourline := rfl
  theirline := rfl
  resline := rfl
  aligned := fun ha => (ha.addRows hright).advance 0 y 1 r
  theirs := theirsRight_addRows_number bottom right h state ending hide

/-- A loop whose rounds go ahead alike. -/
theorem went_iterate {f : Merging → Merging} {n : ℕ}
    (hf : ∀ s', s'.baseline + b ≤ s.baseline + n * b → s'.yourline + y ≤ s.yourline + n * y →
      s'.theirline + t ≤ s.theirline + n * t → d.Went s' (f s') b y t r True) :
    d.Went s (f^[n] s) (n * b) (n * y) (n * t) (n * r) True := by
  have hloop := @iterate_inv _ f
    (fun i s' => d.Went s s' (i * b) (i * y) (i * t) (i * r) True) n
    (fun i s' hi h => by
      have hle : ∀ k, i * k + k ≤ n * k := by
        intro k
        rw [← Nat.succ_mul]
        exact Nat.mul_le_mul_right k hi
      have hround := hf s'
        (by rw [h.baseline, Nat.add_assoc]; exact Nat.add_le_add_left (hle b) _)
        (by rw [h.yourline, Nat.add_assoc]; exact Nat.add_le_add_left (hle y) _)
        (by rw [h.theirline, Nat.add_assoc]; exact Nat.add_le_add_left (hle t) _)
      have htwo := (h.trans hround).congr (and_iff_left trivial)
      rwa [← Nat.succ_mul, ← Nat.succ_mul, ← Nat.succ_mul, ← Nat.succ_mul] at htwo)
    s (by
      rw [Nat.zero_mul, Nat.zero_mul, Nat.zero_mul, Nat.zero_mul]
      exact .refl d s)
  exact hloop

/-- Positions go ahead without a row. -/
theorem went_advance (d : CDiffData) (s : Merging) (b : ℕ) :
    d.Went s (s.advance b 0 0 0) b 0 0 0 True :=
  ⟨rfl, rfl, rfl, rfl, fun h => h.advance b 0 0 0, (and_iff_left trivial).symm⟩

theorem addCommonRow_went (hy : s.yourline < d.arYourFile.length)
    (ht : s.theirline < d.arTheirFile.length) : d.Went s (d.addCommonRow s) 1 1 1 1 True := by
  have hyour := List.getElem?_eq_getElem hy
  have htheir := List.getElem?_eq_getElem ht
  unfold addCommonRow
  rw [hyour, htheir]
  exact went_addRows 1 1 (takes_line hyour _ _ _) (takes_line htheir _ _ _)

theorem addIdenticalRemoved_went (hb : s.baseline < d.arBaseFile.length) :
    d.Went s (d.addIdenticalRemoved s) 1 0 0 0 True := by
  unfold addIdenticalRemoved
  rw [List.getElem?_eq_getElem hb]
  exact went_addRows 1 0 (takes_skip _ _ _ _ _ _) (takes_skip _ _ _ _ _ _)

/-- Their row gets the right number iff the result is as long as their file. -/
theorem addIdenticalAdded_went (hy : s.yourline < d.arYourFile.length)
    (ht : s.theirline < d.arTheirFile.length) :
    d.Went s (d.addIdenticalAdded s) 0 1 1 1 (s.resline = s.theirline) := by
  have hyour := List.getElem?_eq_getElem hy
  have htheir := List.getElem?_eq_getElem ht
  unfold addIdenticalAdded
  rw [hyour, htheir]
  exact went_addRows_number 1 (takes_line hyour _ _ _) htheir _ _ _

theorem addTheirsRemoved_went (hb : s.baseline < d.arBaseFile.length)
    (hy : s.yourline < d.arYourFile.length) : d.Went s (d.addTheirsRemoved s) 1 1 0 0 True := by
  have hyour := List.getElem?_eq_getElem hy
  unfold addTheirsRemoved
  rw [List.getElem?_eq_getElem hb, hyour]
  exact went_addRows 1 0 (takes_line hyour _ _ _) (takes_skip _ _ _ _ _ _)

theorem addTheirsAdded_went (ht : s.theirline < d.arTheirFile.length) :
    d.Went s (d.addTheirsAdded s) 0 0 1 1 True := by
  have htheir := List.getElem?_eq_getElem ht
  unfold addTheirsAdded
  rw [htheir]
  exact went_addRows 0 1 (takes_skip _ _ _ _ _ _) (takes_line htheir _ _ _)

theorem addYoursRemoved_went (hb : s.baseline < d.arBaseFile.length)
    (ht : s.theirline < d.arTheirFile.length) : d.Went s (d.addYoursRemoved s) 1 0 1 0 True := by
  have htheir := List.getElem?_eq_getElem ht
  unfold addYoursRemoved
  rw [List.getElem?_eq_getElem hb, htheir]
  exact went_addRows 1 0 (takes_skip _ _ _ _ _ _) (takes_line htheir _ _ _)

theorem addYoursAdded_went (hy : s.yourline < d.arYourFile.length) :
    d.Went s (d.addYoursAdded s) 0 1 0 1 True := by
  have hyour := List.getElem?_eq_getElem hy
  unfold addYoursAdded
  rw [hyour]
  exact went_addRows 0 1 (takes_line hyour _ _ _) (takes_skip _ _ _ _ _ _)

/-- The lines that their and your file have in common. -/
theorem addIdenticalAdded_iterate {n : ℕ} (hy : s.yourline + n ≤ d.arYourFile.length)
    (ht : s.theirline + n ≤ d.arTheirFile.length) :
    d.Went s (d.addIdenticalAdded^[n] s) 0 n n n (n ≠ 0 → s.resline = s.theirline) := by
  have hloop := @iterate_inv _ d.addIdenticalAdded
    (fun i s' => d.Went s s' 0 i i i (i ≠ 0 → s.resline = s.theirline)) n
    (fun i s' hi h => by
      have hyour := h.yourline
      have htheir := h.theirline
      have hres := h.resline
      refine (h.trans (addIdenticalAdded_went (by omega) (by omega))).congr ?_
      omega)
    s ((Went.refl d s).congr (by simp))
  exact hloop

/-! ### The rounds of a conflict -/

/-- The counters after `i` rounds. -/
def Counters.after (c : Counters) (i : ℕ) : Counters where
  rest := ⟨c.rest.original - i, c.rest.modified - i, c.rest.latest - i⟩
  resolved := ⟨c.resolved.original - i, c.resolved.modified - i, c.resolved.latest - i⟩

/-- The resolution of a conflict is not longer than the conflict. -/
structure Counters.Within (c : Counters) : Prop where
  original : c.resolved.original ≤ c.rest.original
  modified : c.resolved.modified ≤ c.rest.modified
  latest : c.resolved.latest ≤ c.rest.latest

theorem Counters.Within.after {c : Counters} (h : c.Within) (i : ℕ) : (c.after i).Within where
  original := Nat.sub_le_sub_right h.original i
  modified := Nat.sub_le_sub_right h.modified i
  latest := Nat.sub_le_sub_right h.latest i

/-- The first loop adds rows without numbers to all views. -/
theorem addConflictRemoved_ok {c : Counters} (hc : c.Within)
    (hb : c.rest.original ≠ 0 → s.baseline < d.arBaseFile.length) :
    ∃ s', d.addConflictRemoved (s, c) = (s', c.next) ∧
      s'.baseline = s.baseline + (if c.rest.original ≠ 0 then 1 else 0) ∧ s'.resline = s.resline ∧
      (∀ y, d.Aligned s y → d.Aligned s' y) ∧ ∀ t, d.TheirsRight s' t ↔ d.TheirsRight s t := by
  have hrow : ∀ sLine ending (s' : Merging),
      let row := rowOf sLine .identicalRemoved emptyLineNumber ending .shown
      s' = (s.addRows row row row).next c → (∀ y, d.Aligned s y → d.Aligned s' y) ∧
        ∀ t, d.TheirsRight s' t ↔ d.TheirsRight s t := by
    rintro sLine ending _ row rfl
    exact ⟨fun y h => (h.addRows (takes_skip _ _ _ _ _ _)).advance _ _ _ _,
      fun t => theirsRight_addRows row row (takes_skip _ _ _ _ _ _)⟩
  unfold addConflictRemoved
  dsimp only
  by_cases horiginal : c.rest.original ≠ 0
  · rw [if_pos horiginal, List.getElem?_eq_getElem (hb horiginal)]
    exact ⟨_, rfl, rfl, rfl, hrow _ _ _ rfl⟩
  · have hresolved : c.resolved.original = 0 := Nat.le_zero.mp (not_not.mp horiginal ▸ hc.original)
    rw [if_neg horiginal]
    by_cases hboth : c.resolved.modified ≠ 0 ∧ c.resolved.latest ≠ 0
    · rw [if_pos (.inr hboth), if_pos hboth.symm]
      exact ⟨_, rfl, rfl, rfl, hrow "" .noEnding _ rfl⟩
    · rw [if_neg (not_or.mpr ⟨not_not.mpr hresolved, hboth⟩)]
      exact ⟨_, rfl, rfl, rfl, fun y h => h.advance _ _ _ _, fun t => Iff.rfl⟩

/-- The second loop adds a row to all views as long as one side has a line left. -/
theorem addConflictAdded_went {c : Counters} (hc : c.Within)
    (hy : c.rest.latest ≠ 0 → s.yourline < d.arYourFile.length)
    (ht : c.rest.modified ≠ 0 → s.theirline < d.arTheirFile.length) :
    d.Went s (d.addConflictAdded (s, c)).1 (if c.rest.original ≠ 0 then 1 else 0)
      (if c.rest.latest ≠ 0 then 1 else 0) (if c.rest.modified ≠ 0 then 1 else 0)
      (if c.rest.latest ≠ 0 ∨ c.rest.modified ≠ 0 then 1 else 0) True := by
  have hrow : ∀ right left (s' : Merging) {y t : ℕ},
      Takes hasNumber d.arYourFile right s.yourline (s.yourline + y) →
      Takes hasNumber d.arTheirFile left s.theirline (s.theirline + t) →
      s' = (s.addRows (rowOf "" .conflicted s.resline .noEnding .shown) right left).advance
        (if c.rest.original ≠ 0 then 1 else 0) y t 1 →
      d.Went s s' (if c.rest.original ≠ 0 then 1 else 0) y t 1 True := by
    rintro right left _ y t hright hleft rfl
    exact went_addRows _ _ hright hleft
  unfold addConflictAdded addTheirConflict addYourConflict addConflicted Merging.next
  dsimp only
  by_cases hlatest : c.rest.latest ≠ 0
  · have hyour := List.getElem?_eq_getElem (hy hlatest)
    rw [if_pos hlatest, if_pos hlatest, if_pos (Or.inl hlatest), if_pos (Or.inl hlatest)]
    by_cases hmodified : c.rest.modified ≠ 0
    · have htheir := List.getElem?_eq_getElem (ht hmodified)
      rw [if_pos hmodified, if_pos hmodified]
      dsimp only [Merging.addLines]
      rw [hyour]
      dsimp only
      rw [htheir]
      exact hrow _ _ _ (takes_line hyour _ _ _) (takes_line htheir _ _ _) rfl
    · rw [if_neg hmodified, if_neg hmodified, if_pos (Or.inr (Or.inl hlatest))]
      dsimp only [Merging.addLines]
      rw [hyour]
      exact hrow _ _ _ (takes_line hyour _ _ _) (takes_skip _ _ _ _ _ _) rfl
  · have hlatest' : c.resolved.latest = 0 := Nat.le_zero.mp (not_not.mp hlatest ▸ hc.latest)
    rw [if_neg hlatest, if_neg hlatest]
    by_cases hmodified : c.rest.modified ≠ 0
    · have htheir := List.getElem?_eq_getElem (ht hmodified)
      rw [if_pos hmodified, if_pos hmodified, if_pos (Or.inr hmodified), if_pos (Or.inr hmodified),
        if_pos (Or.inr (Or.inl hmodified))]
      dsimp only [Merging.addLines]
      rw [htheir]
      exact hrow _ _ _ (takes_skip _ _ _ _ _ _) (takes_line htheir _ _ _) rfl
    · have hmodified' : c.resolved.modified = 0 :=
        Nat.le_zero.mp (not_not.mp hmodified ▸ hc.modified)
      rw [if_neg hmodified, if_neg hmodified, if_neg (not_or.mpr ⟨hlatest, hmodified⟩),
        if_neg (not_or.mpr ⟨hlatest, hmodified⟩), if_neg (by omega), if_neg (by omega)]
      exact went_advance d s _

/-- A conflict has a row for each line of the longer side. -/
theorem addConflict_went {hunk : SvnDiff} (hc : (countersOf hunk).Within)
    (hb : s.baseline + hunk.original ≤ d.arBaseFile.length)
    (hy : s.yourline + hunk.latest ≤ d.arYourFile.length)
    (ht : s.theirline + hunk.modified ≤ d.arTheirFile.length) :
    d.Went s (d.addConflict s hunk) hunk.original hunk.latest hunk.modified
      (max hunk.latest hunk.modified) True := by
  have hmin : ∀ i k : ℕ, min (i + 1) k = min i k + if k - i ≠ 0 then 1 else 0 := by
    intro i k
    split <;> omega
  -- the first loop
  obtain ⟨removed, hremoved, -, hres, haligned, htheirs⟩ := @iterate_inv _ d.addConflictRemoved
    (fun i p => ∃ s', p = (s', (countersOf hunk).after i) ∧
      s'.baseline = s.baseline + min i hunk.original ∧ s'.resline = s.resline ∧
      (∀ y, d.Aligned s y → d.Aligned s' y) ∧ ∀ t, d.TheirsRight s' t ↔ d.TheirsRight s t)
    (max hunk.latest (max hunk.original hunk.modified))
    (by
      rintro i _ - ⟨s', rfl, hbase, hres, haligned, htheirs⟩
      obtain ⟨s₂, hrun, hbase₂, hres₂, haligned₂, htheirs₂⟩ :=
        @addConflictRemoved_ok d s' ((countersOf hunk).after i) (hc.after i) (by
          intro hne
          have hne' : hunk.original - i ≠ 0 := hne
          omega)
      refine ⟨s₂, hrun, ?_, hres₂.trans hres, fun y h => haligned₂ y (haligned y h),
        fun t => (htheirs₂ t).trans (htheirs t)⟩
      rw [hbase₂, hbase, hmin, Nat.add_assoc]
      rfl)
    (s, countersOf hunk)
    ⟨s, rfl, by rw [Nat.zero_min]; rfl, rfl, fun _ h => h, fun _ => Iff.rfl⟩
  -- the second loop
  have hloop := @iterate_inv _ d.addConflictAdded
    (fun i p => p.2 = (countersOf hunk).after i ∧
      d.Went s p.1 (min i hunk.original) (min i hunk.latest) (min i hunk.modified)
        (min i (max hunk.latest hunk.modified)) True)
    (max hunk.latest (max hunk.original hunk.modified))
    (by
      rintro i ⟨s', c⟩ - ⟨hcounters, hwent⟩
      obtain rfl : c = (countersOf hunk).after i := hcounters
      have hyour : s'.yourline = s.yourline + min i hunk.latest := hwent.yourline
      have htheir : s'.theirline = s.theirline + min i hunk.modified := hwent.theirline
      have hround := @addConflictAdded_went d s' ((countersOf hunk).after i) (hc.after i)
        (by
          intro hne
          have hne' : hunk.latest - i ≠ 0 := hne
          omega)
        (by
          intro hne
          have hne' : hunk.modified - i ≠ 0 := hne
          omega)
      refine ⟨rfl, ?_⟩
      have hboth := (hwent.trans hround).congr (and_iff_left trivial)
      rw [hmin, hmin, hmin, hmin]
      have hor : (hunk.latest - i ≠ 0 ∨ hunk.modified - i ≠ 0) ↔
          max hunk.latest hunk.modified - i ≠ 0 := by omega
      rw [← if_congr hor rfl rfl]
      exact hboth)
    ({ removed with baseline := s.baseline, yourline := s.yourline, theirline := s.theirline },
      countersOf hunk)
    ⟨rfl, by
      rw [Nat.zero_min, Nat.zero_min, Nat.zero_min, Nat.zero_min]
      exact ⟨rfl, rfl, rfl, hres, fun h => (haligned _ h).goBack _ _ _,
        (htheirs _).trans (and_iff_left trivial).symm⟩⟩
  have hwent := hloop.2
  rw [min_eq_right (by omega), min_eq_right (by omega), min_eq_right (by omega),
    min_eq_right (by omega)] at hwent
  unfold addConflict
  dsimp only
  rw [hremoved]
  exact hwent

end Went

/-! ### All hunks -/

/-- The lengths of a hunk of a three-way diff. -/
def IsThreeWay (hunk : SvnDiff) : Prop :=
  match hunk.type with
  | .common => hunk.original = hunk.modified ∧ hunk.modified = hunk.latest
  | .diffCommon => hunk.modified = hunk.latest
  | .diffModified => hunk.original = hunk.latest
  | .diffLatest => hunk.original = hunk.modified
  | .conflict => (countersOf hunk).Within

/-- The hunks partition the three files. -/
structure Partitions (d : CDiffData) (hunks : List SvnDiff) : Prop where
  types : ∀ hunk ∈ hunks, IsThreeWay hunk
  base : (hunks.map fun hunk => hunk.original).sum = d.arBaseFile.length
  their : (hunks.map fun hunk => hunk.modified).sum = d.arTheirFile.length
  your : (hunks.map fun hunk => hunk.latest).sum = d.arYourFile.length

/-- The lines of a hunk in the result. -/
def resLength (hunk : SvnDiff) : ℕ :=
  match hunk.type with
  | .common => hunk.original
  | .diffCommon => hunk.modified
  | .diffModified => hunk.modified
  | .diffLatest => hunk.latest
  | .conflict => max hunk.latest hunk.modified

/-- In front of new lines that both sides have in common, the result has as many lines as their file,
from position `t` in their file and position `r` in the result on. -/
def InStep : List SvnDiff → ℕ → ℕ → Prop
  | [], _, _ => True
  | hunk :: hunks, t, r =>
    (hunk.type = .diffCommon → hunk.modified ≠ 0 → r = t) ∧
      InStep hunks (t + hunk.modified) (r + resLength hunk)

section Hunks

variable {d : CDiffData} {s : Merging}

theorem threeWayHunk_went {hunk : SvnDiff} (htype : IsThreeWay hunk)
    (hb : s.baseline + hunk.original ≤ d.arBaseFile.length)
    (hy : s.yourline + hunk.latest ≤ d.arYourFile.length)
    (ht : s.theirline + hunk.modified ≤ d.arTheirFile.length) :
    d.Went s (d.threeWayHunk s hunk) hunk.original hunk.latest hunk.modified (resLength hunk)
      (hunk.type = .diffCommon → hunk.modified ≠ 0 → s.resline = s.theirline) := by
  unfold IsThreeWay at htype
  unfold threeWayHunk resLength
  revert htype
  cases hunk.type with
  | common =>
    rintro ⟨hmodified, hlatest⟩
    have h := @went_iterate d s 1 1 1 1 d.addCommonRow hunk.original
      fun s' _ hyour htheir => addCommonRow_went (by omega) (by omega)
    rw [Nat.mul_one] at h
    dsimp only
    rw [← hlatest, ← hmodified]
    exact h.congr (iff_of_true trivial fun hne => absurd hne DiffType.noConfusion)
  | diffCommon =>
    intro htype
    have hremoved := @went_iterate d s 1 0 0 0 d.addIdenticalRemoved hunk.original
      fun s' hbase _ _ => addIdenticalRemoved_went (by omega)
    rw [Nat.mul_one, Nat.mul_zero] at hremoved
    have hyour := hremoved.yourline
    have htheir := hremoved.theirline
    have hadded := @addIdenticalAdded_iterate d (d.addIdenticalRemoved^[hunk.original] s)
      hunk.modified (by rw [hyour, htype]; exact hy) (by rw [htheir]; exact ht)
    rw [hremoved.resline, htheir] at hadded
    have hboth := hremoved.trans hadded
    rw [Nat.add_zero, Nat.zero_add] at hboth
    dsimp only
    rw [← htype]
    exact hboth.congr ⟨fun h _ => h.2, fun h => ⟨trivial, h rfl⟩⟩
  | diffModified =>
    intro htype
    have hremoved := @went_iterate d s 1 1 0 0 d.addTheirsRemoved hunk.original
      fun s' hbase hyour _ => addTheirsRemoved_went (by omega) (by omega)
    rw [Nat.mul_one, Nat.mul_zero] at hremoved
    have htheir := hremoved.theirline
    have hadded := @went_iterate d (d.addTheirsRemoved^[hunk.original] s) 0 0 1 1 d.addTheirsAdded
      hunk.modified fun s' _ _ hlt => addTheirsAdded_went (by omega)
    rw [Nat.mul_one, Nat.mul_zero] at hadded
    have hboth := hremoved.trans hadded
    rw [Nat.add_zero, Nat.zero_add] at hboth
    dsimp only
    rw [← htype]
    exact hboth.congr (iff_of_true ⟨trivial, trivial⟩ fun hne => absurd hne DiffType.noConfusion)
  | diffLatest =>
    intro htype
    have hremoved := @went_iterate d s 1 0 1 0 d.addYoursRemoved hunk.original
      fun s' hbase _ htheir => addYoursRemoved_went (by omega) (by omega)
    rw [Nat.mul_one, Nat.mul_zero] at hremoved
    have hyour := hremoved.yourline
    have hadded := @went_iterate d (d.addYoursRemoved^[hunk.original] s) 0 1 0 1 d.addYoursAdded
      hunk.latest fun s' _ hlt _ => addYoursAdded_went (by omega)
    rw [Nat.mul_one, Nat.mul_zero] at hadded
    have hboth := hremoved.trans hadded
    rw [Nat.add_zero, Nat.zero_add] at hboth
    dsimp only
    rw [← htype]
    exact hboth.congr (iff_of_true ⟨trivial, trivial⟩ fun hne => absurd hne DiffType.noConfusion)
  | conflict =>
    intro htype
    exact (addConflict_went htype hb hy ht).congr
      (iff_of_true trivial fun hne => absurd hne DiffType.noConfusion)

theorem threeWayHunks_went {hunks : List SvnDiff} (htypes : ∀ hunk ∈ hunks, IsThreeWay hunk)
    (hb : s.baseline + (hunks.map fun hunk => hunk.original).sum ≤ d.arBaseFile.length)
    (hy : s.yourline + (hunks.map fun hunk => hunk.latest).sum ≤ d.arYourFile.length)
    (ht : s.theirline + (hunks.map fun hunk => hunk.modified).sum ≤ d.arTheirFile.length) :
    d.Went s (hunks.foldl d.threeWayHunk s) (hunks.map fun hunk => hunk.original).sum
      (hunks.map fun hunk => hunk.latest).sum (hunks.map fun hunk => hunk.modified).sum
      (hunks.map resLength).sum (InStep hunks s.theirline s.resline) := by
  induction hunks generalizing s with
  | nil => exact .refl d s
  | cons hunk hunks ih =>
    obtain ⟨htype, hrest⟩ := List.forall_mem_cons.mp htypes
    simp only [List.map_cons, List.sum_cons] at hb hy ht ⊢
    have hone := @threeWayHunk_went d s hunk htype (by omega) (by omega) (by omega)
    have hmore := @ih (d.threeWayHunk s hunk) hrest (by rw [hone.baseline]; omega)
      (by rw [hone.yourline]; omega) (by rw [hone.theirline]; omega)
    rw [hone.theirline, hone.resline] at hmore
    exact hone.trans hmore

end Hunks

/-! ### The conflict re-check -/

/-- The rows have got other states, and nothing else has changed. -/
structure SameLines (s s' : Merging) : Prop where
  lines : s'.lines = s.lines
  diff3 : s'.diff3.data.length = s.diff3.data.length
  your : s'.yourBaseBoth.data.length = s.yourBaseBoth.data.length
  their : s'.theirBaseBoth.data.length = s.theirBaseBoth.data.length
  yours : s'.yourBaseBoth.linesWhere hasNumber = s.yourBaseBoth.linesWhere hasNumber
  theirs : s'.theirBaseBoth.linesWhere hasNumber = s.theirBaseBoth.linesWhere hasNumber

section Recheck

variable {d : CDiffData} {s s' s'' : Merging} {y t : ℕ}

theorem SameLines.refl (s : Merging) : SameLines s s := ⟨rfl, rfl, rfl, rfl, rfl, rfl⟩

theorem SameLines.trans (h : SameLines s s') (h' : SameLines s' s'') : SameLines s s'' where
  lines := h'.lines.trans h.lines
  diff3 := h'.diff3.trans h.diff3
  your := h'.your.trans h.your
  their := h'.their.trans h.their
  yours := h'.yours.trans h.yours
  theirs := h'.theirs.trans h.theirs

theorem SameLines.aligned (h : SameLines s s') (ha : d.Aligned s y) : d.Aligned s' y where
  yourRows := by rw [h.your, h.diff3, ha.yourRows]
  theirRows := by rw [h.their, h.diff3, ha.theirRows]
  base := by rw [h.lines, h.diff3, ha.base]
  your := by rw [h.lines, h.diff3, ha.your]
  their := by rw [h.lines, h.diff3, ha.their]
  yours := by rw [h.yours, ha.yours]

theorem SameLines.theirsRight (h : SameLines s s') : d.TheirsRight s' t ↔ d.TheirsRight s t := by
  rw [TheirsRight, h.theirs, TheirsRight]

theorem getState_ok {view : CViewData} {i : ℕ} (h : i < view.data.length) :
    ∃ state, view.getState i = some state := by
  rw [CViewData.getState, CViewData.getData, List.getElem?_eq_getElem h]
  exact ⟨_, rfl⟩

theorem setState_ok {view : CViewData} {i : ℕ} (h : i < view.data.length) (state : DiffStates) :
    ∃ view', view.setState i state = some view' ∧ view'.data.length = view.data.length ∧
      view'.linesWhere hasNumber = view.linesWhere hasNumber := by
  have hlines : ∀ v : CViewData, v.linesWhere hasNumber =
      (v.data.map fun r => (r.sLine, r.linenumber)).filter fun p => p.2 ≠ -1 := by
    intro v
    rw [List.filter_map]
    rfl
  have hget : view.getData i = some view.data[i] := List.getElem?_eq_getElem h
  refine ⟨_, by rw [CViewData.setState, CViewData.update, hget]; rfl, List.length_set, ?_⟩
  rw [hlines, hlines, List.map_set]
  have hi : i < (view.data.map fun r => (r.sLine, r.linenumber)).length := by
    rwa [List.length_map]
  refine congrArg _ ((congrArg _ ?_).trans (List.set_getElem_self hi))
  rw [List.getElem_map]

theorem recheckRow_ok {i : ℕ} (h : d.Aligned s y) (hi : i < s.diff3.data.length) :
    ∃ s', d.recheckRow i s = .ok s' ∧ SameLines s s' := by
  have hyourRow : i < s.yourBaseBoth.data.length := by rwa [h.yourRows]
  have htheirRow : i < s.theirBaseBoth.data.length := by rwa [h.theirRows]
  obtain ⟨state1, hstate1⟩ := getState_ok hyourRow
  obtain ⟨state2, hstate2⟩ := getState_ok htheirRow
  have hyour : s.lines.your[i]? = some (s.lines.your.get ⟨i, by rwa [h.your]⟩) :=
    List.getElem?_eq_getElem _
  have htheir : s.lines.their[i]? = some (s.lines.their.get ⟨i, by rwa [h.their]⟩) :=
    List.getElem?_eq_getElem _
  have hbase : s.lines.base[i]? = some (s.lines.base.get ⟨i, by rwa [h.base]⟩) :=
    List.getElem?_eq_getElem _
  obtain ⟨diff3, hset3, hlen3, -⟩ := setState_ok hi .conflictedIgnored
  obtain ⟨right, hset1, hlen1, hlines1⟩ := setState_ok hyourRow .conflictAdded
  obtain ⟨left, hset2, hlen2, hlines2⟩ := setState_ok htheirRow .conflictAdded
  unfold recheckRow
  simp only [hstate1, hstate2, hyour, htheir, hbase, hset3, hset1, hset2, orUndefined, bind,
    Except.bind]
  split
  · split
    · split
      · exact ⟨_, rfl, rfl, hlen3, hlen1, hlen2, hlines1, hlines2⟩
      · exact ⟨s, rfl, .refl s⟩
    · exact ⟨s, rfl, .refl s⟩
  · exact ⟨s, rfl, .refl s⟩

theorem recheck_ok {n : ℕ} (h : d.Aligned s y) (hn : n ≤ s.diff3.data.length) :
    ∃ s', rounds d.recheckRow 0 n s = .ok s' ∧ SameLines s s' := by
  exact rounds_ok (fun _ s' => SameLines s s') (fun i s₁ _ hi h₁ => by
    obtain ⟨s₂, hrun, h₂⟩ := recheckRow_ok (h₁.aligned h)
      (by rw [h₁.diff3]; omega : i < s₁.diff3.data.length)
    exact ⟨s₂, hrun, h₁.trans h₂⟩) (.refl s)

end Recheck

/-! ### The views -/

/-- The three views have as many rows, each with its positions, and the numbered rows of your view
are your file. -/
structure ViewsAligned (d : CDiffData) (lines : RowLines) : Prop where
  yourRows : d.yourBaseBoth.data.length = d.diff3.data.length
  theirRows : d.theirBaseBoth.data.length = d.diff3.data.length
  base : lines.base.length = d.diff3.data.length
  your : lines.your.length = d.diff3.data.length
  their : lines.their.length = d.diff3.data.length
  yours : d.yourBaseBoth.linesWhere hasNumber = numbered d.arYourFile d.arYourFile.length

/-- And the numbered rows of their view are their file. -/
structure ShowsThree (d : CDiffData) (lines : RowLines) : Prop extends d.ViewsAligned lines where
  theirs : d.theirBaseBoth.linesWhere hasNumber = numbered d.arTheirFile d.arTheirFile.length

/-- **Three-way views are aligned**, and they show all lines under their numbers iff the result is in
step with their file wherever both sides have new lines in common. -/
theorem doThreeWayDiff_iff (d : CDiffData) (hunks : List SvnDiff) (hparts : d.Partitions hunks) :
    ∃ d' lines, d.clearViews.doThreeWayDiff hunks = .ok (d', lines) ∧
      d'.arYourFile = d.arYourFile ∧ d'.arTheirFile = d.arTheirFile ∧ d'.ViewsAligned lines ∧
      (d'.ShowsThree lines ↔ InStep hunks 0 0) := by
  obtain ⟨htypes, hbase, htheir, hyour⟩ := hparts
  let start : Merging := { diff3 := {}, yourBaseBoth := {}, theirBaseBoth := {} }
  have hwent := @threeWayHunks_went d.clearViews start hunks htypes
    (by rw [hbase]; exact (Nat.zero_add _).le) (by rw [hyour]; exact (Nat.zero_add _).le)
    (by rw [htheir]; exact (Nat.zero_add _).le)
  set s := hunks.foldl d.clearViews.threeWayHunk start
  have haligned : d.clearViews.Aligned s d.arYourFile.length := by
    have hend : s.yourline = d.arYourFile.length := by rw [hwent.yourline, hyour, Nat.zero_add]
    rw [← hend]
    exact hwent.aligned ⟨rfl, rfl, rfl, rfl, rfl, rfl⟩
  have htheirs : d.clearViews.TheirsRight s d.arTheirFile.length ↔ InStep hunks 0 0 := by
    have hend : s.theirline = d.arTheirFile.length := by
      rw [hwent.theirline, htheir, Nat.zero_add]
    rw [← hend]
    exact hwent.theirs.trans (and_iff_right rfl)
  obtain ⟨s₁, hrecheck, hsame⟩ := recheck_ok haligned
    (by split <;> omega : (if ignoresDifferences d.clearViews.options then s.diff3.data.length
      else 0) ≤ s.diff3.data.length)
  have haligned₁ := hsame.aligned haligned
  obtain ⟨views, hhide, hviews⟩ := @hideUnchangedSections_ok s₁.diff3.data.length
    [s₁.diff3, s₁.yourBaseBoth, s₁.theirBaseBoth] d.options.contextLines
    (List.forall_mem_cons.mpr ⟨rfl, List.forall_mem_cons.mpr
      ⟨haligned₁.yourRows, List.forall_mem_singleton.mpr haligned₁.theirRows⟩⟩)
  -- the views behind hiding have the same rows
  obtain ⟨diff3, rest, rfl, hdiff3, hrest⟩ := List.map_eq_cons_iff.mp hviews.rows
  obtain ⟨right, rest, rfl, hright, hrest⟩ := List.map_eq_cons_iff.mp hrest
  obtain ⟨left, rest, rfl, hleft, hrest⟩ := List.map_eq_cons_iff.mp hrest
  obtain rfl := List.map_eq_nil_iff.mp hrest
  have hcount := hviews.length diff3 List.mem_cons_self
  have hcountRight := hviews.length right (List.mem_cons_of_mem _ List.mem_cons_self)
  have hcountLeft := hviews.length left
    (List.mem_cons_of_mem _ (List.mem_cons_of_mem _ List.mem_cons_self))
  have hrightLines : right.linesWhere hasNumber = s₁.yourBaseBoth.linesWhere hasNumber :=
    CViewData.linesWhere_eq_of_rows hright fun _ => rfl
  have hshown : ViewsAligned
      { d.clearViews with diff3 := diff3, yourBaseBoth := right, theirBaseBoth := left }
      s₁.lines :=
    ⟨hcountRight.trans hcount.symm, hcountLeft.trans hcount.symm,
      haligned₁.base.trans hcount.symm, haligned₁.your.trans hcount.symm,
      haligned₁.their.trans hcount.symm, hrightLines.trans haligned₁.yours⟩
  have hleftLines : left.linesWhere hasNumber = s₁.theirBaseBoth.linesWhere hasNumber :=
    CViewData.linesWhere_eq_of_rows hleft fun _ => rfl
  refine ⟨{ d.clearViews with diff3 := diff3, yourBaseBoth := right, theirBaseBoth := left },
    s₁.lines, ?_, rfl, rfl, hshown, ?_⟩
  · unfold doThreeWayDiff
    rw [show d.clearViews.yourBaseBoth = {} from rfl, show d.clearViews.theirBaseBoth = {} from rfl,
      show d.clearViews.diff3 = {} from rfl, show d.clearViews.options = d.options from rfl]
    simp only [bind, Except.bind]
    rw [show d.clearViews.options = d.options from rfl] at hrecheck
    rw [hrecheck]
    dsimp only
    rw [hhide]
    rfl
  · rw [← htheirs, ← hsame.theirsRight]
    constructor
    · intro h
      exact hleftLines.symm.trans h.theirs
    · intro h
      exact ⟨hshown, hleftLines.trans h⟩

/-- Three files: `x` is new in your file, `a` in both. -/
def newInBoth : CDiffData where
  options := ⟨0, false, false, false, true, 1⟩
  arBaseFile := [⟨"c", .lf⟩]
  arTheirFile := [⟨"c", .lf⟩, ⟨"a", .lf⟩]
  arYourFile := [⟨"x", .lf⟩, ⟨"c", .lf⟩, ⟨"a", .lf⟩]

/-- The hunks of `newInBoth`. -/
def newInBothHunks : List SvnDiff :=
  [{ original := 0, modified := 0, latest := 1, type := .diffLatest },
    { original := 1, modified := 1, latest := 1, type := .common },
    { original := 0, modified := 1, latest := 1, type := .diffCommon }]

/-- The line that is new in both files has the number of the result in their view: 2 and not 1. -/
theorem doThreeWayDiff_resline : newInBoth.Partitions newInBothHunks ∧ ∃ d' lines,
    newInBoth.clearViews.doThreeWayDiff newInBothHunks = .ok (d', lines) ∧
      d'.theirBaseBoth.linesWhere hasNumber = [("c", 0), ("a", 2)] ∧ ¬ d'.ShowsThree lines := by
  obtain ⟨d', lines, hrun, hlines⟩ : ∃ d' lines,
      newInBoth.clearViews.doThreeWayDiff newInBothHunks = .ok (d', lines) ∧
        d'.theirBaseBoth.linesWhere hasNumber = [("c", 0), ("a", 2)] ∧
        numbered d'.arTheirFile d'.arTheirFile.length = [("c", 0), ("a", 1)] :=
    ⟨_, _, rfl, by decide +kernel, by decide +kernel⟩
  refine ⟨⟨?_, rfl, rfl, rfl⟩, d', lines, hrun, hlines.1, fun h => ?_⟩
  · exact List.forall_mem_cons.mpr ⟨rfl, List.forall_mem_cons.mpr
      ⟨⟨rfl, rfl⟩, List.forall_mem_singleton.mpr rfl⟩⟩
  have htheirs := h.theirs
  rw [hlines.1, hlines.2] at htheirs
  exact absurd htheirs (by decide)

/-- Without the new line in front, the numbers agree. -/
theorem doThreeWayDiff_iff_inStep : ∃ d' lines,
    ({ newInBoth with arYourFile := [⟨"c", .lf⟩, ⟨"a", .lf⟩] }).clearViews.doThreeWayDiff
      newInBothHunks.tail = .ok (d', lines) ∧ d'.ShowsThree lines := by
  obtain ⟨d', lines, hrun, -, -, -, hiff⟩ := doThreeWayDiff_iff
    { newInBoth with arYourFile := [⟨"c", .lf⟩, ⟨"a", .lf⟩] } newInBothHunks.tail
    ⟨List.forall_mem_cons.mpr ⟨⟨rfl, rfl⟩, List.forall_mem_singleton.mpr rfl⟩, rfl, rfl, rfl⟩
  exact ⟨d', lines, hrun, hiff.mpr ⟨DiffType.noConfusion, fun _ _ => rfl, trivial⟩⟩

end CDiffData

end TortoiseSvn.Merge
