import Mathlib.Data.List.Forall2
import TortoiseSvn.Lib.Rounds
import TortoiseSvn.Merge.ViewData

/-!
# The data of a diff

`CDiffData` holds the lines of the files that are compared and the views that are built from the
hunks of a diff. The diff itself comes from the Subversion library, as a list of hunks.

Main result: `hideUnchangedSections_ok`. Hiding what did not change shows and hides rows, and changes
nothing else.
-/

namespace TortoiseSvn.Merge

open TortoiseSvn.Lib

/-- A line of a file. Source: `FileTextLines.h` `CFileTextLine` -/
structure CFileTextLine where
  sLine : String
  eEnding : EOL
  deriving DecidableEq, Repr

/-- The lines of a file. Source: `FileTextLines.h` `CFileTextLines` -/
abbrev CFileTextLines := List CFileTextLine

/-- What a hunk of the Subversion library is about: `svn_diff__type_e`. -/
inductive DiffType
  | common | diffModified | diffLatest | diffCommon | conflict
  deriving DecidableEq, Repr

/-- The lengths of a hunk: `original` lines of the base, `modified` lines of the first file that it is
compared with, and `latest` lines of the second one. -/
structure HunkLengths where
  original : ℕ
  modified : ℕ
  latest : ℕ
  deriving DecidableEq, Repr

/-- A hunk of the Subversion library, `svn_diff_t`. A conflict may come with the resolution that the
library proposes; only its lengths are looked at. -/
structure SvnDiff extends HunkLengths where
  type : DiffType
  resolvedDiff : Option HunkLengths := none
  deriving DecidableEq, Repr

/-- Why a diff has no views: a message was set, or an access is undefined. -/
inductive DiffFailure
  /-- `IDS_ERR_DIFF_NEWLINES` -/
  | newlines
  | undefined
  deriving DecidableEq, Repr

/-- An access that is undefined when there is no value. -/
def orUndefined {α : Type} : Option α → Except DiffFailure α
  | some a => .ok a
  | none => .error .undefined

/-- The settings of a diff. -/
structure DiffOptions where
  dwIgnoreWS : ℕ
  bIgnoreEOL : Bool
  bIgnoreCase : Bool
  bIgnoreComments : Bool
  /-- No filter is set: `m_rx._Empty()`. -/
  rxEmpty : Bool
  /-- How many unchanged lines are shown around a change, as an `int`. -/
  contextLines : ℤ
  deriving DecidableEq, Repr

/-- Source: `DiffData.h` `CDiffData` -/
structure CDiffData where
  options : DiffOptions
  arBaseFile : CFileTextLines
  arTheirFile : CFileTextLines
  arYourFile : CFileTextLines
  /-- One-pane view, and in the three-pane view the right one. -/
  yourBaseBoth : CViewData := {}
  yourBaseLeft : CViewData := {}
  yourBaseRight : CViewData := {}
  /-- In the three-pane view the left one. -/
  theirBaseBoth : CViewData := {}
  /-- In the three-pane view the bottom one. -/
  diff3 : CViewData := {}
  deriving DecidableEq, Repr

/-- The views are empty when a diff begins. Source: `DiffData.cpp` `Load` -/
def CDiffData.clearViews (d : CDiffData) : CDiffData :=
  { d with
    yourBaseBoth := {}, yourBaseLeft := {}, yourBaseRight := {}, theirBaseBoth := {}, diff3 := {} }

/-! ### Views -/

namespace CViewData

/-- Source: `ViewData.h` `GetState` -/
def getState (d : CViewData) (i : ℕ) : Option DiffStates := (d.getData i).map (·.state)

/-- Source: `ViewData.h` `GetHideState` -/
def getHideState (d : CViewData) (i : ℕ) : Option HideState := (d.getData i).map (·.hidestate)

/-- Source: `ViewData.h` `SetLineHideState` -/
def setLineHideState (d : CViewData) (i : ℕ) (hidestate : HideState) : Option CViewData :=
  d.update i fun r => { r with hidestate }

/-- The rows of a view, all of them shown. -/
def rows (d : CViewData) : List Viewdata := d.data.map fun r => { r with hidestate := .shown }

variable {d d' : CViewData}

@[simp] theorem rows_length (d : CViewData) : d.rows.length = d.data.length := List.length_map _

theorem setLineHideState_ok {i : ℕ} (h : i < d.data.length) (state : HideState) :
    ∃ d', d.setLineHideState i state = some d' ∧ d'.rows = d.rows := by
  have hget : d.getData i = some d.data[i] := List.getElem?_eq_getElem h
  refine ⟨_, by rw [setLineHideState, update, hget]; rfl, ?_⟩
  show (d.data.set i _).map _ = _
  rw [List.map_set, rows]
  have hi : i < (d.data.map fun r : Viewdata => { r with hidestate := .shown }).length := by
    rwa [List.length_map]
  refine (congrArg _ ?_).trans (List.set_getElem_self hi)
  rw [List.getElem_map]

/-- The texts and line numbers of the rows that `p` picks. -/
def linesWhere (p : Viewdata → Bool) (d : CViewData) : List (String × ℤ) :=
  (d.data.filter p).map fun r => (r.sLine, r.linenumber)

@[simp] theorem linesWhere_addRow (p : Viewdata → Bool) (d : CViewData) (row : Viewdata) :
    (d.addRow row).linesWhere p =
      d.linesWhere p ++ if p row then [(row.sLine, row.linenumber)] else [] := by
  unfold linesWhere addRow
  rw [List.filter_append, List.map_append, List.filter_singleton]
  cases p row <;> rfl

theorem linesWhere_eq_of_rows (h : d'.rows = d.rows) {p : Viewdata → Bool}
    (hp : ∀ r, p { r with hidestate := .shown } = p r) : d'.linesWhere p = d.linesWhere p := by
  have hall : ∀ d : CViewData, d.linesWhere p = d.rows.filterMap fun r =>
      if p r then some (r.sLine, r.linenumber) else none := by
    intro d
    unfold linesWhere rows
    induction d.data with
    | nil => rfl
    | cons r l ih =>
      rw [List.map_cons, List.filterMap_cons, hp r, ← ih, List.filter_cons]
      cases p r <;> rfl
  rw [hall, hall, h]

end CViewData

/-- The first `n` lines of a file, each with its number. -/
def numbered (file : CFileTextLines) (n : ℕ) : List (String × ℤ) :=
  (file.take n).mapIdx fun i line => (line.sLine, (i : ℤ))

@[simp] theorem numbered_zero (file : CFileTextLines) : numbered file 0 = [] := rfl

theorem numbered_succ {file : CFileTextLines} {n : ℕ} {line : CFileTextLine}
    (h : file[n]? = some line) :
    numbered file (n + 1) = numbered file n ++ [(line.sLine, (n : ℤ))] := by
  obtain ⟨hlt, rfl⟩ := List.getElem?_eq_some_iff.mp h
  rw [numbered, List.take_add_one, h, Option.toList_some, List.mapIdx_concat, List.length_take,
    min_eq_left hlt.le]
  rfl

/-- Among the rows that `p` picks, a row comes behind the first `n` lines of a file: it has the next
line, or it is not picked. -/
inductive Takes (p : Viewdata → Bool) (file : CFileTextLines) (row : Viewdata) : ℕ → ℕ → Prop
  | line {n : ℕ} {line : CFileTextLine} : p row = true → file[n]? = some line →
      row.sLine = line.sLine → row.linenumber = n → Takes p file row n (n + 1)
  | skip {n : ℕ} : p row = false → Takes p file row n n

/-- With the row, the view shows one more line if the row has one. -/
theorem Takes.linesWhere_iff {p : Viewdata → Bool} {file : CFileTextLines} {row : Viewdata} {n n' : ℕ}
    (h : Takes p file row n n') (d : CViewData) :
    (d.addRow row).linesWhere p = numbered file n' ↔ d.linesWhere p = numbered file n := by
  rw [CViewData.linesWhere_addRow]
  cases h with
  | line hp hline hs hn => rw [if_pos hp, numbered_succ hline, hs, hn, List.append_left_inj]
  | skip hp => rw [hp, if_neg Bool.false_ne_true, List.append_nil]

theorem Takes.linesWhere {p : Viewdata → Bool} {file : CFileTextLines} {row : Viewdata} {n n' : ℕ}
    (h : Takes p file row n n') {d : CViewData} (hd : d.linesWhere p = numbered file n) :
    (d.addRow row).linesWhere p = numbered file n' := (h.linesWhere_iff d).mpr hd

/-! ### Hiding what did not change -/

/-- Row `i` of each view gets the same hide state. -/
def setHideStates (i : ℕ) (state : HideState) (views : List CViewData) :
    Except DiffFailure (List CViewData) :=
  views.mapM fun d => orUndefined (d.setLineHideState i state)

/-- The hide state of row `i` of the first view. -/
def hideStateOf (views : List CViewData) (i : ℕ) : Except DiffFailure HideState :=
  orUndefined (views.head?.bind fun d => d.getHideState i)

/-- Source: `DiffData.cpp` `HideUnchangedSections`, the loop that goes back from row `n - 1` -/
def showBack (stopline : ℤ) : ℕ → List CViewData → Except DiffFailure (List CViewData)
  | 0, views => .ok views
  | n + 1, views =>
    if stopline < n then setHideStates n .shown views >>= showBack stopline n else .ok views

/-- The loop from row `line` on, with `n` rows left; the result has the row that it ends at.
Source: `DiffData.cpp` `HideUnchangedSections`, the loop that goes forward -/
def showForward (stopline : ℤ) : ℕ → ℕ → List CViewData →
    Except DiffFailure (List CViewData × ℕ)
  | 0, line, views => .ok (views, line)
  | n + 1, line, views =>
    if line < stopline then setHideStates line .shown views >>= showForward stopline n (line + 1)
    else .ok (views, line)

/-- What is shown or hidden at row `i`, which has another hide state than the row before.
Source: `DiffData.cpp` `HideUnchangedSections`, the loop body -/
def hideRow (contextLines : ℤ) (count i : ℕ) (hideState lastHideState : HideState)
    (views : List CViewData) : Except DiffFailure (List CViewData) :=
  if hideState = .shown then showBack ((i : ℤ) - 1 - contextLines) i views
  else if hideState = .hidden ∧ lastHideState ≠ .marker then do
    let (views, line) ← showForward ((i : ℤ) + 1 + contextLines) (count - (i + 1)) (i + 1) views
    if line < count then
      if (← hideStateOf views line) = .hidden then setHideStates line .marker views
      else .ok views
    else .ok views
  else .ok views

/-- One round of the loop over the rows: the views and the last hide state.
Source: `DiffData.cpp` `HideUnchangedSections`, the loop over the rows -/
def hideRound (contextLines : ℤ) (count i : ℕ) (s : List CViewData × HideState) :
    Except DiffFailure (List CViewData × HideState) :=
  hideStateOf s.1 i >>= fun hideState =>
    if hideState ≠ s.2 then
      (hideRow contextLines count i hideState s.2 s.1).map fun views => (views, hideState)
    else .ok (s.1, hideState)

/-- Source: `DiffData.cpp` `HideUnchangedSections`, the first row -/
def markFirst (lastHideState : HideState) (views : List CViewData) :
    Except DiffFailure (List CViewData) :=
  if lastHideState = .hidden then setHideStates 0 .marker views else .ok views

/-- The views are changed alike; the first one says what did not change. A view that is not there is
left out of the list.
Source: `DiffData.cpp` `HideUnchangedSections` -/
def hideUnchangedSections (contextLines : ℤ) (views : List CViewData) :
    Except DiffFailure (List CViewData) :=
  let count := (views.head?.map fun d => d.data.length).getD 0
  if 1 < count then do
    let lastHideState ← hideStateOf views 0
    let views ← markFirst lastHideState views
    let r ← rounds (hideRound contextLines count) 1 (count - 1) (views, lastHideState)
    return r.1
  else .ok views

section Hiding

variable {n i : ℕ} {old views : List CViewData}

/-- The views have the same rows, `n` each. -/
structure SameViews (n : ℕ) (old views : List CViewData) : Prop where
  rows : views.map CViewData.rows = old.map CViewData.rows
  length : ∀ d ∈ views, d.data.length = n

theorem SameViews.hideStateOf (h : SameViews n old views) (hne : old ≠ []) (hi : i < n) :
    ∃ state, hideStateOf views i = .ok state := by
  have hne' : views ≠ [] := by
    intro hnil
    have hrows := h.rows
    rw [hnil, List.map_nil] at hrows
    exact hne (List.map_eq_nil_iff.mp hrows.symm)
  obtain ⟨d, rest, rfl⟩ := List.exists_cons_of_ne_nil hne'
  have hlt : i < d.data.length := (h.length d List.mem_cons_self) ▸ hi
  refine ⟨d.data[i].hidestate, ?_⟩
  rw [Merge.hideStateOf, List.head?_cons, Option.bind_some, CViewData.getHideState,
    CViewData.getData, List.getElem?_eq_getElem hlt]
  rfl

theorem SameViews.setHideStates (h : SameViews n old views) (hi : i < n) (state : HideState) :
    ∃ views', setHideStates i state views = .ok views' ∧ SameViews n old views' := by
  have hrun : ∃ views', Merge.setHideStates i state views = .ok views' ∧
      views'.map CViewData.rows = views.map CViewData.rows := by
    have hlen := h.length
    clear h
    induction views with
    | nil => exact ⟨[], rfl, rfl⟩
    | cons d rest ih =>
      obtain ⟨hd, hrest⟩ := List.forall_mem_cons.mp hlen
      obtain ⟨d', hrun, hd'⟩ := CViewData.setLineHideState_ok (hd ▸ hi) state
      obtain ⟨rest', hrest', hall⟩ := ih hrest
      refine ⟨d' :: rest', ?_, by rw [List.map_cons, List.map_cons, hd', hall]⟩
      unfold Merge.setHideStates at hrest' ⊢
      rw [List.mapM_cons, hrun, hrest']
      rfl
  obtain ⟨views', hrun, hrows⟩ := hrun
  refine ⟨views', hrun, hrows.trans h.rows, fun d' hd' => ?_⟩
  have hmem : d'.rows ∈ views.map CViewData.rows := hrows ▸ List.mem_map_of_mem hd'
  obtain ⟨d, hd, hrow⟩ := List.mem_map.mp hmem
  rw [← CViewData.rows_length, ← hrow, CViewData.rows_length, h.length d hd]

theorem SameViews.showBack (h : SameViews n old views) (hi : i ≤ n) (stopline : ℤ) :
    ∃ views', showBack stopline i views = .ok views' ∧ SameViews n old views' := by
  induction i generalizing views with
  | zero => exact ⟨views, rfl, h⟩
  | succ i ih =>
    rw [Merge.showBack]
    split
    · obtain ⟨views₁, hrun, h₁⟩ := h.setHideStates hi .shown
      rw [hrun]
      exact ih h₁ (Nat.le_of_succ_le hi)
    · exact ⟨views, rfl, h⟩

theorem SameViews.showForward (h : SameViews n old views) {left line : ℕ} (hline : line + left = n)
    (stopline : ℤ) : ∃ views' line', showForward stopline left line views = .ok (views', line') ∧
      SameViews n old views' := by
  induction left generalizing views line with
  | zero => exact ⟨views, line, rfl, h⟩
  | succ left ih =>
    rw [Merge.showForward]
    split
    · obtain ⟨views₁, hrun, h₁⟩ := h.setHideStates (i := line) (by omega) .shown
      rw [hrun]
      exact ih h₁ (by omega)
    · exact ⟨views, line, rfl, h⟩

theorem SameViews.hideRow (h : SameViews n old views) (hne : old ≠ []) (hi : i < n)
    (contextLines : ℤ) (hideState lastHideState : HideState) :
    ∃ views', hideRow contextLines n i hideState lastHideState views = .ok views' ∧
      SameViews n old views' := by
  unfold Merge.hideRow
  split
  · exact h.showBack hi.le _
  split
  · have hcount : i + 1 + (n - (i + 1)) = n := by omega
    obtain ⟨views₁, line, hrun, h₁⟩ := h.showForward hcount ((i : ℤ) + 1 + contextLines)
    rw [hrun]
    simp only [bind, Except.bind]
    split
    · rename_i hlt
      obtain ⟨state, hstate⟩ := h₁.hideStateOf hne hlt
      rw [hstate]
      dsimp only
      split
      · exact h₁.setHideStates hlt .marker
      · exact ⟨views₁, rfl, h₁⟩
    · exact ⟨views₁, rfl, h₁⟩
  · exact ⟨views, rfl, h⟩

theorem SameViews.hideRound {s : List CViewData × HideState} (h : SameViews n old s.1)
    (hne : old ≠ []) (hi : i < n) (contextLines : ℤ) :
    ∃ s', hideRound contextLines n i s = .ok s' ∧ SameViews n old s'.1 := by
  obtain ⟨state, hstate⟩ := h.hideStateOf hne hi
  obtain ⟨views', hrun, hs'⟩ := h.hideRow hne hi contextLines state s.2
  unfold Merge.hideRound
  rw [hstate]
  simp only [bind, Except.bind]
  split
  · rw [hrun]
    exact ⟨_, rfl, hs'⟩
  · exact ⟨_, rfl, h⟩

theorem SameViews.markFirst (h : SameViews n old views) (hpos : 0 < n) (state : HideState) :
    ∃ views', markFirst state views = .ok views' ∧ SameViews n old views' := by
  unfold Merge.markFirst
  split
  · exact h.setHideStates hpos .marker
  · exact ⟨views, rfl, h⟩

/-- **Hiding what did not change** keeps the rows of all views, if they have as many. -/
theorem hideUnchangedSections_ok (contextLines : ℤ) (h : ∀ d ∈ views, d.data.length = n) :
    ∃ views', hideUnchangedSections contextLines views = .ok views' ∧
      SameViews n views views' := by
  have hsame : SameViews n views views := ⟨rfl, h⟩
  unfold hideUnchangedSections
  cases views with
  | nil => exact ⟨[], rfl, hsame⟩
  | cons d rest =>
    have hne : d :: rest ≠ [] := List.cons_ne_nil _ _
    have hcount : ((d :: rest).head?.map fun d => d.data.length).getD 0 = n :=
      h d List.mem_cons_self
    rw [hcount]
    dsimp only
    split
    · rename_i hlt
      obtain ⟨last, hlast⟩ := hsame.hideStateOf hne (Nat.zero_lt_of_lt hlt)
      obtain ⟨views₁, hrun₁, h₁⟩ := hsame.markFirst (Nat.zero_lt_of_lt hlt) last
      obtain ⟨⟨views₂, last₂⟩, hrun₂, h₂⟩ := @rounds_ok _ _ (Merge.hideRound contextLines n)
        (fun _ s => SameViews n (d :: rest) s.1) 1 (n - 1)
        (fun i s _ hi hs => hs.hideRound hne (by omega) contextLines) (views₁, last) h₁
      refine ⟨views₂, ?_, h₂⟩
      simp only [bind, Except.bind, hlast, hrun₁, hrun₂]
      rfl
    · exact ⟨_, rfl, hsame⟩

end Hiding

end TortoiseSvn.Merge
