import Mathlib.Data.List.InsertIdx
import Mathlib.Tactic

/-!
# The rows of a view

`CViewData` holds the rows a view of the merge window shows. Access to a row that does not exist
is undefined in the source, and no value here.
-/

namespace TortoiseSvn.Merge

/-- The states a row can have.
Source: `DiffStates.h` -/
inductive DiffStates
  | unknown | normal | removed | removedWhitespace | added | addedWhitespace | whitespace
  | whitespaceDiff | empty | conflicted | conflictedIgnored | conflictAdded | conflictEmpty
  | conflictResolved | conflictResolvedEmpty | identicalRemoved | identicalAdded
  | theirsRemoved | theirsAdded | yoursRemoved | yoursAdded | edited | filteredDiff
  deriving DecidableEq, Repr

/-- The line endings a row can have.
Source: `EOL.h` -/
inductive EOL
  | autoline | crlf | lf | cr | lfcr | vt | ff | nel | ls | ps | noEnding
  deriving DecidableEq, Repr

/-- Whether a row is shown.
Source: `ViewData.h` -/
inductive HideState
  | shown | hidden | marker
  deriving DecidableEq, Repr

/-- A row of a view.
Source: `ViewData.h` `viewdata` -/
structure Viewdata where
  sLine : String := ""
  state : DiffStates := .unknown
  linenumber : ℤ := -1
  movedIndex : ℤ := -1
  movedFrom : Bool := true
  ending : EOL := .autoline
  hidestate : HideState := .hidden
  marked : Bool := false
  deriving DecidableEq, Repr

/-- The rows of a view and the number of marked blocks.
Source: `ViewData.h` `CViewData` -/
structure CViewData where
  data : List Viewdata := []
  nMarkedBlocks : ℤ := 0
  deriving DecidableEq, Repr

namespace CViewData

variable {d d' : CViewData} {i : ℕ} {row : Viewdata}

/-- Source: `ViewData.cpp` `AddData` -/
def addRow (d : CViewData) (row : Viewdata) : CViewData := { d with data := d.data ++ [row] }

/-- Source: `ViewData.cpp` `AddData` -/
def addData (d : CViewData) (sLine : String) (state : DiffStates) (linenumber : ℤ) (ending : EOL)
    (hide : HideState) (movedIndex : ℤ) : CViewData :=
  d.addRow { sLine, state, linenumber, ending, hidestate := hide, movedIndex }

/-- Source: `ViewData.h` `AddEmpty` -/
def addEmpty (d : CViewData) : CViewData := d.addData "" .empty (-1) .noEnding .shown (-1)

/-- Source: `ViewData.h` `GetData` -/
def getData (d : CViewData) (i : ℕ) : Option Viewdata := d.data[i]?

/-- Source: `ViewData.h` `GetLineNumber` -/
def getLineNumber (d : CViewData) (i : ℕ) : Option ℤ :=
  if d.data.length ≠ 0 then (d.getData i).map (·.linenumber) else some 0

/-- Source: `ViewData.cpp` `InsertData` -/
def insertData (d : CViewData) (i : ℕ) (row : Viewdata) : Option CViewData :=
  if i ≤ d.data.length then some { d with data := d.data.insertIdx i row } else none

/-- Source: `ViewData.h` `RemoveData` -/
def removeData (d : CViewData) (i : ℕ) : Option CViewData :=
  if i < d.data.length then some { d with data := d.data.eraseIdx i } else none

/-- The number of marked blocks when the mark of a row changes. -/
def countMark (n : ℤ) (oldmarked marked : Bool) : ℤ :=
  if oldmarked && !marked && n > 0 then n - 1 else if !oldmarked && marked then n + 1 else n

/-- Source: `ViewData.h` `SetData` -/
def setData (d : CViewData) (i : ℕ) (row : Viewdata) : Option CViewData :=
  (d.getData i).map fun old =>
    { data := d.data.set i row, nMarkedBlocks := countMark d.nMarkedBlocks old.marked row.marked }

/-- Change a row in place. -/
def update (d : CViewData) (i : ℕ) (f : Viewdata → Viewdata) : Option CViewData :=
  (d.getData i).map fun old => { d with data := d.data.set i (f old) }

/-- Source: `ViewData.h` `SetState` -/
def setState (d : CViewData) (i : ℕ) (state : DiffStates) : Option CViewData :=
  d.update i fun r => { r with state }

/-- Source: `ViewData.h` `SetLine` -/
def setLine (d : CViewData) (i : ℕ) (sLine : String) : Option CViewData :=
  d.update i fun r => { r with sLine }

/-- Source: `ViewData.h` `SetLineNumber` -/
def setLineNumber (d : CViewData) (i : ℕ) (linenumber : ℤ) : Option CViewData :=
  d.update i fun r => { r with linenumber }

/-- Source: `ViewData.h` `SetLineEnding` -/
def setLineEnding (d : CViewData) (i : ℕ) (ending : EOL) : Option CViewData :=
  d.update i fun r => { r with ending }

/-- Source: `ViewData.h` `SetMarked` -/
def setMarked (d : CViewData) (i : ℕ) (marked : Bool) : Option CViewData :=
  (d.getData i).map fun old =>
    { data := d.data.set i { old with marked }
      nMarkedBlocks := countMark d.nMarkedBlocks old.marked marked }

/-- A row is inserted at an index that is not behind the end. -/
theorem insertData_eq_some :
    d.insertData i row = some d' ↔
      i ≤ d.data.length ∧ d' = { d with data := d.data.insertIdx i row } := by
  unfold insertData
  split
  · rename_i h
    simp [h, eq_comm]
  · rename_i h
    simp [h]

/-- Only a row that exists can be removed. -/
theorem removeData_eq_some :
    d.removeData i = some d' ↔
      i < d.data.length ∧ d' = { d with data := d.data.eraseIdx i } := by
  unfold removeData
  split
  · rename_i h
    simp [h, eq_comm]
  · rename_i h
    simp [h]

theorem setData_of_lt (h : i < d.data.length) (row : Viewdata) :
    ∃ d', d.setData i row = some d' ∧ d'.data = d.data.set i row := by
  have hget : d.getData i = some d.data[i] := List.getElem?_eq_getElem h
  exact ⟨_, by rw [setData, hget]; rfl, rfl⟩

end CViewData

/-- The row an inserted empty line gets.
Source: `BaseView.cpp` `GetEmptyLineData` -/
def getEmptyLineData : Viewdata :=
  { sLine := "", state := .empty, linenumber := -1, ending := .noEnding, hidestate := .shown }

end TortoiseSvn.Merge
