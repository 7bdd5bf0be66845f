import TortoiseSvn.Lib.SortedMap
import TortoiseSvn.Merge.ViewData

/-!
# Recorded changes of a view

A `Viewstate` records what an editing step did to the rows of one view. `Viewstate.exec` reverts
it and records the change it makes on the way, so that the result reverts the reversal.
-/

namespace TortoiseSvn.Merge

open Lib

/-- The change of one view in one editing step.
Source: `Undo.h` `viewstate` -/
structure Viewstate where
  difflines : SortedMap ℕ String := .empty
  linestates : SortedMap ℕ DiffStates := .empty
  linelines : SortedMap ℕ ℤ := .empty
  linesEOL : SortedMap ℕ EOL := .empty
  markedlines : SortedMap ℕ Bool := .empty
  addedlines : List ℕ := []
  removedlines : SortedMap ℕ Viewdata := .empty
  replacedlines : SortedMap ℕ Viewdata := .empty
  /-- The step modifies the view. -/
  modifies : Bool := false

/-- A view whose rows are recorded while they change. -/
structure Recording where
  state : Viewstate := {}
  rows : CViewData

namespace Recording

/-- Source: `BaseView.cpp` `InsertViewData` -/
def insertViewData (r : Recording) (index : ℕ) (data : Viewdata) : Option Recording := do
  let rows ← r.rows.insertData index data
  some ⟨{ r.state with addedlines := r.state.addedlines ++ [index] }, rows⟩

/-- Source: `BaseView.cpp` `RemoveViewData` -/
def removeViewData (r : Recording) (index : ℕ) : Option Recording := do
  let old ← r.rows.getData index
  let rows ← r.rows.removeData index
  some ⟨{ r.state with removedlines := r.state.removedlines.assign index old }, rows⟩

/-- Source: `BaseView.cpp` `SetViewData` -/
def setViewData (r : Recording) (index : ℕ) (data : Viewdata) : Option Recording := do
  let old ← r.rows.getData index
  let rows ← r.rows.setData index data
  some ⟨{ r.state with replacedlines := r.state.replacedlines.assign index old }, rows⟩

/-- Source: `BaseView.cpp` `InsertViewEmptyLines` -/
def insertViewEmptyLines (r : Recording) (firstView : ℕ) : ℕ → Option Recording
  | 0 => some r
  | count + 1 => do
    let r' ← r.insertViewData firstView getEmptyLineData
    r'.insertViewEmptyLines firstView count

end Recording

/-! ### Reverting a change -/

/-- Take the rows at the listed indexes out, one after the other. -/
def removeAdded : List ℕ → SortedMap ℕ Viewdata → CViewData →
    Option (SortedMap ℕ Viewdata × CViewData)
  | [], removed, rows => some (removed, rows)
  | i :: is, removed, rows => do
    let old ← rows.getData i
    let rows' ← rows.removeData i
    removeAdded is (removed.assign i old) rows'

/-- Put the listed rows in, one after the other. -/
def insertRemoved : List (ℕ × Viewdata) → List ℕ → CViewData → Option (List ℕ × CViewData)
  | [], added, rows => some (added, rows)
  | (i, row) :: l, added, rows => do
    let rows' ← rows.insertData i row
    insertRemoved l (added ++ [i]) rows'

/-- Overwrite a part of the listed rows, one after the other, and keep what stood there. -/
def exchange {α : Type} (get : CViewData → ℕ → Option α)
    (set : CViewData → ℕ → α → Option CViewData) :
    List (ℕ × α) → SortedMap ℕ α → CViewData → Option (SortedMap ℕ α × CViewData)
  | [], kept, rows => some (kept, rows)
  | (i, a) :: l, kept, rows => do
    let old ← get rows i
    let rows' ← set rows i a
    exchange get set l (kept.assign i old) rows'

/-- Revert the change `state` of the rows, with the change that reverts this one.
Source: `Undo.cpp` `CUndo::Do` -/
def Viewstate.exec (state : Viewstate) (rows : CViewData) : Option (Viewstate × CViewData) := do
  let (removedlines, rows) ← removeAdded state.addedlines.reverse .empty rows
  let (linelines, rows) ← exchange CViewData.getLineNumber CViewData.setLineNumber
    state.linelines.entries .empty rows
  let (linestates, rows) ← exchange (fun d i => (d.getData i).map (·.state)) CViewData.setState
    state.linestates.entries .empty rows
  let (linesEOL, rows) ← exchange (fun d i => (d.getData i).map (·.ending)) CViewData.setLineEnding
    state.linesEOL.entries .empty rows
  let (markedlines, rows) ← exchange (fun d i => (d.getData i).map (·.marked)) CViewData.setMarked
    state.markedlines.entries .empty rows
  let (difflines, rows) ← exchange (fun d i => (d.getData i).map (·.sLine)) CViewData.setLine
    state.difflines.entries .empty rows
  let (addedlines, rows) ← insertRemoved state.removedlines.entries [] rows
  let (replacedlines, rows) ← exchange CViewData.getData CViewData.setData
    state.replacedlines.entries .empty rows
  some ({ difflines, linestates, linelines, linesEOL, markedlines, addedlines, removedlines,
          replacedlines }, rows)

/-- The reverse of a change never carries the mark that the step modifies the view. -/
theorem Viewstate.exec_modifies {state rev : Viewstate} {rows rows' : CViewData}
    (h : state.exec rows = some (rev, rows')) : rev.modifies = false := by
  simp only [Viewstate.exec, Option.bind_eq_bind, Option.bind_eq_some_iff, Option.some.injEq,
    Prod.mk.injEq] at h
  obtain ⟨_, _, _, _, _, _, _, _, _, _, _, _, _, _, _, _, rfl, _⟩ := h
  rfl

end TortoiseSvn.Merge
