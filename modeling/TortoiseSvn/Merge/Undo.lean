import Mathlib.Data.List.DropRight
import TortoiseSvn.Merge.Viewstate

/-!
# Undo and redo

`CUndo` keeps the steps that can be undone and those that can be redone, the positions at which
groups of steps begin and end, and for each view the number of steps at which it was saved. The
last element of a list is the top of the stack.

Reading the top of an empty stack is undefined in the source, and no value here. A view whose
rows were accessed where there are none is `broken` from then on.
-/

namespace TortoiseSvn.Merge

open Lib

/-- The three views. -/
inductive Side
  | left | right | bottom
  deriving DecidableEq, Repr

/-- A position in a view. -/
structure Point where
  x : ℤ := 0
  y : ℤ := 0
  deriving DecidableEq, Repr

/-- What the data pointer of a view stands for: nothing, rows, or rows that were accessed at an
index that has none. -/
inductive ViewPtr
  | null
  | broken
  | rows (d : CViewData)

/-- The lines of a view that has rows. -/
def ViewPtr.lines : ViewPtr → Option (List Viewdata)
  | .rows d => some d.data
  | _ => none

/-- A view: its rows, its caret and the flag that tells whether it is modified.
Source: `BaseView.h` `CBaseView` -/
structure CBaseView where
  viewData : ViewPtr := .null
  caretViewPos : Point := {}
  modified : Bool := false

/-- The three views of the window. One of them is the target of the merge, and positions are
turned into those on the screen by its own tables. -/
structure Views where
  view : Side → CBaseView
  target : Side
  convertViewPosToScreen : CBaseView → Point → Point

/-- Source: `BaseView.h` `IsTarget` -/
def Views.isTarget (v : Views) (side : Side) : Bool := side = v.target

/-- Source: `BaseView.h` `GetCaretPosition` -/
def Views.getCaretPosition (v : Views) (side : Side) : Point :=
  v.convertViewPosToScreen (v.view side) (v.view side).caretViewPos

/-- The lines of the views. -/
def Views.lines (v : Views) (side : Side) : Option (List Viewdata) := (v.view side).viewData.lines

/-- A step for all views.
Source: `Undo.h` `allviewstate` -/
abbrev Allviewstate := Side → Viewstate

/-- Source: `Undo.h` `CUndo` -/
structure CUndo where
  viewstates : List Allviewstate := []
  caretpoints : List Point := []
  groups : List ℕ := []
  /-- The number of steps at which a view was in its original state, if it can get there. -/
  originalstate : Side → Option ℕ := fun _ => some 0
  groupCount : ℤ := 0
  redoviewstates : List Allviewstate := []
  redocaretpoints : List Point := []
  redogroups : List ℕ := []

namespace CUndo

/-- Source: `Undo.h` `CanUndo` -/
def canUndo (u : CUndo) : Bool := !u.viewstates.isEmpty

/-- Source: `Undo.h` `CanRedo` -/
def canRedo (u : CUndo) : Bool := !u.redoviewstates.isEmpty

/-- Source: `Undo.cpp` `AddState` -/
def addState (u : CUndo) (allstate : Allviewstate) (pt : Point) : CUndo :=
  { u with
    viewstates := u.viewstates ++ [allstate]
    caretpoints := u.caretpoints ++ [pt]
    redoviewstates := []
    redocaretpoints := []
    redogroups := [] }

/-- Source: `Undo.h` `BeginGrouping` -/
def beginGrouping (u : CUndo) : CUndo :=
  { u with
    groups := if u.groupCount = 0 then u.groups ++ [u.caretpoints.length] else u.groups
    groupCount := u.groupCount + 1 }

/-- Source: `Undo.h` `EndGrouping` -/
def endGrouping (u : CUndo) : CUndo :=
  { u with
    groups := if u.groupCount - 1 = 0 then u.groups ++ [u.caretpoints.length] else u.groups
    groupCount := u.groupCount - 1 }

/-- The number of steps up to the last one that modifies the view.
Source: `Undo.cpp` `MarkAsOriginalState` -/
def lastModifying (steps : List Allviewstate) (side : Side) : ℕ :=
  (steps.rdropWhile fun s => !(s side).modifies).length

/-- Source: `Undo.cpp` `MarkAsOriginalState` -/
def markAsOriginalState (u : CUndo) (selected : Side → Bool) : CUndo :=
  { u with
    originalstate := fun side =>
      if selected side then some (lastModifying u.viewstates side) else u.originalstate side }

/-- Source: `Undo.cpp` `Do` -/
def doState (state : Viewstate) (view : CBaseView) (isTarget : Bool) (pt : Point) :
    Viewstate × CBaseView :=
  match view.viewData with
  | .null => (state, view)
  | .broken => (state, view)
  | .rows d =>
    match state.exec d with
    | some (rev, d') =>
      (rev, { view with
        viewData := .rows d', caretViewPos := if isTarget then pt else view.caretViewPos })
    | none => ({}, { view with viewData := .broken })

/-- Revert a step in all views. -/
def doAll (allstate : Allviewstate) (v : Views) (pt : Point) : Allviewstate × Views :=
  (fun side => (doState (allstate side) (v.view side) (v.isTarget side) pt).1,
    { v with view := fun side => (doState (allstate side) (v.view side) (v.isTarget side) pt).2 })

/-- Source: `Undo.cpp` `UndoOne` -/
def undoOne (u : CUndo) (v : Views) : Option (CUndo × Views) := do
  let allstate ← u.viewstates.getLast?
  let pt ← u.caretpoints.getLast?
  some ({ u with
      redocaretpoints := u.redocaretpoints ++ [v.getCaretPosition v.target]
      redoviewstates := u.redoviewstates ++ [(doAll allstate v pt).1]
      viewstates := u.viewstates.dropLast
      caretpoints := u.caretpoints.dropLast },
    (doAll allstate v pt).2)

/-- Source: `Undo.cpp` `RedoOne` -/
def redoOne (u : CUndo) (v : Views) : Option (CUndo × Views) := do
  let allstate ← u.redoviewstates.getLast?
  let pt ← u.redocaretpoints.getLast?
  some ({ u with
      caretpoints := u.caretpoints ++ [v.getCaretPosition v.target]
      viewstates := u.viewstates ++ [(doAll allstate v pt).1]
      redoviewstates := u.redoviewstates.dropLast
      redocaretpoints := u.redocaretpoints.dropLast },
    (doAll allstate v pt).2)

/-- Undo steps while there are more than `b`. Each one takes a step away, so `fuel` is the number
of steps there are. -/
def undoDownTo (b : ℕ) : ℕ → CUndo → Views → Option (CUndo × Views)
  | 0, u, v => some (u, v)
  | fuel + 1, u, v =>
    if b < u.caretpoints.length then do
      let (u', v') ← u.undoOne v
      undoDownTo b fuel u' v'
    else some (u, v)

/-- Redo steps while there are more than `b`. -/
def redoDownTo (b : ℕ) : ℕ → CUndo → Views → Option (CUndo × Views)
  | 0, u, v => some (u, v)
  | fuel + 1, u, v =>
    if b < u.redocaretpoints.length then do
      let (u', v') ← u.redoOne v
      redoDownTo b fuel u' v'
    else some (u, v)

/-- Whether a view counts as modified when `steps` are the steps that lie on one stack and the
view was in its original state at `original` of them. -/
def isModified (original : Option ℕ) (steps : List Allviewstate) (side : Side) : Bool :=
  match original with
  | none => true
  | some k => (steps.drop k).any fun s => (s side).modifies

/-- Forget the original state of a view that lies above the stack. -/
def forget (original : Option ℕ) (steps : List Allviewstate) : Option ℕ :=
  original.bind fun k => if steps.length < k then none else some k

/-- Tell the views whether they are modified, from the stack `steps`. -/
def report (steps : List Allviewstate) (u : CUndo) (v : Views) : CUndo × Views :=
  let original := fun side => forget (u.originalstate side) steps
  ({ u with originalstate := original },
    { v with view := fun side =>
        { v.view side with modified := isModified (original side) steps side } })

/-- The part of `Undo` that moves steps.
Source: `Undo.cpp` `Undo` -/
def undoSteps (u : CUndo) (v : Views) : Option (CUndo × Views) :=
  if u.groups.getLast? = some u.caretpoints.length then do
    let b ← u.groups.dropLast.getLast?
    undoDownTo b u.caretpoints.length
      { u with
        groups := u.groups.dropLast.dropLast
        redogroups := u.redogroups ++ [b, u.caretpoints.length] } v
  else u.undoOne v

/-- Source: `Undo.cpp` `Undo` -/
def undo (u : CUndo) (v : Views) : Option (CUndo × Views) :=
  if u.canUndo then do
    let (u', v') ← u.undoSteps v
    some (report u'.viewstates u' v')
  else some (u, v)

/-- The part of `Redo` that moves steps.
Source: `Undo.cpp` `Redo` -/
def redoSteps (u : CUndo) (v : Views) : Option (CUndo × Views) :=
  if u.redogroups.getLast? = some u.redocaretpoints.length then do
    let b ← u.redogroups.dropLast.getLast?
    redoDownTo b u.redocaretpoints.length
      { u with
        redogroups := u.redogroups.dropLast.dropLast
        groups := u.groups ++ [b, u.redocaretpoints.length] } v
  else u.redoOne v

/-- The views are told from the stack of steps that can be redone.
Source: `Undo.cpp` `Redo` -/
def redo (u : CUndo) (v : Views) : Option (CUndo × Views) :=
  if u.canRedo then do
    let (u', v') ← u.redoSteps v
    some (report u'.redoviewstates u' v')
  else some (u, v)

/-! ### One step -/

variable {u : CUndo} {v : Views} {allstate : Allviewstate} {pt : Point}

/-- A stack that is not empty has a top. -/
theorem exists_concat {α : Type} {l : List α} {n : ℕ} (h : l.length = n + 1) :
    ∃ l' a, l = l' ++ [a] ∧ l'.length = n := by
  rcases List.eq_nil_or_concat l with rfl | ⟨l', a, rfl⟩
  · exact absurd h (by simp)
  · exact ⟨l', a, by simp, by simpa using h⟩

/-- The top step moves, reverted, to the other stack. -/
theorem undoOne_eq {steps : List Allviewstate} {pts : List Point}
    (hs : u.viewstates = steps ++ [allstate]) (hp : u.caretpoints = pts ++ [pt]) :
    u.undoOne v = some ({ u with
        redocaretpoints := u.redocaretpoints ++ [v.getCaretPosition v.target]
        redoviewstates := u.redoviewstates ++ [(doAll allstate v pt).1]
        viewstates := steps
        caretpoints := pts }, (doAll allstate v pt).2) := by
  simp [undoOne, hs, hp]

theorem redoOne_eq {steps : List Allviewstate} {pts : List Point}
    (hs : u.redoviewstates = steps ++ [allstate]) (hp : u.redocaretpoints = pts ++ [pt]) :
    u.redoOne v = some ({ u with
        caretpoints := u.caretpoints ++ [v.getCaretPosition v.target]
        viewstates := u.viewstates ++ [(doAll allstate v pt).1]
        redoviewstates := steps
        redocaretpoints := pts }, (doAll allstate v pt).2) := by
  simp [redoOne, hs, hp]

end CUndo

/-- A line of a file. -/
def someLine : Viewdata := { sLine := "a", state := .normal }

/-- The views with the given lines on the right and no lines elsewhere. -/
def rightViews (lines : List Viewdata) : Views where
  view := fun side => match side with
    | .right => { viewData := .rows { data := lines } }
    | _ => {}
  target := .right
  convertViewPosToScreen := fun _ pt => pt

end TortoiseSvn.Merge
