import TortoiseSvn.Merge.TwoWayDiff

/-!
# Moved blocks

`MovedBlocksDetect` looks for lines of modified hunks that are in both files, and cuts the hunks so
that each moved block is a hunk of its own. Lines are grouped by their trimmed texts, and a group with
one line in each file starts a block.

A hunk and an entry of the list of moved blocks are known by their addresses, a group by its line.
The first line of a block counts upwards in `extendUp` as the line behind `i1`, and `i2` is the line
behind the block.

Main result: `findBlock_spec`. The lines of a block are equal in both files.
-/

namespace TortoiseSvn.Merge

open TortoiseSvn.Lib

/-! ### Groups of equal lines -/

/-- Source: `MovedBlocks.cpp` `IntSet` -/
abbrev IntSet := Finset ℕ

/-- The smallest number, or 0.
Source: `MovedBlocks.cpp` `IntSet::GetSingle` -/
def IntSet.getSingle (s : IntSet) : ℕ := if h : s.Nonempty then s.min' h else 0

/-- Source: `MovedBlocks.cpp` `EquivalencyGroup` -/
structure EquivalencyGroup where
  linesLeft : IntSet := ∅
  linesRight : IntSet := ∅

/-- Source: `MovedBlocks.cpp` `EquivalencyGroup::IsPerfectMatch` -/
def EquivalencyGroup.isPerfectMatch (g : EquivalencyGroup) : Bool :=
  g.linesLeft.card = 1 && g.linesRight.card = 1

/-- Source: `MovedBlocks.cpp` `LineToGroupMap` -/
abbrev LineToGroupMap := List Char → Option EquivalencyGroup

namespace LineToGroupMap

/-- Source: `MovedBlocks.cpp` `LineToGroupMap::Add` -/
def add (map : LineToGroupMap) (lineno : ℕ) (line : List Char) (nside : ℕ) : LineToGroupMap :=
  let group := (map line).getD {}
  Function.update map line (some (if nside ≠ 0 then
      { group with linesRight := insert lineno group.linesRight }
    else { group with linesLeft := insert lineno group.linesLeft }))

/-- Take a line of each file out of the group of `line`.
Source: `MovedBlocks.cpp` `MovedBlocksDetect`, `m_LinesLeft.Remove`, `m_LinesRight.Remove` -/
def remove (map : LineToGroupMap) (line : List Char) (i j : ℕ) : LineToGroupMap :=
  Function.update map line ((map line).map fun group =>
    ⟨group.linesLeft.erase i, group.linesRight.erase j⟩)

end LineToGroupMap

/-- Source: `MovedBlocks.cpp` `GetTrimmedString` -/
def getTrimmedString (s1 : String) (dwIgnoreWS : ℕ) : List Char :=
  if dwIgnoreWS = 1 then s1.toList.filter fun c => !CDiffData.isBlank c
  else if dwIgnoreWS = 2 then s1.toList.dropWhile CDiffData.isBlank
  else s1.toList.rdropWhile CDiffData.isBlank

/-- The line under which a line is in the map. -/
def groupLine (dwIgnoreWS : ℕ) (line : CFileTextLine) : List Char :=
  if dwIgnoreWS ≠ 0 then getTrimmedString line.sLine dwIgnoreWS else line.sLine.toList

/-- The group of a line, or none.
Source: `MovedBlocks.cpp` `ExtractGroup` -/
def extractGroup (map : LineToGroupMap) (line : CFileTextLine) (dwIgnoreWS : ℕ) :
    Option (List Char) :=
  if (map (groupLine dwIgnoreWS line)).isSome then some (groupLine dwIgnoreWS line) else none

/-! ### Hunks and moved blocks -/

/-- A hunk with its address, and where it begins in the base and in your file.
Source: `svn_diff_t` -/
structure SvnDiffNode extends SvnDiff where
  address : ℕ
  originalStart : ℕ
  modifiedStart : ℕ
  deriving DecidableEq, Repr

/-- The list of moved blocks: the entries are those below `free`, and -1 is no line.
Source: `MovedBlocks.h` `tsvn_svn_diff_t_extension` -/
structure DiffExtensions where
  free : ℕ := 0
  base : ℕ → ℕ := fun _ => 0
  next : ℕ → Option ℕ := fun _ => none
  movedFrom : ℕ → ℤ := fun _ => -1
  movedTo : ℕ → ℤ := fun _ => -1
  head : Option ℕ := none
  existing : Option ℕ := none
  tail : Option ℕ := none

namespace DiffExtensions

/-- Source: `MovedBlocks.cpp` `CreateDiffExtension` -/
def createDiffExtension (x : DiffExtensions) (base : ℕ) : DiffExtensions :=
  { x with
    free := x.free + 1
    base := Function.update x.base x.free base
    next := Function.update x.next x.free none
    movedFrom := Function.update x.movedFrom x.free (-1)
    movedTo := Function.update x.movedTo x.free (-1) }

/-- Put a new entry behind another one.
Source: `MovedBlocks.cpp` `MovedBlocksDetect`, `newTail->next = tail->next; tail->next = newTail` -/
def insertBehind (x : DiffExtensions) (tail new : ℕ) : DiffExtensions :=
  { x with next := Function.update (Function.update x.next new (x.next tail)) tail (some new) }

def setBase (x : DiffExtensions) (entry base : ℕ) : DiffExtensions :=
  { x with base := Function.update x.base entry base }

def setMovedFrom (x : DiffExtensions) (entry : ℕ) (line : ℤ) : DiffExtensions :=
  { x with movedFrom := Function.update x.movedFrom entry line }

def setMovedTo (x : DiffExtensions) (entry : ℕ) (line : ℤ) : DiffExtensions :=
  { x with movedTo := Function.update x.movedTo entry line }

/-- Put a new entry at the end of the list.
Source: `MovedBlocks.cpp` `MovedBlocksDetect` (left pass), `if (!head)` -/
def append (x : DiffExtensions) (newTail : ℕ) : Except DiffFailure DiffExtensions :=
  match x.head, x.tail with
  | none, _ => .ok { x with head := some newTail, tail := some newTail }
  | some _, none => .error .undefined
  | some _, some tail =>
    .ok { x with next := Function.update x.next tail (some newTail), tail := some newTail }

/-- The entry of a hunk, which is the existing one or a new one behind the tail.
Source: `MovedBlocks.cpp` `MovedBlocksDetect` (right pass), `newTail` -/
def entryOf (x : DiffExtensions) (tempdiff : ℕ) : ℕ × DiffExtensions :=
  match x.existing.filter fun existing => x.base existing = tempdiff with
  | some existing => (existing, { x with tail := some existing })
  | none =>
    let newTail := x.free
    let x := x.createDiffExtension tempdiff
    let x := match x.head, x.tail with
      | none, _ => { x with head := some newTail }
      | some _, none => x
      | some _, some tail => x.insertBehind tail newTail
    (newTail, { x with tail := some newTail })

/-- The entry of the moved part when the hunk is broken before it. An existing entry stays with the
first part.
Source: `MovedBlocks.cpp` `MovedBlocksDetect` (right pass), `if(existing == newTail)` -/
def moveEntry (x : DiffExtensions) (tail newob : ℕ) : ℕ × DiffExtensions :=
  let (tail, x) := if x.existing = some tail then
      (x.free, { (x.createDiffExtension newob).insertBehind tail x.free with tail := some x.free })
    else (tail, x)
  (tail, x.setBase tail newob)

/-- The entry of what is behind the moved part gets what is known about the left side.
Source: `MovedBlocks.cpp` `MovedBlocksDetect` (right pass), `eNewOb` -/
def splitEntry (x : DiffExtensions) (tail newob : ℕ) : DiffExtensions :=
  let eNewOb := x.free
  let x := x.createDiffExtension newob
  let x := (x.setMovedFrom eNewOb (-1)).setMovedTo eNewOb (x.movedTo tail)
  let x := (x.setMovedTo tail (-1)).insertBehind tail eNewOb
  { x with existing := some eNewOb, tail := some eNewOb }

/-- Source: `MovedBlocks.cpp` `MovedBlocksDetect` (right pass), `if (suffix)` -/
def splitEntryFor (x : DiffExtensions) (tail : ℕ) : Option SvnDiffNode → DiffExtensions
  | some newob => x.splitEntry tail newob.address
  | none => x

/-- Source: `MovedBlocks.cpp` `AdjustExistingAndTail` -/
def adjustExistingAndTail (x : DiffExtensions) (tempdiff : ℕ) : DiffExtensions :=
  match x.existing with
  | none => x
  | some existing =>
    if x.base existing = tempdiff then
      { x with
        next := match x.tail with
          | none => x.next
          | some tail =>
            if tail ≠ existing then Function.update x.next tail (some existing) else x.next
        tail := some existing
        existing := x.next existing }
    else x

end DiffExtensions

namespace CDiffData

variable (d : CDiffData) (dwIgnoreWS : ℕ)

/-! ### Filling the map -/

/-- Lines `lineno` to `lineno + n - 1` of a file.
Source: `MovedBlocks.cpp` `MovedBlocksDetect`, "fill map", the loops over the lines -/
def addLines (file : CFileTextLines) (nside : ℕ) :
    ℕ → ℕ → LineToGroupMap → Except DiffFailure LineToGroupMap
  | _, 0, map => .ok map
  | lineno, n + 1, map => do
    let line ← orUndefined file[lineno]?
    addLines file nside (lineno + 1) n (map.add lineno (groupLine dwIgnoreWS line) nside)

/-- All modified hunks; no map if one of them goes up to the end of a file.
Source: `MovedBlocks.cpp` `MovedBlocksDetect`, "fill map" -/
def fillMap : List SvnDiffNode → LineToGroupMap → Except DiffFailure (Option LineToGroupMap)
  | [], map => .ok (some map)
  | tempdiff :: rest, map =>
    if tempdiff.type ≠ .diffModified then fillMap rest map
    else if d.arBaseFile.length ≤ tempdiff.originalStart + tempdiff.original then .ok none
    else do
      let map ← addLines dwIgnoreWS d.arBaseFile 0 tempdiff.originalStart tempdiff.original map
      if d.arYourFile.length ≤ tempdiff.modifiedStart + tempdiff.modified then .ok none
      else
        let map ← addLines dwIgnoreWS d.arYourFile 1 tempdiff.modifiedStart tempdiff.modified map
        fillMap rest map

/-! ### Finding a block -/

/-- The first of `n` lines whose group has one line in each file.
Source: `MovedBlocks.cpp` `MovedBlocksDetect`, the loops up to `IsPerfectMatch` -/
def findPerfectMatch (file : CFileTextLines) (map : LineToGroupMap) :
    ℕ → ℕ → Except DiffFailure (Option (ℕ × EquivalencyGroup))
  | _, 0 => .ok none
  | i, n + 1 => do
    let line ← orUndefined file[i]?
    let group ← orUndefined ((extractGroup map line dwIgnoreWS).bind map)
    if group.isPerfectMatch then return some (i, group)
    else findPerfectMatch file map (i + 1) n

/-- The groups of line `i` of the base and line `j` of your file are compared. If they are the same,
the lines are taken out.
Source: `MovedBlocks.cpp` `MovedBlocksDetect`, the loop bodies of "extend moved block" -/
def matchLines (map : LineToGroupMap) (i j : ℕ) : Except DiffFailure (Option LineToGroupMap) := do
  let base ← orUndefined d.arBaseFile[i]?
  let your ← orUndefined d.arYourFile[j]?
  let pGroup0 := extractGroup map base dwIgnoreWS
  let pGroup1 := extractGroup map your dwIgnoreWS
  if pGroup1 ≠ pGroup0 then return none
  else
    let group ← orUndefined pGroup0
    return some (map.remove group i j)

/-- The block begins at `(i, j)` so far, and does not go above `(startLeft, startRight)`.
Source: `MovedBlocks.cpp` `MovedBlocksDetect`, "extend moved block upward as far as possible" -/
def extendUp (startLeft startRight : ℕ) :
    ℕ → ℕ → LineToGroupMap → Except DiffFailure (ℕ × ℕ × LineToGroupMap)
  | i1 + 1, j1 + 1, map =>
    if startLeft ≤ i1 ∧ startRight ≤ j1 then do
      match ← d.matchLines dwIgnoreWS map i1 j1 with
      | some map => extendUp startLeft startRight i1 j1 map
      | none => return (i1 + 1, j1 + 1, map)
    else .ok (i1 + 1, j1 + 1, map)
  | i, j, map => .ok (i, j, map)

/-- The block ends before `(i2, j2)` so far, and `n` lines of the hunk are left.
Source: `MovedBlocks.cpp` `MovedBlocksDetect`, "extend moved block downward as far as possible" -/
def extendDown : ℕ → ℕ → ℕ → LineToGroupMap → Except DiffFailure (ℕ × ℕ × LineToGroupMap)
  | 0, i2, j2, map => .ok (i2, j2, map)
  | n + 1, i2, j2, map =>
    if d.arBaseFile.length ≤ i2 ∨ d.arYourFile.length ≤ j2 then .ok (i2, j2, map)
    else do
      match ← d.matchLines dwIgnoreWS map i2 j2 with
      | some map => extendDown n (i2 + 1) (j2 + 1) map
      | none => return (i2, j2, map)

/-- "Ok, now our moved block is (i1..i2,j1..j2)", with `i2` and `j2` behind the block. -/
structure MovedBlock where
  i1 : ℕ
  j1 : ℕ
  i2 : ℕ
  j2 : ℕ
  deriving DecidableEq, Repr

/-- The block around the lines `i` and `j`, with `n` lines behind them. -/
def findBlock (startLeft startRight n i j : ℕ) (map : LineToGroupMap) :
    Except DiffFailure (MovedBlock × LineToGroupMap) := do
  let (i1, j1, map) ← d.extendUp dwIgnoreWS startLeft startRight i j map
  let (i2, j2, map) ← d.extendDown dwIgnoreWS n (i + 1) (j + 1) map
  return (⟨i1, j1, i2, j2⟩, map)

end CDiffData

/-! ### Cutting hunks -/

namespace SvnDiffNode

variable (tempdiff : SvnDiffNode)

/-- What comes before line `i1` stays with the left side; the result has it, the moved lines with what
is behind them, and the next address that is free.
Source: `MovedBlocks.cpp` `MovedBlocksDetect` (left pass), "break tempdiff into two pieces" -/
def breakBeforeLeft (i1 free : ℕ) : List SvnDiffNode × SvnDiffNode × ℕ :=
  let before := i1 - tempdiff.originalStart
  if before ≠ 0 then
    ([{ tempdiff with original := before }],
      { type := .diffModified, address := free, originalStart := i1,
        modifiedStart := tempdiff.modifiedStart + tempdiff.modified, modified := 0,
        original := tempdiff.original - before, latest := 0 }, free + 1)
  else ([], tempdiff, free)

/-- "newob will be the suffix, and will get all the right side".
Source: `MovedBlocks.cpp` `MovedBlocksDetect` (left pass), "break off any suffix" -/
def breakBehindLeft (i2 free : ℕ) : SvnDiffNode × Option SvnDiffNode × ℕ :=
  let suffix := tempdiff.original - (i2 - tempdiff.originalStart)
  if suffix ≠ 0 then
    ({ tempdiff with modified := 0, original := tempdiff.original - suffix },
      some
        { type := .diffModified, address := free, originalStart := i2,
          modifiedStart := tempdiff.modifiedStart, modified := tempdiff.modified,
          original := suffix, latest := 0 }, free + 1)
  else (tempdiff, none, free)

/-- Source: `MovedBlocks.cpp` `MovedBlocksDetect` (right pass), "break tempdiff into two pieces" -/
def breakBeforeRight (j1 free : ℕ) : List SvnDiffNode × SvnDiffNode × ℕ :=
  let before := j1 - tempdiff.modifiedStart
  if before ≠ 0 then
    ([{ tempdiff with modified := before }],
      { type := .diffModified, address := free,
        originalStart := tempdiff.originalStart + tempdiff.original, modifiedStart := j1,
        modified := tempdiff.modified - before, original := 0, latest := 0 }, free + 1)
  else ([], tempdiff, free)

/-- "newob will be the suffix, and will get all the left side".
Source: `MovedBlocks.cpp` `MovedBlocksDetect` (right pass), "break off any suffix" -/
def breakBehindRight (j2 free : ℕ) : SvnDiffNode × Option SvnDiffNode × ℕ :=
  let suffix := tempdiff.modified - (j2 - tempdiff.modifiedStart)
  if suffix ≠ 0 then
    ({ tempdiff with modified := tempdiff.modified - suffix, original := 0 },
      some
        { type := .diffModified, address := free, originalStart := tempdiff.originalStart,
          modifiedStart := j2, modified := suffix, original := tempdiff.original, latest := 0 },
      free + 1)
  else (tempdiff, none, free)

end SvnDiffNode

/-- What the passes change; hunks from address `free` on are not in use. -/
structure Detection where
  map : LineToGroupMap
  list : DiffExtensions
  free : ℕ

/-- Both passes: what `step` leaves behind a hunk comes next. The fuel bounds the hunks.
Source: `MovedBlocks.cpp` `MovedBlocksDetect`, `for(tempdiff = diffYourBase; ...)` -/
def walk (step : Detection → SvnDiffNode →
    Except DiffFailure (Detection × List SvnDiffNode × Option SvnDiffNode)) :
    ℕ → Detection → List SvnDiffNode → Except DiffFailure (Detection × List SvnDiffNode)
  | _, s, [] => .ok (s, [])
  | 0, _, _ :: _ => .error .undefined
  | fuel + 1, s, tempdiff :: rest => do
    let (s, out, newob) ← step s tempdiff
    let (s, more) ← walk step fuel s (newob.toList ++ rest)
    return (s, out ++ more)

namespace CDiffData

variable (d : CDiffData) (dwIgnoreWS : ℕ)

/-! ### The left pass -/

/-- The hunk is cut around a block; the result has the hunks up to the moved one, and what is behind
it. The entry is that of the moved hunk, which is `tempdiff` itself when nothing comes before it.
Source: `MovedBlocks.cpp` `MovedBlocksDetect` (left pass), "now our moved block is" -/
def cutLeft (s : Detection) (tempdiff : SvnDiffNode) (b : MovedBlock) :
    Except DiffFailure (Detection × List SvnDiffNode × Option SvnDiffNode) := do
  let newTail := s.list.free
  let list ← (s.list.createDiffExtension tempdiff.address).append newTail
  let (front, tempdiff, free) := tempdiff.breakBeforeLeft b.i1 s.free
  let list := (list.setBase newTail tempdiff.address).setMovedTo newTail b.j1
  let (moved, newob, free) := tempdiff.breakBehindLeft b.i2 free
  return (⟨s.map, list, free⟩, front ++ [moved], newob)

/-- Source: `MovedBlocks.cpp` `MovedBlocksDetect` (left pass), the loop body -/
def leftHunk (s : Detection) (tempdiff : SvnDiffNode) :
    Except DiffFailure (Detection × List SvnDiffNode × Option SvnDiffNode) := do
  if tempdiff.type ≠ .diffModified then return (s, [tempdiff], none)
  else
    match ← findPerfectMatch dwIgnoreWS d.arBaseFile s.map tempdiff.originalStart
      tempdiff.original with
    | none => return (s, [tempdiff], none)
    | some (i, pGroup) =>
      let (b, map) ← d.findBlock dwIgnoreWS tempdiff.originalStart 0
        (tempdiff.originalStart + tempdiff.original - (i + 1)) i pGroup.linesRight.getSingle s.map
      cutLeft { s with map } tempdiff b

/-- Source: `MovedBlocks.cpp` `MovedBlocksDetect`, the left pass -/
def leftPass : ℕ → Detection → List SvnDiffNode → Except DiffFailure (Detection × List SvnDiffNode) :=
  walk (d.leftHunk dwIgnoreWS)

/-! ### The right pass -/

/-- Source: `MovedBlocks.cpp` `MovedBlocksDetect` (right pass), "now our moved block is" -/
def cutRight (s : Detection) (tempdiff : SvnDiffNode) (b : MovedBlock) :
    Detection × List SvnDiffNode × Option SvnDiffNode :=
  let (newTail, list) := s.list.entryOf tempdiff.address
  let (front, tempdiff, free) := tempdiff.breakBeforeRight b.j1 s.free
  let (tail, list) :=
    if front = [] then (newTail, list) else list.moveEntry newTail tempdiff.address
  let list := list.setMovedFrom tail b.i1
  let (moved, newob, free) := tempdiff.breakBehindRight b.j2 free
  let list := list.splitEntryFor tail newob
  (⟨s.map, list.adjustExistingAndTail moved.address, free⟩, front ++ [moved], newob)

/-- Line 0 of the base counts as no match, and the list is not adjusted then.
Source: `MovedBlocks.cpp` `MovedBlocksDetect` (right pass), the loop body -/
def rightHunk (s : Detection) (tempdiff : SvnDiffNode) :
    Except DiffFailure (Detection × List SvnDiffNode × Option SvnDiffNode) := do
  if tempdiff.type ≠ .diffModified then return (s, [tempdiff], none)
  else
    match ← findPerfectMatch dwIgnoreWS d.arYourFile s.map tempdiff.modifiedStart
      tempdiff.modified with
    | none =>
      return ({ s with list := s.list.adjustExistingAndTail tempdiff.address }, [tempdiff], none)
    | some (j, pGroup) =>
      let i := pGroup.linesLeft.getSingle
      if i = 0 then return (s, [tempdiff], none)
      else
        let (b, map) ← d.findBlock dwIgnoreWS 0 tempdiff.modifiedStart
          (tempdiff.modifiedStart + tempdiff.modified - (j + 1)) i j s.map
        return cutRight { s with map } tempdiff b

/-- Source: `MovedBlocks.cpp` `MovedBlocksDetect`, the right pass -/
def rightPass : ℕ → Detection → List SvnDiffNode → Except DiffFailure (Detection × List SvnDiffNode) :=
  walk (d.rightHunk dwIgnoreWS)

/-- The hunks and the list of moved blocks, which begins at `head`.
Source: `MovedBlocks.cpp` `CDiffData::MovedBlocksDetect` -/
def movedBlocksDetect (diffYourBase : List SvnDiffNode) :
    Except DiffFailure (List SvnDiffNode × DiffExtensions) := do
  match ← d.fillMap dwIgnoreWS diffYourBase fun _ => none with
  | none => return (diffYourBase, {})
  | some map =>
    let (s, hunks) ← d.leftPass dwIgnoreWS (diffYourBase.map fun h => h.original + 1).sum
      ⟨map, {}, (diffYourBase.map fun h => h.address + 1).foldr max 0⟩ diffYourBase
    let list := { s.list with existing := s.list.head, tail := none }
    let (s, hunks) ← d.rightPass dwIgnoreWS (hunks.map fun h => h.modified + 1).sum
      { s with list } hunks
    return (hunks, s.list)

/-! ### Lines and groups -/

/-- Line `i` of the base and line `j` of your file are equal, up to white space. -/
def SameLine (i j : ℕ) : Prop :=
  ∃ base your, d.arBaseFile[i]? = some base ∧ d.arYourFile[j]? = some your ∧
    groupLine dwIgnoreWS base = groupLine dwIgnoreWS your

/-- The lines of a group have its text. -/
structure Fits (key : List Char) (group : EquivalencyGroup) : Prop where
  left : ∀ i ∈ group.linesLeft,
    ∃ base, d.arBaseFile[i]? = some base ∧ groupLine dwIgnoreWS base = key
  right : ∀ j ∈ group.linesRight,
    ∃ your, d.arYourFile[j]? = some your ∧ groupLine dwIgnoreWS your = key

/-- All lines are in the groups of their texts. -/
def Grouped (map : LineToGroupMap) : Prop :=
  ∀ key group, map key = some group → Fits d dwIgnoreWS key group

/-- Line `i` of a file has a group. -/
def HasGroup (file : CFileTextLines) (map : LineToGroupMap) (i : ℕ) : Prop :=
  ∃ line, file[i]? = some line ∧ (map (groupLine dwIgnoreWS line)).isSome

/-- All groups are still there. -/
def Keeps (map map' : LineToGroupMap) : Prop := ∀ line, (map line).isSome → (map' line).isSome

variable {d dwIgnoreWS} {map map' map'' : LineToGroupMap} {file : CFileTextLines} {i j n : ℕ}
  {line : CFileTextLine}

theorem Keeps.refl (map : LineToGroupMap) : Keeps map map := fun _ h => h

theorem Keeps.trans (h : Keeps map map') (h' : Keeps map' map'') : Keeps map map'' :=
  fun line hline => h' line (h line hline)

theorem HasGroup.keeps (h : HasGroup dwIgnoreWS file map i) (hkeeps : Keeps map map') :
    HasGroup dwIgnoreWS file map' i := by
  obtain ⟨line, hline, hgroup⟩ := h
  exact ⟨line, hline, hkeeps _ hgroup⟩

theorem grouped_empty : Grouped d dwIgnoreWS fun _ => none := nofun

theorem Grouped.update (h : Grouped d dwIgnoreWS map) {key : List Char}
    {group : Option EquivalencyGroup} (hgroup : ∀ g, group = some g → Fits d dwIgnoreWS key g) :
    Grouped d dwIgnoreWS (Function.update map key group) := by
  intro key' g hg
  by_cases hkey : key' = key
  · rw [hkey, Function.update_self] at hg
    exact hkey ▸ hgroup g hg
  · rw [Function.update_of_ne hkey] at hg
    exact h key' g hg

/-- The group of a text, which is empty if there is none yet. -/
theorem Grouped.getD (h : Grouped d dwIgnoreWS map) (key : List Char) :
    Fits d dwIgnoreWS key ((map key).getD {}) := by
  rcases hgroup : map key with _ | group
  · exact ⟨fun i hi => absurd hi (Finset.notMem_empty i), fun j hj => absurd hj (Finset.notMem_empty j)⟩
  · exact h key group hgroup

theorem keeps_add (map : LineToGroupMap) (lineno : ℕ) (key : List Char) (nside : ℕ) :
    Keeps map (map.add lineno key nside) := by
  intro line hline
  unfold LineToGroupMap.add
  by_cases hkey : line = key
  · rw [hkey, Function.update_self]
    rfl
  · rw [Function.update_of_ne hkey]
    exact hline

theorem add_isSome (map : LineToGroupMap) (lineno : ℕ) (key : List Char) (nside : ℕ) :
    (map.add lineno key nside key).isSome := by
  unfold LineToGroupMap.add
  rw [Function.update_self]
  rfl

theorem keeps_remove (map : LineToGroupMap) (key : List Char) (i j : ℕ) :
    Keeps map (map.remove key i j) := by
  intro line hline
  unfold LineToGroupMap.remove
  by_cases hkey : line = key
  · rw [hkey, Function.update_self, Option.isSome_map, ← hkey]
    exact hline
  · rw [Function.update_of_ne hkey]
    exact hline

theorem Grouped.addLeft (h : Grouped d dwIgnoreWS map) (hline : d.arBaseFile[i]? = some line) :
    Grouped d dwIgnoreWS (map.add i (groupLine dwIgnoreWS line) 0) := by
  have hold := h.getD (groupLine dwIgnoreWS line)
  refine h.update fun g hg => ?_
  rw [if_neg (not_not.mpr rfl)] at hg
  obtain rfl := Option.some.inj hg
  refine ⟨fun k hk => ?_, hold.right⟩
  rcases Finset.mem_insert.mp hk with rfl | hk
  · exact ⟨line, hline, rfl⟩
  · exact hold.left k hk

theorem Grouped.addRight (h : Grouped d dwIgnoreWS map) (hline : d.arYourFile[j]? = some line) :
    Grouped d dwIgnoreWS (map.add j (groupLine dwIgnoreWS line) 1) := by
  have hold := h.getD (groupLine dwIgnoreWS line)
  refine h.update fun g hg => ?_
  rw [if_pos one_ne_zero] at hg
  obtain rfl := Option.some.inj hg
  refine ⟨hold.left, fun k hk => ?_⟩
  rcases Finset.mem_insert.mp hk with rfl | hk
  · exact ⟨line, hline, rfl⟩
  · exact hold.right k hk

theorem Grouped.remove (h : Grouped d dwIgnoreWS map) (key : List Char) (i j : ℕ) :
    Grouped d dwIgnoreWS (map.remove key i j) := by
  refine h.update fun g hg => ?_
  obtain ⟨group, hgroup, rfl⟩ := Option.map_eq_some_iff.mp hg
  have hfits := h key group hgroup
  exact ⟨fun k hk => hfits.left k (Finset.mem_of_mem_erase hk),
    fun k hk => hfits.right k (Finset.mem_of_mem_erase hk)⟩

/-! ### What filling the map gives -/

theorem addLines_spec {nside : ℕ} (hadd : ∀ map i line, Grouped d dwIgnoreWS map →
      file[i]? = some line → Grouped d dwIgnoreWS (map.add i (groupLine dwIgnoreWS line) nside))
    (h : Grouped d dwIgnoreWS map) (hlen : i + n ≤ file.length) :
    ∃ map', addLines dwIgnoreWS file nside i n map = .ok map' ∧ Grouped d dwIgnoreWS map' ∧
      Keeps map map' ∧ ∀ k < n, HasGroup dwIgnoreWS file map' (i + k) := by
  induction n generalizing i map with
  | zero => exact ⟨map, rfl, h, Keeps.refl map, nofun⟩
  | succ n ih =>
    have hline : file[i]? = some file[i] := List.getElem?_eq_getElem (by omega)
    obtain ⟨map', hadd', hgrouped, hkeeps, hgroups⟩ := ih (hadd map i _ h hline)
      (by omega : i + 1 + n ≤ file.length)
    refine ⟨map', ?_, hgrouped, (keeps_add _ _ _ _).trans hkeeps, fun k hk => ?_⟩
    · rw [addLines, hline]
      exact hadd'
    · cases k with
      | zero => exact HasGroup.keeps ⟨_, hline, add_isSome _ _ _ _⟩ hkeeps
      | succ k =>
        have hgroup := hgroups k (Nat.lt_of_succ_lt_succ hk)
        rwa [Nat.add_right_comm] at hgroup

/-- All lines of a modified hunk have groups. -/
structure AllGrouped (d : CDiffData) (dwIgnoreWS : ℕ) (map : LineToGroupMap) (h : SvnDiffNode) :
    Prop where
  left : ∀ k < h.original, HasGroup dwIgnoreWS d.arBaseFile map (h.originalStart + k)
  right : ∀ k < h.modified, HasGroup dwIgnoreWS d.arYourFile map (h.modifiedStart + k)

theorem AllGrouped.keeps {h : SvnDiffNode} (hcovers : AllGrouped d dwIgnoreWS map h)
    (hkeeps : Keeps map map') : AllGrouped d dwIgnoreWS map' h :=
  ⟨fun k hk => (hcovers.left k hk).keeps hkeeps, fun k hk => (hcovers.right k hk).keeps hkeeps⟩

theorem fillMap_spec (h : Grouped d dwIgnoreWS map) (hunks : List SvnDiffNode) :
    ∃ r, d.fillMap dwIgnoreWS hunks map = .ok r ∧ ∀ map', r = some map' →
      Grouped d dwIgnoreWS map' ∧ Keeps map map' ∧
        ∀ h ∈ hunks, h.type = .diffModified → AllGrouped d dwIgnoreWS map' h := by
  induction hunks generalizing map with
  | nil =>
    refine ⟨some map, rfl, fun map' hmap => ?_⟩
    obtain rfl := Option.some.inj hmap
    exact ⟨h, Keeps.refl map, nofun⟩
  | cons tempdiff rest ih =>
    rw [fillMap]
    by_cases htype : tempdiff.type = .diffModified
    · rw [if_neg (not_not.mpr htype)]
      by_cases hbase : d.arBaseFile.length ≤ tempdiff.originalStart + tempdiff.original
      · rw [if_pos hbase]
        exact ⟨none, rfl, nofun⟩
      obtain ⟨map₁, hadd₁, h₁, hkeeps₁, hleft⟩ := addLines_spec
        (fun _ _ _ hgrouped hline => hgrouped.addLeft hline) h (Nat.le_of_not_le hbase)
      rw [if_neg hbase, hadd₁]
      dsimp only [bind, Except.bind]
      by_cases hyour : d.arYourFile.length ≤ tempdiff.modifiedStart + tempdiff.modified
      · rw [if_pos hyour]
        exact ⟨none, rfl, nofun⟩
      obtain ⟨map₂, hadd₂, h₂, hkeeps₂, hright⟩ := addLines_spec
        (fun _ _ _ hgrouped hline => hgrouped.addRight hline) h₁ (Nat.le_of_not_le hyour)
      obtain ⟨r, hrest, hr⟩ := ih h₂
      rw [if_neg hyour, hadd₂]
      refine ⟨r, hrest, fun map' hmap => ?_⟩
      obtain ⟨hgrouped, hkeeps, hcovers⟩ := hr map' hmap
      refine ⟨hgrouped, (hkeeps₁.trans hkeeps₂).trans hkeeps, fun t ht htype => ?_⟩
      rcases List.mem_cons.mp ht with rfl | ht
      · exact ⟨fun k hk => (hleft k hk).keeps (hkeeps₂.trans hkeeps),
          fun k hk => (hright k hk).keeps hkeeps⟩
      · exact hcovers t ht htype
    · rw [if_pos htype]
      obtain ⟨r, hrest, hr⟩ := ih h
      refine ⟨r, hrest, fun map' hmap => ?_⟩
      obtain ⟨hgrouped, hkeeps, hcovers⟩ := hr map' hmap
      refine ⟨hgrouped, hkeeps, fun t ht htype' => ?_⟩
      rcases List.mem_cons.mp ht with rfl | ht
      · exact absurd htype' htype
      · exact hcovers t ht htype'

/-! ### What looking for a block gives -/

theorem getSingle_mem {s : IntSet} (hs : s.card = 1) : s.getSingle ∈ s := by
  have hne : s.Nonempty := Finset.card_pos.mp (hs ▸ Nat.one_pos)
  rw [IntSet.getSingle, dif_pos hne]
  exact s.min'_mem hne

/-- A perfect match in the base has an equal line of your file. -/
theorem sameLine_left {group : EquivalencyGroup} (h : Grouped d dwIgnoreWS map)
    (hline : d.arBaseFile[i]? = some line) (hgroup : map (groupLine dwIgnoreWS line) = some group)
    (hperfect : group.isPerfectMatch = true) :
    SameLine d dwIgnoreWS i group.linesRight.getSingle := by
  have hcard := of_decide_eq_true (Bool.and_eq_true_iff.mp hperfect).2
  obtain ⟨your, hyour, hkey⟩ := (h _ group hgroup).right _ (getSingle_mem hcard)
  exact ⟨line, your, hline, hyour, hkey.symm⟩

/-- A perfect match in your file has an equal line of the base. -/
theorem sameLine_right {group : EquivalencyGroup} (h : Grouped d dwIgnoreWS map)
    (hline : d.arYourFile[j]? = some line) (hgroup : map (groupLine dwIgnoreWS line) = some group)
    (hperfect : group.isPerfectMatch = true) :
    SameLine d dwIgnoreWS group.linesLeft.getSingle j := by
  have hcard := of_decide_eq_true (Bool.and_eq_true_iff.mp hperfect).1
  obtain ⟨base, hbase, hkey⟩ := (h _ group hgroup).left _ (getSingle_mem hcard)
  exact ⟨base, line, hbase, hline, hkey⟩

theorem findPerfectMatch_spec (hgroups : ∀ k < n, HasGroup dwIgnoreWS file map (i + k)) :
    ∃ r, findPerfectMatch dwIgnoreWS file map i n = .ok r ∧ ∀ k group, r = some (k, group) →
      i ≤ k ∧ k < i + n ∧ group.isPerfectMatch = true ∧ ∃ line, file[k]? = some line ∧
        map (groupLine dwIgnoreWS line) = some group := by
  induction n generalizing i with
  | zero => exact ⟨none, rfl, nofun⟩
  | succ n ih =>
    obtain ⟨line, hline, hsome⟩ := hgroups 0 (Nat.succ_pos n)
    obtain ⟨group, hgroup⟩ := Option.isSome_iff_exists.mp hsome
    rw [Nat.add_zero] at hline
    have hextract : (extractGroup map line dwIgnoreWS).bind map = some group := by
      rw [extractGroup, if_pos hsome, Option.bind_some, hgroup]
    rw [findPerfectMatch, hline]
    dsimp only [bind, Except.bind, orUndefined]
    rw [hextract]
    dsimp only
    by_cases hperfect : group.isPerfectMatch = true
    · rw [if_pos hperfect]
      refine ⟨some (i, group), rfl, fun k g hk => ?_⟩
      obtain ⟨rfl, rfl⟩ := Prod.mk.inj (Option.some.inj hk)
      exact ⟨le_rfl, by omega, hperfect, line, hline, hgroup⟩
    · rw [if_neg hperfect]
      obtain ⟨r, hrest, hr⟩ := @ih (i + 1) fun k hk => by
        have hgroup := hgroups (k + 1) (Nat.succ_lt_succ hk)
        rwa [← Nat.add_assoc, Nat.add_right_comm] at hgroup
      refine ⟨r, hrest, fun k g hk => ?_⟩
      obtain ⟨hle, hlt, hmatch⟩ := hr k g hk
      exact ⟨by omega, by omega, hmatch⟩

/-- Two lines are compared, one of which has a group. -/
theorem matchLines_spec (h : Grouped d dwIgnoreWS map) (hi : i < d.arBaseFile.length)
    (hj : j < d.arYourFile.length) (hgroup : HasGroup dwIgnoreWS d.arBaseFile map i ∨
      HasGroup dwIgnoreWS d.arYourFile map j) :
    ∃ r, d.matchLines dwIgnoreWS map i j = .ok r ∧ ∀ map', r = some map' →
      SameLine d dwIgnoreWS i j ∧ Grouped d dwIgnoreWS map' ∧ Keeps map map' := by
  have hbase : d.arBaseFile[i]? = some d.arBaseFile[i] := List.getElem?_eq_getElem hi
  have hyour : d.arYourFile[j]? = some d.arYourFile[j] := List.getElem?_eq_getElem hj
  rw [matchLines, hbase, hyour]
  dsimp only [bind, Except.bind, orUndefined]
  by_cases hne : extractGroup map d.arYourFile[j] dwIgnoreWS ≠
      extractGroup map d.arBaseFile[i] dwIgnoreWS
  · rw [if_pos hne]
    exact ⟨none, rfl, nofun⟩
  · rw [if_neg hne]
    have heq := not_not.mp hne
    -- one of the groups is there, and so both are
    obtain ⟨key, hkey⟩ : ∃ key, extractGroup map d.arBaseFile[i] dwIgnoreWS = some key := by
      rcases hgroup with ⟨line, hline, hsome⟩ | ⟨line, hline, hsome⟩
      · obtain rfl := Option.some.inj (hbase.symm.trans hline)
        exact ⟨_, if_pos hsome⟩
      · obtain rfl := Option.some.inj (hyour.symm.trans hline)
        exact ⟨_, heq.symm.trans (if_pos hsome)⟩
    have hof : ∀ line, extractGroup map line dwIgnoreWS = some key →
        groupLine dwIgnoreWS line = key := by
      intro line hline
      unfold extractGroup at hline
      split at hline
      · exact Option.some.inj hline
      · exact nomatch hline
    refine ⟨some (map.remove key i j), by rw [hkey]; rfl, fun map' hmap => ?_⟩
    obtain rfl := Option.some.inj hmap
    exact ⟨⟨_, _, hbase, hyour, (hof _ hkey).trans (hof _ (heq.trans hkey)).symm⟩, h.remove _ _ _,
      keeps_remove _ _ _ _⟩

/-- Upwards, the lines of the block are equal. -/
theorem extendUp_spec {startLeft startRight : ℕ} (h : Grouped d dwIgnoreWS map)
    (hi : i ≤ d.arBaseFile.length) (hj : j ≤ d.arYourFile.length)
    (hgroups : ∀ i' j', startLeft ≤ i' → i' < i → startRight ≤ j' → j' < j →
      HasGroup dwIgnoreWS d.arBaseFile map i' ∨ HasGroup dwIgnoreWS d.arYourFile map j')
    (hleft : startLeft ≤ i) (hright : startRight ≤ j) :
    ∃ i1 j1 map', d.extendUp dwIgnoreWS startLeft startRight i j map = .ok (i1, j1, map') ∧
      startLeft ≤ i1 ∧ i1 ≤ i ∧ startRight ≤ j1 ∧ j1 ≤ j ∧ i1 + j = i + j1 ∧
      Grouped d dwIgnoreWS map' ∧ Keeps map map' ∧
      ∀ k, i1 + k < i → SameLine d dwIgnoreWS (i1 + k) (j1 + k) := by
  induction i generalizing j map with
  | zero =>
    exact ⟨0, j, map, by rw [extendUp]; rintro _ _ ⟨⟩, hleft, le_rfl, hright, le_rfl, rfl, h,
      Keeps.refl map, fun k hk => absurd hk (Nat.not_lt_zero _)⟩
  | succ i ih =>
    have hstop : ∃ i1 j1 map', Except.ok (i + 1, j, map) = Except.ok (ε := DiffFailure) (i1, j1, map') ∧
        startLeft ≤ i1 ∧ i1 ≤ i + 1 ∧ startRight ≤ j1 ∧ j1 ≤ j ∧ i1 + j = i + 1 + j1 ∧
        Grouped d dwIgnoreWS map' ∧ Keeps map map' ∧
        ∀ k, i1 + k < i + 1 → SameLine d dwIgnoreWS (i1 + k) (j1 + k) :=
      ⟨i + 1, j, map, rfl, hleft, le_rfl, hright, le_rfl, rfl, h, Keeps.refl map,
        fun k hk => absurd hk (by omega)⟩
    cases j with
    | zero =>
      rw [extendUp]
      · exact hstop
      · rintro _ _ - ⟨⟩
    | succ j =>
      rw [extendUp]
      by_cases hin : startLeft ≤ i ∧ startRight ≤ j
      · obtain ⟨r, hmatch, hr⟩ := matchLines_spec h hi hj
          (hgroups i j hin.1 (Nat.lt_succ_self i) hin.2 (Nat.lt_succ_self j))
        rw [if_pos hin, hmatch]
        dsimp only [bind, Except.bind]
        cases r with
        | none => exact hstop
        | some map₁ =>
          obtain ⟨hsame, h₁, hkeeps₁⟩ := hr map₁ rfl
          obtain ⟨i1, j1, map', hup, hi1, hle, hj1, hle', heq, h', hkeeps, hlines⟩ := @ih map₁ j h₁
            (Nat.le_of_succ_le hi) (Nat.le_of_succ_le hj)
            (fun i' j' hli hi' hlj hj' => by
              rcases hgroups i' j' hli (Nat.lt_succ_of_lt hi') hlj (Nat.lt_succ_of_lt hj') with
                hgroup | hgroup
              · exact Or.inl (hgroup.keeps hkeeps₁)
              · exact Or.inr (hgroup.keeps hkeeps₁)) hin.1 hin.2
          refine ⟨i1, j1, map', hup, hi1, Nat.le_succ_of_le hle, hj1, Nat.le_succ_of_le hle', by omega,
            h', hkeeps₁.trans hkeeps, fun k hk => ?_⟩
          by_cases hlast : i1 + k = i
          · have hlast' : j1 + k = j := by omega
            rw [hlast, hlast']
            exact hsame
          · exact hlines k (by omega)
      · rw [if_neg hin]
        exact hstop

/-- Downwards, the lines of the block are equal. -/
theorem extendDown_spec (h : Grouped d dwIgnoreWS map)
    (hgroups : ∀ k < n, HasGroup dwIgnoreWS d.arBaseFile map (i + k) ∨
      HasGroup dwIgnoreWS d.arYourFile map (j + k)) :
    ∃ l map', d.extendDown dwIgnoreWS n i j map = .ok (i + l, j + l, map') ∧ l ≤ n ∧
      Grouped d dwIgnoreWS map' ∧ Keeps map map' ∧
      ∀ k < l, SameLine d dwIgnoreWS (i + k) (j + k) := by
  induction n generalizing i j map with
  | zero => exact ⟨0, map, rfl, le_rfl, h, Keeps.refl map, nofun⟩
  | succ n ih =>
    have hstop : ∃ l map', Except.ok (i, j, map) =
          Except.ok (ε := DiffFailure) (i + l, j + l, map') ∧ l ≤ n + 1 ∧
        Grouped d dwIgnoreWS map' ∧ Keeps map map' ∧
        ∀ k < l, SameLine d dwIgnoreWS (i + k) (j + k) :=
      ⟨0, map, rfl, Nat.zero_le _, h, Keeps.refl map, nofun⟩
    rw [extendDown]
    by_cases hend : d.arBaseFile.length ≤ i ∨ d.arYourFile.length ≤ j
    · rw [if_pos hend]
      exact hstop
    · rw [not_or, Nat.not_le, Nat.not_le] at hend
      obtain ⟨r, hmatch, hr⟩ := matchLines_spec h hend.1 hend.2 (hgroups 0 (Nat.succ_pos n))
      rw [if_neg (by omega), hmatch]
      dsimp only [bind, Except.bind]
      cases r with
      | none => exact hstop
      | some map₁ =>
        obtain ⟨hsame, h₁, hkeeps₁⟩ := hr map₁ rfl
        obtain ⟨l, map', hdown, hle, h', hkeeps, hlines⟩ := @ih map₁ (i + 1) (j + 1) h₁ fun k hk => by
          rw [Nat.add_assoc, Nat.add_assoc, Nat.add_comm 1 k]
          rcases hgroups (k + 1) (Nat.succ_lt_succ hk) with hgroup | hgroup
          · exact Or.inl (hgroup.keeps hkeeps₁)
          · exact Or.inr (hgroup.keeps hkeeps₁)
        refine ⟨l + 1, map', ?_, Nat.succ_le_succ hle, h', hkeeps₁.trans hkeeps, fun k hk => ?_⟩
        · rw [← Nat.add_assoc, ← Nat.add_assoc, Nat.add_right_comm i, Nat.add_right_comm j]
          exact hdown
        · cases k with
          | zero => exact hsame
          | succ k =>
            have hline := hlines k (Nat.lt_of_succ_lt_succ hk)
            rwa [Nat.add_right_comm, Nat.add_right_comm j] at hline

/-- What a block has to be: around two lines, within the bounds, and with equal lines. -/
structure IsBlock (d : CDiffData) (dwIgnoreWS startLeft startRight n i j : ℕ) (b : MovedBlock) :
    Prop where
  startLeft_le : startLeft ≤ b.i1
  startRight_le : startRight ≤ b.j1
  i1_le : b.i1 ≤ i
  j1_le : b.j1 ≤ j
  lt_i2 : i < b.i2
  lt_j2 : j < b.j2
  i2_le : b.i2 ≤ i + 1 + n
  j2_le : b.j2 ≤ j + 1 + n
  /-- Both sides have the same number of lines. -/
  lengths : b.i1 + b.j2 = b.i2 + b.j1
  lines : ∀ k, b.i1 + k < b.i2 → SameLine d dwIgnoreWS (b.i1 + k) (b.j1 + k)

/-- **The lines of a block are equal in both files.** -/
theorem findBlock_spec {startLeft startRight : ℕ} (h : Grouped d dwIgnoreWS map)
    (hsame : SameLine d dwIgnoreWS i j) (hleft : startLeft ≤ i) (hright : startRight ≤ j)
    (hup : ∀ i' j', startLeft ≤ i' → i' < i → startRight ≤ j' → j' < j →
      HasGroup dwIgnoreWS d.arBaseFile map i' ∨ HasGroup dwIgnoreWS d.arYourFile map j')
    (hdown : ∀ k < n, HasGroup dwIgnoreWS d.arBaseFile map (i + 1 + k) ∨
      HasGroup dwIgnoreWS d.arYourFile map (j + 1 + k)) :
    ∃ b map', d.findBlock dwIgnoreWS startLeft startRight n i j map = .ok (b, map') ∧
      IsBlock d dwIgnoreWS startLeft startRight n i j b ∧ Grouped d dwIgnoreWS map' ∧
      Keeps map map' := by
  obtain ⟨base, your, hbase, hyour, -⟩ := id hsame
  have hi := (List.getElem?_eq_some_iff.mp hbase).1
  have hj := (List.getElem?_eq_some_iff.mp hyour).1
  obtain ⟨i1, j1, map₁, hextend, hi1, hle, hj1, hle', heq, h₁, hkeeps₁, hlines⟩ :=
    extendUp_spec h hi.le hj.le hup hleft hright
  obtain ⟨l, map₂, hextend₂, hln, h₂, hkeeps₂, hlines₂⟩ := extendDown_spec h₁ fun k hk => by
    rcases hdown k hk with hgroup | hgroup
    · exact Or.inl (hgroup.keeps hkeeps₁)
    · exact Or.inr (hgroup.keeps hkeeps₁)
  refine ⟨⟨i1, j1, i + 1 + l, j + 1 + l⟩, map₂, ?_, ⟨hi1, hj1, hle, hle', ?_, ?_, ?_, ?_, ?_,
    fun k hk => ?_⟩, h₂, hkeeps₁.trans hkeeps₂⟩
  · rw [findBlock, hextend]
    dsimp only [bind, Except.bind]
    rw [hextend₂]
    rfl
  · show i < i + 1 + l
    omega
  · show j < j + 1 + l
    omega
  · show i + 1 + l ≤ i + 1 + n
    omega
  · show j + 1 + l ≤ j + 1 + n
    omega
  · show i1 + (j + 1 + l) = i + 1 + l + j1
    omega
  · replace hk : i1 + k < i + 1 + l := hk
    show SameLine d dwIgnoreWS (i1 + k) (j1 + k)
    rcases Nat.lt_trichotomy (i1 + k) i with hlt | heq' | hgt
    · exact hlines k hlt
    · have hmiddle : j1 + k = j := by omega
      rw [heq', hmiddle]
      exact hsame
    · obtain ⟨k', hk'⟩ := Nat.exists_eq_add_of_lt hgt
      have hline := hlines₂ k' (by omega)
      rw [hk', (by omega : j1 + k = j + 1 + k'), (by omega : i + k' + 1 = i + 1 + k')]
      exact hline

end CDiffData

end TortoiseSvn.Merge
