import TortoiseSvn.LogCache.RevisionInfoContainer

/-!
# Updating a revision info container

`Update` takes over the entries of another container. An index map says which entry of the target
each of them belongs to; target indices behind the end are appended first. Each kind of data is then
replaced in a pass of its own, if the caller's flags ask for it: single values in place, lists by
splicing the columns together anew.
-/

namespace TortoiseSvn.LogCache

open TortoiseSvn.Lib

namespace CRevisionInfoContainer

/-- The data of a source entry is taken over: always, or where the entry has it if old data is to be
kept otherwise.
Source: `RevisionInfoContainer.cpp`, the condition of the `Update…` functions -/
def supplies (newData : CRevisionInfoContainer) (flag : UInt8) (keepOldDataForMissingNew : Bool)
    (sourceIndex : ℕ) : Except Fault Bool :=
  if keepOldDataForMissingNew = false then .ok true
  else (newData.getPresenceFlags sourceIndex).map fun flags => flags &&& flag ≠ 0

/-- The source entry whose data replaces that of target entry `i`, if there is one.
Source: `RevisionInfoContainer.cpp`, the condition of the splicing loops -/
def replacement (newData : CRevisionInfoContainer) (indexMap : IndexMapping) (flag : UInt8)
    (keepOldDataForMissingNew : Bool) (i : ℕ) : Except Fault (Option ℕ) :=
  match indexMap.find i with
  | none => .ok none
  | some sourceIndex =>
    (newData.supplies flag keepOldDataForMissingNew sourceIndex).map fun b =>
      if b then some sourceIndex else none

/-- Source: `RevisionInfoContainer.cpp` `CRevisionInfoContainer::UpdateAuthors`, the loop -/
def updateAuthorsLoop (newData : CRevisionInfoContainer) (keepOldDataForMissingNew : Bool)
    (idMapping : List ℕ) : IndexMapping → List ℕ → Except Fault (List ℕ)
  | [], authors => .ok authors
  | (key, value) :: rest, authors => do
    if ← newData.supplies HAS_AUTHOR keepOldDataForMissingNew value then
      let author ← checked newData.authors[value]?
      let author ← checked idMapping[author]?
      let authors ← store authors key author
      updateAuthorsLoop newData keepOldDataForMissingNew idMapping rest authors
    else updateAuthorsLoop newData keepOldDataForMissingNew idMapping rest authors

/-- Source: `RevisionInfoContainer.cpp` `CRevisionInfoContainer::UpdateAuthors` -/
def updateAuthors (c newData : CRevisionInfoContainer) (indexMap : IndexMapping)
    (keepOldDataForMissingNew : Bool) : Except Fault CRevisionInfoContainer := do
  let merged := c.authorPool.merge newData.authorPool
  let authors ← updateAuthorsLoop newData keepOldDataForMissingNew merged.2 indexMap c.authors
  pure { c with authorPool := merged.1, authors := authors }

/-- Source: `RevisionInfoContainer.cpp` `CRevisionInfoContainer::UpdateTimeStamps`, the loop -/
def updateTimeStampsLoop (newData : CRevisionInfoContainer) (keepOldDataForMissingNew : Bool) :
    IndexMapping → List ℤ → Except Fault (List ℤ)
  | [], timeStamps => .ok timeStamps
  | (key, value) :: rest, timeStamps => do
    if ← newData.supplies HAS_TIME_STAMP keepOldDataForMissingNew value then
      let timeStamp ← checked newData.timeStamps[value]?
      let timeStamps ← store timeStamps key timeStamp
      updateTimeStampsLoop newData keepOldDataForMissingNew rest timeStamps
    else updateTimeStampsLoop newData keepOldDataForMissingNew rest timeStamps

/-- Source: `RevisionInfoContainer.cpp` `CRevisionInfoContainer::UpdateTimeStamps` -/
def updateTimeStamps (c newData : CRevisionInfoContainer) (indexMap : IndexMapping)
    (keepOldDataForMissingNew : Bool) : Except Fault CRevisionInfoContainer := do
  let timeStamps ← updateTimeStampsLoop newData keepOldDataForMissingNew indexMap c.timeStamps
  pure { c with timeStamps := timeStamps }

/-- The entries whose comment is taken over.
Source: `RevisionInfoContainer.cpp` `CRevisionInfoContainer::UpdateComments`, the loop -/
def commentsToReplace (newData : CRevisionInfoContainer) (keepOldDataForMissingNew : Bool) :
    IndexMapping → Except Fault IndexMapping
  | [] => .ok []
  | (key, value) :: rest => do
    let supplied ← newData.supplies HAS_COMMENT keepOldDataForMissingNew value
    let toReplace ← commentsToReplace newData keepOldDataForMissingNew rest
    pure (if supplied then (key, value) :: toReplace else toReplace)

/-- Source: `RevisionInfoContainer.cpp` `CRevisionInfoContainer::UpdateComments` -/
def updateComments (delimiter : UInt8 → Bool) (c newData : CRevisionInfoContainer)
    (indexMap : IndexMapping) (keepOldDataForMissingNew : Bool) :
    Except Fault CRevisionInfoContainer := do
  let toReplace ← newData.commentsToReplace keepOldDataForMissingNew indexMap
  let comments ← c.comments.replace delimiter newData.comments toReplace
  pure { c with comments := comments }

/-! ### Changes -/

/-- Append the changes of a source entry, with their paths translated.
Source: `RevisionInfoContainer.cpp` `CRevisionInfoContainer::UpdateChanges`, the first inner loop -/
def copyChanges (c newData : CRevisionInfoContainer) (pathIDMapping : List ℕ)
    (sourceIndex : ℕ) : Except Fault CRevisionInfoContainer := do
  let first ← checked newData.changesOffsets[sourceIndex]?
  let last ← checked newData.changesOffsets[sourceIndex + 1]?
  let ks ← positions first last
  let changes ← gather newData.changes ks
  let changedPathTypes ← gather newData.changedPathTypes ks
  let changedPaths ← gather newData.changedPaths ks
  let changedPaths ← changedPaths.mapM (CPathDictionary.mapped pathIDMapping)
  let textModifies ← gather newData.textModifies ks
  let propsModifies ← gather newData.propsModifies ks
  pure { c with
    changes := c.changes ++ changes
    changedPathTypes := c.changedPathTypes ++ changedPathTypes
    changedPaths := c.changedPaths ++ changedPaths
    textModifies := c.textModifies ++ textModifies
    propsModifies := c.propsModifies ++ propsModifies }

/-- Append the copy sources of a source entry, with their paths translated.
Source: `RevisionInfoContainer.cpp` `CRevisionInfoContainer::UpdateChanges`, the second inner loop -/
def copyCopies (c newData : CRevisionInfoContainer) (pathIDMapping : List ℕ)
    (sourceIndex : ℕ) : Except Fault CRevisionInfoContainer := do
  let first ← checked newData.copyFromOffsets[sourceIndex]?
  let last ← checked newData.copyFromOffsets[sourceIndex + 1]?
  let ks ← positions first last
  let copyFromRevisions ← gather newData.copyFromRevisions ks
  let copyFromPaths ← gather newData.copyFromPaths ks
  let copyFromPaths ← copyFromPaths.mapM (CPathDictionary.mapped pathIDMapping)
  pure { c with
    copyFromRevisions := c.copyFromRevisions ++ copyFromRevisions
    copyFromPaths := c.copyFromPaths ++ copyFromPaths }

/-- Append old changes, and old copy sources if there are any.
Source: `RevisionInfoContainer.cpp` `CRevisionInfoContainer::UpdateChanges`, the else branch -/
def keepChanges (c old : CRevisionInfoContainer) (firstChange lastChange firstCopy lastCopy : ℕ) :
    Except Fault CRevisionInfoContainer := do
  let changes ← slice old.changes firstChange lastChange
  let changedPathTypes ← slice old.changedPathTypes firstChange lastChange
  let changedPaths ← slice old.changedPaths firstChange lastChange
  let textModifies ← slice old.textModifies firstChange lastChange
  let propsModifies ← slice old.propsModifies firstChange lastChange
  let c := { c with
    changes := c.changes ++ changes
    changedPathTypes := c.changedPathTypes ++ changedPathTypes
    changedPaths := c.changedPaths ++ changedPaths
    textModifies := c.textModifies ++ textModifies
    propsModifies := c.propsModifies ++ propsModifies }
  if firstCopy = lastCopy then pure c
  else do
    let copyFromPaths ← slice old.copyFromPaths firstCopy lastCopy
    let copyFromRevisions ← slice old.copyFromRevisions firstCopy lastCopy
    pure { c with
      copyFromPaths := c.copyFromPaths ++ copyFromPaths
      copyFromRevisions := c.copyFromRevisions ++ copyFromRevisions }

/-- Take over the changes of a source entry.
Source: `RevisionInfoContainer.cpp` `CRevisionInfoContainer::UpdateChanges`, the first branch -/
def takeChanges (c newData : CRevisionInfoContainer) (pathIDMapping : List ℕ)
    (i sourceIndex : ℕ) : Except Fault CRevisionInfoContainer := do
  let c ← c.copyChanges newData pathIDMapping sourceIndex
  let c ← c.copyCopies newData pathIDMapping sourceIndex
  let rootPath ← checked newData.rootPaths[sourceIndex]?
  let rootPath ← CPathDictionary.mapped pathIDMapping rootPath
  let rootPaths ← store c.rootPaths i rootPath
  let sum ← checked newData.sumChanges[sourceIndex]?
  let sumChanges ← store c.sumChanges i sum
  pure { c with rootPaths := rootPaths, sumChanges := sumChanges }

/-- The ends of the lists that were written last.
Source: `RevisionInfoContainer.cpp` `CRevisionInfoContainer::UpdateChanges`, "update positions" -/
def storeChangeOffsets (c : CRevisionInfoContainer) (i : ℕ) : Except Fault CRevisionInfoContainer := do
  let changesOffsets ← store c.changesOffsets (i + 1) c.changes.length
  let copyFromOffsets ← store c.copyFromOffsets (i + 1) c.copyFromPaths.length
  pure { c with changesOffsets := changesOffsets, copyFromOffsets := copyFromOffsets }

/-- One round of the loop over the target entries: `old` holds the old columns, `firstChange` and
`firstCopy` are the old positions of the entry, and the result has those of the next one.
Source: `RevisionInfoContainer.cpp` `CRevisionInfoContainer::UpdateChanges`, the loop body -/
def updateChangesRound (newData old : CRevisionInfoContainer) (indexMap : IndexMapping)
    (pathIDMapping : List ℕ) (keepOldDataForMissingNew : Bool) (i firstChange firstCopy : ℕ)
    (c : CRevisionInfoContainer) : Except Fault (CRevisionInfoContainer × ℕ × ℕ) := do
  let lastChange ← checked c.changesOffsets[i + 1]?
  let lastCopy ← checked c.copyFromOffsets[i + 1]?
  let source ← newData.replacement indexMap HAS_CHANGEDPATHS keepOldDataForMissingNew i
  let c ← (match source with
    | some sourceIndex => c.takeChanges newData pathIDMapping i sourceIndex
    | none => c.keepChanges old firstChange lastChange firstCopy lastCopy)
  let c ← c.storeChangeOffsets i
  pure (c, lastChange, lastCopy)

/-- The rounds for `n` target entries from entry `i` on.
Source: `RevisionInfoContainer.cpp` `CRevisionInfoContainer::UpdateChanges`, the loop -/
def updateChangesLoop (newData old : CRevisionInfoContainer) (indexMap : IndexMapping)
    (pathIDMapping : List ℕ) (keepOldDataForMissingNew : Bool) : ℕ → ℕ → ℕ → ℕ →
    CRevisionInfoContainer → Except Fault CRevisionInfoContainer
  | 0, _, _, _, c => .ok c
  | n + 1, i, firstChange, firstCopy, c => do
    let (c, firstChange, firstCopy) ← updateChangesRound newData old indexMap pathIDMapping
      keepOldDataForMissingNew i firstChange firstCopy c
    updateChangesLoop newData old indexMap pathIDMapping keepOldDataForMissingNew n (i + 1)
      firstChange firstCopy c

/-- Source: `RevisionInfoContainer.cpp` `CRevisionInfoContainer::UpdateChanges` -/
def updateChanges (c newData : CRevisionInfoContainer) (indexMap : IndexMapping)
    (pathIDMapping : List ℕ) (keepOldDataForMissingNew : Bool) :
    Except Fault CRevisionInfoContainer :=
  updateChangesLoop newData c indexMap pathIDMapping keepOldDataForMissingNew c.size 0 0 0
    { c with
      changes := [], changedPaths := [], changedPathTypes := [], copyFromPaths := []
      copyFromRevisions := [], textModifies := [], propsModifies := [] }

/-! ### Merges and user properties -/

/-- Append the merges of a source entry, with their paths translated.
Source: `RevisionInfoContainer.cpp` `CRevisionInfoContainer::UpdateMergers`, the first branch -/
def takeMerges (c newData : CRevisionInfoContainer) (pathIDMapping : List ℕ)
    (sourceIndex : ℕ) : Except Fault CRevisionInfoContainer := do
  let first ← checked newData.mergedRevisionsOffsets[sourceIndex]?
  let last ← checked newData.mergedRevisionsOffsets[sourceIndex + 1]?
  let ks ← positions first last
  let fromPaths ← gather newData.mergedFromPaths ks
  let fromPaths ← fromPaths.mapM (CPathDictionary.mapped pathIDMapping)
  let toPaths ← gather newData.mergedToPaths ks
  let toPaths ← toPaths.mapM (CPathDictionary.mapped pathIDMapping)
  let starts ← gather newData.mergedRangeStarts ks
  let deltas ← gather newData.mergedRangeDeltas ks
  pure { c with
    mergedFromPaths := c.mergedFromPaths ++ fromPaths
    mergedToPaths := c.mergedToPaths ++ toPaths
    mergedRangeStarts := c.mergedRangeStarts ++ starts
    mergedRangeDeltas := c.mergedRangeDeltas ++ deltas }

/-- Append old merges.
Source: `RevisionInfoContainer.cpp` `CRevisionInfoContainer::UpdateMergers`, the else branch -/
def keepMerges (c old : CRevisionInfoContainer) (firstMerge lastMerge : ℕ) :
    Except Fault CRevisionInfoContainer := do
  let fromPaths ← slice old.mergedFromPaths firstMerge lastMerge
  let toPaths ← slice old.mergedToPaths firstMerge lastMerge
  let starts ← slice old.mergedRangeStarts firstMerge lastMerge
  let deltas ← slice old.mergedRangeDeltas firstMerge lastMerge
  pure { c with
    mergedFromPaths := c.mergedFromPaths ++ fromPaths
    mergedToPaths := c.mergedToPaths ++ toPaths
    mergedRangeStarts := c.mergedRangeStarts ++ starts
    mergedRangeDeltas := c.mergedRangeDeltas ++ deltas }

/-- One round of the loop over the target entries.
Source: `RevisionInfoContainer.cpp` `CRevisionInfoContainer::UpdateMergers`, the loop body -/
def updateMergersRound (newData old : CRevisionInfoContainer) (indexMap : IndexMapping)
    (pathIDMapping : List ℕ) (keepOldDataForMissingNew : Bool) (i firstMerge : ℕ)
    (c : CRevisionInfoContainer) : Except Fault (CRevisionInfoContainer × ℕ) := do
  let lastMerge ← checked c.mergedRevisionsOffsets[i + 1]?
  let source ← newData.replacement indexMap HAS_MERGEINFO keepOldDataForMissingNew i
  let c ← (match source with
    | some sourceIndex => c.takeMerges newData pathIDMapping sourceIndex
    | none => c.keepMerges old firstMerge lastMerge)
  let mergedRevisionsOffsets ← store c.mergedRevisionsOffsets (i + 1) c.mergedFromPaths.length
  pure ({ c with mergedRevisionsOffsets := mergedRevisionsOffsets }, lastMerge)

/-- Source: `RevisionInfoContainer.cpp` `CRevisionInfoContainer::UpdateMergers`, the loop -/
def updateMergersLoop (newData old : CRevisionInfoContainer) (indexMap : IndexMapping)
    (pathIDMapping : List ℕ) (keepOldDataForMissingNew : Bool) : ℕ → ℕ → ℕ →
    CRevisionInfoContainer → Except Fault CRevisionInfoContainer
  | 0, _, _, c => .ok c
  | n + 1, i, firstMerge, c => do
    let (c, firstMerge) ← updateMergersRound newData old indexMap pathIDMapping
      keepOldDataForMissingNew i firstMerge c
    updateMergersLoop newData old indexMap pathIDMapping keepOldDataForMissingNew n (i + 1)
      firstMerge c

/-- Source: `RevisionInfoContainer.cpp` `CRevisionInfoContainer::UpdateMergers` -/
def updateMergers (c newData : CRevisionInfoContainer) (indexMap : IndexMapping)
    (pathIDMapping : List ℕ) (keepOldDataForMissingNew : Bool) :
    Except Fault CRevisionInfoContainer :=
  updateMergersLoop newData c indexMap pathIDMapping keepOldDataForMissingNew c.size 0 0
    { c with
      mergedFromPaths := [], mergedToPaths := [], mergedRangeStarts := []
      mergedRangeDeltas := [] }

/-- What the splicing of user properties works on: the names and their offsets, the number of values
so far, and where the values come from.
Source: `RevisionInfoContainer.cpp` `CRevisionInfoContainer::UpdateUserRevProps`, the variables -/
structure RevPropSplice where
  names : List ℕ
  offsets : List ℕ
  valueIndex : ℕ
  oldValueMapping : IndexMapping
  newValueMapping : IndexMapping

/-- The entries that are added to a value mapping for the positions `ks`. -/
def valueEntries (valueIndex : ℕ) (ks : List ℕ) : IndexMapping :=
  (List.range' valueIndex ks.length).zip ks

/-- Append the properties of a source entry, with their names translated.
Source: `RevisionInfoContainer.cpp` `CRevisionInfoContainer::UpdateUserRevProps`, the first
branch -/
def RevPropSplice.take (st : RevPropSplice) (newData : CRevisionInfoContainer)
    (propIDMapping : List ℕ) (sourceIndex : ℕ) : Except Fault RevPropSplice :=
  if newData.userRevPropNames = [] then .ok st
  else do
    let first ← checked newData.userRevPropOffsets[sourceIndex]?
    let last ← checked newData.userRevPropOffsets[sourceIndex + 1]?
    let ks ← positions first last
    let names ← gather newData.userRevPropNames ks
    let names ← names.mapM fun name => checked propIDMapping[name]?
    pure { st with
      names := st.names ++ names
      valueIndex := st.valueIndex + ks.length
      newValueMapping := st.newValueMapping ++ valueEntries st.valueIndex ks }

/-- Append old properties.
Source: `RevisionInfoContainer.cpp` `CRevisionInfoContainer::UpdateUserRevProps`, the else
branch -/
def RevPropSplice.keep (st : RevPropSplice) (oldNames : List ℕ) (firstProp lastProp : ℕ) :
    Except Fault RevPropSplice := do
  let names ← slice oldNames firstProp lastProp
  let ks ← positions firstProp lastProp
  pure { st with
    names := st.names ++ names
    valueIndex := st.valueIndex + ks.length
    oldValueMapping := st.oldValueMapping ++ valueEntries st.valueIndex ks }

/-- One round of the loop over the target entries.
Source: `RevisionInfoContainer.cpp` `CRevisionInfoContainer::UpdateUserRevProps`, the loop body -/
def updateUserRevPropsRound (newData : CRevisionInfoContainer) (oldNames : List ℕ)
    (indexMap : IndexMapping) (propIDMapping : List ℕ) (keepOldDataForMissingNew : Bool)
    (i firstProp : ℕ) (st : RevPropSplice) : Except Fault (RevPropSplice × ℕ) := do
  let lastProp ← checked st.offsets[i + 1]?
  let source ← newData.replacement indexMap HAS_USERREVPROPS keepOldDataForMissingNew i
  let st ← (match source with
    | some sourceIndex => st.take newData propIDMapping sourceIndex
    | none => st.keep oldNames firstProp lastProp)
  let offsets ← store st.offsets (i + 1) st.names.length
  pure ({ st with offsets := offsets }, lastProp)

/-- Source: `RevisionInfoContainer.cpp` `CRevisionInfoContainer::UpdateUserRevProps`, the loop -/
def updateUserRevPropsLoop (newData : CRevisionInfoContainer) (oldNames : List ℕ)
    (indexMap : IndexMapping) (propIDMapping : List ℕ) (keepOldDataForMissingNew : Bool) :
    ℕ → ℕ → ℕ → RevPropSplice → Except Fault RevPropSplice
  | 0, _, _, st => .ok st
  | n + 1, i, firstProp, st => do
    let (st, firstProp) ← updateUserRevPropsRound newData oldNames indexMap propIDMapping
      keepOldDataForMissingNew i firstProp st
    updateUserRevPropsLoop newData oldNames indexMap propIDMapping keepOldDataForMissingNew n
      (i + 1) firstProp st

/-- The values were swapped with those of an empty container, which is meant to be filled up with
empty strings before they are replaced.
Source: `RevisionInfoContainer.cpp` `CRevisionInfoContainer::UpdateUserRevProps` -/
def updateUserRevProps (delimiter : UInt8 → Bool) (c newData : CRevisionInfoContainer)
    (indexMap : IndexMapping) (keepOldDataForMissingNew : Bool) :
    Except Fault CRevisionInfoContainer := do
  let merged := c.userRevPropsPool.merge newData.userRevPropsPool
  let values := CTokenizedStringContainer.init
  let values := values.insertCount delimiter []
    (addU values.size newData.userRevPropValues.size)
  let st ← updateUserRevPropsLoop newData c.userRevPropNames indexMap merged.2
    keepOldDataForMissingNew c.size 0 0 ⟨[], c.userRevPropOffsets, 0, [], []⟩
  let values ← values.replace delimiter c.userRevPropValues st.oldValueMapping
  let values ← values.replace delimiter newData.userRevPropValues st.newValueMapping
  pure { c with
    userRevPropsPool := merged.1
    userRevPropNames := st.names
    userRevPropOffsets := st.offsets
    userRevPropValues := values }

/-! ### All data -/

/-- Source: `RevisionInfoContainer.cpp` `CRevisionInfoContainer::UpdatePresenceFlags`, the loop -/
def updatePresenceFlagsLoop (newData : CRevisionInfoContainer) (flags : UInt8)
    (keepOldDataForMissingNew : Bool) : IndexMapping → List UInt8 → Except Fault (List UInt8)
  | [], presenceFlags => .ok presenceFlags
  | (key, value) :: rest, presenceFlags => do
    let setValues := (← newData.getPresenceFlags value) &&& flags
    let oldFlags ← checked presenceFlags[key]?
    let presenceFlags ← store presenceFlags key
      (if keepOldDataForMissingNew then oldFlags ||| setValues
        else (oldFlags &&& ~~~flags) ||| setValues)
    updatePresenceFlagsLoop newData flags keepOldDataForMissingNew rest presenceFlags

/-- Source: `RevisionInfoContainer.cpp` `CRevisionInfoContainer::UpdatePresenceFlags` -/
def updatePresenceFlags (c newData : CRevisionInfoContainer) (indexMap : IndexMapping)
    (flags : UInt8) (keepOldDataForMissingNew : Bool) : Except Fault CRevisionInfoContainer := do
  let presenceFlags ← updatePresenceFlagsLoop newData flags keepOldDataForMissingNew indexMap
    c.presenceFlags
  pure { c with presenceFlags := presenceFlags }

/-- Source: `RevisionInfoContainer.cpp` `CRevisionInfoContainer::AppendNewEntries` -/
def appendNewEntries (delimiter : UInt8 → Bool) (c : CRevisionInfoContainer)
    (indexMap : IndexMapping) : Except Fault CRevisionInfoContainer := do
  let toAppend := indexMap.countP fun e => c.size ≤ e.1
  if toAppend = 0 then pure c
  else do
    let changesOffsets ← appendLast toAppend c.changesOffsets
    let copyFromOffsets ← appendLast toAppend c.copyFromOffsets
    let mergedRevisionsOffsets ← appendLast toAppend c.mergedRevisionsOffsets
    let userRevPropOffsets ← appendLast toAppend c.userRevPropOffsets
    pure { c with
      authors := c.authors ++ List.replicate toAppend 0
      timeStamps := c.timeStamps ++ List.replicate toAppend 0
      presenceFlags := c.presenceFlags ++ List.replicate toAppend 0
      rootPaths := c.rootPaths ++ List.replicate toAppend ⊤
      sumChanges := c.sumChanges ++ List.replicate toAppend 0
      comments := c.comments.insertCount delimiter [] toAppend
      changesOffsets := changesOffsets
      copyFromOffsets := copyFromOffsets
      mergedRevisionsOffsets := mergedRevisionsOffsets
      userRevPropOffsets := userRevPropOffsets }

/-- A pass that is made only if the flags ask for it. -/
def pass (flags flag : UInt8) (c : CRevisionInfoContainer)
    (f : CRevisionInfoContainer → Except Fault CRevisionInfoContainer) :
    Except Fault CRevisionInfoContainer :=
  if flags &&& flag ≠ 0 then f c else .ok c

/-- Source: `RevisionInfoContainer.cpp` `CRevisionInfoContainer::Update` -/
def update (delimiter : UInt8 → Bool) (c newData : CRevisionInfoContainer)
    (indexMap : IndexMapping) (flags : UInt8) (keepOldDataForMissingNew : Bool) :
    Except Fault CRevisionInfoContainer := do
  let c ← c.appendNewEntries delimiter indexMap
  let (paths, pathIDMapping) ← c.paths.merge newData.paths
  let c := { c with paths := paths }
  let c ← c.pass flags HAS_AUTHOR
    (updateAuthors · newData indexMap keepOldDataForMissingNew)
  let c ← c.pass flags HAS_TIME_STAMP
    (updateTimeStamps · newData indexMap keepOldDataForMissingNew)
  let c ← c.pass flags HAS_COMMENT
    (updateComments delimiter · newData indexMap keepOldDataForMissingNew)
  let c ← c.pass flags HAS_CHANGEDPATHS
    (updateChanges · newData indexMap pathIDMapping keepOldDataForMissingNew)
  let c ← c.pass flags HAS_MERGEINFO
    (updateMergers · newData indexMap pathIDMapping keepOldDataForMissingNew)
  let c ← c.pass flags HAS_USERREVPROPS
    (updateUserRevProps delimiter · newData indexMap keepOldDataForMissingNew)
  c.updatePresenceFlags newData indexMap flags keepOldDataForMissingNew

/-! ### The order of changes -/

/-- By path, and by falling change within a path.
Source: `RevisionInfoContainer.cpp` `SPerChangeInfo::operator<` -/
def SPerChangeInfo.lt (x y : SPerChangeInfo) : Bool :=
  x.changedPath < y.changedPath ∨ x.changedPath = y.changedPath ∧ y.change < x.change

/-- Write changes over the old ones, from an iterator on.
Source: `RevisionInfoContainer.cpp` `CRevisionInfoContainer::OptimizeChangeOrder`, the second loop -/
def writeChanges : List SPerChangeInfo → CChangesIterator → CRevisionInfoContainer →
    Except Fault CRevisionInfoContainer
  | [], _, c => .ok c
  | x :: rest, iter, c => do
    let changedPaths ← store c.changedPaths iter.changeOffset x.changedPath
    let changedPathTypes ← store c.changedPathTypes iter.changeOffset x.changedPathType
    let changes ← store c.changes iter.changeOffset x.change
    let textModifies ← store c.textModifies iter.changeOffset x.textModifies
    let propsModifies ← store c.propsModifies iter.changeOffset x.propsModifies
    let c := { c with
      changedPaths := changedPaths
      changedPathTypes := changedPathTypes
      changes := changes
      textModifies := textModifies
      propsModifies := propsModifies }
    if x.hasFromPath then
      let copyFromPaths ← store c.copyFromPaths iter.copyFromOffset x.copyFromPath
      let copyFromRevisions ← store c.copyFromRevisions iter.copyFromOffset x.copyFromRevision
      writeChanges rest (iter.next x)
        { c with copyFromPaths := copyFromPaths, copyFromRevisions := copyFromRevisions }
    else writeChanges rest (iter.next x) c

/-- The rounds for `n` entries from entry `index` on.
Source: `RevisionInfoContainer.cpp` `CRevisionInfoContainer::OptimizeChangeOrder` -/
def optimizeChangeOrderLoop (sort : List SPerChangeInfo → List SPerChangeInfo) :
    ℕ → ℕ → CRevisionInfoContainer → Except Fault CRevisionInfoContainer
  | 0, _, c => .ok c
  | n + 1, index, c => do
    let revisionChanges ← c.changesOf index
    let iter ← c.getChangesBegin index
    let c ← writeChanges (sort revisionChanges) iter c
    optimizeChangeOrderLoop sort n (index + 1) c

/-- Sort the changes of every revision; `sort` is `std::sort`, which may reorder equal elements.
Source: `RevisionInfoContainer.cpp` `CRevisionInfoContainer::OptimizeChangeOrder` -/
def optimizeChangeOrder (sort : List SPerChangeInfo → List SPerChangeInfo)
    (c : CRevisionInfoContainer) : Except Fault CRevisionInfoContainer :=
  optimizeChangeOrderLoop sort c.size 0 c

/-! ### What the passes do -/

section

variable {c c' newData : CRevisionInfoContainer} {delimiter : UInt8 → Bool} {m : IndexMapping}
  {flags flag : UInt8} {keep : Bool}

/-- What is appended to every table. -/
theorem appendNewEntries_ok (h : c.appendNewEntries delimiter m = .ok c') {n : ℕ}
    (hn : (m.countP fun e => c.size ≤ e.1) = n) :
    n = 0 ∧ c' = c ∨ 0 < n ∧ ∃ changes copies merges props,
      appendLast n c.changesOffsets = .ok changes ∧ appendLast n c.copyFromOffsets = .ok copies ∧
      appendLast n c.mergedRevisionsOffsets = .ok merges ∧
      appendLast n c.userRevPropOffsets = .ok props ∧
      c' = { c with
        authors := c.authors ++ List.replicate n 0
        timeStamps := c.timeStamps ++ List.replicate n 0
        presenceFlags := c.presenceFlags ++ List.replicate n 0
        rootPaths := c.rootPaths ++ List.replicate n ⊤
        sumChanges := c.sumChanges ++ List.replicate n 0
        comments := c.comments.insertCount delimiter [] n
        changesOffsets := changes
        copyFromOffsets := copies
        mergedRevisionsOffsets := merges
        userRevPropOffsets := props } := by
  unfold appendNewEntries at h
  rw [hn] at h
  simp only [pure, Except.pure] at h
  split at h
  · rename_i h0
    exact .inl ⟨h0, (Except.ok.inj h).symm⟩
  · rename_i hpos
    simp only [bind_eq_ok, Except.ok.injEq] at h
    obtain ⟨changes, hchanges, copies, hcopies, merges, hmerges, props, hprops, rfl⟩ := h
    exact .inr ⟨Nat.pos_of_ne_zero hpos, changes, copies, merges, props, hchanges, hcopies, hmerges,
      hprops, rfl⟩

/-- A pass is made or left out. -/
theorem pass_ok {f : CRevisionInfoContainer → Except Fault CRevisionInfoContainer}
    (h : c.pass flags flag f = .ok c') :
    flags &&& flag ≠ 0 ∧ f c = .ok c' ∨ flags &&& flag = 0 ∧ c' = c := by
  unfold pass at h
  split at h
  · rename_i hne
    exact .inl ⟨hne, h⟩
  · rename_i h0
    exact .inr ⟨not_not.mp h0, (Except.ok.inj h).symm⟩

theorem store_length {α : Type} {l l' : List α} {i : ℕ} {a : α} (h : store l i a = .ok l') :
    l'.length = l.length := by
  unfold store at h
  split at h
  · rw [← Except.ok.inj h, List.length_set]
  · exact nomatch h

theorem updateAuthorsLoop_length {mapping : List ℕ} {authors authors' : List ℕ}
    (h : updateAuthorsLoop newData keep mapping m authors = .ok authors') :
    authors'.length = authors.length := by
  induction m generalizing authors with
  | nil => rw [← Except.ok.inj h]
  | cons e m ih =>
    rw [updateAuthorsLoop] at h
    obtain ⟨b, -, h⟩ := bind_eq_ok.mp h
    split at h
    · simp only [bind_eq_ok] at h
      obtain ⟨_, -, _, -, _, hstore, h⟩ := h
      rw [ih h, store_length hstore]
    · exact ih h

theorem updatePresenceFlagsLoop_length {presenceFlags presenceFlags' : List UInt8}
    (h : updatePresenceFlagsLoop newData flags keep m presenceFlags = .ok presenceFlags') :
    presenceFlags'.length = presenceFlags.length := by
  induction m generalizing presenceFlags with
  | nil => rw [← Except.ok.inj h]
  | cons e m ih =>
    rw [updatePresenceFlagsLoop] at h
    simp only [bind_eq_ok] at h
    obtain ⟨_, -, _, -, _, hstore, h⟩ := h
    rw [ih h, store_length hstore]

end

end CRevisionInfoContainer

end TortoiseSvn.LogCache
