import TortoiseSvn.LogCache.Columns
import TortoiseSvn.LogCache.IndexMapping
import TortoiseSvn.LogCache.PathInsertion
import TortoiseSvn.LogCache.TokenizedStringContainer

/-!
# The revision info container

`CRevisionInfoContainer` holds the log of a repository in parallel columns. Per-revision data is
found by the revision's index. Lists that belong to a revision (its changed paths, merges and user
properties) are stored back to back, and an offset table says where the list of each revision
begins and ends; the copy sources of changes have a table of their own.

Asserts are those of a debug build and are left out, and so are capacity reservations.
-/

namespace TortoiseSvn.LogCache

open TortoiseSvn.Lib

/-! ### Flags -/

/-- Source: `RevisionInfoContainer.h` `TDataPresenceFlags` -/
def HAS_AUTHOR : UInt8 := 0x02

@[inherit_doc HAS_AUTHOR] def HAS_TIME_STAMP : UInt8 := 0x04

@[inherit_doc HAS_AUTHOR] def HAS_COMMENT : UInt8 := 0x08

@[inherit_doc HAS_AUTHOR] def HAS_CHANGEDPATHS : UInt8 := 0x10

@[inherit_doc HAS_AUTHOR] def HAS_USERREVPROPS : UInt8 := 0x20

@[inherit_doc HAS_AUTHOR] def HAS_MERGEINFO : UInt8 := 0x40

/-- Source: `RevisionInfoContainer.h` `TChangeAction` -/
def HAS_COPY_FROM : UInt8 := 0x01

@[inherit_doc HAS_COPY_FROM] def ACTION_ADDED : UInt8 := 0x04

@[inherit_doc HAS_COPY_FROM] def ACTION_CHANGED : UInt8 := 0x08

@[inherit_doc HAS_COPY_FROM] def ACTION_REPLACED : UInt8 := 0x10

@[inherit_doc HAS_COPY_FROM] def ACTION_DELETED : UInt8 := 0x20

@[inherit_doc HAS_COPY_FROM] def ACTION_MOVED : UInt8 := 0x40

@[inherit_doc HAS_COPY_FROM] def ACTION_MOVEREPLACED : UInt8 := 0x80

@[inherit_doc HAS_COPY_FROM] def ANY_ACTION : UInt8 :=
  ACTION_ADDED ||| ACTION_CHANGED ||| ACTION_REPLACED ||| ACTION_DELETED ||| ACTION_MOVED |||
    ACTION_MOVEREPLACED

/-- The action of a change, a mask of the `ACTION_` bits. Whether the change has a copy source is
not a part of it. -/
structure TChangeAction where
  code : UInt8
  isAction : code &&& ANY_ACTION = code
  deriving DecidableEq

theorem isAction_added : ACTION_ADDED &&& ANY_ACTION = ACTION_ADDED := by
  decide

theorem TChangeAction.no_copy (action : TChangeAction) : action.code &&& HAS_COPY_FROM = 0 := by
  rw [← action.isAction, UInt8.and_assoc, show ANY_ACTION &&& HAS_COPY_FROM = 0 from rfl,
    UInt8.and_zero]

theorem TChangeAction.copy (action : TChangeAction) :
    (action.code ||| HAS_COPY_FROM) &&& HAS_COPY_FROM ≠ 0 := by
  have habsorb : (action.code ||| HAS_COPY_FROM) &&& HAS_COPY_FROM = HAS_COPY_FROM := by
    apply UInt8.toNat_inj.mp
    rw [UInt8.toNat_and, UInt8.toNat_or]
    refine Nat.eq_of_testBit_eq fun i => ?_
    rw [Nat.testBit_and, Nat.testBit_or]
    cases action.code.toNat.testBit i <;> cases HAS_COPY_FROM.toNat.testBit i <;> rfl
  rw [habsorb]
  decide

/-! ### The container -/

/-- Source: `RevisionInfoContainer.h` `CRevisionInfoContainer` -/
@[ext] structure CRevisionInfoContainer where
  authorPool : CStringDictionary
  paths : CPathDictionary
  /-- What information is available for each revision. -/
  presenceFlags : List UInt8
  comments : CTokenizedStringContainer
  authors : List ℕ
  timeStamps : List ℤ
  /-- The common root of all paths that were changed in a revision. -/
  rootPaths : List Index
  /-- All change actions of a revision. -/
  sumChanges : List UInt8
  changesOffsets : List ℕ
  copyFromOffsets : List ℕ
  mergedRevisionsOffsets : List ℕ
  userRevPropOffsets : List ℕ
  changes : List UInt8
  changedPaths : List Index
  changedPathTypes : List ℕ
  copyFromPaths : List Index
  copyFromRevisions : List ℕ
  textModifies : List UInt8
  propsModifies : List UInt8
  mergedFromPaths : List Index
  mergedToPaths : List Index
  mergedRangeStarts : List ℕ
  mergedRangeDeltas : List ℕ
  userRevPropsPool : CStringDictionary
  userRevPropNames : List ℕ
  userRevPropValues : CTokenizedStringContainer
  /-- The number of entries on disk. -/
  storedSize : ℕ
  deriving DecidableEq

namespace CRevisionInfoContainer

/-- Source: `RevisionInfoContainer.cpp`, the constructor -/
def init : CRevisionInfoContainer where
  authorPool := .init
  paths := .init
  presenceFlags := []
  comments := .init
  authors := []
  timeStamps := []
  rootPaths := []
  sumChanges := []
  changesOffsets := [0]
  copyFromOffsets := [0]
  mergedRevisionsOffsets := [0]
  userRevPropOffsets := [0]
  changes := []
  changedPaths := []
  changedPathTypes := []
  copyFromPaths := []
  copyFromRevisions := []
  textModifies := []
  propsModifies := []
  mergedFromPaths := []
  mergedToPaths := []
  mergedRangeStarts := []
  mergedRangeDeltas := []
  userRevPropsPool := .init
  userRevPropNames := []
  userRevPropValues := .init
  storedSize := 0

/-- Source: `RevisionInfoContainer.h` `CRevisionInfoContainer::size` -/
def size (c : CRevisionInfoContainer) : ℕ := c.authors.length

/-! ### Reading -/

/-- Source: `RevisionInfoContainer.h` `CRevisionInfoContainer::GetPresenceFlags` -/
def getPresenceFlags (c : CRevisionInfoContainer) (index : ℕ) : Except Fault UInt8 :=
  checked c.presenceFlags[index]?

/-- Source: `RevisionInfoContainer.h` `CRevisionInfoContainer::GetRootPath`, its index -/
def getRootPath (c : CRevisionInfoContainer) (index : ℕ) : Except Fault Index :=
  checked c.rootPaths[index]?

/-- The two positions of an iterator over changes.
Source: `RevisionInfoContainer.h` `CRevisionInfoContainer::CChangesIterator` -/
structure CChangesIterator where
  changeOffset : ℕ
  copyFromOffset : ℕ
  deriving DecidableEq, Repr

/-- Source: `RevisionInfoContainer.h` `CRevisionInfoContainer::GetChangesBegin` -/
def getChangesBegin (c : CRevisionInfoContainer) (index : ℕ) : Except Fault CChangesIterator := do
  let changeOffset ← checked c.changesOffsets[index]?
  let copyFromOffset ← checked c.copyFromOffsets[index]?
  return ⟨changeOffset, copyFromOffset⟩

/-- Source: `RevisionInfoContainer.h` `CRevisionInfoContainer::GetChangesEnd` -/
def getChangesEnd (c : CRevisionInfoContainer) (index : ℕ) : Except Fault CChangesIterator :=
  c.getChangesBegin (index + 1)

/-- The data of a change.
Source: `RevisionInfoContainer.cpp` `SPerChangeInfo` -/
structure SPerChangeInfo where
  changedPath : Index
  changedPathType : ℕ
  change : UInt8
  copyFromPath : Index
  copyFromRevision : ℕ
  textModifies : UInt8
  propsModifies : UInt8
  deriving DecidableEq

/-- The change has a copy source.
Source: `RevisionInfoContainer.h` `CChangesIterator::HasFromPath` -/
def SPerChangeInfo.hasFromPath (x : SPerChangeInfo) : Bool := x.change &&& HAS_COPY_FROM ≠ 0

/-- Source: `RevisionInfoContainer.h` `CChangesIterator::GetAction` -/
def SPerChangeInfo.getAction (x : SPerChangeInfo) : UInt8 := x.change &&& ANY_ACTION

/-- What is read at an iterator; the copy source only where there is one.
Source: `RevisionInfoContainer.cpp` `SPerChangeInfo::SPerChangeInfo` -/
def perChangeInfo (c : CRevisionInfoContainer) (iter : CChangesIterator) :
    Except Fault SPerChangeInfo := do
  let changedPath ← checked c.changedPaths[iter.changeOffset]?
  let changedPathType ← checked c.changedPathTypes[iter.changeOffset]?
  let change ← checked c.changes[iter.changeOffset]?
  let textModifies ← checked c.textModifies[iter.changeOffset]?
  let propsModifies ← checked c.propsModifies[iter.changeOffset]?
  if change &&& HAS_COPY_FROM ≠ 0 then
    let copyFromPath ← checked c.copyFromPaths[iter.copyFromOffset]?
    let copyFromRevision ← checked c.copyFromRevisions[iter.copyFromOffset]?
    return ⟨changedPath, changedPathType, change, copyFromPath, copyFromRevision, textModifies,
      propsModifies⟩
  else
    return ⟨changedPath, changedPathType, change, ⊤, 0, textModifies, propsModifies⟩

/-- The iterator behind a change.
Source: `RevisionInfoContainer.h` `CChangesIterator::operator++` -/
def CChangesIterator.next (iter : CChangesIterator) (x : SPerChangeInfo) : CChangesIterator where
  changeOffset := iter.changeOffset + 1
  copyFromOffset := if x.hasFromPath then iter.copyFromOffset + 1 else iter.copyFromOffset

/-- The changes from an iterator on, as many as there are positions up to the end. Only the change
positions are compared.
Source: `RevisionInfoContainer.h` `CChangesIterator::operator!=` -/
def readChanges (c : CRevisionInfoContainer) : ℕ → CChangesIterator →
    Except Fault (List SPerChangeInfo)
  | 0, _ => .ok []
  | n + 1, iter => do
    let x ← c.perChangeInfo iter
    let rest ← c.readChanges n (iter.next x)
    return x :: rest

/-- All changes of a revision. An iterator that begins behind its end runs out of the columns.
Source: `RevisionInfoContainer.cpp` `CRevisionInfoContainer::OptimizeChangeOrder`, the collection -/
def changesOf (c : CRevisionInfoContainer) (index : ℕ) : Except Fault (List SPerChangeInfo) := do
  let first ← c.getChangesBegin index
  let last ← c.getChangesEnd index
  if first.changeOffset ≤ last.changeOffset then
    c.readChanges (last.changeOffset - first.changeOffset) first
  else .error .undefined

/-! ### Adding data -/

/-- The author is looked up as a C string.
Source: `RevisionInfoContainer.cpp` `CRevisionInfoContainer::Insert` -/
def insert (delimiter : UInt8 → Bool) (c : CRevisionInfoContainer) (author comment : List UInt8)
    (timeStamp : ℤ) (flags : UInt8) : Except Fault (CRevisionInfoContainer × ℕ) :=
  if c.authors.length = noIndex then .error (.containerException "revision container overflow")
  else do
    let author := c.authorPool.autoInsert (author.takeWhile (· ≠ 0))
    let changesOffsets ← pushBackLast c.changesOffsets
    let copyFromOffsets ← pushBackLast c.copyFromOffsets
    let mergedRevisionsOffsets ← pushBackLast c.mergedRevisionsOffsets
    let userRevPropOffsets ← pushBackLast c.userRevPropOffsets
    pure ({ c with
      authorPool := author.1
      authors := c.authors ++ [author.2]
      timeStamps := c.timeStamps ++ [timeStamp]
      comments := c.comments.insert delimiter comment
      presenceFlags := c.presenceFlags ++ [flags]
      rootPaths := c.rootPaths ++ [⊤]
      sumChanges := c.sumChanges ++ [0]
      changesOffsets := changesOffsets
      copyFromOffsets := copyFromOffsets
      mergedRevisionsOffsets := mergedRevisionsOffsets
      userRevPropOffsets := userRevPropOffsets }, c.size)

/-- The root path behind adding a change.
Source: `RevisionInfoContainer.cpp` `CRevisionInfoContainer::AddChange` -/
def extendRoot (paths : CPathDictionary) (rootPath : Index) (path : ℕ) : Except Fault Index :=
  if rootPath = ⊤ then .ok (path : Index) else paths.commonRoot (path : Index) rootPath

/-- Add the path of a change to the last revision, with the flags of the change.
Source: `RevisionInfoContainer.cpp` `CRevisionInfoContainer::AddChange`, all but the copy source -/
def addChangedPath (c : CRevisionInfoContainer) (flags : UInt8) (pathType : ℕ) (path : List UInt8)
    (textModified propsModified : UInt8) : Except Fault CRevisionInfoContainer := do
  let parsedPath := c.paths.parsePath path
  let rootPath ← back c.rootPaths
  let rootPath ← extendRoot parsedPath.1 rootPath parsedPath.2
  let sumChanges ← modifyBack (· ||| flags) c.sumChanges
  let changesOffsets ← modifyBack (· + 1) c.changesOffsets
  pure { c with
    paths := parsedPath.1
    changedPaths := c.changedPaths ++ [(parsedPath.2 : Index)]
    rootPaths := c.rootPaths.dropLast ++ [rootPath]
    changedPathTypes := c.changedPathTypes ++ [pathType]
    sumChanges := sumChanges
    changes := c.changes ++ [flags]
    textModifies := c.textModifies ++ [textModified]
    propsModifies := c.propsModifies ++ [propsModified]
    changesOffsets := changesOffsets }

/-- Source: `RevisionInfoContainer.cpp` `CRevisionInfoContainer::AddChange`, the copy source -/
def addCopySource (c : CRevisionInfoContainer) (fromPath : List UInt8) (fromRevision : ℕ) :
    Except Fault CRevisionInfoContainer := do
  let parsedFromPath := c.paths.parsePath fromPath
  let copyFromOffsets ← modifyBack (· + 1) c.copyFromOffsets
  pure { c with
    paths := parsedFromPath.1
    copyFromPaths := c.copyFromPaths ++ [(parsedFromPath.2 : Index)]
    copyFromRevisions := c.copyFromRevisions ++ [fromRevision]
    copyFromOffsets := copyFromOffsets }

/-- Add a change to the last revision.
Source: `RevisionInfoContainer.cpp` `CRevisionInfoContainer::AddChange` -/
def addChange (c : CRevisionInfoContainer) (action : TChangeAction) (pathType : ℕ)
    (path fromPath : List UInt8) (fromRevision : ℕ) (textModified propsModified : UInt8) :
    Except Fault CRevisionInfoContainer :=
  if c.changes.length = noIndex then
    .error (.containerException "revision container change list overflow")
  else if fromPath = [] then
    c.addChangedPath action.code pathType path textModified propsModified
  else do
    let c ← c.addChangedPath (action.code ||| HAS_COPY_FROM) pathType path textModified
      propsModified
    c.addCopySource fromPath fromRevision

/-- Source: `RevisionInfoContainer.cpp` `CRevisionInfoContainer::AddMergedRevision` -/
def addMergedRevision (c : CRevisionInfoContainer) (fromPath toPath : List UInt8)
    (revisionStart revisionDelta : ℕ) : Except Fault CRevisionInfoContainer :=
  if c.mergedRangeStarts.length = noIndex then
    .error (.containerException "revision container change list overflow")
  else do
    let mergedRevisionsOffsets ← modifyBack (· + 1) c.mergedRevisionsOffsets
    let parsedFromPath := c.paths.parsePath fromPath
    let parsedToPath := parsedFromPath.1.parsePath toPath
    pure { c with
      paths := parsedToPath.1
      mergedRevisionsOffsets := mergedRevisionsOffsets
      mergedFromPaths := c.mergedFromPaths ++ [(parsedFromPath.2 : Index)]
      mergedToPaths := c.mergedToPaths ++ [(parsedToPath.2 : Index)]
      mergedRangeStarts := c.mergedRangeStarts ++ [revisionStart]
      mergedRangeDeltas := c.mergedRangeDeltas ++ [revisionDelta] }

/-- The properties that are columns of their own.
Source: `RevisionInfoContainer.cpp` `CRevisionInfoContainer::AddRevProp` -/
def svnAuthor : List UInt8 := "svn:author".toUTF8.toList

@[inherit_doc svnAuthor] def svnDate : List UInt8 := "svn:date".toUTF8.toList

@[inherit_doc svnAuthor] def svnLog : List UInt8 := "svn:log".toUTF8.toList

/-- Add a user property to the last revision; its name is looked up as a C string.
Source: `RevisionInfoContainer.cpp` `CRevisionInfoContainer::AddRevProp`, the last branch -/
def addUserRevProp (delimiter : UInt8 → Bool) (c : CRevisionInfoContainer)
    (revProp value : List UInt8) : Except Fault CRevisionInfoContainer :=
  if c.userRevPropNames.length = noIndex then
    .error (.containerException "revision container change list overflow")
  else do
    let userRevPropOffsets ← modifyBack (· + 1) c.userRevPropOffsets
    let name := c.userRevPropsPool.autoInsert (revProp.takeWhile (· ≠ 0))
    pure { c with
      userRevPropOffsets := userRevPropOffsets
      userRevPropsPool := name.1
      userRevPropNames := c.userRevPropNames ++ [name.2]
      userRevPropValues := c.userRevPropValues.insert delimiter value }

/-- Add a revision property to the last revision; `dateOf` is the time that a non-empty date string
stands for.
Source: `RevisionInfoContainer.cpp` `CRevisionInfoContainer::AddRevProp` -/
def addRevProp (delimiter : UInt8 → Bool) (dateOf : List UInt8 → ℤ) (c : CRevisionInfoContainer)
    (revProp value : List UInt8) : Except Fault CRevisionInfoContainer :=
  if revProp = svnAuthor then
    let author := c.authorPool.autoInsert (value.takeWhile (· ≠ 0))
    (modifyBack (fun _ => author.2) c.authors).map fun authors =>
      { c with authorPool := author.1, authors := authors }
  else if revProp = svnDate then
    (modifyBack (fun _ => if value = [] then 0 else dateOf value) c.timeStamps).map
      fun timeStamps => { c with timeStamps := timeStamps }
  else if revProp = svnLog then
    (c.comments.remove (subU c.comments.size 1)).map fun comments =>
      { c with comments := comments.insert delimiter value }
  else c.addUserRevProp delimiter revProp value

/-- The first entry of the offset tables stays; without it, erasing what is behind is undefined.
Source: `RevisionInfoContainer.cpp` `CRevisionInfoContainer::Clear` -/
def clear (c : CRevisionInfoContainer) : Except Fault CRevisionInfoContainer := do
  let comments ← c.comments.clear
  let changesOffset ← checked c.changesOffsets.head?
  let copyFromOffset ← checked c.copyFromOffsets.head?
  let mergedRevisionsOffset ← checked c.mergedRevisionsOffsets.head?
  let userRevPropOffset ← checked c.userRevPropOffsets.head?
  let userRevPropValues ← c.userRevPropValues.clear
  pure { init with
    comments := comments
    changesOffsets := [changesOffset]
    copyFromOffsets := [copyFromOffset]
    mergedRevisionsOffsets := [mergedRevisionsOffset]
    userRevPropOffsets := [userRevPropOffset]
    userRevPropValues := userRevPropValues
    storedSize := c.storedSize }

/-! ### What the operations do -/

section

variable {c c' : CRevisionInfoContainer} {delimiter : UInt8 → Bool}

theorem insert_ok {author comment : List UInt8} {timeStamp : ℤ} {flags : UInt8} {index : ℕ}
    (h : c.insert delimiter author comment timeStamp flags = .ok (c', index)) :
    ∃ changes copies merges props, pushBackLast c.changesOffsets = .ok changes ∧
      pushBackLast c.copyFromOffsets = .ok copies ∧
      pushBackLast c.mergedRevisionsOffsets = .ok merges ∧
      pushBackLast c.userRevPropOffsets = .ok props ∧ index = c.size ∧
      c' = { c with
        authorPool := (c.authorPool.autoInsert (author.takeWhile (· ≠ 0))).1
        authors := c.authors ++ [(c.authorPool.autoInsert (author.takeWhile (· ≠ 0))).2]
        timeStamps := c.timeStamps ++ [timeStamp]
        comments := c.comments.insert delimiter comment
        presenceFlags := c.presenceFlags ++ [flags]
        rootPaths := c.rootPaths ++ [⊤]
        sumChanges := c.sumChanges ++ [0]
        changesOffsets := changes
        copyFromOffsets := copies
        mergedRevisionsOffsets := merges
        userRevPropOffsets := props } := by
  unfold CRevisionInfoContainer.insert at h
  split at h
  · exact nomatch h
  simp only [bind_eq_ok, pure, Except.pure, Except.ok.injEq] at h
  obtain ⟨changes, hchanges, copies, hcopies, merges, hmerges, props, hprops, hc⟩ := h
  obtain ⟨rfl, rfl⟩ := Prod.mk.inj hc
  exact ⟨changes, copies, merges, props, hchanges, hcopies, hmerges, hprops, rfl, rfl⟩

theorem addChangedPath_ok {flags textModified propsModified : UInt8} {pathType : ℕ}
    {path : List UInt8} (h : c.addChangedPath flags pathType path textModified propsModified = .ok c') :
    ∃ root root' sums changes, back c.rootPaths = .ok root ∧
      extendRoot (c.paths.parsePath path).1 root (c.paths.parsePath path).2 = .ok root' ∧
      modifyBack (· ||| flags) c.sumChanges = .ok sums ∧
      modifyBack (· + 1) c.changesOffsets = .ok changes ∧
      c' = { c with
        paths := (c.paths.parsePath path).1
        changedPaths := c.changedPaths ++ [((c.paths.parsePath path).2 : Index)]
        rootPaths := c.rootPaths.dropLast ++ [root']
        changedPathTypes := c.changedPathTypes ++ [pathType]
        sumChanges := sums
        changes := c.changes ++ [flags]
        textModifies := c.textModifies ++ [textModified]
        propsModifies := c.propsModifies ++ [propsModified]
        changesOffsets := changes } := by
  unfold CRevisionInfoContainer.addChangedPath at h
  simp only [bind_eq_ok, pure, Except.pure, Except.ok.injEq] at h
  obtain ⟨root, hroot, root', hroot', sums, hsums, changes, hchanges, rfl⟩ := h
  exact ⟨root, root', sums, changes, hroot, hroot', hsums, hchanges, rfl⟩

theorem addCopySource_ok {fromPath : List UInt8} {fromRevision : ℕ}
    (h : c.addCopySource fromPath fromRevision = .ok c') :
    ∃ copies, modifyBack (· + 1) c.copyFromOffsets = .ok copies ∧
      c' = { c with
        paths := (c.paths.parsePath fromPath).1
        copyFromPaths := c.copyFromPaths ++ [((c.paths.parsePath fromPath).2 : Index)]
        copyFromRevisions := c.copyFromRevisions ++ [fromRevision]
        copyFromOffsets := copies } := by
  unfold CRevisionInfoContainer.addCopySource at h
  simp only [bind_eq_ok, pure, Except.pure, Except.ok.injEq] at h
  obtain ⟨copies, hcopies, rfl⟩ := h
  exact ⟨copies, hcopies, rfl⟩

end

end CRevisionInfoContainer

end TortoiseSvn.LogCache
