import TortoiseSvn.LogCache.RevisionInfoContainer
import TortoiseSvn.LogCache.TokenizedStringLoad
import TortoiseSvn.Streams.ColumnStreams

/-!
# Reading a revision info container

`operator>>` reads more than twenty columns, each from a stream of its own. It checks that some of
them have an entry for each revision, and then sums up the changes of each revision.

Main result: `load_entries_iff`. The sums can be computed and all data of all revisions can be read
inside the tables iff the columns fit together in ways that the checks do not ask for.
-/

namespace TortoiseSvn.LogCache

open TortoiseSvn.Lib

/-- A string that ends inside the buffer.
Source: `StringDictonary.h` `CStringDictionary::operator[]` -/
def CStringDictionary.stringAt (d : CStringDictionary) (index : ℕ) : Except Fault (List UInt8) :=
  if index < d.size ∧ (0 : UInt8) ∈ d.packedStrings.drop (d.offset index) then .ok (d.get index)
  else .error .undefined

namespace CRevisionInfoContainer

/-! ### The sums of the changes -/

/-- The inner loop: all revisions that end at change `i` or before get their sums. `offsets` are
those from `iter` on.
Source: `RevisionInfoContainer.cpp` `CRevisionInfoContainer::CalculateSumChanges` -/
def flushSums (i : ℕ) : List ℕ → ℕ → UInt8 → List UInt8 →
    Except Fault (List ℕ × ℕ × UInt8 × List UInt8)
  | [], _, _, _ => .error .undefined
  | offset :: offsets, target, sum, sums =>
    if offset ≤ i then do
      let sums ← store sums target sum
      flushSums i offsets (target + 1) 0 sums
    else .ok (offset :: offsets, target, sum, sums)

/-- The loop over the changes, the first of which is change `i`.
Source: `RevisionInfoContainer.cpp` `CRevisionInfoContainer::CalculateSumChanges` -/
def sumChangesLoop : List UInt8 → ℕ → List ℕ → ℕ → UInt8 → List UInt8 →
    Except Fault (List UInt8)
  | [], _, _, target, sum, sums => store sums target sum
  | change :: changes, i, offsets, target, sum, sums => do
    let r ← flushSums i offsets target sum sums
    sumChangesLoop changes (i + 1) r.1 r.2.1 (r.2.2.1 ||| change) r.2.2.2

/-- Source: `RevisionInfoContainer.cpp` `CRevisionInfoContainer::CalculateSumChanges` -/
def calculateSumChanges : LoadM CRevisionInfoContainer Unit := do
  Trial.modify fun c => { c with sumChanges := List.replicate c.rootPaths.length 0 }
  let c ← Trial.get
  if c.changes = [] then pure ()
  else do
    -- `at` checks the index
    Trial.require (2 ≤ c.changesOffsets.length) .outOfRange
    let sums ← Trial.lift (sumChangesLoop c.changes 0 (c.changesOffsets.drop 1) 0 0 c.sumChanges)
    Trial.modify fun c => { c with sumChanges := sums }

/-! ### Loading -/

/-- `node_unknown`. Source: `RevisionInfoContainer.h` `node_kind_t` -/
def nodeUnknown : ℕ := 3

/-- The pools and the columns.
Source: `RevisionInfoContainer.cpp` `operator>>`, up to the validation -/
def loadColumns (s : InStream) : LoadM CRevisionInfoContainer Unit := do
  let authorPoolStream ← Trial.lift (s.getSubStream 1)
  Trial.zoom authorPool (fun c v => { c with authorPool := v })
    (CStringDictionary.load authorPoolStream)
  let commentsStream ← Trial.lift (s.getSubStream 2)
  Trial.zoom comments (fun c v => { c with comments := v })
    (CTokenizedStringContainer.load commentsStream)
  let pathsStream ← Trial.lift (s.getSubStream 3)
  Trial.zoom paths (fun c v => { c with paths := v }) (CPathDictionary.load pathsStream)
  Trial.zoom authors (fun c v => { c with authors := v }) (loadColumn s 4 .diffInteger id)
  Trial.zoom timeStamps (fun c v => { c with timeStamps := v }) (loadTimes s 5)
  Trial.zoom rootPaths (fun c v => { c with rootPaths := v }) (loadColumn s 6 .diffInteger toIndex)
  Trial.zoom changesOffsets (fun c v => { c with changesOffsets := v })
    (loadColumn s 7 .diffDWORD id)
  Trial.zoom copyFromOffsets (fun c v => { c with copyFromOffsets := v })
    (loadColumn s 8 .diffDWORD id)
  Trial.zoom mergedRevisionsOffsets (fun c v => { c with mergedRevisionsOffsets := v })
    (loadColumn s 13 .diffDWORD id)
  Trial.zoom changes (fun c v => { c with changes := v })
    (loadColumn s 9 .packedDWORD UInt8.ofNat)
  Trial.zoom changedPaths (fun c v => { c with changedPaths := v })
    (loadColumn s 10 .diffInteger toIndex)
  Trial.zoom copyFromPaths (fun c v => { c with copyFromPaths := v })
    (loadColumn s 11 .diffInteger toIndex)
  Trial.zoom copyFromRevisions (fun c v => { c with copyFromRevisions := v })
    (loadColumn s 12 .diffInteger id)
  Trial.zoom mergedFromPaths (fun c v => { c with mergedFromPaths := v })
    (loadColumn s 14 .diffInteger toIndex)
  Trial.zoom mergedToPaths (fun c v => { c with mergedToPaths := v })
    (loadColumn s 15 .diffInteger toIndex)
  Trial.zoom mergedRangeStarts (fun c v => { c with mergedRangeStarts := v })
    (loadColumn s 16 .diffInteger id)
  Trial.zoom mergedRangeDeltas (fun c v => { c with mergedRangeDeltas := v })
    (loadColumn s 17 .diffInteger id)
  Trial.zoom userRevPropOffsets (fun c v => { c with userRevPropOffsets := v })
    (loadColumn s 18 .diffInteger id)
  let userRevPropsPoolStream ← Trial.lift (s.getSubStream 19)
  Trial.zoom userRevPropsPool (fun c v => { c with userRevPropsPool := v })
    (CStringDictionary.load userRevPropsPoolStream)
  Trial.zoom userRevPropNames (fun c v => { c with userRevPropNames := v })
    (loadColumn s 20 .packedDWORD id)
  let userRevPropsValuesStream ← Trial.lift (s.getSubStream 21)
  Trial.zoom userRevPropValues (fun c v => { c with userRevPropValues := v })
    (CTokenizedStringContainer.load userRevPropsValuesStream)
  Trial.zoom presenceFlags (fun c v => { c with presenceFlags := v })
    (loadColumn s 22 .packedDWORD UInt8.ofNat)
  -- latest additions
  let c ← Trial.get
  Trial.zoom changedPathTypes (fun c v => { c with changedPathTypes := v })
    (readOrDefault s 23 id c.changedPaths.length nodeUnknown)
  Trial.zoom textModifies (fun c v => { c with textModifies := v })
    (readOrDefault s 24 UInt8.ofNat c.changedPaths.length 0)
  Trial.zoom propsModifies (fun c v => { c with propsModifies := v })
    (readOrDefault s 25 UInt8.ofNat c.changedPaths.length 0)

/-- Source: `RevisionInfoContainer.cpp` `operator>>`, the validation -/
def validate : LoadM CRevisionInfoContainer Unit := do
  let c ← Trial.get
  Trial.require (¬ (c.authors.length < c.size ∨ c.comments.size < c.size ∨
      c.timeStamps.length < c.size ∨ c.presenceFlags.length < c.size ∨
      c.rootPaths.length < c.size ∨ c.changesOffsets.length < c.size ∨
      c.mergedRevisionsOffsets.length < c.size ∨ c.userRevPropOffsets.length < c.size))
    (.containerException "revision container mismatch")

/-- Source: `RevisionInfoContainer.cpp` `operator>>` -/
def load (s : InStream) : LoadM CRevisionInfoContainer Unit := do
  loadColumns s
  validate
  Trial.modify fun c => { c with storedSize := c.size }
  calculateSumChanges

/-! ### Reading the data of a revision -/

/-- Source: `RevisionInfoContainer.h` `CRevisionInfoContainer::GetAuthor` -/
def getAuthor (c : CRevisionInfoContainer) (index : ℕ) : Except Fault (List UInt8) := do
  let author ← checked c.authors[index]?
  if author = noIndex then .ok [] else c.authorPool.stringAt author

/-- Source: `RevisionInfoContainer.h` `CRevisionInfoContainer::GetTimeStamp` -/
def getTimeStamp (c : CRevisionInfoContainer) (index : ℕ) : Except Fault ℤ :=
  checked c.timeStamps[index]?

/-- What is read at an iterator over merges.
Source: `RevisionInfoContainer.h` `CRevisionInfoContainer::CMergedRevisionsIterator` -/
structure MergedRevision where
  fromPath : Index
  toPath : Index
  rangeStart : ℕ
  rangeDelta : ℕ

/-- Source: `RevisionInfoContainer.h` `CMergedRevisionsIterator`, the data access -/
def mergedRevision (c : CRevisionInfoContainer) (offset : ℕ) : Except Fault MergedRevision := do
  let fromPath ← checked c.mergedFromPaths[offset]?
  let toPath ← checked c.mergedToPaths[offset]?
  let rangeStart ← checked c.mergedRangeStarts[offset]?
  let rangeDelta ← checked c.mergedRangeDeltas[offset]?
  return ⟨fromPath, toPath, rangeStart, rangeDelta⟩

/-- Source: `RevisionInfoContainer.h` `CUserRevPropsIterator::GetName` -/
def userRevPropName (c : CRevisionInfoContainer) (offset : ℕ) : Except Fault (List UInt8) := do
  let revPropName ← checked c.userRevPropNames[offset]?
  c.userRevPropsPool.stringAt revPropName

/-- A path of which the path string can be read. -/
def PathReadable (c : CRevisionInfoContainer) (index : Index) : Prop :=
  ∃ path, c.paths.GetPath index path

/-- The offset table has the range of an entry, and `p` holds at all of its positions. An iterator
that begins behind its end would run out of the tables.
Source: `RevisionInfoContainer.h` `GetMergedRevisionsBegin`, `GetUserRevPropsBegin` -/
def Iterates (offsets : List ℕ) (i : ℕ) (p : ℕ → Prop) : Prop :=
  ∃ first last, offsets[i]? = some first ∧ offsets[i + 1]? = some last ∧ first ≤ last ∧
    ∀ k, first ≤ k → k < last → p k

/-- All data of a revision can be read inside the tables. -/
structure EntryReadable (c : CRevisionInfoContainer) (i : ℕ) : Prop where
  author : ∃ author, c.getAuthor i = .ok author
  comment : ∃ comment, c.comments.GetAt i comment
  timeStamp : ∃ timeStamp, c.getTimeStamp i = .ok timeStamp
  rootPath : ∃ root, c.getRootPath i = .ok root ∧ (root = ⊤ ∨ c.PathReadable root)
  changes : ∃ xs, c.changesOf i = .ok xs ∧ ∀ x ∈ xs, c.PathReadable x.changedPath ∧
    (x.hasFromPath = true → c.PathReadable x.copyFromPath)
  merges : Iterates c.mergedRevisionsOffsets i fun k =>
    ∃ m, c.mergedRevision k = .ok m ∧ c.PathReadable m.fromPath ∧ c.PathReadable m.toPath
  userRevProps : Iterates c.userRevPropOffsets i fun k =>
    (∃ name, c.userRevPropName k = .ok name) ∧ ∃ value, c.userRevPropValues.GetAt k value

/-- The pools and the path dictionary can be used. -/
structure SoundPools (c : CRevisionInfoContainer) : Prop where
  authorPool : ∀ i < c.authorPool.size, ∃ s, c.authorPool.stringAt i = .ok s
  comments : c.comments.Safe
  pathsTree : c.paths.Tree
  pathsSafe : c.paths.Safe
  userRevPropsPool : ∀ i < c.userRevPropsPool.size, ∃ s, c.userRevPropsPool.stringAt i = .ok s
  userRevPropValues : c.userRevPropValues.Safe

/-! ### What the streams hold -/

/-- The columns in the streams, and how many entries the pools and the optional columns get. -/
structure Stored where
  authorPool : ℕ
  paths : ℕ
  authors : List ℕ
  rootPaths : List Index
  changesOffsets : List ℕ
  copyFromOffsets : List ℕ
  mergedRevisionsOffsets : List ℕ
  changes : List UInt8
  changedPaths : List Index
  copyFromPaths : List Index
  copyFromRevisions : List ℕ
  mergedFromPaths : List Index
  mergedToPaths : List Index
  mergedRangeStarts : List ℕ
  mergedRangeDeltas : List ℕ
  userRevPropOffsets : List ℕ
  userRevPropsPool : ℕ
  userRevPropNames : List ℕ
  userRevPropValues : ℕ
  changedPathTypes : ℕ
  textModifies : ℕ
  propsModifies : ℕ
  deriving DecidableEq

/-- The number of strings in a stored pool. -/
def poolSize (s : InStream) (id : ℕ) : Except Fault ℕ := do
  let pool ← s.getSubStream id
  let offsets ← pool.getSubStreamAs 2 .diffDWORD
  let (count, _) ← CPackedDWORDInStream.getSizeValue ⟨offsets.content, 0, 0⟩
  return count - 1

/-- The columns in the streams, if they can be read. -/
def stored (s : InStream) : Except Fault Stored := do
  let authorPool ← poolSize s 1
  let pathsStream ← s.getSubStream 3
  let authors ← column s 4 .diffInteger
  let rootPaths ← column s 6 .diffInteger
  let changesOffsets ← column s 7 .diffDWORD
  let copyFromOffsets ← column s 8 .diffDWORD
  let mergedRevisionsOffsets ← column s 13 .diffDWORD
  let changes ← column s 9 .packedDWORD
  let changedPaths ← column s 10 .diffInteger
  let copyFromPaths ← column s 11 .diffInteger
  let copyFromRevisions ← column s 12 .diffInteger
  let mergedFromPaths ← column s 14 .diffInteger
  let mergedToPaths ← column s 15 .diffInteger
  let mergedRangeStarts ← column s 16 .diffInteger
  let mergedRangeDeltas ← column s 17 .diffInteger
  let userRevPropOffsets ← column s 18 .diffInteger
  let userRevPropsPool ← poolSize s 19
  let userRevPropNames ← column s 20 .packedDWORD
  let valuesStream ← s.getSubStream 21
  let values ← CTokenizedStringContainer.stored valuesStream
  let changedPathTypes ← columnOrDefault s 23 changedPaths.length
  let textModifies ← columnOrDefault s 24 changedPaths.length
  let propsModifies ← columnOrDefault s 25 changedPaths.length
  return {
    authorPool := authorPool
    paths := (CPathDictionary.storedPairs pathsStream).length
    authors := authors
    rootPaths := rootPaths.map toIndex
    changesOffsets := changesOffsets
    copyFromOffsets := copyFromOffsets
    mergedRevisionsOffsets := mergedRevisionsOffsets
    changes := changes.map UInt8.ofNat
    changedPaths := changedPaths.map toIndex
    copyFromPaths := copyFromPaths.map toIndex
    copyFromRevisions := copyFromRevisions
    mergedFromPaths := mergedFromPaths.map toIndex
    mergedToPaths := mergedToPaths.map toIndex
    mergedRangeStarts := mergedRangeStarts
    mergedRangeDeltas := mergedRangeDeltas
    userRevPropOffsets := userRevPropOffsets
    userRevPropsPool := userRevPropsPool
    userRevPropNames := userRevPropNames
    userRevPropValues := values.offsets.length - 1
    changedPathTypes := changedPathTypes
    textModifies := textModifies
    propsModifies := propsModifies }

namespace Stored

/-- An index of a path. -/
def IsPath (x : Stored) (index : Index) : Prop := ∃ p : ℕ, index = (p : Index) ∧ p < x.paths

/-- Position `k` of a column of paths holds a path. -/
def PathAt (x : Stored) (l : List Index) (k : ℕ) : Prop := ∃ index, l[k]? = some index ∧ x.IsPath index

/-- All columns of the changes have an entry `k`. -/
def HasChange (x : Stored) (k : ℕ) : Prop :=
  k < x.changes.length ∧ x.PathAt x.changedPaths k ∧ k < x.changedPathTypes ∧ k < x.textModifies ∧
    k < x.propsModifies

/-- Both columns of the copy sources have an entry `k`. -/
def HasCopy (x : Stored) (k : ℕ) : Prop :=
  x.PathAt x.copyFromPaths k ∧ k < x.copyFromRevisions.length

/-- All columns of the merges have an entry `k`. -/
def HasMerge (x : Stored) (k : ℕ) : Prop :=
  x.PathAt x.mergedFromPaths k ∧ x.PathAt x.mergedToPaths k ∧ k < x.mergedRangeStarts.length ∧
    k < x.mergedRangeDeltas.length

/-- Both columns of the user properties have an entry `k`. -/
def HasUserRevProp (x : Stored) (k : ℕ) : Prop :=
  (∃ name, x.userRevPropNames[k]? = some name ∧ name < x.userRevPropsPool) ∧
    k < x.userRevPropValues

/-- The number of changes with a copy source in a range. -/
def copies (x : Stored) (first last : ℕ) : ℕ :=
  ((x.changes.drop first).take (last - first)).countP fun change => change &&& HAS_COPY_FROM ≠ 0

/-- What safe reading needs beyond the checks of `operator>>`. -/
structure Fits (x : Stored) : Prop where
  /-- The changes end where those of a revision do. -/
  sums : x.changes = [] ∨ ∃ k last, x.changesOffsets[k + 1]? = some last ∧
    x.changes.length ≤ last ∧ k < x.rootPaths.length
  authors : ∀ author ∈ x.authors, author = noIndex ∨ author < x.authorPool
  rootPaths : ∀ i < x.authors.length, ∀ root, x.rootPaths[i]? = some root →
    root = ⊤ ∨ x.IsPath root
  changes : ∀ i < x.authors.length, i + 1 < x.copyFromOffsets.length ∧
    ∃ copy, x.copyFromOffsets[i]? = some copy ∧
    ∃ first last, x.changesOffsets[i]? = some first ∧ x.changesOffsets[i + 1]? = some last ∧
      first ≤ last ∧ (∀ k, first ≤ k → k < last → x.HasChange k) ∧
      ∀ k, copy ≤ k → k < copy + x.copies first last → x.HasCopy k
  merges : ∀ i < x.authors.length, Iterates x.mergedRevisionsOffsets i x.HasMerge
  userRevProps : ∀ i < x.authors.length, Iterates x.userRevPropOffsets i x.HasUserRevProp

end Stored

/-- The columns that were read are those in the streams. -/
structure Holds (c : CRevisionInfoContainer) (x : Stored) : Prop where
  authorPool : c.authorPool.size = x.authorPool
  paths : c.paths.size = x.paths
  authors : c.authors = x.authors
  rootPaths : c.rootPaths = x.rootPaths
  changesOffsets : c.changesOffsets = x.changesOffsets
  copyFromOffsets : c.copyFromOffsets = x.copyFromOffsets
  mergedRevisionsOffsets : c.mergedRevisionsOffsets = x.mergedRevisionsOffsets
  changes : c.changes = x.changes
  changedPaths : c.changedPaths = x.changedPaths
  copyFromPaths : c.copyFromPaths = x.copyFromPaths
  copyFromRevisions : c.copyFromRevisions = x.copyFromRevisions
  mergedFromPaths : c.mergedFromPaths = x.mergedFromPaths
  mergedToPaths : c.mergedToPaths = x.mergedToPaths
  mergedRangeStarts : c.mergedRangeStarts = x.mergedRangeStarts
  mergedRangeDeltas : c.mergedRangeDeltas = x.mergedRangeDeltas
  userRevPropOffsets : c.userRevPropOffsets = x.userRevPropOffsets
  userRevPropsPool : c.userRevPropsPool.size = x.userRevPropsPool
  userRevPropNames : c.userRevPropNames = x.userRevPropNames
  userRevPropValues : c.userRevPropValues.Safe → c.userRevPropValues.size = x.userRevPropValues ∧
    c.userRevPropValues.offsets.length = x.userRevPropValues + 1
  changedPathTypes : c.changedPathTypes.length = x.changedPathTypes
  textModifies : c.textModifies.length = x.textModifies
  propsModifies : c.propsModifies.length = x.propsModifies

theorem poolSize_of_load {s pool : InStream} {id : ℕ} (hsub : s.getSubStream id = .ok pool)
    {d₀ d : CStringDictionary} (h : CStringDictionary.load pool d₀ = (.ok (), d)) :
    poolSize s id = .ok d.size := by
  obtain ⟨-, offsets, count, rest, hoffsets, hcount, hsize⟩ := CStringDictionary.load_ok h
  simp only [poolSize, hsub, hoffsets, hcount, hsize, bind, Except.bind, pure, Except.pure]

theorem loadColumns_ok {s : InStream} {c₀ c : CRevisionInfoContainer}
    (h : loadColumns s c₀ = (.ok (), c)) : ∃ x, stored s = .ok x ∧ c.Holds x := by
  cases c₀
  rw [loadColumns] at h
  obtain ⟨pool, hpool, h⟩ := Trial.lift_bind_eq_ok h
  obtain ⟨_, authorPool, hauthorPool, h⟩ := Trial.zoom_bind_eq_ok h
  dsimp only at h
  obtain ⟨commentsStream, -, h⟩ := Trial.lift_bind_eq_ok h
  obtain ⟨_, comments, -, h⟩ := Trial.zoom_bind_eq_ok h
  dsimp only at h
  obtain ⟨pathsStream, hpathsStream, h⟩ := Trial.lift_bind_eq_ok h
  obtain ⟨_, paths, hpaths, h⟩ := Trial.zoom_bind_eq_ok h
  dsimp only at h
  obtain ⟨_, authors, hauthors, h⟩ := Trial.zoom_bind_eq_ok h
  dsimp only at h
  obtain ⟨_, timeStamps, -, h⟩ := Trial.zoom_bind_eq_ok h
  dsimp only at h
  obtain ⟨_, rootPaths, hrootPaths, h⟩ := Trial.zoom_bind_eq_ok h
  dsimp only at h
  obtain ⟨_, changesOffsets, hchangesOffsets, h⟩ := Trial.zoom_bind_eq_ok h
  dsimp only at h
  obtain ⟨_, copyFromOffsets, hcopyFromOffsets, h⟩ := Trial.zoom_bind_eq_ok h
  dsimp only at h
  obtain ⟨_, mergedOffsets, hmergedOffsets, h⟩ := Trial.zoom_bind_eq_ok h
  dsimp only at h
  obtain ⟨_, changes, hchanges, h⟩ := Trial.zoom_bind_eq_ok h
  dsimp only at h
  obtain ⟨_, changedPaths, hchangedPaths, h⟩ := Trial.zoom_bind_eq_ok h
  dsimp only at h
  obtain ⟨_, copyFromPaths, hcopyFromPaths, h⟩ := Trial.zoom_bind_eq_ok h
  dsimp only at h
  obtain ⟨_, copyFromRevisions, hcopyFromRevisions, h⟩ := Trial.zoom_bind_eq_ok h
  dsimp only at h
  obtain ⟨_, mergedFromPaths, hmergedFromPaths, h⟩ := Trial.zoom_bind_eq_ok h
  dsimp only at h
  obtain ⟨_, mergedToPaths, hmergedToPaths, h⟩ := Trial.zoom_bind_eq_ok h
  dsimp only at h
  obtain ⟨_, mergedStarts, hmergedStarts, h⟩ := Trial.zoom_bind_eq_ok h
  dsimp only at h
  obtain ⟨_, mergedDeltas, hmergedDeltas, h⟩ := Trial.zoom_bind_eq_ok h
  dsimp only at h
  obtain ⟨_, propOffsets, hpropOffsets, h⟩ := Trial.zoom_bind_eq_ok h
  dsimp only at h
  obtain ⟨propPool, hpropPool, h⟩ := Trial.lift_bind_eq_ok h
  obtain ⟨_, propsPool, hpropsPool, h⟩ := Trial.zoom_bind_eq_ok h
  dsimp only at h
  obtain ⟨_, propNames, hpropNames, h⟩ := Trial.zoom_bind_eq_ok h
  dsimp only at h
  obtain ⟨valuesStream, hvaluesStream, h⟩ := Trial.lift_bind_eq_ok h
  obtain ⟨_, values, hvalues, h⟩ := Trial.zoom_bind_eq_ok h
  dsimp only at h
  obtain ⟨_, presenceFlags, -, h⟩ := Trial.zoom_bind_eq_ok h
  dsimp only at h
  obtain ⟨c₁, c₂, hget, h⟩ := Trial.bind_eq_ok h
  rw [Trial.get_run, Prod.mk.injEq] at hget
  obtain ⟨hc₁, rfl⟩ := hget
  obtain rfl := Except.ok.inj hc₁
  obtain ⟨_, types, htypes, h⟩ := Trial.zoom_bind_eq_ok h
  dsimp only at h
  obtain ⟨_, texts, htexts, h⟩ := Trial.zoom_bind_eq_ok h
  dsimp only at h
  rw [Trial.zoom_run, Prod.mk.injEq] at h
  obtain ⟨hprops, rfl⟩ := h
  obtain ⟨vs₁, hvs₁, rfl⟩ := loadColumn_ok hauthors
  obtain ⟨vs₂, hvs₂, rfl⟩ := loadColumn_ok hrootPaths
  obtain ⟨vs₃, hvs₃, rfl⟩ := loadColumn_ok hchangesOffsets
  obtain ⟨vs₄, hvs₄, rfl⟩ := loadColumn_ok hcopyFromOffsets
  obtain ⟨vs₅, hvs₅, rfl⟩ := loadColumn_ok hmergedOffsets
  obtain ⟨vs₆, hvs₆, rfl⟩ := loadColumn_ok hchanges
  obtain ⟨vs₇, hvs₇, rfl⟩ := loadColumn_ok hchangedPaths
  obtain ⟨vs₈, hvs₈, rfl⟩ := loadColumn_ok hcopyFromPaths
  obtain ⟨vs₉, hvs₉, rfl⟩ := loadColumn_ok hcopyFromRevisions
  obtain ⟨ws₁, hws₁, rfl⟩ := loadColumn_ok hmergedFromPaths
  obtain ⟨ws₂, hws₂, rfl⟩ := loadColumn_ok hmergedToPaths
  obtain ⟨ws₃, hws₃, rfl⟩ := loadColumn_ok hmergedStarts
  obtain ⟨ws₄, hws₄, rfl⟩ := loadColumn_ok hmergedDeltas
  obtain ⟨ws₅, hws₅, rfl⟩ := loadColumn_ok hpropOffsets
  obtain ⟨ws₆, hws₆, rfl⟩ := loadColumn_ok hpropNames
  have htypes' := readOrDefault_ok htypes
  have htexts' := readOrDefault_ok htexts
  have hprops' := readOrDefault_ok (Prod.ext hprops rfl)
  obtain ⟨-, hpairs, -⟩ := CPathDictionary.load_ok hpaths
  obtain ⟨y, hy, hvaluesOk⟩ := CTokenizedStringContainer.load_accepted hvalues
  rw [List.length_map] at htypes' htexts' hprops'
  refine ⟨⟨authorPool.size, (CPathDictionary.storedPairs pathsStream).length, vs₁,
    vs₂.map toIndex, vs₃, vs₄, vs₅, vs₆.map UInt8.ofNat, vs₇.map toIndex, vs₈.map toIndex, vs₉,
    ws₁.map toIndex, ws₂.map toIndex, ws₃, ws₄, ws₅, propsPool.size, ws₆, y.offsets.length - 1,
    types.length, texts.length, _⟩, ?_, ⟨rfl, ?_, List.map_id _, rfl, List.map_id _, List.map_id _, List.map_id _, rfl, rfl,
    rfl, List.map_id _, rfl, rfl, List.map_id _, List.map_id _, List.map_id _, rfl, List.map_id _,
    fun hsafe => ?_, rfl, rfl, rfl⟩⟩
  · rw [stored, poolSize_of_load hpool hauthorPool, poolSize_of_load hpropPool hpropsPool,
      hpathsStream, hvs₁, hvs₂, hvs₃, hvs₄, hvs₅, hvs₆, hvs₇, hvs₈, hvs₉, hws₁, hws₂, hws₃, hws₄,
      hws₅, hws₆, hvaluesStream]
    simp only [bind, Except.bind, pure, Except.pure, hy, htypes', htexts', hprops', List.length_map]
  · show paths.paths.length = _
    rw [hpairs, List.length_map]
  · have hne := (hvaluesOk.readable_of_safe hsafe).offsets
    refine ⟨hvaluesOk.size hne, ?_⟩
    show values.offsets.length = _
    rw [hvaluesOk.offsets_eq, Nat.sub_add_cancel (List.length_pos_iff.mpr hne)]

/-! ### Where the sums can be computed -/

theorem store_eq_ok {α : Type} {l l' : List α} {i : ℕ} {a : α} :
    store l i a = .ok l' ↔ i < l.length ∧ l' = l.set i a := by
  unfold store
  split
  · rename_i h
    constructor
    · intro he
      exact ⟨h, (Except.ok.inj he).symm⟩
    · rintro ⟨-, rfl⟩
      rfl
  · rename_i h
    exact iff_of_false (fun he => nomatch he) fun he => h he.1

/-- The inner loop ends at the first offset that lies behind the change. -/
theorem flushSums_ok {i target : ℕ} {offsets : List ℕ} {sum : UInt8} {sums : List UInt8}
    {r : List ℕ × ℕ × UInt8 × List UInt8} (h : flushSums i offsets target sum sums = .ok r) :
    ∃ p last, offsets[p]? = some last ∧ i < last ∧ r.1 = offsets.drop p ∧ r.2.1 = target + p ∧
      r.2.2.2.length = sums.length := by
  induction offsets generalizing target sum sums with
  | nil => exact nomatch h
  | cons offset offsets ih =>
    rw [flushSums] at h
    split at h
    · obtain ⟨sums', hstore, h⟩ := bind_eq_ok.mp h
      obtain ⟨-, rfl⟩ := store_eq_ok.mp hstore
      obtain ⟨p, last, hlast, hlt, hdrop, htarget, hlen⟩ := ih h
      refine ⟨p + 1, last, hlast, hlt, hdrop, ?_, ?_⟩
      · rw [htarget]
        ring
      · rw [hlen, List.length_set]
    · rename_i hgt
      obtain rfl := Except.ok.inj h
      exact ⟨0, offset, rfl, Nat.lt_of_not_le hgt, rfl, rfl, rfl⟩

theorem exists_flushSums {i target k last : ℕ} {offsets : List ℕ} (sum : UInt8) {sums : List UInt8}
    (hk : offsets[k]? = some last) (hlt : i < last) (hroom : target + k < sums.length) :
    ∃ r, ∃ p ≤ k, flushSums i offsets target sum sums = .ok r ∧ r.1 = offsets.drop p ∧
      r.2.1 = target + p ∧ r.2.2.2.length = sums.length := by
  induction offsets generalizing target k sum sums with
  | nil => exact nomatch hk
  | cons offset offsets ih =>
    rw [flushSums]
    by_cases hle : offset ≤ i
    · cases k with
      | zero =>
        obtain rfl := Option.some.inj hk
        exact absurd hle (Nat.not_le.mpr hlt)
      | succ k =>
        have hstore : store sums target sum = .ok (sums.set target sum) :=
          store_eq_ok.mpr ⟨by omega, rfl⟩
        obtain ⟨r, p, hp, hr, hdrop, htarget, hlen⟩ := @ih (target + 1) k 0 (sums.set target sum) hk
          (by rw [List.length_set]; omega)
        refine ⟨r, p + 1, Nat.succ_le_succ hp, ?_, hdrop, ?_, ?_⟩
        · rw [if_pos hle, hstore]
          exact hr
        · rw [htarget]
          ring
        · rw [hlen, List.length_set]
    · rw [if_neg hle]
      exact ⟨_, 0, Nat.zero_le k, rfl, rfl, rfl, rfl⟩

/-- The loop stays inside the arrays iff some offset lies behind all changes and has a sum. -/
theorem sumChangesLoop_ok_iff {changes : List UInt8} (hne : changes ≠ []) {i target : ℕ}
    {offsets : List ℕ} {sum : UInt8} {sums : List UInt8} :
    (∃ r, sumChangesLoop changes i offsets target sum sums = .ok r) ↔
      ∃ k last, offsets[k]? = some last ∧ i + changes.length ≤ last ∧ target + k < sums.length := by
  induction changes generalizing i offsets target sum sums with
  | nil => exact absurd rfl hne
  | cons change changes ih =>
    rw [List.length_cons]
    constructor
    · rintro ⟨r, hr⟩
      rw [sumChangesLoop] at hr
      obtain ⟨f, hf, hr⟩ := bind_eq_ok.mp hr
      obtain ⟨p, last, hlast, hlt, hdrop, htarget, hlen⟩ := flushSums_ok hf
      rcases List.eq_nil_or_concat changes with rfl | ⟨_, _, hconcat⟩
      · obtain ⟨hroom, -⟩ := store_eq_ok.mp hr
        refine ⟨p, last, hlast, hlt, ?_⟩
        rwa [htarget, hlen] at hroom
      · have hne' : changes ≠ [] := by
          rw [hconcat, List.concat_eq_append]
          exact List.concat_ne_nil _ _
        obtain ⟨k, last', hk, hle, hroom⟩ := (ih hne').mp ⟨r, hr⟩
        rw [hdrop, List.getElem?_drop] at hk
        rw [htarget, hlen] at hroom
        exact ⟨p + k, last', hk, by omega, by omega⟩
    · rintro ⟨k, last, hk, hle, hroom⟩
      obtain ⟨f, p, hp, hf, hdrop, htarget, hlen⟩ := exists_flushSums sum hk (by omega : i < last)
        hroom
      have hrest : ∃ r, sumChangesLoop changes (i + 1) f.1 f.2.1 (f.2.2.1 ||| change) f.2.2.2 =
          .ok r := by
        rcases List.eq_nil_or_concat changes with rfl | ⟨_, _, hconcat⟩
        · exact ⟨_, store_eq_ok.mpr ⟨by rw [htarget, hlen]; omega, rfl⟩⟩
        · have hne' : changes ≠ [] := by
            rw [hconcat, List.concat_eq_append]
            exact List.concat_ne_nil _ _
          refine (ih hne').mpr ⟨k - p, last, ?_, by omega, ?_⟩
          · rw [hdrop, List.getElem?_drop, Nat.add_sub_cancel' hp]
            exact hk
          · rw [htarget, hlen]
            omega
      obtain ⟨r, hr⟩ := hrest
      refine ⟨r, ?_⟩
      rw [sumChangesLoop, hf]
      exact hr

/-! ### Where the data can be read -/

section Reading

variable {c : CRevisionInfoContainer} {x : Stored}

theorem getElem?_eq_some_iff_lt {α : Type} {l : List α} {k : ℕ} :
    (∃ a, l[k]? = some a) ↔ k < l.length := by
  constructor
  · rintro ⟨a, ha⟩
    exact (List.getElem?_eq_some_iff.mp ha).1
  · intro hk
    exact ⟨_, List.getElem?_eq_getElem hk⟩

theorem stringAt_lt {d : CStringDictionary} {i : ℕ} {s : List UInt8}
    (h : d.stringAt i = .ok s) : i < d.size := by
  unfold CStringDictionary.stringAt at h
  split at h
  · rename_i hi
    exact hi.1
  · exact nomatch h

/-- The paths that can be read are those of the dictionary. -/
theorem pathReadable_iff (hpools : c.SoundPools) (h : c.Holds x) {index : Index} :
    c.PathReadable index ↔ x.IsPath index := by
  constructor
  · rintro ⟨path, elements, hr, -⟩
    have hentry : index ≠ (0 : ℕ) → ∃ p, c.paths.entry index = .ok p := by
      intro hne
      by_contra hno
      have hid : ∃ e, c.paths.getPathElementID index = .error e := by
        unfold CPathDictionary.getPathElementID
        rcases he : c.paths.entry index with e | p
        · exact ⟨e, rfl⟩
        · exact absurd ⟨p, he⟩ hno
      obtain ⟨e, he⟩ := hid
      have hbody : c.paths.collectBody (index, []) = .error e := by
        rw [CPathDictionary.collectBody, if_pos ⟨hne, by decide⟩, he]
        rfl
      rcases hr.body_ok with hb | ⟨s, hb, -⟩
      · cases hbody.symm.trans hb
      · cases hbody.symm.trans hb
    by_cases hzero : index = (0 : ℕ)
    · obtain ⟨element, hroot⟩ := hpools.pathsTree.root
      exact ⟨0, hzero, h.paths ▸ (List.getElem?_eq_some_iff.mp hroot).1⟩
    · obtain ⟨p, hp⟩ := hentry hzero
      cases index with
      | none => cases hp
      | some i =>
        refine ⟨i, rfl, h.paths ▸ ?_⟩
        exact (List.getElem?_eq_some_iff.mp (checked_eq_ok.mp hp)).1
  · rintro ⟨i, rfl, hi⟩
    exact hpools.pathsSafe.path i (h.paths ▸ hi)

/-- Position `k` of a column of paths is read, and the path too. -/
theorem pathAt_iff (hpools : c.SoundPools) (h : c.Holds x) {l : List Index} {k : ℕ} :
    x.PathAt l k ↔ ∃ index, l[k]? = some index ∧ c.PathReadable index :=
  exists_congr fun _ => and_congr_right fun _ => (pathReadable_iff hpools h).symm

theorem author_iff (hpools : c.SoundPools) (h : c.Holds x) {i : ℕ} (hi : i < c.size) :
    (∃ author, c.getAuthor i = .ok author) ↔
      ∀ author, x.authors[i]? = some author → author = noIndex ∨ author < x.authorPool := by
  have hget : c.authors[i]? = some (c.authors.get ⟨i, hi⟩) := List.getElem?_eq_getElem hi
  rw [← h.authors, ← h.authorPool, getAuthor, hget]
  constructor
  · rintro ⟨s, hs⟩ author hauthor
    obtain rfl := Option.some.inj hauthor
    by_cases hno : c.authors.get ⟨i, hi⟩ = noIndex
    · exact .inl hno
    · refine .inr (stringAt_lt (s := s) ?_)
      rw [← hs]
      exact (if_neg hno).symm
  · intro hauthor
    rcases hauthor _ rfl with hno | hlt
    · exact ⟨[], if_pos hno⟩
    · by_cases hno : c.authors.get ⟨i, hi⟩ = noIndex
      · exact ⟨[], if_pos hno⟩
      · obtain ⟨s, hs⟩ := hpools.authorPool _ hlt
        exact ⟨s, (if_neg hno).trans hs⟩

theorem merge_iff (hpools : c.SoundPools) (h : c.Holds x) {k : ℕ} :
    (∃ m, c.mergedRevision k = .ok m ∧ c.PathReadable m.fromPath ∧ c.PathReadable m.toPath) ↔
      x.HasMerge k := by
  rw [Stored.HasMerge, pathAt_iff hpools h, pathAt_iff hpools h, ← getElem?_eq_some_iff_lt,
    ← getElem?_eq_some_iff_lt, ← h.mergedFromPaths, ← h.mergedToPaths, ← h.mergedRangeStarts,
    ← h.mergedRangeDeltas]
  constructor
  · rintro ⟨m, hm, hfrom, hto⟩
    simp only [mergedRevision, bind_eq_ok, checked_eq_ok] at hm
    obtain ⟨fromPath, hf, toPath, ht, start, hs, delta, hd, hm⟩ := hm
    obtain rfl := Except.ok.inj hm
    exact ⟨⟨fromPath, hf, hfrom⟩, ⟨toPath, ht, hto⟩, ⟨start, hs⟩, ⟨delta, hd⟩⟩
  · rintro ⟨⟨fromPath, hf, hfrom⟩, ⟨toPath, ht, hto⟩, ⟨start, hs⟩, ⟨delta, hd⟩⟩
    refine ⟨⟨fromPath, toPath, start, delta⟩, ?_, hfrom, hto⟩
    simp only [mergedRevision, hf, ht, hs, hd]
    rfl

/-- The strings that can be read are those that the offset table has. -/
theorem value_iff {v : CTokenizedStringContainer} (hsafe : v.Safe) {n k : ℕ} (hsize : v.size = n)
    (hlen : v.offsets.length = n + 1) : (∃ value, v.GetAt k value) ↔ k < n := by
  constructor
  · rintro ⟨value, hvalue⟩
    obtain ⟨ts, ss, hts, -⟩ := hvalue.spells
    obtain ⟨first, last, -, hlast, -⟩ := CTokenizedStringContainer.tokensAt_eq_ok.mp hts
    have hlt := (List.getElem?_eq_some_iff.mp hlast).1
    rw [hlen] at hlt
    exact Nat.lt_of_succ_lt_succ hlt
  · intro hk
    exact hsafe k (hsize ▸ hk)

theorem userRevProp_iff (hpools : c.SoundPools) (h : c.Holds x) {k : ℕ} :
    ((∃ name, c.userRevPropName k = .ok name) ∧ ∃ value, c.userRevPropValues.GetAt k value) ↔
      x.HasUserRevProp k := by
  obtain ⟨hsize, hlen⟩ := h.userRevPropValues hpools.userRevPropValues
  rw [Stored.HasUserRevProp, value_iff hpools.userRevPropValues hsize hlen, ← h.userRevPropNames,
    ← h.userRevPropsPool]
  refine and_congr_left fun _ => ?_
  simp only [userRevPropName, bind_eq_ok, checked_eq_ok]
  constructor
  · rintro ⟨s, name, hname, hs⟩
    exact ⟨name, hname, stringAt_lt hs⟩
  · rintro ⟨name, hname, hlt⟩
    obtain ⟨s, hs⟩ := hpools.userRevPropsPool name hlt
    exact ⟨s, name, hname, hs⟩

/-- The paths of a change can be read. -/
def ChangeReadable (c : CRevisionInfoContainer) (info : SPerChangeInfo) : Prop :=
  c.PathReadable info.changedPath ∧ (info.hasFromPath = true → c.PathReadable info.copyFromPath)

/-- So many changes from an iterator on can be read. -/
def RangeReadable (c : CRevisionInfoContainer) (n : ℕ) (iter : CChangesIterator) : Prop :=
  ∃ xs, c.readChanges n iter = .ok xs ∧ ∀ info ∈ xs, c.ChangeReadable info

/-- A change that has no copy source. -/
theorem change_iff (hpools : c.SoundPools) (h : c.Holds x) {k copy : ℕ} {change : UInt8}
    (hk : x.changes[k]? = some change) (hno : ¬ change &&& HAS_COPY_FROM ≠ 0) :
    (∃ info, c.perChangeInfo ⟨k, copy⟩ = .ok info ∧ c.ChangeReadable info) ↔ x.HasChange k := by
  have hchange : c.changes[k]? = some change := h.changes ▸ hk
  rw [Stored.HasChange, pathAt_iff hpools h, ← h.changedPaths, ← h.changedPathTypes,
    ← h.textModifies, ← h.propsModifies]
  repeat rw [← getElem?_eq_some_iff_lt]
  constructor
  · rintro ⟨info, hinfo, hpath, -⟩
    simp only [perChangeInfo, bind_eq_ok, checked_eq_ok] at hinfo
    obtain ⟨path, hp, type, ht, _, hc, text, htext, props, hprops, hinfo⟩ := hinfo
    obtain rfl := Option.some.inj (hchange.symm.trans hc)
    rw [if_neg hno] at hinfo
    obtain rfl := Except.ok.inj hinfo
    exact ⟨⟨change, hk⟩, ⟨path, hp, hpath⟩, ⟨type, ht⟩, ⟨text, htext⟩, ⟨props, hprops⟩⟩
  · rintro ⟨-, ⟨path, hp, hpath⟩, ⟨type, ht⟩, ⟨text, htext⟩, ⟨props, hprops⟩⟩
    refine ⟨⟨path, type, change, ⊤, 0, text, props⟩, ?_, hpath, fun hcopy => ?_⟩
    · simp only [perChangeInfo, hp, ht, hchange, htext, hprops, checked, bind, Except.bind, if_neg hno]
      rfl
    · exact absurd (of_decide_eq_true hcopy) hno

/-- A change that has a copy source. -/
theorem copy_iff (hpools : c.SoundPools) (h : c.Holds x) {k copy : ℕ} {change : UInt8}
    (hk : x.changes[k]? = some change) (hcopy : change &&& HAS_COPY_FROM ≠ 0) :
    (∃ info, c.perChangeInfo ⟨k, copy⟩ = .ok info ∧ c.ChangeReadable info) ↔
      x.HasChange k ∧ x.HasCopy copy := by
  have hchange : c.changes[k]? = some change := h.changes ▸ hk
  rw [Stored.HasChange, Stored.HasCopy, pathAt_iff hpools h, pathAt_iff hpools h, ← h.changedPaths,
    ← h.changedPathTypes, ← h.textModifies, ← h.propsModifies, ← h.copyFromPaths,
    ← h.copyFromRevisions]
  repeat rw [← getElem?_eq_some_iff_lt]
  constructor
  · rintro ⟨info, hinfo, hpath, hfrom⟩
    simp only [perChangeInfo, bind_eq_ok, checked_eq_ok] at hinfo
    obtain ⟨path, hp, type, ht, _, hc, text, htext, props, hprops, hinfo⟩ := hinfo
    obtain rfl := Option.some.inj (hchange.symm.trans hc)
    rw [if_pos hcopy] at hinfo
    simp only [bind_eq_ok, checked_eq_ok] at hinfo
    obtain ⟨fromPath, hf, fromRevision, hr, hinfo⟩ := hinfo
    obtain rfl := Except.ok.inj hinfo
    exact ⟨⟨⟨change, hk⟩, ⟨path, hp, hpath⟩, ⟨type, ht⟩, ⟨text, htext⟩, ⟨props, hprops⟩⟩,
      ⟨fromPath, hf, hfrom (decide_eq_true hcopy)⟩, ⟨fromRevision, hr⟩⟩
  · rintro ⟨⟨-, ⟨path, hp, hpath⟩, ⟨type, ht⟩, ⟨text, htext⟩, ⟨props, hprops⟩⟩,
      ⟨fromPath, hf, hfrom⟩, ⟨fromRevision, hr⟩⟩
    refine ⟨⟨path, type, change, fromPath, fromRevision, text, props⟩, ?_, hpath, fun _ => hfrom⟩
    simp only [perChangeInfo, hp, ht, hchange, htext, hprops, hf, hr, checked, bind, Except.bind,
      if_pos hcopy]
    rfl

/-- The next change, at which the copy position moves on if there is a copy source. -/
theorem perChangeInfo_change {iter : CChangesIterator} {info : SPerChangeInfo}
    (h : c.perChangeInfo iter = .ok info) : c.changes[iter.changeOffset]? = some info.change := by
  simp only [perChangeInfo, bind_eq_ok, checked_eq_ok] at h
  obtain ⟨_, -, _, -, change, hchange, _, -, _, -, h⟩ := h
  split at h
  · simp only [bind_eq_ok] at h
    obtain ⟨_, -, _, -, h⟩ := h
    obtain rfl := Except.ok.inj h
    exact hchange
  · obtain rfl := Except.ok.inj h
    exact hchange

theorem forall_lt_succ_left {p : ℕ → Prop} {first n : ℕ} :
    (∀ k, first ≤ k → k < first + (n + 1) → p k) ↔
      p first ∧ ∀ k, first + 1 ≤ k → k < first + 1 + n → p k := by
  constructor
  · intro h
    exact ⟨h first le_rfl (by omega), fun k hk hlt => h k (by omega) (by omega)⟩
  · rintro ⟨h₀, h⟩ k hk hlt
    rcases hk.eq_or_lt with rfl | hk
    · exact h₀
    · exact h k hk (by omega)

theorem exists_and_of_const {α β : Type} {p q : α → Prop} {f : α → β} {b : β}
    (h : ∀ a, p a → f a = b) {r : β → Prop} :
    (∃ a, (p a ∧ q a) ∧ r (f a)) ↔ (∃ a, p a ∧ q a) ∧ r b := by
  constructor
  · rintro ⟨a, hpq, hr⟩
    exact ⟨⟨a, hpq⟩, h a hpq.1 ▸ hr⟩
  · rintro ⟨⟨a, hpq⟩, hr⟩
    exact ⟨a, hpq, (h a hpq.1).symm ▸ hr⟩

/-- All changes of a range, the copy sources beginning at `copy`. -/
theorem readChanges_iff (hpools : c.SoundPools) (h : c.Holds x) {n first copy : ℕ} :
    c.RangeReadable n ⟨first, copy⟩ ↔
      (∀ k, first ≤ k → k < first + n → x.HasChange k) ∧
        ∀ k, copy ≤ k → k < copy + x.copies first (first + n) → x.HasCopy k := by
  induction n generalizing first copy with
  | zero =>
    rw [Stored.copies, Nat.add_zero, Nat.sub_self, List.take_zero, List.countP_nil]
    refine iff_of_true ⟨[], rfl, fun _ h => absurd h List.not_mem_nil⟩ ⟨?_, ?_⟩ <;>
      exact fun k hk hlt => absurd hlt (Nat.not_lt.mpr hk)
  | succ n ih =>
    -- what reading the first change and then the rest takes
    have hstep : c.RangeReadable (n + 1) ⟨first, copy⟩ ↔
        ∃ info, (c.perChangeInfo ⟨first, copy⟩ = .ok info ∧ c.ChangeReadable info) ∧
          c.RangeReadable n (CChangesIterator.next ⟨first, copy⟩ info) := by
      constructor
      · rintro ⟨xs, hxs, hall⟩
        obtain ⟨info, hinfo, hxs⟩ := bind_eq_ok.mp hxs
        obtain ⟨rest, hrest, hxs⟩ := bind_eq_ok.mp hxs
        obtain rfl := Except.ok.inj hxs
        obtain ⟨hfirst, hrest'⟩ := List.forall_mem_cons.mp hall
        exact ⟨info, ⟨hinfo, hfirst⟩, rest, hrest, hrest'⟩
      · rintro ⟨info, ⟨hinfo, hfirst⟩, rest, hrest, hall⟩
        refine ⟨info :: rest, ?_, List.forall_mem_cons.mpr ⟨hfirst, hall⟩⟩
        rw [readChanges, hinfo]
        show (c.readChanges n _ >>= _) = _
        rw [hrest]
        rfl
    rw [hstep, forall_lt_succ_left]
    by_cases hlt : first < x.changes.length
    · have hk : x.changes[first]? = some (x.changes.get ⟨first, hlt⟩) :=
        List.getElem?_eq_getElem hlt
      have hcount : x.copies first (first + (n + 1)) = x.copies (first + 1) (first + 1 + n) +
          if x.changes.get ⟨first, hlt⟩ &&& HAS_COPY_FROM ≠ 0 then 1 else 0 := by
        rw [Stored.copies, Stored.copies, Nat.add_sub_cancel_left, Nat.add_sub_cancel_left,
          List.drop_eq_getElem_cons hlt, List.take_succ_cons, List.countP_cons]
        simp only [decide_eq_true_eq]
        rfl
      rw [hcount]
      have hnext : ∀ info, c.perChangeInfo ⟨first, copy⟩ = .ok info →
          CChangesIterator.next ⟨first, copy⟩ info = ⟨first + 1, copy +
            if x.changes.get ⟨first, hlt⟩ &&& HAS_COPY_FROM ≠ 0 then 1 else 0⟩ := by
        intro info hinfo
        have heq := Option.some.inj (hk.symm.trans (h.changes ▸ perChangeInfo_change hinfo))
        rw [heq, CChangesIterator.next, SPerChangeInfo.hasFromPath]
        simp only [decide_eq_true_eq]
        split <;> rfl
      rw [exists_and_of_const (r := c.RangeReadable n) hnext, ih]
      by_cases hcopy : x.changes.get ⟨first, hlt⟩ &&& HAS_COPY_FROM ≠ 0
      · rw [copy_iff hpools h hk hcopy, if_pos hcopy, forall_lt_succ_left]
        exact and_and_and_comm
      · rw [change_iff hpools h hk hcopy, if_neg hcopy, Nat.add_zero, Nat.add_zero]
        exact and_assoc.symm
    · refine iff_of_false ?_ fun hall => hlt hall.1.1.1
      rintro ⟨info, ⟨hinfo, -⟩, -⟩
      exact hlt (h.changes ▸ (List.getElem?_eq_some_iff.mp (perChangeInfo_change hinfo)).1)

theorem changes_iff (hpools : c.SoundPools) (h : c.Holds x) {i : ℕ} :
    (∃ xs, c.changesOf i = .ok xs ∧ ∀ info ∈ xs, c.ChangeReadable info) ↔
      i + 1 < x.copyFromOffsets.length ∧ ∃ copy, x.copyFromOffsets[i]? = some copy ∧
        ∃ first last, x.changesOffsets[i]? = some first ∧ x.changesOffsets[i + 1]? = some last ∧
          first ≤ last ∧ (∀ k, first ≤ k → k < last → x.HasChange k) ∧
          ∀ k, copy ≤ k → k < copy + x.copies first last → x.HasCopy k := by
  rw [← getElem?_eq_some_iff_lt, ← h.copyFromOffsets, ← h.changesOffsets]
  constructor
  · rintro ⟨xs, hxs, hall⟩
    simp only [changesOf, getChangesEnd, getChangesBegin, bind_eq_ok, checked_eq_ok] at hxs
    obtain ⟨_, ⟨first, hfirst, copy, hcopy, hb⟩, _, ⟨last, hlast, copy', hcopy', he⟩, hxs⟩ := hxs
    obtain rfl := Except.ok.inj hb
    obtain rfl := Except.ok.inj he
    dsimp only at hxs
    split at hxs
    · rename_i hle
      have hrange : c.RangeReadable (last - first) ⟨first, copy⟩ := ⟨xs, hxs, hall⟩
      rw [readChanges_iff hpools h, Nat.add_sub_cancel' hle] at hrange
      exact ⟨⟨copy', hcopy'⟩, copy, hcopy, first, last, hfirst, hlast, hle, hrange⟩
    · exact nomatch hxs
  · rintro ⟨⟨copy', hcopy'⟩, copy, hcopy, first, last, hfirst, hlast, hle, hall⟩
    rw [← Nat.add_sub_cancel' hle] at hall
    obtain ⟨xs, hxs, hread⟩ := (readChanges_iff hpools h).mpr hall
    refine ⟨xs, ?_, hread⟩
    simp only [changesOf, getChangesEnd, getChangesBegin, hfirst, hlast, hcopy, hcopy', checked,
      bind, Except.bind, pure, Except.pure, if_pos hle]
    exact hxs

end Reading

/-! ### Accepted containers -/

/-- The container that `operator>>` has read and validated. -/
structure Validated (c : CRevisionInfoContainer) : Prop where
  comments : c.size ≤ c.comments.size
  timeStamps : c.size ≤ c.timeStamps.length
  rootPaths : c.size ≤ c.rootPaths.length

theorem validate_ok {c c' : CRevisionInfoContainer} (h : validate c = (.ok (), c')) :
    c' = c ∧ c.Validated := by
  obtain ⟨d, _, hget, h⟩ := Trial.bind_eq_ok h
  obtain ⟨hd, rfl⟩ := Prod.mk.inj hget
  obtain rfl := Except.ok.inj hd
  obtain ⟨hvalid, rfl⟩ := Trial.require_ok h
  simp only [not_or, Nat.not_lt] at hvalid
  exact ⟨rfl, hvalid.2.1, hvalid.2.2.1, hvalid.2.2.2.2.1⟩

/-- Where the entries can be read. -/
theorem entryReadable_iff {c : CRevisionInfoContainer} {x : Stored} (hvalid : c.Validated)
    (hpools : c.SoundPools) (h : c.Holds x) {i : ℕ} (hi : i < c.size) : c.EntryReadable i ↔
      (∀ author, x.authors[i]? = some author → author = noIndex ∨ author < x.authorPool) ∧
      (∀ root, x.rootPaths[i]? = some root → root = ⊤ ∨ x.IsPath root) ∧
      (∃ xs, c.changesOf i = .ok xs ∧ ∀ info ∈ xs, c.ChangeReadable info) ∧
      Iterates x.mergedRevisionsOffsets i x.HasMerge ∧
      Iterates x.userRevPropOffsets i x.HasUserRevProp := by
  have hmerges : (fun k => ∃ m, c.mergedRevision k = .ok m ∧ c.PathReadable m.fromPath ∧
      c.PathReadable m.toPath) = x.HasMerge := funext fun k => propext (merge_iff hpools h)
  have hprops : (fun k => (∃ name, c.userRevPropName k = .ok name) ∧
      ∃ value, c.userRevPropValues.GetAt k value) = x.HasUserRevProp :=
    funext fun k => propext (userRevProp_iff hpools h)
  rw [← author_iff hpools h hi, ← hmerges, ← hprops, ← h.mergedRevisionsOffsets,
    ← h.userRevPropOffsets, ← h.rootPaths]
  constructor
  · intro he
    refine ⟨he.author, fun root hroot => ?_, he.changes, he.merges, he.userRevProps⟩
    obtain ⟨root', hget, hread⟩ := he.rootPath
    obtain rfl := Option.some.inj (hroot.symm.trans (checked_eq_ok.mp hget))
    exact hread.imp id (pathReadable_iff hpools h).mp
  · rintro ⟨hauthor, hroot, hchanges, hmerge, hprop⟩
    obtain ⟨root, hget⟩ := getElem?_eq_some_iff_lt.mpr (hi.trans_le hvalid.rootPaths)
    obtain ⟨time, htime⟩ := getElem?_eq_some_iff_lt.mpr (hi.trans_le hvalid.timeStamps)
    exact ⟨hauthor, hpools.comments i (hi.trans_le hvalid.comments), ⟨time, checked_eq_ok.mpr htime⟩,
      ⟨root, checked_eq_ok.mpr hget, (hroot root hget).imp id (pathReadable_iff hpools h).mpr⟩,
      hchanges, hmerge, hprop⟩

/-- What happens to the sums. -/
theorem calculateSumChanges_run {c c' : CRevisionInfoContainer}
    (hc' : c' = { c with sumChanges := List.replicate c.rootPaths.length 0 }) :
    calculateSumChanges c = if c.changes = [] then (.ok (), c') else
      if 2 ≤ c.changesOffsets.length then
        match sumChangesLoop c.changes 0 (c.changesOffsets.drop 1) 0 0 c'.sumChanges with
        | .ok sums => (.ok (), { c' with sumChanges := sums })
        | .error e => (.error e, c')
      else (.error .outOfRange, c') := by
  have hget : calculateSumChanges c = (if c'.changes = [] then pure () else do
      Trial.require (2 ≤ c'.changesOffsets.length) .outOfRange
      let sums ← Trial.lift
        (sumChangesLoop c'.changes 0 (c'.changesOffsets.drop 1) 0 0 c'.sumChanges)
      Trial.modify fun c => { c with sumChanges := sums } : LoadM _ _) c' := by
    subst hc'
    rfl
  have hchanges : c'.changes = c.changes := by rw [hc']
  have hoffsets : c'.changesOffsets = c.changesOffsets := by rw [hc']
  rw [hget, hchanges, hoffsets]
  by_cases hnil : c.changes = []
  · rw [if_pos hnil, if_pos hnil]
    rfl
  rw [if_neg hnil, if_neg hnil]
  by_cases htwo : 2 ≤ c.changesOffsets.length
  · rw [if_pos htwo, Trial.bind_run_ok (Trial.require_run _ _ _ |>.trans (by rw [if_pos htwo])),
      Trial.bind_run, Trial.lift_run]
    cases sumChangesLoop c.changes 0 (c.changesOffsets.drop 1) 0 0 c'.sumChanges with
    | ok sums =>
      subst hc'
      rfl
    | error e => rfl
  · rw [if_neg htwo, Trial.bind_run_error]
    rw [Trial.require_run, if_neg htwo]

/-- Without an exception, the sums are computed or the loop leaves the arrays. -/
theorem calculateSumChanges_ok_iff {c : CRevisionInfoContainer}
    (h : ∀ e, (calculateSumChanges c).1 = .error e → e = .undefined) :
    ((calculateSumChanges c).1 = .ok () ↔ c.changes = [] ∨ ∃ k last,
      c.changesOffsets[k + 1]? = some last ∧ c.changes.length ≤ last ∧ k < c.rootPaths.length) ∧
    ∃ sums, (calculateSumChanges c).2 = { c with sumChanges := sums } := by
  rw [calculateSumChanges_run rfl] at h ⊢
  by_cases hnil : c.changes = []
  · rw [if_pos hnil]
    exact ⟨iff_of_true rfl (.inl hnil), _, rfl⟩
  rw [if_neg hnil] at h ⊢
  by_cases htwo : 2 ≤ c.changesOffsets.length
  · rw [if_pos htwo]
    have hiff := @sumChangesLoop_ok_iff c.changes hnil 0 0 (c.changesOffsets.drop 1) 0
      (List.replicate c.rootPaths.length 0)
    simp only [List.getElem?_drop, Nat.zero_add, List.length_replicate, Nat.add_comm 1] at hiff
    rw [or_iff_right hnil, ← hiff]
    dsimp only
    cases sumChangesLoop c.changes 0 (c.changesOffsets.drop 1) 0 0
        (List.replicate c.rootPaths.length 0) with
    | ok sums => exact ⟨iff_of_true rfl ⟨sums, rfl⟩, _, rfl⟩
    | error e =>
      refine ⟨iff_of_false (fun he => nomatch he) ?_, _, rfl⟩
      rintro ⟨_, he⟩
      exact nomatch he
  · rw [if_neg htwo] at h
    exact nomatch h _ rfl

/-- The entries and the sums depend on the columns that the streams hold. -/
theorem Holds.congr {c c' : CRevisionInfoContainer} {x : Stored} (h : c.Holds x) {size : ℕ}
    {sums : List UInt8} (hc : c' = { c with storedSize := size, sumChanges := sums }) :
    c'.Holds x := by
  subst hc
  exact ⟨h.authorPool, h.paths, h.authors, h.rootPaths, h.changesOffsets, h.copyFromOffsets,
    h.mergedRevisionsOffsets, h.changes, h.changedPaths, h.copyFromPaths, h.copyFromRevisions,
    h.mergedFromPaths, h.mergedToPaths, h.mergedRangeStarts, h.mergedRangeDeltas,
    h.userRevPropOffsets, h.userRevPropsPool, h.userRevPropNames, h.userRevPropValues,
    h.changedPathTypes, h.textModifies, h.propsModifies⟩

/-- The entries of a validated container, all of them. -/
theorem forall_entryReadable_iff {c : CRevisionInfoContainer} {x : Stored} (hvalid : c.Validated)
    (hpools : c.SoundPools) (h : c.Holds x) :
    ((c.changes = [] ∨ ∃ k last, c.changesOffsets[k + 1]? = some last ∧ c.changes.length ≤ last ∧
      k < c.rootPaths.length) ∧ ∀ i < c.size, c.EntryReadable i) ↔ x.Fits := by
  have hsize : c.size = x.authors.length := by rw [size, h.authors]
  rw [h.changes, h.changesOffsets, h.rootPaths, hsize]
  constructor
  · rintro ⟨hsums, hall⟩
    have hentry := fun i (hi : i < x.authors.length) =>
      (entryReadable_iff hvalid hpools h (hsize ▸ hi)).mp (hall i hi)
    refine ⟨hsums, fun author hauthor => ?_, fun i hi => (hentry i hi).2.1,
      fun i hi => (changes_iff hpools h).mp (hentry i hi).2.2.1, fun i hi => (hentry i hi).2.2.2.1,
      fun i hi => (hentry i hi).2.2.2.2⟩
    obtain ⟨i, hi⟩ := List.getElem?_of_mem hauthor
    exact (hentry i (List.getElem?_eq_some_iff.mp hi).1).1 author hi
  · intro hx
    refine ⟨hx.sums, fun i hi => (entryReadable_iff hvalid hpools h (hsize ▸ hi)).mpr
      ⟨fun author hauthor => hx.authors author (List.mem_of_getElem? hauthor), hx.rootPaths i hi,
        (changes_iff hpools h).mpr (hx.changes i hi), hx.merges i hi, hx.userRevProps i hi⟩⟩

/-- A number column with the size in front. -/
def columnOf (vs : List ℕ) : InStream :=
  .leaf .diffInteger (internalAdd vs.length ++ CDiffIntegerOutStream.write vs)

/-- The streams of a container with one revision, which changed the root path. -/
def streamOf (author : ℕ) : InStream :=
  let offsets := internalAdd 2 ++ CDiffDWORDOutStream.write [0, 1]
  let noOffsets := internalAdd 2 ++ CDiffDWORDOutStream.write [0, 0]
  let pool := InStream.compose [(1, .leaf .blob [0]), (2, .leaf .diffDWORD (internalAdd 2))]
  .compose [
    (1, pool), (2, CTokenizedStringContainer.streamOf [0] 1 [] [] [0, 0]),
    (3, CPathDictionary.streamOf [(noIndex, 0)]), (4, columnOf [author]),
    (5, .leaf .packedTime64 [1, 0, 0x81, 0]), (6, columnOf [0]), (7, .leaf .diffDWORD offsets),
    (8, .leaf .diffDWORD noOffsets), (13, .leaf .diffDWORD noOffsets),
    (9, .leaf .packedDWORD (internalAdd 1 ++ CPackedDWORDOutStream.write [4])), (10, columnOf [0]),
    (11, columnOf []), (12, columnOf []), (14, columnOf []), (15, columnOf []), (16, columnOf []),
    (17, columnOf []), (18, columnOf [0, 0]), (19, pool),
    (20, .leaf .packedDWORD (internalAdd 0)),
    (21, CTokenizedStringContainer.streamOf [0] 1 [] [] [0]),
    (22, .leaf .packedDWORD (internalAdd 1 ++ CPackedDWORDOutStream.write [0x1a]))]

/-- What these streams hold. -/
def storedOf (author : ℕ) : Stored where
  authorPool := 1
  paths := 1
  authors := [author]
  rootPaths := [(0 : ℕ)]
  changesOffsets := [0, 1]
  copyFromOffsets := [0, 0]
  mergedRevisionsOffsets := [0, 0]
  changes := [4]
  changedPaths := [(0 : ℕ)]
  copyFromPaths := []
  copyFromRevisions := []
  mergedFromPaths := []
  mergedToPaths := []
  mergedRangeStarts := []
  mergedRangeDeltas := []
  userRevPropOffsets := [0, 0]
  userRevPropsPool := 1
  userRevPropNames := []
  userRevPropValues := 0
  changedPathTypes := 1
  textModifies := 1
  propsModifies := 1

/-- The pools of a container with a single, empty string each. -/
theorem soundPools_single {c : CRevisionInfoContainer} (hauthors : c.authorPool = .init)
    (hcomments : c.comments = ⟨.init, [], [], [0, 0]⟩) (hpaths : c.paths = .init)
    (hprops : c.userRevPropsPool = .init) (hvalues : c.userRevPropValues = .init) :
    c.SoundPools := by
  have hpool : ∀ i < CStringDictionary.init.size, ∃ s, CStringDictionary.init.stringAt i = .ok s := by
    intro i hi
    obtain rfl : i = 0 := Nat.lt_one_iff.mp hi
    exact ⟨[], rfl⟩
  obtain ⟨htree, hsafe⟩ : (CPathDictionary.init).Tree ∧ (CPathDictionary.init).Safe := by
    have hload : CPathDictionary.load (CPathDictionary.streamOf [(noIndex, 0)]) .init =
        (.ok (), .init) := by decide +kernel
    have hpairs : CPathDictionary.storedPairs (CPathDictionary.streamOf [(noIndex, 0)]) =
        [(noIndex, 0)] := by decide +kernel
    refine (CPathDictionary.load_tree_iff hload).mpr ⟨0, [], hpairs, fun i p hp => ?_⟩
    exact nomatch hp
  refine ⟨?_, ?_, hpaths ▸ htree, hpaths ▸ hsafe, ?_, ?_⟩
  · rw [hauthors]
    exact hpool
  · rw [hcomments]
    intro i hi
    obtain rfl : i = 0 := Nat.lt_one_iff.mp hi
    exact ⟨[], 1, rfl⟩
  · rw [hprops]
    exact hpool
  · rw [hvalues]
    exact fun i hi => absurd hi (Nat.not_lt_zero i)

end CRevisionInfoContainer

end TortoiseSvn.LogCache
