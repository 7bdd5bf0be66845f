import TortoiseSvn.LogCache.SkipRanges
import TortoiseSvn.Streams.InStream

/-!
# The skip-range store and its streams

`CSkipRevisionInfo` holds the skip ranges of all paths. Before it is written, ranges whose
revisions are cached are reduced. Starts go into one differential `DWORD` stream for all paths,
sizes into a differential `int` stream.

Main result: `roundTrip_iff`. A store is read back entry by entry iff no difference `-1` stands
alone in the stream of starts, that is, unless a path begins one revision before the last range of
the path written before it.
-/

namespace TortoiseSvn.LogCache

open TortoiseSvn.Lib

/-- The skip ranges of one path.
Source: `SkipRevisionInfo.h` `CSkipRevisionInfo::SPerPathRanges` -/
structure SPerPathRanges where
  ranges : TRanges
  pathID : ℕ
  deriving DecidableEq

/-- The skip ranges of all paths. The hash index over the path IDs is the position of the entry
with that ID. Source: `SkipRevisionInfo.h` `CSkipRevisionInfo` -/
structure CSkipRevisionInfo where
  data : List SPerPathRanges := []
  deriving DecidableEq

namespace CSkipRevisionInfo

/-! ### Removing known revisions -/

section Compress

variable (dataAvailable : ℕ → Bool)

/-- Raise the lower bound of a range while its revisions are known.
Source: `SkipRevisionInfo.cpp` `CSkipRevisionInfo::TryReduceRange` -/
def raiseLower (start : ℕ) : ℕ → ℕ × ℕ
  | 0 => (start, 0)
  | size + 1 =>
    if dataAvailable start then raiseLower (start + 1) size else (start, size + 1)

/-- Lower the upper bound of a range while its revisions are known.
Source: `SkipRevisionInfo.cpp` `CSkipRevisionInfo::TryReduceRange` -/
def lowerUpper (start : ℕ) : ℕ → ℕ
  | 0 => 0
  | size + 1 => if dataAvailable (start + size) then lowerUpper start size else size + 1

/-- Source: `SkipRevisionInfo.cpp` `CSkipRevisionInfo::TryReduceRange` -/
def tryReduceRange (start size : ℕ) : ℕ × ℕ :=
  let (start, size) := raiseLower dataAvailable start size
  (start, lowerUpper dataAvailable start size)

/-- `ranges.emplace(start, length)` among the entries behind `iter`: the entries up to the one with
key `start`, and those behind it. Source: `SkipRevisionInfo.cpp`
`CSkipRevisionInfo::CPacker::RemoveKnownRevisions` -/
def emplaceAhead (start length : ℕ) : List (ℕ × ℕ) → List (ℕ × ℕ) × List (ℕ × ℕ)
  | [] => ([(start, length)], [])
  | x :: xs =>
    if x.1 < start then (x :: (emplaceAhead start length xs).1, (emplaceAhead start length xs).2)
    else if x.1 = start then ([x], xs)
    else ([(start, length)], x :: xs)

theorem emplaceAhead_sublist (start length : ℕ) (l : List (ℕ × ℕ)) :
    (emplaceAhead start length l).2.Sublist l := by
  fun_induction emplaceAhead start length l with
  | case1 => exact List.Sublist.refl _
  | case2 x xs hx ih => exact ih.cons x
  | case3 x xs hx hs => exact List.sublist_cons_self _ _
  | case4 x xs hx hs => exact List.Sublist.refl _

theorem mem_emplaceAhead {start length : ℕ} {l : List (ℕ × ℕ)} :
    ∀ x ∈ (emplaceAhead start length l).1, (x ∈ l ∨ x = (start, length)) ∧ x.1 ≤ start := by
  fun_induction emplaceAhead start length l with
  | case1 => simp
  | case2 x xs hx ih =>
    intro y hy
    rcases List.mem_cons.mp hy with rfl | hy
    · exact ⟨Or.inl List.mem_cons_self, hx.le⟩
    · obtain ⟨h, hle⟩ := ih y hy
      exact ⟨h.imp_left (List.mem_cons_of_mem _), hle⟩
  | case3 x xs hx hs => simp_all
  | case4 x xs hx hs => simp

/-- Emplacing among sorted entries leaves them sorted, and what is behind has larger keys. -/
theorem emplaceAhead_sorted {l : List (ℕ × ℕ)} (hl : KeySorted l) (start length : ℕ) :
    KeySorted (emplaceAhead start length l).1 ∧ ∀ y ∈ (emplaceAhead start length l).2, start < y.1 := by
  fun_induction emplaceAhead start length l with
  | case1 => simp
  | case2 x xs hx ih =>
    obtain ⟨hxs, hl'⟩ := List.pairwise_cons.mp hl
    obtain ⟨h1, h2⟩ := ih hl'
    refine ⟨List.pairwise_cons.mpr ⟨fun y hy => ?_, h1⟩, h2⟩
    rcases (mem_emplaceAhead y hy).1 with h | rfl
    · exact hxs y h
    · exact hx
  | case3 x xs hx hs =>
    exact ⟨List.pairwise_singleton _ _, fun y hy => hs ▸ (List.pairwise_cons.mp hl).1 y hy⟩
  | case4 x xs hx hs =>
    refine ⟨List.pairwise_singleton _ _, fun y hy => ?_⟩
    have hlt : start < x.1 := by omega
    rcases List.mem_cons.mp hy with rfl | hy
    · exact hlt
    · exact hlt.trans ((List.pairwise_cons.mp hl).1 y hy)

/-- The loop over the ranges of one path, on the entries from `iter` on. A range that lost
revisions at its beginning is inserted under its new start, `iter` moves there, and the old entry
stays. Source: `SkipRevisionInfo.cpp` `CSkipRevisionInfo::CPacker::RemoveKnownRevisions` -/
def removeKnownRanges : List (ℕ × ℕ) → List (ℕ × ℕ)
  | [] => []
  | e :: rest =>
    let reduced := tryReduceRange dataAvailable e.1 e.2
    if reduced.2 = 0 then removeKnownRanges rest
    else if reduced.1 = e.1 then (e.1, reduced.2) :: removeKnownRanges rest
    else e :: ((emplaceAhead reduced.1 reduced.2 rest).1 ++
      removeKnownRanges (emplaceAhead reduced.1 reduced.2 rest).2)
termination_by l => l.length
decreasing_by
  · simp
  · simp
  · exact Nat.lt_succ_of_le (emplaceAhead_sublist _ _ _).length_le

theorem le_raiseLower (start size : ℕ) : start ≤ (raiseLower dataAvailable start size).1 := by
  induction size generalizing start with
  | zero => exact le_rfl
  | succ size ih =>
    rw [raiseLower]
    split
    · exact (Nat.le_succ _).trans (ih (start + 1))
    · exact le_rfl

/-- No key of the result comes before all the keys it was made from. -/
theorem exists_le_of_mem_removeKnownRanges (l : List (ℕ × ℕ)) :
    ∀ x ∈ removeKnownRanges dataAvailable l, ∃ y ∈ l, y.1 ≤ x.1 := by
  fun_induction removeKnownRanges dataAvailable l with
  | case1 => simp
  | case2 e rest reduced hlen ih =>
    intro x hx
    obtain ⟨y, hy, hle⟩ := ih x hx
    exact ⟨y, List.mem_cons_of_mem _ hy, hle⟩
  | case3 e rest reduced hlen hkey ih =>
    intro x hx
    rcases List.mem_cons.mp hx with rfl | hx
    · exact ⟨e, List.mem_cons_self, le_rfl⟩
    · obtain ⟨y, hy, hle⟩ := ih x hx
      exact ⟨y, List.mem_cons_of_mem _ hy, hle⟩
  | case4 e rest reduced hlen hkey ih =>
    intro x hx
    rcases List.mem_cons.mp hx with rfl | hx
    · exact ⟨x, List.mem_cons_self, le_rfl⟩
    rcases List.mem_append.mp hx with hx | hx
    · rcases (mem_emplaceAhead x hx).1 with hx | rfl
      · exact ⟨x, List.mem_cons_of_mem _ hx, le_rfl⟩
      · exact ⟨e, List.mem_cons_self, le_raiseLower dataAvailable e.1 e.2⟩
    · obtain ⟨y, hy, hle⟩ := ih x hx
      exact ⟨y, List.mem_cons_of_mem _ ((emplaceAhead_sublist _ _ _).subset hy), hle⟩

theorem removeKnownRanges_sorted {l : List (ℕ × ℕ)} (hl : KeySorted l) :
    KeySorted (removeKnownRanges dataAvailable l) := by
  fun_induction removeKnownRanges dataAvailable l with
  | case1 => exact List.Pairwise.nil
  | case2 e rest reduced hlen ih => exact ih (List.pairwise_cons.mp hl).2
  | case3 e rest reduced hlen hkey ih =>
    obtain ⟨hlt, hrest⟩ := List.pairwise_cons.mp hl
    refine List.pairwise_cons.mpr ⟨fun x hx => ?_, ih hrest⟩
    obtain ⟨y, hy, hle⟩ := exists_le_of_mem_removeKnownRanges dataAvailable rest x hx
    exact (hlt y hy).trans_le hle
  | case4 e rest reduced hlen hkey ih =>
    obtain ⟨hlt, hrest⟩ := List.pairwise_cons.mp hl
    have hstart : e.1 < reduced.1 :=
      lt_of_le_of_ne (le_raiseLower dataAvailable e.1 e.2) (Ne.symm hkey)
    obtain ⟨hpassed, hbehind⟩ := emplaceAhead_sorted hrest reduced.1 reduced.2
    have hafter : ∀ x ∈ removeKnownRanges dataAvailable (emplaceAhead reduced.1 reduced.2 rest).2,
        reduced.1 < x.1 := fun x hx => by
      obtain ⟨y, hy, hle⟩ := exists_le_of_mem_removeKnownRanges dataAvailable _ x hx
      exact (hbehind y hy).trans_le hle
    refine List.pairwise_cons.mpr ⟨fun x hx => ?_, List.pairwise_append.mpr
      ⟨hpassed, ih (hrest.sublist (emplaceAhead_sublist _ _ _)), fun a ha b hb =>
        (mem_emplaceAhead a ha).2.trans_lt (hafter b hb)⟩⟩
    rcases List.mem_append.mp hx with hx | hx
    · rcases (mem_emplaceAhead x hx).1 with hx | rfl
      · exact hlt x hx
      · exact hstart
    · exact hstart.trans (hafter x hx)

end Compress

/-- The ranges of one path without the known revisions at their ends.
Source: `SkipRevisionInfo.cpp` `CSkipRevisionInfo::CPacker::RemoveKnownRevisions` -/
def reduceRanges (dataAvailable : ℕ → Bool) (m : TRanges) : TRanges :=
  ⟨removeKnownRanges dataAvailable m.entries, removeKnownRanges_sorted dataAvailable m.sorted⟩

/-- The loop over the paths, from the last one down; a path without ranges is replaced by the last
path. Source: `SkipRevisionInfo.cpp` `CSkipRevisionInfo::CPacker::RemoveKnownRevisions` -/
def removeKnownRevisions (dataAvailable : ℕ → Bool) :
    ℕ → List SPerPathRanges → List SPerPathRanges
  | 0, data => data
  | i + 1, data =>
    match data[i]? with
    | none => removeKnownRevisions dataAvailable i data
    | some p =>
      let ranges := reduceRanges dataAvailable p.ranges
      let data := data.set i { p with ranges := ranges }
      if ranges.entries = [] then
        removeKnownRevisions dataAvailable i ((data.set i (data.getLastD p)).dropLast)
      else removeKnownRevisions dataAvailable i data

/-- Source: `SkipRevisionInfo.cpp` `CSkipRevisionInfo::Compress` -/
def compress (dataAvailable : ℕ → Bool) (c : CSkipRevisionInfo) : CSkipRevisionInfo :=
  ⟨removeKnownRevisions dataAvailable c.data.length c.data⟩

/-- Every path has ranges, and no revision of theirs is known. -/
def Unknown (dataAvailable : ℕ → Bool) (c : CSkipRevisionInfo) : Prop :=
  ∀ p ∈ c.data, p.ranges.entries ≠ [] ∧ ∀ e ∈ p.ranges.entries, 0 < e.2 ∧
    ∀ r, e.1 ≤ r → r < e.1 + e.2 → dataAvailable r = false

theorem tryReduceRange_unknown {dataAvailable : ℕ → Bool} {e : ℕ × ℕ} (hpos : 0 < e.2)
    (h : ∀ r, e.1 ≤ r → r < e.1 + e.2 → dataAvailable r = false) :
    tryReduceRange dataAvailable e.1 e.2 = e := by
  obtain ⟨start, size⟩ := e
  obtain ⟨n, rfl⟩ : ∃ n, size = n + 1 := ⟨size - 1, by omega⟩
  have h1 : dataAvailable start = false := h start le_rfl (by dsimp only; omega)
  have h2 : dataAvailable (start + n) = false := h _ (by dsimp only; omega) (by dsimp only; omega)
  simp [tryReduceRange, raiseLower, h1, lowerUpper, h2]

/-- `Compress` leaves a store alone when none of its revisions has cached data. -/
theorem compress_unknown {dataAvailable : ℕ → Bool} {c : CSkipRevisionInfo}
    (h : c.Unknown dataAvailable) : c.compress dataAvailable = c := by
  have hranges : ∀ l : List (ℕ × ℕ), (∀ e ∈ l, 0 < e.2 ∧
      ∀ r, e.1 ≤ r → r < e.1 + e.2 → dataAvailable r = false) →
      removeKnownRanges dataAvailable l = l := by
    intro l hl
    induction l with
    | nil => rw [removeKnownRanges]
    | cons e rest ih =>
      obtain ⟨hpos, hdata⟩ := hl e List.mem_cons_self
      rw [removeKnownRanges, tryReduceRange_unknown hpos hdata]
      simp only [Nat.ne_of_gt hpos, if_false, if_true]
      rw [ih fun x hx => hl x (List.mem_cons_of_mem _ hx)]
  have hreduce : ∀ p ∈ c.data, reduceRanges dataAvailable p.ranges = p.ranges := fun p hp =>
    SortedMap.ext (hranges _ (h p hp).2)
  have hloop : ∀ i, removeKnownRevisions dataAvailable i c.data = c.data := by
    intro i
    induction i with
    | zero => rfl
    | succ i ih =>
      rw [removeKnownRevisions]
      split
      · exact ih
      · rename_i p hp
        have hmem := List.mem_of_getElem? hp
        have hset : c.data.set i { p with ranges := p.ranges } = c.data := by
          obtain ⟨hi, rfl⟩ := List.getElem?_eq_some_iff.mp hp
          exact List.set_getElem_self hi
        simp only [hreduce p hmem, hset, (h p hmem).1, if_false]
        exact ih
  rw [compress, hloop]

/-! ### Streams -/

/-- The start revisions of all paths, in the order they are written. -/
def starts (c : CSkipRevisionInfo) : List ℕ :=
  c.data.flatMap fun p => p.ranges.entries.map Prod.fst

/-- The sizes of all ranges, in the order they are written. -/
def sizes (c : CSkipRevisionInfo) : List ℕ :=
  c.data.flatMap fun p => p.ranges.entries.map Prod.snd

/-- The four sub-streams of a store.
Source: `SkipRevisionInfo.cpp` `operator<<` -/
def write (c : CSkipRevisionInfo) : InStream :=
  .compose [
    (1, .leaf .packedDWORD (CPackedDWORDOutStream.write
      (c.data.length % 2 ^ 32 :: c.data.map SPerPathRanges.pathID))),
    (2, .leaf .packedDWORD (CPackedDWORDOutStream.write
      (c.data.map fun p => p.ranges.entries.length % 2 ^ 32))),
    (3, .leaf .diffDWORD (CDiffDWORDOutStream.write c.starts)),
    (4, .leaf .diffInteger (CDiffIntegerOutStream.write c.sizes))]

/-- "minimize the data to write", then write it.
Source: `SkipRevisionInfo.cpp` `operator<<` -/
def store (dataAvailable : ℕ → Bool) (c : CSkipRevisionInfo) : InStream :=
  (c.compress dataAvailable).write

/-- The open sub-streams of a load. Source: `SkipRevisionInfo.cpp` `operator>>` -/
structure Streams where
  pathIDs : CPackedDWORDInStream
  entryCounts : CPackedDWORDInStream
  revisions : CDiffInStream
  sizes : CDiffInStream

/-- "open sub-streams". Source: `SkipRevisionInfo.cpp` `operator>>` -/
def openStreams (s : InStream) : Except Fault Streams := do
  let pathIDs ← s.getSubStreamAs 1 .packedDWORD
  let entryCounts ← s.getSubStreamAs 2 .packedDWORD
  let revisions ← s.getSubStreamAs 3 .diffDWORD
  let sizes ← s.getSubStreamAs 4 .diffInteger
  return ⟨⟨pathIDs.content, 0, 0⟩, ⟨entryCounts.content, 0, 0⟩, ⟨⟨revisions.content, 0, 0⟩, 0⟩,
    ⟨⟨sizes.content, 0, 0⟩, 0⟩⟩

/-- The pairs inserted for one path. Source: `SkipRevisionInfo.cpp` `operator>>` -/
def readEntries : ℕ → Streams → Except Fault (List (ℕ × ℕ) × Streams)
  | 0, st => .ok ([], st)
  | n + 1, st => do
    let (start, revisions) ← CDiffDWORDInStream.getValue st.revisions
    let (size, sizes) ← CDiffIntegerInStream.getValue st.sizes
    let (es, st) ← readEntries n { st with revisions := revisions, sizes := sizes }
    return ((start, size) :: es, st)

/-- The path ID and the pairs of one path. Source: `SkipRevisionInfo.cpp` `operator>>` -/
def readPath (st : Streams) : Except Fault ((ℕ × List (ℕ × ℕ)) × Streams) := do
  let (pathID, pathIDs) ← st.pathIDs.getValue
  let (entryCount, entryCounts) ← st.entryCounts.getValue
  let (es, st) ← readEntries entryCount { st with pathIDs := pathIDs, entryCounts := entryCounts }
  return ((pathID, es), st)

/-- A path as it is built from its pairs: the first pair of a key stays.
Source: `SkipRevisionInfo.cpp` `operator>>` -/
def ofPairs (p : ℕ × List (ℕ × ℕ)) : SPerPathRanges := ⟨SortedMap.ofList p.2, p.1⟩

/-- Source: `SkipRevisionInfo.cpp` `CSkipRevisionInfo::Clear` -/
def clear (_ : CSkipRevisionInfo) : CSkipRevisionInfo := {}

/-- The loop over the paths. Source: `SkipRevisionInfo.cpp` `operator>>` -/
def loadPaths : ℕ → Streams → LoadM CSkipRevisionInfo Unit
  | 0, _ => pure ()
  | n + 1, st => do
    let (p, st) ← Trial.lift (readPath st)
    Trial.modify fun c => ⟨c.data ++ [ofPairs p]⟩
    loadPaths n st

/-- Source: `SkipRevisionInfo.cpp` `operator>>` -/
def load (s : InStream) : LoadM CSkipRevisionInfo Unit := do
  let st ← Trial.lift (openStreams s)
  let (count, pathIDs) ← Trial.lift st.pathIDs.getValue
  Trial.modify clear
  loadPaths count { st with pathIDs := pathIDs }

/-! ### The round trip -/

/-- The path IDs and pairs that `loadPaths` builds its paths from. -/
def readPaths : ℕ → Streams → Except Fault (List (ℕ × List (ℕ × ℕ)))
  | 0, _ => .ok []
  | n + 1, st => do
    let (p, st) ← readPath st
    let ps ← readPaths n st
    return p :: ps

/-- The path IDs and pairs that `load` builds its paths from. -/
def readAll (s : InStream) : Except Fault (List (ℕ × List (ℕ × ℕ))) := do
  let st ← openStreams s
  let (count, pathIDs) ← st.pathIDs.getValue
  readPaths count { st with pathIDs := pathIDs }

/-- The path IDs and pairs of a store. -/
def pairs (c : CSkipRevisionInfo) : List (ℕ × List (ℕ × ℕ)) :=
  c.data.map fun p => (p.pathID, p.ranges.entries)

theorem loadPaths_of_readPaths {n : ℕ} {st : Streams} {ps : List (ℕ × List (ℕ × ℕ))}
    (h : readPaths n st = .ok ps) (c : CSkipRevisionInfo) :
    loadPaths n st c = (.ok (), ⟨c.data ++ ps.map ofPairs⟩) := by
  induction n generalizing st ps c with
  | zero =>
    obtain rfl := Except.ok.inj h
    simp [loadPaths]
  | succ n ih =>
    rw [readPaths] at h
    rcases hp : readPath st with e | ⟨p, st'⟩
    · simp [hp, bind, Except.bind] at h
    · rcases hps : readPaths n st' with e | qs
      · simp [hp, hps, bind, Except.bind] at h
      · simp only [hp, hps, bind, Except.bind, pure, Except.pure, Except.ok.injEq] at h
        subst h
        simp only [loadPaths, Trial.bind_run, Trial.lift_run, hp, Trial.modify_run, ih hps]
        simp

/-- Reading the pairs of a store gives the store. -/
theorem load_of_readAll {s : InStream} {c : CSkipRevisionInfo} (h : readAll s = .ok c.pairs)
    (old : CSkipRevisionInfo) : load s old = (.ok (), c) := by
  rw [readAll] at h
  rcases hst : openStreams s with e | st
  · simp [hst, bind, Except.bind] at h
  · rcases hcount : st.pathIDs.getValue with e | ⟨count, pathIDs⟩
    · simp [hst, hcount, bind, Except.bind] at h
    · simp only [hst, hcount, bind, Except.bind] at h
      simp only [load, Trial.bind_run, Trial.lift_run, hst, hcount, Trial.modify_run,
        loadPaths_of_readPaths h]
      have hof : (c.pairs.map ofPairs) = c.data := by
        rw [pairs, List.map_map]
        conv_rhs => rw [← List.map_id c.data]
        refine List.map_congr_left fun p _ => ?_
        simp [ofPairs, SortedMap.ofList_entries]
      rw [hof]
      simp [clear]

/-- What the streams of some remaining paths deliver. -/
structure Holds (st : Streams) (data : List SPerPathRanges) : Prop where
  pathIDs : Delivers CPackedDWORDInStream.getValue st.pathIDs (data.map SPerPathRanges.pathID)
  entryCounts : Delivers CPackedDWORDInStream.getValue st.entryCounts
    (data.map fun p => p.ranges.entries.length)
  revisions : Delivers CDiffDWORDInStream.getValue st.revisions
    (data.flatMap fun p => p.ranges.entries.map Prod.fst)
  sizes : Delivers CDiffIntegerInStream.getValue st.sizes
    (data.flatMap fun p => p.ranges.entries.map Prod.snd)

theorem readEntries_delivers {es : List (ℕ × ℕ)} (st : Streams) {rs ss : List ℕ}
    (hr : Delivers CDiffDWORDInStream.getValue st.revisions (es.map Prod.fst ++ rs))
    (hs : Delivers CDiffIntegerInStream.getValue st.sizes (es.map Prod.snd ++ ss)) :
    ∃ revisions sizes, readEntries es.length st =
        .ok (es, { st with revisions := revisions, sizes := sizes }) ∧
      Delivers CDiffDWORDInStream.getValue revisions rs ∧
      Delivers CDiffIntegerInStream.getValue sizes ss := by
  induction es generalizing st with
  | nil => exact ⟨st.revisions, st.sizes, rfl, hr, hs⟩
  | cons e es ih =>
    obtain ⟨r', hget, hr'⟩ := hr
    obtain ⟨s', hget', hs'⟩ := hs
    obtain ⟨revisions, sizes, hread, h1, h2⟩ :=
      ih { st with revisions := r', sizes := s' } hr' hs'
    refine ⟨revisions, sizes, ?_, h1, h2⟩
    rw [List.length_cons, readEntries]
    simp [hget, hget', hread, bind, Except.bind, pure, Except.pure]

theorem readPaths_holds {data : List SPerPathRanges} {st : Streams} (h : Holds st data) :
    readPaths data.length st = .ok (data.map fun p => (p.pathID, p.ranges.entries)) := by
  induction data generalizing st with
  | nil => rfl
  | cons p data ih =>
    obtain ⟨pathIDs, hid, hids⟩ := h.pathIDs
    obtain ⟨entryCounts, hcount, hcounts⟩ := h.entryCounts
    obtain ⟨revisions, sizes, hread, hrs, hss⟩ := readEntries_delivers
      { st with pathIDs := pathIDs, entryCounts := entryCounts } h.revisions h.sizes
    have hpath : readPath st = .ok ((p.pathID, p.ranges.entries),
        ⟨pathIDs, entryCounts, revisions, sizes⟩) := by
      simp [readPath, hid, hcount, hread, bind, Except.bind, pure, Except.pure]
    have hrest : readPaths data.length ⟨pathIDs, entryCounts, revisions, sizes⟩ =
        .ok (data.map fun p => (p.pathID, p.ranges.entries)) := ih ⟨hids, hcounts, hrs, hss⟩
    rw [List.length_cons, readPaths]
    simp [hpath, hrest, bind, Except.bind, pure, Except.pure]

/-- The starts of the pairs that were read are the values of the stream of starts. -/
theorem readEntries_starts {n : ℕ} {st st' : Streams} {es : List (ℕ × ℕ)}
    (h : readEntries n st = .ok (es, st')) : es.length = n ∧
      readValues CDiffDWORDInStream.getValue n st.revisions = .ok (es.map Prod.fst, st'.revisions) := by
  induction n generalizing st es with
  | zero =>
    obtain ⟨rfl, rfl⟩ := Prod.mk.inj (Except.ok.inj h)
    exact ⟨rfl, rfl⟩
  | succ n ih =>
    rw [readEntries] at h
    rcases hr : CDiffDWORDInStream.getValue st.revisions with e | ⟨start, revisions⟩
    · simp [hr, bind, Except.bind] at h
    · rcases hs : CDiffIntegerInStream.getValue st.sizes with e | ⟨size, sizes⟩
      · simp [hr, hs, bind, Except.bind] at h
      · rcases hes : readEntries n { st with revisions := revisions, sizes := sizes } with
          e | ⟨es', st''⟩
        · simp [hr, hs, hes, bind, Except.bind] at h
        · simp only [hr, hs, hes, bind, Except.bind, pure, Except.pure, Except.ok.injEq,
            Prod.mk.injEq] at h
          obtain ⟨rfl, rfl⟩ := h
          obtain ⟨hlen, hread⟩ := ih hes
          exact ⟨by simp [hlen], by simp [readValues, hr, hread, bind, Except.bind, pure,
            Except.pure]⟩

theorem readPaths_starts {n : ℕ} {st : Streams} {ps : List (ℕ × List (ℕ × ℕ))}
    (h : readPaths n st = .ok ps) :
    ∃ s', readValues CDiffDWORDInStream.getValue (ps.flatMap fun p => p.2.map Prod.fst).length
      st.revisions = .ok (ps.flatMap fun p => p.2.map Prod.fst, s') := by
  induction n generalizing st ps with
  | zero =>
    obtain rfl := Except.ok.inj h
    exact ⟨_, rfl⟩
  | succ n ih =>
    rw [readPaths] at h
    rcases hp : readPath st with e | ⟨p, st'⟩
    · simp [hp, bind, Except.bind] at h
    · rcases hps : readPaths n st' with e | qs
      · simp [hp, hps, bind, Except.bind] at h
      · simp only [hp, hps, bind, Except.bind, pure, Except.pure, Except.ok.injEq] at h
        subst h
        obtain ⟨s', hread⟩ := ih hps
        rw [readPath] at hp
        rcases hid : st.pathIDs.getValue with e | ⟨pathID, pathIDs⟩
        · simp [hid, bind, Except.bind] at hp
        · rcases hcount : st.entryCounts.getValue with e | ⟨entryCount, entryCounts⟩
          · simp [hid, hcount, bind, Except.bind] at hp
          · rcases hes : readEntries entryCount
              { st with pathIDs := pathIDs, entryCounts := entryCounts } with e | ⟨es, st''⟩
            · simp [hid, hcount, hes, bind, Except.bind] at hp
            · simp only [hid, hcount, hes, bind, Except.bind, pure, Except.pure, Except.ok.injEq,
                Prod.mk.injEq] at hp
              obtain ⟨rfl, rfl⟩ := hp
              obtain ⟨hlen, hstarts⟩ := readEntries_starts hes
              refine ⟨s', ?_⟩
              rw [List.flatMap_cons, List.length_append, List.length_map, hlen]
              exact readValues_add hstarts hread

/-- What a store must look like for its numbers to fit the streams. -/
structure Storable (c : CSkipRevisionInfo) : Prop where
  /-- Path IDs are valid. -/
  pathID_lt : ∀ p ∈ c.data, p.pathID < noIndex
  /-- Revisions are those of a repository. -/
  range : ∀ p ∈ c.data, ∀ e ∈ p.ranges.entries, 1 ≤ e.1 ∧ e.1 + e.2 < 2 ^ 31
  /-- The `DWORD` counters do not wrap. -/
  count_lt : c.data.length + c.starts.length < noIndex

theorem sizes_length (c : CSkipRevisionInfo) : c.sizes.length = c.starts.length := by
  simp [sizes, starts, List.length_flatMap]

theorem length_entries_le {c : CSkipRevisionInfo} {p : SPerPathRanges} (hp : p ∈ c.data) :
    p.ranges.entries.length ≤ c.starts.length := by
  have hsub : (p.ranges.entries.map Prod.fst).Sublist c.starts :=
    List.sublist_flatten_of_mem (List.mem_map_of_mem hp)
  simpa using hsub.length_le

theorem Storable.starts_lt {c : CSkipRevisionInfo} (hc : c.Storable) : ∀ v ∈ c.starts, v < 2 ^ 32 := by
  intro v hv
  obtain ⟨p, hp, hv⟩ := List.mem_flatMap.mp hv
  obtain ⟨e, he, rfl⟩ := List.mem_map.mp hv
  have := hc.range p hp e he
  omega

theorem write_openStreams (c : CSkipRevisionInfo) :
    openStreams c.write = .ok
      ⟨⟨CPackedDWORDOutStream.write (c.data.length % 2 ^ 32 :: c.data.map SPerPathRanges.pathID), 0, 0⟩,
        ⟨CPackedDWORDOutStream.write (c.data.map fun p => p.ranges.entries.length % 2 ^ 32), 0, 0⟩,
        ⟨⟨CDiffDWORDOutStream.write c.starts, 0, 0⟩, 0⟩,
        ⟨⟨CDiffIntegerOutStream.write c.sizes, 0, 0⟩, 0⟩⟩ := rfl

/-- **A store is read back entry by entry iff no difference `-1` stands alone in the stream of
starts; then loading it into any store gives the same paths with the same ranges.** -/
theorem roundTrip_iff (dataAvailable : ℕ → Bool) (c : CSkipRevisionInfo) (hc : c.Storable)
    (hu : c.Unknown dataAvailable) :
    (readAll (c.store dataAvailable) = .ok c.pairs ↔ ¬ HasIsolated (diffs 0 c.starts)) ∧
      (¬ HasIsolated (diffs 0 c.starts) →
        ∀ old, load (c.store dataAvailable) old = (.ok (), c)) := by
  have hcount := hc.count_lt
  unfold noIndex at hcount
  have hids : ∀ v ∈ c.data.length % 2 ^ 32 :: c.data.map SPerPathRanges.pathID, v < unstorable := by
    intro v hv
    unfold unstorable
    rcases List.mem_cons.mp hv with rfl | hv
    · omega
    · obtain ⟨p, hp, rfl⟩ := List.mem_map.mp hv
      exact hc.pathID_lt p hp
  have hcounts : ∀ v ∈ c.data.map fun p => p.ranges.entries.length % 2 ^ 32, v < unstorable := by
    intro v hv
    obtain ⟨p, hp, rfl⟩ := List.mem_map.mp hv
    have := length_entries_le hp
    unfold unstorable
    omega
  have hmod : (c.data.map fun p => p.ranges.entries.length % 2 ^ 32) =
      c.data.map fun p => p.ranges.entries.length := by
    refine List.map_congr_left fun p hp => Nat.mod_eq_of_lt ?_
    have := length_entries_le hp
    omega
  have hlt : ∀ v : ℕ, v < unstorable → v < 2 ^ 32 := fun v hv => by
    unfold unstorable at hv
    omega
  -- the count, the path IDs and the entry counts are always read back
  have hdelIDs := delivers_of_not_mem (by simp; omega) (fun v hv => hlt v (hids v hv))
    fun hmem => lt_irrefl _ (hids _ hmem)
  have hdelCounts := delivers_of_not_mem (by simp; omega) (fun v hv => hlt v (hcounts v hv))
    fun hmem => lt_irrefl _ (hcounts _ hmem)
  have hdelSizes : Delivers CDiffIntegerInStream.getValue
      ⟨⟨CDiffIntegerOutStream.write c.sizes, 0, 0⟩, 0⟩ c.sizes := by
    refine delivers_diffInteger (by rw [sizes_length]; omega) fun v hv => ?_
    obtain ⟨p, hp, hv⟩ := List.mem_flatMap.mp hv
    obtain ⟨e, he, rfl⟩ := List.mem_map.mp hv
    have := hc.range p hp e he
    omega
  obtain ⟨pathIDs, hget, hdelIDs'⟩ := hdelIDs
  rw [Nat.mod_eq_of_lt (by omega)] at hget
  have hstore : c.store dataAvailable = c.write := by rw [store, compress_unknown hu]
  have hlen : c.starts.length < 2 ^ 32 := by omega
  have hall : ∀ r, readAll (c.store dataAvailable) = r ↔ readPaths c.data.length
      ⟨pathIDs, ⟨CPackedDWORDOutStream.write (c.data.map fun p =>
        p.ranges.entries.length % 2 ^ 32), 0, 0⟩,
      ⟨⟨CDiffDWORDOutStream.write c.starts, 0, 0⟩, 0⟩,
      ⟨⟨CDiffIntegerOutStream.write c.sizes, 0, 0⟩, 0⟩⟩ = r := by
    intro r
    rw [readAll, hstore, write_openStreams]
    rw [Nat.mod_eq_of_lt (show c.data.length < 2 ^ 32 by omega)]
    simp [hget, bind, Except.bind]
  have hread : ¬ HasIsolated (diffs 0 c.starts) → readAll (c.store dataAvailable) = .ok c.pairs := by
    intro hiso
    rw [hall]
    refine readPaths_holds ⟨hdelIDs', hmod ▸ hdelCounts, ?_, hdelSizes⟩
    exact delivers_diffDWORD hlen hc.starts_lt hiso
  refine ⟨⟨fun h => ?_, hread⟩, fun hiso => load_of_readAll (hread hiso)⟩
  obtain ⟨s', hstarts⟩ := readPaths_starts ((hall _).mp h)
  have hpairs : (c.pairs.flatMap fun p => p.2.map Prod.fst) = c.starts := by
    simp [pairs, starts, List.flatMap_map]
  rw [hpairs] at hstarts
  exact (readValues_diffDWORD_iff hlen hc.starts_lt).mp ⟨s', hstarts⟩

/-- Nothing is known to an empty cache. -/
theorem unknown_of_empty_cache {c : CSkipRevisionInfo}
    (h : ∀ p ∈ c.data, p.ranges.entries ≠ [] ∧ ∀ e ∈ p.ranges.entries, 0 < e.2) :
    c.Unknown fun _ => false := fun p hp =>
  ⟨(h p hp).1, fun e he => ⟨(h p hp).2 e he, fun _ _ _ => rfl⟩⟩

/-- Two paths: ranges from 10 on, and from `start` and from 20 on. -/
def twoPaths (start : ℕ) : CSkipRevisionInfo :=
  ⟨[⟨SortedMap.ofList [(10, 5)], 1⟩, ⟨SortedMap.ofList [(start, 1), (20, 3)], 2⟩]⟩

/-- The second path begins two revisions before the first one. -/
theorem roundTrip_iff_twoPaths :
    load ((twoPaths 8).store fun _ => false) {} = (.ok (), twoPaths 8) := by
  refine (roundTrip_iff (fun _ => false) (twoPaths 8) ⟨?_, ?_, ?_⟩ ?_).2 ?_ {}
  · decide
  · decide
  · decide
  · exact unknown_of_empty_cache (by decide)
  · intro hiso
    exact absurd hiso.mem (by decide)

/-- The second path begins one revision before the first one: the stream of starts ends early. -/
theorem load_store_fails :
    ¬ ∀ (dataAvailable : ℕ → Bool) (c : CSkipRevisionInfo), c.Storable →
      (c.data.map SPerPathRanges.pathID).Nodup →
      (∀ p ∈ c.data, p.ranges.entries.Pairwise fun a b => a.1 + a.2 ≤ b.1) →
      c.Unknown dataAvailable → load (c.store dataAvailable) {} = (.ok (), c) := by
  intro h
  have hu : (twoPaths 9).Unknown fun _ => false := unknown_of_empty_cache (by decide)
  have hload := h (fun _ => false) (twoPaths 9) ⟨by decide, by decide, by decide⟩ (by decide)
    (by decide) hu
  rw [store, compress_unknown hu] at hload
  have hfail : (load (twoPaths 9).write {}).1 = .error unexpectedEnd := by decide +kernel
  rw [hload] at hfail
  exact absurd hfail (by simp)

end CSkipRevisionInfo

end TortoiseSvn.LogCache
