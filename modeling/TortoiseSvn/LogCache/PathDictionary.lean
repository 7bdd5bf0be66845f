import TortoiseSvn.Lib.Loop
import TortoiseSvn.LogCache.IndexPairDictionary
import TortoiseSvn.LogCache.StringDictionary

/-!
# The path dictionary

Paths are pairs of a parent and a path element, index 0 being the root. `operator>>` checks that
every parent and every element is an index of its table or `NO_INDEX`; the functions that walk
towards the root rely on more than that.

Main result: `load_tree_iff`. An accepted dictionary is a tree, on which every walk ends inside the
tables, iff the stored pairs begin with a root and every later pair has an earlier parent and an
element.
-/

namespace TortoiseSvn.LogCache

open TortoiseSvn.Lib

/-! ### The dictionary -/

/-- Source: `PathDictionary.h` `CPathDictionary` -/
structure CPathDictionary where
  pathElements : CStringDictionary
  /-- The paths as (parent, path element) pairs. -/
  paths : List (Index × Index)
  deriving DecidableEq

namespace CPathDictionary

/-- Source: `PathDictionary.cpp` `CPathDictionary::Initialize` -/
def init : CPathDictionary := ⟨.init, [(⊤, (0 : ℕ))]⟩

/-- Source: `PathDictionary.h` `CPathDictionary::size` -/
def size (d : CPathDictionary) : ℕ := d.paths.length

/-- Source: `PathDictionary.cpp` `CPathDictionary::Clear` -/
def clear (_ : CPathDictionary) : CPathDictionary := init

/-- The pair of a path, read inside the table only. -/
def entry (d : CPathDictionary) (index : Index) : Except Fault (Index × Index) :=
  match index with
  | ⊤ => .error .undefined
  | (i : ℕ) => checked d.paths[i]?

/-- Source: `PathDictionary.cpp` `CPathDictionary::GetParent` -/
def getParent (d : CPathDictionary) (index : Index) : Except Fault Index :=
  (d.entry index).map Prod.fst

/-- Source: `PathDictionary.cpp` `CPathDictionary::GetPathElementID` -/
def getPathElementID (d : CPathDictionary) (index : Index) : Except Fault Index :=
  (d.entry index).map Prod.snd

/-- Source: `PathDictionary.cpp` `CPathDictionary::Validate` -/
def validate : LoadM CPathDictionary Unit := fun d =>
  (if ∀ p ∈ d.paths, ¬ ((d.size : Index) ≤ p.1 ∧ p.1 ≠ ⊤) ∧
      ¬ ((d.pathElements.size : Index) ≤ p.2 ∧ p.2 ≠ ⊤) then .ok ()
    else .error (.containerException "path dictionary is corrupt"), d)

/-- Source: `PathDictionary.cpp` `operator>>` -/
def load (s : InStream) : LoadM CPathDictionary Unit := do
  let elementsStream ← Trial.lift (s.getSubStream 1)
  Trial.zoom pathElements (fun d e => { d with pathElements := e })
    (CStringDictionary.load elementsStream)
  let pathsStream ← Trial.lift (s.getSubStream 2)
  Trial.zoom paths (fun d p => { d with paths := p })
    (CIndexPairDictionary.load toIndex pathsStream)
  validate

/-! ### Walking towards the root -/

/-- One round of the loop of `GetDepth`. -/
def depthBody (d : CPathDictionary) : Index × ℕ → Except Fault ((Index × ℕ) ⊕ ℕ)
  | (i, result) =>
    if i = (0 : ℕ) then .ok (.inr result)
    else do
      let parent ← d.getParent i
      return .inl (parent, result + 1)

/-- `GetDepth` of a valid path. Source: `PathDictionary.cpp` `CDictionaryBasedPath::GetDepth` -/
def GetDepth (d : CPathDictionary) (index : Index) (depth : ℕ) : Prop :=
  Returns d.depthBody (index, 0) depth

/-- One round of the loop of `Contains`. -/
def containsBody (d : CPathDictionary) (pathElementID : Index) :
    Index → Except Fault (Index ⊕ Bool)
  | pathIndex =>
    if pathIndex = (0 : ℕ) then .ok (.inr false)
    else do
      let element ← d.getPathElementID pathIndex
      if element = pathElementID then return .inr true
      let parent ← d.getParent pathIndex
      return .inl parent

/-- Source: `PathDictionary.cpp` `CDictionaryBasedPath::Contains` -/
def Contains (d : CPathDictionary) (index pathElementID : Index) (result : Bool) : Prop :=
  Returns (d.containsBody pathElementID) index result

/-- One round of the loop of `IsSameOrParentOf`. -/
def parentOfBody (d : CPathDictionary) (lhsIndex : Index) : Index → Except Fault (Index ⊕ Bool)
  | rhsIndex =>
    if lhsIndex ≤ rhsIndex then
      if lhsIndex = rhsIndex then .ok (.inr true)
      else do
        let parent ← d.getParent rhsIndex
        return .inl parent
    else .ok (.inr false)

/-- Source: `PathDictionary.cpp` `CDictionaryBasedPath::IsSameOrParentOf` -/
def IsSameOrParentOf (d : CPathDictionary) (lhsIndex rhsIndex : Index) (result : Bool) : Prop :=
  if lhsIndex = (0 : ℕ) then result = true else Returns (d.parentOfBody lhsIndex) rhsIndex result

/-- One round of the loop of `GetCommonRoot`: the larger index is replaced by its parent. -/
def commonRootBody (d : CPathDictionary) : Index × Index → Except Fault ((Index × Index) ⊕ Index)
  | (lhsIndex, rhsIndex) =>
    if lhsIndex = rhsIndex then .ok (.inr lhsIndex)
    else if lhsIndex < rhsIndex then do
      let parent ← d.getParent rhsIndex
      return .inl (lhsIndex, parent)
    else do
      let parent ← d.getParent lhsIndex
      return .inl (parent, rhsIndex)

/-- Source: `PathDictionary.cpp` `CDictionaryBasedPath::GetCommonRoot` -/
def GetCommonRoot (d : CPathDictionary) (lhsIndex rhsIndex result : Index) : Prop :=
  Returns d.commonRootBody (lhsIndex, rhsIndex) result

/-- `MAX_PATH`, the size of the arrays of `GetPath`. -/
def maxPath : ℕ := 260

/-- The characters of a path element. `CopyPathElements` copies them in chunks of
`sizeof (size_t)`, so the last chunk may end behind the buffer's content, in what is reserved there.
Source: `PathDictionary.cpp` `CDictionaryBasedPath::CopyPathElements` -/
def copyElement (e : CStringDictionary) (element : Index) : Except Fault (List UInt8) :=
  match element with
  | ⊤ => .error .undefined
  | (i : ℕ) =>
    if i < e.size ∧ e.offset i ≤ e.offset (i + 1) ∧
        e.offset i + (e.getLength i + 7) / CStringDictionary.chunkSize * CStringDictionary.chunkSize ≤
          e.packedStrings.length + CStringDictionary.chunkSize then .ok (e.copyTo i)
    else .error .undefined

/-- One round of the loop of `CollectPathElements`, which gathers the elements bottom-up; what
`CopyPathElements` does to an element is done here at once.
Source: `PathDictionary.cpp` `CDictionaryBasedPath::CollectPathElements` -/
def collectBody (d : CPathDictionary) :
    Index × List (List UInt8) → Except Fault ((Index × List (List UInt8)) ⊕ List (List UInt8))
  | (currentIndex, elements) =>
    if currentIndex ≠ (0 : ℕ) ∧ elements.length < maxPath then do
      let element ← d.getPathElementID currentIndex
      let string ← copyElement d.pathElements element
      let parent ← d.getParent currentIndex
      return .inl (parent, string :: elements)
    else .ok (.inr elements)

/-- `GetPath` of a valid path: every element behind a slash, the root being a single slash.
Source: `PathDictionary.cpp` `CDictionaryBasedPath::GetPath` -/
def GetPath (d : CPathDictionary) (index : Index) (path : List UInt8) : Prop :=
  ∃ elements, Returns d.collectBody (index, []) elements ∧
    path = if elements = [] then [47] else elements.flatMap (47 :: ·)

/-! ### Trees -/

/-- Entry 0 is the root, and the parent of any other entry is an earlier entry. -/
structure Tree (d : CPathDictionary) : Prop where
  root : ∃ element, d.paths[0]? = some (⊤, element)
  parent : ∀ i p, 0 < i → d.paths[i]? = some p → ∃ j : ℕ, p.1 = (j : Index) ∧ j < i

/-- Every walk from a path of the dictionary ends without leaving the tables. -/
structure Safe (d : CPathDictionary) : Prop where
  depth : ∀ i < d.size, ∃ result, d.GetDepth (i : ℕ) result
  path : ∀ i < d.size, ∃ result, d.GetPath (i : ℕ) result
  contains : ∀ i < d.size, ∀ element, ∃ result, d.Contains (i : ℕ) element result
  parentOf : ∀ i < d.size, ∀ j < d.size, ∃ result, d.IsSameOrParentOf (i : ℕ) (j : ℕ) result
  commonRoot : ∀ i < d.size, ∀ j < d.size, ∃ result, d.GetCommonRoot (i : ℕ) (j : ℕ) result

section Walks

variable {d : CPathDictionary}

/-- The index of a path of the dictionary. -/
def IsPath (d : CPathDictionary) (index : Index) : Prop := ∃ i : ℕ, index = (i : Index) ∧ i < d.size

/-- How far a walk can still go. -/
def height (index : Index) : ℕ := index.untopD 0

@[simp] theorem height_coe (n : ℕ) : height (n : Index) = n := rfl

theorem entry_coe {i : ℕ} {p : Index × Index} (h : d.paths[i]? = some p) :
    d.entry (i : Index) = .ok p := by
  show checked d.paths[i]? = .ok p
  rw [h]
  rfl

theorem exists_entry {i : ℕ} (hi : i < d.size) : ∃ p, d.paths[i]? = some p :=
  ⟨_, List.getElem?_eq_getElem hi⟩

/-- The parent of a path other than the root is a lower path. -/
theorem Tree.getParent (h : d.Tree) {i : ℕ} (hi : i < d.size) (hpos : 0 < i) :
    ∃ j : ℕ, d.getParent (i : Index) = .ok (j : Index) ∧ j < i := by
  obtain ⟨p, hp⟩ := exists_entry hi
  obtain ⟨j, hj, hlt⟩ := h.parent i p hpos hp
  exact ⟨j, by rw [CPathDictionary.getParent, entry_coe hp, ← hj]; rfl, hlt⟩

theorem Tree.depth (h : d.Tree) {i : ℕ} (hi : i < d.size) : ∃ n, d.GetDepth (i : ℕ) n := by
  refine Returns.exists_of_measure d.depthBody (fun s => d.IsPath s.1) (fun s => height s.1) ?_
    ⟨i, rfl, hi⟩
  rintro ⟨-, n⟩ ⟨k, rfl, hk⟩
  rcases Nat.eq_zero_or_pos k with rfl | hpos
  · exact .inl ⟨n, rfl⟩
  · obtain ⟨j, hj, hlt⟩ := h.getParent hk hpos
    refine .inr ⟨((j : Index), n + 1), ?_, ⟨j, rfl, hlt.trans hk⟩, hlt⟩
    simp [depthBody, hj, hpos.ne', bind, Except.bind, pure, Except.pure]

theorem Tree.contains (h : d.Tree) (element : Index) {i : ℕ} (hi : i < d.size) :
    ∃ r, d.Contains (i : ℕ) element r := by
  refine Returns.exists_of_measure (d.containsBody element) d.IsPath height ?_ ⟨i, rfl, hi⟩
  rintro - ⟨k, rfl, hk⟩
  rcases Nat.eq_zero_or_pos k with rfl | hpos
  · exact .inl ⟨false, rfl⟩
  · obtain ⟨j, hj, hlt⟩ := h.getParent hk hpos
    obtain ⟨p, hp⟩ := exists_entry hk
    have hid : d.getPathElementID (k : Index) = .ok p.2 := by
      rw [getPathElementID, entry_coe hp]
      rfl
    by_cases he : p.2 = element
    · refine .inl ⟨true, ?_⟩
      simp [containsBody, hid, he, hpos.ne', bind, Except.bind, pure, Except.pure]
    · refine .inr ⟨(j : Index), ?_, ⟨j, rfl, hlt.trans hk⟩, hlt⟩
      simp [containsBody, hid, he, hj, hpos.ne', bind, Except.bind, pure, Except.pure]

theorem Tree.parentOf (h : d.Tree) (i : ℕ) {j : ℕ} (hj : j < d.size) :
    ∃ r, d.IsSameOrParentOf (i : ℕ) (j : ℕ) r := by
  unfold IsSameOrParentOf
  by_cases hi : (i : Index) = (0 : ℕ)
  · simp [hi]
  simp only [hi, if_false]
  have hpos : 0 < i := Nat.pos_of_ne_zero fun h0 => hi (by rw [h0])
  refine Returns.exists_of_measure (d.parentOfBody i) d.IsPath height ?_ ⟨j, rfl, hj⟩
  rintro - ⟨k, rfl, hk⟩
  rcases Nat.lt_trichotomy i k with hlt | rfl | hgt
  · obtain ⟨p, hp, hpk⟩ := h.getParent hk (hpos.trans hlt)
    refine .inr ⟨(p : Index), ?_, ⟨p, rfl, hpk.trans hk⟩, hpk⟩
    simp [parentOfBody, hp, hlt.le, hlt.ne, bind, Except.bind, pure, Except.pure]
  · exact .inl ⟨true, by simp [parentOfBody]⟩
  · exact .inl ⟨false, by simp [parentOfBody, Nat.not_le.mpr hgt]⟩

theorem Tree.commonRoot (h : d.Tree) {i j : ℕ} (hi : i < d.size) (hj : j < d.size) :
    ∃ r, d.GetCommonRoot (i : ℕ) (j : ℕ) r := by
  refine Returns.exists_of_measure d.commonRootBody (fun s => d.IsPath s.1 ∧ d.IsPath s.2)
    (fun s => height s.1 + height s.2) ?_ ⟨⟨i, rfl, hi⟩, ⟨j, rfl, hj⟩⟩
  rintro ⟨-, -⟩ ⟨⟨k, rfl, hk⟩, ⟨l, rfl, hl⟩⟩
  rcases Nat.lt_trichotomy k l with hlt | rfl | hgt
  · obtain ⟨p, hp, hpl⟩ := h.getParent hl (Nat.zero_lt_of_lt hlt)
    refine .inr ⟨((k : Index), (p : Index)), ?_, ⟨⟨k, rfl, hk⟩, ⟨p, rfl, hpl.trans hl⟩⟩, ?_⟩
    · simp [commonRootBody, hp, hlt, hlt.ne, bind, Except.bind, pure, Except.pure]
    · simpa using hpl
  · exact .inl ⟨(k : Index), by simp [commonRootBody]⟩
  · obtain ⟨p, hp, hpk⟩ := h.getParent hk (Nat.zero_lt_of_lt hgt)
    refine .inr ⟨((p : Index), (l : Index)), ?_, ⟨⟨p, rfl, hpk.trans hk⟩, ⟨l, rfl, hl⟩⟩, ?_⟩
    · simp [commonRootBody, hp, hgt.not_gt, hgt.ne', bind, Except.bind, pure, Except.pure]
    · simpa using hpk

/-- Every entry but the root has an element of the pool. -/
def HasElements (d : CPathDictionary) : Prop :=
  ∀ i p, 0 < i → d.paths[i]? = some p → ∃ e : ℕ, p.2 = (e : Index) ∧ e < d.pathElements.size

theorem copyElement_coe (e : CStringDictionary) (i : ℕ) : copyElement e (i : Index) =
    if i < e.size ∧ e.offset i ≤ e.offset (i + 1) ∧
      e.offset i + (e.getLength i + 7) / CStringDictionary.chunkSize * CStringDictionary.chunkSize ≤
        e.packedStrings.length + CStringDictionary.chunkSize then .ok (e.copyTo i)
    else .error .undefined := rfl

theorem copyElement_ok {e : CStringDictionary} (h : e.Ordered) {i : ℕ} (hi : i < e.size) :
    copyElement e (i : Index) = .ok (e.copyTo i) := by
  have hlt := h.lt i hi
  have hle := h.le (i + 1) hi
  rw [copyElement_coe, if_pos]
  refine ⟨hi, hlt.le, ?_⟩
  unfold CStringDictionary.chunkSize CStringDictionary.getLength
  omega

theorem Tree.path (h : d.Tree) (he : d.HasElements) (ho : d.pathElements.Ordered) {i : ℕ}
    (hi : i < d.size) : ∃ s, d.GetPath (i : ℕ) s := by
  have hwalk : ∃ elements, Returns d.collectBody ((i : Index), []) elements := by
    refine Returns.exists_of_measure d.collectBody (fun s => d.IsPath s.1) (fun s => height s.1) ?_
      ⟨i, rfl, hi⟩
    rintro ⟨-, elements⟩ ⟨k, rfl, hk⟩
    by_cases hgo : 0 < k ∧ elements.length < maxPath
    · obtain ⟨j, hj, hlt⟩ := h.getParent hk hgo.1
      obtain ⟨p, hp⟩ := exists_entry hk
      obtain ⟨e, hpe, hlte⟩ := he k p hgo.1 hp
      have hid : d.getPathElementID (k : Index) = .ok (e : Index) := by
        rw [getPathElementID, entry_coe hp, ← hpe]
        rfl
      refine .inr ⟨((j : Index), d.pathElements.copyTo e :: elements), ?_, ⟨j, rfl, hlt.trans hk⟩, hlt⟩
      simp [collectBody, hgo.1.ne', hgo.2, hid, copyElement_ok ho hlte, hj, bind, Except.bind, pure,
        Except.pure]
    · refine .inl ⟨elements, ?_⟩
      rw [collectBody, if_neg]
      rintro ⟨hne, hlen⟩
      exact hgo ⟨Nat.pos_of_ne_zero fun h0 => hne (by rw [h0]), hlen⟩
  obtain ⟨elements, hr⟩ := hwalk
  exact ⟨_, elements, hr, rfl⟩

end Walks

/-! ### Accepted dictionaries -/

/-- The pairs of a stored dictionary. -/
def storedPairs (s : InStream) : List (ℕ × ℕ) :=
  match s.getSubStream 2 with
  | .ok pathsStream =>
    match CIndexPairDictionary.stored pathsStream with
    | .ok ps => ps
    | .error _ => []
  | .error _ => []

/-- The first pair has no parent, and every later pair an earlier one and an element. -/
def TreePairs (ps : List (ℕ × ℕ)) : Prop :=
  ∃ element rest, ps = (noIndex, element) :: rest ∧
    ∀ (i : ℕ) (p : ℕ × ℕ), rest[i]? = some p → p.1 ≤ i ∧ p.1 ≠ noIndex ∧ p.2 ≠ noIndex

theorem load_ok {s : InStream} {d₀ d : CPathDictionary} (h : load s d₀ = (.ok (), d)) :
    d.pathElements.Ordered ∧
      d.paths = (storedPairs s).map (fun p => (toIndex p.1, toIndex p.2)) ∧
      ∀ p ∈ d.paths, ∀ e : ℕ, p.2 = (e : Index) → e < d.pathElements.size := by
  rw [load] at h
  obtain ⟨elementsStream, -, h⟩ := Trial.lift_bind_eq_ok h
  obtain ⟨u, d₁, helements, h⟩ := Trial.bind_eq_ok h
  obtain ⟨pathsStream, hsub, h⟩ := Trial.lift_bind_eq_ok h
  obtain ⟨u', d₂, hpaths, h⟩ := Trial.bind_eq_ok h
  rw [Trial.zoom_run, Prod.mk.injEq] at helements hpaths
  obtain ⟨hok, rfl⟩ := helements
  obtain ⟨hok', rfl⟩ := hpaths
  obtain ⟨ps, hstored, hps⟩ := CIndexPairDictionary.load_ok (Prod.ext hok' rfl)
  obtain ⟨hordered, -⟩ := CStringDictionary.load_ok (Prod.ext hok rfl)
  rw [validate, Prod.mk.injEq] at h
  obtain ⟨hvalid, rfl⟩ := h
  refine ⟨hordered, ?_, ?_⟩
  · simp only [storedPairs, hsub, hstored]
    exact hps
  · intro p hp e he
    by_contra hcon
    refine absurd hvalid ?_
    rw [if_neg]
    · simp
    · intro hall
      refine (hall p hp).2 ⟨?_, ?_⟩
      · rw [he]
        exact_mod_cast Nat.not_lt.mp hcon
      · rw [he]
        exact WithTop.natCast_ne_top e

/-- A walk that collects the elements of a path has read the element of the path itself. -/
theorem element_of_path {d : CPathDictionary} {i : ℕ} {p : Index × Index} {s : List UInt8}
    (hpos : 0 < i) (hp : d.paths[i]? = some p) (h : d.GetPath (i : ℕ) s) : p.2 ≠ ⊤ := by
  intro htop
  obtain ⟨elements, hr, -⟩ := h
  have hid : d.getPathElementID (i : Index) = .ok ⊤ := by
    rw [getPathElementID, entry_coe hp, ← htop]
    rfl
  have hbody : d.collectBody ((i : Index), []) = .error .undefined := by
    simp [collectBody, hpos.ne', maxPath, hid, copyElement, bind, Except.bind]
  rcases hr.body_ok with hb | ⟨s', hb, -⟩
  · simp [hbody] at hb
  · simp [hbody] at hb

/-- **An accepted path dictionary is a tree on which every walk ends inside the tables, iff the
stored pairs begin with a root and every later pair has an earlier parent and an element.** -/
theorem load_tree_iff {s : InStream} {d₀ d : CPathDictionary} (h : load s d₀ = (.ok (), d)) :
    (d.Tree ∧ d.Safe) ↔ TreePairs (storedPairs s) := by
  obtain ⟨hordered, hpaths, hvalid⟩ := load_ok h
  have hget : ∀ i : ℕ, d.paths[i]? =
      ((storedPairs s)[i]?).map fun p => (toIndex p.1, toIndex p.2) := fun i => by
    rw [hpaths, List.getElem?_map]
  constructor
  · rintro ⟨htree, hsafe⟩
    obtain ⟨element, hroot⟩ := htree.root
    rcases hps : storedPairs s with _ | ⟨p, rest⟩
    · simp [hget, hps] at hroot
    · have hp1 : p.1 = noIndex := by
        rw [hget, hps] at hroot
        simp only [List.getElem?_cons_zero, Option.map_some, Option.some.injEq,
          Prod.mk.injEq] at hroot
        exact toIndex_eq_top.mp hroot.1
      refine ⟨p.2, rest, by rw [← hp1], fun i q hq => ?_⟩
      have hentry : d.paths[i + 1]? = some (toIndex q.1, toIndex q.2) := by
        rw [hget, hps, List.getElem?_cons_succ, hq]
        rfl
      obtain ⟨j, hj, hlt⟩ := htree.parent _ _ i.succ_pos hentry
      obtain ⟨rfl, hne⟩ := toIndex_eq_coe.mp hj
      have hi : i + 1 < d.size := (List.getElem?_eq_some_iff.mp hentry).1
      obtain ⟨path, hpath⟩ := hsafe.path (i + 1) hi
      exact ⟨Nat.lt_succ_iff.mp hlt, hne, fun he =>
        element_of_path i.succ_pos hentry hpath (toIndex_eq_top.mpr he)⟩
  · rintro ⟨element, rest, hps, hrest⟩
    have hlater : ∀ i p, 0 < i → d.paths[i]? = some p →
        ∃ (j : ℕ) (e : ℕ), p = ((j : Index), (e : Index)) ∧ j < i := by
      intro i p hpos hp
      obtain ⟨k, rfl⟩ : ∃ k, i = k + 1 := ⟨i - 1, by omega⟩
      rw [hget, hps, List.getElem?_cons_succ] at hp
      rcases hq : rest[k]? with _ | q
      · simp [hq] at hp
      · obtain ⟨hle, h1, h2⟩ := hrest k q hq
        rw [hq, Option.map_some, Option.some_inj] at hp
        exact ⟨q.1, q.2, by rw [← hp, toIndex, toIndex, if_neg h1, if_neg h2], by omega⟩
    have htree : d.Tree := by
      refine ⟨⟨toIndex element, by rw [hget, hps]; rfl⟩, fun i p hpos hp => ?_⟩
      obtain ⟨j, e, rfl, hlt⟩ := hlater i p hpos hp
      exact ⟨j, rfl, hlt⟩
    have helements : d.HasElements := fun i p hpos hp => by
      obtain ⟨j, e, rfl, -⟩ := hlater i p hpos hp
      exact ⟨e, rfl, hvalid _ (List.mem_of_getElem? hp) e rfl⟩
    exact ⟨htree, ⟨fun i hi => htree.depth hi, fun i hi => htree.path helements hordered hi,
      fun i hi e => htree.contains e hi, fun i _ j hj => htree.parentOf i hj,
      fun i hi j hj => htree.commonRoot hi hj⟩⟩

/-- A stored dictionary with the empty path element and the given pairs. -/
def streamOf (pairs : List (ℕ × ℕ)) : InStream :=
  .compose [
    (1, .compose [(1, .leaf .blob [0]), (2, .leaf .diffDWORD (internalAdd 2))]),
    (2, .compose [
      (1, .leaf .diffInteger (CDiffIntegerOutStream.write (pairs.length :: pairs.map Prod.fst))),
      (2, .leaf .diffInteger (CDiffIntegerOutStream.write (pairs.map Prod.snd)))])]

/-- The root and one path below it. -/
theorem load_tree_iff_child :
    Tree ⟨.init, [(⊤, (0 : ℕ)), ((0 : ℕ), (0 : ℕ))]⟩ ∧
      Safe ⟨.init, [(⊤, (0 : ℕ)), ((0 : ℕ), (0 : ℕ))]⟩ := by
  have hload : load (streamOf [(noIndex, 0), (0, 0)]) init =
      (.ok (), ⟨.init, [(⊤, (0 : ℕ)), ((0 : ℕ), (0 : ℕ))]⟩) := by decide +kernel
  refine (load_tree_iff hload).mpr ?_
  have hpairs : storedPairs (streamOf [(noIndex, 0), (0, 0)]) = [(noIndex, 0), (0, 0)] := by
    decide +kernel
  refine ⟨0, [(0, 0)], hpairs, fun i p hp => ?_⟩
  obtain ⟨rfl, rfl⟩ : i = 0 ∧ p = (0, 0) := by
    rcases i with _ | i
    · simpa [eq_comm] using hp
    · simp at hp
  decide

/-- A path that is its own parent is accepted. -/
theorem load_accepts_cycle : ¬ ∀ (s : InStream) (d₀ d : CPathDictionary),
    load s d₀ = (.ok (), d) → d.Tree ∧ d.Safe := by
  intro h
  have hload : load (streamOf [(noIndex, 0), (1, 0)]) init =
      (.ok (), ⟨.init, [(⊤, (0 : ℕ)), ((1 : ℕ), (0 : ℕ))]⟩) := by decide +kernel
  obtain ⟨htree, -⟩ := h _ _ _ hload
  obtain ⟨j, hj, hlt⟩ := htree.parent 1 _ one_pos rfl
  have hone : ((1 : ℕ) : Index) = (j : Index) := hj
  have : 1 = j := Nat.cast_inj.mp hone
  omega

end CPathDictionary

end TortoiseSvn.LogCache
