import TortoiseSvn.LogCache.RevisionIndex
import TortoiseSvn.LogCache.RevisionRuns
import TortoiseSvn.LogCache.SkipLookup

/-!
# Is a path mentioned in a revision?

A log iterator reports the revisions that mention its path. `PathInRevision` first compares the path
with the root path of the revision, and looks at the changes only if the two intersect.

Main result: `pathInRevision_eq_scan`. The fast test agrees with the scan of all changes, and the
scan finds the changes that affect the path.
-/

namespace TortoiseSvn.LogCache

open TortoiseSvn.Lib CRevisionInfoContainer

/-! ### The iterator -/

/-- A path that is a cached path, the base, followed by elements that are not in the dictionary.
Source: `DictionaryBasedTempPath.h` `CDictionaryBasedTempPath` -/
structure CDictionaryBasedTempPath where
  index : Index
  relPathElements : List (List UInt8)
  deriving DecidableEq

namespace CDictionaryBasedTempPath

/-- Source: `DictionaryBasedTempPath.h` `CDictionaryBasedTempPath::IsValid` -/
def isValid (path : CDictionaryBasedTempPath) : Bool := path.index ≠ ⊤

/-- Source: `DictionaryBasedTempPath.h` `CDictionaryBasedTempPath::IsFullyCachedPath` -/
def isFullyCachedPath (path : CDictionaryBasedTempPath) : Bool := path.relPathElements.isEmpty

/-- Source: `DictionaryBasedTempPath.h` `CDictionaryBasedTempPath::IsRoot` -/
def isRoot (path : CDictionaryBasedTempPath) : Bool :=
  path.index = (0 : ℕ) ∧ path.isFullyCachedPath

end CDictionaryBasedTempPath

/-- The cached log, the revision the iterator is at and the path it follows. The path dictionary is
that of the revision info.
Source: `LogIteratorBase.h` `CLogIteratorBase` -/
structure CLogIteratorBase where
  revisionInfo : CRevisionInfoContainer
  revisionIndices : CRevisionIndex
  skipRevisionInfo : CSkipRevisionInfo
  revision : ℕ
  path : CDictionaryBasedTempPath

namespace CLogIteratorBase

/-- The changes from a position on, as many as there are up to the end.
Source: `LogIteratorBase.cpp` `CLogIteratorBase::PathInRevision (first, last, path)`, the loop -/
def pathInChangesLoop (c : CRevisionInfoContainer) (path : CDictionaryBasedTempPath) :
    ℕ → CChangesIterator → Except Fault Bool
  | 0, _ => .ok false
  | n + 1, iter => do
    let changedPath ← checked c.changedPaths[iter.changeOffset]?
    -- only a cached path can be a parent of the changed path
    let isParent ← (if path.isFullyCachedPath then c.paths.isSameOrParentOf path.index changedPath
      else pure false)
    if isParent then pure true
    else do
      let change ← checked c.changes[iter.changeOffset]?
      let next : CChangesIterator := ⟨iter.changeOffset + 1,
        if change &&& HAS_COPY_FROM ≠ 0 then iter.copyFromOffset + 1 else iter.copyFromOffset⟩
      if change &&& ANY_ACTION = ACTION_CHANGED then pathInChangesLoop c path n next
      else do
        let isChild ← c.paths.isSameOrParentOf changedPath path.index
        if isChild then pure true else pathInChangesLoop c path n next

/-- Close examination of all changes between two positions.
Source: `LogIteratorBase.cpp` `CLogIteratorBase::PathInRevision (first, last, path)` -/
def pathInChanges (c : CRevisionInfoContainer) (first last : CChangesIterator)
    (path : CDictionaryBasedTempPath) : Except Fault Bool :=
  if first.changeOffset ≤ last.changeOffset then
    pathInChangesLoop c path (last.changeOffset - first.changeOffset) first
  else .error .undefined

/-- The examination of the changes of one revision. -/
def scan (c : CRevisionInfoContainer) (index : ℕ) (path : CDictionaryBasedTempPath) :
    Except Fault Bool := do
  let first ← c.getChangesBegin index
  let last ← c.getChangesEnd index
  pathInChanges c first last path

/-- Source: `LogIteratorBase.cpp` `CLogIteratorBase::PathInRevision` -/
def pathInRevision (it : CLogIteratorBase) : Except Fault Bool :=
  -- all revisions are reported for the root
  if it.path.isRoot then .ok true
  else if ¬ it.path.isValid then .ok false
  else
    match it.revisionIndices.get it.revision with
    | ⊤ => .error .undefined
    | (index : ℕ) => do
      let revisionRootPath ← it.revisionInfo.getRootPath index
      if revisionRootPath = ⊤ then pure false
      else do
        let mayAffect ← it.revisionInfo.paths.intersects revisionRootPath it.path.index
        if mayAffect then scan it.revisionInfo index it.path else pure false

/-! ### The scan -/

/-- A change affects a path when it is a change of that path or of something below it, which needs
a path that is cached, or more than a modification of the cached base or of one of its parents. -/
def Affects (d : CPathDictionary) (path : CDictionaryBasedTempPath) (x : SPerChangeInfo) : Prop :=
  ∃ b p : ℕ, path.index = (b : Index) ∧ x.changedPath = (p : Index) ∧
    (path.relPathElements = [] ∧ d.Above b p ∨ x.getAction ≠ ACTION_CHANGED ∧ d.Above p b)

section Scan

variable {c : CRevisionInfoContainer} {path : CDictionaryBasedTempPath} {b : ℕ}

/-- A change is compared with the path in both directions. -/
theorem affects_iff {d : CPathDictionary} {x : SPerChangeInfo} {p : ℕ}
    (hb : path.index = (b : Index)) (hp : x.changedPath = (p : Index)) :
    Affects d path x ↔ path.relPathElements = [] ∧ d.Above b p ∨
      x.getAction ≠ ACTION_CHANGED ∧ d.Above p b := by
  constructor
  · rintro ⟨b', p', hb', hp', h⟩
    obtain rfl := Nat.cast_injective (R := Index) (hb.symm.trans hb')
    obtain rfl := Nat.cast_injective (R := Index) (hp.symm.trans hp')
    exact h
  · exact fun h => ⟨b, p, hb, hp, h⟩

/-- One round of the scan: a change that affects the path ends it. -/
theorem pathInChangesLoop_succ (hd : c.paths.Built) (hb : path.index = (b : Index))
    (hsize : b < c.paths.size) {pre post : List SPerChangeInfo} {x : SPerChangeInfo}
    (h : c.Lists (pre ++ x :: post)) (hx : x.Valid c.paths) (n k : ℕ) :
    (Affects c.paths path x ∧ pathInChangesLoop c path (n + 1) ⟨pre.length, k⟩ = .ok true) ∨
      (¬ Affects c.paths path x ∧ ∃ k', pathInChangesLoop c path (n + 1) ⟨pre.length, k⟩ =
        pathInChangesLoop c path n ⟨pre.length + 1, k'⟩) := by
  obtain ⟨ns, p, hp, hnamed⟩ := hx.path
  have hpath : c.changedPaths[pre.length]? = some (p : Index) := by
    rw [h.changedPaths, getElem?_map_middle, hp]
  have hchange : c.changes[pre.length]? = some x.change := by
    rw [h.changes, getElem?_map_middle]
  obtain ⟨up, hup, hupiff⟩ := CPathDictionary.isSameOrParentOf_spec hd.tree b (hnamed.lt_size hd)
  obtain ⟨down, hdown, hdowniff⟩ := CPathDictionary.isSameOrParentOf_spec hd.tree p hsize
  have hparent : (if path.isFullyCachedPath then c.paths.isSameOrParentOf (b : Index) (p : Index)
      else pure false) = .ok (path.isFullyCachedPath && up) := by
    cases path.isFullyCachedPath with
    | true => exact hup
    | false => rfl
  have hcached : path.isFullyCachedPath = true ↔ path.relPathElements = [] := List.isEmpty_iff
  rw [affects_iff hb hp, ← hupiff, ← hdowniff, ← hcached, ← Bool.and_eq_true, pathInChangesLoop, hb]
  dsimp only
  rw [hpath, hchange]
  simp only [checked, bind, Except.bind]
  rw [hparent, hdown]
  dsimp only
  by_cases hfound : (path.isFullyCachedPath && up) = true
  · rw [if_pos hfound]
    exact .inl ⟨.inl hfound, rfl⟩
  rw [if_neg hfound]
  by_cases hchanged : x.getAction = ACTION_CHANGED
  · refine .inr ⟨?_, _, if_pos hchanged⟩
    rintro (h | h)
    · exact hfound h
    · exact h.1 hchanged
  rw [if_neg (show ¬ x.change &&& ANY_ACTION = ACTION_CHANGED from hchanged)]
  cases down with
  | true => exact .inl ⟨.inr ⟨hchanged, rfl⟩, rfl⟩
  | false =>
    refine .inr ⟨?_, _, rfl⟩
    rintro (h | h)
    · exact hfound h
    · cases h.2

/-- The scan of some of the changes. -/
theorem pathInChangesLoop_spec (hd : c.paths.Built) (hb : path.index = (b : Index))
    (hsize : b < c.paths.size) {pre xs post : List SPerChangeInfo}
    (h : c.Lists (pre ++ xs ++ post)) (hxs : ∀ x ∈ xs, x.Valid c.paths) (k : ℕ) :
    ∃ result, pathInChangesLoop c path xs.length ⟨pre.length, k⟩ = .ok result ∧
      (result = true ↔ ∃ x ∈ xs, Affects c.paths path x) := by
  induction xs generalizing pre k with
  | nil =>
    refine ⟨false, rfl, ?_⟩
    simp
  | cons x xs ih =>
    obtain ⟨hx, hxs⟩ := List.forall_mem_cons.mp hxs
    rw [List.append_assoc, List.cons_append] at h
    rw [List.length_cons]
    obtain ⟨haffects, hloop⟩ | ⟨haffects, k', hloop⟩ :=
      pathInChangesLoop_succ hd hb hsize h hx xs.length k
    · exact ⟨true, hloop, iff_of_true rfl ⟨x, List.mem_cons_self, haffects⟩⟩
    · have h' : c.Lists (pre ++ [x] ++ xs ++ post) := by
        rwa [List.append_assoc, List.append_assoc]
      obtain ⟨result, hresult, hiff⟩ := ih h' hxs k'
      rw [List.length_append, List.length_singleton] at hresult
      refine ⟨result, hloop.trans hresult, hiff.trans ?_⟩
      rw [List.exists_mem_cons_iff]
      exact (or_iff_right haffects).symm

/-- The scan of the changes of a revision finds those that affect the path. -/
theorem scan_spec {revs : List (List SPerChangeInfo)} (h : c.HoldsChanges revs) {i : ℕ}
    {rev : List SPerChangeInfo} (hi : revs[i]? = some rev) (hb : path.index = (b : Index))
    (hsize : b < c.paths.size) :
    ∃ result, scan c i path = .ok result ∧
      (result = true ↔ ∃ x ∈ rev, Affects c.paths path x) := by
  have hlt := (List.getElem?_eq_some_iff.mp hi).1
  have hlists := h.lists
  rw [flatten_split hi] at hlists
  obtain ⟨result, hresult, hiff⟩ := pathInChangesLoop_spec h.built hb hsize hlists
    (h.valid rev (List.mem_of_getElem? hi)) (offsetOf (copiesOf revs) i)
  refine ⟨result, ?_, hiff⟩
  unfold scan CRevisionInfoContainer.getChangesEnd pathInChanges
  rw [h.getChangesBegin hlt.le, h.getChangesBegin hlt]
  simp only [bind, Except.bind]
  rw [if_pos (offsetOf_mono revs (Nat.le_succ i)), offsetOf_succ hi, Nat.add_sub_cancel_left]
  exact hresult

/-- What affects a path intersects the root path of the revision. -/
theorem Affects.intersects {d : CPathDictionary} (hd : d.Built) {root : Index}
    {rev : List SPerChangeInfo} (hroot : IsDeepestRoot d root rev) {x : SPerChangeInfo}
    (hx : x ∈ rev) (h : Affects d path x) (hb : path.index = (b : Index)) :
    ∃ r : ℕ, root = (r : Index) ∧ (d.Above r b ∨ d.Above b r) := by
  obtain ⟨r, rfl, habove⟩ := hroot.2 (List.ne_nil_of_mem hx)
  obtain ⟨p, hp, hrp⟩ := (habove r).mp (.refl r) x hx
  refine ⟨r, rfl, ?_⟩
  rcases (affects_iff hb hp).mp h with ⟨-, hbp⟩ | ⟨-, hpb⟩
  · -- the path and the root path are both above the changed path
    rcases le_total r b with hle | hle
    · exact .inl (hd.tree.above_of_le hrp hbp hle)
    · exact .inr (hd.tree.above_of_le hbp hrp hle)
  · exact .inl (hrp.trans hpb)

end Scan

/-- The fast test and the scan, in a container that holds some lists of changes. -/
theorem pathInRevision_eq {it : CLogIteratorBase} {revs : List (List SPerChangeInfo)}
    (ht : it.revisionInfo.Tracks revs) {index : ℕ}
    (hindex : it.revisionIndices.get it.revision = (index : Index))
    (hsize : index < it.revisionInfo.size) {b : ℕ} (hb : it.path.index = (b : Index))
    (hbsize : b < it.revisionInfo.paths.size) (hroot : it.path.isRoot = false) :
    ∃ result changes, it.pathInRevision = .ok result ∧
      scan it.revisionInfo index it.path = .ok result ∧
      it.revisionInfo.changesOf index = .ok changes ∧
      (result = true ↔ ∃ x ∈ changes, Affects it.revisionInfo.paths it.path x) := by
  have hbuilt := ht.changes.built
  obtain ⟨rev, hrev⟩ : ∃ rev, revs[index]? = some rev :=
    ⟨_, List.getElem?_eq_getElem (ht.size ▸ hsize)⟩
  obtain ⟨result, hscan, hiff⟩ := scan_spec ht.changes hrev hb hbsize
  obtain ⟨root, hroots, hisRoot⟩ := ht.changes.root hrev
  have hdeepest := hisRoot.isDeepestRoot hbuilt
  refine ⟨result, rev, ?_, hscan, ht.changes.changesOf_eq hrev, hiff⟩
  have hvalid : it.path.isValid = true := by
    rw [CDictionaryBasedTempPath.isValid, hb]
    rfl
  have hget : it.revisionInfo.getRootPath index = .ok root := by
    rw [CRevisionInfoContainer.getRootPath, hroots]
    rfl
  rw [pathInRevision, hroot, hvalid, hindex]
  simp only [Bool.false_eq_true, if_false, not_true_eq_false, Nat.cast_id, hget, bind, Except.bind]
  rcases Index.cases root with rfl | ⟨r, rfl⟩
  · -- there are no changes
    rw [if_pos rfl]
    obtain rfl := hdeepest.1.mp rfl
    cases result with
    | true =>
      obtain ⟨x, hx, -⟩ := hiff.mp rfl
      exact absurd hx List.not_mem_nil
    | false => rfl
  · have hne : rev ≠ [] := fun hnil => WithTop.natCast_ne_top r (hdeepest.1.mpr hnil)
    obtain ⟨r', hr', habove⟩ := hdeepest.2 hne
    obtain rfl := Nat.cast_injective (R := Index) hr'
    have hrsize : r < it.revisionInfo.paths.size := by
      obtain ⟨x, hx⟩ := List.exists_mem_of_ne_nil rev hne
      obtain ⟨p, hp, hrp⟩ := (habove r).mp (.refl r) x hx
      obtain ⟨ns, p', hp', hnamed⟩ := (ht.changes.valid rev (List.mem_of_getElem? hrev) x hx).path
      obtain rfl := Nat.cast_injective (R := Index) (hp.symm.trans hp')
      exact (hbuilt.tree.le_of_above hrp).trans_lt (hnamed.lt_size hbuilt)
    obtain ⟨mayAffect, hmay, hmayIff⟩ := CPathDictionary.intersects_spec hbuilt.tree hrsize hbsize
    rw [if_neg (WithTop.natCast_ne_top r), hb, hmay]
    cases mayAffect with
    | true => exact hscan
    | false =>
      cases result with
      | false => rfl
      | true =>
        obtain ⟨x, hx, haffects⟩ := hiff.mp rfl
        obtain ⟨r', hr', hinter⟩ := haffects.intersects hbuilt hdeepest hx hb
        obtain rfl := Nat.cast_injective (R := Index) hr'
        exact absurd (hmayIff.mpr hinter) Bool.false_ne_true

/-- **The fast test agrees with the scan of all changes**, and the scan finds the changes that
affect the path. -/
theorem pathInRevision_eq_scan {delimiter : UInt8 → Bool} {dateOf : List UInt8 → ℤ}
    {it : CLogIteratorBase} (h : Reached delimiter dateOf it.revisionInfo) {index : ℕ}
    (hindex : it.revisionIndices.get it.revision = (index : Index))
    (hsize : index < it.revisionInfo.size)
    (hpath : ∃ b : ℕ, it.path.index = (b : Index) ∧ b < it.revisionInfo.paths.size)
    (hroot : it.path.isRoot = false) :
    ∃ result changes, it.pathInRevision = .ok result ∧
      scan it.revisionInfo index it.path = .ok result ∧
      it.revisionInfo.changesOf index = .ok changes ∧
      (result = true ↔ ∃ x ∈ changes, Affects it.revisionInfo.paths it.path x) := by
  obtain ⟨revs, ht⟩ := h.tracks
  obtain ⟨b, hb, hbsize⟩ := hpath
  exact pathInRevision_eq ht hindex hsize hb hbsize hroot

/-- At revision 5, following the path that was added there. -/
def atOneChange (c : CRevisionInfoContainer) : CLogIteratorBase where
  revisionInfo := c
  revisionIndices := ⟨5, [(0 : ℕ)]⟩
  skipRevisionInfo := ⟨[]⟩
  revision := 5
  path := ⟨(1 : ℕ), []⟩

/-- The revision that adds a path mentions it. -/
theorem pathInRevision_eq_scan_oneChange : ∃ c, oneChange = .ok c ∧
    (atOneChange c).pathInRevision = .ok true ∧ scan c 0 (atOneChange c).path = .ok true := by
  have hrun : (do
      let c ← oneChange
      let found ← (atOneChange c).pathInRevision
      pure (c.size, c.paths.size, found)) = (.ok (1, 2, true) : Except Fault _) := by
    decide +kernel
  simp only [bind_eq_ok] at hrun
  obtain ⟨c, hc, found, hfound, hsizes⟩ := hrun
  simp only [pure, Except.pure, Except.ok.injEq, Prod.mk.injEq] at hsizes
  obtain ⟨hsize, hpaths, rfl⟩ := hsizes
  obtain ⟨⟨c₁, i₁⟩, hc₁, hc'⟩ := bind_eq_ok.mp hc
  have hpath : ∃ b : ℕ, (atOneChange c).path.index = (b : Index) ∧
      b < (atOneChange c).revisionInfo.paths.size := by
    refine ⟨1, rfl, ?_⟩
    show 1 < c.paths.size
    rw [hpaths]
    decide
  have hindex : CRevisionIndex.get ⟨5, [(0 : ℕ)]⟩ 5 = (0 : ℕ) := by decide
  have hzero : 0 < c.size := by
    rw [hsize]
    exact Nat.one_pos
  have hreached : Reached (fun _ => false) (fun _ => 0) c :=
    (Reached.init.insert hc₁).addChange hc'
  obtain ⟨result, changes, hfast, hscan, -⟩ := @pathInRevision_eq_scan _ _ (atOneChange c)
    hreached 0 hindex hzero hpath rfl
  obtain rfl := Except.ok.inj (hfound.symm.trans hfast)
  exact ⟨c, hc, hfound, hscan⟩

end CLogIteratorBase

end TortoiseSvn.LogCache
