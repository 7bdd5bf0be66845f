import TortoiseSvn.Lib.Rounds
import TortoiseSvn.LogCache.PathRuns
import TortoiseSvn.LogCache.TempPath
import TortoiseSvn.LogCache.TempPathLookup
import TortoiseSvn.RevisionGraph.WildCardPattern

/-!
# Trunk, branch or tag?

`CPathClassificator` knows the classes of all cached path elements and from them those of all cached
paths, where the topmost class wins. `GetClassification` of a path that is partly in the dictionary
goes on with the elements behind its base.

Main result: `getClassification_eq`. The classification of a path depends on its names only.
-/

namespace TortoiseSvn

open Lib LogCache

namespace CPathClassificator

/-! ### The code -/

/-- Source: `NodeClassification.h` `CNodeClassification::IS_TRUNK` -/
def IS_TRUNK : UInt8 := 1

/-- Source: `NodeClassification.h` `CNodeClassification::IS_BRANCH` -/
def IS_BRANCH : UInt8 := 2

/-- Source: `NodeClassification.h` `CNodeClassification::IS_TAG` -/
def IS_TAG : UInt8 := 4

/-- Source: `NodeClassification.h` `CNodeClassification::IS_OTHER` -/
def IS_OTHER : UInt8 := 8

/-- The patterns from the next one on, which ends at a semicolon.
Source: `PathClassificator.cpp` `CPathClassificator::ParsePatterns` -/
def ParsePatterns (patterns : List UInt8) : List CWildCardPattern :=
  if _ : patterns = [] then []
  else
    let pattern := patterns.takeWhile (· ≠ ';'.toUInt8)
    .ofPattern pattern :: ParsePatterns (patterns.drop (pattern.length + 1))
termination_by patterns.length
decreasing_by
  have hpos : 0 < patterns.length := List.length_pos_iff.mpr ‹_›
  rw [List.length_drop]
  omega

/-- Source: `PathClassificator.cpp` `CPathClassificator::Matches` -/
def Matches : List CWildCardPattern → List UInt8 → ℕ → Bool
  | [], _, _ => false
  | p :: patterns, element, length =>
    if p.Match element length then true else Matches patterns element length

/-- An index into a vector of classes. -/
def classAt (classes : List UInt8) (index : Index) : Except Fault UInt8 :=
  match index with
  | ⊤ => .error .undefined
  | (i : ℕ) => checked classes[i]?

/-- One class.
Source: `PathClassificator.cpp` `CPathClassificator::ClassifyPathElements (elements, patterns,
classification)` -/
def addClass (elements : CStringDictionary) (patterns : List CWildCardPattern)
    (classification : UInt8) (pathElementClassification : List UInt8) : List UInt8 :=
  pathElementClassification.mapIdx fun i c =>
    if Matches patterns (elements.get i) (elements.getLength i) then c ||| classification else c

/-- Let the topmost classification win.
Source: `PathClassificator.cpp` `CPathClassificator::ClassifyPaths`, the body of the first loop -/
def pathRound (paths : CPathDictionary) (pathElementClassification : List UInt8) (i : ℕ)
    (pathClassification : List UInt8) : Except Fault (List UInt8) := do
  let parentID ← paths.getParent (i : Index)
  let elementID ← paths.getPathElementID (i : Index)
  let parentClassification ← classAt pathClassification parentID
  if parentClassification ≠ 0 then pure (pathClassification.set i parentClassification)
  else do
    let classification ← classAt pathElementClassification elementID
    pure (pathClassification.set i classification)

/-- The root is always other.
Source: `PathClassificator.cpp` `CPathClassificator::ClassifyPaths` -/
def ClassifyPaths (paths : CPathDictionary) (pathElementClassification : List UInt8) :
    Except Fault (List UInt8) := do
  let pathClassification ← rounds (pathRound paths pathElementClassification) 1 (paths.size - 1)
    (List.replicate paths.size 0)
  return pathClassification.map fun c => if c = 0 then IS_OTHER else c

end CPathClassificator

open CPathClassificator

/-- Source: `PathClassificator.h` `CPathClassificator` -/
structure CPathClassificator where
  trunkPatterns : List CWildCardPattern
  branchesPatterns : List CWildCardPattern
  tagsPatterns : List CWildCardPattern
  pathElementClassification : List UInt8
  pathClassification : List UInt8

namespace CPathClassificator

/-- The three classes of all elements, one class at a time.
Source: `PathClassificator.cpp` `CPathClassificator::ClassifyPathElements (elements)` -/
def ClassifyPathElements (elements : CStringDictionary)
    (trunkPatterns branchesPatterns tagsPatterns : List CWildCardPattern) : List UInt8 :=
  let classes := List.replicate elements.size 0
  let classes := addClass elements trunkPatterns IS_TRUNK classes
  let classes := addClass elements branchesPatterns IS_BRANCH classes
  addClass elements tagsPatterns IS_TAG classes

/-- The constructor.
Source: `PathClassificator.cpp` `CPathClassificator::CPathClassificator` -/
def ofPatterns (paths : CPathDictionary) (trunkPatterns branchesPatterns tagsPatterns : List UInt8) :
    Except Fault CPathClassificator := do
  let trunk := ParsePatterns trunkPatterns
  let branches := ParsePatterns branchesPatterns
  let tags := ParsePatterns tagsPatterns
  let pathElementClassification := ClassifyPathElements paths.pathElements trunk branches tags
  let pathClassification ← ClassifyPaths paths pathElementClassification
  return ⟨trunk, branches, tags, pathElementClassification, pathClassification⟩

/-- The classes of an element, by its text.
Source: `PathClassificator.cpp` `CPathClassificator::GetClassification`, the inner `else` branch -/
def matchElement (c : CPathClassificator) (element : List UInt8) (length : ℕ) (result : UInt8) :
    UInt8 :=
  let result := if Matches c.trunkPatterns element length then result ||| IS_TRUNK else result
  let result := if Matches c.branchesPatterns element length then result ||| IS_BRANCH else result
  if Matches c.tagsPatterns element length then result ||| IS_TAG else result

/-- The elements behind the base, until one has a class.
Source: `PathClassificator.cpp` `CPathClassificator::GetClassification`, the loop -/
def elementsLoop (c : CPathClassificator) (pathElements : CStringDictionary) :
    List (List UInt8) → UInt8 → Except Fault UInt8
  | [], result => .ok result
  | relPathElement :: rest, result =>
    if result = 0 then
      let element := CPathDictionary.cString relPathElement 0
      match pathElements.find element with
      | some elementID => do
        let classification ← classAt c.pathElementClassification (elementID : Index)
        elementsLoop c pathElements rest (result ||| classification)
      | none =>
        elementsLoop c pathElements rest (c.matchElement relPathElement relPathElement.length result)
    else .ok result

/-- Source: `PathClassificator.cpp` `CPathClassificator::GetClassification` -/
def GetClassification (c : CPathClassificator) (d : CPathDictionary)
    (path : CDictionaryBasedTempPath) : Except Fault UInt8 := do
  let result ← classAt c.pathClassification path.index
  if path.isFullyCachedPath then pure result
  else if result ≠ IS_OTHER then pure result
  else do
    let result ← elementsLoop c d.pathElements path.relPathElements 0
    pure (if result = 0 then IS_OTHER else result)

/-! ### What a classification means -/

/-- The classes of an element. -/
def classMask (trunk branches tags : List CWildCardPattern) (element : List UInt8) : UInt8 :=
  (if Matches trunk element element.length then IS_TRUNK else 0) |||
    (if Matches branches element element.length then IS_BRANCH else 0) |||
    (if Matches tags element element.length then IS_TAG else 0)

/-- The first class from the root down, or `other` if there is none. -/
def firstClass (mask : List UInt8 → UInt8) (other : UInt8) (names : List (List UInt8)) : UInt8 :=
  ((names.map mask).find? (· ≠ 0)).getD other

section FirstClass

variable {mask : List UInt8 → UInt8} {other : UInt8}

theorem firstClass_cons (e : List UInt8) (names : List (List UInt8)) :
    firstClass mask other (e :: names) = if mask e = 0 then firstClass mask other names else mask e := by
  unfold firstClass
  rw [List.map_cons]
  by_cases he : mask e = 0
  · rw [if_pos he, List.find?_cons_of_neg (by simpa using he)]
  · rw [if_neg he, List.find?_cons_of_pos (by simpa using he), Option.getD_some]

theorem firstClass_append (front rest : List (List UInt8)) :
    firstClass mask other (front ++ rest) =
      if firstClass mask 0 front = 0 then firstClass mask other rest else firstClass mask 0 front := by
  induction front with
  | nil => exact (if_pos rfl).symm
  | cons e front ih =>
    rw [List.cons_append, firstClass_cons, firstClass_cons, ih]
    by_cases he : mask e = 0
    · rw [if_pos he, if_pos he]
    · rw [if_neg he, if_neg he, if_neg he]

theorem firstClass_eq (mask : List UInt8 → UInt8) (other : UInt8) (names : List (List UInt8)) :
    firstClass mask other names =
      if firstClass mask 0 names = 0 then other else firstClass mask 0 names := by
  have h : firstClass mask other (names ++ []) = _ := firstClass_append names []
  rwa [List.append_nil] at h

theorem firstClass_concat (names : List (List UInt8)) (e : List UInt8) :
    firstClass mask 0 (names ++ [e]) =
      if firstClass mask 0 names ≠ 0 then firstClass mask 0 names else mask e := by
  have hlast : firstClass mask 0 [e] = mask e := by
    rw [firstClass_cons]
    split_ifs with he
    · exact he.symm
    · rfl
  rw [firstClass_append, hlast, ite_not]

/-- Where no element is other, neither is the path but for the lack of a class. -/
theorem firstClass_ne_other (hmask : ∀ e, mask e ≠ other) {names : List (List UInt8)}
    (h : firstClass mask 0 names ≠ 0) : firstClass mask 0 names ≠ other := by
  induction names with
  | nil => exact absurd rfl h
  | cons e names ih =>
    rw [firstClass_cons] at h ⊢
    split_ifs at h ⊢ with he
    · exact ih h
    · exact hmask e

end FirstClass

theorem classMask_ne_other (trunk branches tags : List CWildCardPattern) (e : List UInt8) :
    classMask trunk branches tags e ≠ IS_OTHER := by
  unfold classMask
  split_ifs <;> decide

/-! ### Elements -/

section Elements

variable {elements : CStringDictionary} {trunk branches tags : List CWildCardPattern} {i : ℕ}

theorem getElem?_addClass (patterns : List CWildCardPattern) (classification : UInt8)
    (classes : List UInt8) : (addClass elements patterns classification classes)[i]? =
      classes[i]?.map fun c => c ||| if Matches patterns (elements.get i) (elements.getLength i) then
        classification else 0 := by
  rw [addClass, List.getElem?_mapIdx]
  congr 1
  funext c
  split_ifs
  · rfl
  · exact UInt8.or_zero.symm

theorem unique_getLength (h : elements.Unique) (hi : i < elements.size) :
    elements.getLength i = (elements.get i).length := by
  obtain ⟨ws, rfl, hnul, -⟩ := h
  rw [CStringDictionary.pack_size] at hi
  have hget := List.getElem?_eq_getElem hi
  rw [CStringDictionary.get_pack hnul hget, CStringDictionary.getLength_pack hget]

/-- Every element has its classes. -/
theorem getElem?_classifyPathElements (h : elements.Unique) (hi : i < elements.size) :
    (ClassifyPathElements elements trunk branches tags)[i]? =
      some (classMask trunk branches tags (elements.get i)) := by
  have hzero : (List.replicate elements.size (0 : UInt8))[i]? = some 0 :=
    List.getElem?_replicate_of_lt hi
  rw [ClassifyPathElements, getElem?_addClass, getElem?_addClass, getElem?_addClass, hzero,
    unique_getLength h hi, classMask]
  simp only [Option.map_some, UInt8.zero_or]

theorem matchElement_zero (c : CPathClassificator) (e : List UInt8) : c.matchElement e e.length 0 =
    classMask c.trunkPatterns c.branchesPatterns c.tagsPatterns e := by
  unfold matchElement classMask
  split_ifs <;> rfl

end Elements

/-! ### Cached paths -/

section Paths

variable {d : CPathDictionary} {trunk branches tags : List CWildCardPattern}

/-- The classes of the first paths are right. -/
def Classified (d : CPathDictionary) (mask : List UInt8 → UInt8) (count : ℕ)
    (classes : List UInt8) : Prop :=
  classes.length = d.size ∧
    ∀ i < count, ∀ ns, d.Named i ns → classes[i]? = some (firstClass mask 0 ns)

/-- One more path. -/
theorem pathRound_spec (h : d.Built) {mask : List UInt8 → UInt8} {table classes : List UInt8}
    (htable : ∀ e < d.pathElements.size, table[e]? = some (mask (d.pathElements.get e))) {i : ℕ}
    (hpos : 0 < i) (hi : i < d.size) (hclasses : Classified d mask i classes) :
    ∃ classes', pathRound d table i classes = .ok classes' ∧
      Classified d mask (i + 1) classes' := by
  obtain ⟨j, e, hentry, hj, he⟩ := h.entry hpos hi
  obtain ⟨ns, hns⟩ := h.exists_named (hj.trans hi)
  have hparent : d.getParent (i : Index) = .ok (j : Index) := by
    rw [CPathDictionary.getParent, CPathDictionary.entry_coe hentry]
    rfl
  have helement : d.getPathElementID (i : Index) = .ok (e : Index) := by
    rw [CPathDictionary.getPathElementID, CPathDictionary.entry_coe hentry]
    rfl
  have hparentClass : classAt classes (j : Index) = .ok (firstClass mask 0 ns) := by
    show checked classes[j]? = _
    rw [hclasses.2 j hj ns hns]
    rfl
  have helementClass : classAt table (e : Index) = .ok (mask (d.pathElements.get e)) := by
    show checked table[e]? = _
    rw [htable e he]
    rfl
  refine ⟨classes.set i (firstClass mask 0 (ns ++ [d.pathElements.get e])), ?_, ?_, ?_⟩
  · rw [pathRound, hparent, helement]
    simp only [bind, Except.bind]
    rw [hparentClass]
    dsimp only
    rw [firstClass_concat]
    split_ifs
    · rfl
    · rw [helementClass]
      rfl
  · rw [List.length_set]
    exact hclasses.1
  · intro k hk ms hms
    rcases Nat.lt_succ_iff_lt_or_eq.mp hk with hk | rfl
    · rw [List.getElem?_set_ne hk.ne']
      exact hclasses.2 k hk ms hms
    · obtain rfl := hms.unique (.child hpos hentry hns)
      rw [List.getElem?_set_self (hclasses.1.symm ▸ hi)]

/-- **Every cached path has the topmost class among its elements.** -/
theorem classifyPaths_spec (h : d.Built) {mask : List UInt8 → UInt8} {table : List UInt8}
    (htable : ∀ e < d.pathElements.size, table[e]? = some (mask (d.pathElements.get e))) :
    ∃ classes, ClassifyPaths d table = .ok classes ∧
      ∀ i ns, d.Named i ns → classes[i]? = some (firstClass mask IS_OTHER ns) := by
  have hstart : Classified d mask 1 (List.replicate d.size 0) := by
    refine ⟨List.length_replicate, fun i hi ns hns => ?_⟩
    obtain rfl := Nat.lt_one_iff.mp hi
    obtain rfl := hns.unique .root
    exact List.getElem?_replicate_of_lt h.size_pos
  obtain ⟨classes, hrun, hclasses⟩ := rounds_ok (fun i => Classified d mask i)
    (n := d.size - 1) (fun i s hle hlt hs => pathRound_spec h htable hle (by omega) hs) hstart
  refine ⟨classes.map fun c => if c = 0 then IS_OTHER else c, ?_, fun i ns hns => ?_⟩
  · rw [ClassifyPaths, hrun]
    rfl
  · have hi : i < 1 + (d.size - 1) := by
      have hlt := hns.lt_size h
      omega
    rw [List.getElem?_map, hclasses.2 i hi ns hns, firstClass_eq mask IS_OTHER]
    rfl

/-! ### Paths that are partly cached -/

/-- The elements behind a base are classified as if they were cached. -/
theorem elementsLoop_eq {c : CPathClassificator} (h : d.pathElements.Unique)
    (htable : ∀ e < d.pathElements.size, c.pathElementClassification[e]? =
      some (classMask c.trunkPatterns c.branchesPatterns c.tagsPatterns (d.pathElements.get e)))
    {es : List (List UInt8)} (hes : CStringDictionary.NulFree es) (result : UInt8) :
    c.elementsLoop d.pathElements es result = .ok (if result = 0 then
      firstClass (classMask c.trunkPatterns c.branchesPatterns c.tagsPatterns) 0 es else result) := by
  induction es generalizing result with
  | nil =>
    have hnil : (if result = 0 then (0 : UInt8) else result) = result := by
      split_ifs with hzero
      · exact hzero.symm
      · rfl
    exact congrArg Except.ok hnil.symm
  | cons e es ih =>
    obtain ⟨he, hes⟩ := List.forall_mem_cons.mp hes
    rw [elementsLoop]
    by_cases hzero : result = 0
    · rw [if_pos hzero, if_pos hzero, firstClass_cons, hzero,
        CDictionaryBasedTempPath.cString_eq he]
      dsimp only
      split
      · rename_i elementID hfind
        obtain ⟨hlt, hget⟩ := h.find hfind
        have hclass : classAt c.pathElementClassification (elementID : Index) =
            .ok (classMask c.trunkPatterns c.branchesPatterns c.tagsPatterns e) := by
          show checked c.pathElementClassification[elementID]? = _
          rw [htable elementID hlt, hget]
          rfl
        rw [hclass]
        simp only [bind, Except.bind]
        rw [ih hes, UInt8.zero_or]
      · rw [ih hes, matchElement_zero]
    · rw [if_neg hzero, if_neg hzero]

end Paths

/-- **The class of a path is that of its first element with one, wherever the cached part of the
path ends.** -/
theorem getClassification_eq {d : CPathDictionary} (h : CPathDictionary.Run d)
    (trunkPatterns branchesPatterns tagsPatterns : List UInt8) :
    ∃ c, ofPatterns d trunkPatterns branchesPatterns tagsPatterns = .ok c ∧
      ∀ (path : CDictionaryBasedTempPath) (i : ℕ) (base : List (List UInt8)),
        path.index = (i : Index) → d.Named i base →
        CStringDictionary.NulFree path.relPathElements →
        c.GetClassification d path = .ok (firstClass
          (classMask (ParsePatterns trunkPatterns) (ParsePatterns branchesPatterns)
            (ParsePatterns tagsPatterns)) IS_OTHER (base ++ path.relPathElements)) := by
  have hd := h.built
  have htable : ∀ e < d.pathElements.size,
      (ClassifyPathElements d.pathElements (ParsePatterns trunkPatterns)
        (ParsePatterns branchesPatterns) (ParsePatterns tagsPatterns))[e]? =
      some (classMask (ParsePatterns trunkPatterns) (ParsePatterns branchesPatterns)
        (ParsePatterns tagsPatterns) (d.pathElements.get e)) :=
    fun e he => getElem?_classifyPathElements hd.pool he
  obtain ⟨classes, hclassify, hclasses⟩ := classifyPaths_spec hd htable
  refine ⟨_, by rw [ofPatterns, hclassify]; rfl, fun path i base hindex hbase hnul => ?_⟩
  have hresult : classAt classes (i : Index) = .ok (firstClass (classMask
      (ParsePatterns trunkPatterns) (ParsePatterns branchesPatterns) (ParsePatterns tagsPatterns))
      IS_OTHER base) := by
    show checked classes[i]? = _
    rw [hclasses i base hbase]
    rfl
  rw [GetClassification, hindex]
  dsimp only
  rw [hresult]
  simp only [bind, Except.bind]
  by_cases hcached : path.isFullyCachedPath = true
  · rw [if_pos hcached, List.isEmpty_iff.mp hcached, List.append_nil]
    rfl
  · rw [if_neg hcached, elementsLoop_eq hd.pool htable hnul, if_pos rfl, firstClass_append,
      firstClass_eq _ IS_OTHER base]
    by_cases hnone : firstClass (classMask (ParsePatterns trunkPatterns)
        (ParsePatterns branchesPatterns) (ParsePatterns tagsPatterns)) 0 base = 0
    · rw [if_pos hnone, if_pos hnone, if_neg (not_not.mpr rfl),
        firstClass_eq _ IS_OTHER path.relPathElements]
      rfl
    · rw [if_neg hnone, if_neg hnone,
        if_pos (firstClass_ne_other (classMask_ne_other _ _ _) hnone)]
      rfl

/-- A dictionary with one path, and the patterns `t`, `b*` and none. -/
theorem getClassification_eq_child : ∃ c, ofPatterns
    (CPathDictionary.init.autoInsert (0 : ℕ) [116]).1 [116] [98, 42] [] = .ok c ∧
      ∀ (path : CDictionaryBasedTempPath) (i : ℕ) (base : List (List UInt8)),
        path.index = (i : Index) → (CPathDictionary.init.autoInsert (0 : ℕ) [116]).1.Named i base →
        CStringDictionary.NulFree path.relPathElements →
        c.GetClassification (CPathDictionary.init.autoInsert (0 : ℕ) [116]).1 path =
          .ok (firstClass (classMask (ParsePatterns [116]) (ParsePatterns [98, 42])
            (ParsePatterns [])) IS_OTHER (base ++ path.relPathElements)) :=
  getClassification_eq (.autoInsert .init (by decide) (by decide)) [116] [98, 42] []

end CPathClassificator

end TortoiseSvn
