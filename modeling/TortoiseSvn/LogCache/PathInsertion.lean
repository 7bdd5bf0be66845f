import Mathlib.Data.List.TakeWhile
import TortoiseSvn.LogCache.PathOrder

/-!
# Adding paths to a dictionary

Paths are added element by element. Read from the root on, the elements of a path are its names, and
a dictionary that was built by adding paths has every list of names at one index only. In terms of
names, a path lies above another one iff its names begin those of the other.

Main result: `merge_spec`. A merge keeps the paths that are there, and every path of the source gets
the index of its names.
-/

namespace TortoiseSvn.LogCache

open TortoiseSvn.Lib

namespace CPathDictionary

/-! ### Operations -/

/-- Source: `PathDictionary.cpp` `CPathDictionary::Find` -/
def find (d : CPathDictionary) (parent : Index) (pathElement : List UInt8) : Option ℕ :=
  match d.pathElements.find pathElement with
  | none => none
  | some element => CIndexPairDictionary.findPair d.paths (parent, (element : Index))

/-- Add a path that `Find` has not found.
Source: `PathDictionary.cpp` `CPathDictionary::Insert` -/
def insert (d : CPathDictionary) (parent : Index) (pathElement : List UInt8) :
    CPathDictionary × ℕ :=
  let (pathElements, element) := d.pathElements.autoInsert pathElement
  (⟨pathElements, d.paths ++ [(parent, (element : Index))]⟩, d.paths.length)

/-- The elements of a path, each up to a terminator in it.
Source: `PathDictionary.cpp` `CDictionaryBasedPath::ParsePath`, the scanning -/
def elementsOf (path : List UInt8) : List (List UInt8) :=
  ((if path.head? = some 47 then path.tail else path).splitOn 47).map
    (List.takeWhile fun b => b ≠ 0)

/-- Move on from a path, adding what is not there.
Source: `PathDictionary.cpp` `CDictionaryBasedPath::ParsePath`, the loop -/
def descend (d : CPathDictionary) (currentIndex : ℕ) :
    List (List UInt8) → CPathDictionary × ℕ
  | [] => (d, currentIndex)
  | pathElement :: rest =>
    match d.find currentIndex pathElement with
    | some nextIndex => descend d nextIndex rest
    | none =>
      let (d, nextIndex) := d.insert currentIndex pathElement
      descend d nextIndex rest

/-- The index of a path, which is added if it is not there.
Source: `PathDictionary.cpp` `CDictionaryBasedPath::ParsePath` with a writable dictionary -/
def parsePath (d : CPathDictionary) (path : List UInt8) : CPathDictionary × ℕ :=
  if path = [] then (d, 0) else d.descend 0 (elementsOf path)

/-- What an index is mapped to; `NO_INDEX` is mapped to itself.
Source: `PathDictionary.cpp` `CPathDictionary::Merge`, the result -/
def mapped (mapping : List ℕ) (index : Index) : Except Fault Index :=
  match index with
  | ⊤ => .ok ⊤
  | (i : ℕ) => (checked mapping[i]?).map fun j => (j : Index)

/-- The loop of `Merge` over the paths of the source.
Source: `PathDictionary.cpp` `CPathDictionary::Merge` -/
def mergeLoop (elementMapping : List ℕ) : List (Index × Index) → List (Index × Index) → List ℕ →
    Except Fault (List (Index × Index) × List ℕ)
  | [], paths, mapping => .ok (paths, mapping)
  | sourcePath :: rest, paths, mapping => do
    let parent ← mapped mapping sourcePath.1
    let element ← match sourcePath.2 with
      | ⊤ => .error .undefined
      | (i : ℕ) => checked elementMapping[i]?
    let (paths, index) := Pool.autoInsert paths (parent, (element : Index))
    mergeLoop elementMapping rest paths (mapping ++ [index])

/-- Add the paths of another dictionary; the result maps its indices.
Source: `PathDictionary.cpp` `CPathDictionary::Merge` -/
def merge (d source : CPathDictionary) : Except Fault (CPathDictionary × List ℕ) := do
  let (pathElements, elementMapping) := d.pathElements.merge source.pathElements
  let (paths, mapping) ← mergeLoop elementMapping (source.paths.drop 1) d.paths [0]
  return (⟨pathElements, paths⟩, mapping)

/-! ### Names -/

/-- The path at an index has the names `ns`. -/
inductive Named (d : CPathDictionary) : ℕ → List (List UInt8) → Prop
  | root : Named d 0 []
  | child {i j e : ℕ} {ns : List (List UInt8)} : 0 < i →
      d.paths[i]? = some ((j : Index), (e : Index)) → Named d j ns →
      Named d i (ns ++ [d.pathElements.get e])

/-- A dictionary to which paths were added one by one. -/
structure Built (d : CPathDictionary) : Prop where
  pool : d.pathElements.Unique
  tree : d.Tree
  elements : d.HasElements
  nodup : d.paths.Nodup

/-- All paths and elements are still there. -/
structure Extends (d d' : CPathDictionary) : Prop where
  elements : d.pathElements.Extends d'.pathElements
  paths : d.paths <+: d'.paths

section Names

variable {d d' : CPathDictionary} {i j : ℕ} {ns ms : List (List UInt8)}

theorem Built.init : (CPathDictionary.init).Built where
  pool := .init
  tree := by
    refine ⟨⟨_, rfl⟩, fun i p hi hp => ?_⟩
    rw [CPathDictionary.init] at hp
    rw [List.getElem?_singleton, if_neg hi.ne'] at hp
    exact nomatch hp
  elements := by
    intro i p hi hp
    rw [CPathDictionary.init] at hp
    rw [List.getElem?_singleton, if_neg hi.ne'] at hp
    exact nomatch hp
  nodup := List.nodup_singleton _

theorem Built.size_pos (h : d.Built) : 0 < d.size := by
  obtain ⟨element, hroot⟩ := h.tree.root
  exact (List.getElem?_eq_some_iff.mp hroot).1

/-- The entry of a path other than the root. -/
theorem Built.entry (h : d.Built) (hpos : 0 < i) (hi : i < d.size) :
    ∃ j e : ℕ, d.paths[i]? = some ((j : Index), (e : Index)) ∧ j < i ∧ e < d.pathElements.size := by
  obtain ⟨p, hp⟩ := exists_entry hi
  obtain ⟨j, hj, hlt⟩ := h.tree.parent i p hpos hp
  obtain ⟨e, he, hsize⟩ := h.elements i p hpos hp
  exact ⟨j, e, by rw [hp, ← hj, ← he], hlt, hsize⟩

theorem Named.lt_size (h : d.Named i ns) (hd : d.Built) : i < d.size := by
  cases h with
  | root => exact hd.size_pos
  | child _ hp _ => exact (List.getElem?_eq_some_iff.mp hp).1

theorem Named.unique (h : d.Named i ns) (h' : d.Named i ms) : ns = ms := by
  induction h generalizing ms with
  | root =>
    cases h' with
    | root => rfl
    | child hpos _ _ => exact absurd hpos (lt_irrefl 0)
  | child hpos hp _ ih =>
    cases h' with
    | root => exact absurd hpos (lt_irrefl 0)
    | child _ hp' hn' =>
      obtain ⟨hj, he⟩ := Prod.mk.inj (Option.some.inj (hp.symm.trans hp'))
      obtain rfl := Nat.cast_injective (R := Index) hj
      obtain rfl := Nat.cast_injective (R := Index) he
      rw [ih hn']

theorem Built.exists_named (h : d.Built) (hi : i < d.size) : ∃ ns, d.Named i ns := by
  induction i using Nat.strong_induction_on with
  | _ i ih =>
    rcases Nat.eq_zero_or_pos i with rfl | hpos
    · exact ⟨[], .root⟩
    · obtain ⟨j, e, hp, hlt, -⟩ := h.entry hpos hi
      obtain ⟨ns, hns⟩ := ih j hlt (hlt.trans hi)
      exact ⟨_, .child hpos hp hns⟩

/-- A list of names has one index. -/
theorem Built.named_inj (h : d.Built) (hi : d.Named i ns) (hj : d.Named j ns) : i = j := by
  induction hi generalizing j with
  | root =>
    generalize hnil : ([] : List (List UInt8)) = ms at hj
    cases hj with
    | root => rfl
    | child _ _ _ => exact absurd hnil.symm (List.append_ne_nil_of_right_ne_nil _ (List.cons_ne_nil _ _))
  | @child i k e ns hpos hp hn ih =>
    generalize hcons : ns ++ [d.pathElements.get e] = ms at hj
    cases hj with
    | root => exact absurd hcons (List.append_ne_nil_of_right_ne_nil _ (List.cons_ne_nil _ _))
    | @child _ k' e' ns' hpos' hp' hn' =>
      obtain ⟨hns, hget⟩ := List.append_inj' hcons rfl
      subst hns
      obtain rfl := ih hn'
      have hsize : ∀ {i k e : ℕ}, 0 < i → d.paths[i]? = some ((k : Index), (e : Index)) →
          e < d.pathElements.size := by
        intro i k e hpos hp
        obtain ⟨e', he', hlt⟩ := h.elements i _ hpos hp
        obtain rfl := Nat.cast_injective (R := Index) he'
        exact hlt
      obtain rfl := h.pool.get_inj (hsize hpos hp) (hsize hpos' hp') (List.cons.inj hget).1
      obtain ⟨hlt, hget₁⟩ := List.getElem?_eq_some_iff.mp hp
      obtain ⟨hlt', hget₂⟩ := List.getElem?_eq_some_iff.mp hp'
      exact (h.nodup.getElem_inj_iff).mp (hget₁.trans hget₂.symm)

/-- A path lies above another one iff its names begin those of the other. -/
theorem Built.above_iff_prefix (h : d.Built) (hi : d.Named i ns) (hj : d.Named j ms) :
    d.Above i j ↔ ns <+: ms := by
  constructor
  · intro ha
    induction ha generalizing ms with
    | refl => exact (hi.unique hj) ▸ List.prefix_refl ns
    | parent hp hk _ ih =>
      cases hj with
      | root =>
        obtain ⟨element, hroot⟩ := h.tree.root
        rw [hroot] at hp
        obtain rfl := Option.some.inj hp
        exact absurd hk.symm (WithTop.natCast_ne_top _)
      | child _ hp' hn =>
        obtain rfl := Option.some.inj (hp.symm.trans hp')
        obtain rfl := Nat.cast_injective (R := Index) hk
        exact (ih hn).trans (List.prefix_append _ _)
  · intro hpre
    induction hj with
    | root =>
      obtain rfl := List.prefix_nil.mp hpre
      obtain rfl := h.named_inj hi .root
      exact .refl 0
    | child hpos hp hn ih =>
      rcases List.prefix_concat_iff.mp hpre with rfl | hpre
      · obtain rfl := h.named_inj hi (.child hpos hp hn)
        exact .refl i
      · exact .parent hp rfl (ih hpre)

/-- The first names of a path are those of a path above it. -/
theorem Named.of_prefix (h : d.Named i ns) (hpre : ms <+: ns) : ∃ a, d.Named a ms := by
  induction h with
  | root =>
    obtain rfl := List.prefix_nil.mp hpre
    exact ⟨0, .root⟩
  | child hpos hp hn ih =>
    rcases List.prefix_concat_iff.mp hpre with rfl | hpre
    · exact ⟨_, .child hpos hp hn⟩
    · exact ih hpre

/-- The common root of two paths has their common names. -/
theorem Built.commonRoot (h : d.Built) (hi : d.Named i ns) (hj : d.Named j ms) :
    ∃ (r : ℕ) (rs : List (List UInt8)), d.commonRoot (i : Index) (j : Index) = .ok (r : Index) ∧
      d.Named r rs ∧ ∀ ps, ps <+: rs ↔ ps <+: ns ∧ ps <+: ms := by
  obtain ⟨r, hr, hroot, habove⟩ := commonRoot_spec h.tree (hi.lt_size h) (hj.lt_size h)
  obtain ⟨rs, hrs⟩ := h.exists_named hr
  refine ⟨r, rs, hroot, hrs, fun ps => ⟨fun hps => ?_, fun ⟨hps, hps'⟩ => ?_⟩⟩
  · obtain ⟨hri, hrj⟩ := (habove r).mp (.refl r)
    exact ⟨hps.trans ((h.above_iff_prefix hrs hi).mp hri),
      hps.trans ((h.above_iff_prefix hrs hj).mp hrj)⟩
  · obtain ⟨a, ha⟩ := hi.of_prefix hps
    apply (h.above_iff_prefix ha hrs).mp
    exact (habove a).mpr ⟨(h.above_iff_prefix ha hi).mpr hps, (h.above_iff_prefix ha hj).mpr hps'⟩

theorem Named.extends (h : d.Named i ns) (hd : d.Built) (hext : d.Extends d') : d'.Named i ns := by
  induction h with
  | root => exact .root
  | @child i j e ns hpos hp _ ih =>
    obtain ⟨e', he', hlt⟩ := hd.elements i _ hpos hp
    obtain rfl := Nat.cast_injective (R := Index) he'
    rw [← hext.elements.get e hlt]
    obtain ⟨rest, hrest⟩ := hext.paths
    refine .child hpos ?_ ih
    rw [← hrest, List.getElem?_append_left (List.getElem?_eq_some_iff.mp hp).1]
    exact hp

theorem Extends.refl (d : CPathDictionary) : d.Extends d :=
  ⟨.refl _, List.prefix_refl _⟩

theorem Extends.trans {d'' : CPathDictionary} (h : d.Extends d') (h' : d'.Extends d'') :
    d.Extends d'' :=
  ⟨h.elements.trans h'.elements, h.paths.trans h'.paths⟩

end Names

/-! ### Adding paths -/

section Adding

variable {d : CPathDictionary} {i : ℕ} {ns : List (List UInt8)}

/-- A pair whose parent is a path and that is not there yet. -/
theorem Built.append (h : d.Built) {pool : CStringDictionary} (hpool : pool.Unique)
    (hext : d.pathElements.Extends pool) {e : ℕ} (hi : i < d.size) (he : e < pool.size)
    (hnew : ((i : Index), (e : Index)) ∉ d.paths) :
    (CPathDictionary.mk pool (d.paths ++ [((i : Index), (e : Index))])).Built := by
  have hlast : ∀ k p, (d.paths ++ [((i : Index), (e : Index))])[k]? = some p →
      d.paths[k]? = some p ∨ k = d.size ∧ p = ((i : Index), (e : Index)) := by
    intro k p hp
    rcases Nat.lt_or_ge k d.size with hk | hk
    · rw [List.getElem?_append_left hk] at hp
      exact .inl hp
    · rw [List.getElem?_append_right hk, List.getElem?_singleton] at hp
      split at hp
      · rename_i h0
        refine .inr ⟨?_, (Option.some.inj hp).symm⟩
        unfold size at hk ⊢
        omega
      · exact nomatch hp
  refine ⟨hpool, ⟨?_, fun k p hk hp => ?_⟩, fun k p hk hp => ?_, ?_⟩
  · obtain ⟨element, hroot⟩ := h.tree.root
    refine ⟨element, ?_⟩
    rw [List.getElem?_append_left h.size_pos]
    exact hroot
  · rcases hlast k p hp with hp | ⟨rfl, rfl⟩
    · exact h.tree.parent k p hk hp
    · exact ⟨i, rfl, hi⟩
  · rcases hlast k p hp with hp | ⟨rfl, rfl⟩
    · obtain ⟨e', he', hlt⟩ := h.elements k p hk hp
      exact ⟨e', he', hlt.trans_le hext.size⟩
    · exact ⟨e, rfl, he⟩
  · refine List.nodup_append.mpr ⟨h.nodup, List.nodup_singleton _, fun p hp q hq => ?_⟩
    rw [List.mem_singleton.mp hq]
    rintro rfl
    exact hnew hp

/-- What is found has the names of the parent and the element. -/
theorem Built.named_of_find (h : d.Built) (hi : d.Named i ns) {s : List UInt8} {k : ℕ}
    (hfind : d.find i s = some k) : d.Named k (ns ++ [s]) := by
  unfold CPathDictionary.find at hfind
  cases hs : d.pathElements.find s with
  | none =>
    rw [hs] at hfind
    exact nomatch hfind
  | some e =>
    rw [hs] at hfind
    have hp := Pool.getElem?_of_find hfind
    rw [← (h.pool.find hs).2]
    refine .child (Nat.pos_of_ne_zero ?_) hp hi
    rintro rfl
    obtain ⟨element, hroot⟩ := h.tree.root
    rw [hroot] at hp
    exact absurd (Prod.mk.inj (Option.some.inj hp)).1.symm (WithTop.natCast_ne_top _)

/-- A path that is not found is added. -/
theorem Built.insert (h : d.Built) (hi : d.Named i ns) {s : List UInt8} (hs : (0 : UInt8) ∉ s)
    (hfind : d.find i s = none) : (d.insert i s).1.Built ∧ d.Extends (d.insert i s).1 ∧
      (d.insert i s).1.Named (d.insert i s).2 (ns ++ [s]) := by
  obtain ⟨hunique, hext, hlt, hget⟩ := h.pool.autoInsert hs
  have hnew : ((i : Index), ((d.pathElements.autoInsert s).2 : Index)) ∉ d.paths := by
    intro hmem
    unfold CPathDictionary.find at hfind
    unfold CStringDictionary.autoInsert at hmem
    cases hs : d.pathElements.find s with
    | some e =>
      rw [hs] at hfind hmem
      exact Pool.find_eq_none.mp hfind hmem
    | none =>
      rw [hs] at hmem
      -- a new element is in no pair
      obtain ⟨k, hk⟩ := List.mem_iff_getElem?.mp hmem
      rcases Nat.eq_zero_or_pos k with rfl | hpos
      · obtain ⟨element, hroot⟩ := h.tree.root
        rw [hroot] at hk
        exact absurd (Prod.mk.inj (Option.some.inj hk)).1.symm (WithTop.natCast_ne_top _)
      · obtain ⟨e, he, hlt⟩ := h.elements k _ hpos hk
        obtain rfl := Nat.cast_injective (R := Index) he
        exact absurd hlt (lt_irrefl _)
  have hbuilt := h.append hunique hext (hi.lt_size h) hlt hnew
  have hextends : d.Extends (d.insert i s).1 := ⟨hext, List.prefix_append _ _⟩
  refine ⟨hbuilt, hextends, ?_⟩
  have hnamed : (d.insert i s).1.Named d.size
      (ns ++ [(d.insert i s).1.pathElements.get (d.pathElements.autoInsert s).2]) := by
    refine .child h.size_pos ?_ (hi.extends h hextends)
    exact List.getElem?_concat_length
  rw [show (d.insert i s).1.pathElements = (d.pathElements.autoInsert s).1 from rfl, hget] at hnamed
  exact hnamed

theorem Built.descend (h : d.Built) (hi : d.Named i ns) {ss : List (List UInt8)}
    (hss : CStringDictionary.NulFree ss) : (d.descend i ss).1.Built ∧ d.Extends (d.descend i ss).1 ∧
      (d.descend i ss).1.Named (d.descend i ss).2 (ns ++ ss) := by
  induction ss generalizing d i ns with
  | nil =>
    rw [List.append_nil]
    exact ⟨h, .refl d, hi⟩
  | cons s ss ih =>
    obtain ⟨hs, hss⟩ := List.forall_mem_cons.mp hss
    rw [CPathDictionary.descend, List.append_cons]
    cases hfind : d.find i s with
    | some k => exact ih h (h.named_of_find hi hfind) hss
    | none =>
      obtain ⟨hbuilt, hext, hnamed⟩ := h.insert hi hs hfind
      obtain ⟨hbuilt', hext', hnamed'⟩ := ih hbuilt hnamed hss
      exact ⟨hbuilt', hext.trans hext', hnamed'⟩

/-- The names of a path. -/
def namesOf (path : List UInt8) : List (List UInt8) := if path = [] then [] else elementsOf path

theorem nulFree_elementsOf (path : List UInt8) : CStringDictionary.NulFree (elementsOf path) := by
  intro w hw
  obtain ⟨e, -, rfl⟩ := List.mem_map.mp hw
  intro h0
  simpa using List.mem_takeWhile_imp h0

/-- A path that is parsed is added under its names. -/
theorem Built.parsePath (h : d.Built) (path : List UInt8) : (d.parsePath path).1.Built ∧
    d.Extends (d.parsePath path).1 ∧
      (d.parsePath path).1.Named (d.parsePath path).2 (namesOf path) := by
  unfold CPathDictionary.parsePath namesOf
  split
  · exact ⟨h, .refl d, .root⟩
  · have hd := h.descend .root (nulFree_elementsOf path)
    rwa [List.nil_append] at hd

/-- The names that a mapping of path indices keeps. -/
def Maps (d source : CPathDictionary) (mapping : List ℕ) (count : ℕ) : Prop :=
  mapping.length = count ∧ ∀ i < count, ∀ ns, source.Named i ns →
    ∃ j, mapping[i]? = some j ∧ d.Named j ns

theorem mapped_coe (mapping : List ℕ) (i : ℕ) : mapped mapping (i : Index) =
    (checked mapping[i]?).map fun j => (j : Index) := rfl

theorem mergeLoop_spec {source : CPathDictionary} (hs : source.Built)
    {pool : CStringDictionary} {elements : List ℕ}
    (helements : ∀ e < source.pathElements.size, ∃ e', elements[e]? = some e' ∧
      e' < pool.size ∧ pool.get e' = source.pathElements.get e)
    {rest paths : List (Index × Index)} {mapping : List ℕ}
    (hd : (CPathDictionary.mk pool paths).Built) {count : ℕ} (hpos : 0 < count)
    (hrest : source.paths.drop count = rest)
    (hmaps : Maps ⟨pool, paths⟩ source mapping count) :
    ∃ paths' mapping', mergeLoop elements rest paths mapping = .ok (paths', mapping') ∧
      (CPathDictionary.mk pool paths').Built ∧ paths <+: paths' ∧
      Maps ⟨pool, paths'⟩ source mapping' (max count source.size) := by
  induction rest generalizing paths mapping count with
  | nil =>
    have hle : source.size ≤ count := List.drop_eq_nil_iff.mp hrest
    refine ⟨paths, mapping, rfl, hd, List.prefix_refl _, ?_⟩
    rw [max_eq_left hle]
    exact hmaps
  | cons p rest ih =>
    have hlt : count < source.size := by
      by_contra hge
      rw [List.drop_eq_nil_of_le (not_lt.mp hge)] at hrest
      exact nomatch hrest
    obtain ⟨j, e, hp, hj, he⟩ := hs.entry hpos hlt
    have hhead : p = ((j : Index), (e : Index)) ∧ source.paths.drop (count + 1) = rest := by
      rw [List.drop_eq_getElem_cons hlt] at hrest
      obtain ⟨h₁, h₂⟩ := List.cons.inj hrest
      refine ⟨?_, h₂⟩
      rw [List.getElem?_eq_getElem hlt] at hp
      exact h₁.symm.trans (Option.some.inj hp)
    obtain ⟨rfl, htail⟩ := hhead
    obtain ⟨ns, hns⟩ := hs.exists_named (hj.trans hlt)
    obtain ⟨j', hj', hnamed⟩ := hmaps.2 j hj ns hns
    obtain ⟨e', he', hsize, hget⟩ := helements e he
    have hmapped : mapped mapping (j : Index) = .ok (j' : Index) := by
      rw [mapped_coe, hj']
      rfl
    -- the pair is there or is appended
    have hnext : (CPathDictionary.mk pool
          (Pool.autoInsert paths ((j' : Index), (e' : Index))).1).Built ∧
        paths <+: (Pool.autoInsert paths ((j' : Index), (e' : Index))).1 ∧
        0 < (Pool.autoInsert paths ((j' : Index), (e' : Index))).2 := by
      refine ⟨?_, Pool.prefix_autoInsert _ _, ?_⟩
      · unfold Pool.autoInsert
        split
        · exact hd
        · rename_i hnone
          exact hd.append hd.pool (.refl _) (hnamed.lt_size hd) hsize (Pool.find_eq_none.mp hnone)
      · refine Nat.pos_of_ne_zero fun h0 => ?_
        have hget := Pool.autoInsert_getElem? paths ((j' : Index), (e' : Index))
        have hpre := Pool.prefix_autoInsert paths ((j' : Index), (e' : Index))
        obtain ⟨tail, htail⟩ := hpre
        obtain ⟨element, hroot⟩ := hd.tree.root
        rw [h0, ← htail, List.getElem?_append_left hd.size_pos, hroot] at hget
        exact absurd (Prod.mk.inj (Option.some.inj hget)).1.symm (WithTop.natCast_ne_top _)
    obtain ⟨hbuilt, hpre, hindex⟩ := hnext
    have hext : (CPathDictionary.mk pool paths).Extends
        ⟨pool, (Pool.autoInsert paths ((j' : Index), (e' : Index))).1⟩ := ⟨.refl _, hpre⟩
    have hmaps' : Maps ⟨pool, (Pool.autoInsert paths ((j' : Index), (e' : Index))).1⟩ source
        (mapping ++ [(Pool.autoInsert paths ((j' : Index), (e' : Index))).2]) (count + 1) := by
      refine ⟨by rw [List.length_append, hmaps.1]; rfl, fun i hi ms hms => ?_⟩
      rcases Nat.lt_succ_iff_lt_or_eq.mp hi with hi | rfl
      · obtain ⟨k, hk, hnamed⟩ := hmaps.2 i hi ms hms
        refine ⟨k, ?_, hnamed.extends hd hext⟩
        rw [List.getElem?_append_left (by rw [hmaps.1]; exact hi), hk]
      · refine ⟨(Pool.autoInsert paths ((j' : Index), (e' : Index))).2, ?_, ?_⟩
        · rw [← hmaps.1]
          exact List.getElem?_concat_length
        · obtain rfl := hms.unique (.child hpos hp hns)
          rw [← hget]
          exact .child hindex (Pool.autoInsert_getElem? _ _) (hnamed.extends hd hext)
    obtain ⟨paths', mapping', hloop, hbuilt', hpre', hmaps''⟩ :=
      ih hbuilt (Nat.succ_pos count) htail hmaps'
    refine ⟨paths', mapping', ?_, hbuilt', hpre.trans hpre', ?_⟩
    · rw [mergeLoop, hmapped]
      show (do
        let element ← checked elements[e]?
        _) = _
      rw [he']
      exact hloop
    · rwa [max_eq_right hlt.le, ← max_eq_right (Nat.succ_le_of_lt hlt)]

/-- **A merge keeps the paths that are there, and gives every path of the source the index of its
names.** -/
theorem Built.merge_spec (h : d.Built) {source : CPathDictionary} (hs : source.Built) :
    ∃ d' mapping, d.merge source = .ok (d', mapping) ∧ d'.Built ∧ d.Extends d' ∧
      Maps d' source mapping source.size := by
  obtain ⟨hunique, hext, helements⟩ := h.pool.merge hs.pool
  have hd : (CPathDictionary.mk (d.pathElements.merge source.pathElements).1 d.paths).Built :=
    ⟨hunique, ⟨h.tree.root, h.tree.parent⟩, fun i p hi hp => by
      obtain ⟨e, he, hlt⟩ := h.elements i p hi hp
      exact ⟨e, he, hlt.trans_le hext.size⟩, h.nodup⟩
  have hmaps : Maps ⟨(d.pathElements.merge source.pathElements).1, d.paths⟩ source [0] 1 := by
    refine ⟨rfl, fun i hi ns hns => ?_⟩
    obtain rfl := Nat.lt_one_iff.mp hi
    obtain rfl := hns.unique .root
    exact ⟨0, rfl, .root⟩
  obtain ⟨paths', mapping', hloop, hbuilt, hpre, hmaps'⟩ :=
    mergeLoop_spec hs helements hd Nat.one_pos rfl hmaps
  refine ⟨⟨(d.pathElements.merge source.pathElements).1, paths'⟩, mapping', ?_, hbuilt,
    ⟨hext, hpre⟩, ?_⟩
  · unfold CPathDictionary.merge
    simp only [hloop, bind, Except.bind, pure, Except.pure]
  · rwa [max_eq_right (Nat.succ_le_of_lt hs.size_pos)] at hmaps'

end Adding

/-! ### Path strings -/

/-- The string of a path with these names; of a very long one, only the last names. -/
def pathString (ns : List (List UInt8)) : List UInt8 :=
  if ns.drop (ns.length - maxPath) = [] then [47]
  else (ns.drop (ns.length - maxPath)).flatMap (47 :: ·)

section Strings

variable {d : CPathDictionary} {i : ℕ} {ns : List (List UInt8)}

theorem Built.collect (h : d.Built) (hi : d.Named i ns) (elements : List (List UInt8)) :
    Returns d.collectBody ((i : Index), elements)
      (ns.drop (ns.length - (maxPath - elements.length)) ++ elements) := by
  induction hi generalizing elements with
  | root => exact .leave (by simp [collectBody])
  | @child i j e ns hpos hp _ ih =>
    obtain ⟨e', he', hlt⟩ := h.elements i _ hpos hp
    obtain rfl := Nat.cast_injective (R := Index) he'
    have hid : d.getPathElementID (i : Index) = .ok (e : Index) := by
      rw [getPathElementID, entry_coe hp]
      rfl
    have hparent : d.getParent (i : Index) = .ok (j : Index) := by
      rw [CPathDictionary.getParent, entry_coe hp]
      rfl
    by_cases hlen : elements.length < maxPath
    · have hround := ih (d.pathElements.get e :: elements)
      have hdrop : (ns ++ [d.pathElements.get e]).drop ((ns ++ [d.pathElements.get e]).length -
          (maxPath - elements.length)) = ns.drop (ns.length -
            (maxPath - (d.pathElements.get e :: elements).length)) ++ [d.pathElements.get e] := by
        rw [List.length_append, List.length_singleton, List.length_cons,
          ← List.drop_append_of_le_length (Nat.sub_le _ _)]
        congr 1
        omega
      rw [hdrop, List.append_assoc, List.singleton_append]
      refine .round ?_ hround
      simp [collectBody, hpos.ne', hlen, hid, hparent, copyElement_ok h.pool.ordered hlt,
        h.pool.copyTo hlt, bind, Except.bind, pure, Except.pure]
    · refine .leave ?_
      rw [collectBody, if_neg fun hgo => hlen hgo.2, Nat.sub_eq_zero_of_le (not_lt.mp hlen),
        Nat.sub_zero, List.drop_length, List.nil_append]

/-- `GetPath` gives the string of the names. -/
theorem Built.getPath (h : d.Built) (hi : d.Named i ns) : d.GetPath (i : Index) (pathString ns) := by
  have hcollect := h.collect hi []
  rw [List.length_nil, Nat.sub_zero, List.append_nil] at hcollect
  exact ⟨_, hcollect, rfl⟩

end Strings

end CPathDictionary

end TortoiseSvn.LogCache
