import TortoiseSvn.LogCache.PathInsertion

/-!
# Runs of the path dictionary

`IsSameOrParentOf` and `GetCommonRoot` compare indices where a search would compare paths. This is
right as long as every path has a larger index than its parent, which each way of adding paths must
respect.

Main result: `paths_lawful`. On every run of insertions and merges, the parents come first, no pair
stands twice, and the comparisons tell the order of the paths.
-/

namespace TortoiseSvn.LogCache

open TortoiseSvn.Lib

namespace CPathDictionary

/-- Source: `PathDictionary.cpp` `CPathDictionary::AutoInsert` -/
def autoInsert (d : CPathDictionary) (parent : Index) (pathElement : List UInt8) :
    CPathDictionary × ℕ :=
  let (pathElements, element) := d.pathElements.autoInsert pathElement
  let (paths, index) := Pool.autoInsert d.paths (parent, (element : Index))
  (⟨pathElements, paths⟩, index)

/-- A larger pool of elements changes nothing. -/
theorem Built.withElements {d : CPathDictionary} (h : d.Built) {pool : CStringDictionary}
    (hpool : pool.Unique) (hext : d.pathElements.Extends pool) :
    (CPathDictionary.mk pool d.paths).Built where
  pool := hpool
  tree := ⟨h.tree.root, h.tree.parent⟩
  elements := by
    intro i p hi hp
    obtain ⟨e, he, hlt⟩ := h.elements i p hi hp
    exact ⟨e, he, hlt.trans_le hext.size⟩
  nodup := h.nodup

/-- A pair of a path and an element, which is added if it is not there. -/
theorem Built.autoInsertPair {pool : CStringDictionary} {paths : List (Index × Index)}
    (h : (CPathDictionary.mk pool paths).Built) {i e : ℕ} (hi : i < paths.length)
    (he : e < pool.size) :
    (CPathDictionary.mk pool (Pool.autoInsert paths ((i : Index), (e : Index))).1).Built := by
  unfold Pool.autoInsert
  split
  · exact h
  · rename_i hnone
    exact h.append h.pool (.refl _) hi he (Pool.find_eq_none.mp hnone)

/-- The path below a parent, which is added if it is not there. -/
theorem Built.autoInsert {d : CPathDictionary} (h : d.Built) {i : ℕ} {ns : List (List UInt8)}
    (hi : d.Named i ns) {s : List UInt8} (hs : (0 : UInt8) ∉ s) : (d.autoInsert i s).1.Built ∧
      d.Extends (d.autoInsert i s).1 ∧
      (d.autoInsert i s).1.Named (d.autoInsert i s).2 (ns ++ [s]) := by
  obtain ⟨hunique, hext, hlt, hget⟩ := h.pool.autoInsert hs
  have hpair : (d.autoInsert i s).1.paths[(d.autoInsert i s).2]? =
      some ((i : Index), ((d.pathElements.autoInsert s).2 : Index)) :=
    Pool.autoInsert_getElem? d.paths _
  have hpre := Pool.prefix_autoInsert d.paths
    ((i : Index), ((d.pathElements.autoInsert s).2 : Index))
  have hbuilt := (h.withElements hunique hext).autoInsertPair (hi.lt_size h) hlt
  have hextends : d.Extends (d.autoInsert i s).1 := ⟨hext, hpre⟩
  have hpos : 0 < (d.autoInsert i s).2 := by
    refine Nat.pos_of_ne_zero fun h0 => ?_
    -- the root has no parent
    obtain ⟨element, hroot⟩ := hbuilt.tree.root
    rw [h0] at hpair
    exact absurd (Prod.mk.inj (Option.some.inj (hpair.symm.trans hroot))).1
      (WithTop.natCast_ne_top _)
  have hnamed : (d.autoInsert i s).1.Named (d.autoInsert i s).2
      (ns ++ [(d.pathElements.autoInsert s).1.get (d.pathElements.autoInsert s).2]) :=
    .child hpos hpair (hi.extends h hextends)
  rw [hget] at hnamed
  exact ⟨hbuilt, hextends, hnamed⟩

/-! ### Runs -/

/-- The dictionaries that operations build from a new one. -/
inductive Run : CPathDictionary → Prop
  | init : Run .init
  | autoInsert {d : CPathDictionary} {parent : ℕ} {pathElement : List UInt8} : Run d →
    parent < d.size → (0 : UInt8) ∉ pathElement → Run (d.autoInsert parent pathElement).1
  | merge {d source d' : CPathDictionary} {mapping : List ℕ} : Run d → Run source →
    d.merge source = .ok (d', mapping) → Run d'

theorem Run.built {d : CPathDictionary} (h : Run d) : d.Built := by
  induction h with
  | init => exact .init
  | autoInsert _ hparent hs ih =>
    obtain ⟨ns, hns⟩ := ih.exists_named hparent
    exact (ih.autoInsert hns hs).1
  | merge _ _ hmerge ih ih' =>
    obtain ⟨d', mapping, hrun, hbuilt, -⟩ := ih.merge_spec ih'
    obtain ⟨rfl, rfl⟩ := Prod.mk.inj (Except.ok.inj (hmerge.symm.trans hrun))
    exact hbuilt

/-- What a path dictionary promises. -/
structure Lawful (d : CPathDictionary) : Prop where
  parent : ∀ i < d.size, 0 < i → ∃ j < i, d.getParent (i : Index) = .ok (j : Index)
  distinct : ∀ i < d.size, ∀ j < d.size, d.getParent (i : Index) = d.getParent (j : Index) →
    d.getPathElementID (i : Index) = d.getPathElementID (j : Index) → i = j
  isSameOrParentOf : ∀ a < d.size, ∀ b < d.size,
    ∃ result, d.isSameOrParentOf (a : Index) (b : Index) = .ok result ∧
      (result = true ↔ d.Above a b)
  commonRoot : ∀ a < d.size, ∀ b < d.size,
    ∃ r : ℕ, d.commonRoot (a : Index) (b : Index) = .ok (r : Index) ∧ d.Above r a ∧ d.Above r b ∧
      ∀ c, d.Above c a → d.Above c b → d.Above c r
  intersects : ∀ a < d.size, ∀ b < d.size,
    d.intersects (a : Index) (b : Index) = d.intersects (b : Index) (a : Index)
  merge : ∀ source, Run source → ∃ d' mapping, d.merge source = .ok (d', mapping) ∧
    mapping.length = source.size ∧ ∀ i < source.size, ∃ ns j, source.Named i ns ∧
      mapping[i]? = some j ∧ d'.Named j ns ∧ ∀ k, d'.Named k ns → k = j

/-- A tree decides the comparisons either way round. -/
theorem Tree.intersects_comm {d : CPathDictionary} (h : d.Tree) {a b : ℕ} (ha : a < d.size)
    (hb : b < d.size) :
    d.intersects (a : Index) (b : Index) = d.intersects (b : Index) (a : Index) := by
  obtain ⟨x, hx, hiff⟩ := intersects_spec h ha hb
  obtain ⟨y, hy, hiff'⟩ := intersects_spec h hb ha
  rw [hx, hy, Bool.eq_iff_iff.mpr (hiff.trans (or_comm.trans hiff'.symm))]

theorem Run.lawful {d : CPathDictionary} (h : Run d) : d.Lawful := by
  have hd := h.built
  refine ⟨fun i hi hpos => ?_, fun i hi j hj hp he => ?_,
    fun a _ b hb => isSameOrParentOf_spec hd.tree a hb, fun a ha b hb => ?_,
    fun a ha b hb => hd.tree.intersects_comm ha hb, fun source hsource => ?_⟩
  · obtain ⟨j, hj, hlt⟩ := hd.tree.getParent hi hpos
    exact ⟨j, hlt, hj⟩
  · obtain ⟨p, hpi⟩ := exists_entry hi
    obtain ⟨q, hqj⟩ := exists_entry hj
    rw [CPathDictionary.getParent, CPathDictionary.getParent, entry_coe hpi, entry_coe hqj] at hp
    rw [getPathElementID, getPathElementID, entry_coe hpi, entry_coe hqj] at he
    have heq : p = q := Prod.ext (Except.ok.inj hp) (Except.ok.inj he)
    exact (List.getElem?_inj hi hd.nodup).mp (by rw [hpi, hqj, heq])
  · obtain ⟨r, -, hr, habove⟩ := commonRoot_spec hd.tree ha hb
    obtain ⟨hra, hrb⟩ := (habove r).mp (.refl r)
    exact ⟨r, hr, hra, hrb, fun c hca hcb => (habove c).mpr ⟨hca, hcb⟩⟩
  · obtain ⟨d', mapping, hmerge, hbuilt, -, hlen, hmaps⟩ := hd.merge_spec hsource.built
    refine ⟨d', mapping, hmerge, hlen, fun i hi => ?_⟩
    obtain ⟨ns, hns⟩ := hsource.built.exists_named hi
    obtain ⟨j, hj, hnamed⟩ := hmaps i hi ns hns
    exact ⟨ns, j, hns, hj, hnamed, fun k hk => hbuilt.named_inj hk hnamed⟩

/-- **The path dictionary keeps its order on every run.** -/
theorem paths_lawful (d : CPathDictionary) (h : Run d) : d.Lawful := h.lawful

/-- A path below the root. -/
theorem paths_lawful_child : (CPathDictionary.init.autoInsert (0 : ℕ) [97]).1.Lawful :=
  paths_lawful _ (.autoInsert .init (by decide) (by decide))

end CPathDictionary

end TortoiseSvn.LogCache
