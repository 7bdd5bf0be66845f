import TortoiseSvn.Lib.CollectedItems
import TortoiseSvn.RevisionGraph.GraphSurgery

/-!
# The tags of folded nodes

`FoldTag` moves tags from node to node: a plain node gives what it holds to its source, a branch
start or a renamed node gives it to its source one level deeper, with a tag for itself. The nodes of
the graph are `Holdings` of tags, and every step keeps what is collected below the folded node.

Main result: `foldTag_tags`. The source of the folded node gets what is collected below that node,
and nothing beside the removed nodes is changed.
-/

namespace TortoiseSvn.RevisionGraph

open TortoiseSvn.Lib

/-- Tags are raised by making them deeper. -/
instance : AddAction ℕ CFoldedTag where
  vadd k tag := { tag with depth := tag.depth + k }
  zero_vadd _ := rfl
  add_vadd j k tag := congrArg (CFoldedTag.mk tag.tagNode) (by
    show tag.depth + (j + k) = tag.depth + k + j
    omega)

namespace CVisibleGraph

variable {g g' : CVisibleGraph} {x y n p s q : ℕ}

/-! ### Nodes that hold tags -/

/-- A branch start or a renamed node. -/
def isTagged (g : CVisibleGraph) (q : ℕ) : Bool :=
  g.nodes.read (fun n => n.copySource.isSome || n.data.classification.is
    CNodeClassification.IS_RENAMED) false q

theorem isTagged_eq (hq : (g.nodes q).isSome) : g.isTagged q = ((g.links.copySource q).isSome ||
    (g.nodes.read (fun n => n.data.classification) 0 q).is CNodeClassification.IS_RENAMED) := by
  obtain ⟨m, hm⟩ := Option.isSome_iff_exists.mp hq
  have hcopy : g.links.copySource q = m.copySource := Heap.read_of_some hm
  rw [isTagged, Heap.read_of_some hm, Heap.read_of_some hm, hcopy]

/-- The nodes with their folded tags. -/
def holdings (g : CVisibleGraph) : Holdings ℕ CFoldedTag where
  parent := g.links.source
  marked := g.isTagged
  made q := ⟨g.nodes.read (fun n => n.data.base) 0 q, 0⟩
  held q := g.firstTag q

/-! ### Dropping the end of a chain -/

theorem modify_nodes_self (f : CVisibleGraphNode → CVisibleGraphNode) :
    (g.modify n f).nodes n = (g.nodes n).map f := Function.update_self _ _ _

theorem destroyLeaf_nodes_of_ne (hq : q ≠ n) : (g.destroyLeaf n).nodes q = g.nodes q :=
  Heap.free_of_ne hq

theorem foldl_setCopySource_nodes (v : Option ℕ) (branches : List ℕ) (g : CVisibleGraph) (q : ℕ) :
    (branches.foldl (fun g target => g.setCopySource target v) g).nodes q =
      if q ∈ branches then (g.nodes q).map fun m => { m with copySource := v } else g.nodes q := by
  induction branches generalizing g with
  | nil => rfl
  | cons b branches ih =>
    rw [List.foldl_cons, ih]
    by_cases hq : q = b
    · subst hq
      rw [if_pos List.mem_cons_self]
      have hself : (g.setCopySource q v).nodes q = (g.nodes q).map _ := modify_nodes_self _
      rw [hself, Option.map_map]
      exact ite_self _
    · have hne : (g.setCopySource b v).nodes q = g.nodes q := modify_nodes_of_ne hq _
      simp only [hne, List.mem_cons, hq, false_or]

/-- What the source of a dropped node becomes. -/
def takeOver (n : ℕ) (branches : List ℕ) (tags : List CFoldedTag) (m : CVisibleGraphNode) :
    CVisibleGraphNode :=
  { m with
    next := if m.next = some n then none else m.next
    firstCopyTarget := (m.firstCopyTarget ++ branches).erase n
    data := { m.data with firstTag := m.data.firstTag ++ tags } }
section ChainEnd

variable (h : Consistent g) (hs : g.links.source n = some s)

include h hs

/-- A node that is no copy target of its source is not in the source's list of copy targets. -/
theorem erase_of_prev (hprev : g.links.prev n = some p) :
    (g.links.copyTargets s ++ g.links.copyTargets n).erase n =
      g.links.copyTargets s ++ g.links.copyTargets n := by
  have hcopy := (h.linked.one n).resolve_left (by rw [hprev]; exact Option.some_ne_none p)
  refine List.erase_of_not_mem fun hmem => ?_
  rcases List.mem_append.mp hmem with hmem | hmem
  · exact Option.some_ne_none s (((h.linked.target_iff s n).mp hmem).symm.trans hcopy)
  · exact (moved_nodup h hs).2 hmem

/-- Taking a node without a next one out of the links changes the source only. -/
theorem delink_nodes {g₂ : CVisibleGraph} (hlinks : g₂.links.prev n = g.links.prev n)
    (hend : g₂.links.next n = none) (q : ℕ) : (g₂.delink n s).nodes q =
      if q = s then (g₂.nodes s).map (
        if (g.links.prev n).isSome then fun m => { m with next := none }
        else fun m => { m with firstCopyTarget := m.firstCopyTarget.erase n })
      else g₂.nodes q := by
  have hsource := h.linked.source_eq_some.mp hs
  unfold delink
  rw [hlinks, hend]
  rcases hprev : g.links.prev n with _ | p
  · dsimp only
    split
    · subst q
      exact modify_nodes_self _
    · exact modify_nodes_of_ne ‹_› _
  · obtain rfl : p = s := by
      rcases hsource with heq | heq
      · exact Option.some.inj (hprev.symm.trans heq)
      · have hnone := (h.linked.one n).resolve_left (by rw [hprev]; exact Option.some_ne_none p)
        exact nomatch heq.symm.trans hnone
    dsimp only
    split
    · subst q
      exact modify_nodes_self _
    · exact modify_nodes_of_ne ‹_› _

/-- The source of a node without a next one takes over what the node has. -/
theorem takeOver_eq {m : CVisibleGraphNode} (hm : g.nodes s = some m) (tags : List CFoldedTag) :
    (if (g.links.prev n).isSome then fun m : CVisibleGraphNode => { m with next := none }
      else fun m => { m with firstCopyTarget := m.firstCopyTarget.erase n })
      { m with
        firstCopyTarget := m.firstCopyTarget ++ g.links.copyTargets n
        data := { m.data with firstTag := m.data.firstTag ++ tags } } =
      takeOver n (g.links.copyTargets n) tags m := by
  have hnext : g.links.next s = m.next := Heap.read_of_some hm
  have htargets : g.links.copyTargets s = m.firstCopyTarget := Heap.read_of_some hm
  have hiff : m.next = some n ↔ g.links.prev n = some s := by
    rw [← hnext]
    exact h.linked.next_iff s n
  rw [takeOver, ← htargets]
  rcases hprev : g.links.prev n with _ | p
  · have hne : m.next ≠ some n := by
      rw [Ne, hiff, hprev]
      exact (Option.some_ne_none s).symm
    rw [if_neg hne]
    rfl
  · obtain rfl : s = p := Option.some.inj
      (hs.symm.trans (h.linked.source_eq_some.mpr (Or.inl hprev)))
    rw [if_pos (hiff.mpr hprev), erase_of_prev h hs hprev]
    rfl

/-- What dropping a node without a next one does to each node. -/
theorem dropInner_nodes (hend : g.links.next n = none) (q : ℕ) :
    (g.dropInner n s true).nodes q =
      if q = n then none
      else if q = s then (g.nodes s).map (takeOver n (g.links.copyTargets n) (g.firstTag n))
      else if g.links.copySource q = some n then
        (g.nodes q).map fun m => { m with copySource := some s }
      else g.nodes q := by
  have hsn : s ≠ n := h.ne_of_source hs
  have hnot : s ∉ g.links.copyTargets n := fun hmem => by
    have hns := h.linked.source_eq_some.mpr (Or.inr ((h.linked.target_iff n s).mp hmem))
    exact h.acyclic n hs (Above.single hns)
  obtain ⟨hlinks, -⟩ := links_moveBranches h hs
  have hnodes := foldl_setCopySource_nodes (some s) (g.links.copyTargets n)
    (g.setCopyTargets s fun ts => ts ++ g.links.copyTargets n)
  unfold dropInner
  dsimp only at hlinks ⊢
  generalize (g.links.copyTargets n).foldl (fun g target => g.setCopySource target (some s))
    (g.setCopyTargets s fun ts => ts ++ g.links.copyTargets n) = g₂ at *
  have htags : g₂.firstTag n = g.firstTag n := by
    unfold firstTag
    rw [Heap.read, hnodes, if_neg (moved_nodup h hs).2]
    exact congrArg (fun o : Option CVisibleGraphNode => (o.map fun n => n.data.firstTag).getD [])
      (modify_nodes_of_ne hsn.symm _)
  rw [if_pos rfl, htags]
  by_cases hqn : q = n
  · rw [if_pos hqn, hqn]
    exact Heap.free_self _ n
  rw [if_neg hqn, destroyLeaf_nodes_of_ne hqn, delink_nodes h hs]
  · by_cases hqs : q = s
    · subst hqs
      obtain ⟨m, hm⟩ := Option.isSome_iff_exists.mp (isSome_of_source h.linked hs).2
      have htargets : g₂.nodes q = (g.nodes q).map _ :=
        (hnodes q).trans ((if_neg hnot).trans (modify_nodes_self _))
      have hall : ((g₂.setFirstTag q fun ts => ts ++ g.firstTag n).setFirstTag n
          fun _ => []).nodes q = (g₂.nodes q).map _ := (modify_nodes_of_ne hsn _).trans (modify_nodes_self _)
      rw [if_pos rfl, if_pos rfl, hall, htargets, hm]
      exact congrArg some (takeOver_eq h hs hm _)
    · have hall : ((g₂.setFirstTag s fun ts => ts ++ g.firstTag n).setFirstTag n
          fun _ => []).nodes q = g₂.nodes q := (modify_nodes_of_ne hqn _).trans (modify_nodes_of_ne hqs _)
      have htargets : (g.setCopyTargets s fun ts => ts ++ g.links.copyTargets n).nodes q =
          g.nodes q := modify_nodes_of_ne hqs _
      rw [if_neg hqs, if_neg hqs, hall, hnodes, htargets]
      exact if_congr (h.linked.target_iff n q) rfl rfl
  · rw [links_setFirstTag, links_setFirstTag, hlinks]
  · rw [links_setFirstTag, links_setFirstTag, hlinks]
    exact hend

end ChainEnd

/-! ### What a node keeps -/

/-- A node keeps what its tag is made of, and gets more tags. -/
structure Takes (m m' : CVisibleGraphNode) (tags : Multiset CFoldedTag) : Prop where
  copySource : m'.copySource.isSome = m.copySource.isSome
  classification : m'.data.classification = m.data.classification
  base : m'.data.base = m.data.base
  firstTag : (m'.data.firstTag : Multiset CFoldedTag) = m.data.firstTag + tags

theorem Takes.refl (m : CVisibleGraphNode) : Takes m m 0 := ⟨rfl, rfl, rfl, (add_zero _).symm⟩

section Takes

variable {m m' : CVisibleGraphNode} {tags : Multiset CFoldedTag} (hm : g.nodes q = some m)
  (hm' : g'.nodes q = some m') (ht : Takes m m' tags)

include hm hm' ht

theorem Takes.isTagged_eq : g'.isTagged q = g.isTagged q := by
  rw [isTagged, isTagged, Heap.read_of_some hm, Heap.read_of_some hm', ht.copySource,
    ht.classification]

theorem Takes.made_eq : g'.holdings.made q = g.holdings.made q := by
  unfold holdings
  dsimp only
  rw [Heap.read_of_some hm, Heap.read_of_some hm', ht.base]

theorem Takes.held_eq : g'.holdings.held q = g.holdings.held q + tags := by
  unfold holdings CVisibleGraph.firstTag
  dsimp only
  rw [Heap.read_of_some hm, Heap.read_of_some hm', ht.firstTag]

end Takes

/-- Nodes that take tags make moves of tags. -/
theorem Trimmed.moves (ht : Trimmed x g g') (h : Consistent g) (hx : (g.nodes x).isSome)
    {removed : Set ℕ} {extra : Multiset CFoldedTag}
    (hremoved : ∀ q ∈ removed, Above g.links.source x q)
    (hsome : ∀ q, (g'.nodes q).isSome ↔ (g.nodes q).isSome ∧ q ∉ removed)
    (habove : ∀ a q, (g'.nodes a).isSome → (g'.nodes q).isSome →
      (Above g'.links.source a q ↔ Above g.links.source a q))
    (hkept : ∀ a ∈ removed, g.isTagged a = true → ∀ q, Above g.links.source a q → q ∈ removed)
    (hxp : Above g.links.source x p) (hp : p ∉ removed)
    (htakes : ∀ q m, g.nodes q = some m → q ∉ removed →
      ∃ m', g'.nodes q = some m' ∧ Takes m m' (if q = p then extra else 0)) :
    g.holdings.Moves g'.holdings x p removed extra := by
  have hx' := ht.isSome_self hx
  have hbelow : ∀ q, Above g'.links.source x q ↔ Above g.links.source x q ∧ q ∉ removed := by
    intro q
    constructor
    · intro hq
      have hsomeq := ht.consistent.isSome_of_above hx' hq
      exact ⟨(ht.above q hsomeq).mp hq, ((hsome q).mp hsomeq).2⟩
    · rintro ⟨hq, hmem⟩
      exact (ht.above q ((hsome q).mpr ⟨h.isSome_of_above hx hq, hmem⟩)).mpr hq
  have hnode : ∀ q, Above g'.links.source x q → ∃ m m', g.nodes q = some m ∧ g'.nodes q = some m' ∧
      Takes m m' (if q = p then extra else 0) := by
    intro q hq
    obtain ⟨hxq, hmem⟩ := (hbelow q).mp hq
    obtain ⟨m, hm⟩ := Option.isSome_iff_exists.mp (h.isSome_of_above hx hxq)
    obtain ⟨m', hm', htake⟩ := htakes q m hm hmem
    exact ⟨m, m', hm, hm', htake⟩
  have hreceiver : Above g'.links.source x p := (hbelow p).mpr ⟨hxp, hp⟩
  refine ⟨h.finite_below hx, hremoved, hreceiver, hbelow, fun a q ha hq => ?_, hkept,
    fun q hq => ?_, fun q hq => ?_, fun q hq hne => ?_, ?_⟩
  · exact habove a q (ht.consistent.isSome_of_above hx' ha) (ht.consistent.isSome_of_above hx' hq)
  · obtain ⟨m, m', hm, hm', htake⟩ := hnode q hq
    exact htake.isTagged_eq hm hm'
  · obtain ⟨m, m', hm, hm', htake⟩ := hnode q hq
    exact htake.made_eq hm hm'
  · obtain ⟨m, m', hm, hm', htake⟩ := hnode q hq
    rw [htake.held_eq hm hm', if_neg hne, add_zero]
  · obtain ⟨m, m', hm, hm', htake⟩ := hnode p hreceiver
    rw [htake.held_eq hm hm', if_pos rfl]

/-! ### Steps of a fold -/

/-- Some of the nodes below `x` are removed, nothing beside them is changed, and nothing is lost of
what is collected below `x`. -/
structure KeepsTags (x : ℕ) (g g' : CVisibleGraph) : Prop where
  trimmed : Trimmed x g g'
  beside : ∀ q, ¬ Above g.links.source x q → g'.nodes q = g.nodes q
  tagged : g'.isTagged x = g.isTagged x
  collected : g'.holdings.collected x = g.holdings.collected x
  roots : g'.roots = g.roots
  insertionIndex : g'.insertionIndex = g.insertionIndex

namespace KeepsTags

theorem refl (h : Consistent g) (x : ℕ) : KeepsTags x g g :=
  ⟨Trimmed.refl h x, fun _ _ => rfl, rfl, rfl, rfl, rfl⟩

theorem trans {g'' : CVisibleGraph} (h : KeepsTags x g g') (h' : KeepsTags x g' g'')
    (hx : (g.nodes x).isSome) : KeepsTags x g g'' := by
  refine ⟨h.trimmed.trans h'.trimmed, fun q hq => ?_, h'.tagged.trans h.tagged,
    h'.collected.trans h.collected, h'.roots.trans h.roots,
    h'.insertionIndex.trans h.insertionIndex⟩
  refine (h'.beside q fun hq' => hq ?_).trans (h.beside q hq)
  have hsome := h.trimmed.consistent.isSome_of_above (h.trimmed.isSome_self hx) hq'
  exact (h.trimmed.above q hsome).mp hq'

end KeepsTags

/-- What becomes of the source of a folded node. -/
def gains (n : ℕ) (added : List CFoldedTag) (m : CVisibleGraphNode) : CVisibleGraphNode :=
  { m with
    next := if m.next = some n then none else m.next
    firstCopyTarget := m.firstCopyTarget.erase n
    data := { m.data with firstTag := added ++ m.data.firstTag } }

/-- What folding `n` into its source `s` has to give. Only the nodes below `n`, which are those that
its next and copy target links lead to, are removed. The source loses its link to `n` and gets the
tags that are collected below `n`. Nothing else is changed. -/
structure FoldedInto (g : CVisibleGraph) (n s : ℕ) (g' : CVisibleGraph) : Prop where
  dropped : DroppedSubTree g n g'
  source : ∃ added : List CFoldedTag, g'.nodes s = (g.nodes s).map (gains n added) ∧
    (added : Multiset CFoldedTag) = g.holdings.collected n
  beside : ∀ q, ¬ Above g.links.source n q → q ≠ s → g'.nodes q = g.nodes q
  roots : g'.roots = g.roots
  insertionIndex : g'.insertionIndex = g.insertionIndex

/-- A plain node at the end of the chain is dropped. -/
theorem dropNode_keepsTags (h : Consistent g) (hx : (g.nodes x).isSome)
    (hxy : Above g.links.source x y) (hne : y ≠ x) (hp : g.links.prev y = some p)
    (hend : g.links.next y = none) (hplain : g.isTagged y = false) :
    KeepsTags x g (g.dropNode y true) := by
  have hs : g.links.source y = some p := h.linked.source_eq_some.mpr (Or.inl hp)
  have hy := h.isSome_of_above hx hxy
  have hdropped := dropNode_spec h hy true
  have htrimmed := hdropped.trimmed h hend hxy hne
  have hinner : g.dropNode y true = g.dropInner y p true := by
    unfold dropNode
    rw [hs]
  have hxp : Above g.links.source x p := hxy.of_ne hne hs
  have hpy : p ≠ y := h.ne_of_source hs
  have hnodes := dropInner_nodes h hs hend
  rw [← hinner] at hnodes
  have htakes : ∀ q m, g.nodes q = some m → q ≠ y → ∃ m', (g.dropNode y true).nodes q = some m' ∧
      Takes m m' (if q = p then (g.firstTag y : Multiset CFoldedTag) else 0) := by
    intro q m hm hqy
    rw [hnodes, if_neg hqy]
    by_cases hqp : q = p
    · subst hqp
      rw [if_pos rfl, if_pos rfl, hm]
      exact ⟨_, rfl, rfl, rfl, rfl, (Multiset.coe_add _ _).symm⟩
    rw [if_neg hqp, if_neg hqp]
    split
    · rename_i hcopy
      have hcopy' : m.copySource = some y := (Heap.read_of_some hm).symm.trans hcopy
      rw [hm]
      exact ⟨_, rfl, by rw [hcopy']; rfl, rfl, rfl, (add_zero _).symm⟩
    · exact ⟨m, hm, Takes.refl m⟩
  refine ⟨htrimmed, fun q hq => ?_, ?_, ?_, ?_, ?_⟩
  · have hqy : q ≠ y := fun heq => hq (heq ▸ hxy)
    have hqp : q ≠ p := fun heq => hq (heq ▸ hxp)
    rw [hnodes, if_neg hqy, if_neg hqp, if_neg fun hcopy =>
      hq (hxy.step (h.linked.source_eq_some.mpr (Or.inr hcopy)))]
  · obtain ⟨m, hm⟩ := Option.isSome_iff_exists.mp hx
    obtain ⟨m', hm', htake⟩ := htakes x m hm hne.symm
    exact htake.isTagged_eq hm hm'
  · have hmoves : g.holdings.Moves (g.dropNode y true).holdings x p {y} (g.holdings.held y) := by
      refine htrimmed.moves h hx (fun q hq => hq ▸ hxy) (fun q => hdropped.isSome q)
        (fun a q => (hdropped.removesOnly h).above a q) (fun a ha htag => ?_) hxp hpy htakes
      rw [Set.mem_singleton_iff.mp ha, hplain] at htag
      exact nomatch htag
    exact hmoves.merge hs (h.acyclic y hs) hplain
  · rw [hinner]
    exact (dropInner_roots true).1
  · rw [hinner]
    exact (dropInner_roots true).2.1

/-- A sub-tree is folded into its source. -/
theorem FoldedInto.keepsTags (hf : FoldedInto g y p g') (h : Consistent g)
    (hx : (g.nodes x).isSome) (hxy : Above g.links.source x y) (hne : y ≠ x)
    (hs : g.links.source y = some p) : KeepsTags x g g' := by
  obtain ⟨added, hsource, hadded⟩ := hf.source
  have htrimmed := hf.dropped.trimmed h hxy hne
  have hxp : Above g.links.source x p := hxy.of_ne hne hs
  have hyp := h.acyclic y hs
  have htakes : ∀ q m, g.nodes q = some m → ¬ Above g.links.source y q →
      ∃ m', g'.nodes q = some m' ∧ Takes m m' (if q = p then g.holdings.collected y else 0) := by
    intro q m hm hyq
    by_cases hqp : q = p
    · subst hqp
      rw [if_pos rfl, hsource, hm]
      refine ⟨_, rfl, rfl, rfl, rfl, ?_⟩
      rw [← hadded, add_comm]
      exact (Multiset.coe_add _ _).symm
    · rw [if_neg hqp, hf.beside q hyq hqp]
      exact ⟨m, hm, Takes.refl m⟩
  refine ⟨htrimmed, fun q hq => ?_, ?_, ?_, hf.roots, hf.insertionIndex⟩
  · exact hf.beside q (fun hyq => hq (hxy.trans hyq)) fun heq => hq (heq ▸ hxp)
  · obtain ⟨m, hm⟩ := Option.isSome_iff_exists.mp hx
    obtain ⟨m', hm', htake⟩ := htakes x m hm (h.not_above hxy hne)
    exact htake.isTagged_eq hm hm'
  · have hmoves : g.holdings.Moves g'.holdings x p {q | Above g.links.source y q}
        (g.holdings.collected y) :=
      htrimmed.moves h hx (fun q hq => hxy.trans hq) (fun q => hf.dropped.isSome q)
        (fun a q _ hq => hf.dropped.above_iff h hq) (fun a ha _ q hq => ha.trans hq) hxp hyp htakes
    exact hmoves.fold hs hyp

/-- The tags that the source of a node gets: one for the node, and those of the node. -/
def movedTags (g : CVisibleGraph) (n : ℕ) : List CFoldedTag :=
  ⟨g.nodes.read (fun n => n.data.base) 0 n, 0⟩ ::
    (g.firstTag n).map fun tag => { tag with depth := tag.depth + 1 }

/-- What moving the tags of a node does to each node. -/
theorem moveTags_nodes (g : CVisibleGraph) (hsn : s ≠ n) (q : ℕ) : (g.moveTags n s).nodes q =
    if q = s then (g.nodes s).map fun m =>
      { m with data := { m.data with firstTag := g.movedTags n ++ m.data.firstTag } }
    else if q = n then (g.nodes n).map fun m => { m with data := { m.data with firstTag := [] } }
    else g.nodes q := by
  unfold moveTags
  dsimp only
  by_cases hqs : q = s
  · subst hqs
    rw [if_pos rfl]
    refine (modify_nodes_self _).trans ?_
    rw [setFirstTag, modify_nodes_of_ne hsn, setFirstTag, modify_nodes_self, Option.map_map]
    rfl
  rw [if_neg hqs]
  refine (modify_nodes_of_ne hqs _).trans ?_
  by_cases hqn : q = n
  · subst hqn
    rw [if_pos rfl]
    refine (modify_nodes_self _).trans ?_
    rw [setFirstTag, modify_nodes_of_ne hqs]
  · rw [if_neg hqn]
    exact (modify_nodes_of_ne hqn _).trans (modify_nodes_of_ne hqs _)

/-- When nothing is left below a node but the node itself, its tags are moved to its source, and it
is dropped. -/
theorem KeepsTags.fold (hk : KeepsTags n g g') (h : Consistent g) (hs : g.links.source n = some s)
    (hn : g.isTagged n = true) (hnext : g'.links.next n = none)
    (htargets : g'.links.copyTargets n = []) :
    FoldedInto g n s ((g'.moveTags n s).dropNode n true) := by
  have hsome := (isSome_of_source h.linked hs).1
  have hsn : s ≠ n := h.ne_of_source hs
  obtain ⟨hmoved, hlinks, hmovedSome⟩ := hk.trimmed.consistent.moveTags (n := n) s
  have hs' : (g'.moveTags n s).links.source n = some s := by
    rw [hlinks, hk.trimmed.source_self hsome, hs]
  have hdropped := hk.trimmed.fold hsome hnext htargets s
  have hinner : (g'.moveTags n s).dropNode n true = (g'.moveTags n s).dropInner n s true := by
    unfold dropNode
    rw [hs']
  have hmovedNodes := moveTags_nodes g' hsn
  have htags : (g'.moveTags n s).firstTag n = [] := by
    obtain ⟨m, hm⟩ := Option.isSome_iff_exists.mp (hk.trimmed.isSome_self hsome)
    have hn' := (hmovedNodes n).trans ((if_neg hsn.symm).trans (if_pos rfl))
    rw [hm] at hn'
    exact Heap.read_of_some hn'
  have hnodes := dropInner_nodes hmoved hs' (by rw [hlinks, hnext])
  rw [← hinner, htags, hlinks, htargets] at hnodes
  have hleaf : ∀ q, g'.links.source q ≠ some n := by
    intro q hq
    have hmem := (hk.trimmed.consistent.linked.mem_branches n q).mpr hq
    rw [NodeLinks.branches, hnext, htargets] at hmem
    exact List.not_mem_nil hmem
  refine ⟨hdropped, ⟨g'.movedTags n, ?_, ?_⟩, fun q hq hqs => ?_, ?_, ?_⟩
  · rw [hnodes, if_neg hsn, if_pos rfl, hmovedNodes, if_pos rfl, Option.map_map,
      hk.beside s (h.acyclic n hs)]
    congr 1
    funext m
    simp [takeOver, gains]
  · have hcollected := g'.holdings.collected_of_leaf (n := n) (hk.tagged.trans hn) fun q hq => by
      rcases Relation.ReflTransGen.cases_head hq with heq | ⟨z, hz, -⟩
      · exact heq.symm
      · exact absurd hz (hleaf z)
    rw [← hk.collected, hcollected]
    rfl
  · have hqn : q ≠ n := by
      rintro rfl
      exact hq (Above.refl _ q)
    rw [hnodes, if_neg hqn, if_neg hqs, if_neg fun hcopy =>
      hleaf q (hk.trimmed.consistent.linked.source_eq_some.mpr (Or.inr hcopy)), hmovedNodes,
      if_neg hqs, if_neg hqn, hk.beside q hq]
  · rw [hinner, (dropInner_roots true).1]
    exact hk.roots
  · rw [hinner, (dropInner_roots true).2.1]
    exact hk.insertionIndex

/-! ### Folding -/

/-- What `foldTagWith` does to the tags with some fuel. -/
def FoldsTags (fuel : ℕ) : Prop :=
  ∀ (g g' : CVisibleGraph) (n s : ℕ), Consistent g → g.links.source n = some s →
    g.isTagged n = true → 2 * g.size n + 1 ≤ fuel → foldTagWith fuel g n = some g' →
    FoldedInto g n s g'

/-- One step of `foldChain`. -/
theorem fold_last_keepsTags {fuel last : ℕ} (ih : FoldsTags fuel) (h : Consistent g)
    (hn : (g.nodes n).isSome) (hchain : Above g.links.prev n last) (hne : last ≠ n)
    (hp : g.links.prev last = some p) (hend : g.links.next last = none)
    (hfuel : 2 * g.size n ≤ fuel + 1)
    (hrun : (if (g.nodes.read (fun n => n.data.classification) 0 last).is
        CNodeClassification.IS_RENAMED then foldTagWith fuel g last
      else some (g.dropNode last true)) = some g') : KeepsTags n g g' := by
  have hbelow := h.above_of_chain hchain
  have hs := h.linked.source_eq_some.mpr (Or.inl hp)
  have hlast := h.isSome_of_above hn hbelow
  have hcopy := (h.linked.one last).resolve_left (by rw [hp]; exact Option.some_ne_none p)
  have htag := isTagged_eq hlast
  rw [hcopy] at htag
  split at hrun
  · have hlt := size_lt h hn hbelow hne
    have hfolded := ih g g' last p h hs (htag.trans ‹_›) (by omega) hrun
    exact hfolded.keepsTags h hn hbelow hne hs
  · obtain rfl := Option.some.inj hrun
    exact dropNode_keepsTags h hn hbelow hne hp hend (htag.trans (Bool.eq_false_iff.mpr ‹_›))

theorem foldChain_keepsTags {fuel last : ℕ} (ih : ∀ k < fuel, FoldsTags k) (h : Consistent g)
    (hn : (g.nodes n).isSome) (hchain : Above g.links.prev n last)
    (hend : g.links.next last = none) (hfuel : 2 * g.size n ≤ fuel)
    (hrun : foldChain fuel g n last = some g') : KeepsTags n g g' := by
  induction fuel generalizing g last with
  | zero =>
    rw [foldChain] at hrun
    cases hrun
  | succ fuel ihFuel =>
    rw [foldChain] at hrun
    by_cases hlast : last = n
    · rw [if_pos hlast] at hrun
      obtain rfl := Option.some.inj hrun
      exact KeepsTags.refl h n
    · rw [if_neg hlast] at hrun
      obtain ⟨p, hp⟩ := hchain.exists_parent hlast
      obtain ⟨g₁, hg₁, htrimmed, hgone, hchain₁, hend₁⟩ :=
        fold_last (foldTagWith_spec fuel) h hn hchain hlast hp hend hfuel
      have hstep := fold_last_keepsTags (ih fuel (Nat.lt_succ_self fuel)) h hn hchain hlast hp hend
        hfuel hg₁
      have hlt := htrimmed.size_lt h hn (h.above_of_chain hchain) hgone
      have hrest : foldChain fuel g₁ n p = some g' := by
        rw [hp, Option.bind_eq_bind, Option.bind_some] at hrun
        split at hg₁
        · rw [if_pos ‹_›, hg₁] at hrun
          exact hrun
        · rw [if_neg ‹_›, hg₁] at hrun
          exact hrun
      exact hstep.trans (ihFuel (fun k hk => ih k (Nat.lt_succ_of_lt hk)) htrimmed.consistent
        (htrimmed.isSome_self hn) hchain₁ hend₁ (by omega) hrest) hn

theorem foldBranches_keepsTags {fuel : ℕ} (ih : ∀ k < fuel, FoldsTags k) (h : Consistent g)
    (hn : (g.nodes n).isSome) (hfuel : 2 * g.size n ≤ fuel)
    (hrun : foldBranches fuel g n = some g') : KeepsTags n g g' := by
  induction fuel generalizing g with
  | zero =>
    rw [foldBranches] at hrun
    cases hrun
  | succ fuel ihFuel =>
    rw [foldBranches] at hrun
    rcases htargets : g.links.copyTargets n with _ | ⟨target, targets⟩
    · rw [htargets] at hrun
      obtain rfl := Option.some.inj hrun
      exact KeepsTags.refl h n
    · have hcopy := (h.linked.target_iff n target).mp (htargets ▸ List.mem_cons_self)
      have hs := h.linked.source_eq_some.mpr (Or.inr hcopy)
      have hbelow := Above.single hs
      have hne := (h.ne_of_source hs).symm
      have hlt := size_lt h hn hbelow hne
      rw [htargets] at hrun
      obtain ⟨g₁, hg₁, hrest⟩ := Option.bind_eq_some_iff.mp hrun
      have htag : g.isTagged target = true := by
        rw [isTagged_eq (isSome_of_source h.linked hs).1, hcopy]
        rfl
      have hfolded := ih fuel (Nat.lt_succ_self fuel) g g₁ target n h hs htag (by omega) hg₁
      have hstep := hfolded.keepsTags h hn hbelow hne hs
      have hlt' := hstep.trimmed.size_lt h hn hbelow fun hmem =>
        ((hfolded.dropped.isSome target).mp hmem).2 (Above.refl _ target)
      exact hstep.trans (ihFuel (fun k hk => ih k (Nat.lt_succ_of_lt hk)) hstep.trimmed.consistent
        (hstep.trimmed.isSome_self hn) (by omega) hrest) hn

theorem foldTagWith_tags (fuel : ℕ) : FoldsTags fuel := by
  induction fuel using Nat.strong_induction_on with
  | _ fuel ih =>
    intro g g' n s h hs hn hfuel hrun
    obtain ⟨fuel, rfl⟩ : ∃ k, fuel = k + 1 := ⟨fuel - 1, by omega⟩
    have ih' : ∀ k < fuel, FoldsTags k := fun k hk => ih k (Nat.lt_succ_of_lt hk)
    have hspec : ∀ k < fuel, Folds k := fun k _ => foldTagWith_spec k
    have hsome := (isSome_of_source h.linked hs).1
    have hsize : g.size n ≤ fuel := by omega
    obtain ⟨last, hlast, hchain, hend⟩ := lastOfChain_spec h hsome hsize
    obtain ⟨g₁, hg₁, htrimmed₁, hnext₁⟩ := foldChain_spec hspec h hsome hchain hend (by omega)
    have hle : g₁.size n ≤ g.size n := htrimmed₁.size_le h hsome
    have hsome₁ := htrimmed₁.isSome_self hsome
    obtain ⟨g₂, hg₂, htrimmed₂, hnext₂, htargets₂⟩ := foldBranches_spec hspec htrimmed₁.consistent
      hsome₁ hnext₁ (by omega)
    have hkeeps₁ := foldChain_keepsTags ih' h hsome hchain hend (by omega) hg₁
    have hkeeps₂ := foldBranches_keepsTags ih' htrimmed₁.consistent hsome₁ (by omega) hg₂
    have hkeeps := hkeeps₁.trans hkeeps₂ hsome
    rw [foldTagWith, hlast, Option.bind_eq_bind, Option.bind_some, hg₁, Option.bind_eq_bind,
      Option.bind_some, hg₂, Option.bind_some, hkeeps.trimmed.source_self hsome, hs] at hrun
    obtain rfl := Option.some.inj hrun
    exact hkeeps.fold h hs hn hnext₂ htargets₂

/-- **Folding a branch start or a renamed node ends. It removes the nodes below and gives their
source one tag for each branch start and each renamed node among them, and all tags that they had,
each deeper by the number of such nodes that stood above it.** -/
theorem foldTag_tags (h : Consistent g) (hs : g.links.source n = some s)
    (hn : g.isTagged n = true) : ∃ g', g.foldTag n = some g' ∧ FoldedInto g n s g' := by
  obtain ⟨g', hg', -⟩ := foldTag_spec h (by rw [hs]; exact Option.some_ne_none s)
  have hle := size_le_nodeCount h (isSome_of_source h.linked hs).1
  exact ⟨g', hg', foldTagWith_tags _ g g' n s h hs hn (by omega) hg'⟩

/-- A copy of the root, with a renamed node behind it, a plain one and a copy of that one. -/
def nested : CVisibleGraph where
  nodes q := [{ data := ⟨0, 0, []⟩, firstCopyTarget := [1] },
    { data := ⟨1, 0, []⟩, copySource := some 0, next := some 2 },
    { data := ⟨2, CNodeClassification.IS_RENAMED, []⟩, prev := some 1, next := some 3 },
    { data := ⟨3, 0, [⟨7, 0⟩]⟩, prev := some 2, firstCopyTarget := [4] },
    { data := ⟨4, 0, [⟨8, 0⟩]⟩, copySource := some 3 }][q]?
  nodeCount := 5
  roots := [0]
  insertionIndex := 1

theorem consistent_nested : Consistent nested := by
  have hsource : ∀ q, nested.links.source q =
      if q = 1 ∨ q = 2 ∨ q = 3 ∨ q = 4 then some (q - 1) else none := by
    rintro (_ | _ | _ | _ | _ | q) <;> rfl
  have hsome : ∀ q, (nested.nodes q).isSome ↔ q < 5 := by
    rintro (_ | _ | _ | _ | _ | q)
    all_goals simp [nested]
  refine ⟨⟨?_, ?_, ?_, ?_⟩, fun q => ?_, List.nodup_singleton 0, fun q hq => ⟨0, rfl, ?_⟩,
    Finset.range 5, fun q => ?_, rfl⟩
  · rintro (_ | _ | _ | _ | _ | n) (_ | _ | _ | _ | _ | m) <;> simp [nested, linksOf, Heap.read]
  · rintro (_ | _ | _ | _ | _ | n) (_ | _ | _ | _ | _ | m) <;> simp [nested, linksOf, Heap.read]
  · rintro (_ | _ | _ | _ | _ | n) <;> simp [nested, linksOf, Heap.read]
  · rintro (_ | _ | _ | _ | _ | n) <;> simp [nested, linksOf, Heap.read]
  · rw [hsome, hsource]
    show q ∈ [0] ↔ _
    rw [List.mem_singleton]
    split <;> simp <;> omega
  · rw [hsome] at hq
    induction q with
    | zero => exact Above.refl _ 0
    | succ q ih =>
      refine (ih (by omega)).step ?_
      rw [hsource, if_pos (by omega), Nat.add_sub_cancel]
  · rw [Finset.mem_range, hsome]

/-- The last of the tags are those of the plain node and of its copy. -/
theorem foldTag_tags_nested : ∃ g', nested.foldTag 1 = some g' ∧ FoldedInto nested 1 0 g' :=
  foldTag_tags consistent_nested rfl rfl

example : (nested.foldTag 1).map (firstTag · 0) =
    some [⟨1, 0⟩, ⟨2, 1⟩, ⟨4, 2⟩, ⟨8, 3⟩, ⟨7, 2⟩] := by decide +kernel

end CVisibleGraph

end TortoiseSvn.RevisionGraph
