import TortoiseSvn.RevisionGraph.FoldedTags

/-!
# Surgery on the visible graph

The filters of the revision graph drop nodes and sub-trees, fold tags and make new roots, in any
order. `Effect` says what each of these does to a consistent graph, in terms of its nodes and of the
paths between them.

Main result: `surgery_of_run`. In every run from a consistent graph, each operation ends, has its
effect and leaves a consistent graph.
-/

namespace TortoiseSvn.RevisionGraph

open TortoiseSvn.Lib

namespace CVisibleGraph

variable {g g' : CVisibleGraph} {n : ℕ}

/-! ### Operations -/

/-- The operations on a visible graph. -/
inductive Op
  | dropNode (n : ℕ) (preserveTags : Bool)
  | foldTag (n : ℕ)
  | makeRoot (n : ℕ)
  | dropSubTree (n : ℕ)

/-- When an operation may be called: tags are folded at branch starts and at renamed nodes that are no
roots, and sub-trees are dropped below a source only. -/
def Permitted (g : CVisibleGraph) : Op → Prop
  | .dropNode n _ => (g.nodes n).isSome
  | .foldTag n => g.links.copySource n ≠ none ∨
      (g.nodes.read (fun n => n.data.classification) 0 n).is CNodeClassification.IS_RENAMED ∧
        g.links.prev n ≠ none
  | .makeRoot n => (g.nodes n).isSome
  | .dropSubTree n => g.links.source n ≠ none

/-- Run an operation. -/
def apply (g : CVisibleGraph) : Op → Option CVisibleGraph
  | .dropNode n preserveTags => some (g.dropNode n preserveTags)
  | .foldTag n => g.foldTag n
  | .makeRoot n => some (g.makeRoot n)
  | .dropSubTree n => g.dropSubTree n

/-- A permitted operation. -/
def Step (g g' : CVisibleGraph) : Prop := ∃ op, Permitted g op ∧ g.apply op = some g'

/-! ### Effects -/

/-- The nodes that are below `n` are removed, and the others are linked to their sources as before. -/
structure RemovesBelow (g : CVisibleGraph) (n : ℕ) (g' : CVisibleGraph) : Prop where
  isSome : ∀ q, (g'.nodes q).isSome ↔ (g.nodes q).isSome ∧ ¬ Above g.links.source n q
  prev : ∀ q, (g'.nodes q).isSome → g'.links.prev q = g.links.prev q
  copySource : ∀ q, (g'.nodes q).isSome → g'.links.copySource q = g.links.copySource q

/-- Only `n` is removed, and no path between other nodes is lost or made. -/
structure RemovesOnly (g : CVisibleGraph) (n : ℕ) (g' : CVisibleGraph) : Prop where
  isSome : ∀ q, (g'.nodes q).isSome ↔ (g.nodes q).isSome ∧ q ≠ n
  above : ∀ x y, (g'.nodes x).isSome → (g'.nodes y).isSome →
    (Above g'.links.source x y ↔ Above g.links.source x y)

/-- Only the links between `n` and its source are cut. -/
structure CutsOff (g : CVisibleGraph) (n : ℕ) (g' : CVisibleGraph) : Prop where
  data : ∀ q, (g'.nodes q).map LinkedNode.data = (g.nodes q).map LinkedNode.data
  prev : g'.links.prev = Function.update g.links.prev n none
  copySource : g'.links.copySource = Function.update g.links.copySource n none
  next : ∀ q, g'.links.next q = if g.links.next q = some n then none else g.links.next q
  copyTargets : ∀ q, g'.links.copyTargets q = (g.links.copyTargets q).erase n

/-- What an operation does. -/
def Effect (g : CVisibleGraph) : Op → CVisibleGraph → Prop
  | .dropNode n _, g' => RemovesOnly g n g'
  | .foldTag n, g' => RemovesBelow g n g'
  | .makeRoot n, g' => CutsOff g n g'
  | .dropSubTree n, g' => RemovesBelow g n g'

theorem Dropped.removesOnly (h : Dropped g n g') (hg : Consistent g) : RemovesOnly g n g' := by
  refine ⟨h.isSome, fun x y hx hy => ?_⟩
  rw [h.links]
  exact above_drop hg ((h.isSome x).mp hx).2 ((h.isSome y).mp hy).2

theorem DroppedSubTree.removesBelow (h : DroppedSubTree g n g') : RemovesBelow g n g' :=
  ⟨h.isSome, h.prev, h.copySource⟩

theorem modify_data {f : CVisibleGraphNode → CVisibleGraphNode} (hf : ∀ m, (f m).data = m.data)
    (q : ℕ) : ((g.modify n f).nodes q).map LinkedNode.data = (g.nodes q).map LinkedNode.data := by
  by_cases hq : q = n
  · subst hq
    show (Function.update g.nodes q _ q).map LinkedNode.data = _
    rw [Function.update_self, Option.map_map]
    congr 1
    funext m
    exact hf m
  · rw [modify_nodes_of_ne hq]

/-- Cutting links keeps what the nodes have besides them. -/
theorem makeRoot_data (n q : ℕ) :
    ((g.makeRoot n).nodes q).map LinkedNode.data = (g.nodes q).map LinkedNode.data := by
  have hcopySource : ∀ g : CVisibleGraph, ((g.setCopySource n none).nodes q).map LinkedNode.data =
      (g.nodes q).map LinkedNode.data := fun g => modify_data (by intro; rfl) q
  have hprev : ∀ g : CVisibleGraph, ((g.setPrev n none).nodes q).map LinkedNode.data =
      (g.nodes q).map LinkedNode.data := fun g => modify_data (by intro; rfl) q
  unfold makeRoot
  split
  · rw [addRoot_nodes, hcopySource]
    exact modify_data (by intro; rfl) q
  · rw [addRoot_nodes, hprev]
    exact modify_data (by intro; rfl) q
  · rfl

theorem MadeRoot.cutsOff (h : MadeRoot g n (g.makeRoot n)) : CutsOff g n (g.makeRoot n) :=
  ⟨makeRoot_data n, h.links.prev, h.links.copySource, h.links.next, h.links.copyTargets⟩

/-! ### Runs -/

/-- One operation on a consistent graph. -/
theorem apply_spec (h : Consistent g) (op : Op) (hp : Permitted g op) :
    ∃ g', g.apply op = some g' ∧ Consistent g' ∧ Effect g op g' := by
  cases op with
  | dropNode n preserveTags =>
    have hdropped := dropNode_spec h hp preserveTags
    exact ⟨_, rfl, hdropped.consistent, hdropped.removesOnly h⟩
  | foldTag n =>
    have hsource : g.links.source n ≠ none := by
      rw [Ne, NodeLinks.source_eq_none, not_and_or]
      rcases hp with hcopy | ⟨-, hprev⟩
      · exact Or.inr hcopy
      · exact Or.inl hprev
    obtain ⟨g', hg', hfolded⟩ := foldTag_spec h hsource
    exact ⟨g', hg', hfolded.consistent, hfolded.removesBelow⟩
  | makeRoot n =>
    have hroot := makeRoot_spec h hp
    exact ⟨_, rfl, hroot.consistent, hroot.cutsOff⟩
  | dropSubTree n =>
    obtain ⟨g', hg', hdropped⟩ := dropSubTree_spec h hp
    exact ⟨g', hg', hdropped.consistent, hdropped.removesBelow⟩

theorem consistent_of_run (h : Consistent g) (hrun : Relation.ReflTransGen Step g g') :
    Consistent g' := by
  induction hrun with
  | refl => exact h
  | tail _ hstep ih =>
    obtain ⟨op, hp, hop⟩ := hstep
    obtain ⟨g'', hg'', hconsistent, -⟩ := apply_spec ih op hp
    obtain rfl := Option.some.inj (hop.symm.trans hg'')
    exact hconsistent

/-- **In every run from a consistent graph, the graph stays consistent, and every operation that is
permitted ends and has its effect.** -/
theorem surgery_of_run (h : Consistent g) (hrun : Relation.ReflTransGen Step g g') :
    Consistent g' ∧ ∀ op, Permitted g' op →
      ∃ g'', g'.apply op = some g'' ∧ Consistent g'' ∧ Effect g' op g'' :=
  ⟨consistent_of_run h hrun, apply_spec (consistent_of_run h hrun)⟩

/-- A root, the node behind it and a copy of it. -/
def copied : CVisibleGraph where
  nodes q := [{ data := ⟨0, 0, []⟩, next := some 1, firstCopyTarget := [2] },
    { data := ⟨1, 0, []⟩, prev := some 0 }, { data := ⟨2, 0, []⟩, copySource := some 0 }][q]?
  nodeCount := 3
  roots := [0]
  insertionIndex := 1

theorem consistent_copied : Consistent copied := by
  have hsource : ∀ q, copied.links.source q = if q = 1 ∨ q = 2 then some 0 else none := by
    rintro (_ | _ | _ | q) <;> rfl
  have hsome : ∀ q, (copied.nodes q).isSome ↔ q < 3 := by
    rintro (_ | _ | _ | q)
    all_goals simp [copied]
  refine ⟨⟨?_, ?_, ?_, ?_⟩, fun q => ?_, List.nodup_singleton 0, fun q hq => ⟨0, rfl, ?_⟩,
    Finset.range 3, fun q => ?_, rfl⟩
  · rintro (_ | _ | _ | n) (_ | _ | _ | m) <;> simp [copied, linksOf, Heap.read]
  · rintro (_ | _ | _ | n) (_ | _ | _ | m) <;> simp [copied, linksOf, Heap.read]
  · rintro (_ | _ | _ | n) <;> simp [copied, linksOf, Heap.read]
  · rintro (_ | _ | _ | n) <;> simp [copied, linksOf, Heap.read]
  · rw [hsome, hsource]
    show q ∈ [0] ↔ _
    rw [List.mem_singleton]
    split <;> simp <;> omega
  · rw [hsome] at hq
    rcases Nat.eq_zero_or_pos q with rfl | hpos
    · exact Above.refl _ 0
    · apply Above.single
      rw [hsource, if_pos (by omega)]
  · rw [Finset.mem_range, hsome]

/-- Dropping the root of the three nodes leaves two roots. -/
theorem surgery_of_run_copied : Consistent (copied.dropNode 0 true) ∧
    RemovesOnly copied 0 (copied.dropNode 0 true) := by
  obtain ⟨-, heffect⟩ := surgery_of_run consistent_copied Relation.ReflTransGen.refl
  obtain ⟨g', hg', hconsistent, hremoves⟩ := heffect (.dropNode 0 true) rfl
  obtain rfl := Option.some.inj hg'
  exact ⟨hconsistent, hremoves⟩

end CVisibleGraph

end TortoiseSvn.RevisionGraph
