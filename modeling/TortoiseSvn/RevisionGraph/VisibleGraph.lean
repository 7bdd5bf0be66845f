import TortoiseSvn.RevisionGraph.NodeLinks

/-!
# The visible revision graph

`CVisibleGraph` is a forest of nodes that the filters of the revision graph cut down. `DropNode`
removes a node and gives its links to its source, `DropSubTree` removes a node with all that is below
it, `FoldTag` turns a branch into a tag of its source, and `MakeRoot` cuts a node off its source.

`Consistent` is the invariant of the graph: links agree, the roots are the nodes without a source,
and every node is below a root.

A list of copy targets is the list of its nodes; an entry that was emptied in order to be destroyed
with its owner is left out at once. Asserts are those of a debug build and are left out, too.
-/

namespace TortoiseSvn.RevisionGraph

open TortoiseSvn.Lib CNodeClassification

/-- Source: `VisibleGraphNode.h` `CVisibleGraphNode::CFoldedTag` -/
structure CFoldedTag where
  tagNode : ℕ
  depth : ℕ
  deriving DecidableEq

/-- What a node has besides its links. The index is not used here.
Source: `VisibleGraphNode.h` `CVisibleGraphNode` -/
structure CVisibleGraphNodeData where
  base : ℕ
  classification : CNodeClassification
  /-- The list of folded tags. -/
  firstTag : List CFoldedTag := []
  deriving DecidableEq

/-- Source: `VisibleGraphNode.h` `CVisibleGraphNode` -/
abbrev CVisibleGraphNode := LinkedNode CVisibleGraphNodeData

/-- The nodes, with the number of nodes that the factory counts, and the roots.
Source: `VisibleGraph.h` `CVisibleGraph` -/
structure CVisibleGraph where
  nodes : Heap CVisibleGraphNode
  nodeCount : ℕ
  roots : List ℕ
  insertionIndex : ℕ

namespace CVisibleGraph

abbrev links (g : CVisibleGraph) : NodeLinks := linksOf g.nodes

/-- Source: `VisibleGraphNode.h` `GetFirstTag` -/
def firstTag (g : CVisibleGraph) (n : ℕ) : List CFoldedTag :=
  g.nodes.read (fun n => n.data.firstTag) [] n

/-- Change a node. -/
def modify (g : CVisibleGraph) (n : ℕ) (f : CVisibleGraphNode → CVisibleGraphNode) :
    CVisibleGraph := { g with nodes := g.nodes.modify n f }

def setPrev (g : CVisibleGraph) (n : ℕ) (v : Option ℕ) : CVisibleGraph :=
  g.modify n fun m => { m with prev := v }

def setNext (g : CVisibleGraph) (n : ℕ) (v : Option ℕ) : CVisibleGraph :=
  g.modify n fun m => { m with next := v }

def setCopySource (g : CVisibleGraph) (n : ℕ) (v : Option ℕ) : CVisibleGraph :=
  g.modify n fun m => { m with copySource := v }

def setCopyTargets (g : CVisibleGraph) (n : ℕ) (f : List ℕ → List ℕ) : CVisibleGraph :=
  g.modify n fun m => { m with firstCopyTarget := f m.firstCopyTarget }

def setFirstTag (g : CVisibleGraph) (n : ℕ) (f : List CFoldedTag → List CFoldedTag) :
    CVisibleGraph := g.modify n fun m => { m with data := { m.data with firstTag := f m.data.firstTag } }

/-! ### Roots -/

/-- Source: `VisibleGraph.cpp` `CVisibleGraph::ReplaceRoot` -/
def replaceRoot (g : CVisibleGraph) (oldRoot newRoot : ℕ) : CVisibleGraph :=
  { g with roots := g.roots.replace oldRoot newRoot }

/-- Source: `VisibleGraph.cpp` `CVisibleGraph::RemoveRoot` -/
def removeRoot (g : CVisibleGraph) (root : ℕ) : CVisibleGraph :=
  { g with
    roots := g.roots.erase root
    insertionIndex :=
      if g.roots.idxOf root < g.insertionIndex then g.insertionIndex - 1 else g.insertionIndex }

/-- Source: `VisibleGraph.cpp` `CVisibleGraph::AddRoot` -/
def addRoot (g : CVisibleGraph) (root : ℕ) : CVisibleGraph :=
  if g.roots.length < g.insertionIndex then { g with roots := g.roots ++ [root] }
  else
    { g with
      roots := g.roots.insertIdx g.insertionIndex root
      insertionIndex := g.insertionIndex + 1 }

/-! ### Dropping nodes -/

/-- Free a node that has no sub-nodes any more.
Source: `VisibleGraphNode.cpp` `CVisibleGraphNode::CFactory::Destroy` -/
def destroyLeaf (g : CVisibleGraph) (node : ℕ) : CVisibleGraph :=
  { g with nodes := g.nodes.free node, nodeCount := g.nodeCount - 1 }

/-- Destroy a node with its sub-nodes: the next node, as long as there is one, then the copy targets;
`none` when the fuel is used up.
Source: `VisibleGraphNode.cpp` `CVisibleGraphNode::DestroySubNodes`, `CFactory::Destroy` -/
def destroy : ℕ → CVisibleGraph → ℕ → Option CVisibleGraph
  | 0, _, _ => none
  | fuel + 1, g, node =>
    match g.links.next node, g.links.copyTargets node with
    | some toDestroy, _ => do
      let g := g.setNext node (g.links.next toDestroy)
      let g ← destroy fuel (g.setNext toDestroy none) toDestroy
      destroy fuel g node
    | none, target :: _ => do
      let g ← destroy fuel (g.setCopyTargets node List.tail) target
      destroy fuel g node
    | none, [] => some (g.destroyLeaf node)

/-- The next node takes the place of a root.
Source: `VisibleGraphNode.cpp` `CVisibleGraphNode::DropNode`, "handle this branch" -/
def dropFromRoots (g : CVisibleGraph) (this : ℕ) : CVisibleGraph :=
  match g.links.next this with
  | some next => (g.setPrev next none).replaceRoot this next
  | none => g.removeRoot this

/-- "remove one of the roots"
Source: `VisibleGraphNode.cpp` `CVisibleGraphNode::DropNode` -/
def dropRoot (g : CVisibleGraph) (this : ℕ) : CVisibleGraph :=
  -- "add sub-branches as new roots"
  let branches := g.links.copyTargets this
  (branches.foldl (fun g target => (g.setCopySource target none).addRoot target)
    (g.dropFromRoots this)).destroyLeaf this

/-- Take a node out of a chain, or out of the list of copy targets of its source.
Source: `VisibleGraphNode.cpp` `CVisibleGraphNode::DropNode`, "de-link this node" -/
def delink (g : CVisibleGraph) (this source : ℕ) : CVisibleGraph :=
  match g.links.prev this, g.links.next this with
  | some prev, some next => (g.setNext prev (some next)).setPrev next (some prev)
  | some prev, none => g.setNext prev none
  | none, some next =>
    ((g.setCopyTargets source fun ts => ts.replace this next).setPrev next none).setCopySource next
      (some source)
  | none, none => g.setCopyTargets source fun ts => ts.erase this

/-- Remove a node that is no root.
Source: `VisibleGraphNode.cpp` `CVisibleGraphNode::DropNode` -/
def dropInner (g : CVisibleGraph) (this source : ℕ) (preserveTags : Bool) : CVisibleGraph :=
  -- "move all branches"
  let branches := g.links.copyTargets this
  let g := branches.foldl (fun g target => g.setCopySource target (some source))
    (g.setCopyTargets source fun ts => ts ++ branches)
  -- "move all tags"
  let g := if preserveTags then
      let tags := g.firstTag this
      (g.setFirstTag source fun ts => ts ++ tags).setFirstTag this fun _ => []
    else g
  (g.delink this source).destroyLeaf this

/-- Source: `VisibleGraphNode.cpp` `CVisibleGraphNode::DropNode` -/
def dropNode (g : CVisibleGraph) (this : ℕ) (preserveTags : Bool) : CVisibleGraph :=
  match g.links.source this with
  | none => g.dropRoot this
  | some source => g.dropInner this source preserveTags

/-- Remove a node and its sub-tree. No recursion is deeper than there are nodes.
Source: `VisibleGraphNode.cpp` `CVisibleGraphNode::DropSubTree` -/
def dropSubTree (g : CVisibleGraph) (this : ℕ) : Option CVisibleGraph :=
  destroy g.nodeCount
    (match g.links.prev this, g.links.copySource this with
    | some prev, _ => g.setNext prev none
    | none, some copySource => g.setCopyTargets copySource fun ts => ts.erase this
    | none, none => g) this

/-- Remove the links to a node and make it a new root; its source is kept.
Source: `VisibleGraphNode.cpp` `CVisibleGraphNode::MakeRoot` with `deleteSource` `false` -/
def makeRoot (g : CVisibleGraph) (this : ℕ) : CVisibleGraph :=
  match g.links.copySource this, g.links.prev this with
  | some copySource, _ =>
    ((g.setCopyTargets copySource fun ts => ts.erase this).setCopySource this none).addRoot this
  | none, some prev => ((g.setNext prev none).setPrev this none).addRoot this
  | none, none => g

/-! ### Folding tags -/

/-- The last node of the chain that goes on from a node; `none` when the fuel is used up.
Source: `VisibleGraphNode.cpp` `CVisibleGraphNode::FoldTag` -/
def lastOfChain (g : CVisibleGraph) : ℕ → ℕ → Option ℕ
  | 0, _ => none
  | fuel + 1, node =>
    match g.links.next node with
    | some next => lastOfChain g fuel next
    | none => some node

/-- Move the tags of a node to its source, one level deeper, and add a tag for the node.
Source: `VisibleGraphNode.cpp` `CVisibleGraphNode::FoldTag`, "move tags to parent", "create a tag for
this node" -/
def moveTags (g : CVisibleGraph) (this source : ℕ) : CVisibleGraph :=
  let tags := (g.firstTag this).map fun tag => { tag with depth := tag.depth + 1 }
  let base := g.nodes.read (fun n => n.data.base) 0 this
  ((g.setFirstTag source fun ts => tags ++ ts).setFirstTag this fun _ => []).setFirstTag source
    fun ts => ⟨base, 0⟩ :: ts

mutual

/-- Remove a node and add it as a folded tag to its source; `none` when the fuel is used up.
Source: `VisibleGraphNode.cpp` `CVisibleGraphNode::FoldTag` -/
def foldTagWith : ℕ → CVisibleGraph → ℕ → Option CVisibleGraph
  | 0, _, _ => none
  | fuel + 1, g, this => do
    let last ← g.lastOfChain fuel this
    let g ← foldChain fuel g this last
    let g ← foldBranches fuel g this
    let source ← g.links.source this
    some ((g.moveTags this source).dropNode this true)

/-- "fold the whole branch into this node", from `node` backwards.
Source: `VisibleGraphNode.cpp` `CVisibleGraphNode::FoldTag` -/
def foldChain : ℕ → CVisibleGraph → ℕ → ℕ → Option CVisibleGraph
  | 0, _, _, _ => none
  | fuel + 1, g, this, node =>
    if node = this then some g
    else do
      let previous ← g.links.prev node
      let g ← if (g.nodes.read (fun n => n.data.classification) 0 node).is IS_RENAMED then
          foldTagWith fuel g node
        else some (g.dropNode node true)
      foldChain fuel g this previous

/-- "fold all sub-branches as tags into this node"
Source: `VisibleGraphNode.cpp` `CVisibleGraphNode::FoldTag` -/
def foldBranches : ℕ → CVisibleGraph → ℕ → Option CVisibleGraph
  | 0, _, _ => none
  | fuel + 1, g, this =>
    match g.links.copyTargets this with
    | [] => some g
    | target :: _ => do
      let g ← foldTagWith fuel g target
      foldBranches fuel g this

end

/-- A fold needs two steps for each node at most. -/
def foldTag (g : CVisibleGraph) (this : ℕ) : Option CVisibleGraph :=
  foldTagWith (2 * g.nodeCount + 1) g this

/-! ### Consistency -/

/-- A forest of nodes whose links agree. -/
structure Consistent (g : CVisibleGraph) : Prop where
  /-- `prev` and `next` are mutual, a node has at most one source, and a branch start stands once in
  its source's list. -/
  linked : g.links.Linked
  /-- The roots are the nodes without a source. -/
  roots_iff : ∀ n, n ∈ g.roots ↔ (g.nodes n).isSome ∧ g.links.source n = none
  roots_nodup : g.roots.Nodup
  /-- Every node is below a root. -/
  below : ∀ n, (g.nodes n).isSome → ∃ r, g.links.source r = none ∧ Above g.links.source r n
  /-- The factory counts the nodes. -/
  counted : ∃ s : Finset ℕ, (∀ n, n ∈ s ↔ (g.nodes n).isSome) ∧ s.card = g.nodeCount

/-! ### What changes do to the links -/

section Links

variable {g : CVisibleGraph} {n : ℕ}

@[simp] theorem modify_isSome (f : CVisibleGraphNode → CVisibleGraphNode) (q : ℕ) :
    ((g.modify n f).nodes q).isSome = (g.nodes q).isSome := Heap.modify_isSome f q

@[simp] theorem setPrev_isSome (v : Option ℕ) (q : ℕ) :
    ((g.setPrev n v).nodes q).isSome = (g.nodes q).isSome := modify_isSome _ q

@[simp] theorem setNext_isSome (v : Option ℕ) (q : ℕ) :
    ((g.setNext n v).nodes q).isSome = (g.nodes q).isSome := modify_isSome _ q

@[simp] theorem setCopySource_isSome (v : Option ℕ) (q : ℕ) :
    ((g.setCopySource n v).nodes q).isSome = (g.nodes q).isSome := modify_isSome _ q

@[simp] theorem setCopyTargets_isSome (f : List ℕ → List ℕ) (q : ℕ) :
    ((g.setCopyTargets n f).nodes q).isSome = (g.nodes q).isSome := modify_isSome _ q

@[simp] theorem setFirstTag_isSome (f : List CFoldedTag → List CFoldedTag) (q : ℕ) :
    ((g.setFirstTag n f).nodes q).isSome = (g.nodes q).isSome := modify_isSome _ q

theorem links_setPrev (hn : (g.nodes n).isSome) (v : Option ℕ) : (g.setPrev n v).links =
    { g.links with prev := Function.update g.links.prev n v } := linksOf_setPrev hn v

theorem links_setNext (hn : (g.nodes n).isSome) (v : Option ℕ) : (g.setNext n v).links =
    { g.links with next := Function.update g.links.next n v } := linksOf_setNext hn v

theorem links_setCopySource (hn : (g.nodes n).isSome) (v : Option ℕ) :
    (g.setCopySource n v).links =
      { g.links with copySource := Function.update g.links.copySource n v } :=
  linksOf_setCopySource hn v

theorem links_setCopyTargets (hn : (g.nodes n).isSome) (f : List ℕ → List ℕ) :
    (g.setCopyTargets n f).links = { g.links with
      copyTargets := Function.update g.links.copyTargets n (f (g.links.copyTargets n)) } :=
  linksOf_setCopyTargets hn f

theorem links_setFirstTag (f : List CFoldedTag → List CFoldedTag) :
    (g.setFirstTag n f).links = g.links :=
  linksOf_setData fun data : CVisibleGraphNodeData => { data with firstTag := f data.firstTag }

theorem links_destroyLeaf (n : ℕ) : (g.destroyLeaf n).links =
    { prev := Function.update g.links.prev n none
      next := Function.update g.links.next n none
      copySource := Function.update g.links.copySource n none
      copyTargets := Function.update g.links.copyTargets n [] } := linksOf_free n

@[simp] theorem links_addRoot : (g.addRoot n).links = g.links := by
  unfold addRoot
  split <;> rfl

@[simp] theorem addRoot_nodes : (g.addRoot n).nodes = g.nodes := by
  unfold addRoot
  split <;> rfl

theorem addRoot_roots_perm : (g.addRoot n).roots.Perm (n :: g.roots) := by
  unfold addRoot
  split
  · exact List.perm_append_singleton n g.roots
  · rename_i hle
    exact List.perm_insertIdx n g.roots (Nat.le_of_not_lt hle)

@[simp] theorem addRoot_nodeCount : (g.addRoot n).nodeCount = g.nodeCount := by
  unfold addRoot
  split <;> rfl

theorem destroyLeaf_isSome (q : ℕ) :
    ((g.destroyLeaf n).nodes q).isSome ↔ (g.nodes q).isSome ∧ q ≠ n := by
  show (g.nodes.free n q).isSome ↔ _
  by_cases hq : q = n
  · rw [hq, Heap.free_self]
    exact iff_of_false Bool.false_ne_true fun hn => hn.2 rfl
  · rw [Heap.free_of_ne hq]
    exact (and_iff_left hq).symm

/-- Giving some nodes another copy source. -/
theorem foldl_setCopySource (v : Option ℕ) (f : CVisibleGraph → ℕ → CVisibleGraph)
    (hf : ∀ g n, (f g n).nodes = (g.setCopySource n v).nodes) {branches : List ℕ}
    (h : ∀ b ∈ branches, (g.nodes b).isSome) :
    (branches.foldl f g).links = { g.links with
        copySource := fun q => if q ∈ branches then v else g.links.copySource q } ∧
      ∀ q, ((branches.foldl f g).nodes q).isSome = (g.nodes q).isSome := by
  induction branches generalizing g with
  | nil => exact ⟨rfl, fun _ => rfl⟩
  | cons b branches ih =>
    have hsome : ∀ q, ((f g b).nodes q).isSome = (g.nodes q).isSome := fun q => by
      rw [hf, setCopySource_isSome]
    have hlinks : (f g b).links =
        { g.links with copySource := Function.update g.links.copySource b v } :=
      (congrArg linksOf (hf g b)).trans (links_setCopySource (h b List.mem_cons_self) v)
    obtain ⟨hrest, hrestSome⟩ := @ih (f g b) fun b' hb' => by
      rw [hsome]
      exact h b' (List.mem_cons_of_mem _ hb')
    refine ⟨?_, fun q => (hrestSome q).trans (hsome q)⟩
    rw [List.foldl_cons, hrest, hlinks]
    apply NodeLinks.ext
    · rfl
    · rfl
    · funext q
      dsimp only
      by_cases hq : q = b
      · rw [hq, Function.update_self, if_pos List.mem_cons_self, ite_self]
      · rw [Function.update_of_ne hq]
        simp only [List.mem_cons, hq, false_or]
    · rfl

end Links

end CVisibleGraph

end TortoiseSvn.RevisionGraph
