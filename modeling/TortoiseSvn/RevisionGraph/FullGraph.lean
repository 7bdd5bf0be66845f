import TortoiseSvn.RevisionGraph.NodeLinks

/-!
# The full revision graph

`CFullGraph` is a tree of nodes. A new node is appended to the chain of its source, or hung below it
if it is a copy target. A node that is inserted into a chain gets a `next` link, but the node behind
it keeps its old `prev`. `Replace` moves a copy target to the place of a chain's last node.

Main result: `linkedTree_of_run`. All links agree, and exactly one way leads from the root to every
node, in every run that never inserts a node into a chain and never moves the branch that holds the
replaced node.
-/

namespace TortoiseSvn.RevisionGraph

open TortoiseSvn.Lib CNodeClassification

/-- The data of a node is its classification. Path and revision have no part in linking it and are
left out. Source: `FullGraphNode.h` `CFullGraphNode` -/
abbrev CFullGraphNode := LinkedNode CNodeClassification

/-- Source: `FullGraph.h` `CFullGraph` -/
structure CFullGraph where
  nodes : Heap CFullGraphNode := fun _ => none
  root : Option ℕ := none
  nodeCount : ℕ := 0

namespace CFullGraphNode

/-- Link a node to its source.
Source: `FullGraphNode.cpp` `CFullGraphNode::InsertAt` -/
def insertAt (nodes : Heap CFullGraphNode) (node : ℕ) (source : Option ℕ) : Heap CFullGraphNode :=
  match source with
  | none => nodes
  | some source =>
    if (nodes.read LinkedNode.data 0 node).is IS_COPY_TARGET then
      ((nodes.modify node fun n => { n with copySource := some source }).modify node
        fun n => { n with prev := none }).modify source
        fun s => { s with firstCopyTarget := node :: s.firstCopyTarget }
    else
      -- "link the node into existing chain, if it isn't already part of a chain"
      let sourceNext := nodes.read LinkedNode.next none source
      let nodes := if sourceNext ≠ none ∧ nodes.read LinkedNode.next none node = none then
          nodes.modify node fun n => { n with next := sourceNext }
        else nodes
      ((nodes.modify node fun n => { n with copySource := none }).modify source
        fun s => { s with next := some node }).modify node fun n => { n with prev := some source }

/-- A node at the free address `node` that the pool returned.
Source: `FullGraphNode.cpp` `CFullGraphNode::CFactory::Create` -/
def create (nodes : Heap CFullGraphNode) (node : ℕ) (classific : CNodeClassification)
    (source : Option ℕ) : Heap CFullGraphNode :=
  insertAt (nodes.alloc node { data := classific }) node source

/-- Put the copy target `toInsert`, which stands at position `toMove` in the list of `owner`, in the
place of `toReplace`. The replaced node has no sub-nodes to destroy.
Source: `FullGraphNode.cpp` `CFullGraphNode::CFactory::Replace` -/
def replace (nodes : Heap CFullGraphNode) (toReplace previousNode owner toMove toInsert : ℕ)
    (newClassification : CNodeClassification) : Heap CFullGraphNode :=
  -- "remove the old node"
  let nodes := nodes.modify previousNode
    fun p => { p with next := nodes.read LinkedNode.next none toReplace }
  let nodes := nodes.free toReplace
  -- "extract the new node"
  let nodes := nodes.modify owner
    fun o => { o with firstCopyTarget := o.firstCopyTarget.eraseIdx toMove }
  -- "(re-)insert the new node"
  let nodes := nodes.modify toInsert fun n => { n with data := newClassification }
  insertAt nodes toInsert (some previousNode)

end CFullGraphNode

namespace CFullGraph

abbrev links (g : CFullGraph) : NodeLinks := linksOf g.nodes

/-- Source: `FullGraph.cpp` `CFullGraph::Add` -/
def add (g : CFullGraph) (node : ℕ) (classification : CNodeClassification) (source : Option ℕ) :
    CFullGraph where
  nodes := CFullGraphNode.create g.nodes node classification source
  root := if g.root = none then some node else g.root
  nodeCount := g.nodeCount + 1

/-- The copy target to move is the one at position `toMove` in the list of `owner`.
Source: `FullGraph.cpp` `CFullGraph::Replace` -/
def replace (g : CFullGraph) (toReplace owner toMove : ℕ) (newClassification : CNodeClassification) :
    CFullGraph :=
  match g.links.prev toReplace, (g.links.copyTargets owner)[toMove]? with
  | some previousNode, some toInsert =>
    { g with
      nodes := CFullGraphNode.replace g.nodes toReplace previousNode owner toMove toInsert
        newClassification
      nodeCount := g.nodeCount - 1 }
  | _, _ => g

/-! ### Runs -/

/-- A call that modifies the graph. -/
inductive Op where
  | add (node : ℕ) (classification : CNodeClassification) (source : Option ℕ)
  | replace (toReplace owner toMove : ℕ) (newClassification : CNodeClassification)

/-- The graph after a call. -/
def apply (g : CFullGraph) : Op → CFullGraph
  | .add node classification source => g.add node classification source
  | .replace toReplace owner toMove newClassification =>
    g.replace toReplace owner toMove newClassification

/-- The asserts at the beginning of a call hold. A new node has an address that is not in use, and
its source is a node of the graph. -/
def Permitted (g : CFullGraph) : Op → Prop
  | .add node _ source =>
    g.nodes node = none ∧ (source = none ↔ g.root = none) ∧ ∀ s ∈ source, (g.nodes s).isSome
  | .replace toReplace owner toMove _ =>
    g.links.prev toReplace ≠ none ∧ g.links.next toReplace = none ∧
      g.links.copyTargets toReplace = [] ∧ (g.links.copyTargets owner)[toMove]? ≠ none

/-- Runs of permitted calls that meet a condition. -/
inductive Run (careful : CFullGraph → Op → Prop) : CFullGraph → Prop
  | empty : Run careful {}
  | step {g : CFullGraph} (op : Op) :
      Run careful g → g.Permitted op → careful g op → Run careful (g.apply op)

/-- A node that is no copy target is added at the end of a chain only, and the branch that is moved
does not hold the node it replaces. -/
def Careful (g : CFullGraph) : Op → Prop
  | .add _ classification source =>
    classification.is IS_COPY_TARGET = true ∨ ∀ s ∈ source, g.links.next s = none
  | .replace toReplace owner toMove _ =>
    ∀ n, (g.links.copyTargets owner)[toMove]? = some n → ¬ Above g.links.source n toReplace

/-- What holds of the links of a full graph. -/
structure LinkedTree (g : CFullGraph) : Prop where
  /-- `prev` and `next` are mutual. -/
  next_iff : ∀ n m, g.links.next n = some m ↔ g.links.prev m = some n
  /-- All nodes but the root have one source. -/
  one : ∀ n, (g.nodes n).isSome → g.root ≠ some n →
    Xor (g.links.prev n ≠ none) (g.links.copySource n ≠ none)
  /-- A copy target stands in its source's list once. -/
  once : ∀ n s, g.links.copySource n = some s → (g.links.copyTargets s).count n = 1
  /-- One way leads from the root to each node. -/
  reachable : ∀ n, (g.nodes n).isSome →
    ∃ r, g.root = some r ∧ ∃! path, follow g.links.branches path r = some n

end CFullGraph

/-! ### What the calls do to the links -/

section Links

variable {nodes : Heap CFullGraphNode} {n s : ℕ}

theorem linksOf_insertAt_target (hn : (nodes n).isSome) (hs : (nodes s).isSome)
    (hc : (nodes.read LinkedNode.data 0 n).is IS_COPY_TARGET = true) :
    linksOf (CFullGraphNode.insertAt nodes n (some s)) =
      { linksOf nodes with
        prev := Function.update (linksOf nodes).prev n none
        copySource := Function.update (linksOf nodes).copySource n (some s)
        copyTargets := Function.update (linksOf nodes).copyTargets s
          (n :: (linksOf nodes).copyTargets s) } := by
  rw [CFullGraphNode.insertAt, if_pos hc, linksOf_setCopyTargets (by simpa using hs) (n :: ·),
    linksOf_setPrev (by simpa using hn), linksOf_setCopySource hn]

theorem linksOf_insertAt_chain (hn : (nodes n).isSome) (hs : (nodes s).isSome)
    (hc : ¬ (nodes.read LinkedNode.data 0 n).is IS_COPY_TARGET = true)
    (hnext : (linksOf nodes).next s = none) :
    linksOf (CFullGraphNode.insertAt nodes n (some s)) =
      { linksOf nodes with
        prev := Function.update (linksOf nodes).prev n (some s)
        next := Function.update (linksOf nodes).next s (some n)
        copySource := Function.update (linksOf nodes).copySource n none } := by
  have hnot : ¬ (nodes.read LinkedNode.next none s ≠ none ∧
      nodes.read LinkedNode.next none n = none) := fun h => h.1 hnext
  rw [CFullGraphNode.insertAt, if_neg hc]
  dsimp only
  rw [if_neg hnot, linksOf_setPrev (by simpa using hn), linksOf_setNext (by simpa using hs),
    linksOf_setCopySource hn]

theorem insertAt_isSome (source : Option ℕ) (q : ℕ) :
    (CFullGraphNode.insertAt nodes n source q).isSome = (nodes q).isSome := by
  cases source with
  | none => rfl
  | some s =>
    unfold CFullGraphNode.insertAt
    dsimp only
    split
    · rw [Heap.modify_isSome, Heap.modify_isSome, Heap.modify_isSome]
    · rw [Heap.modify_isSome, Heap.modify_isSome, Heap.modify_isSome]
      split
      · rw [Heap.modify_isSome]
      · rfl

/-- Where a node without `prev` is attached to `s`, its old copy source aside, the links agree again,
and the node has the source `s`. -/
theorem insertAt_spec {l : NodeLinks} (hl : l.Linked) (hn : (nodes n).isSome)
    (hs : (nodes s).isSome) (hprev : (linksOf nodes).prev n = none)
    (hclear : { linksOf nodes with
      copySource := Function.update (linksOf nodes).copySource n none } = l)
    (hnext : (nodes.read LinkedNode.data 0 n).is IS_COPY_TARGET = true ∨
      (linksOf nodes).next s = none) :
    (linksOf (CFullGraphNode.insertAt nodes n (some s))).Linked ∧
      (linksOf (CFullGraphNode.insertAt nodes n (some s))).source =
        Function.update l.source n (some s) := by
  have hsource : l.source n = none := by
    rw [← hclear]
    exact NodeLinks.source_eq_none.mpr ⟨hprev, Function.update_self _ _ _⟩
  by_cases hc : (nodes.read LinkedNode.data 0 n).is IS_COPY_TARGET = true
  · have hlinks : linksOf (CFullGraphNode.insertAt nodes n (some s)) = l.hang s n := by
      rw [linksOf_insertAt_target hn hs hc, ← hclear, NodeLinks.hang, Function.update_idem,
        ← hprev, Function.update_eq_self]
    rw [hlinks]
    exact ⟨hl.hang hsource, NodeLinks.source_hang⟩
  · have hend := hnext.resolve_left hc
    have hlinks : linksOf (CFullGraphNode.insertAt nodes n (some s)) = l.append s n := by
      rw [linksOf_insertAt_chain hn hs hc hend, ← hclear, NodeLinks.append]
    rw [hlinks]
    refine ⟨hl.append ?_ hsource, NodeLinks.source_append hsource⟩
    rw [← hclear]
    exact hend

end Links

namespace CFullGraph

/-! ### The invariant -/

/-- Links agree, and all nodes are below the root. -/
structure Tree (g : CFullGraph) : Prop where
  linked : g.links.Linked
  empty : g.root = none → ∀ n, g.nodes n = none
  root : ∀ r, g.root = some r → (g.nodes r).isSome ∧ g.links.source r = none ∧
    ∀ n, (g.nodes n).isSome → Above g.links.source r n

section Invariant

variable {g : CFullGraph}

theorem Tree.linkedTree (h : Tree g) : LinkedTree g := by
  constructor
  case next_iff => exact h.linked.next_iff
  case one =>
    intro n hn hroot
    rcases hr : g.root with _ | r
    · rw [h.empty hr n] at hn
      exact nomatch hn
    · have hne : r ≠ n := fun heq => hroot (heq ▸ hr)
      rcases ((h.root r hr).2.2 n hn).cases_tail with heq | ⟨s, -, hs⟩
      · exact absurd heq hne
      · rcases h.linked.source_eq_some.mp hs with hprev | hcopy
        · refine Or.inl ⟨by rw [hprev]; exact Option.some_ne_none s, not_not_intro ?_⟩
          exact (h.linked.one n).resolve_left (by rw [hprev]; exact Option.some_ne_none s)
        · refine Or.inr ⟨by rw [hcopy]; exact Option.some_ne_none s, not_not_intro ?_⟩
          exact (h.linked.one n).resolve_right (by rw [hcopy]; exact Option.some_ne_none s)
  case once =>
    intro n s hs
    exact List.count_eq_one_of_mem (h.linked.nodup s) ((h.linked.target_iff s n).mpr hs)
  case reachable =>
    intro n hn
    rcases hr : g.root with _ | r
    · rw [h.empty hr n] at hn
      exact nomatch hn
    · obtain ⟨-, hnone, habove⟩ := h.root r hr
      exact ⟨r, rfl, existsUnique_follow h.linked.mem_branches h.linked.branches_nodup hnone
        (habove n hn)⟩

theorem tree_empty : Tree {} where
  linked := ⟨fun _ _ => iff_of_false nofun nofun, fun _ _ => iff_of_false nofun nofun,
    fun _ => List.nodup_nil, fun _ => Or.inl rfl⟩
  empty := fun _ _ => rfl
  root := nofun

theorem Tree.add (h : Tree g) {node : ℕ} {classification : CNodeClassification} {source : Option ℕ}
    (hp : g.Permitted (.add node classification source))
    (hc : g.Careful (.add node classification source)) : Tree (g.add node classification source) := by
  obtain ⟨hfree, hroot, hexists⟩ := hp
  have halloc := linksOf_alloc hfree classification
  have hsource := source_of_none hfree
  have hsame : ∀ n, ((g.add node classification source).nodes n).isSome =
      (g.nodes.alloc node { data := classification } n).isSome := insertAt_isSome source
  have hisSome : ∀ n, ((g.add node classification source).nodes n).isSome →
      n = node ∨ (g.nodes n).isSome := by
    intro n hn
    by_cases hnode : n = node
    · exact Or.inl hnode
    · rw [hsame, Heap.alloc_of_ne hnode] at hn
      exact Or.inr hn
  cases source with
  | none =>
    -- the first node
    have hempty := h.empty (hroot.mp rfl)
    have hlinks : (g.add node classification none).links = g.links := halloc
    have hnew : (g.add node classification none).root = some node := if_pos (hroot.mp rfl)
    refine ⟨hlinks ▸ h.linked, fun hnone => ?_, fun r hr => ?_⟩
    · rw [hnew] at hnone
      exact nomatch hnone
    · obtain rfl := Option.some.inj (hnew.symm.trans hr)
      refine ⟨congrArg Option.isSome (Heap.alloc_self g.nodes node _), hlinks ▸ hsource, ?_⟩
      intro n hn
      rcases hisSome n hn with rfl | hold
      · exact Above.refl _ n
      · rw [hempty n] at hold
        exact nomatch hold
  | some s =>
    have hs : (g.nodes s).isSome := hexists s rfl
    have hne : s ≠ node := by
      intro heq
      rw [heq, hfree] at hs
      exact nomatch hs
    obtain ⟨r, hr⟩ : ∃ r, g.root = some r :=
      Option.ne_none_iff_exists'.mp fun hnone => nomatch hroot.mpr hnone
    obtain ⟨hrsome, hrnone, habove⟩ := h.root r hr
    have hrne : r ≠ node := by
      intro heq
      rw [heq, hfree] at hrsome
      exact nomatch hrsome
    obtain ⟨hlinked, hsrc⟩ := @insertAt_spec (g.nodes.alloc node { data := classification }) node s _
      h.linked (congrArg Option.isSome (Heap.alloc_self g.nodes node _))
      (by rwa [Heap.alloc_of_ne hne])
      (halloc ▸ (NodeLinks.source_eq_none.mp hsource).1)
      (by rw [halloc, ← (NodeLinks.source_eq_none.mp hsource).2, Function.update_eq_self])
      (by
        rw [Heap.read_of_some (Heap.alloc_self g.nodes node _), halloc]
        exact hc.imp_right fun hnext => hnext s rfl)
    have hsrc : (g.add node classification (some s)).links.source =
        Function.update g.links.source node (some s) := hsrc
    have hkeep : (g.add node classification (some s)).root = some r := by
      show (if g.root = none then some node else g.root) = some r
      rw [hr, if_neg (Option.some_ne_none r)]
    refine ⟨hlinked, fun hnone => ?_, fun r' hr' => ?_⟩
    · rw [hkeep] at hnone
      exact nomatch hnone
    obtain rfl := Option.some.inj (hkeep.symm.trans hr')
    -- the new node has no node below it
    have hleaf : ¬ Above g.links.source node s := by
      intro hbelow
      rcases Relation.ReflTransGen.cases_head hbelow with heq | ⟨z, hz, -⟩
      · exact hne heq.symm
      · have hnode := (isSome_of_source h.linked hz).2
        rw [hfree] at hnode
        exact nomatch hnode
    have hmove : ∀ n, (g.nodes n).isSome →
        Above (g.add node classification (some s)).links.source r n := by
      intro n hn
      rw [hsrc]
      exact above_move (habove n hn) (habove s hs) hleaf
    refine ⟨?_, ?_, fun n hn => ?_⟩
    · rw [hsame, Heap.alloc_of_ne hrne]
      exact hrsome
    · rw [hsrc, Function.update_of_ne hrne]
      exact hrnone
    · rcases hisSome n hn with rfl | hold
      · apply (hmove s hs).step
        rw [hsrc, Function.update_self]
      · exact hmove n hold

/-- The links when the replaced node is gone and the moved one is out of its old list. -/
theorem links_before_insert (h : g.links.Linked) {r p o i x : ℕ} (c : CNodeClassification)
    (hp : g.links.prev r = some p) (hnext : g.links.next r = none)
    (htargets : g.links.copyTargets r = []) (hx : (g.links.copyTargets o)[i]? = some x) :
    linksOf ((((g.nodes.modify p fun n => { n with next := g.nodes.read LinkedNode.next none r }).free
      r).modify o fun n => { n with firstCopyTarget := n.firstCopyTarget.eraseIdx i }).modify x
        fun n => { n with data := c }) =
      { g.links.cutNext p r with
        copyTargets := Function.update g.links.copyTargets o ((g.links.copyTargets o).eraseIdx i) } := by
  have hor : o ≠ r := by
    rintro rfl
    rw [htargets] at hx
    exact nomatch hx
  have hpr : p ≠ r := by
    rintro rfl
    rw [(h.next_iff p p).mpr hp] at hnext
    exact nomatch hnext
  have hsomeP : (g.nodes p).isSome := isSome_of_next (by
    rw [(h.next_iff p r).mpr hp]
    exact Option.some_ne_none r)
  have hsomeO : (g.nodes o).isSome :=
    isSome_of_copyTargets (List.ne_nil_of_mem (List.mem_of_getElem? hx))
  have hcopy : g.links.copySource r = none :=
    (h.one r).resolve_left (by rw [hp]; exact Option.some_ne_none p)
  have hread : g.nodes.read LinkedNode.next none r = none := hnext
  have hnextSame : Function.update (Function.update g.links.next p none) r none =
      Function.update g.links.next p none := by
    rw [Function.update_eq_self_iff, Function.update_of_ne (Ne.symm hpr)]
    exact hnext.symm
  have hcopySame : Function.update g.links.copySource r none = g.links.copySource :=
    Function.update_eq_self_iff.mpr hcopy.symm
  have htargetsSame : Function.update g.links.copyTargets r [] = g.links.copyTargets :=
    Function.update_eq_self_iff.mpr htargets.symm
  have hsome : (((g.nodes.modify p fun n => { n with next := none }).free r) o).isSome := by
    rw [Heap.free_of_ne hor, Heap.modify_isSome]
    exact hsomeO
  rw [hread, linksOf_setData fun _ => c, linksOf_setCopyTargets hsome fun ts => ts.eraseIdx i,
    linksOf_free, linksOf_setNext hsomeP]
  dsimp only
  rw [hnextSame, hcopySame, htargetsSame]
  rfl

theorem Tree.replace (h : Tree g) {toReplace owner toMove : ℕ}
    {newClassification : CNodeClassification}
    (hp : g.Permitted (.replace toReplace owner toMove newClassification))
    (hc : g.Careful (.replace toReplace owner toMove newClassification)) :
    Tree (g.replace toReplace owner toMove newClassification) := by
  obtain ⟨hprev, hnext, htargets, hmove⟩ := hp
  obtain ⟨p, hp⟩ := Option.ne_none_iff_exists'.mp hprev
  obtain ⟨x, hx⟩ := Option.ne_none_iff_exists'.mp hmove
  have hbranch := hc x hx
  have hl := h.linked
  have hnextP := (hl.next_iff p toReplace).mpr hp
  have hcopyX := (hl.target_iff owner x).mp (List.mem_of_getElem? hx)
  have hprevX := (hl.one x).resolve_right (by rw [hcopyX]; exact Option.some_ne_none owner)
  have hsourceX := hl.source_eq_some.mpr (Or.inr hcopyX)
  have hsourceR := hl.source_eq_some.mpr (Or.inl hp)
  obtain ⟨hsomeR, hsomeP⟩ := isSome_of_source hl hsourceR
  have hxr : x ≠ toReplace := by
    rintro rfl
    rw [hp] at hprevX
    cases hprevX
  have hpr : p ≠ toReplace := by
    rintro rfl
    rw [hnextP] at hnext
    cases hnext
  have hleaf : ∀ z, g.links.source z ≠ some toReplace := by
    intro z hz
    have hmem := (hl.mem_branches toReplace z).mpr hz
    rw [NodeLinks.branches, hnext, htargets] at hmem
    exact List.not_mem_nil hmem
  -- the graph without the replaced node, and the moved branch cut off
  have hcut := hl.cutNext hnextP
  have hsrcCut := hl.source_cutNext hnextP
  have hcut' := hcut.cutTarget (s := owner) (i := toMove) (n := x) hx
  have hsrcCut' := hcut.source_cutTarget (s := owner) (i := toMove) (n := x) hx
  have hlinks := links_before_insert hl newClassification hp hnext htargets hx
  have hsame : ∀ q, ((((g.nodes.modify p fun n =>
      { n with next := g.nodes.read LinkedNode.next none toReplace }).free toReplace).modify owner
        fun n => { n with firstCopyTarget := n.firstCopyTarget.eraseIdx toMove }).modify x
          (fun n => { n with data := newClassification }) q).isSome =
      ((g.nodes.modify p fun n =>
        { n with next := g.nodes.read LinkedNode.next none toReplace }).free toReplace q).isSome := by
    intro q
    rw [Heap.modify_isSome, Heap.modify_isSome]
  have hgone : ∀ q, (q ≠ toReplace ∧ (g.nodes q).isSome) ↔ ((g.nodes.modify p fun n =>
      { n with next := g.nodes.read LinkedNode.next none toReplace }).free toReplace q).isSome := by
    intro q
    by_cases hq : q = toReplace
    · rw [hq, Heap.free_self]
      exact iff_of_false (fun hn => hn.1 rfl) Bool.false_ne_true
    · rw [Heap.free_of_ne hq, Heap.modify_isSome]
      exact and_iff_right hq
  have hresult : g.replace toReplace owner toMove newClassification =
      { g with
        nodes := CFullGraphNode.replace g.nodes toReplace p owner toMove x newClassification
        nodeCount := g.nodeCount - 1 } := by
    rw [CFullGraph.replace, hp, hx]
  rw [hresult, CFullGraphNode.replace]
  generalize (((g.nodes.modify p fun n =>
      { n with next := g.nodes.read LinkedNode.next none toReplace }).free toReplace).modify owner
        fun n => { n with firstCopyTarget := n.firstCopyTarget.eraseIdx toMove }).modify x
          (fun n => { n with data := newClassification }) = nodes at hlinks hsame ⊢
  have hsomeIff : ∀ q, (q ≠ toReplace ∧ (g.nodes q).isSome) ↔ (nodes q).isSome := fun q =>
    (hgone q).trans (by rw [hsame])
  obtain ⟨hlinked, hsrc⟩ := insertAt_spec (l := (g.links.cutNext p toReplace).cutTarget owner toMove x)
    hcut' ((hsomeIff x).mp ⟨hxr, (isSome_of_source hl hsourceX).1⟩) ((hsomeIff p).mp ⟨hpr, hsomeP⟩)
    (by
      rw [hlinks]
      show Function.update g.links.prev toReplace none x = none
      rw [Function.update_of_ne hxr]
      exact hprevX)
    (by
      rw [hlinks]
      rfl)
    (Or.inr (by
      rw [hlinks]
      exact Function.update_self _ _ _))
  rw [hsrcCut', hsrcCut, Function.update_idem] at hsrc
  -- the root is above all nodes but the replaced one
  have hrootNe : ∀ r, g.root = some r → r ≠ toReplace ∧ r ≠ x := by
    intro r hr
    have hnone := (h.root r hr).2.1
    constructor
    · rintro rfl
      rw [hsourceR] at hnone
      cases hnone
    · rintro rfl
      rw [hsourceX] at hnone
      cases hnone
  have hbranch' : ¬ Above (Function.update g.links.source toReplace none) x p := fun habove =>
    hbranch ((above_of_prune habove).step hsourceR)
  refine ⟨hlinked, fun hnone n => ?_, fun r hr => ?_⟩
  · have hempty := h.empty hnone p
    rw [hempty] at hsomeP
    cases hsomeP
  · obtain ⟨hrsome, hrnone, habove⟩ := h.root r hr
    obtain ⟨hrR, hrX⟩ := hrootNe r hr
    refine ⟨?_, ?_, fun n hn => ?_⟩
    · rw [insertAt_isSome]
      exact (hsomeIff r).mp ⟨hrR, hrsome⟩
    · show (linksOf _).source r = none
      rw [hsrc, Function.update_of_ne hrX, Function.update_of_ne hrR]
      exact hrnone
    · rw [insertAt_isSome, ← hsomeIff] at hn
      show Above (linksOf _).source r n
      rw [hsrc]
      exact above_move (above_prune (habove n hn.2) hleaf hn.1)
        (above_prune (habove p hsomeP) hleaf hpr) hbranch'

end Invariant

/-- **In a run that adds chain nodes behind the last node of a chain only, and never moves the branch
that holds the replaced node, the links of the graph form a tree.** -/
theorem linkedTree_of_run (g : CFullGraph) (h : Run Careful g) : LinkedTree g := by
  have htree : Tree g := by
    induction h with
    | empty => exact tree_empty
    | step op _ hp hc ih =>
      cases op with
      | add node classification source => exact ih.add hp hc
      | replace toReplace owner toMove newClassification => exact ih.replace hp hc
  exact htree.linkedTree

/-- A root. -/
def rootOnly : CFullGraph := apply {} (.add 0 0 none)

/-- A root and the node behind it. -/
def twoNodes : CFullGraph := rootOnly.apply (.add 1 0 (some 0))

theorem run_twoNodes (careful : CFullGraph → Op → Prop) (h₁ : careful {} (.add 0 0 none))
    (h₂ : careful rootOnly (.add 1 0 (some 0))) : Run careful twoNodes := by
  have hroot : Run careful rootOnly :=
    Run.empty.step _ ⟨rfl, iff_of_true rfl rfl, nofun⟩ h₁
  refine hroot.step _ ⟨rfl, iff_of_false nofun (by decide), fun s hs => ?_⟩ h₂
  obtain rfl := Option.some.inj hs
  rfl

/-- A copy of the root takes the place of the node behind it. -/
theorem linkedTree_of_run_rename :
    LinkedTree ((twoNodes.apply (.add 2 IS_COPY_TARGET (some 0))).apply (.replace 1 0 0 IS_RENAMED)) := by
  have hrun : Run Careful twoNodes := run_twoNodes Careful (Or.inr nofun) (Or.inr fun s hs => by
    obtain rfl := Option.some.inj hs
    rfl)
  have hcopy : Run Careful (twoNodes.apply (.add 2 IS_COPY_TARGET (some 0))) := by
    refine hrun.step _ ⟨rfl, iff_of_false nofun (by decide), fun s hs => ?_⟩ (Or.inl (by decide))
    obtain rfl := Option.some.inj hs
    rfl
  refine linkedTree_of_run _ (hcopy.step _ ⟨by decide, rfl, rfl, by decide⟩ fun n hn habove => ?_)
  obtain rfl : 2 = n := Option.some.inj hn
  -- the source of node 1 is the root
  rcases habove.cases_tail with heq | ⟨z, hz, hsource⟩
  · exact absurd heq (by decide)
  · obtain rfl : 0 = z := Option.some.inj hsource
    exact absurd (hz.eq_of_root rfl) (by decide)

/-- A working copy revision between two nodes: the node behind it keeps its old `prev`. -/
theorem insert_breaks_prev : ¬ ∀ g, Run (fun _ _ => True) g → LinkedTree g := by
  intro h
  have hrun : Run (fun _ _ => True) (twoNodes.apply (.add 2 0 (some 0))) := by
    refine (run_twoNodes _ trivial trivial).step _
      ⟨rfl, iff_of_false nofun (by decide), fun s hs => ?_⟩ trivial
    obtain rfl := Option.some.inj hs
    rfl
  have hprev := ((h _ hrun).next_iff 2 1).mp rfl
  exact absurd hprev (by decide)

end CFullGraph

end TortoiseSvn.RevisionGraph
