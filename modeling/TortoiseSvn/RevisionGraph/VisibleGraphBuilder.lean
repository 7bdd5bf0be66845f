import TortoiseSvn.RevisionGraph.CutBranches
import TortoiseSvn.RevisionGraph.FullGraph

/-!
# Copying the full graph

`CVisibleGraphBuilder` makes the visible graph a filtered copy of the full graph. It walks along each
branch of the full graph, adds a visible node for every node that is kept, and goes down into the
copies of each node.

Main results: `clear_spec` and `add_spec`, what the two operations that the builder uses do to a
consistent graph.
-/

namespace TortoiseSvn.RevisionGraph

open TortoiseSvn.Lib CNodeClassification

namespace CNodeClassification

/-- "if set, the node should not be removed (only valid in visible graph)"
Source: `NodeClassification.h` `EFlags` -/
def MUST_BE_PRESERVED : CNodeClassification := 0x80000000

/-- Preserving a node does not change whether it is a copy target. -/
theorem is_preserved (c : CNodeClassification) :
    (c ||| MUST_BE_PRESERVED).is IS_COPY_TARGET = c.is IS_COPY_TARGET := by
  have hflags : (c ||| MUST_BE_PRESERVED) &&& (IS_COPY_TARGET ||| 0) =
      c &&& (IS_COPY_TARGET ||| 0) := by
    have hnone : MUST_BE_PRESERVED &&& (IS_COPY_TARGET ||| 0) = 0 := by decide
    have hdistrib : ∀ m : UInt32, (c ||| MUST_BE_PRESERVED) &&& m =
        c &&& m ||| MUST_BE_PRESERVED &&& m := by
      intro m
      apply UInt32.toBitVec_inj.mp
      ext i
      simp [Bool.and_or_distrib_right]
    rw [hdistrib, hnone, UInt32.or_zero]
  unfold is matchesFlags
  rw [hflags]

end CNodeClassification

/-- Source: `FullGraphNode.h` `GetClassification` -/
def CFullGraph.classification (g : CFullGraph) (n : ℕ) : CNodeClassification :=
  g.nodes.read LinkedNode.data 0 n

/-- The answers of a copy filter.
Source: `CopyFilterOptions.h` `ICopyFilterOption::EResult` -/
inductive EResult
  | KEEP_NODE
  | REMOVE_NODE
  | REMOVE_SUBTREE
  /-- "shall not be removed, even by other filters" -/
  | PRESERVE_NODE
  deriving DecidableEq

/-! ### New nodes -/

/-- A node at the free address `node`, linked to `prev`.
Source: `VisibleGraphNode.cpp` `CVisibleGraphNode::CVisibleGraphNode` -/
def CVisibleGraphNode.construct (nodes : Heap CVisibleGraphNode) (node base : ℕ)
    (flags : CNodeClassification) (prev : Option ℕ) (preserveNode : Bool) :
    Heap CVisibleGraphNode :=
  let classification := if preserveNode then flags ||| MUST_BE_PRESERVED else flags
  let nodes := nodes.alloc node { data := { base := base, classification := classification } }
  match prev with
  | none => nodes
  | some prev =>
    if classification.is IS_COPY_TARGET then
      (nodes.modify node fun n => { n with copySource := some prev }).modify prev
        fun p => { p with firstCopyTarget := node :: p.firstCopyTarget }
    else
      (nodes.modify prev fun p => { p with next := some node }).modify node
        fun n => { n with prev := some prev }

namespace CVisibleGraph

/-- Source: `VisibleGraphNode.h` `GetBase` -/
def base (g : CVisibleGraph) (n : ℕ) : ℕ := g.nodes.read (fun n => n.data.base) 0 n

/-- Add a node for the node `base` of the full graph, which has the given flags.
Source: `VisibleGraph.cpp` `CVisibleGraph::Add` -/
def add (g : CVisibleGraph) (node base : ℕ) (flags : CNodeClassification) (source : Option ℕ)
    (preserveNode : Bool) : CVisibleGraph :=
  { g with
    nodes := CVisibleGraphNode.construct g.nodes node base flags source preserveNode
    nodeCount := g.nodeCount + 1
    roots := if source = none then g.roots ++ [node] else g.roots }

/-- Destroy all nodes, from the last root to the first. No recursion is deeper than there are nodes.
Source: `VisibleGraph.cpp` `CVisibleGraph::Clear` -/
def clear (g : CVisibleGraph) : Option CVisibleGraph := do
  let g' ← g.roots.reverse.foldlM (destroy g.nodeCount) g
  some { g' with roots := [] }

/-- The memory that new nodes come from: it returns an address that is not in use. -/
structure NodePool where
  malloc : CVisibleGraph → ℕ
  free : ∀ g : CVisibleGraph, Consistent g → g.nodes (malloc g) = none

/-- A pool that returns the first free address. -/
def NodePool.firstFree : NodePool where
  malloc g := ((List.range (g.nodeCount + 1)).find? fun q => (g.nodes q).isNone).getD 0
  free g h := by
    obtain ⟨nodes, hnodes, hcard⟩ := h.counted
    -- there are more addresses than nodes
    have hlt : nodes.card < (Finset.range (g.nodeCount + 1)).card := by
      rw [Finset.card_range, hcard]
      exact Nat.lt_succ_self _
    obtain ⟨q, hq, hfree⟩ := Finset.exists_mem_notMem_of_card_lt_card hlt
    have hnone : (g.nodes q).isNone := by
      rw [hnodes] at hfree
      exact Option.isNone_iff_eq_none.mpr (Option.not_isSome_iff_eq_none.mp hfree)
    have hfind : ((List.range (g.nodeCount + 1)).find? fun q => (g.nodes q).isNone).isSome :=
      List.find?_isSome.mpr ⟨q, List.mem_range.mpr (Finset.mem_range.mp hq), hnone⟩
    obtain ⟨p, hp⟩ := Option.isSome_iff_exists.mp hfind
    have hp' := @List.find?_some _ (fun q => (g.nodes q).isNone) _ _ hp
    rw [hp, Option.getD_some]
    exact Option.isNone_iff_eq_none.mp hp'

end CVisibleGraph

/-! ### The copy loop -/

namespace CVisibleGraphBuilder

variable (fullGraph : CFullGraph) (copyFilter : ℕ → EResult) (pool : CVisibleGraph.NodePool)

/-- Copy what hangs below a node of the full graph.
Source: `VisibleGraphBuilder.cpp` `CVisibleGraphBuilder::CopyBranches` -/
def copyBranches (copy : CVisibleGraph → ℕ → Option CVisibleGraph) (v : CVisibleGraph)
    (source : ℕ) : Option CVisibleGraph := (fullGraph.links.copyTargets source).foldlM copy v

/-- Copy a branch from the node `source` on. The two nested loops are one recursion, with one turn for
each node; `none` when the fuel is used up.
Source: `VisibleGraphBuilder.cpp` `CVisibleGraphBuilder::Copy` -/
def copyFrom : ℕ → CVisibleGraph → ℕ → Option ℕ → Bool → Option CVisibleGraph
  | 0, _, _, _, _ => none
  | fuel + 1, v, source, target, firstNode =>
    let filterAction := copyFilter source
    match filterAction with
    -- "stop copy here, if the whole sub-tree shall be removed"
    | .REMOVE_SUBTREE => some v
    | .REMOVE_NODE => do
      -- "skip this node"
      let v ← copyBranches fullGraph (fun v copy => copyFrom fuel v copy none true) v source
      match fullGraph.links.next source with
      | none => some v
      | some next =>
        -- "special case: the creation node of the branch was removed -> create a new root"
        copyFrom fuel v next (if firstNode then none else target) firstNode
    | .KEEP_NODE | .PRESERVE_NODE => do
      -- "copy the node itself"
      let preserveNode := filterAction = .PRESERVE_NODE
      let node := pool.malloc v
      let v := v.add node source (fullGraph.classification source) target preserveNode
      let v ← copyBranches fullGraph (fun v copy => copyFrom fuel v copy (some node) true) v source
      match fullGraph.links.next source with
      | none => some v
      | some next => copyFrom fuel v next (some node) false

/-- No recursion is deeper than there are nodes.
Source: `VisibleGraphBuilder.cpp` `CVisibleGraphBuilder::Run` -/
def run (v : CVisibleGraph) : Option CVisibleGraph := do
  let v ← v.clear
  let root ← fullGraph.root
  copyFrom fullGraph copyFilter pool fullGraph.nodeCount v root none true

end CVisibleGraphBuilder

namespace CVisibleGraph

variable {g : CVisibleGraph}

/-! ### Clearing the graph -/

/-- Destroying some roots leaves the nodes below the other ones. -/
theorem destroy_roots (h : Consistent g) {rs : List ℕ} (hnodup : rs.Nodup)
    (hroots : ∀ r ∈ rs, r ∈ g.roots) :
    ∃ l g', rs.foldlM (destroy g.nodeCount) g = some g' ∧ l.Nodup ∧ Destroyed g l g' ∧
      ∀ q, q ∈ l ↔ ∃ r ∈ rs, Above g.links.source r q := by
  induction rs using List.reverseRecOn with
  | nil => exact ⟨[], g, rfl, List.nodup_nil, ⟨fun q => rfl, rfl, rfl⟩, fun q => by simp⟩
  | append_singleton rs r ih =>
    obtain ⟨hrs, -, hdisj⟩ := List.nodup_append'.mp hnodup
    obtain ⟨l, g₁, hg₁, hl, hdestroyed, hmem⟩ := ih hrs fun r' hr' =>
      hroots r' (List.mem_append_left _ hr')
    obtain ⟨hsome, hroot⟩ := (h.roots_iff r).mp (hroots r (by simp))
    obtain ⟨below, hcovers, hbelow, hbelowMem, hbelowSome, hlen⟩ := h.exists_covers hsome
    -- what is below one root is not below another
    have hapart : ∀ q ∈ below, q ∉ l := by
      intro q hq hql
      obtain ⟨r', hr', habove⟩ := (hmem q).mp hql
      have hroot' := ((h.roots_iff r').mp (hroots r' (List.mem_append_left _ hr'))).2
      have heq : r' = r := by
        rcases habove.total ((hbelowMem q).mp hq) with hle | hle
        · exact hle.eq_of_root hroot
        · exact (hle.eq_of_root hroot').symm
      exact hdisj hr' (by simp [heq])
    have hkept : ∀ q ∈ below, g₁.nodes q = g.nodes q := fun q hq => by
      rw [hdestroyed.nodes, if_neg (hapart q hq)]
    obtain ⟨g', hg', hdestroyed'⟩ := destroy_spec g.nodeCount g₁ r below
      (hcovers.congr fun q hq => branches_congr (hkept q hq)) hbelow
      (fun q hq => by rw [hkept q hq]; exact hbelowSome q hq) hlen
    refine ⟨l ++ below, g', ?_, ?_, ⟨fun q => ?_, ?_, ?_⟩, fun q => ?_⟩
    · rw [List.foldlM_append, hg₁]
      simp [hg']
    · exact List.nodup_append'.mpr ⟨hl, hbelow, fun q hq hq' => hapart q hq' hq⟩
    · rw [hdestroyed'.nodes, hdestroyed.nodes]
      by_cases hq : q ∈ below
      · rw [if_pos hq, if_pos (List.mem_append_right _ hq)]
      · have hiff : q ∈ l ++ below ↔ q ∈ l := by rw [List.mem_append, or_iff_left hq]
        rw [if_neg hq, if_congr hiff rfl rfl]
    · rw [hdestroyed'.roots, hdestroyed.roots]
    · rw [hdestroyed'.nodeCount, hdestroyed.nodeCount, List.length_append, Nat.sub_sub]
    · rw [List.mem_append, hmem, hbelowMem]
      simp [or_and_right, exists_or]

/-- Clearing a consistent graph leaves no node. -/
theorem clear_spec (h : Consistent g) : ∃ g', g.clear = some g' ∧ (∀ q, g'.nodes q = none) ∧
    g'.roots = [] ∧ g'.nodeCount = 0 := by
  obtain ⟨l, g₁, hg₁, hl, hdestroyed, hmem⟩ := @destroy_roots g h g.roots.reverse
    (List.nodup_reverse.mpr h.roots_nodup) fun r hr => List.mem_reverse.mp hr
  have hall : ∀ q, q ∈ l ↔ (g.nodes q).isSome := by
    intro q
    rw [hmem]
    constructor
    · rintro ⟨r, hr, habove⟩
      exact h.isSome_of_above ((h.roots_iff r).mp (List.mem_reverse.mp hr)).1 habove
    · intro hq
      obtain ⟨r, hr, habove⟩ := h.below q hq
      refine ⟨r, List.mem_reverse.mpr ((h.roots_iff r).mpr ⟨?_, hr⟩), habove⟩
      rcases Relation.ReflTransGen.cases_head habove with rfl | ⟨z, hz, -⟩
      · exact hq
      · exact (isSome_of_source h.linked hz).2
  refine ⟨{ g₁ with roots := [] }, by simp [clear, hg₁], fun q => ?_, rfl, ?_⟩
  · show g₁.nodes q = none
    rw [hdestroyed.nodes]
    split
    · rfl
    · rename_i hq
      exact Option.not_isSome_iff_eq_none.mp (mt (hall q).mpr hq)
  · show g₁.nodeCount = 0
    obtain ⟨nodes, hnodes, hcard⟩ := h.counted
    have hset : l.toFinset = nodes := by
      ext q
      rw [List.mem_toFinset, hall, hnodes]
    rw [hdestroyed.nodeCount, ← hcard, ← hset, List.toFinset_card_of_nodup hl, Nat.sub_self]

/-- A graph without nodes is consistent. -/
theorem consistent_of_empty (hnodes : ∀ q, g.nodes q = none) (hroots : g.roots = [])
    (hcount : g.nodeCount = 0) : Consistent g := by
  have hprev : ∀ q, g.links.prev q = none := fun q => Heap.read_of_none (hnodes q)
  have hnext : ∀ q, g.links.next q = none := fun q => Heap.read_of_none (hnodes q)
  have hcopy : ∀ q, g.links.copySource q = none := fun q => Heap.read_of_none (hnodes q)
  have htargets : ∀ q, g.links.copyTargets q = [] := fun q => Heap.read_of_none (hnodes q)
  refine ⟨⟨fun n m => ?_, fun n m => ?_, fun n => ?_, fun n => Or.inl (hprev n)⟩, fun n => ?_, ?_,
    fun n hn => ?_, ∅, fun n => ?_, hcount.symm⟩
  · rw [hnext, hprev]
    exact iff_of_false nofun nofun
  · rw [htargets, hcopy]
    exact iff_of_false List.not_mem_nil nofun
  · rw [htargets]
    exact List.nodup_nil
  · rw [hroots, hnodes]
    simp
  · rw [hroots]
    exact List.nodup_nil
  · rw [hnodes] at hn
    exact nomatch hn
  · rw [hnodes]
    simp

/-! ### Adding a node -/

/-- What adding a node has to give. -/
structure Added (g : CVisibleGraph) (node base : ℕ) (flags : CNodeClassification)
    (source : Option ℕ) (g' : CVisibleGraph) : Prop where
  consistent : Consistent g'
  isSome : ∀ q, (g'.nodes q).isSome ↔ q = node ∨ (g.nodes q).isSome
  base : g'.base = Function.update g.base node base
  prev : g'.links.prev =
    Function.update g.links.prev node (if flags.is IS_COPY_TARGET then none else source)
  copySource : g'.links.copySource =
    Function.update g.links.copySource node (if flags.is IS_COPY_TARGET then source else none)

variable {node base : ℕ} {flags : CNodeClassification} {source : Option ℕ} {preserveNode : Bool}

/-- The links after a node was added. -/
theorem links_add (hfree : g.nodes node = none) (hsource : ∀ s ∈ source, (g.nodes s).isSome) :
    (g.add node base flags source preserveNode).links =
      match source with
      | none => g.links
      | some s => if flags.is IS_COPY_TARGET then g.links.hang s node else g.links.append s node := by
  have hkind : (if preserveNode then flags ||| MUST_BE_PRESERVED else flags).is IS_COPY_TARGET =
      flags.is IS_COPY_TARGET := by
    cases preserveNode
    · rfl
    · exact is_preserved flags
  have halloc : ∀ data : CVisibleGraphNodeData,
      linksOf (g.nodes.alloc node { data := data }) = g.links := linksOf_alloc hfree
  have hnode : ∀ data : CVisibleGraphNodeData,
      (g.nodes.alloc node { data := data } node).isSome := fun data => by
    rw [Heap.alloc_self]
    rfl
  show linksOf (CVisibleGraphNode.construct g.nodes node base flags source preserveNode) = _
  unfold CVisibleGraphNode.construct
  cases source with
  | none => exact halloc _
  | some s =>
    have hs := hsource s rfl
    have hsomeS : ∀ data : CVisibleGraphNodeData,
        (g.nodes.alloc node { data := data } s).isSome := fun data => by
      by_cases hq : s = node
      · rw [hq]
        exact hnode data
      · rw [Heap.alloc_of_ne hq]
        exact hs
    dsimp only
    rw [hkind]
    split
    · rw [linksOf_setCopyTargets (by rw [Heap.modify_isSome]; exact hsomeS _) (node :: ·),
        linksOf_setCopySource (hnode _), halloc]
      rfl
    · rw [linksOf_setPrev (by rw [Heap.modify_isSome]; exact hnode _), linksOf_setNext (hsomeS _),
        halloc]
      rfl

theorem add_isSome (q : ℕ) : ((g.add node base flags source preserveNode).nodes q).isSome ↔
    q = node ∨ (g.nodes q).isSome := by
  have halloc : ∀ data : CVisibleGraphNodeData,
      (g.nodes.alloc node { data := data } q).isSome ↔ q = node ∨ (g.nodes q).isSome := by
    intro data
    by_cases hq : q = node
    · rw [hq, Heap.alloc_self]
      exact iff_of_true rfl (Or.inl rfl)
    · rw [Heap.alloc_of_ne hq, or_iff_right hq]
  show (CVisibleGraphNode.construct g.nodes node base flags source preserveNode q).isSome ↔ _
  unfold CVisibleGraphNode.construct
  cases source with
  | none => exact halloc _
  | some s =>
    dsimp only
    generalize (if preserveNode then flags ||| MUST_BE_PRESERVED else flags) = classification
    split
    · rw [Heap.modify_isSome, Heap.modify_isSome, halloc]
    · rw [Heap.modify_isSome, Heap.modify_isSome, halloc]

theorem base_add : (g.add node base flags source preserveNode).base =
    Function.update g.base node base := by
  show (CVisibleGraphNode.construct g.nodes node base flags source preserveNode).read
    (fun n => n.data.base) 0 = _
  unfold CVisibleGraphNode.construct
  cases source with
  | none => exact Heap.read_alloc_update _
  | some s =>
    dsimp only
    generalize (if preserveNode then flags ||| MUST_BE_PRESERVED else flags) = classification
    split
    · rw [Heap.read_modify_other (by intro; rfl), Heap.read_modify_other (by intro; rfl),
        Heap.read_alloc_update]
      rfl
    · rw [Heap.read_modify_other (by intro; rfl), Heap.read_modify_other (by intro; rfl),
        Heap.read_alloc_update]
      rfl

/-- Adding a node, as a root, as a copy of its source or behind it. -/
theorem add_spec (h : Consistent g) (hfree : g.nodes node = none)
    (hsource : ∀ s ∈ source, (g.nodes s).isSome ∧
      (flags.is IS_COPY_TARGET = true ∨ g.links.next s = none)) :
    Added g node base flags source (g.add node base flags source preserveNode) := by
  have hnone := source_of_none hfree
  have hlinks := @links_add g node base flags source preserveNode hfree fun s hs => (hsource s hs).1
  obtain ⟨hprevNone, hcopyNone⟩ := NodeLinks.source_eq_none.mp hnone
  obtain ⟨hlinked, hsrc, hprev, hcopy⟩ :
      (g.add node base flags source preserveNode).links.Linked ∧
      (g.add node base flags source preserveNode).links.source =
        Function.update g.links.source node source ∧
      (g.add node base flags source preserveNode).links.prev =
        Function.update g.links.prev node (if flags.is IS_COPY_TARGET then none else source) ∧
      (g.add node base flags source preserveNode).links.copySource =
        Function.update g.links.copySource node (if flags.is IS_COPY_TARGET then source else none) := by
    rw [hlinks]
    cases source with
    | none =>
      refine ⟨h.linked, ?_, ?_, ?_⟩
      · exact (Function.update_eq_self_iff.mpr hnone.symm).symm
      · rw [ite_self]
        exact (Function.update_eq_self_iff.mpr hprevNone.symm).symm
      · rw [ite_self]
        exact (Function.update_eq_self_iff.mpr hcopyNone.symm).symm
    | some s =>
      dsimp only
      by_cases hkind : flags.is IS_COPY_TARGET = true
      · rw [if_pos hkind, if_pos hkind, if_pos hkind]
        refine ⟨h.linked.hang hnone, NodeLinks.source_hang, ?_, rfl⟩
        exact (Function.update_eq_self_iff.mpr hprevNone.symm).symm
      · rw [if_neg hkind, if_neg hkind, if_neg hkind]
        have hend := (hsource s rfl).2.resolve_left hkind
        refine ⟨h.linked.append hend hnone, NodeLinks.source_append hnone, rfl, ?_⟩
        exact (Function.update_eq_self_iff.mpr hcopyNone.symm).symm
  -- no node is below the new one
  have hbeside : ∀ q, (g.nodes q).isSome → ¬ Above g.links.source node q := by
    intro q hq habove
    rcases Relation.ReflTransGen.cases_head habove with rfl | ⟨z, hz, -⟩
    · rw [hfree] at hq
      exact nomatch hq
    · have hnode := (isSome_of_source h.linked hz).2
      rw [hfree] at hnode
      exact nomatch hnode
  have hne : ∀ q, (g.nodes q).isSome → q ≠ node := fun q hq heq => by
    rw [heq, hfree] at hq
    exact nomatch hq
  refine ⟨⟨hlinked, fun q => ?_, ?_, fun q hq => ?_, ?_⟩, add_isSome, base_add, hprev, hcopy⟩
  · show q ∈ (if source = none then g.roots ++ [node] else g.roots) ↔ _
    rw [add_isSome, hsrc]
    by_cases hq : q = node
    · rw [hq, Function.update_self]
      have hnot : node ∉ g.roots := fun hmem => hne node ((h.roots_iff node).mp hmem).1 rfl
      cases source <;> simp [hnot]
    · rw [Function.update_of_ne hq, or_iff_right hq, ← h.roots_iff]
      split
      · simp [hq]
      · exact Iff.rfl
  · show (if source = none then g.roots ++ [node] else g.roots).Nodup
    split
    · refine List.nodup_append'.mpr ⟨h.roots_nodup, List.nodup_singleton node, fun q hq hq' => ?_⟩
      exact hne q ((h.roots_iff q).mp hq).1 (List.mem_singleton.mp hq')
    · exact h.roots_nodup
  · rw [hsrc]
    have hold : ∀ s, (g.nodes s).isSome → ∃ r, Function.update g.links.source node source r = none ∧
        Above (Function.update g.links.source node source) r s := by
      intro s hs
      obtain ⟨r, hr, habove⟩ := h.below s hs
      have hrs : r ≠ node := fun heq => hbeside s hs (heq ▸ habove)
      exact ⟨r, by rw [Function.update_of_ne hrs, hr], above_update_of_not _ habove (hbeside s hs)⟩
    rcases add_isSome q |>.mp hq with rfl | hq
    · cases source with
      | none => exact ⟨q, Function.update_self _ _ _, Above.refl _ q⟩
      | some s =>
        obtain ⟨r, hr, habove⟩ := hold s (hsource s rfl).1
        exact ⟨r, hr, habove.step (Function.update_self _ _ _)⟩
    · exact hold q hq
  · obtain ⟨nodes, hnodes, hcard⟩ := h.counted
    refine ⟨insert node nodes, fun q => ?_, ?_⟩
    · rw [Finset.mem_insert, hnodes, add_isSome]
    · rw [Finset.card_insert_of_notMem fun hmem => hne node ((hnodes node).mp hmem) rfl, hcard]
      rfl

end CVisibleGraph

end TortoiseSvn.RevisionGraph
