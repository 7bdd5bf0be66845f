import TortoiseSvn.RevisionGraph.BackwardClassification

/-!
# Finding renames

A line that ends with a deletion and goes on as a single copy of the same revision was renamed.
`FindRenames` puts the copy in the place of the deletion, and goes on with the branch that it has moved.

`Found` says what the graph is after a set of nodes was looked at. The walk changes no other node.

Main result: `findRenames_spec`.
-/

namespace TortoiseSvn.RevisionGraph

open TortoiseSvn.Lib CNodeClassification CVisibleGraphBuilder

/-- Where a node comes from.
Source: `FullGraphNode.h` `CFullGraphNode`, the members `path` and `revision` -/
structure NodeOrigin (Path : Type) where
  path : Path
  revision : ℕ

/-- A full graph with the paths and revisions of its nodes. -/
structure DatedGraph (Path : Type) where
  graph : CFullGraph
  origins : Heap (NodeOrigin Path)

namespace DatedGraph

variable {Path : Type} (g : DatedGraph Path)

abbrev links : NodeLinks := g.graph.links

abbrev classification (node : ℕ) : CNodeClassification := g.graph.classification node

/-- Source: `FullGraphNode.h` `GetRevision` -/
def getRevision (node : ℕ) : ℕ := g.origins.read NodeOrigin.revision 0 node

/-- `none` when an assert fails.
Source: `FullGraph.cpp` `CFullGraph::Replace` -/
def replace (toReplace owner toMove : ℕ) (newClassification : CNodeClassification) :
    Option (DatedGraph Path) :=
  -- "we support simple cases only"
  if g.links.prev toReplace ≠ none ∧ g.links.next toReplace = none ∧
      g.links.copyTargets toReplace = [] then
    some {
      graph := g.graph.replace toReplace owner toMove newClassification
      origins := g.origins.free toReplace }
  else none

end DatedGraph

namespace CFullGraphFinalizer

variable {Path : Type}

/-! ### The code -/

/-- The position of the only copy target of a revision; a target that is not classified as one makes an
assert fail.
Source: `FullGraphFinalizer.cpp` `CFullGraphFinalizer::FindRenames`, "will it be continued exactly once
under a different name?" -/
def findTarget (g : DatedGraph Path) (revision : ℕ) : List ℕ → ℕ → Option ℕ → Option (Option ℕ)
  | [], _, renameCopy => some renameCopy
  | target :: rest, copy, renameCopy =>
    if (g.classification target).is IS_COPY_TARGET then
      if g.getRevision target = revision then
        match renameCopy with
        -- "there is more than one copy target"
        | some _ => some none
        | none => findTarget g revision rest (copy + 1) (some copy)
      else findTarget g revision rest (copy + 1) renameCopy
    else none

/-- One node: the graph, and the node behind it.
Source: `FullGraphFinalizer.cpp` `CFullGraphFinalizer::FindRenames`, "this line will be deleted" -/
def renameNext (g : DatedGraph Path) (node : ℕ) : Option (DatedGraph Path × Option ℕ) :=
  match g.links.next node with
  | none => some (g, none)
  | some next =>
    if (g.classification next).is (IS .DELETED) then do
      match ← findTarget g (g.getRevision next) (g.links.copyTargets node) 0 none with
      | none => some (g, some next)
      | some renameCopy =>
        -- "optimize graph"
        let g ← g.replace next node renameCopy IS_RENAMED
        some (g, g.links.next node)
    else some (g, some next)

/-- The copies of a node, from a position in the list on.
Source: `FullGraphFinalizer.cpp` `CFullGraphFinalizer::FindRenames`, "recourse" -/
def findCopies (find : DatedGraph Path → ℕ → Option (DatedGraph Path)) (node : ℕ) :
    ℕ → DatedGraph Path → ℕ → Option (DatedGraph Path)
  | 0, _, _ => none
  | fuel + 1, g, copy =>
    match (g.links.copyTargets node)[copy]? with
    | none => some g
    | some target => do
      let g ← find g target
      findCopies find node fuel g (copy + 1)

/-- The loop, from a node on; the loop goes on with the next node as a call for it does. `none` when the
fuel is used up.
Source: `FullGraphFinalizer.cpp` `CFullGraphFinalizer::FindRenames` -/
def findFrom : ℕ → DatedGraph Path → ℕ → Option (DatedGraph Path)
  | 0, _, _ => none
  | fuel + 1, g, node => do
    let (g, next) ← renameNext g node
    let g ← findCopies (findFrom fuel) node (fuel + 1) g 0
    match next with
    | none => some g
    | some next => findFrom fuel g next

/-- No branch, no list of copies and no recursion is longer than there are nodes.
Source: `FullGraphFinalizer.cpp` `CFullGraphFinalizer::FindRenames` -/
def FindRenames (g : DatedGraph Path) (node : ℕ) : Option (DatedGraph Path) :=
  findFrom g.graph.nodeCount g node

attribute [local simp] findTarget findCopies findFrom

/-! ### What the walk has to do -/

/-- The deletion `d` behind `p` is a rename to `t`: the only copy of `p` of that revision. -/
structure Renames (g : DatedGraph Path) (p d t : ℕ) : Prop where
  deleted : (g.classification d).is (IS .DELETED) = true
  prev : g.links.prev d = some p
  target : t ∈ g.links.copyTargets p
  revision : g.getRevision t = g.getRevision d
  only : ∀ t' ∈ g.links.copyTargets p, g.getRevision t' = g.getRevision d → t' = t

/-- The graph in which all renames were found. -/
structure RenamesFound (g g' : DatedGraph Path) : Prop where
  consistent : ConsistentFullGraph g'.graph
  root : g'.graph.root = g.graph.root
  /-- The renamed deletions are removed, and no other node. -/
  isSome : ∀ n, (g'.graph.nodes n).isSome ↔
    (g.graph.nodes n).isSome ∧ ¬ ∃ p t, Renames g p n t
  /-- The targets stand in their place. -/
  renamed : ∀ p d t, Renames g p d t →
    g'.links.next p = some t ∧ g'.links.prev t = some p ∧ g'.classification t = IS_RENAMED
  /-- All nodes keep what is behind them, and the other copies. -/
  next : ∀ n, (¬ ∃ d t, Renames g n d t) → g'.links.next n = g.links.next n
  copyTargets : ∀ n t, t ∈ g'.links.copyTargets n ↔
    t ∈ g.links.copyTargets n ∧ ¬ ∃ p d, Renames g p d t
  /-- Nothing else changes. -/
  origins : ∀ n, (g'.graph.nodes n).isSome → g'.origins n = g.origins n
  others : ∀ n, (g'.graph.nodes n).isSome → (¬ ∃ p d, Renames g p d n) →
    g'.classification n = g.classification n ∧ g'.links.source n = g.links.source n

/-! ### The only target -/

section Target

variable {g : DatedGraph Path} (revision : ℕ)

/-- Once a target was found, a second one makes the search fail. -/
theorem findTarget_found {cs : List ℕ} (hcs : ∀ c ∈ cs, (g.classification c).is IS_COPY_TARGET = true)
    (i k : ℕ) : ∃ r, findTarget g revision cs i (some k) = some r ∧
      (r = none ∧ (∃ c ∈ cs, g.getRevision c = revision) ∨
        r = some k ∧ ∀ c ∈ cs, g.getRevision c ≠ revision) := by
  induction cs generalizing i with
  | nil => exact ⟨some k, rfl, Or.inr ⟨rfl, nofun⟩⟩
  | cons c cs ih =>
    obtain ⟨hc, hcs⟩ := List.forall_mem_cons.mp hcs
    rw [findTarget, if_pos hc]
    by_cases hrev : g.getRevision c = revision
    · rw [if_pos hrev]
      exact ⟨none, rfl, Or.inl ⟨rfl, c, List.mem_cons_self, hrev⟩⟩
    · rw [if_neg hrev]
      obtain ⟨r, hr, hcases⟩ := ih hcs (i + 1)
      refine ⟨r, hr, hcases.imp ?_ ?_⟩
      · rintro ⟨hnone, c', hc', hrev'⟩
        exact ⟨hnone, c', List.mem_cons_of_mem c hc', hrev'⟩
      · rintro ⟨hsome, hall⟩
        exact ⟨hsome, List.forall_mem_cons.mpr ⟨hrev, hall⟩⟩

/-- The search finds the only target, if there is one. -/
theorem findTarget_spec {cs : List ℕ} (hcs : ∀ c ∈ cs, (g.classification c).is IS_COPY_TARGET = true)
    (hnodup : cs.Nodup) (i : ℕ) : ∃ r, findTarget g revision cs i none = some r ∧
      (r = none ∧ (∀ t ∈ cs, g.getRevision t = revision →
          ∃ t' ∈ cs, g.getRevision t' = revision ∧ t' ≠ t) ∨
        ∃ j t, r = some (i + j) ∧ cs[j]? = some t ∧ g.getRevision t = revision ∧
          ∀ t' ∈ cs, g.getRevision t' = revision → t' = t) := by
  induction cs generalizing i with
  | nil => exact ⟨none, rfl, Or.inl ⟨rfl, nofun⟩⟩
  | cons c cs ih =>
    obtain ⟨hc, hcs⟩ := List.forall_mem_cons.mp hcs
    obtain ⟨hnot, hnodup⟩ := List.nodup_cons.mp hnodup
    rw [findTarget, if_pos hc]
    by_cases hrev : g.getRevision c = revision
    · rw [if_pos hrev]
      obtain ⟨r, hr, ⟨rfl, c', hc', hrev'⟩ | ⟨rfl, hall⟩⟩ :=
        findTarget_found revision hcs (i + 1) i
      · refine ⟨none, hr, Or.inl ⟨rfl, fun t ht _ => ?_⟩⟩
        by_cases htc : t = c
        · exact ⟨c', List.mem_cons_of_mem c hc', hrev', fun heq => hnot (htc ▸ heq ▸ hc')⟩
        · exact ⟨c, List.mem_cons_self, hrev, Ne.symm htc⟩
      · refine ⟨some i, hr, Or.inr ⟨0, c, rfl, rfl, hrev, fun t' ht' hrev' => ?_⟩⟩
        rcases List.mem_cons.mp ht' with heq | hmem
        · exact heq
        · exact absurd hrev' (hall t' hmem)
    · rw [if_neg hrev]
      have hrest : ∀ t' ∈ c :: cs, g.getRevision t' = revision → t' ∈ cs := by
        intro t' ht' hrev'
        rcases List.mem_cons.mp ht' with rfl | hmem
        · exact absurd hrev' hrev
        · exact hmem
      obtain ⟨r, hr, ⟨rfl, hmany⟩ | ⟨j, t, rfl, hj, ht, honly⟩⟩ := ih hcs hnodup (i + 1)
      · refine ⟨none, hr, Or.inl ⟨rfl, fun t ht hrev' => ?_⟩⟩
        obtain ⟨t', ht', hrest'⟩ := hmany t (hrest t ht hrev') hrev'
        exact ⟨t', List.mem_cons_of_mem c ht', hrest'⟩
      · refine ⟨some (i + 1 + j), hr, Or.inr ⟨j + 1, t, ?_, hj, ht, fun t' ht' hrev' => ?_⟩⟩
        · rw [Nat.add_assoc, Nat.add_comm 1 j]
        · exact honly t' (hrest t' ht' hrev') hrev'

end Target

/-! ### A replacement -/

/-- A chain's last node is replaced by a copy of the node in front of it. -/
structure Replaced (g : CFullGraph) (x d t : ℕ) (g' : CFullGraph) : Prop where
  consistent : ConsistentFullGraph g'
  root : g'.root = g.root
  isSome : ∀ n, (g'.nodes n).isSome ↔ n ≠ d ∧ (g.nodes n).isSome
  next : g'.links.next = Function.update g.links.next x (some t)
  copyTargets : g'.links.copyTargets =
    Function.update g.links.copyTargets x ((g.links.copyTargets x).erase t)
  classification : ∀ n, n ≠ d → g'.classification n =
    if n = t then IS_RENAMED else g.classification n

section Replace

variable {g : CFullGraph} {x d t i : ℕ}

/-- The nodes when the replaced one is gone, and the one to insert is out of its list. -/
def beforeInsert (nodes : Heap CFullGraphNode) (x d t i : ℕ) : Heap CFullGraphNode :=
  (((nodes.modify x fun n => { n with next := nodes.read LinkedNode.next none d }).free d).modify x
    fun n => { n with firstCopyTarget := n.firstCopyTarget.eraseIdx i }).modify t
      fun n => { n with data := IS_RENAMED }

theorem replace_eq (hd : g.links.prev d = some x) (ht : (g.links.copyTargets x)[i]? = some t) :
    g.replace d x i IS_RENAMED =
      { g with
        nodes := CFullGraphNode.insertAt (beforeInsert g.nodes x d t i) t (some x)
        nodeCount := g.nodeCount - 1 } := by
  rw [CFullGraph.replace, hd, ht]
  rfl

theorem beforeInsert_isSome (nodes : Heap CFullGraphNode) (x d t i n : ℕ) :
    (beforeInsert nodes x d t i n).isSome ↔ n ≠ d ∧ (nodes n).isSome := by
  rw [beforeInsert, Heap.modify_isSome, Heap.modify_isSome]
  by_cases hn : n = d
  · rw [hn, Heap.free_self]
    exact iff_of_false Bool.false_ne_true fun h => h.1 rfl
  · rw [Heap.free_of_ne hn, Heap.modify_isSome]
    exact (and_iff_right hn).symm

theorem data_modify {nodes : Heap CFullGraphNode} {n : ℕ} {f : CFullGraphNode → CFullGraphNode}
    (hf : ∀ m, (f m).data = m.data) :
    (nodes.modify n f).read LinkedNode.data 0 = nodes.read LinkedNode.data 0 :=
  Heap.read_modify_other hf

theorem beforeInsert_data {nodes : Heap CFullGraphNode} (x i : ℕ) (ht : (nodes t).isSome)
    (htd : t ≠ d) {n : ℕ} (hn : n ≠ d) :
    (beforeInsert nodes x d t i).read LinkedNode.data 0 n =
      if n = t then IS_RENAMED else nodes.read LinkedNode.data 0 n := by
  have hsome : (((nodes.modify x fun n =>
      { n with next := nodes.read LinkedNode.next none d }).free d).modify x fun n =>
        { n with firstCopyTarget := n.firstCopyTarget.eraseIdx i } : Heap CFullGraphNode) t
          |>.isSome := by
    rw [Heap.modify_isSome, Heap.free_of_ne htd, Heap.modify_isSome]
    exact ht
  rw [beforeInsert, Heap.read_modify hsome (fun _ => IS_RENAMED) fun _ => rfl, data_modify,
    Heap.read_free, data_modify, Function.update_apply, Function.update_of_ne hn]
  · exact fun _ => rfl
  · exact fun _ => rfl

theorem insertAt_data (nodes : Heap CFullGraphNode) (n s : ℕ) :
    (CFullGraphNode.insertAt nodes n (some s)).read LinkedNode.data 0 =
      nodes.read LinkedNode.data 0 := by
  unfold CFullGraphNode.insertAt
  dsimp only
  split
  · rw [data_modify, data_modify, data_modify] <;> exact fun _ => rfl
  · rw [data_modify, data_modify, data_modify]
    · split
      · exact data_modify fun _ => rfl
      · rfl
    all_goals exact fun _ => rfl

theorem links_replace (hl : g.links.Linked) (hd : g.links.prev d = some x)
    (hnext : g.links.next d = none) (hcopies : g.links.copyTargets d = [])
    (ht : (g.links.copyTargets x)[i]? = some t) :
    (g.replace d x i IS_RENAMED).links =
      { prev := Function.update (Function.update g.links.prev d none) t (some x)
        next := Function.update g.links.next x (some t)
        copySource := Function.update g.links.copySource t none
        copyTargets := Function.update g.links.copyTargets x ((g.links.copyTargets x).erase t) } := by
  have hcopy := (hl.target_iff x t).mp (List.mem_of_getElem? ht)
  have hnextX := (hl.next_iff x d).mpr hd
  have htd : t ≠ d := by
    rintro rfl
    rcases hl.one t with hnone | hnone
    · exact nomatch hnone.symm.trans hd
    · exact nomatch hnone.symm.trans hcopy
  have hxd : x ≠ d := by
    rintro rfl
    exact nomatch hnext.symm.trans hnextX
  obtain ⟨htSome, hxSome⟩ := isSome_of_source hl (hl.source_eq_some.mpr (Or.inr hcopy))
  have hbefore : linksOf (beforeInsert g.nodes x d t i) = _ :=
    CFullGraph.links_before_insert hl IS_RENAMED hd hnext hcopies ht
  have hdata : ¬ ((beforeInsert g.nodes x d t i).read LinkedNode.data 0 t).is IS_COPY_TARGET = true := by
    rw [beforeInsert_data x i htSome htd htd, if_pos rfl]
    decide
  have herase : (g.links.copyTargets x).eraseIdx i = (g.links.copyTargets x).erase t := by
    obtain ⟨hlt, hget⟩ := List.getElem?_eq_some_iff.mp ht
    rw [← hget]
    exact ((hl.nodup x).erase_getElem i hlt).symm
  rw [replace_eq hd ht]
  show linksOf (CFullGraphNode.insertAt (beforeInsert g.nodes x d t i) t (some x)) = _
  rw [linksOf_insertAt_chain ((beforeInsert_isSome _ x d t i t).mpr ⟨htd, htSome⟩)
    ((beforeInsert_isSome _ x d t i x).mpr ⟨hxd, hxSome⟩) hdata
    (by rw [hbefore]; exact Function.update_self _ _ _), hbefore, herase]
  simp only [NodeLinks.cutNext, Function.update_idem]

theorem replaced_of_replace (hfull : ConsistentFullGraph g) (hd : g.links.prev d = some x)
    (hnext : g.links.next d = none) (hcopies : g.links.copyTargets d = [])
    (ht : (g.links.copyTargets x)[i]? = some t) :
    Replaced g x d t (g.replace d x i IS_RENAMED) := by
  have hl := hfull.linked
  have hcopy := (hl.target_iff x t).mp (List.mem_of_getElem? ht)
  have hsourceT := hl.source_eq_some.mpr (Or.inr hcopy)
  have hsourceD := hl.source_eq_some.mpr (Or.inl hd)
  have htd : t ≠ d := by
    rintro rfl
    rcases hl.one t with hnone | hnone
    · exact nomatch hnone.symm.trans hd
    · exact nomatch hnone.symm.trans hcopy
  have htSome := (isSome_of_source hl hsourceT).1
  have hdSome := (isSome_of_source hl hsourceD).1
  have hlinks := links_replace hl hd hnext hcopies ht
  have hisSome : ∀ n, ((g.replace d x i IS_RENAMED).nodes n).isSome ↔
      n ≠ d ∧ (g.nodes n).isSome := by
    intro n
    rw [replace_eq hd ht]
    show (CFullGraphNode.insertAt _ t (some x) n).isSome ↔ _
    rw [insertAt_isSome, beforeInsert_isSome]
  have hroot : (g.replace d x i IS_RENAMED).root = g.root := by
    rw [replace_eq hd ht]
  have hclass : ∀ n, n ≠ d → (g.replace d x i IS_RENAMED).classification n =
      if n = t then IS_RENAMED else g.classification n := by
    intro n hn
    rw [replace_eq hd ht, CFullGraph.classification]
    show (CFullGraphNode.insertAt _ t (some x)).read LinkedNode.data 0 n = _
    rw [insertAt_data, beforeInsert_data x i htSome htd hn]
    rfl
  -- the copy that moves does not hold the deletion
  have hbranch : ¬ Above g.links.source t d := by
    intro habove
    rcases habove.cases_tail with heq | ⟨z, hz, hzd⟩
    · exact htd heq
    · obtain rfl := Option.some.inj (hsourceD.symm.trans hzd)
      exact hfull.not_above hsourceT hz
  have htree : CFullGraph.Tree (g.replace d x i IS_RENAMED) := by
    refine hfull.tree.replace ⟨?_, hnext, hcopies, ?_⟩ fun n hn => ?_
    · rw [hd]
      exact Option.some_ne_none x
    · rw [ht]
      exact Option.some_ne_none t
    · obtain rfl := Option.some.inj (ht.symm.trans hn)
      exact hbranch
  constructor
  case root => exact hroot
  case isSome => exact hisSome
  case classification => exact hclass
  case next => rw [hlinks]
  case copyTargets => rw [hlinks]
  case consistent =>
    refine ⟨htree, by rw [hroot]; exact hfull.root, ?_, fun n hn => ?_⟩
    · obtain ⟨nodes, hmem, hcard⟩ := hfull.counted
      refine ⟨nodes.erase d, fun n => ?_, ?_⟩
      · rw [Finset.mem_erase, hmem, hisSome]
      · rw [Finset.card_erase_of_mem ((hmem d).mpr hdSome), hcard, replace_eq hd ht]
    · obtain ⟨hnd, hn⟩ := (hisSome n).mp hn
      rw [hclass n hnd, hlinks, hroot]
      dsimp only
      by_cases hnt : n = t
      · rw [if_pos hnt, hnt, Function.update_self]
        exact iff_of_false (by decide) fun h => nomatch h.1
      · rw [if_neg hnt, Function.update_of_ne hnt, Function.update_of_ne hnd]
        exact hfull.classified n hn

end Replace

/-! ### The invariant -/

/-- The graph after the nodes of a set were looked at. -/
structure Found (g s : DatedGraph Path) (V : Set ℕ) : Prop where
  consistent : ConsistentFullGraph s.graph
  root : s.graph.root = g.graph.root
  isSome : ∀ n, (s.graph.nodes n).isSome ↔
    (g.graph.nodes n).isSome ∧ ∀ p ∈ V, ∀ t, ¬ Renames g p n t
  renamed : ∀ p ∈ V, ∀ d t, Renames g p d t → s.links.next p = some t ∧
    s.links.copyTargets p = (g.links.copyTargets p).erase t ∧ s.classification t = IS_RENAMED
  same : ∀ p, (p ∈ V → ∀ d t, ¬ Renames g p d t) →
    s.links.next p = g.links.next p ∧ s.links.copyTargets p = g.links.copyTargets p
  classification : ∀ n, (s.graph.nodes n).isSome → (∀ p ∈ V, ∀ d, ¬ Renames g p d n) →
    s.classification n = g.classification n
  origins : ∀ n, (s.graph.nodes n).isSome → s.origins n = g.origins n

section Invariant

variable {g s : DatedGraph Path} {V : Set ℕ} {x d t : ℕ}

/-- A node has one rename at most. -/
theorem Renames.unique {p p' d' t' : ℕ} (hl : g.links.Linked) (h : Renames g p d t)
    (h' : Renames g p' d' t') (heq : p = p' ∨ d = d' ∨ t = t') : p = p' ∧ d = d' ∧ t = t' := by
  have hp : p = p' := by
    rcases heq with heq | rfl | rfl
    · exact heq
    · exact Option.some.inj (h.prev.symm.trans h'.prev)
    · exact Option.some.inj (((hl.target_iff p t).mp h.target).symm.trans
        ((hl.target_iff p' t).mp h'.target))
  subst hp
  have hd : d = d' := Option.some.inj
    (((hl.next_iff p d).mpr h.prev).symm.trans ((hl.next_iff p d').mpr h'.prev))
  subst hd
  exact ⟨rfl, rfl, h'.only t h.target h.revision⟩

/-- A deletion is no copy target. -/
theorem Renames.not_target {p p' d' : ℕ} (hl : g.links.Linked) (h : Renames g p d t) :
    ¬ Renames g p' d' d := by
  intro h'
  have hcopy := (hl.target_iff p' d).mp h'.target
  rcases hl.one d with hnone | hnone
  · exact nomatch hnone.symm.trans h.prev
  · exact nomatch hnone.symm.trans hcopy

/-- Nothing happens at a node without a rename. -/
theorem Found.passed (h : Found g s V) (hx : ∀ d t, ¬ Renames g x d t) : Found g s (insert x V) := by
  constructor
  case consistent => exact h.consistent
  case root => exact h.root
  case isSome =>
    intro n
    rw [h.isSome]
    refine and_congr_right fun _ => ⟨?_, fun hall p hp => hall p (Or.inr hp)⟩
    rintro hall p (rfl | hp)
    · exact hx n
    · exact hall p hp
  case renamed =>
    rintro p (rfl | hp) d t hr
    · exact absurd hr (hx d t)
    · exact h.renamed p hp d t hr
  case same => exact fun p hp => h.same p fun hmem => hp (Or.inr hmem)
  case classification => exact fun n hn hall => h.classification n hn fun p hp => hall p (Or.inr hp)
  case origins => exact h.origins

/-- A rename is found. -/
theorem Found.replaced (hl : g.links.Linked) (h : Found g s V) (hx : x ∉ V) (hr : Renames g x d t)
    {graph : CFullGraph} (hgraph : Replaced s.graph x d t graph) :
    Found g { graph := graph, origins := s.origins.free d } (insert x V) := by
  have hne : ∀ p ∈ V, p ≠ x := fun p hp heq => hx (heq ▸ hp)
  have hsame := h.same x fun hmem => absurd hmem hx
  have htd : t ≠ d := fun heq => (hr.not_target hl) (heq ▸ hr)
  constructor
  case consistent => exact hgraph.consistent
  case root => exact hgraph.root.trans h.root
  case isSome =>
    intro n
    show (graph.nodes n).isSome ↔ _
    rw [hgraph.isSome, h.isSome]
    constructor
    · rintro ⟨hnd, hn, hall⟩
      refine ⟨hn, ?_⟩
      rintro p (rfl | hp) t' hr'
      · exact hnd (hr'.unique hl hr (Or.inl rfl)).2.1
      · exact hall p hp t' hr'
    · rintro ⟨hn, hall⟩
      refine ⟨?_, hn, fun p hp => hall p (Or.inr hp)⟩
      rintro rfl
      exact hall x (Or.inl rfl) t hr
  case renamed =>
    rintro p (rfl | hp) d' t' hr'
    · obtain ⟨-, rfl, rfl⟩ := hr.unique hl hr' (Or.inl rfl)
      refine ⟨?_, ?_, ?_⟩
      · show graph.links.next p = _
        rw [hgraph.next, Function.update_self]
      · show graph.links.copyTargets p = _
        rw [hgraph.copyTargets, Function.update_self]
        exact congrArg (·.erase t) hsame.2
      · show graph.classification t = _
        rw [hgraph.classification t htd, if_pos rfl]
    · obtain ⟨hnext, hcopies, hclass⟩ := h.renamed p hp d' t' hr'
      have ht' : t' ≠ t := fun heq => hne p hp (hr'.unique hl hr (Or.inr (Or.inr heq))).1
      have htd' : t' ≠ d := fun heq => (hr.not_target hl) (heq ▸ hr')
      refine ⟨?_, ?_, ?_⟩
      · show graph.links.next p = _
        rw [hgraph.next, Function.update_of_ne (hne p hp)]
        exact hnext
      · show graph.links.copyTargets p = _
        rw [hgraph.copyTargets, Function.update_of_ne (hne p hp)]
        exact hcopies
      · show graph.classification t' = _
        rw [hgraph.classification t' htd', if_neg ht']
        exact hclass
  case same =>
    intro p hp
    have hpx : p ≠ x := fun heq => hp (Or.inl heq) d t (heq ▸ hr)
    obtain ⟨hnext, hcopies⟩ := h.same p fun hmem => hp (Or.inr hmem)
    constructor
    · show graph.links.next p = _
      rw [hgraph.next, Function.update_of_ne hpx]
      exact hnext
    · show graph.links.copyTargets p = _
      rw [hgraph.copyTargets, Function.update_of_ne hpx]
      exact hcopies
  case classification =>
    intro n hn hall
    obtain ⟨hnd, hn⟩ := (hgraph.isSome n).mp hn
    have hnt : n ≠ t := fun heq => hall x (Or.inl rfl) d (heq ▸ hr)
    show graph.classification n = _
    rw [hgraph.classification n hnd, if_neg hnt]
    exact h.classification n hn fun p hp => hall p (Or.inr hp)
  case origins =>
    intro n hn
    obtain ⟨hnd, hn⟩ := (hgraph.isSome n).mp hn
    exact (Heap.free_of_ne hnd).trans (h.origins n hn)

theorem Found.getRevision (h : Found g s V) {n : ℕ} (hn : (s.graph.nodes n).isSome) :
    s.getRevision n = g.getRevision n := by
  rw [DatedGraph.getRevision, DatedGraph.getRevision, Heap.read, Heap.read, h.origins n hn]

end Invariant

/-! ### The walk -/

section Walk

variable {g s : DatedGraph Path} {V : Set ℕ} {x : ℕ}

/-- One node is looked at. -/
theorem renameNext_spec (hl : g.links.Linked)
    (hleaf : ∀ n, (g.classification n).is (IS .DELETED) = true →
      g.links.next n = none ∧ g.links.copyTargets n = [])
    (h : Found g s V) (hx : x ∉ V) :
    ∃ s', renameNext s x = some (s', s'.links.next x) ∧ Found g s' (insert x V) := by
  have hls := h.consistent.linked
  obtain ⟨hnext, hcopies⟩ := h.same x fun hmem => absurd hmem hx
  cases hd : g.links.next x with
  | none =>
    refine ⟨s, ?_, h.passed fun d t hr => ?_⟩
    · rw [renameNext, hnext, hd]
    · exact nomatch hd.symm.trans ((hl.next_iff x d).mpr hr.prev)
  | some d =>
    have hprev := (hl.next_iff x d).mp hd
    have hprevS := (hls.next_iff x d).mp (hnext.trans hd)
    have hdSome := (isSome_of_source hls (hls.source_eq_some.mpr (Or.inl hprevS))).1
    have hclass : s.classification d = g.classification d := by
      apply h.classification d hdSome
      intro p _ d' hr
      have hcopy := (hl.target_iff p d).mp hr.target
      rcases hl.one d with hnone | hnone
      · exact nomatch hnone.symm.trans hprev
      · exact nomatch hnone.symm.trans hcopy
    have honly : ∀ d' t, Renames g x d' t → d' = d := fun d' t hr =>
      Option.some.inj (((hl.next_iff x d').mpr hr.prev).symm.trans hd)
    by_cases hdeleted : (g.classification d).is (IS .DELETED) = true
    · have htarget : ∀ c ∈ g.links.copyTargets x, (s.graph.nodes c).isSome ∧
          (s.classification c).is IS_COPY_TARGET = true ∧ s.getRevision c = g.getRevision c := by
        intro c hc
        rw [← hcopies] at hc
        have hcopy := (hls.target_iff x c).mp hc
        have hsome := (isSome_of_source hls (hls.source_eq_some.mpr (Or.inr hcopy))).1
        refine ⟨hsome, (h.consistent.isCopyTarget_iff hsome).mpr ?_, h.getRevision hsome⟩
        rw [hcopy]
        exact Option.some_ne_none x
      have hrevision := h.getRevision hdSome
      obtain ⟨r, hr, hcases⟩ := findTarget_spec (s.getRevision d)
        (fun c hc => (htarget c hc).2.1) (hl.nodup x) 0
      have hrun : renameNext s x = (do
          match r with
          | none => some (s, some d)
          | some renameCopy =>
            let s ← s.replace d x renameCopy IS_RENAMED
            some (s, s.links.next x)) := by
        rw [renameNext, hnext, hd]
        dsimp only
        rw [if_pos (hclass ▸ hdeleted), hcopies, hr]
        rfl
      rcases hcases with ⟨rfl, hmany⟩ | ⟨j, t, rfl, hj, hrev, hunique⟩
      · refine ⟨s, ?_, h.passed fun d' t hren => ?_⟩
        · rw [hrun, hnext, hd]
        · obtain rfl := honly d' t hren
          obtain ⟨t', ht', hrev', hne⟩ := hmany t hren.target (by
            rw [(htarget t hren.target).2.2, hrevision, hren.revision])
          refine hne (hren.only t' ht' ?_)
          rw [← (htarget t' ht').2.2, hrev', hrevision]
      · have ht := List.mem_of_getElem? hj
        have hren : Renames g x d t := by
          refine ⟨hdeleted, hprev, ht, ?_, fun t' ht' hrev' => hunique t' ht' ?_⟩
          · rw [← (htarget t ht).2.2, hrev, hrevision]
          · rw [(htarget t' ht').2.2, hrev', hrevision]
        have hend : s.links.next d = none ∧ s.links.copyTargets d = [] := by
          obtain ⟨hnextD, hcopiesD⟩ := h.same d fun _ d' t' hr' => by
            have hnextD := (hl.next_iff d d').mpr hr'.prev
            rw [(hleaf d hdeleted).1] at hnextD
            exact nomatch hnextD
          exact ⟨hnextD.trans (hleaf d hdeleted).1, hcopiesD.trans (hleaf d hdeleted).2⟩
        have hjs : (s.links.copyTargets x)[j]? = some t := by rw [hcopies, hj]
        have hreplaced := replaced_of_replace h.consistent hprevS hend.1 hend.2 hjs
        refine ⟨_, ?_, h.replaced hl hx hren hreplaced⟩
        rw [hrun, Nat.zero_add]
        show (s.replace d x j IS_RENAMED).bind _ = _
        rw [DatedGraph.replace, if_pos ⟨by rw [hprevS]; exact Option.some_ne_none x, hend⟩]
        rfl
    · refine ⟨s, ?_, h.passed fun d' t hr => ?_⟩
      · rw [renameNext, hnext, hd]
        dsimp only
        rw [hclass, if_neg hdeleted]
      · obtain rfl := honly d' t hr
        exact hdeleted hr.deleted

/-- A call for a node finds the renames at the nodes below it. -/
def Finds (g : DatedGraph Path) (find : DatedGraph Path → ℕ → Option (DatedGraph Path)) (x : ℕ) :
    Prop :=
  ∀ s V, Found g s V → (s.graph.nodes x).isSome → (∀ z ∈ below g.graph x, z ∉ V) →
    ∃ s', find s x = some s' ∧ Found g s' (V ∪ below g.graph x)

/-- The copies that are left are looked at one after the other. -/
theorem findCopies_spec (hfull : ConsistentFullGraph g.graph)
    {find : DatedGraph Path → ℕ → Option (DatedGraph Path)} {cs : List ℕ} (hnodup : cs.Nodup)
    (hcs : ∀ s V, x ∈ V → Found g s V → s.links.copyTargets x = cs)
    (hsource : ∀ c ∈ cs, g.links.source c = some x) (hfind : ∀ c ∈ cs, Finds g find c) (fuel : ℕ) :
    ∀ i s V, i ≤ cs.length → cs.length < fuel + i → Found g s V → x ∈ V →
      (∀ c ∈ cs.drop i, ∀ z ∈ below g.graph c, z ∉ V) →
      ∃ s', findCopies find x fuel s i = some s' ∧
        Found g s' (V ∪ {z | ∃ c ∈ cs.drop i, z ∈ below g.graph c}) := by
  have hdone : ∀ s V, Found g s V → Found g s (V ∪ {z | ∃ c ∈ ([] : List ℕ), z ∈ below g.graph c}) := by
    intro s V h
    have hempty : V ∪ {z | ∃ c ∈ ([] : List ℕ), z ∈ below g.graph c} = V := by simp
    rwa [hempty]
  induction fuel with
  | zero =>
    intro i s V hi hfuel
    exact absurd hi (by omega)
  | succ fuel ih =>
    intro i s V _ hfuel h hx hfresh
    rw [findCopies, hcs s V hx h]
    cases hi : cs[i]? with
    | none =>
      rw [List.drop_eq_nil_iff.mpr (List.getElem?_eq_none_iff.mp hi)]
      exact ⟨s, rfl, hdone s V h⟩
    | some c =>
      obtain ⟨hlt, hget⟩ := List.getElem?_eq_some_iff.mp hi
      have hdrop : cs.drop i = c :: cs.drop (i + 1) := by
        rw [← hget]
        exact List.drop_eq_getElem_cons hlt
      have hc := List.mem_of_getElem? hi
      rw [hdrop] at hfresh ⊢
      have hcSome : (s.graph.nodes c).isSome := by
        have hls := h.consistent.linked
        have hmem : c ∈ s.links.copyTargets x := by rwa [hcs s V hx h]
        have hcopy := (hls.target_iff x c).mp hmem
        exact (isSome_of_source hls (hls.source_eq_some.mpr (Or.inr hcopy))).1
      obtain ⟨s₁, hrun, h₁⟩ := hfind c hc s V h hcSome (hfresh c List.mem_cons_self)
      -- the copies that are left are apart from this one
      have hfresh₁ : ∀ c' ∈ cs.drop (i + 1), ∀ z ∈ below g.graph c', z ∉ V ∪ below g.graph c := by
        intro c' hc' z hz
        have hne : c' ≠ c := by
          rintro rfl
          have hnd := hdrop ▸ hnodup.drop (i := i)
          exact (List.nodup_cons.mp hnd).1 hc'
        rintro (hV | hbelow)
        · exact hfresh c' (List.mem_cons_of_mem c hc') z hz hV
        · exact hfull.apart (hsource c' (List.mem_of_mem_drop hc')) (hsource c hc) hne hz hbelow
      obtain ⟨s₂, hrest, h₂⟩ := ih (i + 1) s₁ _ hlt (by omega) h₁ (Or.inl hx) hfresh₁
      refine ⟨s₂, ?_, ?_⟩
      · show (find s c).bind _ = _
        rw [hrun]
        exact hrest
      · have hset : V ∪ {z | ∃ c' ∈ c :: cs.drop (i + 1), z ∈ below g.graph c'} =
            V ∪ below g.graph c ∪ {z | ∃ c' ∈ cs.drop (i + 1), z ∈ below g.graph c'} := by
          ext z
          simp [or_assoc]
        rw [hset]
        exact h₂

/-- More nodes are below a node than it has copies. -/
theorem length_copyTargets_lt (hfull : ConsistentFullGraph g.graph) (hx : (g.graph.nodes x).isSome) :
    (g.links.copyTargets x).length < (below g.graph x).ncard := by
  have hl := hfull.linked
  have hsource : ∀ c ∈ g.links.copyTargets x, g.links.source c = some x :=
    fun c hc => hl.source_eq_some.mpr (Or.inr ((hl.target_iff x c).mp hc))
  have hnodup : (x :: g.links.copyTargets x).Nodup := by
    refine List.nodup_cons.mpr ⟨fun hmem => ?_, hl.nodup x⟩
    exact hfull.not_above (hsource x hmem) (Above.refl _ x)
  have hsub : ((x :: g.links.copyTargets x).toFinset : Set ℕ) ⊆ below g.graph x := by
    intro c hc
    rcases List.mem_cons.mp (List.mem_toFinset.mp hc) with rfl | hmem
    · exact Above.refl _ c
    · exact Above.single (hsource c hmem)
  have hcard := Set.ncard_le_ncard hsub (hfull.finite_below hx)
  rw [Set.ncard_coe_finset, List.toFinset_card_of_nodup hnodup, List.length_cons] at hcard
  exact hcard

/-- Where the walk goes on from a node: to the copies that are left, and to the node that is behind it
now. -/
structure Rest (g : DatedGraph Path) (x : ℕ) (cs : List ℕ) (next : Option ℕ) : Prop where
  links : ∀ s V, x ∈ V → Found g s V → s.links.copyTargets x = cs ∧ s.links.next x = next
  sublist : cs.Sublist (g.links.copyTargets x)
  source : ∀ m, next = some m → g.links.source m = some x ∧ m ∉ cs
  found : ∀ s V, Found g s (insert x V ∪ {z | ∃ c ∈ cs, z ∈ below g.graph c} ∪
    {z | ∃ m, next = some m ∧ z ∈ below g.graph m}) → Found g s (V ∪ below g.graph x)

theorem exists_rest (hfull : ConsistentFullGraph g.graph)
    (hleaf : ∀ n, (g.classification n).is (IS .DELETED) = true →
      g.links.next n = none ∧ g.links.copyTargets n = []) (x : ℕ) :
    ∃ cs next, Rest g x cs next := by
  have hl := hfull.linked
  by_cases hren : ∃ d t, Renames g x d t
  · obtain ⟨d, t, hr⟩ := hren
    refine ⟨(g.links.copyTargets x).erase t, some t, ⟨?_, List.erase_sublist, ?_, ?_⟩⟩
    · intro s V hx h
      obtain ⟨hnext, hcopies, -⟩ := h.renamed x hx d t hr
      exact ⟨hcopies, hnext⟩
    · intro m hm
      obtain rfl := Option.some.inj hm
      refine ⟨hl.source_eq_some.mpr (Or.inr ((hl.target_iff x t).mp hr.target)), fun hmem => ?_⟩
      exact ((hl.nodup x).mem_erase_iff.mp hmem).1 rfl
    · intro s V h
      -- the deletion, which is no longer there, counts as looked at
      have hnone : ∀ d' t', ¬ Renames g d d' t' := by
        intro d' t' hr'
        have hnext := (hl.next_iff d d').mpr hr'.prev
        rw [(hleaf d hr.deleted).1] at hnext
        exact nomatch hnext
      have hset : V ∪ below g.graph x = insert d (insert x V ∪
          {z | ∃ c ∈ (g.links.copyTargets x).erase t, z ∈ below g.graph c} ∪
            {z | ∃ m, some t = some m ∧ z ∈ below g.graph m}) := by
        have hnextX := (hl.next_iff x d).mpr hr.prev
        have hbelowD : below g.graph d = {d} := by
          rw [below_eq hl, (hleaf d hr.deleted).1, (hleaf d hr.deleted).2]
          simp
        rw [below_eq hl x]
        ext z
        have hcopies : (∃ c ∈ g.links.copyTargets x, z ∈ below g.graph c) ↔
            (∃ c ∈ (g.links.copyTargets x).erase t, z ∈ below g.graph c) ∨
              z ∈ below g.graph t := by
          constructor
          · rintro ⟨c, hc, hz⟩
            by_cases hct : c = t
            · exact Or.inr (hct ▸ hz)
            · exact Or.inl ⟨c, (hl.nodup x).mem_erase_iff.mpr ⟨hct, hc⟩, hz⟩
          · rintro (⟨c, hc, hz⟩ | hz)
            · exact ⟨c, List.mem_of_mem_erase hc, hz⟩
            · exact ⟨t, hr.target, hz⟩
        simp only [Set.mem_union, Set.mem_insert_iff, Set.mem_ofPred_eq, hnextX, Option.some.injEq,
          exists_eq_left', hbelowD, Set.mem_singleton_iff, hcopies]
        apply iff_of_eq
        ac_rfl
      rw [hset]
      exact h.passed hnone
  · have hnone : ∀ d t, ¬ Renames g x d t := fun d t hr => hren ⟨d, t, hr⟩
    refine ⟨g.links.copyTargets x, g.links.next x, ⟨?_, List.Sublist.refl _, ?_, ?_⟩⟩
    · intro s V _ h
      obtain ⟨hnext, hcopies⟩ := h.same x fun _ => hnone
      exact ⟨hcopies, hnext⟩
    · intro m hm
      have hprev := (hl.next_iff x m).mp hm
      refine ⟨hl.source_eq_some.mpr (Or.inl hprev), fun hmem => ?_⟩
      have hcopy := (hl.target_iff x m).mp hmem
      rcases hl.one m with hno | hno
      · exact nomatch hno.symm.trans hprev
      · exact nomatch hno.symm.trans hcopy
    · intro s V h
      rwa [below_eq hl x, Set.union_insert, ← Set.insert_union, Set.union_comm {z | _} {z | _},
        ← Set.union_assoc]

/-- The walk from a node finds the renames at all nodes below it, with as much fuel as there are such
nodes. -/
theorem findFrom_spec (hfull : ConsistentFullGraph g.graph)
    (hleaf : ∀ n, (g.classification n).is (IS .DELETED) = true →
      g.links.next n = none ∧ g.links.copyTargets n = []) (fuel : ℕ) :
    ∀ x, (below g.graph x).ncard ≤ fuel → (g.graph.nodes x).isSome →
      Finds g (findFrom fuel) x := by
  have hl := hfull.linked
  induction fuel with
  | zero =>
    intro x hcard hx
    have hpos := (Set.ncard_pos (hfull.finite_below hx)).mpr ⟨x, Above.refl _ x⟩
    exact absurd hpos (Nat.not_lt.mpr hcard)
  | succ fuel ih =>
    intro x hcard hx s V h hxs hfresh
    have hxV := hfresh x (Above.refl _ x)
    obtain ⟨s₁, hrename, h₁⟩ := renameNext_spec hl hleaf h hxV
    obtain ⟨cs, next, hrest⟩ := exists_rest hfull hleaf x
    have hsource : ∀ c ∈ cs, g.links.source c = some x := fun c hc =>
      hl.source_eq_some.mpr (Or.inr ((hl.target_iff x c).mp (hrest.sublist.subset hc)))
    have hfind : ∀ c, g.links.source c = some x → Finds g (findFrom fuel) c := fun c hc =>
      ih c (Nat.le_of_lt_succ ((hfull.ncard_below_lt hc).trans_le hcard)) (isSome_of_source hl hc).1
    have hfresh₁ : ∀ c, g.links.source c = some x → ∀ z ∈ below g.graph c, z ∉ insert x V := by
      rintro c hc z hz (rfl | hV)
      · exact hfull.not_above hc hz
      · exact hfresh z ((Above.single hc).trans hz) hV
    obtain ⟨s₂, hcopies, h₂⟩ := findCopies_spec hfull ((hl.nodup x).sublist hrest.sublist)
      (fun s V hmem hs => (hrest.links s V hmem hs).1) hsource (fun c hc => hfind c (hsource c hc))
      (fuel + 1) 0 s₁ _ (Nat.zero_le _) (by
        have hlength := hrest.sublist.length_le
        have hlt := length_copyTargets_lt hfull hx
        omega) h₁ (Or.inl rfl) (fun c hc => hfresh₁ c (hsource c hc))
    rw [List.drop_zero] at h₂
    have hrun : findFrom (fuel + 1) s x = next.elim (some s₂) (findFrom fuel s₂) := by
      rw [findFrom, hrename, (hrest.links s₁ _ (Or.inl rfl) h₁).2]
      show (findCopies (findFrom fuel) x (fuel + 1) s₁ 0).bind _ = _
      rw [hcopies]
      cases next with
      | none => rfl
      | some next => rfl
    cases hnext : next with
    | none =>
      refine ⟨s₂, by rw [hrun, hnext]; rfl, hrest.found s₂ V ?_⟩
      have hempty : {z | ∃ m, next = some m ∧ z ∈ below g.graph m} = ∅ := by
        ext z
        simp [hnext]
      rwa [hempty, Set.union_empty]
    | some m =>
      obtain ⟨hm, hmcs⟩ := hrest.source m hnext
      have hmSome : (s₂.graph.nodes m).isSome := by
        have hls := h₂.consistent.linked
        have hlink := (hrest.links s₂ _ (Or.inl (Or.inl rfl)) h₂).2
        rw [hnext] at hlink
        exact (isSome_of_source hls (hls.source_eq_some.mpr (Or.inl ((hls.next_iff x m).mp hlink)))).1
      obtain ⟨s₃, hloop, h₃⟩ := hfind m hm s₂ _ h₂ hmSome (by
        rintro z hz (hV | ⟨c, hc, hbelow⟩)
        · exact hfresh₁ m hm z hz hV
        · exact hfull.apart hm (hsource c hc) (fun heq => hmcs (heq ▸ hc)) hz hbelow)
      refine ⟨s₃, by rw [hrun, hnext]; exact hloop, hrest.found s₃ V ?_⟩
      have hset : {z | ∃ m, next = some m ∧ z ∈ below g.graph m} = below g.graph m := by
        ext z
        simp [hnext]
      rwa [hset]

end Walk

/-- What the walk from the root does. -/
theorem Found.renamesFound {g g' : DatedGraph Path} (hfull : ConsistentFullGraph g.graph) {V : Set ℕ}
    (h : Found g g' V) (hV : ∀ n, (g.graph.nodes n).isSome → n ∈ V) : RenamesFound g g' := by
  have hl := hfull.linked
  have hls := h.consistent.linked
  have hmem : ∀ p d t, Renames g p d t → p ∈ V := fun p d t hr =>
    hV p (isSome_of_source hl (hl.source_eq_some.mpr (Or.inl hr.prev))).2
  have hcopies : ∀ n t, t ∈ g'.links.copyTargets n ↔
      t ∈ g.links.copyTargets n ∧ ¬ ∃ p d, Renames g p d t := by
    intro n t
    by_cases hren : ∃ d t', Renames g n d t'
    · obtain ⟨d, t', hr⟩ := hren
      rw [(h.renamed n (hmem n d t' hr) d t' hr).2.1, (hl.nodup n).mem_erase_iff, and_comm]
      refine and_congr_right fun ht => ⟨?_, ?_⟩
      · rintro hne ⟨p, d', hr'⟩
        obtain rfl := Option.some.inj (((hl.target_iff n t).mp ht).symm.trans
          ((hl.target_iff p t).mp hr'.target))
        exact hne (hr'.unique hl hr (Or.inl rfl)).2.2
      · rintro hno rfl
        exact hno ⟨n, d, hr⟩
    · rw [(h.same n fun _ d t' hr => hren ⟨d, t', hr⟩).2]
      refine (and_iff_left_of_imp fun ht => ?_).symm
      rintro ⟨p, d, hr⟩
      obtain rfl := Option.some.inj (((hl.target_iff n t).mp ht).symm.trans
        ((hl.target_iff p t).mp hr.target))
      exact hren ⟨d, t, hr⟩
  have hnext : ∀ n, (¬ ∃ d t, Renames g n d t) → g'.links.next n = g.links.next n :=
    fun n hno => (h.same n fun _ d t hr => hno ⟨d, t, hr⟩).1
  constructor
  case consistent => exact h.consistent
  case root => exact h.root
  case isSome =>
    intro n
    rw [h.isSome]
    refine and_congr_right fun _ => ⟨?_, fun hno p _ t hr => hno ⟨p, t, hr⟩⟩
    rintro hall ⟨p, t, hr⟩
    exact hall p (hmem p n t hr) t hr
  case renamed =>
    intro p d t hr
    obtain ⟨hnext, -, hclass⟩ := h.renamed p (hmem p d t hr) d t hr
    exact ⟨hnext, (hls.next_iff p t).mp hnext, hclass⟩
  case next => exact hnext
  case copyTargets => exact hcopies
  case origins => exact h.origins
  case others =>
    intro n hn hno
    refine ⟨h.classification n hn fun p _ d hr => hno ⟨p, d, hr⟩, ?_⟩
    have hkept : ∀ p t, ¬ Renames g p n t := fun p t hr =>
      ((h.isSome n).mp hn).2 p (hmem p n t hr) t hr
    have hprev : ∀ m, g'.links.next m = some n ↔ g.links.next m = some n := by
      intro m
      by_cases hren : ∃ d t, Renames g m d t
      · obtain ⟨d, t, hr⟩ := hren
        rw [(h.renamed m (hmem m d t hr) d t hr).1, (hl.next_iff m d).mpr hr.prev]
        refine iff_of_false ?_ ?_
        · rintro heq
          exact hno ⟨m, d, Option.some.inj heq ▸ hr⟩
        · rintro heq
          exact hkept m t (Option.some.inj heq ▸ hr)
      · rw [hnext m hren]
    apply Option.ext
    intro m
    rw [hls.source_eq_some, hl.source_eq_some, ← hls.next_iff, ← hls.target_iff, ← hl.next_iff,
      ← hl.target_iff, hprev, hcopies, and_iff_left hno]

/-- **For every consistent graph whose deletions are ends of branches without copies, the walk ends
with a consistent graph. The deletions that go on as a single copy of the same revision are gone, each
such copy stands in the place of its deletion, and nothing else has changed.** -/
theorem findRenames_spec {g : DatedGraph Path} (hfull : ConsistentFullGraph g.graph)
    (hleaf : ∀ n, (g.classification n).is (IS .DELETED) = true →
      g.links.next n = none ∧ g.links.copyTargets n = []) {r : ℕ} (hr : g.graph.root = some r) :
    ∃ g', FindRenames g r = some g' ∧ RenamesFound g g' := by
  obtain ⟨r', hr', hsome, -, habove⟩ := hfull.exists_root
  obtain rfl := Option.some.inj (hr.symm.trans hr')
  have hcard : (below g.graph r).ncard ≤ g.graph.nodeCount := by
    obtain ⟨nodes, hmem, hcard⟩ := hfull.counted
    rw [← hcard, ← Set.ncard_coe_finset]
    exact Set.ncard_le_ncard (fun y hy => (hmem y).mpr (hfull.isSome_of_above hsome hy))
      nodes.finite_toSet
  have hstart : Found g g ∅ := by
    refine ⟨hfull, rfl, fun n => ?_, nofun, fun _ _ => ⟨rfl, rfl⟩, fun _ _ _ => rfl, fun _ _ => rfl⟩
    exact (and_iff_left nofun).symm
  obtain ⟨g', hrun, h⟩ := findFrom_spec hfull hleaf g.graph.nodeCount r hcard hsome g ∅ hstart hsome
    fun z _ => Set.notMem_empty z
  exact ⟨g', hrun, h.renamesFound hfull fun n hn => Or.inr (habove n hn)⟩

/-- A node gets another classification, but stays a copy target or none. -/
theorem consistent_setData {g : CFullGraph} (hfull : ConsistentFullGraph g) {n : ℕ}
    (hn : (g.nodes n).isSome) (f : CNodeClassification → CNodeClassification)
    (hf : (f (g.classification n)).is IS_COPY_TARGET = (g.classification n).is IS_COPY_TARGET) :
    ConsistentFullGraph
      { g with nodes := g.nodes.modify n fun m => { m with data := f m.data } } := by
  have hlinks : linksOf (g.nodes.modify n fun m => { m with data := f m.data }) = g.links :=
    linksOf_setData f
  have hsame : ∀ m, (g.nodes.modify n (fun m => { m with data := f m.data }) m).isSome =
      (g.nodes m).isSome := fun m => Heap.modify_isSome _ m
  constructor
  case tree =>
    refine ⟨?_, fun hnone => absurd hnone hfull.root, fun r hr => ?_⟩
    · rw [CFullGraph.links, hlinks]
      exact hfull.linked
    · rw [CFullGraph.links, hlinks, hsame]
      obtain ⟨hsome, hsource, habove⟩ := hfull.tree.root r hr
      refine ⟨hsome, hsource, fun m hm => habove m ?_⟩
      rwa [hsame] at hm
  case root => exact hfull.root
  case counted =>
    obtain ⟨s, hmem, hcard⟩ := hfull.counted
    exact ⟨s, fun m => by rw [hmem, hsame], hcard⟩
  case classified =>
    intro m hm
    rw [hsame] at hm
    rw [CFullGraph.links, hlinks, ← hfull.classified m hm, CFullGraph.classification,
      Heap.read_modify hn f fun _ => rfl]
    by_cases heq : m = n
    · rw [heq, Function.update_self]
      exact iff_of_eq (congrArg (· = true) hf)
    · rw [Function.update_of_ne heq]
      rfl

/-- A root, a deletion behind it, and a copy of the root in the revision of the deletion. -/
def renamed : DatedGraph String where
  graph := { threeNodes with
    nodes := threeNodes.nodes.modify 1 fun n => { n with data := n.data ||| IS .DELETED } }
  origins := fun n =>
    if n = 0 then some ⟨"/trunk/a", 1⟩
    else if n = 1 then some ⟨"/trunk/a", 2⟩
    else if n = 2 then some ⟨"/trunk/b", 2⟩
    else none

/-- The copy takes the place of the deletion. -/
theorem findRenames_spec_renamed :
    ∃ g', FindRenames renamed 0 = some g' ∧ RenamesFound renamed g' := by
  apply findRenames_spec
  · exact consistent_setData consistent_threeNodes rfl (· ||| IS .DELETED) (by decide)
  · rintro (_ | _ | _ | n) hn
    · exact absurd hn (by decide)
    · exact ⟨rfl, rfl⟩
    · exact absurd hn (by decide)
    · exact ⟨rfl, rfl⟩
  · rfl

end CFullGraphFinalizer

end TortoiseSvn.RevisionGraph
