import TortoiseSvn.RevisionGraph.SearchTreeRuns

/-!
# Searching a sub-tree of the search tree

`FindCommonParent` goes down from the root along the IDs of a path and its parents. The caller then
walks through the sub-tree of the node that was found, in pre-order.

In a tree of cached paths where no two children of a node have the same path, a path has one node at
most, and all nodes at or below the path are in the sub-tree of that node.

Main results: `findCommonParent_spec` and `crawl_spec`.
-/

namespace TortoiseSvn.RevisionGraph

open TortoiseSvn.Lib TortoiseSvn.LogCache CDictionaryBasedTempPath

namespace CSearchPathTree

/-! ### Walking in pre-order -/

/-- The next node behind a sub-tree. The fuel bounds the way up.
Source: `SearchPathTree.cpp` `CSearchPathTree::GetSkipSubTreeNext` -/
def getSkipSubTreeNext (t : CSearchPathTree) (lastNode : ℕ) : ℕ → ℕ → Except Fault ℕ
  | 0, _ => .error .undefined
  | fuel + 1, result =>
    if result = lastNode then .ok result
    else
      match t.next result, t.parent result with
      | some next, _ => .ok next
      | none, some parent => t.getSkipSubTreeNext lastNode fuel parent
      | none, none => .error .undefined

/-- Source: `SearchPathTree.cpp` `CSearchPathTree::GetPreOrderNext` -/
def getPreOrderNext (t : CSearchPathTree) (lastNode this : ℕ) : Except Fault ℕ :=
  match t.firstChild this with
  | some firstChild => .ok firstChild
  | none => t.getSkipSubTreeNext lastNode (t.nodes.card + 1) this

/-- The nodes that the loop comes to from `searchNode` on, until it is back at the start.
Source: `FullGraphBuilder.cpp` `CFullGraphBuilder::FillCopyTargets`, "crawl the whole sub-tree" -/
def crawlFrom (t : CSearchPathTree) (startNode : ℕ) : ℕ → ℕ → Except Fault (List ℕ)
  | 0, _ => .error .undefined
  | fuel + 1, searchNode => do
    let next ← t.getPreOrderNext startNode searchNode
    if next = startNode then return [searchNode]
    else return searchNode :: (← t.crawlFrom startNode fuel next)

/-- No walk visits more nodes than there are. -/
def crawl (t : CSearchPathTree) (startNode : ℕ) : Except Fault (List ℕ) :=
  t.crawlFrom startNode t.nodes.card startNode

/-! ### Finding a sub-tree -/

/-- "collect all path elements to find *below* this one"; `room` is what is left of the array, and
the element that was stored last comes first.
Source: `SearchPathTree.cpp` `CSearchPathTree::FindCommonParent` -/
def collectPaths (d : CPathDictionary) (nodePathID : Index) :
    ℕ → Index → List Index → Except Fault (Index × List Index)
  | 0, pathID, pathToFind =>
    if pathID ≠ ⊤ ∧ nodePathID < pathID then .error .undefined else .ok (pathID, pathToFind)
  | room + 1, pathID, pathToFind =>
    if pathID ≠ ⊤ ∧ nodePathID < pathID then do
      let parent ← d.getParent pathID
      collectPaths d nodePathID room parent (pathID :: pathToFind)
    else .ok (pathID, pathToFind)

/-- "follow the desired path until it hits or passes the node"
Source: `SearchPathTree.cpp` `CSearchPathTree::FindCommonParent` -/
def followPath (nodePathID : Index) : Index → List Index → Index × List Index
  | pathID, [] => (pathID, [])
  | pathID, next :: pathToFind =>
    if pathID < nodePathID then followPath nodePathID next pathToFind
    else (pathID, next :: pathToFind)

/-- "scan sibling branches for a match, if this node wasn't one"
Source: `SearchPathTree.cpp` `CSearchPathTree::FindCommonParent` -/
def scanSiblings (t : CSearchPathTree) (pathID : Index) : ℕ → ℕ → Except Fault ℕ
  | 0, _ => .error .undefined
  | fuel + 1, node =>
    if (t.path node).index < pathID then
      match t.next node with
      | some next => t.scanSiblings pathID fuel next
      | none => .ok node
    else .ok node

/-- The loop, with the ID to find and the ones below it; the result is `oldNode` when a node has no
children.
Source: `SearchPathTree.cpp` `CSearchPathTree::FindCommonParent`, "start search at *this node" -/
def searchPaths (t : CSearchPathTree) : ℕ → ℕ → Index → List Index → Except Fault ℕ
  | 0, _, _, _ => .error .undefined
  | fuel + 1, node, pathID, pathToFind => do
    let (pathID, pathToFind) := followPath (t.path node).index pathID pathToFind
    let node ← t.scanSiblings pathID (t.nodes.card + 1) node
    match pathToFind with
    | [] => .ok node
    | next :: pathToFind =>
      -- "end of search or not in this sub-tree?"
      if (t.path node).index ≠ pathID then .ok node
      else
        -- "descend one level"
        match t.firstChild node with
        | some firstChild => t.searchPaths fuel firstChild next pathToFind
        | none => .ok node

/-- Source: `SearchPathTree.cpp` `CSearchPathTree::FindCommonParent` -/
def findCommonParent (t : CSearchPathTree) (this : ℕ) (pathID : Index) : Except Fault ℕ := do
  let (pathID, pathToFind) ←
    collectPaths t.dictionary (t.path this).index CPathDictionary.maxPath pathID []
  t.searchPaths (pathToFind.length + 1) this pathID pathToFind

/-- The path of a node is at or below the path with index `c`.
Source: `PathDictionary.h` `CDictionaryBasedPath::IsSameOrChildOf` -/
def AtOrBelow (t : CSearchPathTree) (c n : ℕ) : Prop :=
  t.dictionary.isSameOrParentOf (c : Index) (t.path n).index = .ok true

/-! ### Trees with one node for a path -/

/-- The tree with an inactive root. -/
def quiet (t : CSearchPathTree) : CSearchPathTree := t.setStartRevision 0 noRevision

section Fields

variable (t : CSearchPathTree)

@[simp] theorem quiet_dictionary : t.quiet.dictionary = t.dictionary := rfl

@[simp] theorem quiet_nodes : t.quiet.nodes = t.nodes := rfl

@[simp] theorem quiet_path : t.quiet.path = t.path := rfl

@[simp] theorem quiet_parent : t.quiet.parent = t.parent := rfl

@[simp] theorem quiet_firstChild : t.quiet.firstChild = t.firstChild := rfl

@[simp] theorem quiet_lastChild : t.quiet.lastChild = t.lastChild := rfl

@[simp] theorem quiet_previous : t.quiet.previous = t.previous := rfl

@[simp] theorem quiet_next : t.quiet.next = t.next := rfl

end Fields

/-- A consistent tree of cached paths, in which no two children of a node have the same path. The
root may be active. -/
structure Single (t : CSearchPathTree) (s : Shape) : Prop where
  consistent : Consistent t.quiet s
  cached : ∀ n ∈ t.nodes, (t.path n).relPathElements = []
  apart : ∀ n a b, t.parent a = some n → t.parent b = some n → t.path a = t.path b → a = b

namespace Single

variable {t : CSearchPathTree} {s : Shape} {n m a c : ℕ} {cs : List (List UInt8)}

theorem named (h : Single t s) (hn : n ∈ t.nodes) :
    ∃ i : ℕ, t.path n = ⟨(i : Index), []⟩ ∧ t.dictionary.Named i (s.names n) := by
  obtain ⟨i, base, hdenotes⟩ := h.consistent.denotes n hn
  have hrel : (t.path n).relPathElements = [] := h.cached n hn
  have hnames := hdenotes.names
  have hindex : (t.path n).index = (i : Index) := hdenotes.index
  replace hnames : s.names n = base ++ (t.path n).relPathElements := hnames
  rw [hrel, List.append_nil] at hnames
  refine ⟨i, ?_, hnames ▸ hdenotes.named⟩
  rcases hpath : t.path n with ⟨index, rel⟩
  rw [hpath] at hrel hindex
  exact congrArg₂ _ hindex hrel

theorem index_eq (h : Single t s) (hn : n ∈ t.nodes) {i : ℕ}
    (hi : t.dictionary.Named i (s.names n)) : (t.path n).index = (i : Index) := by
  obtain ⟨j, hpath, hj⟩ := h.named hn
  rw [hpath, h.consistent.built.named_inj hi hj]

theorem names_eq (h : Single t s) (hn : n ∈ t.nodes) {i : ℕ} (hindex : (t.path n).index = (i : Index))
    (hi : t.dictionary.Named i cs) : s.names n = cs := by
  obtain ⟨j, hpath, hj⟩ := h.named hn
  rw [hpath] at hindex
  obtain rfl := Nat.cast_injective (R := Index) hindex
  exact hj.unique hi

/-- A child has one name more. -/
theorem names_child (h : Single t s) (hm : t.parent m = some n) :
    ∃ element, s.names m = s.names n ++ [element] := by
  obtain ⟨hn, hm'⟩ := h.consistent.mem_nodes n m hm
  obtain ⟨hpre, hne⟩ := h.consistent.strict n m hm
  obtain ⟨i, hpath, hi⟩ := h.named hm'
  obtain ⟨j, hpathN, hj⟩ := h.named hn
  obtain ⟨k, ks, element, -, hk, hks, hnames⟩ := hi.parent fun hnil => by
    rw [hnil] at hpre hne
    exact hne (List.prefix_nil.mp hpre)
  have hlevel : (t.path m).parentPathID t.dictionary = .ok (t.path n).index :=
    h.consistent.level n m hm
  rw [hpath, hpathN, parentPathID, isFullyCachedPath, List.isEmpty_nil, if_pos rfl, hk] at hlevel
  obtain rfl := Nat.cast_injective (R := Index) (Except.ok.inj hlevel)
  exact ⟨element, by rw [hnames, hks.unique hj]⟩

theorem exists_parent (h : Single t s) (hn : n ∈ t.nodes) (hne : s.names n ≠ []) :
    ∃ p, t.parent n = some p := by
  rcases (h.consistent.below n hn).cases_tail with rfl | ⟨p, -, hp⟩
  · exact absurd h.consistent.names_zero hne
  · exact ⟨p, hp⟩

/-- A path has one node at most. -/
theorem names_injective (h : Single t s) (hn : n ∈ t.nodes) (hm : m ∈ t.nodes)
    (heq : s.names n = s.names m) : n = m := by
  induction hlen : (s.names n).length generalizing n m with
  | zero =>
    have hroot : ∀ q ∈ t.nodes, s.names q = [] → q = 0 := by
      intro q hq hnil
      rcases (h.consistent.below q hq).cases_tail with rfl | ⟨p, -, hp⟩
      · rfl
      · obtain ⟨element, helement⟩ := h.names_child hp
        rw [hnil] at helement
        exact absurd helement (by simp)
    have hnil := List.length_eq_zero_iff.mp hlen
    rw [hroot n hn hnil, hroot m hm (heq ▸ hnil)]
  | succ k ih =>
    have hne : s.names n ≠ [] := fun hnil => by
      rw [hnil] at hlen
      exact nomatch hlen
    obtain ⟨p, hp⟩ := h.exists_parent hn hne
    obtain ⟨q, hq⟩ := h.exists_parent hm (heq ▸ hne)
    obtain ⟨element, helement⟩ := h.names_child hp
    obtain ⟨element', helement'⟩ := h.names_child hq
    rw [helement, helement'] at heq
    obtain ⟨hnames, -⟩ := List.append_inj' heq rfl
    rw [helement, List.length_append, List.length_singleton] at hlen
    obtain rfl := ih (h.consistent.mem_nodes p n hp).1 (h.consistent.mem_nodes q m hq).1 hnames
      (Nat.succ.inj hlen)
    refine h.apart p n m hp hq ?_
    obtain ⟨i, hpath, hi⟩ := h.named hn
    obtain ⟨j, hpath', hj⟩ := h.named hm
    rw [helement, heq, ← helement'] at hi
    rw [hpath, hpath', h.consistent.built.named_inj hi hj]

/-- One node is above another one if its path is. -/
theorem above_iff (h : Single t s) (hn : n ∈ t.nodes) (hm : m ∈ t.nodes) :
    Above t.parent n m ↔ s.names n <+: s.names m := by
  constructor
  · intro habove
    clear hm
    induction habove with
    | refl => exact List.prefix_refl _
    | tail _ hparent ih => exact ih.trans (h.consistent.strict _ _ hparent).1
  · intro hpre
    induction hlen : (s.names m).length generalizing m with
    | zero =>
      have hnil := List.length_eq_zero_iff.mp hlen
      have hnil' : s.names n = [] := List.prefix_nil.mp (hnil ▸ hpre)
      rw [h.names_injective hn hm (hnil'.trans hnil.symm)]
      exact Above.refl _ m
    | succ k ih =>
      obtain ⟨p, hp⟩ := h.exists_parent hm fun hnil => by
        rw [hnil] at hlen
        exact nomatch hlen
      obtain ⟨element, helement⟩ := h.names_child hp
      rw [helement] at hpre
      rcases List.prefix_concat_iff.mp hpre with heq | hpre
      · rw [h.names_injective hn hm (heq.trans helement.symm)]
        exact Above.refl _ m
      · rw [helement, List.length_append, List.length_singleton] at hlen
        exact (ih (h.consistent.mem_nodes p m hp).1 hpre (Nat.succ.inj hlen)).step hp

theorem atOrBelow_iff (h : Single t s) (hc : t.dictionary.Named c cs) (hn : n ∈ t.nodes) :
    t.AtOrBelow c n ↔ cs <+: s.names n := by
  have hbuilt : t.dictionary.Built := h.consistent.built
  obtain ⟨i, hpath, hi⟩ := h.named hn
  obtain ⟨b, hb, hiff⟩ :=
    CPathDictionary.isSameOrParentOf_spec hbuilt.tree c (hi.lt_size hbuilt)
  rw [AtOrBelow, hpath, hb, ← hbuilt.above_iff_prefix hc hi, ← hiff]
  exact ⟨Except.ok.inj, congrArg Except.ok⟩

end Single

/-! ### What a walk visits -/

/-- The nodes that a walk comes to behind the sub-tree of a node. -/
inductive Pending (s : Shape) (start : ℕ) : ℕ → List ℕ → Prop
  | start : Pending s start start []
  | child {n m : ℕ} {front back stack : List ℕ} : s.children n = front ++ m :: back →
      Pending s start n stack → Pending s start m (back ++ stack)

section Walk

variable {t : CSearchPathTree} {s : Shape} {start n m : ℕ} {stack l : List ℕ}

/-- The next node behind a sub-tree has the rest of the nodes behind its own sub-tree. -/
theorem Pending.tail (h : Pending s start n (m :: stack)) : Pending s start m stack := by
  generalize hall : m :: stack = all at h
  induction h generalizing m stack with
  | start => exact nomatch hall
  | @child p c front back rest hchildren hrest ih =>
    cases back with
    | nil => exact ih hall
    | cons b back =>
      obtain ⟨rfl, rfl⟩ := List.cons.inj hall
      exact .child (hchildren.trans (List.append_cons front c (m :: back))) hrest

namespace Single

theorem acyclic (h : Single t s) (hm : t.parent m = some n) : ¬ Above t.parent m n :=
  not_above_parent h.consistent.root_parent
    (h.consistent.below n (h.consistent.mem_nodes n m hm).1) hm

theorem parent_of_children (h : Single t s) {front back : List ℕ}
    (hchildren : s.children n = front ++ m :: back) : t.parent m = some n :=
  (h.consistent.mem_iff n m).mp (hchildren ▸ List.mem_append_right front List.mem_cons_self)

theorem above_of_pending (h : Single t s) (hp : Pending s start n stack) :
    Above t.parent start n := by
  induction hp with
  | start => exact Above.refl _ start
  | child hchildren _ ih => exact ih.step (h.parent_of_children hchildren)

/-- A child of a node below the start is not the start. -/
theorem ne_start (h : Single t s) (hp : Pending s start n stack) (hm : t.parent m = some n) :
    m ≠ start := fun heq => h.acyclic hm (heq ▸ h.above_of_pending hp)

/-- What is pending was put there with its siblings. -/
theorem parent_of_pending (h : Single t s) (hp : Pending s start n stack) (hm : m ∈ stack) :
    ∃ p, t.parent m = some p ∧ ∃ stack', Pending s start p stack' := by
  induction hp with
  | start => exact absurd hm List.not_mem_nil
  | @child p c front back rest hchildren hrest ih =>
    rcases List.mem_append.mp hm with hm | hm
    · refine ⟨p, (h.consistent.mem_iff p m).mp ?_, rest, hrest⟩
      rw [hchildren]
      exact List.mem_append_right front (List.mem_cons_of_mem c hm)
    · exact ih hm

theorem mem_of_above (h : Single t s) (hn : n ∈ t.nodes) (hm : Above t.parent n m) :
    m ∈ t.nodes := by
  rcases hm.cases_tail with rfl | ⟨z, -, hz⟩
  · exact hn
  · exact (h.consistent.mem_nodes z m hz).2

theorem finite_above (h : Single t s) (hn : n ∈ t.nodes) : {q | Above t.parent q n}.Finite := by
  refine t.nodes.finite_toSet.subset fun q hq => ?_
  rcases Relation.ReflTransGen.cases_head hq with rfl | ⟨z, hz, -⟩
  · exact hn
  · exact (h.consistent.mem_nodes q z hz).1

/-- The way up ends at the next node that is pending, or at the start. -/
theorem getSkipSubTreeNext_spec (h : Single t s) (hp : Pending s start n stack)
    (hn : n ∈ t.nodes) {fuel : ℕ} (hfuel : {q | Above t.parent q n}.ncard < fuel) :
    t.getSkipSubTreeNext start fuel n = .ok (stack.head?.getD start) := by
  induction fuel generalizing n stack with
  | zero => exact absurd hfuel (Nat.not_lt_zero _)
  | succ fuel ih =>
    rw [getSkipSubTreeNext]
    cases hp with
    | start =>
      rw [if_pos rfl]
      rfl
    | @child p _ front back rest hchildren hrest =>
      have hparent := h.parent_of_children hchildren
      have hchained := h.consistent.chained p
      rw [hchildren] at hchained
      have hnext : t.next n = back.head? := hchained.next_eq
      rw [if_neg (h.ne_start hrest hparent), hnext]
      cases back with
      | nil =>
        rw [List.head?_nil, hparent]
        obtain ⟨hpmem, -⟩ := h.consistent.mem_nodes p n hparent
        refine ih hrest hpmem ?_
        have hlt : {q | Above t.parent q p}.ncard < {q | Above t.parent q n}.ncard := by
          refine Set.ncard_lt_ncard ⟨fun q hq => Above.step hq hparent, fun hall => ?_⟩
            (h.finite_above hn)
          exact h.acyclic hparent (hall (Above.refl _ n))
        omega
      | cons b back => rfl

/-- The next node in pre-order is the first child, or the next node that is pending. -/
theorem getPreOrderNext_spec (h : Single t s) (hp : Pending s start n stack) (hn : n ∈ t.nodes) :
    t.getPreOrderNext start n = .ok ((s.children n ++ stack).head?.getD start) := by
  have hfirst : t.firstChild n = (s.children n).head? := (h.consistent.chained n).first
  rw [getPreOrderNext, hfirst]
  cases s.children n with
  | nil =>
    refine h.getSkipSubTreeNext_spec hp hn (Nat.lt_succ_of_le ?_)
    rw [← Set.ncard_coe_finset]
    refine Set.ncard_le_ncard (fun q hq => ?_) t.nodes.finite_toSet
    rcases Relation.ReflTransGen.cases_head hq with rfl | ⟨z, hz, -⟩
    · exact hn
    · exact (h.consistent.mem_nodes q z hz).1
  | cons c cs => rfl

/-- The walk visits what the traversal of the pending nodes lists. -/
theorem crawlFrom_spec (h : Single t s) (hl : Covers s.children (n :: stack) l)
    (hp : Pending s start n stack) (hn : n ∈ t.nodes) {fuel : ℕ} (hfuel : l.length ≤ fuel) :
    t.crawlFrom start fuel n = .ok l := by
  induction fuel generalizing n stack l with
  | zero =>
    cases hl
    exact absurd hfuel (Nat.not_succ_le_zero _)
  | succ fuel ih =>
    obtain ⟨l', rfl, hl'⟩ : ∃ l', l = n :: l' ∧ Covers s.children (s.children n ++ stack) l' := by
      cases hl with
      | cons hrest => exact ⟨_, rfl, hrest⟩
    rw [List.length_cons] at hfuel
    rw [crawlFrom, h.getPreOrderNext_spec hp hn]
    dsimp only [bind, Except.bind]
    rcases hnext : s.children n ++ stack with _ | ⟨next, rest⟩
    · rw [hnext] at hl'
      cases hl'
      exact if_pos rfl
    · rw [hnext] at hl'
      obtain ⟨p, hparent, hpabove, hrest⟩ : ∃ p, t.parent next = some p ∧
          (∃ stack', Pending s start p stack') ∧ Pending s start next rest := by
        rcases hchildren : s.children n with _ | ⟨c, cs⟩
        · rw [hchildren, List.nil_append] at hnext
          have htail := (hnext ▸ hp).tail
          obtain ⟨p, hparent, habove⟩ := h.parent_of_pending hp (hnext ▸ List.mem_cons_self)
          exact ⟨p, hparent, habove, htail⟩
        · rw [hchildren, List.cons_append] at hnext
          obtain ⟨rfl, rfl⟩ := List.cons.inj hnext
          have hsplit : s.children n = [] ++ c :: cs := hchildren
          exact ⟨n, h.parent_of_children hsplit, ⟨stack, hp⟩, .child hsplit hp⟩
      obtain ⟨stack', hpending⟩ := hpabove
      have hmem := (h.consistent.mem_nodes p next hparent).2
      rw [List.head?_cons, Option.getD_some, if_neg (h.ne_start hpending hparent),
        ih hl' hrest hmem (Nat.le_of_succ_le_succ hfuel)]
      rfl

/-- A walk from a node visits the nodes at and below it, each once. -/
theorem crawl_spec (h : Single t s) (hn : n ∈ t.nodes) :
    ∃ l, t.crawl n = .ok l ∧ l.Nodup ∧ ∀ q, q ∈ l ↔ Above t.parent n q := by
  have hfin : {q | Above t.parent n q}.Finite :=
    t.nodes.finite_toSet.subset fun q hq => h.mem_of_above hn hq
  obtain ⟨l, hl, hnodup, hmem⟩ := exists_covers h.consistent.mem_iff
    (fun q => (h.consistent.chained q).nodup) h.consistent.root_parent (h.consistent.below n hn) hfin
  refine ⟨l, h.crawlFrom_spec hl .start hn ?_, hnodup, hmem⟩
  rw [← List.toFinset_card_of_nodup hnodup]
  exact Finset.card_le_card fun q hq => h.mem_of_above hn ((hmem q).mp (List.mem_toFinset.mp hq))

end Single

end Walk

/-! ### What the search finds -/

/-- The IDs from below path `i` down to path `c`. -/
inductive Trail (d : CPathDictionary) : ℕ → List Index → ℕ → Prop
  | nil (c : ℕ) : Trail d c [] c
  | cons {i k c : ℕ} {stack : List Index} : 0 < k → d.getParent (k : Index) = .ok (i : Index) →
      Trail d k stack c → Trail d i ((k : Index) :: stack) c

section Trail

variable {d : CPathDictionary} {i k c : ℕ} {ns ks cs : List (List UInt8)} {stack : List Index}

/-- The parent of a named path. -/
theorem names_of_parent (hd : d.Built) (hk : d.Named k ks) (hpos : 0 < k)
    (hparent : d.getParent (k : Index) = .ok (i : Index)) :
    ∃ js element, d.Named i js ∧ ks = js ++ [element] := by
  have hne : ks ≠ [] := by
    rintro rfl
    exact hpos.ne' (hd.named_inj hk .root)
  obtain ⟨j, js, element, -, hj, hjs, hks⟩ := hk.parent hne
  obtain rfl := Nat.cast_injective (R := Index) (Except.ok.inj (hj.symm.trans hparent))
  exact ⟨js, element, hjs, hks⟩

/-- The IDs of a trail are those of longer and longer beginnings of the path. -/
theorem Trail.names (h : Trail d i stack c) (hd : d.Built) (hc : d.Named c cs) :
    ∃ ns, d.Named i ns ∧ ns <+: cs ∧ ∀ q ∈ stack, ∃ (k : ℕ) (ks : List (List UInt8)),
      q = (k : Index) ∧ d.Named k ks ∧ ks <+: cs ∧ ns.length < ks.length := by
  induction h with
  | nil c => exact ⟨cs, hc, List.prefix_refl cs, nofun⟩
  | @cons i k c stack hpos hparent _ ih =>
    obtain ⟨ks, hk, hpre, hstack⟩ := ih hc
    obtain ⟨js, element, hjs, rfl⟩ := names_of_parent hd hk hpos hparent
    refine ⟨js, hjs, (List.prefix_append js _).trans hpre, fun q hq => ?_⟩
    rcases List.mem_cons.mp hq with rfl | hq
    · exact ⟨k, _, rfl, hk, hpre, by simp⟩
    · obtain ⟨k', ks', heq, hk', hpre', hlen⟩ := hstack q hq
      rw [List.length_append] at hlen
      exact ⟨k', ks', heq, hk', hpre', by omega⟩

theorem collectPaths_root (d : CPathDictionary) (room : ℕ) (stack : List Index) :
    collectPaths d (0 : ℕ) room ((0 : ℕ) : Index) stack = .ok ((0 : ℕ), stack) := by
  cases room with
  | zero => exact if_neg fun hlt => lt_irrefl _ hlt.2
  | succ room => exact if_neg fun hlt => lt_irrefl _ hlt.2

/-- The array is filled with the IDs down from the root, if there is room for all. -/
theorem collectPaths_spec (hd : d.Built) (hi : d.Named i ns) (htrail : Trail d i stack c)
    {room : ℕ} (hroom : ns.length ≤ room) :
    ∃ stack', collectPaths d (0 : ℕ) room (i : Index) stack = .ok ((0 : ℕ), stack') ∧
      Trail d 0 stack' c := by
  induction room generalizing i ns stack with
  | zero =>
    obtain rfl := List.length_eq_zero_iff.mp (Nat.le_zero.mp hroom)
    obtain rfl := hd.named_inj hi .root
    exact ⟨stack, collectPaths_root d 0 stack, htrail⟩
  | succ room ih =>
    by_cases hns : ns = []
    · subst hns
      obtain rfl := hd.named_inj hi .root
      exact ⟨stack, collectPaths_root d _ stack, htrail⟩
    · obtain ⟨j, js, element, hpos, hparent, hj, rfl⟩ := hi.parent hns
      have hlt : (i : Index) ≠ ⊤ ∧ ((0 : ℕ) : Index) < (i : Index) :=
        ⟨WithTop.natCast_ne_top i, by exact_mod_cast hpos⟩
      rw [List.length_append, List.length_singleton] at hroom
      obtain ⟨stack', hcollect, htrail'⟩ := ih hj (.cons hpos hparent htrail) (by omega)
      refine ⟨stack', ?_, htrail'⟩
      rw [collectPaths, if_pos hlt, hparent]
      exact hcollect

end Trail

theorem followPath_of_le {nodePathID pathID : Index} (h : nodePathID ≤ pathID) (stack : List Index) :
    followPath nodePathID pathID stack = (pathID, stack) := by
  cases stack with
  | nil => rfl
  | cons next stack => exact if_neg (not_lt.mpr h)

theorem followPath_mem (nodePathID pathID : Index) (stack : List Index) :
    (followPath nodePathID pathID stack).1 ∈ pathID :: stack := by
  induction stack generalizing pathID with
  | nil => exact List.mem_singleton_self pathID
  | cons next stack ih =>
    rw [followPath]
    split
    · exact List.mem_cons_of_mem pathID (ih next)
    · exact List.mem_cons_self

section Search

variable {t : CSearchPathTree} {s : Shape} {i c n a b : ℕ} {cs : List (List UInt8)}

/-- What the search has to find: the node of a path, or any node if no node is at or below it. -/
def Answer (t : CSearchPathTree) (s : Shape) (cs : List (List UInt8)) (n : ℕ) : Prop :=
  n ∈ t.nodes ∧ (s.names n = cs ∨ ∀ m ∈ t.nodes, ¬ cs <+: s.names m)

namespace Single

/-- The scan ends at the first sibling with at least the given ID, or at the last one. -/
theorem scanSiblings_spec (h : Single t s) {front back : List ℕ} {pathID : Index} {fuel : ℕ}
    (hchildren : s.children n = front ++ a :: back) (hfuel : back.length < fuel) :
    ∃ front' a' back', t.scanSiblings pathID fuel a = .ok a' ∧
      s.children n = front' ++ a' :: back' ∧
      (∀ x ∈ front', x ∈ front ∨ (t.path x).index < pathID) ∧
      (pathID ≤ (t.path a').index ∨ back' = []) := by
  induction fuel generalizing front a back with
  | zero => exact absurd hfuel (Nat.not_lt_zero _)
  | succ fuel ih =>
    rw [scanSiblings]
    by_cases hlt : (t.path a).index < pathID
    · have hchained := h.consistent.chained n
      rw [hchildren] at hchained
      have hnext : t.next a = back.head? := hchained.next_eq
      rw [if_pos hlt, hnext]
      cases back with
      | nil => exact ⟨front, a, [], rfl, hchildren, fun x hx => Or.inl hx, Or.inr rfl⟩
      | cons next back =>
        obtain ⟨front', a', back', hscan, hsplit, hfront, hend⟩ := ih
          (hchildren.trans (List.append_cons front a (next :: back)))
          (by rw [List.length_cons] at hfuel; omega)
        refine ⟨front', a', back', hscan, hsplit, fun x hx => ?_, hend⟩
        rcases hfront x hx with hx | hx
        · rcases List.mem_append.mp hx with hx | hx
          · exact Or.inl hx
          · rw [List.mem_singleton.mp hx]
            exact Or.inr hlt
        · exact Or.inr hx
    · rw [if_neg hlt]
      exact ⟨front, a, back, rfl, hchildren, fun x hx => Or.inl hx, Or.inl (not_lt.mp hlt)⟩

/-- No node is at or below a path, if none of the children of a node above it is. -/
theorem nobody (h : Single t s) (ha : a ∈ t.nodes) (hpre : s.names a <+: cs)
    (hlen : (s.names a).length < cs.length)
    (hchildren : ∀ b, t.parent b = some a → ¬ s.names b <+: cs) :
    ∀ m ∈ t.nodes, ¬ cs <+: s.names m := by
  intro m hm hcm
  have habove := (h.above_iff ha hm).mpr (hpre.trans hcm)
  rcases Relation.ReflTransGen.cases_head habove with rfl | ⟨b, hb, hbm⟩
  · exact absurd hcm.length_le (Nat.not_le.mpr hlen)
  · obtain ⟨element, helement⟩ := h.names_child hb
    have hbm' := (h.above_iff (h.consistent.mem_nodes a b hb).2 hm).mp hbm
    refine hchildren b hb (List.prefix_of_prefix_length_le hbm' hcm ?_)
    rw [helement, List.length_append, List.length_singleton]
    exact hlen

/-- No node is at or below a path that is below that of a leaf. -/
theorem nobody_of_leaf (h : Single t s) (ha : a ∈ t.nodes) (hpre : s.names a <+: cs)
    (hlen : (s.names a).length < cs.length) (hleaf : t.firstChild a = none) :
    ∀ m ∈ t.nodes, ¬ cs <+: s.names m := by
  refine h.nobody ha hpre hlen fun b hb => ?_
  have hmem := (h.consistent.mem_iff a b).mpr hb
  rw [h.consistent.children_eq_nil_iff.mpr hleaf] at hmem
  exact absurd hmem List.not_mem_nil

/-- The search among the children of a node above the path. -/
theorem searchPaths_spec (h : Single t s) (hc : t.dictionary.Named c cs) {fuel : ℕ} :
    ∀ {i k a b : ℕ} {stack : List Index}, Trail t.dictionary i ((k : Index) :: stack) c →
      a ∈ t.nodes → t.dictionary.Named i (s.names a) → t.firstChild a = some b →
        stack.length < fuel →
          ∃ n, t.searchPaths fuel b (k : Index) stack = .ok n ∧ Answer t s cs n := by
  induction fuel with
  | zero => exact fun _ _ _ _ hfuel => absurd hfuel (Nat.not_lt_zero _)
  | succ fuel ih =>
    intro i k a b stack htrail ha hi hb hfuel
    have hbuilt : t.dictionary.Built := h.consistent.built
    obtain ⟨hpos, hparent, hrest⟩ : 0 < k ∧ t.dictionary.getParent (k : Index) = .ok (i : Index) ∧
        Trail t.dictionary k stack c := by
      cases htrail with
      | cons hpos hparent hrest => exact ⟨hpos, hparent, hrest⟩
    obtain ⟨ks, hk, hkpre, hstack⟩ := hrest.names hbuilt hc
    obtain ⟨js, element, hjs, hks⟩ := names_of_parent hbuilt hk hpos hparent
    obtain rfl := hjs.unique hi
    -- the children of the node are at the level of the path that is looked for
    have hlevel : ∀ q, t.parent q = some a → (s.names q).length = ks.length := by
      intro q hq
      obtain ⟨element', helement'⟩ := h.names_child hq
      rw [helement', hks, List.length_append, List.length_append]
      rfl
    have hfirst : (s.children a).head? = some b := by
      rw [← hb]
      exact (h.consistent.chained a).first.symm
    obtain ⟨more, hmore⟩ : ∃ more, s.children a = b :: more := by
      rcases hall : s.children a with _ | ⟨b', more⟩
      · rw [hall] at hfirst
        exact nomatch hfirst
      · rw [hall] at hfirst
        obtain rfl := Option.some.inj hfirst
        exact ⟨more, rfl⟩
    have hsorted : (s.children a).Pairwise fun x y => (t.path x).index ≤ (t.path y).index :=
      h.consistent.sorted a
    have hscanAll : ∀ pathID : Index, ∃ front a' back,
        t.scanSiblings pathID (t.nodes.card + 1) b = .ok a' ∧
          s.children a = front ++ a' :: back ∧ (∀ x ∈ front, (t.path x).index < pathID) ∧
            (pathID ≤ (t.path a').index ∨ back = []) := by
      intro pathID
      have hlen : (s.children a).length ≤ t.nodes.card := h.consistent.length_children_le a
      rw [hmore, List.length_cons] at hlen
      have hsplit : s.children a = [] ++ b :: more := hmore
      obtain ⟨front, a', back, hscan, hchildren, hfront, hend⟩ := h.scanSiblings_spec hsplit
        (by omega : more.length < t.nodes.card + 1)
      exact ⟨front, a', back, hscan, hchildren,
        fun x hx => (hfront x hx).resolve_left List.not_mem_nil, hend⟩
    rw [searchPaths]
    by_cases hmatch : ∃ a' ∈ s.children a, (t.path a').index = (k : Index)
    · obtain ⟨m, hm, hmk⟩ := hmatch
      have hle : (t.path b).index ≤ (k : Index) := by
        rw [hmore] at hm hsorted
        rcases List.mem_cons.mp hm with rfl | hm
        · exact hmk.le
        · exact ((List.pairwise_cons.mp hsorted).1 m hm).trans hmk.le
      obtain ⟨front, a', back, hscan, hchildren, hfront, hend⟩ := hscanAll k
      have hindex : (t.path a').index = (k : Index) := by
        rw [hchildren] at hm hsorted
        rcases List.mem_append.mp hm with hm | hm
        · exact absurd hmk (hfront m hm).ne
        rcases List.mem_cons.mp hm with rfl | hm
        · exact hmk
        · have hback := hend.resolve_right (List.ne_nil_of_mem hm)
          have hsorted' := (List.pairwise_append.mp hsorted).2.1
          exact (((List.pairwise_cons.mp hsorted').1 m hm).trans hmk.le).antisymm hback
      have hparent' := h.parent_of_children hchildren
      obtain ⟨-, ha'⟩ := h.consistent.mem_nodes a a' hparent'
      have hnames := h.names_eq ha' hindex hk
      rw [followPath_of_le hle]
      dsimp only
      rw [hscan]
      dsimp only [bind, Except.bind]
      cases stack with
      | nil =>
        -- the whole path is found
        refine ⟨a', rfl, ha', Or.inl ?_⟩
        cases hrest
        rw [hnames, hk.unique hc]
      | cons next stack =>
        obtain ⟨p, ps, rfl, hp, hppre, hplen⟩ := hstack next List.mem_cons_self
        dsimp only
        rw [if_neg (not_not.mpr hindex)]
        rcases hchild : t.firstChild a' with _ | b'
        · refine ⟨a', rfl, ha', Or.inr ?_⟩
          exact h.nobody_of_leaf ha' (hnames ▸ hkpre) (hnames ▸ hplen.trans_le hppre.length_le) hchild
        · exact ih hrest ha' (hnames ▸ hk) hchild (Nat.lt_of_succ_lt_succ hfuel)
    · have hother : ∀ q, t.parent q = some a → (t.path q).index ≠ (k : Index) := fun q hq heq =>
        hmatch ⟨q, (h.consistent.mem_iff a q).mpr hq, heq⟩
      have hnobody : ∀ m ∈ t.nodes, ¬ cs <+: s.names m := by
        refine h.nobody ha ?_ ?_ fun q hq hqc => hother q hq ?_
        · exact (hks ▸ List.prefix_append _ _ : s.names a <+: ks).trans hkpre
        · refine lt_of_lt_of_le ?_ hkpre.length_le
          rw [hks, List.length_append, List.length_singleton]
          exact Nat.lt_succ_self _
        · have hnames : s.names q = ks :=
            (List.prefix_of_prefix_length_le hqc hkpre (hlevel q hq).le).eq_of_length (hlevel q hq)
          exact h.index_eq (h.consistent.mem_nodes a q hq).2 (hnames ▸ hk)
      rcases hfollow : followPath (t.path b).index (k : Index) stack with ⟨pathID, stack'⟩
      have hmem := followPath_mem (t.path b).index (k : Index) stack
      rw [hfollow] at hmem
      obtain ⟨front, a', back, hscan, hchildren, -, -⟩ := hscanAll pathID
      have hparent' := h.parent_of_children hchildren
      obtain ⟨-, ha'⟩ := h.consistent.mem_nodes a a' hparent'
      refine ⟨a', ?_, ha', Or.inr hnobody⟩
      dsimp only
      rw [hscan]
      dsimp only [bind, Except.bind]
      cases stack' with
      | nil => rfl
      | cons next stack' =>
        refine if_pos fun heq => ?_
        rcases List.mem_cons.mp hmem with hmem | hmem
        · exact hother a' hparent' (heq.trans hmem)
        · -- IDs from further down the path are not at the level of the children
          obtain ⟨p, ps, hpq, hp, -, hplen⟩ := hstack _ hmem
          have hnames := h.names_eq ha' (heq.trans hpq) hp
          rw [← hnames, hlevel a' hparent'] at hplen
          exact Nat.lt_irrefl _ hplen

/-- The search from the root finds the node of a path, or tells that no node is at or below it. -/
theorem findCommonParent_spec (h : Single t s) (hc : t.dictionary.Named c cs)
    (hlen : cs.length ≤ CPathDictionary.maxPath) :
    ∃ n, t.findCommonParent 0 (c : Index) = .ok n ∧ Answer t s cs n := by
  have hbuilt : t.dictionary.Built := h.consistent.built
  have hroot : t.path 0 = ⟨((0 : ℕ) : Index), []⟩ := h.consistent.root_path
  have hzero : s.names 0 = [] := h.consistent.names_zero
  have hmem : 0 ∈ t.nodes := h.consistent.root_mem
  obtain ⟨stack, hcollect, htrail⟩ := collectPaths_spec hbuilt hc (.nil c) hlen
  have hnext : t.scanSiblings ((0 : ℕ) : Index) (t.nodes.card + 1) 0 = .ok 0 := by
    rw [scanSiblings, hroot]
    exact if_neg (lt_irrefl _)
  rw [findCommonParent, hroot, hcollect]
  dsimp only [bind, Except.bind]
  rw [searchPaths, hroot, followPath_of_le le_rfl]
  dsimp only
  rw [hnext]
  dsimp only [bind, Except.bind]
  cases stack with
  | nil =>
    refine ⟨0, rfl, hmem, Or.inl ?_⟩
    cases htrail
    rw [hzero, CPathDictionary.Named.root.unique hc]
  | cons next stack =>
    dsimp only
    rw [hroot, if_neg (not_not.mpr rfl)]
    obtain ⟨ns, hns, -, hstack⟩ := htrail.names hbuilt hc
    obtain ⟨k, ks, rfl, hk, hkpre, hklen⟩ := hstack next List.mem_cons_self
    rcases hchild : t.firstChild 0 with _ | b
    · refine ⟨0, rfl, hmem, Or.inr (h.nobody_of_leaf hmem ?_ ?_ hchild)⟩
      · rw [hzero]
        exact List.nil_prefix
      · rw [hzero]
        exact (Nat.zero_le _).trans_lt (hklen.trans_le hkpre.length_le)
    · exact h.searchPaths_spec hc htrail hmem (hzero ▸ .root) hchild (by simp)

end Single

end Search

end CSearchPathTree

end TortoiseSvn.RevisionGraph
