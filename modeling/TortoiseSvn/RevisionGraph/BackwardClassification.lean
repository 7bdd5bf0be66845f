import TortoiseSvn.RevisionGraph.ClassificationFlags
import TortoiseSvn.RevisionGraph.CopiedNodes

/-!
# Propagating the classification

`BackwardClassification` walks each branch from its end to its beginning and gives every node the flags
that sum up what happens behind it on its branch, and on the branches copied from there. A call returns
what holds of a whole branch.

`Local` says how the flags of a node depend on those of the next node and of its copies.

Main result: `backwardClassification_spec`.
-/

namespace TortoiseSvn.RevisionGraph

open TortoiseSvn.Lib CNodeClassification CVisibleGraphBuilder

namespace CFullGraphFinalizer

/-! ### The code -/

/-- Source: `FullGraphNode.h` `GetClassification` -/
def classificationOf (nodes : Heap CFullGraphNode) (node : ℕ) : CNodeClassification :=
  nodes.read LinkedNode.data 0 node

/-- Source: `FullGraphNode.h` `AddClassification` -/
def addClassification (nodes : Heap CFullGraphNode) (node : ℕ) (toAdd : CNodeClassification) :
    Heap CFullGraphNode :=
  nodes.modify node fun n => { n with data := n.data ||| toAdd }

/-- The end of a chain.
Source: `FullGraphFinalizer.cpp` `CFullGraphFinalizer::BackwardClassification`, "start at the end of
this chain" -/
def lastNode (nodes : Heap CFullGraphNode) : ℕ → ℕ → Option ℕ
  | 0, _ => none
  | fuel + 1, node =>
    match (linksOf nodes).next node with
    | none => some node
    | some next => lastNode nodes fuel next

/-- The flags that all copies have, and those that at least one has.
Source: `FullGraphFinalizer.cpp` `CFullGraphFinalizer::BackwardClassification`, "set classification on
copies first" -/
def classifyCopies
    (backward : Heap CFullGraphNode → ℕ → Option (Heap CFullGraphNode × CNodeClassification)) :
    List ℕ → Heap CFullGraphNode → CNodeClassification → CNodeClassification →
      Option (Heap CFullGraphNode × CNodeClassification × CNodeClassification)
  | [], nodes, common, aggregated => some (nodes, common, aggregated)
  | copy :: rest, nodes, common, aggregated => do
    let (nodes, classification) ← backward nodes copy
    classifyCopies backward rest nodes (common &&& classification) (aggregated ||| classification)

/-- One node, and what holds of the branch from it on.
Source: `FullGraphFinalizer.cpp` `CFullGraphFinalizer::BackwardClassification`, the loop -/
def classifyNode
    (backward : Heap CFullGraphNode → ℕ → Option (Heap CFullGraphNode × CNodeClassification))
    (nodes : Heap CFullGraphNode) (node : ℕ) (branchClassification : CNodeClassification) :
    Option (Heap CFullGraphNode × CNodeClassification) := do
  let (nodes, commonCopyClassfication, aggregatedCopyClassification) ←
    classifyCopies backward ((linksOf nodes).copyTargets node) nodes 0xffffffff 0
  let classification := classify (classificationOf nodes node) branchClassification
    commonCopyClassfication aggregatedCopyClassification
  -- "store and return the flags"
  let nodes := addClassification nodes node (classification &&& derivedMask)
  some (nodes, classification ||| classificationOf nodes node)

/-- Source: `FullGraphFinalizer.cpp` `CFullGraphFinalizer::BackwardClassification`, the loop -/
def classifyLoop
    (backward : Heap CFullGraphNode → ℕ → Option (Heap CFullGraphNode × CNodeClassification)) :
    ℕ → Heap CFullGraphNode → ℕ → CNodeClassification →
      Option (Heap CFullGraphNode × CNodeClassification)
  | 0, _, _, _ => none
  | fuel + 1, nodes, node, branchClassification => do
    let (nodes, branchClassification) ← classifyNode backward nodes node branchClassification
    match (linksOf nodes).prev node with
    | none => some (nodes, branchClassification)
    | some prev => classifyLoop backward fuel nodes prev branchClassification

/-- Classify a branch and its copies; `none` when the fuel is used up.
Source: `FullGraphFinalizer.cpp` `CFullGraphFinalizer::BackwardClassification` -/
def backwardFrom :
    ℕ → Heap CFullGraphNode → ℕ → Option (Heap CFullGraphNode × CNodeClassification)
  | 0, _, _ => none
  | fuel + 1, nodes, node => do
    let last ← lastNode nodes (fuel + 1) node
    classifyLoop (backwardFrom fuel) (fuel + 1) nodes last 0

/-- No recursion is deeper, and no chain is longer, than there are nodes.
Source: `FullGraphFinalizer.cpp` `CFullGraphFinalizer::BackwardClassification` -/
def BackwardClassification (g : CFullGraph) (node : ℕ) : Option (CFullGraph × CNodeClassification) :=
  (backwardFrom g.nodeCount g.nodes node).map fun r => ({ g with nodes := r.1 }, r.2)

attribute [local simp] lastNode classifyCopies classifyLoop backwardFrom

/-! ### What the flags mean -/

section Meaning

variable (g : CFullGraph)

/-- `m` is `n` or stands behind it on its branch. -/
def Later (n m : ℕ) : Prop := Above g.links.prev n m

/-- The flags of a node, from those of the next node and of its copies. -/
structure Local (nodes : Heap CFullGraphNode) (n : ℕ) : Prop where
  pathOnly : ∀ x, (classificationOf nodes n).is (PATH_ONLY x) = true ↔
    (∃ m, g.links.next n = some m ∧ (classificationOf nodes m).is (PATH_ONLY x) = true) ∨
      (g.classification n).is (IS x.toClass) = true
  copiesTo : ∀ y, (classificationOf nodes n).is (COPIES_TO y) = true ↔
    (∃ m, g.links.next n = some m ∧ (classificationOf nodes m).is (COPIES_TO y) = true) ∨
      ∃ c ∈ g.links.copyTargets n, ∃ k, Later g c k ∧ (g.classification k).is (IS y) = true
  allCopies : ∀ x, (classificationOf nodes n).is (ALL_COPIES x) = true ↔
    (∀ c ∈ g.links.copyTargets n, (classificationOf nodes c).is (ALL_COPIES x) = true) ∧
      ((∃ m, g.links.next n = some m ∧ (classificationOf nodes m).is (ALL_COPIES x) = true) ∨
        (g.classification n).is (IS x.toClass) = true)
  unchanged : classificationOf nodes n &&& ~~~derivedMask = g.classification n &&& ~~~derivedMask

/-- What a branch classification says of the branch from a node on. -/
structure Sums (nodes : Heap CFullGraphNode) (n : ℕ) (branch : CNodeClassification) : Prop where
  is_iff : ∀ y, branch.is (IS y) = true ↔
    ∃ m, Later g n m ∧ (g.classification m).is (IS y) = true
  derived : ∀ v, Derived v → branch.is v = (classificationOf nodes n).is v

/-- What a branch classification says of the branch behind a node. -/
structure Behind (nodes : Heap CFullGraphNode) (n : ℕ) (branch : CNodeClassification) : Prop where
  is_iff : ∀ y, branch.is (IS y) = true ↔
    ∃ m, g.links.next n = some m ∧ ∃ k, Later g m k ∧ (g.classification k).is (IS y) = true
  derived : ∀ v, Derived v → (branch.is v = true ↔
    ∃ m, g.links.next n = some m ∧ (classificationOf nodes m).is v = true)

/-- The nodes of a set, and all below them, have their flags; the other nodes are as they were. -/
structure Classified (nodes : Heap CFullGraphNode) (D : Set ℕ) : Prop where
  links : linksOf nodes = g.links
  isSome : ∀ z, (nodes z).isSome = (g.nodes z).isSome
  closed : ∀ z c, z ∈ D → g.links.source c = some z → c ∈ D
  same : ∀ z, z ∉ D → nodes z = g.nodes z
  done : ∀ z ∈ D, Local g nodes z

/-- A node and all below it. -/
def below (x : ℕ) : Set ℕ := {z | Above g.links.source x z}

/-- A call for the branch that begins with `x` classifies all below it, and tells what holds of the
branch. -/
def Classifies
    (backward : Heap CFullGraphNode → ℕ → Option (Heap CFullGraphNode × CNodeClassification))
    (x : ℕ) : Prop :=
  ∀ nodes D, Classified g nodes D → (∀ z ∈ below g x, z ∉ D) →
    ∃ nodes' b, backward nodes x = some (nodes', b) ∧ Classified g nodes' (D ∪ below g x) ∧
      (∀ z ∉ below g x, nodes' z = nodes z) ∧ Sums g nodes' x b

end Meaning

variable {g : CFullGraph} {nodes nodes' : Heap CFullGraphNode} {n x : ℕ}

theorem classificationOf_congr (h : nodes' n = nodes n) :
    classificationOf nodes' n = classificationOf nodes n := by
  rw [classificationOf, classificationOf, Heap.read, Heap.read, h]

/-- The flags of a node depend on the next node and the copies only. -/
theorem Local.congr (h : Local g nodes n) (hself : nodes' n = nodes n)
    (hchild : ∀ c, g.links.source c = some n → nodes' c = nodes c) (hlinked : g.links.Linked) :
    Local g nodes' n := by
  have hn := classificationOf_congr hself
  have hnext : ∀ m, g.links.next n = some m → classificationOf nodes' m = classificationOf nodes m :=
    fun m hm => classificationOf_congr
      (hchild m (hlinked.source_eq_some.mpr (Or.inl ((hlinked.next_iff n m).mp hm))))
  have hcopy : ∀ c ∈ g.links.copyTargets n,
      classificationOf nodes' c = classificationOf nodes c :=
    fun c hc => classificationOf_congr
      (hchild c (hlinked.source_eq_some.mpr (Or.inr ((hlinked.target_iff n c).mp hc))))
  have hbehind : ∀ v, (∃ m, g.links.next n = some m ∧ (classificationOf nodes' m).is v = true) ↔
      ∃ m, g.links.next n = some m ∧ (classificationOf nodes m).is v = true :=
    fun v => exists_congr fun m => and_congr_right fun hm => by rw [hnext m hm]
  refine ⟨fun x => ?_, fun y => ?_, fun x => ?_, ?_⟩
  · rw [hn, hbehind]
    exact h.pathOnly x
  · rw [hn, hbehind]
    exact h.copiesTo y
  · have hall : (∀ c ∈ g.links.copyTargets n,
        (classificationOf nodes' c).is (ALL_COPIES x) = true) ↔
          ∀ c ∈ g.links.copyTargets n, (classificationOf nodes c).is (ALL_COPIES x) = true :=
      forall₂_congr fun c hc => by rw [hcopy c hc]
    rw [hn, hbehind, hall]
    exact h.allCopies x
  · rw [hn]
    exact h.unchanged

/-! ### One node -/

/-- A node gets its flags after all below it. -/
theorem Classified.add_node {D : Set ℕ} (h : Classified g nodes D) (hlinked : g.links.Linked)
    (hn : n ∉ D) (hchild : ∀ c, g.links.source c = some n → c ∈ D) {toAdd : CNodeClassification}
    (hlocal : Local g (addClassification nodes n toAdd) n) :
    Classified g (addClassification nodes n toAdd) (insert n D) := by
  have hother : ∀ z, z ≠ n → addClassification nodes n toAdd z = nodes z := fun z hz =>
    Function.update_of_ne hz _ _
  constructor
  case links =>
    rw [addClassification, linksOf_setData fun d => d ||| toAdd]
    exact h.links
  case isSome =>
    intro z
    rw [addClassification, Heap.modify_isSome, h.isSome]
  case closed =>
    rintro z c (rfl | hz) hc
    · exact Or.inr (hchild c hc)
    · exact Or.inr (h.closed z c hz hc)
  case same =>
    intro z hz
    rw [Set.mem_insert_iff, not_or] at hz
    rw [hother z hz.1, h.same z hz.2]
  case done =>
    rintro z (rfl | hz)
    · exact hlocal
    · have hne : ∀ c ∈ D, c ≠ n := fun c hc heq => hn (heq ▸ hc)
      refine (h.done z hz).congr (hother z (hne z hz)) (fun c hc => ?_) hlinked
      exact hother c (hne c (h.closed z c hz hc))

/-- The copies of a node are classified one after the other. -/
theorem classifyCopies_spec (hfull : ConsistentFullGraph g)
    {backward : Heap CFullGraphNode → ℕ → Option (Heap CFullGraphNode × CNodeClassification)}
    {cs : List ℕ} (hcs : ∀ c ∈ cs, g.links.copySource c = some n) (hnodup : cs.Nodup)
    (hback : ∀ c ∈ cs, Classifies g backward c) {D : Set ℕ} (h : Classified g nodes D)
    (hfresh : ∀ c ∈ cs, ∀ z ∈ below g c, z ∉ D) (common aggregated : CNodeClassification) :
    ∃ nodes' common' aggregated',
      classifyCopies backward cs nodes common aggregated = some (nodes', common', aggregated') ∧
      Classified g nodes' (D ∪ {z | ∃ c ∈ cs, z ∈ below g c}) ∧
      (∀ z, (∀ c ∈ cs, z ∉ below g c) → nodes' z = nodes z) ∧
      (∀ x, common'.is (ALL_COPIES x) = true ↔ common.is (ALL_COPIES x) = true ∧
        ∀ c ∈ cs, (classificationOf nodes' c).is (ALL_COPIES x) = true) ∧
      (∀ y, aggregated'.is (IS y) = true ↔ aggregated.is (IS y) = true ∨
        ∃ c ∈ cs, ∃ k, Later g c k ∧ (g.classification k).is (IS y) = true) := by
  induction cs generalizing nodes D common aggregated with
  | nil =>
    refine ⟨nodes, common, aggregated, rfl, ?_, fun z _ => rfl, fun x => by simp, fun y => by simp⟩
    have hempty : D ∪ {z | ∃ c ∈ ([] : List ℕ), z ∈ below g c} = D := by simp
    rwa [hempty]
  | cons c cs ih =>
    obtain ⟨hc, hnodup⟩ := List.nodup_cons.mp hnodup
    have hsource : ∀ c' ∈ c :: cs, g.links.source c' = some n := fun c' hc' =>
      hfull.linked.source_eq_some.mpr (Or.inr (hcs c' hc'))
    -- nothing is below two copies
    have hapart : ∀ c' ∈ cs, ∀ z ∈ below g c', z ∉ below g c := by
      intro c' hc' z hz
      exact hfull.apart (hsource c' (List.mem_cons_of_mem c hc')) (hsource c List.mem_cons_self)
        (fun heq => hc (heq ▸ hc')) hz
    obtain ⟨nodes₁, b, hcall, h₁, hframe₁, hsums⟩ :=
      hback c List.mem_cons_self nodes D h (hfresh c List.mem_cons_self)
    obtain ⟨nodes₂, common', aggregated', hrest, h₂, hframe₂, hcommon, haggregated⟩ :=
      ih (fun c' hc' => hcs c' (List.mem_cons_of_mem c hc')) hnodup
        (fun c' hc' => hback c' (List.mem_cons_of_mem c hc')) h₁
        (fun c' hc' z hz hmem => hmem.elim (hfresh c' (List.mem_cons_of_mem c hc') z hz)
          (hapart c' hc' z hz)) (common &&& b) (aggregated ||| b)
    have hself : classificationOf nodes₂ c = classificationOf nodes₁ c := by
      apply classificationOf_congr (hframe₂ c _)
      intro c' hc' hmem
      exact hapart c' hc' c hmem (Above.refl _ c)
    refine ⟨nodes₂, common', aggregated', ?_, ?_, ?_, ?_, ?_⟩
    · rw [classifyCopies, hcall]
      exact hrest
    · have hset : D ∪ {z | ∃ c' ∈ c :: cs, z ∈ below g c'} =
          D ∪ below g c ∪ {z | ∃ c' ∈ cs, z ∈ below g c'} := by
        ext z
        simp [or_assoc]
      rw [hset]
      exact h₂
    · intro z hz
      rw [hframe₂ z fun c' hc' => hz c' (List.mem_cons_of_mem c hc'),
        hframe₁ z (hz c List.mem_cons_self)]
    · intro x
      rw [hcommon, is_and _ _ (Derived.allCopies x).single, Bool.and_eq_true,
        hsums.derived _ (.allCopies x), List.forall_mem_cons, hself, and_assoc]
    · intro y
      rw [haggregated, is_or _ _ (single_IS y), Bool.or_eq_true, hsums.is_iff, or_assoc]
      simp only [List.mem_cons, exists_eq_or_imp]

/-- The branch from a node on is the node, and the branch from the next one on. -/
theorem later_iff (hlinked : g.links.Linked) {n m : ℕ} :
    Later g n m ↔ m = n ∨ ∃ next, g.links.next n = some next ∧ Later g next m := by
  constructor
  · intro h
    rcases Relation.ReflTransGen.cases_head h with heq | ⟨z, hz, hrest⟩
    · exact Or.inl heq.symm
    · exact Or.inr ⟨z, (hlinked.next_iff n z).mpr hz, hrest⟩
  · rintro (rfl | ⟨z, hz, hrest⟩)
    · exact Above.refl _ m
    · exact (Above.single ((hlinked.next_iff n z).mp hz)).trans hrest

/-- What is below a node: the node itself, and what is below the next node and the copies. -/
theorem below_eq (hlinked : g.links.Linked) (n : ℕ) :
    below g n = insert n ({z | ∃ m, g.links.next n = some m ∧ z ∈ below g m} ∪
      {z | ∃ c ∈ g.links.copyTargets n, z ∈ below g c}) := by
  ext z
  constructor
  · intro h
    rcases Relation.ReflTransGen.cases_head h with heq | ⟨c, hc, hrest⟩
    · exact Or.inl heq.symm
    · rcases hlinked.source_eq_some.mp hc with hprev | hcopy
      · exact Or.inr (Or.inl ⟨c, (hlinked.next_iff n c).mpr hprev, hrest⟩)
      · exact Or.inr (Or.inr ⟨c, (hlinked.target_iff n c).mpr hcopy, hrest⟩)
  · rintro (rfl | ⟨m, hm, hz⟩ | ⟨c, hc, hz⟩)
    · exact Above.refl _ z
    · have hsource := hlinked.source_eq_some.mpr (Or.inl ((hlinked.next_iff n m).mp hm))
      exact (Above.single hsource).trans hz
    · have hsource := hlinked.source_eq_some.mpr (Or.inr ((hlinked.target_iff n c).mp hc))
      exact (Above.single hsource).trans hz

/-- The flags of a node, and what holds of the branch from it on. -/
theorem classifyNode_spec (hfull : ConsistentFullGraph g)
    {backward : Heap CFullGraphNode → ℕ → Option (Heap CFullGraphNode × CNodeClassification)}
    (hn : (g.nodes n).isSome) (hderived : g.classification n &&& derivedMask = 0)
    (hback : ∀ c ∈ g.links.copyTargets n, Classifies g backward c) {D : Set ℕ}
    (h : Classified g nodes D) (hnD : n ∉ D) (hnext : ∀ m, g.links.next n = some m → m ∈ D)
    (hfresh : ∀ c ∈ g.links.copyTargets n, ∀ z ∈ below g c, z ∉ D) {branch : CNodeClassification}
    (hbranch : Behind g nodes n branch) :
    ∃ nodes' b, classifyNode backward nodes n branch = some (nodes', b) ∧
      Classified g nodes' (insert n (D ∪ {z | ∃ c ∈ g.links.copyTargets n, z ∈ below g c})) ∧
      (∀ z, z ≠ n → (∀ c ∈ g.links.copyTargets n, z ∉ below g c) → nodes' z = nodes z) ∧
      Sums g nodes' n b := by
  have hlinked := hfull.linked
  have hcopy : ∀ c ∈ g.links.copyTargets n, g.links.copySource c = some n :=
    fun c hc => (hlinked.target_iff n c).mp hc
  have hsource : ∀ c ∈ g.links.copyTargets n, g.links.source c = some n :=
    fun c hc => hlinked.source_eq_some.mpr (Or.inr (hcopy c hc))
  have hself : ∀ c ∈ g.links.copyTargets n, n ∉ below g c :=
    fun c hc => hfull.not_above (hsource c hc)
  obtain ⟨nodes₁, common, aggregated, hcopies, h₁, hframe, hcommon, haggregated⟩ :=
    classifyCopies_spec hfull hcopy (hlinked.nodup n) hback h hfresh 0xffffffff 0
  set D₁ := D ∪ {z | ∃ c ∈ g.links.copyTargets n, z ∈ below g c} with hD₁
  have hnD₁ : n ∉ D₁ := by
    rintro (hmem | ⟨c, hc, hmem⟩)
    · exact hnD hmem
    · exact hself c hc hmem
  have hflags : classificationOf nodes₁ n = g.classification n :=
    classificationOf_congr (h₁.same n hnD₁)
  set C := classify (g.classification n) branch common aggregated with hC
  set nodes₂ := addClassification nodes₁ n (C &&& derivedMask) with hnodes₂
  have hstored : classificationOf nodes₂ n = g.classification n ||| (C &&& derivedMask) := by
    have hsome : (nodes₁ n).isSome := by rw [h₁.isSome, hn]
    rw [hnodes₂, classificationOf, addClassification,
      Heap.read_modify hsome (· ||| (C &&& derivedMask)) fun _ => rfl, Function.update_self]
    exact congrArg (· ||| (C &&& derivedMask)) hflags
  have hother : ∀ z, z ≠ n → nodes₂ z = nodes₁ z := fun z hz => Function.update_of_ne hz _ _
  -- what was behind the node is still there
  have hbehind : ∀ v, Derived v → (branch.is v = true ↔
      ∃ m, g.links.next n = some m ∧ (classificationOf nodes₂ m).is v = true) := by
    intro v hv
    rw [hbranch.derived v hv]
    refine exists_congr fun m => and_congr_right fun hm => ?_
    have hmD := hnext m hm
    have hmn : m ≠ n := fun heq => hnD (heq ▸ hmD)
    have hsame : nodes₂ m = nodes m := by
      rw [hother m hmn, hframe m fun c hc hmem => hfresh c hc m hmem hmD]
    rw [classificationOf_congr hsame]
  have hlocal : Local g nodes₂ n := by
    refine ⟨fun x => ?_, fun y => ?_, fun x => ?_, ?_⟩
    · rw [hstored, is_stored (.pathOnly x) hderived, hC, classify_PATH_ONLY, Bool.or_eq_true,
        hbehind _ (.pathOnly x)]
    · rw [hstored, is_stored (.copiesTo y) hderived, hC, classify_COPIES_TO, Bool.or_eq_true,
        hbehind _ (.copiesTo y), haggregated]
      simp [is_IS]
    · have hall : (∀ c ∈ g.links.copyTargets n,
          (classificationOf nodes₂ c).is (ALL_COPIES x) = true) ↔
            common.is (ALL_COPIES x) = true := by
        have hones : (0xffffffff : CNodeClassification).is (ALL_COPIES x) = true := by
          cases x <;> rfl
        rw [hcommon, hones, and_iff_right rfl]
        refine forall₂_congr fun c hc => ?_
        have hcn : c ≠ n := fun heq => hself c hc (heq ▸ Above.refl _ c)
        rw [classificationOf_congr (hother c hcn)]
      rw [hstored, is_stored (.allCopies x) hderived, hC, classify_ALL_COPIES, Bool.and_eq_true,
        Bool.or_eq_true, hbehind _ (.allCopies x), hall]
    · rw [hstored]
      exact stored_and_not _ _
  have hchild : ∀ c, g.links.source c = some n → c ∈ D₁ := by
    intro c hc
    rcases hlinked.source_eq_some.mp hc with hprev | hcopy
    · exact Or.inl (hnext c ((hlinked.next_iff n c).mpr hprev))
    · exact Or.inr ⟨c, (hlinked.target_iff n c).mpr hcopy, Above.refl _ c⟩
  refine ⟨nodes₂, C ||| classificationOf nodes₂ n, ?_, h₁.add_node hlinked hnD₁ hchild hlocal,
    ?_, ?_, ?_⟩
  · rw [classifyNode, h.links, hcopies]
    change some (addClassification nodes₁ n (classify (classificationOf nodes₁ n) branch common
      aggregated &&& derivedMask), classify (classificationOf nodes₁ n) branch common aggregated |||
        classificationOf (addClassification nodes₁ n (classify (classificationOf nodes₁ n) branch
          common aggregated &&& derivedMask)) n) = _
    rw [hflags]
  · intro z hz hbelow
    rw [hother z hz, hframe z hbelow]
  · intro y
    rw [is_or _ _ (single_IS y), hstored, stored_IS, hC, classify_IS, Bool.or_eq_true,
      hbranch.is_iff]
    constructor
    · rintro (⟨m, hm, k, hk, his⟩ | his)
      · exact ⟨k, (later_iff hlinked).mpr (Or.inr ⟨m, hm, hk⟩), his⟩
      · exact ⟨n, Above.refl _ n, his⟩
    · rintro ⟨k, hk, his⟩
      rcases (later_iff hlinked).mp hk with rfl | ⟨m, hm, hk⟩
      · exact Or.inr his
      · exact Or.inl ⟨m, hm, k, hk, his⟩
  · intro v hv
    rw [is_or _ _ hv.single, hstored, is_stored hv hderived, Bool.or_self]

/-! ### A branch -/

/-- What holds of the branch from the next node on is what is behind a node. -/
theorem Sums.behind {m : ℕ} (hm : g.links.next n = some m)
    {branch : CNodeClassification} (h : Sums g nodes m branch) : Behind g nodes n branch := by
  constructor
  case is_iff =>
    intro y
    rw [h.is_iff, hm]
    simp
  case derived =>
    intro v hv
    rw [h.derived v hv, hm]
    simp

/-- The nodes behind a node on its branch are below it. -/
theorem above_of_later (hfull : ConsistentFullGraph g) (h : Later g n x) :
    Above g.links.source n x :=
  Relation.ReflTransGen.mono
    (fun _ _ hprev => hfull.linked.source_eq_some.mpr (Or.inl hprev)) _ _ h

/-- The loop goes back to the beginning of the branch. -/
theorem classifyLoop_spec (hfull : ConsistentFullGraph g)
    (hderived : ∀ z, (g.nodes z).isSome → g.classification z &&& derivedMask = 0)
    {backward : Heap CFullGraphNode → ℕ → Option (Heap CFullGraphNode × CNodeClassification)}
    {start : ℕ} (hstart : (g.nodes start).isSome) (hprev : g.links.prev start = none)
    (hback : ∀ z, Later g start z → ∀ c ∈ g.links.copyTargets z, Classifies g backward c)
    {D₀ : Set ℕ} (hfresh : ∀ z ∈ below g start, z ∉ D₀) (fuel : ℕ) :
    ∀ n nodes branch, Later g start n →
      (below g start).ncard + 1 ≤ fuel + (below g n).ncard →
      Classified g nodes (D₀ ∪ {z | ∃ m, g.links.next n = some m ∧ z ∈ below g m}) →
      Behind g nodes n branch →
      ∃ nodes' b, classifyLoop backward fuel nodes n branch = some (nodes', b) ∧
        Classified g nodes' (D₀ ∪ below g start) ∧
        (∀ z ∉ below g start, nodes' z = nodes z) ∧ Sums g nodes' start b := by
  have hlinked := hfull.linked
  induction fuel with
  | zero =>
    intro n nodes branch hn hfuel
    have hle : (below g n).ncard ≤ (below g start).ncard :=
      Set.ncard_le_ncard (fun z hz => (above_of_later hfull hn).trans hz)
        (hfull.finite_below hstart)
    omega
  | succ fuel ih =>
    intro n nodes branch hn hfuel h hbehind
    have habove := above_of_later hfull hn
    have hsome := hfull.isSome_of_above hstart habove
    have hnext : ∀ m, g.links.next n = some m → g.links.source m = some n :=
      fun m hm => hlinked.source_eq_some.mpr (Or.inl ((hlinked.next_iff n m).mp hm))
    have hnD : n ∉ D₀ ∪ {z | ∃ m, g.links.next n = some m ∧ z ∈ below g m} := by
      rintro (hmem | ⟨m, hm, hmem⟩)
      · exact hfresh n habove hmem
      · exact hfull.not_above (hnext m hm) hmem
    have hfreshCopy : ∀ c ∈ g.links.copyTargets n, ∀ z ∈ below g c,
        z ∉ D₀ ∪ {z | ∃ m, g.links.next n = some m ∧ z ∈ below g m} := by
      intro c hc z hz
      have hcopy := (hlinked.target_iff n c).mp hc
      have hsource := hlinked.source_eq_some.mpr (Or.inr hcopy)
      rintro (hmem | ⟨m, hm, hmem⟩)
      · exact hfresh z ((habove.trans (Above.single hsource)).trans hz) hmem
      · -- the next node is not a copy
        have hne : c ≠ m := by
          rintro rfl
          have hp := (hlinked.next_iff n c).mp hm
          rcases hlinked.one c with hnone | hnone
          · exact nomatch hnone.symm.trans hp
          · exact nomatch hnone.symm.trans hcopy
        exact hfull.apart hsource (hnext m hm) hne hz hmem
    obtain ⟨nodes₁, b, hcall, h₁, hframe, hsums⟩ :=
      classifyNode_spec hfull hsome (hderived n hsome) (hback n hn) h hnD
        (fun m hm => Or.inr ⟨m, hm, Above.refl _ m⟩) hfreshCopy hbehind
    rw [Set.union_assoc, Set.union_comm D₀, ← Set.insert_union, ← below_eq hlinked,
      Set.union_comm] at h₁
    have hframe' : ∀ z ∉ below g start, nodes₁ z = nodes z := by
      intro z hz
      apply hframe z (fun heq => hz (heq ▸ habove))
      intro c hc hmem
      have hsource := hlinked.source_eq_some.mpr (Or.inr ((hlinked.target_iff n c).mp hc))
      exact hz ((habove.trans (Above.single hsource)).trans hmem)
    cases hp : g.links.prev n with
    | none =>
      obtain rfl : start = n := hn.eq_of_root hp
      refine ⟨nodes₁, b, ?_, h₁, hframe', hsums⟩
      rw [classifyLoop, hcall]
      show (match (linksOf nodes₁).prev start with
        | none => _
        | some prev => _) = _
      rw [h₁.links, hp]
    | some p =>
      have hpn := (hlinked.next_iff p n).mpr hp
      have hlater : Later g start p := by
        rcases hn.cases_tail with heq | ⟨z, hz, hzn⟩
        · rw [← heq, hprev] at hp
          exact nomatch hp
        · obtain rfl := Option.some.inj (hp.symm.trans hzn)
          exact hz
      have hlt : (below g n).ncard < (below g p).ncard :=
        hfull.ncard_below_lt (hlinked.source_eq_some.mpr (Or.inl hp))
      have hset : {z | ∃ m, g.links.next p = some m ∧ z ∈ below g m} = below g n := by
        ext z
        simp [hpn]
      rw [← hset] at h₁
      obtain ⟨nodes₂, b', hloop, h₂, hframe₂, hsums₂⟩ :=
        ih p nodes₁ b hlater (by omega) h₁ (hsums.behind hpn)
      refine ⟨nodes₂, b', ?_, h₂, fun z hz => ?_, hsums₂⟩
      · rw [classifyLoop, hcall]
        show (match (linksOf nodes₁).prev n with
          | none => _
          | some prev => _) = _
        rw [h₁.links, hp]
        exact hloop
      · rw [hframe₂ z hz, hframe' z hz]

/-- The end of a branch is found. -/
theorem lastNode_spec (hfull : ConsistentFullGraph g) (hlinks : linksOf nodes = g.links) (fuel : ℕ) :
    ∀ n, (below g n).ncard ≤ fuel → (g.nodes n).isSome →
      ∃ last, lastNode nodes fuel n = some last ∧ Later g n last ∧ g.links.next last = none := by
  induction fuel with
  | zero =>
    intro n hcard hn
    have hpos := (Set.ncard_pos (hfull.finite_below hn)).mpr ⟨n, Above.refl _ n⟩
    exact absurd hpos (Nat.not_lt.mpr hcard)
  | succ fuel ih =>
    intro n hcard hn
    rw [lastNode, hlinks]
    cases hnext : g.links.next n with
    | none => exact ⟨n, rfl, Above.refl _ n, hnext⟩
    | some m =>
      have hprev := (hfull.linked.next_iff n m).mp hnext
      have hsource := hfull.linked.source_eq_some.mpr (Or.inl hprev)
      obtain ⟨last, hlast, hlater, hnone⟩ :=
        ih m (Nat.le_of_lt_succ ((hfull.ncard_below_lt hsource).trans_le hcard))
          (isSome_of_source hfull.linked hsource).1
      exact ⟨last, hlast, (Above.single hprev).trans hlater, hnone⟩

/-- A branch and all branches that are copied from it are classified, with as much fuel as they have
nodes. -/
theorem backwardFrom_spec (hfull : ConsistentFullGraph g)
    (hderived : ∀ z, (g.nodes z).isSome → g.classification z &&& derivedMask = 0) (fuel : ℕ) :
    ∀ x, (below g x).ncard ≤ fuel → (g.nodes x).isSome → g.links.prev x = none →
      Classifies g (backwardFrom fuel) x := by
  induction fuel with
  | zero =>
    intro x hcard hx
    have hpos := (Set.ncard_pos (hfull.finite_below hx)).mpr ⟨x, Above.refl _ x⟩
    exact absurd hpos (Nat.not_lt.mpr hcard)
  | succ fuel ih =>
    intro x hcard hx hprev nodes D h hfresh
    have hback : ∀ z, Later g x z → ∀ c ∈ g.links.copyTargets z,
        Classifies g (backwardFrom fuel) c := by
      intro z hz c hc
      have hcopy := (hfull.linked.target_iff z c).mp hc
      have hsource := hfull.linked.source_eq_some.mpr (Or.inr hcopy)
      have hle : (below g z).ncard ≤ (below g x).ncard :=
        Set.ncard_le_ncard (fun q hq => (above_of_later hfull hz).trans hq) (hfull.finite_below hx)
      have hlt : (below g c).ncard < (below g z).ncard := hfull.ncard_below_lt hsource
      apply ih c (by omega) (isSome_of_source hfull.linked hsource).1
      refine (hfull.linked.one c).resolve_right fun hnone => ?_
      rw [hnone] at hcopy
      exact nomatch hcopy
    obtain ⟨last, hlast, hlater, hnone⟩ := lastNode_spec hfull h.links (fuel + 1) x hcard hx
    have hempty : {z | ∃ m, g.links.next last = some m ∧ z ∈ below g m} = ∅ := by
      ext z
      simp [hnone]
    -- nothing is behind the end of the branch
    have hbehind : Behind g nodes last 0 := by
      constructor
      case is_iff =>
        intro y
        simp [is_zero (single_IS y), hnone]
      case derived =>
        intro v hv
        simp [is_zero hv.single, hnone]
    have hpos : 0 < (below g last).ncard := by
      have hlastSome := hfull.isSome_of_above hx (above_of_later hfull hlater)
      exact (Set.ncard_pos (hfull.finite_below hlastSome)).mpr ⟨last, Above.refl _ last⟩
    obtain ⟨nodes', b, hloop, h', hframe, hsums⟩ :=
      classifyLoop_spec hfull hderived hx hprev hback hfresh (fuel + 1) last nodes 0 hlater
        (by omega) (by rwa [hempty, Set.union_empty]) hbehind
    refine ⟨nodes', b, ?_, h', hframe, hsums⟩
    rw [backwardFrom, hlast]
    exact hloop

/-! ### Along a branch -/

/-- A property that a node has from itself or from the next node, as long as a condition holds. -/
theorem until_iff (hfull : ConsistentFullGraph g) {A B C : ℕ → Prop}
    (h : ∀ n, (g.nodes n).isSome →
      (A n ↔ C n ∧ ((∃ m, g.links.next n = some m ∧ A m) ∨ B n)))
    (n : ℕ) (hn : (g.nodes n).isSome) :
    A n ↔ ∃ m, Later g n m ∧ B m ∧ ∀ i, Later g n i → Later g i m → C i := by
  have hlinked := hfull.linked
  have hsource : ∀ n m, g.links.next n = some m → g.links.source m = some n :=
    fun n m hm => hlinked.source_eq_some.mpr (Or.inl ((hlinked.next_iff n m).mp hm))
  induction hcard : (below g n).ncard using Nat.strong_induction_on generalizing n with
  | h card ih =>
    have hrest : ∀ m, g.links.next n = some m →
        (A m ↔ ∃ k, Later g m k ∧ B k ∧ ∀ i, Later g m i → Later g i k → C i) := by
      intro m hm
      have hlt : (below g m).ncard < card := hcard ▸ hfull.ncard_below_lt (hsource n m hm)
      exact ih _ hlt m (isSome_of_source hlinked (hsource n m hm)).1 rfl
    rw [h n hn]
    constructor
    · rintro ⟨hC, ⟨m, hm, hA⟩ | hB⟩
      · obtain ⟨k, hk, hB, hbetween⟩ := (hrest m hm).mp hA
        refine ⟨k, (later_iff hlinked).mpr (Or.inr ⟨m, hm, hk⟩), hB, fun i hi hik => ?_⟩
        rcases (later_iff hlinked).mp hi with rfl | ⟨m', hm', hi⟩
        · exact hC
        · obtain rfl := Option.some.inj (hm.symm.trans hm')
          exact hbetween i hi hik
      · refine ⟨n, Above.refl _ n, hB, fun i hi hin => ?_⟩
        rcases (later_iff hlinked).mp hi with rfl | ⟨m, hm, hi⟩
        · exact hC
        · -- no node is behind itself
          have hcycle : Later g m n := hi.trans hin
          exact absurd (above_of_later hfull hcycle) (hfull.not_above (hsource n m hm))
    · rintro ⟨m, hm, hB, hbetween⟩
      refine ⟨hbetween n (Above.refl _ n) hm, ?_⟩
      rcases (later_iff hlinked).mp hm with rfl | ⟨next, hnext, hm⟩
      · exact Or.inr hB
      · refine Or.inl ⟨next, hnext, (hrest next hnext).mpr ⟨m, hm, hB, fun i hi him => ?_⟩⟩
        exact hbetween i ((later_iff hlinked).mpr (Or.inr ⟨next, hnext, hi⟩)) him

/-- A property that a node has from itself or from the next node. -/
theorem somewhere_iff (hfull : ConsistentFullGraph g) {A B : ℕ → Prop}
    (h : ∀ n, (g.nodes n).isSome → (A n ↔ (∃ m, g.links.next n = some m ∧ A m) ∨ B n))
    (n : ℕ) (hn : (g.nodes n).isSome) : A n ↔ ∃ m, Later g n m ∧ B m := by
  have huntil := until_iff hfull (C := fun _ => True)
    (fun n hn => (h n hn).trans (and_iff_right trivial).symm) n hn
  simpa using huntil

/-- The graph with the derived flags. -/
structure Propagated (g g' : CFullGraph) : Prop where
  links : g'.links = g.links
  root : g'.root = g.root
  isSome : ∀ n, (g'.nodes n).isSome = (g.nodes n).isSome
  pathOnly : ∀ n, (g.nodes n).isSome → ∀ x, (g'.classification n).is (PATH_ONLY x) = true ↔
    ∃ m, Later g n m ∧ (g.classification m).is (IS x.toClass) = true
  copiesTo : ∀ n, (g.nodes n).isSome → ∀ y, (g'.classification n).is (COPIES_TO y) = true ↔
    ∃ m, Later g n m ∧ ∃ c ∈ g.links.copyTargets m,
      ∃ k, Later g c k ∧ (g.classification k).is (IS y) = true
  allCopies : ∀ n, (g.nodes n).isSome → ∀ x, (g'.classification n).is (ALL_COPIES x) = true ↔
    ∃ m, Later g n m ∧ (g.classification m).is (IS x.toClass) = true ∧
      ∀ i, Later g n i → Later g i m → ∀ c ∈ g.links.copyTargets i,
        (g'.classification c).is (ALL_COPIES x) = true
  unchanged : ∀ n, g'.classification n &&& ~~~derivedMask = g.classification n &&& ~~~derivedMask

/-- **For every consistent graph without derived flags, a node gets the operations of its branch from
itself on, the classes of the branches that are copied from there, and the operations that come before
all copies that do not have them. No other flag changes.** -/
theorem backwardClassification_spec (hfull : ConsistentFullGraph g)
    (hderived : ∀ n, (g.nodes n).isSome → g.classification n &&& derivedMask = 0) {r : ℕ}
    (hr : g.root = some r) :
    ∃ g' b, BackwardClassification g r = some (g', b) ∧ Propagated g g' := by
  obtain ⟨r', hr', hsome, hroot, habove⟩ := hfull.exists_root
  obtain rfl := Option.some.inj (hr.symm.trans hr')
  have hcard : (below g r).ncard ≤ g.nodeCount := by
    obtain ⟨nodes, hmem, hcard⟩ := hfull.counted
    rw [← hcard, ← Set.ncard_coe_finset]
    exact Set.ncard_le_ncard (fun y hy => (hmem y).mpr (hfull.isSome_of_above hsome hy))
      nodes.finite_toSet
  have hstart : Classified g g.nodes ∅ :=
    ⟨rfl, fun _ => rfl, nofun, fun _ _ => rfl, nofun⟩
  obtain ⟨nodes', b, hrun, h, -, -⟩ := backwardFrom_spec hfull hderived g.nodeCount r hcard hsome
    (NodeLinks.source_eq_none.mp hroot).1 g.nodes ∅ hstart fun z _ => Set.notMem_empty z
  have hlocal : ∀ n, (g.nodes n).isSome → Local g nodes' n :=
    fun n hn => h.done n (Or.inr (habove n hn))
  refine ⟨{ g with nodes := nodes' }, b, ?_, ?_⟩
  · rw [BackwardClassification, hrun]
    rfl
  · constructor
    case links => exact h.links
    case root => rfl
    case isSome => exact h.isSome
    case pathOnly =>
      intro n hn x
      exact somewhere_iff hfull (fun n hn => (hlocal n hn).pathOnly x) n hn
    case copiesTo =>
      intro n hn y
      exact somewhere_iff hfull (fun n hn => (hlocal n hn).copiesTo y) n hn
    case allCopies =>
      intro n hn x
      exact until_iff hfull (fun n hn => (hlocal n hn).allCopies x) n hn
    case unchanged =>
      intro n
      by_cases hn : (g.nodes n).isSome
      · exact (hlocal n hn).unchanged
      · have hout : n ∉ ∅ ∪ below g r := by
          rintro (hmem | hmem)
          · exact hmem
          · exact hn (hfull.isSome_of_above hsome hmem)
        exact congrArg (· &&& ~~~derivedMask) (classificationOf_congr (h.same n hout))

/-- A root, the node behind it and a copy. -/
theorem backwardClassification_spec_three :
    ∃ g' b, BackwardClassification threeNodes 0 = some (g', b) ∧ Propagated threeNodes g' := by
  apply backwardClassification_spec consistent_threeNodes
  · rintro (_ | _ | _ | n) hn
    · rfl
    · rfl
    · rfl
    · exact absurd hn Bool.false_ne_true
  · rfl

end CFullGraphFinalizer

end TortoiseSvn.RevisionGraph
