import TortoiseSvn.RevisionGraph.GraphSurgery
import TortoiseSvn.RevisionGraph.VisibleGraphBuilder

/-!
# The nodes of the filtered copy

What the copy of a full graph has to be: one visible node for each node that is kept and not cut off,
linked to the copy of the nearest kept node in front of it on its branch, or to the copy of the
branch's copy source.

`CopyOf` is the invariant of the copy loop. It says what the visible graph is after the nodes of a set
were copied.

Main result: `run_filteredCopy`.
-/

namespace TortoiseSvn.RevisionGraph

open TortoiseSvn.Lib CNodeClassification

namespace CVisibleGraphBuilder

/-! ### What the copy has to be -/

/-- A tree whose nodes are counted. The branch starts other than the root, and no other nodes, are
classified as copy targets. -/
structure ConsistentFullGraph (fullGraph : CFullGraph) : Prop where
  tree : CFullGraph.Tree fullGraph
  root : fullGraph.root ≠ none
  counted : ∃ s : Finset ℕ, (∀ n, n ∈ s ↔ (fullGraph.nodes n).isSome) ∧ s.card = fullGraph.nodeCount
  classified : ∀ n, (fullGraph.nodes n).isSome →
    ((fullGraph.classification n).is IS_COPY_TARGET = true ↔
      fullGraph.links.prev n = none ∧ fullGraph.root ≠ some n)

section Specification

variable (fullGraph : CFullGraph) (copyFilter : ℕ → EResult)

/-- A node that is kept or preserved. -/
def Kept (b : ℕ) : Prop := copyFilter b = .KEEP_NODE ∨ copyFilter b = .PRESERVE_NODE

/-- A node on the way up, on its branch, on the branch of its copy source and so on, or the node
itself, is removed with its sub-tree. -/
def CutOff (b : ℕ) : Prop :=
  ∃ a, Above fullGraph.links.source a b ∧ copyFilter a = .REMOVE_SUBTREE

/-- A node that has a copy. -/
def Copied (b : ℕ) : Prop :=
  (fullGraph.nodes b).isSome ∧ Kept copyFilter b ∧ ¬ CutOff fullGraph copyFilter b

/-- `a` stands in front of `b` on the same branch. -/
def Earlier (a b : ℕ) : Prop := Relation.TransGen (fun x y => fullGraph.links.prev y = some x) a b

/-- The nearest kept node in front of `b`. -/
def NearestKept (s b : ℕ) : Prop :=
  Earlier fullGraph s b ∧ Kept copyFilter s ∧
    ∀ a, Earlier fullGraph s a → Earlier fullGraph a b → ¬ Kept copyFilter a

/-- The node that begins the branch of `b`. -/
def BranchStart (start b : ℕ) : Prop :=
  (start = b ∨ Earlier fullGraph start b) ∧ fullGraph.links.prev start = none

/-- The node whose copy has to be the source of the copy of `b`. -/
def ExpectedSource (s b : ℕ) : Prop :=
  NearestKept fullGraph copyFilter s b ∨
    (∀ a, Earlier fullGraph a b → ¬ Kept copyFilter a) ∧
      ∃ start, BranchStart fullGraph start b ∧ Kept copyFilter start ∧
        fullGraph.links.copySource start = some s ∧ Kept copyFilter s

/-- What the visible graph has to be. -/
structure FilteredCopy (v : CVisibleGraph) : Prop where
  consistent : v.Consistent
  base : ∀ n, (v.nodes n).isSome → Copied fullGraph copyFilter (v.base n)
  once : ∀ b, Copied fullGraph copyFilter b → ∃! n, (v.nodes n).isSome ∧ v.base n = b
  source : ∀ n, (v.nodes n).isSome → ∀ m, v.links.source n = some m ↔
    (v.nodes m).isSome ∧ ExpectedSource fullGraph copyFilter (v.base m) (v.base n)
  root : ∀ n, (v.nodes n).isSome →
    (n ∈ v.roots ↔ ∀ s, ¬ ExpectedSource fullGraph copyFilter s (v.base n))

end Specification

variable {fullGraph : CFullGraph} {copyFilter : ℕ → EResult} {pool : CVisibleGraph.NodePool}

/-! ### Nodes of the full graph -/

section FullGraph

variable (hfull : ConsistentFullGraph fullGraph)

include hfull

theorem ConsistentFullGraph.linked : fullGraph.links.Linked := hfull.tree.linked

theorem ConsistentFullGraph.exists_root : ∃ r, fullGraph.root = some r ∧
    (fullGraph.nodes r).isSome ∧ fullGraph.links.source r = none ∧
      ∀ n, (fullGraph.nodes n).isSome → Above fullGraph.links.source r n := by
  obtain ⟨r, hr⟩ := Option.ne_none_iff_exists'.mp hfull.root
  exact ⟨r, hr, hfull.tree.root r hr⟩

theorem ConsistentFullGraph.not_above {x y : ℕ} (hy : fullGraph.links.source y = some x) :
    ¬ Above fullGraph.links.source y x := by
  obtain ⟨r, -, -, hr, habove⟩ := hfull.exists_root
  exact not_above_parent hr (habove x (isSome_of_source hfull.linked hy).2) hy

theorem ConsistentFullGraph.isSome_of_above {x y : ℕ} (hx : (fullGraph.nodes x).isSome)
    (h : Above fullGraph.links.source x y) : (fullGraph.nodes y).isSome := by
  rcases h.cases_tail with rfl | ⟨z, -, hz⟩
  · exact hx
  · exact (isSome_of_source hfull.linked hz).1

theorem ConsistentFullGraph.finite_below {x : ℕ} (hx : (fullGraph.nodes x).isSome) :
    {y | Above fullGraph.links.source x y}.Finite := by
  obtain ⟨nodes, hnodes, -⟩ := hfull.counted
  exact nodes.finite_toSet.subset fun y hy => (hnodes y).mpr (hfull.isSome_of_above hx hy)

/-- Fewer nodes are below a child. -/
theorem ConsistentFullGraph.ncard_below_lt {x y : ℕ} (hy : fullGraph.links.source y = some x) :
    {z | Above fullGraph.links.source y z}.ncard < {z | Above fullGraph.links.source x z}.ncard := by
  apply Set.ncard_lt_ncard _ (hfull.finite_below (isSome_of_source hfull.linked hy).2)
  exact ⟨fun z hz => (Above.single hy).trans hz,
    fun hall => hfull.not_above hy (hall (Above.refl _ x))⟩

/-- Nothing is below two children of one node. -/
theorem ConsistentFullGraph.apart {x c c' b : ℕ} (hc : fullGraph.links.source c = some x)
    (hc' : fullGraph.links.source c' = some x) (hne : c ≠ c')
    (hb : Above fullGraph.links.source c b) : ¬ Above fullGraph.links.source c' b := by
  intro hb'
  rcases hb.total hb' with habove | habove
  · rcases habove.cases_tail with heq | ⟨z, hz, hparent⟩
    · exact hne heq
    · obtain rfl := Option.some.inj (hc'.symm.trans hparent)
      exact hfull.not_above hc hz
  · rcases habove.cases_tail with heq | ⟨z, hz, hparent⟩
    · exact hne heq.symm
    · obtain rfl := Option.some.inj (hc.symm.trans hparent)
      exact hfull.not_above hc' hz

/-- A copy target has a copy source and no node in front of it. -/
theorem ConsistentFullGraph.isCopyTarget_iff {b : ℕ} (hb : (fullGraph.nodes b).isSome) :
    (fullGraph.classification b).is IS_COPY_TARGET = true ↔
      fullGraph.links.copySource b ≠ none := by
  obtain ⟨r, hr, -, hnone, habove⟩ := hfull.exists_root
  rw [hfull.classified b hb, hr]
  constructor
  · rintro ⟨hprev, hne⟩ hcopy
    have heq := (habove b hb).eq_of_root (NodeLinks.source_eq_none.mpr ⟨hprev, hcopy⟩)
    exact hne (congrArg some heq)
  · intro hcopy
    refine ⟨(hfull.linked.one b).resolve_right hcopy, fun heq => hcopy ?_⟩
    rw [← Option.some.inj heq]
    exact (NodeLinks.source_eq_none.mp hnone).2

/-! ### Branches -/

theorem ConsistentFullGraph.above_of_earlier {a b : ℕ} (h : Earlier fullGraph a b) :
    Above fullGraph.links.source a b := by
  have hstep : ∀ x y, fullGraph.links.prev y = some x → fullGraph.links.source y = some x :=
    fun x y hy => hfull.linked.source_eq_some.mpr (Or.inl hy)
  exact Relation.ReflTransGen.mono hstep _ _ h.to_reflTransGen

theorem ConsistentFullGraph.not_earlier_self (b : ℕ) : ¬ Earlier fullGraph b b := by
  intro h
  obtain ⟨x, hx, hprev⟩ := Relation.TransGen.tail'_iff.mp h
  have hsource := hfull.linked.source_eq_some.mpr (Or.inl hprev)
  refine hfull.not_above hsource ?_
  rcases Relation.reflTransGen_iff_eq_or_transGen.mp hx with rfl | hx
  · exact Above.refl _ x
  · exact hfull.above_of_earlier hx

end FullGraph

theorem earlier_iff {x y : ℕ} (hy : fullGraph.links.prev y = some x) (a : ℕ) :
    Earlier fullGraph a y ↔ a = x ∨ Earlier fullGraph a x := by
  constructor
  · intro h
    obtain ⟨z, hz, hprev⟩ := Relation.TransGen.tail'_iff.mp h
    obtain rfl := Option.some.inj (hy.symm.trans hprev)
    exact (Relation.reflTransGen_iff_eq_or_transGen.mp hz).imp_left Eq.symm
  · rintro (rfl | h)
    · exact Relation.TransGen.single hy
    · exact Relation.TransGen.tail h hy

theorem not_earlier {y : ℕ} (hy : fullGraph.links.prev y = none) (a : ℕ) :
    ¬ Earlier fullGraph a y := by
  intro h
  obtain ⟨z, -, hprev⟩ := Relation.TransGen.tail'_iff.mp h
  rw [hy] at hprev
  exact nomatch hprev

theorem not_nearestKept {y : ℕ} (hy : fullGraph.links.prev y = none) (s : ℕ) :
    ¬ NearestKept fullGraph copyFilter s y := fun h => not_earlier hy s h.1

/-- Behind a node that is removed, the nearest kept node is the same. -/
theorem nearestKept_of_removed {x y : ℕ} (hy : fullGraph.links.prev y = some x)
    (hx : ¬ Kept copyFilter x) (s : ℕ) :
    NearestKept fullGraph copyFilter s y ↔ NearestKept fullGraph copyFilter s x := by
  constructor
  · rintro ⟨hearlier, hkept, hbetween⟩
    have hne : s ≠ x := fun heq => hx (heq ▸ hkept)
    refine ⟨((earlier_iff hy s).mp hearlier).resolve_left hne, hkept, fun a ha hax => ?_⟩
    exact hbetween a ha ((earlier_iff hy a).mpr (Or.inr hax))
  · rintro ⟨hearlier, hkept, hbetween⟩
    refine ⟨(earlier_iff hy s).mpr (Or.inr hearlier), hkept, fun a ha hay => ?_⟩
    rcases (earlier_iff hy a).mp hay with rfl | hax
    · exact hx
    · exact hbetween a ha hax

section FullGraph

variable (hfull : ConsistentFullGraph fullGraph)

include hfull

/-- Behind a node that is kept, it is the nearest kept node. -/
theorem ConsistentFullGraph.nearestKept_of_kept {x y : ℕ} (hy : fullGraph.links.prev y = some x)
    (hx : Kept copyFilter x) (s : ℕ) : NearestKept fullGraph copyFilter s y ↔ s = x := by
  constructor
  · rintro ⟨hearlier, -, hbetween⟩
    refine ((earlier_iff hy s).mp hearlier).resolve_right fun hsx => ?_
    exact hbetween x hsx ((earlier_iff hy x).mpr (Or.inl rfl)) hx
  · rintro rfl
    refine ⟨(earlier_iff hy s).mpr (Or.inl rfl), hx, fun a ha hay => ?_⟩
    rcases (earlier_iff hy a).mp hay with rfl | has
    · exact absurd ha (hfull.not_earlier_self a)
    · exact absurd (ha.trans has) (hfull.not_earlier_self s)

/-- A kept node is the nearest one for a single kept node. -/
theorem ConsistentFullGraph.nearestKept_injective {s b b' : ℕ}
    (h : NearestKept fullGraph copyFilter s b) (h' : NearestKept fullGraph copyFilter s b')
    (hb : Kept copyFilter b) (hb' : Kept copyFilter b') : b = b' := by
  have hunique : Relator.RightUnique fun x y => fullGraph.links.prev y = some x := by
    intro x y z hy hz
    have hnext := (hfull.linked.next_iff x y).mpr hy
    exact Option.some.inj (hnext.symm.trans ((hfull.linked.next_iff x z).mpr hz))
  rcases Relation.ReflTransGen.total_of_right_unique hunique h.1.to_reflTransGen
    h'.1.to_reflTransGen with hle | hle
  · rcases Relation.reflTransGen_iff_eq_or_transGen.mp hle with heq | hlt
    · exact heq.symm
    · exact absurd hb (h'.2.2 b h.1 hlt)
  · rcases Relation.reflTransGen_iff_eq_or_transGen.mp hle with heq | hlt
    · exact heq
    · exact absurd hb' (h.2.2 b' h'.1 hlt)

/-- For a kept node, the branch start is of interest only if it is the node itself. -/
theorem ConsistentFullGraph.expectedSource_iff {s b : ℕ} (hb : Kept copyFilter b) :
    ExpectedSource fullGraph copyFilter s b ↔ NearestKept fullGraph copyFilter s b ∨
      fullGraph.links.copySource b = some s ∧ Kept copyFilter s := by
  refine or_congr_right ⟨?_, ?_⟩
  · rintro ⟨hnone, start, ⟨rfl | hstart, -⟩, hkept, hcopy, hs⟩
    · exact ⟨hcopy, hs⟩
    · exact absurd hkept (hnone start hstart)
  · rintro ⟨hcopy, hs⟩
    have hprev := (hfull.linked.one b).resolve_right (by rw [hcopy]; exact Option.some_ne_none s)
    exact ⟨fun a ha => absurd ha (not_earlier hprev a), b, ⟨Or.inl rfl, hprev⟩, hb, hcopy, hs⟩

end FullGraph

/-! ### The invariant -/

/-- The visible graph after the nodes of a set were copied. -/
structure CopyOf (fullGraph : CFullGraph) (copyFilter : ℕ → EResult) (v : CVisibleGraph)
    (D : Set ℕ) : Prop where
  consistent : v.Consistent
  kept : ∀ b ∈ D, Kept copyFilter b
  bases : ∀ b, b ∈ D ↔ ∃ n, (v.nodes n).isSome ∧ v.base n = b
  injective : ∀ n m, (v.nodes n).isSome → (v.nodes m).isSome → v.base n = v.base m → n = m
  prev : ∀ n, (v.nodes n).isSome → ∀ m, v.links.prev n = some m ↔
    (v.nodes m).isSome ∧ NearestKept fullGraph copyFilter (v.base m) (v.base n)
  copySource : ∀ n, (v.nodes n).isSome → ∀ m, v.links.copySource n = some m ↔
    (v.nodes m).isSome ∧ fullGraph.links.copySource (v.base n) = some (v.base m)

/-- The nodes of a graph are still there. -/
def Extends (v v' : CVisibleGraph) : Prop :=
  ∀ n, (v.nodes n).isSome → (v'.nodes n).isSome ∧ v'.base n = v.base n

theorem Extends.refl (v : CVisibleGraph) : Extends v v := fun _ hn => ⟨hn, rfl⟩

theorem Extends.trans {v v' v'' : CVisibleGraph} (h : Extends v v') (h' : Extends v' v'') :
    Extends v v'' := fun n hn =>
  ⟨(h' n (h n hn).1).1, (h' n (h n hn).1).2.trans (h n hn).2⟩

section Invariant

variable {v v' : CVisibleGraph} {D D' : Set ℕ}

theorem CopyOf.base_mem (h : CopyOf fullGraph copyFilter v D) {n : ℕ} (hn : (v.nodes n).isSome) :
    v.base n ∈ D := (h.bases _).mpr ⟨n, hn, rfl⟩

/-- The copy of a node that was there before is the same. -/
theorem CopyOf.visible_iff (h : CopyOf fullGraph copyFilter v D)
    (h' : CopyOf fullGraph copyFilter v' D') (hext : Extends v v') {P : ℕ → Prop}
    (hP : ∀ b ∈ D', P b → b ∈ D) (m : ℕ) :
    (v'.nodes m).isSome ∧ P (v'.base m) ↔ (v.nodes m).isSome ∧ P (v.base m) := by
  constructor
  · rintro ⟨hm, hb⟩
    obtain ⟨n, hn, hbase⟩ := (h.bases _).mp (hP _ (h'.base_mem hm) hb)
    obtain ⟨hn', hbase'⟩ := hext n hn
    obtain rfl := h'.injective n m hn' hm (hbase'.trans hbase)
    exact ⟨hn, hbase ▸ hb⟩
  · rintro ⟨hm, hb⟩
    obtain ⟨hm', hbase⟩ := hext m hm
    exact ⟨hm', hbase ▸ hb⟩

/-- Links by a relation of the bases, when a node is added. -/
theorem update_link {visible visible' : ℕ → Prop} {base : ℕ → ℕ} {link : ℕ → Option ℕ}
    {R : ℕ → ℕ → Prop} {node b : ℕ} {o : Option ℕ}
    (hlink : ∀ n, visible n → ∀ m, link n = some m ↔ visible m ∧ R (base m) (base n))
    (hvisible : ∀ q, visible' q ↔ q = node ∨ visible q) (hnode : ¬ visible node)
    (ho : ∀ m, o = some m ↔ visible m ∧ R (base m) b) (hself : ¬ R b b)
    (hnone : ∀ n, visible n → ¬ R b (base n)) (n : ℕ) (hn : visible' n) (m : ℕ) :
    Function.update link node o n = some m ↔
      visible' m ∧ R (Function.update base node b m) (Function.update base node b n) := by
  have hne : ∀ q, visible q → q ≠ node := fun q hq heq => hnode (heq ▸ hq)
  rw [hvisible m]
  by_cases hm : m = node
  · subst hm
    rw [Function.update_self, and_iff_right (Or.inl rfl)]
    by_cases hnm : n = m
    · subst hnm
      rw [Function.update_self, Function.update_self, ho]
      exact iff_of_false (fun hv => hnode hv.1) hself
    · have hn' := ((hvisible n).mp hn).resolve_left hnm
      rw [Function.update_of_ne hnm, Function.update_of_ne hnm, hlink n hn']
      exact iff_of_false (fun hv => hnode hv.1) (hnone n hn')
  · rw [Function.update_of_ne hm, or_iff_right hm]
    by_cases hnm : n = node
    · subst hnm
      rw [Function.update_self, Function.update_self]
      exact ho m
    · rw [Function.update_of_ne hnm, Function.update_of_ne hnm]
      exact hlink n (((hvisible n).mp hn).resolve_left hnm) m

/-- Copying one more node. -/
theorem CopyOf.add (hfull : ConsistentFullGraph fullGraph) (h : CopyOf fullGraph copyFilter v D)
    {b node : ℕ} {target : Option ℕ} {preserveNode : Bool} (hb : (fullGraph.nodes b).isSome)
    (hkept : Kept copyFilter b) (hfree : v.nodes node = none)
    (hfresh : ∀ d ∈ D, ¬ Above fullGraph.links.source b d)
    (htarget : ∀ m, target = some m ↔ (v.nodes m).isSome ∧
      (NearestKept fullGraph copyFilter (v.base m) b ∨
        fullGraph.links.copySource b = some (v.base m))) :
    CopyOf fullGraph copyFilter (v.add node b (fullGraph.classification b) target preserveNode)
        (insert b D) ∧
      Extends v (v.add node b (fullGraph.classification b) target preserveNode) := by
  have hkind := hfull.isCopyTarget_iff hb
  have hnew : b ∉ D := fun hmem => hfresh b hmem (Above.refl _ b)
  have hnode : ¬ (v.nodes node).isSome := by
    rw [hfree]
    exact Bool.false_ne_true
  have hne : ∀ q, (v.nodes q).isSome → q ≠ node := fun q hq heq => hnode (heq ▸ hq)
  -- the end of a chain
  have hend : ∀ s ∈ target, (v.nodes s).isSome ∧
      ((fullGraph.classification b).is IS_COPY_TARGET = true ∨ v.links.next s = none) := by
    intro s hs
    obtain ⟨hsome, hsource⟩ := (htarget s).mp hs
    refine ⟨hsome, or_iff_not_imp_left.mpr fun hnot => ?_⟩
    rw [hkind, not_ne_iff] at hnot
    rw [hnot] at hsource
    have hnearest := hsource.resolve_right nofun
    by_contra hnext
    obtain ⟨m, hm⟩ := Option.ne_none_iff_exists'.mp hnext
    have hprev := (h.consistent.linked.next_iff s m).mp hm
    have hsomeM : (v.nodes m).isSome := isSome_of_prev (by rw [hprev]; exact Option.some_ne_none s)
    have hmem := h.base_mem hsomeM
    have heq := hfull.nearestKept_injective hnearest ((h.prev m hsomeM s).mp hprev).2 hkept
      (h.kept _ hmem)
    exact hnew (heq ▸ hmem)
  have hadded := @CVisibleGraph.add_spec v node b (fullGraph.classification b) target preserveNode
    h.consistent hfree hend
  have hext : Extends v (v.add node b (fullGraph.classification b) target preserveNode) := by
    intro n hn
    refine ⟨(hadded.isSome n).mpr (Or.inr hn), ?_⟩
    rw [hadded.base, Function.update_of_ne (hne n hn)]
  refine ⟨⟨hadded.consistent, ?_, fun b' => ?_, fun n m hn hm heq => ?_, fun n hn m => ?_,
    fun n hn m => ?_⟩, hext⟩
  · rintro b' (rfl | hmem)
    · exact hkept
    · exact h.kept b' hmem
  · rw [Set.mem_insert_iff, h.bases]
    constructor
    · rintro (rfl | ⟨n, hn, rfl⟩)
      · exact ⟨node, (hadded.isSome node).mpr (Or.inl rfl), by
          rw [hadded.base, Function.update_self]⟩
      · exact ⟨n, hext n hn⟩
    · rintro ⟨n, hn, rfl⟩
      rcases (hadded.isSome n).mp hn with rfl | hn
      · rw [hadded.base, Function.update_self]
        exact Or.inl rfl
      · exact Or.inr ⟨n, hn, (hext n hn).2.symm⟩
  · rw [hadded.base] at heq
    rcases (hadded.isSome n).mp hn with rfl | hn' <;> rcases (hadded.isSome m).mp hm with rfl | hm'
    · rfl
    · rw [Function.update_self, Function.update_of_ne (hne m hm')] at heq
      exact absurd (heq ▸ h.base_mem hm') hnew
    · rw [Function.update_self, Function.update_of_ne (hne n hn')] at heq
      exact absurd (heq ▸ h.base_mem hn') hnew
    · rw [Function.update_of_ne (hne n hn'), Function.update_of_ne (hne m hm')] at heq
      exact h.injective n m hn' hm' heq
  · rw [hadded.prev, hadded.base]
    refine update_link h.prev hadded.isSome hnode (fun m => ?_)
      (fun hself => hfull.not_earlier_self b hself.1)
      (fun n hn hbefore => hfresh _ (h.base_mem hn) (hfull.above_of_earlier hbefore.1)) n hn m
    split
    · rename_i htrue
      have hprev := (hfull.linked.one b).resolve_right (hkind.mp htrue)
      exact iff_of_false nofun fun hm => not_nearestKept hprev _ hm.2
    · rename_i hfalse
      rw [hkind, not_ne_iff] at hfalse
      rw [htarget, hfalse]
      simp
  · rw [hadded.copySource, hadded.base]
    refine @update_link (fun n => (v.nodes n).isSome) _ v.base v.links.copySource
      (fun a b => fullGraph.links.copySource b = some a) node b _ h.copySource hadded.isSome hnode
      (fun m => ?_) (fun hself => ?_) (fun n hn hbefore => ?_) n hn m
    · split
      · rename_i htrue
        have hprev := (hfull.linked.one b).resolve_right (hkind.mp htrue)
        rw [htarget, or_iff_right (not_nearestKept hprev _)]
      · rename_i hfalse
        rw [hkind, not_ne_iff] at hfalse
        rw [hfalse]
        exact iff_of_false nofun fun hm => nomatch hm.2
    · have hsource := hfull.linked.source_eq_some.mpr (Or.inr hself)
      exact hfull.not_above hsource (Above.refl _ b)
    · have hsource := hfull.linked.source_eq_some.mpr (Or.inr hbefore)
      exact hfresh _ (h.base_mem hn) (Above.single hsource)

end Invariant

/-! ### The copy loop -/

section Copy

variable (hfull : ConsistentFullGraph fullGraph) {v : CVisibleGraph} {D : Set ℕ} {x : ℕ}
  {target : Option ℕ} {firstNode : Bool}

/-- The copied nodes below `x`. -/
def newNodes (fullGraph : CFullGraph) (copyFilter : ℕ → EResult) (x : ℕ) : Set ℕ :=
  {b | Above fullGraph.links.source x b ∧ Kept copyFilter b ∧ ¬ CutOff fullGraph copyFilter b}

/-- The copied nodes below one of several nodes. -/
def newNodesOf (fullGraph : CFullGraph) (copyFilter : ℕ → EResult) (cs : List ℕ) : Set ℕ :=
  {b | ∃ c ∈ cs, b ∈ newNodes fullGraph copyFilter c}

theorem newNodesOf_nil : newNodesOf fullGraph copyFilter [] = ∅ := by
  ext b
  simp [newNodesOf]

theorem newNodesOf_cons (c : ℕ) (cs : List ℕ) : newNodesOf fullGraph copyFilter (c :: cs) =
    newNodes fullGraph copyFilter c ∪ newNodesOf fullGraph copyFilter cs := by
  ext b
  simp [newNodesOf]

/-- What the copy loop may rely on when it comes to the node `x`. -/
structure Ready (fullGraph : CFullGraph) (copyFilter : ℕ → EResult) (v : CVisibleGraph)
    (D : Set ℕ) (x : ℕ) (target : Option ℕ) (firstNode : Bool) : Prop where
  copy : CopyOf fullGraph copyFilter v D
  isSome : (fullGraph.nodes x).isSome
  fresh : ∀ d ∈ D, ¬ Above fullGraph.links.source x d
  notCut : ∀ a, Above fullGraph.links.source a x → a ≠ x → copyFilter a ≠ .REMOVE_SUBTREE
  target : ∀ m, target = some m ↔ (v.nodes m).isSome ∧
    (NearestKept fullGraph copyFilter (v.base m) x ∨
      fullGraph.links.copySource x = some (v.base m))
  first : firstNode = true ↔ ∀ s, ¬ NearestKept fullGraph copyFilter s x

/-- A loop that copies what is below `x` leaves a copy of it. -/
def Copies (fullGraph : CFullGraph) (copyFilter : ℕ → EResult)
    (copy : CVisibleGraph → ℕ → Option ℕ → Bool → Option CVisibleGraph) (x : ℕ) : Prop :=
  ∀ v D target firstNode, Ready fullGraph copyFilter v D x target firstNode →
    ∃ v', copy v x target firstNode = some v' ∧
      CopyOf fullGraph copyFilter v' (D ∪ newNodes fullGraph copyFilter x) ∧ Extends v v'

include hfull

/-- The copies of `x` are copied one after the other. -/
theorem copyBranches_spec {copy : CVisibleGraph → ℕ → Option ℕ → Bool → Option CVisibleGraph}
    {cs : List ℕ} (hcs : ∀ c ∈ cs, fullGraph.links.copySource c = some x) (hnodup : cs.Nodup)
    (hcopies : ∀ c ∈ cs, Copies fullGraph copyFilter copy c)
    (hcopy : CopyOf fullGraph copyFilter v D)
    (hfresh : ∀ c ∈ cs, ∀ d ∈ D, ¬ Above fullGraph.links.source c d)
    (hcut : ∀ a, Above fullGraph.links.source a x → copyFilter a ≠ .REMOVE_SUBTREE)
    (htarget : ∀ m, target = some m ↔ (v.nodes m).isSome ∧ v.base m = x) :
    ∃ v', cs.foldlM (fun v c => copy v c target true) v = some v' ∧
      CopyOf fullGraph copyFilter v' (D ∪ newNodesOf fullGraph copyFilter cs) ∧ Extends v v' := by
  induction cs generalizing v D with
  | nil =>
    refine ⟨v, rfl, ?_, Extends.refl v⟩
    rw [newNodesOf_nil, Set.union_empty]
    exact hcopy
  | cons c cs ih =>
    obtain ⟨hc, hnodup⟩ := List.nodup_cons.mp hnodup
    have hcopyC := hcs c List.mem_cons_self
    have hsourceC := hfull.linked.source_eq_some.mpr (Or.inr hcopyC)
    have hprevC := (hfull.linked.one c).resolve_right (by rw [hcopyC]; exact Option.some_ne_none x)
    have hready : Ready fullGraph copyFilter v D c target true := by
      refine ⟨hcopy, (isSome_of_source hfull.linked hsourceC).1, hfresh c List.mem_cons_self,
        fun a ha hne => ?_, fun m => ?_, iff_of_true rfl (not_nearestKept hprevC)⟩
      · obtain ⟨z, hz, hparent⟩ := ha.cases_tail.resolve_left hne
        obtain rfl := Option.some.inj (hsourceC.symm.trans hparent)
        exact hcut a hz
      · rw [htarget, or_iff_right (not_nearestKept hprevC _), hcopyC, Option.some_inj,
          @eq_comm ℕ x]
    obtain ⟨v₁, hv₁, hcopy₁, hext₁⟩ := hcopies c List.mem_cons_self v D target true hready
    obtain ⟨v₂, hv₂, hcopy₂, hext₂⟩ := @ih v₁ (D ∪ newNodes fullGraph copyFilter c)
      (fun c' hc' => hcs c' (List.mem_cons_of_mem c hc')) hnodup
      (fun c' hc' => hcopies c' (List.mem_cons_of_mem c hc')) hcopy₁
      (by
        rintro c' hc' d (hd | hd)
        · exact hfresh c' (List.mem_cons_of_mem c hc') d hd
        · have hsource' := hfull.linked.source_eq_some.mpr
            (Or.inr (hcs c' (List.mem_cons_of_mem c hc')))
          exact hfull.apart hsourceC hsource' (fun heq => hc (heq ▸ hc')) hd.1)
      (fun m => by
        rw [htarget]
        refine (hcopy.visible_iff hcopy₁ hext₁ (P := fun b => b = x) ?_ m).symm
        -- nothing below the copy is `x`
        rintro b (hb | hb) rfl
        · exact hb
        · exact absurd hb.1 (hfull.not_above hsourceC))
    refine ⟨v₂, by rw [List.foldlM_cons, hv₁]; exact hv₂, ?_, hext₁.trans hext₂⟩
    rw [newNodesOf_cons, ← Set.union_assoc]
    exact hcopy₂

/-- The new nodes below `x` are those below its children, and perhaps `x` itself. -/
theorem newNodes_eq (hcut : ∀ a, Above fullGraph.links.source a x → copyFilter a ≠ .REMOVE_SUBTREE) :
    newNodes fullGraph copyFilter x =
      {b | b = x ∧ Kept copyFilter b} ∪ newNodesOf fullGraph copyFilter (fullGraph.links.branches x) := by
  ext b
  constructor
  · rintro ⟨habove, hkept, hnot⟩
    rcases Relation.ReflTransGen.cases_head habove with rfl | ⟨c, hc, hb⟩
    · exact Or.inl ⟨rfl, hkept⟩
    · exact Or.inr ⟨c, (hfull.linked.mem_branches x c).mpr hc, hb, hkept, hnot⟩
  · rintro (⟨rfl, hkept⟩ | ⟨c, hc, hb, hkept, hnot⟩)
    · exact ⟨Above.refl _ b, hkept, fun ⟨a, ha, hremoved⟩ => hcut a ha hremoved⟩
    · exact ⟨(Above.single ((hfull.linked.mem_branches x c).mp hc)).trans hb, hkept, hnot⟩

/-- What the loop does after it has dealt with the node `x` itself: its copies, then the next node. -/
theorem copyRest_spec {copy : CVisibleGraph → ℕ → Option ℕ → Bool → Option CVisibleGraph}
    {nextTarget : Option ℕ} {nextFirst : Bool}
    (hcopies : ∀ c ∈ fullGraph.links.branches x, Copies fullGraph copyFilter copy c)
    (hcopy : CopyOf fullGraph copyFilter v D)
    (hfresh : ∀ c ∈ fullGraph.links.branches x, ∀ d ∈ D, ¬ Above fullGraph.links.source c d)
    (hcut : ∀ a, Above fullGraph.links.source a x → copyFilter a ≠ .REMOVE_SUBTREE)
    (htarget : ∀ m, target = some m ↔ (v.nodes m).isSome ∧ v.base m = x)
    (hnext : ∀ y, fullGraph.links.prev y = some x →
      (∀ m, nextTarget = some m ↔
        (v.nodes m).isSome ∧ NearestKept fullGraph copyFilter (v.base m) y) ∧
      (nextFirst = true ↔ ∀ s, ¬ NearestKept fullGraph copyFilter s y)) :
    ∃ v', (do
        let v ← copyBranches fullGraph (fun v c => copy v c target true) v x
        match fullGraph.links.next x with
        | none => some v
        | some next => copy v next nextTarget nextFirst) = some v' ∧
      CopyOf fullGraph copyFilter v'
        (D ∪ newNodesOf fullGraph copyFilter (fullGraph.links.branches x)) ∧ Extends v v' := by
  have hmem : ∀ c ∈ fullGraph.links.copyTargets x, c ∈ fullGraph.links.branches x :=
    fun c hc => List.mem_append_right _ hc
  obtain ⟨v₁, hv₁, hcopy₁, hext₁⟩ := copyBranches_spec hfull
    (fun c hc => (hfull.linked.target_iff x c).mp hc) (hfull.linked.nodup x)
    (fun c hc => hcopies c (hmem c hc)) hcopy (fun c hc => hfresh c (hmem c hc)) hcut htarget
  rw [copyBranches, hv₁, Option.bind_eq_bind, Option.bind_some]
  rcases hy : fullGraph.links.next x with _ | y
  · refine ⟨v₁, rfl, ?_, hext₁⟩
    rw [NodeLinks.branches, hy]
    exact hcopy₁
  · have hprev := (hfull.linked.next_iff x y).mp hy
    have hsource := hfull.linked.source_eq_some.mpr (Or.inl hprev)
    have hcopyNone := (hfull.linked.one y).resolve_left (by rw [hprev]; exact Option.some_ne_none x)
    have hbranch : y ∈ fullGraph.links.branches x := (hfull.linked.mem_branches x y).mpr hsource
    obtain ⟨hnextTarget, hnextFirst⟩ := hnext y hprev
    have hready : Ready fullGraph copyFilter v₁
        (D ∪ newNodesOf fullGraph copyFilter (fullGraph.links.copyTargets x)) y nextTarget
        nextFirst := by
      refine ⟨hcopy₁, (isSome_of_source hfull.linked hsource).1, ?_, fun a ha hne => ?_, fun m => ?_,
        hnextFirst⟩
      · rintro d (hd | ⟨c, hc, hd⟩)
        · exact hfresh y hbranch d hd
        · have hcopyC := (hfull.linked.target_iff x c).mp hc
          have hsourceC := hfull.linked.source_eq_some.mpr (Or.inr hcopyC)
          have hne : c ≠ y := by
            rintro rfl
            rw [hcopyNone] at hcopyC
            cases hcopyC
          exact hfull.apart hsourceC hsource hne hd.1
      · obtain ⟨z, hz, hparent⟩ := ha.cases_tail.resolve_left hne
        obtain rfl := Option.some.inj (hsource.symm.trans hparent)
        exact hcut a hz
      · rw [hnextTarget, hcopyNone]
        simp only [reduceCtorEq, or_false]
        refine (hcopy.visible_iff hcopy₁ hext₁
          (P := fun s => NearestKept fullGraph copyFilter s y) ?_ m).symm
        -- the nearest kept node is not below a copy of `x`
        rintro s (hs | ⟨c, hc, hs⟩) hnearest
        · exact hs
        · have hsourceC := hfull.linked.source_eq_some.mpr
            (Or.inr ((hfull.linked.target_iff x c).mp hc))
          have hsx : Above fullGraph.links.source s x := by
            rcases (earlier_iff hprev s).mp hnearest.1 with rfl | hearlier
            · exact Above.refl _ s
            · exact hfull.above_of_earlier hearlier
          exact absurd (hs.1.trans hsx) (hfull.not_above hsourceC)
    obtain ⟨v₂, hv₂, hcopy₂, hext₂⟩ := hcopies y hbranch v₁ _ nextTarget nextFirst hready
    refine ⟨v₂, hv₂, ?_, hext₁.trans hext₂⟩
    rw [NodeLinks.branches, hy]
    show CopyOf fullGraph copyFilter v₂ (D ∪ newNodesOf fullGraph copyFilter (y :: _))
    rw [newNodesOf_cons, Set.union_comm (newNodes _ _ y), ← Set.union_assoc]
    exact hcopy₂

/-- A node that is kept gets a copy, to which its own copies and the next node are linked. -/
theorem copyKept_spec {copy : CVisibleGraph → ℕ → Option ℕ → Bool → Option CVisibleGraph}
    (hcopies : ∀ c ∈ fullGraph.links.branches x, Copies fullGraph copyFilter copy c)
    (hready : Ready fullGraph copyFilter v D x target firstNode) (hkept : Kept copyFilter x)
    (hcut : ∀ a, Above fullGraph.links.source a x → copyFilter a ≠ .REMOVE_SUBTREE)
    {node : ℕ} (hfree : v.nodes node = none) (preserveNode : Bool) :
    ∃ v', (do
        let v ← copyBranches fullGraph (fun v c => copy v c (some node) true)
          (v.add node x (fullGraph.classification x) target preserveNode) x
        match fullGraph.links.next x with
        | none => some v
        | some next => copy v next (some node) false) = some v' ∧
      CopyOf fullGraph copyFilter v' (D ∪ newNodes fullGraph copyFilter x) ∧ Extends v v' := by
  obtain ⟨hcopy, hext⟩ : CopyOf fullGraph copyFilter
      (v.add node x (fullGraph.classification x) target preserveNode) (insert x D) ∧
        Extends v (v.add node x (fullGraph.classification x) target preserveNode) :=
    hready.copy.add hfull hready.isSome hkept hfree hready.fresh hready.target
  have hsome := (@CVisibleGraph.add_isSome v node x (fullGraph.classification x) target preserveNode
    node).mpr (Or.inl rfl)
  have hbase : (v.add node x (fullGraph.classification x) target preserveNode).base node = x := by
    rw [CVisibleGraph.base_add, Function.update_self]
  have hnode : ∀ m, some node = some m ↔
      ((v.add node x (fullGraph.classification x) target preserveNode).nodes m).isSome ∧
        (v.add node x (fullGraph.classification x) target preserveNode).base m = x := by
    intro m
    constructor
    · intro heq
      obtain rfl := Option.some.inj heq
      exact ⟨hsome, hbase⟩
    · rintro ⟨hm, hx⟩
      exact congrArg some (hcopy.injective node m hsome hm (hbase.trans hx.symm))
  have hfresh : ∀ c ∈ fullGraph.links.branches x, ∀ d ∈ insert x D,
      ¬ Above fullGraph.links.source c d := by
    intro c hc
    have hsource := (hfull.linked.mem_branches x c).mp hc
    rintro d (rfl | hd)
    · exact hfull.not_above hsource
    · exact fun habove => hready.fresh d hd ((Above.single hsource).trans habove)
  have hnext : ∀ y, fullGraph.links.prev y = some x → (∀ m, some node = some m ↔
      ((v.add node x (fullGraph.classification x) target preserveNode).nodes m).isSome ∧
        NearestKept fullGraph copyFilter
          ((v.add node x (fullGraph.classification x) target preserveNode).base m) y) ∧
      (false = true ↔ ∀ s, ¬ NearestKept fullGraph copyFilter s y) := by
    intro y hy
    refine ⟨fun m => ?_, ?_⟩
    · rw [hnode, hfull.nearestKept_of_kept hy hkept]
    · refine iff_of_false Bool.false_ne_true fun hnone => hnone x ?_
      exact (hfull.nearestKept_of_kept hy hkept x).mpr rfl
  obtain ⟨v', hv', hcopy', hext'⟩ := copyRest_spec hfull hcopies hcopy hfresh hcut hnode hnext
  refine ⟨v', hv', ?_, hext.trans hext'⟩
  have hset : {b | b = x ∧ Kept copyFilter b} = ({x} : Set ℕ) := by
    ext b
    exact and_iff_left_of_imp fun heq => heq ▸ hkept
  rw [newNodes_eq hfull hcut, hset, ← Set.union_assoc, Set.union_singleton]
  exact hcopy'

/-- A node that is removed gets no copy. Its copies are new roots, and so is the next node if no node
of the branch is kept so far. -/
theorem copyRemoved_spec {copy : CVisibleGraph → ℕ → Option ℕ → Bool → Option CVisibleGraph}
    (hcopies : ∀ c ∈ fullGraph.links.branches x, Copies fullGraph copyFilter copy c)
    (hready : Ready fullGraph copyFilter v D x target firstNode) (hkept : ¬ Kept copyFilter x)
    (hcut : ∀ a, Above fullGraph.links.source a x → copyFilter a ≠ .REMOVE_SUBTREE) :
    ∃ v', (do
        let v ← copyBranches fullGraph (fun v c => copy v c none true) v x
        match fullGraph.links.next x with
        | none => some v
        | some next => copy v next (if firstNode then none else target) firstNode) = some v' ∧
      CopyOf fullGraph copyFilter v' (D ∪ newNodes fullGraph copyFilter x) ∧ Extends v v' := by
  have hfresh : ∀ c ∈ fullGraph.links.branches x, ∀ d ∈ D,
      ¬ Above fullGraph.links.source c d := by
    intro c hc d hd habove
    have hsource := (hfull.linked.mem_branches x c).mp hc
    exact hready.fresh d hd ((Above.single hsource).trans habove)
  have hnone : ∀ m, none = some m ↔ (v.nodes m).isSome ∧ v.base m = x := by
    refine fun m => iff_of_false nofun fun hm => ?_
    exact hready.fresh x (hm.2 ▸ hready.copy.base_mem hm.1) (Above.refl _ x)
  have hnext : ∀ y, fullGraph.links.prev y = some x →
      (∀ m, (if firstNode then none else target) = some m ↔
        (v.nodes m).isSome ∧ NearestKept fullGraph copyFilter (v.base m) y) ∧
      (firstNode = true ↔ ∀ s, ¬ NearestKept fullGraph copyFilter s y) := by
    intro y hy
    refine ⟨fun m => ?_, ?_⟩
    · rw [nearestKept_of_removed hy hkept]
      by_cases hfirst : firstNode = true
      · rw [if_pos hfirst]
        exact iff_of_false nofun fun hm => hready.first.mp hfirst _ hm.2
      · -- a kept node stands in front, so this is no branch start
        rw [if_neg hfirst, hready.target]
        obtain ⟨s, hs⟩ := not_forall.mp (mt hready.first.mpr hfirst)
        have hprev : fullGraph.links.prev x ≠ none := fun heq => hs (not_nearestKept heq s)
        rw [(hfull.linked.one x).resolve_left hprev]
        simp
    · rw [hready.first]
      exact forall_congr' fun s => not_congr (nearestKept_of_removed hy hkept s).symm
  obtain ⟨v', hv', hcopy', hext'⟩ :=
    copyRest_spec hfull hcopies hready.copy hfresh hcut hnone hnext
  refine ⟨v', hv', ?_, hext'⟩
  have hset : {b | b = x ∧ Kept copyFilter b} = (∅ : Set ℕ) := by
    ext b
    exact iff_of_false (fun hb => hkept (hb.1 ▸ hb.2)) (Set.notMem_empty b)
  rw [newNodes_eq hfull hcut, hset, Set.empty_union]
  exact hcopy'

/-- The copy loop copies what is below a node, with as much fuel as there are such nodes. -/
theorem copyFrom_spec (fuel : ℕ) :
    ∀ x, {y | Above fullGraph.links.source x y}.ncard ≤ fuel → (fullGraph.nodes x).isSome →
      Copies fullGraph copyFilter (copyFrom fullGraph copyFilter pool fuel) x := by
  induction fuel with
  | zero =>
    intro x hcard hsome
    have hempty := (Set.ncard_eq_zero (hfull.finite_below hsome)).mp (Nat.le_zero.mp hcard)
    have hself : x ∈ {y | Above fullGraph.links.source x y} := Above.refl _ x
    rw [hempty] at hself
    exact absurd hself (Set.notMem_empty x)
  | succ fuel ih =>
    intro x hcard hsome v D target firstNode hready
    have hcopies : ∀ c ∈ fullGraph.links.branches x,
        Copies fullGraph copyFilter (copyFrom fullGraph copyFilter pool fuel) c := by
      intro c hc
      have hsource := (hfull.linked.mem_branches x c).mp hc
      exact ih c (Nat.le_of_lt_succ ((hfull.ncard_below_lt hsource).trans_le hcard))
        (isSome_of_source hfull.linked hsource).1
    have hcut : copyFilter x ≠ .REMOVE_SUBTREE → ∀ a, Above fullGraph.links.source a x →
        copyFilter a ≠ .REMOVE_SUBTREE := by
      intro hx a ha
      by_cases heq : a = x
      · rw [heq]
        exact hx
      · exact hready.notCut a ha heq
    have hfree := pool.free v hready.copy.consistent
    rw [copyFrom]
    dsimp only
    cases hfilter : copyFilter x with
    | KEEP_NODE =>
      exact copyKept_spec hfull hcopies hready (Or.inl hfilter)
        (hcut (by rw [hfilter]; decide)) hfree _
    | PRESERVE_NODE =>
      exact copyKept_spec hfull hcopies hready (Or.inr hfilter)
        (hcut (by rw [hfilter]; decide)) hfree _
    | REMOVE_NODE =>
      refine copyRemoved_spec hfull hcopies hready ?_ (hcut (by rw [hfilter]; decide))
      rintro (heq | heq)
      · exact nomatch hfilter.symm.trans heq
      · exact nomatch hfilter.symm.trans heq
    | REMOVE_SUBTREE =>
      refine ⟨v, rfl, ?_, Extends.refl v⟩
      have hnone : newNodes fullGraph copyFilter x = ∅ := by
        ext b
        exact iff_of_false (fun hb => hb.2.2 ⟨x, hb.1, hfilter⟩) (Set.notMem_empty b)
      rw [hnone, Set.union_empty]
      exact hready.copy

/-- A copy of all nodes is a filtered copy. -/
theorem CopyOf.filteredCopy (h : CopyOf fullGraph copyFilter v
    {b | Copied fullGraph copyFilter b}) : FilteredCopy fullGraph copyFilter v := by
  have hsource : ∀ n, (v.nodes n).isSome → ∀ m, v.links.source n = some m ↔
      (v.nodes m).isSome ∧ ExpectedSource fullGraph copyFilter (v.base m) (v.base n) := by
    intro n hn m
    rw [h.consistent.linked.source_eq_some, h.prev n hn, h.copySource n hn, ← and_or_left,
      hfull.expectedSource_iff (h.kept _ (h.base_mem hn))]
    refine and_congr_right fun hm => or_congr_right ?_
    exact (and_iff_left (h.kept _ (h.base_mem hm))).symm
  refine ⟨h.consistent, fun n hn => h.base_mem hn, fun b hb => ?_, hsource, fun n hn => ?_⟩
  · obtain ⟨n, hn, hbase⟩ := (h.bases b).mp hb
    exact ⟨n, ⟨hn, hbase⟩, fun m hm => h.injective m n hm.1 hn (hm.2.trans hbase.symm)⟩
  · rw [h.consistent.roots_iff, and_iff_right hn]
    obtain ⟨-, hkept, hnot⟩ : Copied fullGraph copyFilter (v.base n) := h.base_mem hn
    constructor
    · intro hnone s hs
      -- the expected source has a copy
      obtain ⟨hkeptS, hlink⟩ : Kept copyFilter s ∧
          Relation.TransGen (fun x y => fullGraph.links.source y = some x) s (v.base n) := by
        rcases (hfull.expectedSource_iff hkept).mp hs with hnearest | ⟨hcopy, hkeptS⟩
        · have hstep : ∀ x y, fullGraph.links.prev y = some x → fullGraph.links.source y = some x :=
            fun x y hy => hfull.linked.source_eq_some.mpr (Or.inl hy)
          exact ⟨hnearest.2.1, Relation.TransGen.mono hstep _ _ hnearest.1⟩
        · exact ⟨hkeptS, Relation.TransGen.single (hfull.linked.source_eq_some.mpr (Or.inr hcopy))⟩
      obtain ⟨c, hc, -⟩ := Relation.TransGen.head'_iff.mp hlink
      have hcopied : Copied fullGraph copyFilter s := by
        refine ⟨(isSome_of_source hfull.linked hc).2, hkeptS, fun ⟨a, ha, hremoved⟩ => hnot ?_⟩
        exact ⟨a, ha.trans hlink.to_reflTransGen, hremoved⟩
      obtain ⟨m, hm, rfl⟩ := (h.bases s).mp hcopied
      rw [(hsource n hn m).mpr ⟨hm, hs⟩] at hnone
      exact nomatch hnone
    · intro hnone
      by_contra hsome
      obtain ⟨m, hm⟩ := Option.ne_none_iff_exists'.mp hsome
      exact hnone _ ((hsource n hn m).mp hm).2

end Copy

/-- Before anything is copied. -/
theorem copyOf_empty {v : CVisibleGraph} (hv : v.Consistent) (hnodes : ∀ q, v.nodes q = none) :
    CopyOf fullGraph copyFilter v ∅ := by
  have hnone : ∀ n, ¬ (v.nodes n).isSome := fun n => by
    rw [hnodes]
    exact Bool.false_ne_true
  refine ⟨hv, nofun, fun b => ?_, fun n m hn => absurd hn (hnone n), fun n hn => absurd hn (hnone n),
    fun n hn => absurd hn (hnone n)⟩
  exact iff_of_false (Set.notMem_empty b) fun ⟨n, hn, _⟩ => hnone n hn

/-- **For every consistent full graph and every copy filter, the run of the builder ends with a
consistent graph. It holds one node for each node that is kept and not cut off, whose source is the
copy of the nearest kept node in front of it, or else of the copy source of its branch if this and
the branch start are kept.** -/
theorem run_filteredCopy (hfull : ConsistentFullGraph fullGraph) {v : CVisibleGraph}
    (hv : v.Consistent) :
    ∃ v', run fullGraph copyFilter pool v = some v' ∧ FilteredCopy fullGraph copyFilter v' := by
  obtain ⟨r, hr, hsome, hroot, habove⟩ := hfull.exists_root
  obtain ⟨v₀, hv₀, hnodes, hroots, hcount⟩ := CVisibleGraph.clear_spec hv
  have hempty := CVisibleGraph.consistent_of_empty hnodes hroots hcount
  obtain ⟨hprev, hcopy⟩ := NodeLinks.source_eq_none.mp hroot
  have hready : Ready fullGraph copyFilter v₀ ∅ r none true := by
    refine ⟨copyOf_empty hempty hnodes, hsome, nofun, fun a ha hne => ?_, fun m => ?_,
      iff_of_true rfl (not_nearestKept hprev)⟩
    · exact absurd (ha.eq_of_root hroot) hne
    · rw [hnodes]
      exact iff_of_false nofun nofun
  have hcard : {y | Above fullGraph.links.source r y}.ncard ≤ fullGraph.nodeCount := by
    obtain ⟨nodes, hmem, hcard⟩ := hfull.counted
    rw [← hcard, ← Set.ncard_coe_finset]
    exact Set.ncard_le_ncard (fun y hy => (hmem y).mpr (hfull.isSome_of_above hsome hy))
      nodes.finite_toSet
  obtain ⟨v', hv', hcopied, -⟩ := copyFrom_spec hfull fullGraph.nodeCount r hcard hsome v₀ ∅ none
    true hready
  refine ⟨v', ?_, CopyOf.filteredCopy hfull ?_⟩
  · rw [run, hv₀, hr]
    exact hv'
  · have hset : {b | Copied fullGraph copyFilter b} = ∅ ∪ newNodes fullGraph copyFilter r := by
      rw [Set.empty_union]
      ext b
      exact and_congr_left fun _ => ⟨habove b, hfull.isSome_of_above hsome⟩
    rw [hset]
    exact hcopied

/-- A root, the node behind it and a copy of the root. -/
def threeNodes : CFullGraph := CFullGraph.twoNodes.apply (.add 2 IS_COPY_TARGET (some 0))

theorem consistent_threeNodes : ConsistentFullGraph threeNodes := by
  have hsource : ∀ s ∈ some 0, (CFullGraph.rootOnly.nodes s).isSome ∧
      (CFullGraph.twoNodes.nodes s).isSome ∧ CFullGraph.rootOnly.links.next s = none := by
    intro s hs
    obtain rfl := Option.some.inj hs
    exact ⟨rfl, rfl, rfl⟩
  have hroot : CFullGraph.Tree CFullGraph.rootOnly :=
    CFullGraph.tree_empty.add ⟨rfl, iff_of_true rfl rfl, nofun⟩ (Or.inr nofun)
  have htwo : CFullGraph.Tree CFullGraph.twoNodes :=
    hroot.add ⟨rfl, iff_of_false nofun (by decide), fun s hs => (hsource s hs).1⟩
      (Or.inr fun s hs => (hsource s hs).2.2)
  have hthree : CFullGraph.Tree threeNodes :=
    htwo.add ⟨rfl, iff_of_false nofun (by decide), fun s hs => (hsource s hs).2.1⟩
      (Or.inl (by decide))
  have hsome : ∀ q, (threeNodes.nodes q).isSome ↔ q < 3 := by
    rintro (_ | _ | _ | q)
    · exact iff_of_true rfl (by omega)
    · exact iff_of_true rfl (by omega)
    · exact iff_of_true rfl (by omega)
    · exact iff_of_false Bool.false_ne_true (by omega)
  refine ⟨hthree, nofun, ⟨Finset.range 3, fun q => ?_, rfl⟩, fun q hq => ?_⟩
  · rw [Finset.mem_range, hsome]
  · rw [hsome] at hq
    interval_cases q <;> decide

/-- Without the root, the node behind it and its copy are two roots. -/
theorem run_filteredCopy_three : ∃ v', run threeNodes
      (fun b => if b = 0 then .REMOVE_NODE else .KEEP_NODE) .firstFree CVisibleGraph.copied = some v' ∧
    FilteredCopy threeNodes (fun b => if b = 0 then .REMOVE_NODE else .KEEP_NODE) v' :=
  run_filteredCopy consistent_threeNodes CVisibleGraph.consistent_copied

end CVisibleGraphBuilder

end TortoiseSvn.RevisionGraph
