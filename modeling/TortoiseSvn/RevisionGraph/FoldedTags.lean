import TortoiseSvn.RevisionGraph.CutBranches

/-!
# Folding tags of the visible graph

`FoldTag` folds the chain behind a node from its end, then the copy targets of the node, and drops
the node last. Renamed nodes of the chain are folded themselves; the branches of the others go to
the node before them and are folded there.

Main result: `foldTag_spec`. The model's fuel is enough, and folding a node leaves the same nodes
and the same links as dropping its sub-tree does.
-/

namespace TortoiseSvn.RevisionGraph

open TortoiseSvn.Lib

namespace CVisibleGraph

variable {g g' : CVisibleGraph} {x y n : ℕ}

/-! ### The number of nodes below a node -/

/-- The number of nodes below a node, which is counted, too. -/
noncomputable def size (g : CVisibleGraph) (n : ℕ) : ℕ := {q | Above g.links.source n q}.ncard

theorem size_pos (h : Consistent g) (hn : (g.nodes n).isSome) : 0 < g.size n :=
  (Set.ncard_pos (h.finite_below hn)).mpr ⟨n, Above.refl _ n⟩

theorem size_le_nodeCount (h : Consistent g) (hn : (g.nodes n).isSome) :
    g.size n ≤ g.nodeCount := by
  obtain ⟨nodes, hnodes, hcard⟩ := h.counted
  rw [← hcard, ← Set.ncard_coe_finset]
  refine Set.ncard_le_ncard (fun q hq => ?_) nodes.finite_toSet
  exact (hnodes q).mpr (h.isSome_of_above hn hq)

/-- Two different nodes are not above one another. -/
theorem Consistent.not_above (h : Consistent g) (hxy : Above g.links.source x y) (hne : y ≠ x) :
    ¬ Above g.links.source y x := by
  intro hyx
  rcases hxy.cases_tail with heq | ⟨z, hz, hy⟩
  · exact hne heq.symm
  · exact h.acyclic y hy (hyx.trans hz)

theorem size_lt (h : Consistent g) (hx : (g.nodes x).isSome) (hxy : Above g.links.source x y)
    (hne : y ≠ x) : g.size y < g.size x := by
  refine Set.ncard_lt_ncard ⟨fun q hq => hxy.trans hq, fun hall => ?_⟩ (h.finite_below hx)
  exact h.not_above hxy hne (hall (Above.refl _ x))

/-! ### Nodes removed below a node -/

/-- Some of the nodes strictly below `x` are removed. No other node is changed, and what remains
below `x` stays below it. -/
structure Trimmed (x : ℕ) (g g' : CVisibleGraph) : Prop where
  consistent : Consistent g'
  isSome : ∀ q, (g'.nodes q).isSome → (g.nodes q).isSome
  kept : ∀ q, (g.nodes q).isSome → (Above g.links.source x q → q = x) → (g'.nodes q).isSome
  prev : ∀ q, (g'.nodes q).isSome → g'.links.prev q = g.links.prev q
  copySource : ∀ q, (g'.nodes q).isSome → (Above g.links.source x q → q = x) →
    g'.links.copySource q = g.links.copySource q
  above : ∀ q, (g'.nodes q).isSome → (Above g'.links.source x q ↔ Above g.links.source x q)

namespace Trimmed

theorem refl (h : Consistent g) (x : ℕ) : Trimmed x g g :=
  ⟨h, fun _ hq => hq, fun _ hq _ => hq, fun _ _ => rfl, fun _ _ _ => rfl, fun _ _ => Iff.rfl⟩

theorem trans {g'' : CVisibleGraph} (h : Trimmed x g g') (h' : Trimmed x g' g'') :
    Trimmed x g g'' := by
  have hbeside : ∀ q, (g'.nodes q).isSome → (Above g.links.source x q → q = x) →
      Above g'.links.source x q → q = x := fun q hq hbelow habove => hbelow ((h.above q hq).mp habove)
  refine ⟨h'.consistent, fun q hq => h.isSome q (h'.isSome q hq), fun q hq hbelow => ?_,
    fun q hq => (h'.prev q hq).trans (h.prev q (h'.isSome q hq)), fun q hq hbelow => ?_,
    fun q hq => (h'.above q hq).trans (h.above q (h'.isSome q hq))⟩
  · have hq' := h.kept q hq hbelow
    exact h'.kept q hq' (hbeside q hq' hbelow)
  · have hq' := h'.isSome q hq
    exact (h'.copySource q hq (hbeside q hq' hbelow)).trans (h.copySource q hq' hbelow)

theorem isSome_self (h : Trimmed x g g') (hx : (g.nodes x).isSome) : (g'.nodes x).isSome :=
  h.kept x hx fun _ => rfl

theorem source_self (h : Trimmed x g g') (hx : (g.nodes x).isSome) :
    g'.links.source x = g.links.source x := by
  have hx' := h.isSome_self hx
  unfold NodeLinks.source
  rw [h.prev x hx', h.copySource x hx' fun _ => rfl]

/-- The last node of a chain remains the last one. -/
theorem next_eq_none (h : Trimmed x g g') (hg : Consistent g) {p : ℕ} (hp : g.links.next p = none) :
    g'.links.next p = none := by
  rcases hnext : g'.links.next p with _ | m
  · rfl
  · have hprev := (h.consistent.linked.next_iff p m).mp hnext
    have hm : (g'.nodes m).isSome := isSome_of_prev (by
      rw [show (linksOf g'.nodes).prev m = some p from hprev]
      exact Option.some_ne_none p)
    rw [h.prev m hm] at hprev
    rw [(hg.linked.next_iff p m).mpr hprev] at hp
    exact nomatch hp

theorem size_le (h : Trimmed x g g') (hg : Consistent g) (hx : (g.nodes x).isSome) :
    g'.size x ≤ g.size x := by
  refine Set.ncard_le_ncard (fun q hq => ?_) (hg.finite_below hx)
  exact (h.above q (h.consistent.isSome_of_above (h.isSome_self hx) hq)).mp hq

/-- A node is gone, so there are fewer nodes below `x`. -/
theorem size_lt (h : Trimmed x g g') (hg : Consistent g) (hx : (g.nodes x).isSome)
    (hxy : Above g.links.source x y) (hy : ¬ (g'.nodes y).isSome) : g'.size x < g.size x := by
  have hx' := h.isSome_self hx
  refine Set.ncard_lt_ncard ⟨fun q hq => ?_, fun hall => hy ?_⟩ (hg.finite_below hx)
  · exact (h.above q (h.consistent.isSome_of_above hx' hq)).mp hq
  · exact h.consistent.isSome_of_above hx' (hall hxy)

end Trimmed

/-- Paths between the nodes that remain when a sub-tree is dropped. -/
theorem DroppedSubTree.above_iff (h : DroppedSubTree g y g') (hg : Consistent g) {a q : ℕ}
    (hq : (g'.nodes q).isSome) : Above g'.links.source a q ↔ Above g.links.source a q := by
  have hsource : ∀ q, (g'.nodes q).isSome → g'.links.source q = g.links.source q := by
    intro q hq
    unfold NodeLinks.source
    rw [h.prev q hq, h.copySource q hq]
  constructor
  · intro habove
    refine habove.mono fun m z hz => ?_
    rw [← hsource z (isSome_of_source h.consistent.linked hz).1]
    exact hz
  · intro habove
    refine above_congr habove fun z haz hzq hza => hsource z ((h.isSome z).mpr ⟨?_, fun hyz => ?_⟩)
    · obtain ⟨m, hm⟩ := haz.exists_parent hza
      exact (isSome_of_source hg.linked hm).1
    · exact ((h.isSome q).mp hq).2 (hyz.trans hzq)

/-- Dropping a sub-tree below `x`. -/
theorem DroppedSubTree.trimmed (h : DroppedSubTree g y g') (hg : Consistent g)
    (hxy : Above g.links.source x y) (hne : y ≠ x) : Trimmed x g g' := by
  refine ⟨h.consistent, fun q hq => ((h.isSome q).mp hq).1, fun q hq hbelow => ?_, h.prev,
    fun q hq _ => h.copySource q hq, fun q hq => h.above_iff hg hq⟩
  refine (h.isSome q).mpr ⟨hq, fun hyq => ?_⟩
  obtain rfl := hbelow (hxy.trans hyq)
  exact hg.not_above hxy hne hyq

/-- Dropping the last node of a chain below `x`. -/
theorem Dropped.trimmed (h : Dropped g y g') (hg : Consistent g) (hy : g.links.next y = none)
    (hxy : Above g.links.source x y) (hne : y ≠ x) : Trimmed x g g' := by
  have hbeside : ∀ q, (Above g.links.source x q → q = x) → q ≠ y ∧ g.links.copySource q ≠ some y := by
    intro q hbelow
    refine ⟨fun heq => ?_, fun hcopy => ?_⟩
    · subst heq
      exact hne (hbelow hxy)
    · have hyq := Above.single (hg.linked.source_eq_some.mpr (Or.inr hcopy))
      obtain rfl := hbelow (hxy.trans hyq)
      exact hg.not_above hxy hne hyq
  refine ⟨h.consistent, fun q hq => ((h.isSome q).mp hq).1, fun q hq hbelow => ?_, fun q hq => ?_,
    fun q hq hbelow => ?_, fun q hq => ?_⟩
  · exact (h.isSome q).mpr ⟨hq, (hbeside q hbelow).1⟩
  · rw [h.links, drop_prev_of_end hg.linked hy,
      Function.update_of_ne ((h.isSome q).mp hq).2]
  · obtain ⟨hqy, hcopy⟩ := hbeside q hbelow
    rw [h.links]
    show (if q = y then none else _) = _
    rw [if_neg hqy, if_neg (prev_ne_of_end hg.linked hy q), if_neg hcopy]
  · rw [h.links]
    exact above_drop hg hne.symm ((h.isSome q).mp hq).2

/-! ### The chain of a node -/

/-- The nodes of a chain are below its first one. -/
theorem Consistent.above_of_chain (h : Consistent g) (hxy : Above g.links.prev x y) :
    Above g.links.source x y :=
  hxy.mono fun _ _ hz => h.linked.source_eq_some.mpr (Or.inl hz)

/-- The fuel for a chain is at most the number of nodes below its first one. -/
theorem lastOfChain_spec (h : Consistent g) {fuel : ℕ} (hx : (g.nodes x).isSome)
    (hfuel : g.size x ≤ fuel) :
    ∃ last, g.lastOfChain fuel x = some last ∧ Above g.links.prev x last ∧
      g.links.next last = none := by
  induction fuel generalizing x with
  | zero => exact absurd (size_pos h hx) (Nat.not_lt.mpr hfuel)
  | succ fuel ih =>
    rw [lastOfChain]
    rcases hnext : g.links.next x with _ | m
    · exact ⟨x, rfl, Above.refl _ x, hnext⟩
    · have hprev := (h.linked.next_iff x m).mp hnext
      have hsource := h.linked.source_eq_some.mpr (Or.inl hprev)
      have hlt := size_lt h hx (Above.single hsource) (h.ne_of_source hsource).symm
      obtain ⟨last, hlast, habove, hend⟩ := ih (isSome_of_source h.linked hsource).1 (by omega)
      exact ⟨last, hlast, (Above.single hprev).trans habove, hend⟩

/-- Without its last node, a chain ends at the node before it. -/
theorem Trimmed.chain (h : Trimmed x g g') (hg : Consistent g) {p : ℕ}
    (hxp : Above g.links.prev x p) (hp : g.links.prev y = some p) (hgone : ¬ (g'.nodes y).isSome)
    (hkept : ∀ q, Above g.links.prev x q → Above g.links.prev q p → (g'.nodes q).isSome) :
    Above g'.links.prev x p ∧ g'.links.next p = none := by
  refine ⟨above_congr hxp fun q hxq hqp _ => h.prev q (hkept q hxq hqp), ?_⟩
  rcases hnext : g'.links.next p with _ | m
  · rfl
  · have hprev := (h.consistent.linked.next_iff p m).mp hnext
    have hm : (g'.nodes m).isSome := isSome_of_prev (by
      rw [show (linksOf g'.nodes).prev m = some p from hprev]
      exact Option.some_ne_none p)
    rw [h.prev m hm, ← hg.linked.next_iff] at hprev
    obtain rfl := Option.some.inj (hprev.symm.trans ((hg.linked.next_iff p y).mpr hp))
    exact absurd hm hgone

/-! ### Folding -/

/-- Moving tags changes no link. -/
theorem Consistent.moveTags (h : Consistent g) (s : ℕ) :
    Consistent (g.moveTags n s) ∧ (g.moveTags n s).links = g.links ∧
      ∀ q, ((g.moveTags n s).nodes q).isSome = (g.nodes q).isSome := by
  have hlinks : (g.moveTags n s).links = g.links := by
    unfold CVisibleGraph.moveTags
    rw [links_setFirstTag, links_setFirstTag, links_setFirstTag]
  have hsome : ∀ q, ((g.moveTags n s).nodes q).isSome = (g.nodes q).isSome := fun q => by
    unfold CVisibleGraph.moveTags
    rw [setFirstTag_isSome, setFirstTag_isSome, setFirstTag_isSome]
  refine ⟨⟨hlinks ▸ h.linked, fun q => ?_, h.roots_nodup, fun q hq => ?_, ?_⟩, hlinks, hsome⟩
  · rw [hsome, hlinks]
    exact h.roots_iff q
  · rw [hsome] at hq
    rw [hlinks]
    exact h.below q hq
  · obtain ⟨nodes, hnodes, hcard⟩ := h.counted
    exact ⟨nodes, fun q => by rw [hnodes, hsome], hcard⟩

/-- When nothing is left below a node but the node itself, dropping it finishes the fold. -/
theorem Trimmed.fold (h : Trimmed n g g') (hn : (g.nodes n).isSome)
    (hnext : g'.links.next n = none) (htargets : g'.links.copyTargets n = []) (s : ℕ) :
    DroppedSubTree g n ((g'.moveTags n s).dropNode n true) := by
  obtain ⟨hmoved, hlinks, hsome⟩ := h.consistent.moveTags (n := n) s
  have hdropped := dropNode_spec hmoved (by rw [hsome]; exact h.isSome_self hn) true
  have hl := h.consistent.linked
  have hleaf : ∀ q, g'.links.source q ≠ some n := by
    intro q hq
    have hmem := (hl.mem_branches n q).mpr hq
    rw [NodeLinks.branches, hnext, htargets] at hmem
    exact List.not_mem_nil hmem
  have hiff : ∀ q, (((g'.moveTags n s).dropNode n true).nodes q).isSome ↔
      (g'.nodes q).isSome ∧ q ≠ n := fun q => by rw [hdropped.isSome, hsome]
  have hnot : ∀ q, (g'.nodes q).isSome → q ≠ n → ¬ Above g.links.source n q := by
    intro q hq hne habove
    rcases Relation.ReflTransGen.cases_head ((h.above q hq).mpr habove) with heq | ⟨z, hz, -⟩
    · exact hne heq.symm
    · exact hleaf z hz
  refine ⟨hdropped.consistent, fun q => ?_, fun q hq => ?_, fun q hq => ?_⟩
  · rw [hiff]
    constructor
    · rintro ⟨hq, hne⟩
      exact ⟨h.isSome q hq, hnot q hq hne⟩
    · rintro ⟨hq, habove⟩
      refine ⟨h.kept q hq fun hbelow => absurd hbelow habove, ?_⟩
      rintro rfl
      exact habove (Above.refl _ q)
  · obtain ⟨hq', hne⟩ := (hiff q).mp hq
    rw [hdropped.links, hlinks, drop_prev_of_end hl hnext, Function.update_of_ne hne, h.prev q hq']
  · obtain ⟨hq', hne⟩ := (hiff q).mp hq
    rw [hdropped.links, hlinks, ← h.copySource q hq' fun hbelow => absurd hbelow (hnot q hq' hne)]
    show (if q = n then none else _) = _
    rw [if_neg hne, if_neg (prev_ne_of_end hl hnext q),
      if_neg fun hcopy => hleaf q (hl.source_eq_some.mpr (Or.inr hcopy))]

/-- What `foldTagWith` does with some fuel. -/
def Folds (fuel : ℕ) : Prop :=
  ∀ (g : CVisibleGraph) (n : ℕ), Consistent g → g.links.source n ≠ none → 2 * g.size n + 1 ≤ fuel →
    ∃ g', foldTagWith fuel g n = some g' ∧ DroppedSubTree g n g'

/-- One step of `foldChain`: the last node of the chain is dropped or folded. -/
theorem fold_last {fuel p last : ℕ} (ih : Folds fuel) (h : Consistent g) (hn : (g.nodes n).isSome)
    (hchain : Above g.links.prev n last) (hne : last ≠ n) (hp : g.links.prev last = some p)
    (hend : g.links.next last = none) (hfuel : 2 * g.size n ≤ fuel + 1) :
    ∃ g', (if (g.nodes.read (fun n => n.data.classification) 0 last).is
          CNodeClassification.IS_RENAMED then foldTagWith fuel g last
        else some (g.dropNode last true)) = some g' ∧
      Trimmed n g g' ∧ ¬ (g'.nodes last).isSome ∧ Above g'.links.prev n p ∧
      g'.links.next p = none := by
  have hbelow := h.above_of_chain hchain
  have hsource := h.linked.source_eq_some.mpr (Or.inl hp)
  -- the nodes before the last one are not below it
  have hnot : ∀ q, Above g.links.prev q p → ¬ Above g.links.source last q := fun q hqp hq =>
    h.acyclic last hsource (hq.trans (h.above_of_chain hqp))
  have hnp : Above g.links.prev n p := hchain.of_ne hne hp
  have hsome : ∀ q, Above g.links.prev n q → (g.nodes q).isSome := fun q hq =>
    h.isSome_of_above hn (h.above_of_chain hq)
  split
  · have hlt := size_lt h hn hbelow hne
    obtain ⟨g', hg', hfolded⟩ := ih g last h (by rw [hsource]; exact Option.some_ne_none p)
      (by omega)
    have htrimmed := hfolded.trimmed h hbelow hne
    have hgone : ¬ (g'.nodes last).isSome := fun hlast =>
      ((hfolded.isSome last).mp hlast).2 (Above.refl _ last)
    refine ⟨g', hg', htrimmed, hgone, htrimmed.chain h hnp hp hgone fun q hnq hqp => ?_⟩
    exact (hfolded.isSome q).mpr ⟨hsome q hnq, hnot q hqp⟩
  · have hdropped := dropNode_spec h (hsome last hchain) true
    have htrimmed := hdropped.trimmed h hend hbelow hne
    have hgone : ¬ ((g.dropNode last true).nodes last).isSome := fun hlast =>
      ((hdropped.isSome last).mp hlast).2 rfl
    refine ⟨_, rfl, htrimmed, hgone, htrimmed.chain h hnp hp hgone fun q hnq hqp => ?_⟩
    refine (hdropped.isSome q).mpr ⟨hsome q hnq, ?_⟩
    rintro rfl
    exact hnot q hqp (Above.refl _ q)

/-- Folding the chain leaves the node without a next one. -/
theorem foldChain_spec {fuel last : ℕ} (ih : ∀ k < fuel, Folds k) (h : Consistent g)
    (hn : (g.nodes n).isSome) (hchain : Above g.links.prev n last)
    (hend : g.links.next last = none) (hfuel : 2 * g.size n ≤ fuel) :
    ∃ g', foldChain fuel g n last = some g' ∧ Trimmed n g g' ∧ g'.links.next n = none := by
  induction fuel generalizing g last with
  | zero =>
    have hpos := size_pos h hn
    omega
  | succ fuel ihFuel =>
    rw [foldChain]
    by_cases hlast : last = n
    · rw [if_pos hlast]
      exact ⟨g, rfl, Trimmed.refl h n, hlast ▸ hend⟩
    · rw [if_neg hlast]
      obtain ⟨p, hp⟩ := hchain.exists_parent hlast
      obtain ⟨g₁, hg₁, htrimmed, hgone, hchain₁, hend₁⟩ :=
        fold_last (ih fuel (Nat.lt_succ_self fuel)) h hn hchain hlast hp hend hfuel
      have hlt := htrimmed.size_lt h hn (h.above_of_chain hchain) hgone
      obtain ⟨g', hg', htrimmed', hnext⟩ := ihFuel (fun k hk => ih k (Nat.lt_succ_of_lt hk))
        htrimmed.consistent (htrimmed.isSome_self hn) hchain₁ hend₁ (by omega)
      refine ⟨g', ?_, htrimmed.trans htrimmed', hnext⟩
      rw [hp, Option.bind_eq_bind, Option.bind_some]
      split at hg₁
      · rw [if_pos ‹_›, hg₁]
        exact hg'
      · rw [if_neg ‹_›, hg₁]
        exact hg'

/-- Folding the copy targets leaves the node without any. -/
theorem foldBranches_spec {fuel : ℕ} (ih : ∀ k < fuel, Folds k) (h : Consistent g)
    (hn : (g.nodes n).isSome) (hnext : g.links.next n = none) (hfuel : 2 * g.size n ≤ fuel) :
    ∃ g', foldBranches fuel g n = some g' ∧ Trimmed n g g' ∧ g'.links.next n = none ∧
      g'.links.copyTargets n = [] := by
  induction fuel generalizing g with
  | zero =>
    have hpos := size_pos h hn
    omega
  | succ fuel ihFuel =>
    rw [foldBranches]
    rcases htargets : g.links.copyTargets n with _ | ⟨target, targets⟩
    · exact ⟨g, rfl, Trimmed.refl h n, hnext, htargets⟩
    · have hcopy := (h.linked.target_iff n target).mp (htargets ▸ List.mem_cons_self)
      have hsource := h.linked.source_eq_some.mpr (Or.inr hcopy)
      have hbelow := Above.single hsource
      have hne := (h.ne_of_source hsource).symm
      have hlt := size_lt h hn hbelow hne
      obtain ⟨g₁, hg₁, hfolded⟩ := ih fuel (Nat.lt_succ_self fuel) g target h
        (by rw [hsource]; exact Option.some_ne_none n) (by omega)
      have htrimmed := hfolded.trimmed h hbelow hne
      have hlt' := htrimmed.size_lt h hn hbelow fun hmem =>
        ((hfolded.isSome target).mp hmem).2 (Above.refl _ target)
      obtain ⟨g', hg', htrimmed', hnext', htargets'⟩ := ihFuel
        (fun k hk => ih k (Nat.lt_succ_of_lt hk)) htrimmed.consistent (htrimmed.isSome_self hn)
        (htrimmed.next_eq_none h hnext) (by omega)
      refine ⟨g', ?_, htrimmed.trans htrimmed', hnext', htargets'⟩
      dsimp only
      rw [hg₁, Option.bind_eq_bind, Option.bind_some]
      exact hg'

/-- Two steps for each node below a node are enough to fold it. -/
theorem foldTagWith_spec (fuel : ℕ) : Folds fuel := by
  induction fuel using Nat.strong_induction_on with
  | _ fuel ih =>
    intro g n h hsource hfuel
    obtain ⟨fuel, rfl⟩ : ∃ k, fuel = k + 1 := ⟨fuel - 1, by omega⟩
    have ih' : ∀ k < fuel, Folds k := fun k hk => ih k (Nat.lt_succ_of_lt hk)
    obtain ⟨s, hs⟩ := Option.ne_none_iff_exists'.mp hsource
    have hn := (isSome_of_source h.linked hs).1
    have hsize : g.size n ≤ fuel := by omega
    obtain ⟨last, hlast, hchain, hend⟩ := lastOfChain_spec h hn hsize
    obtain ⟨g₁, hg₁, htrimmed₁, hnext₁⟩ := foldChain_spec ih' h hn hchain hend (by omega)
    have hle : g₁.size n ≤ g.size n := htrimmed₁.size_le h hn
    obtain ⟨g₂, hg₂, htrimmed₂, hnext₂, htargets₂⟩ := foldBranches_spec ih' htrimmed₁.consistent
      (htrimmed₁.isSome_self hn) hnext₁ (by omega)
    have htrimmed := htrimmed₁.trans htrimmed₂
    refine ⟨_, ?_, htrimmed.fold hn hnext₂ htargets₂ s⟩
    rw [foldTagWith, hlast, Option.bind_eq_bind, Option.bind_some, hg₁, Option.bind_eq_bind,
      Option.bind_some, hg₂, Option.bind_some, htrimmed.source_self hn, hs]
    rfl

/-- **Folding a node that has a source ends, and removes the node and what is below it.** -/
theorem foldTag_spec (h : Consistent g) (hn : g.links.source n ≠ none) :
    ∃ g', g.foldTag n = some g' ∧ DroppedSubTree g n g' := by
  obtain ⟨s, hs⟩ := Option.ne_none_iff_exists'.mp hn
  have hle := size_le_nodeCount h (isSome_of_source h.linked hs).1
  exact foldTagWith_spec _ g n h hn (by omega)

end CVisibleGraph

end TortoiseSvn.RevisionGraph
