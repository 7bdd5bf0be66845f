import TortoiseSvn.RevisionGraph.VisibleGraph

/-!
# Dropping a node of the visible graph

`DropNode` has separate cases for roots, for nodes within a chain and for branch starts, with and
without a next node. In a consistent graph all of them come down to `NodeLinks.drop`.

Main result: `dropNode_spec`. Dropping a node keeps the graph consistent, and the paths between all
other nodes.
-/

namespace TortoiseSvn.RevisionGraph

open TortoiseSvn.Lib

namespace CVisibleGraph

variable {g : CVisibleGraph} {n : ℕ}

/-! ### Consistent graphs -/

theorem Consistent.acyclic (h : Consistent g) (q : ℕ) (hq : g.links.source q = some n) :
    ¬ Above g.links.source q n := by
  obtain ⟨r, hr, hrn⟩ := h.below n (isSome_of_source h.linked hq).2
  exact not_above_parent hr hrn hq

theorem Consistent.ne_of_source (h : Consistent g) {s : ℕ} (hs : g.links.source n = some s) :
    s ≠ n := by
  rintro rfl
  exact h.acyclic s hs (Above.refl _ s)

/-! ### Lists of copy targets -/

section Lists

variable {ts : List ℕ} {m : ℕ}

theorem flatMap_of_not_mem (h : n ∉ ts) (l : List ℕ) :
    (ts.flatMap fun t => if t = n then l else [t]) = ts := by
  induction ts with
  | nil => rfl
  | cons t ts ih =>
    have ht : t ≠ n := fun heq => h (heq ▸ List.mem_cons_self)
    rw [List.flatMap_cons, if_neg ht, ih fun hmem => h (List.mem_cons_of_mem _ hmem)]
    rfl

theorem replace_eq_flatMap (h : ts.Nodup) (m : ℕ) :
    ts.replace n m = ts.flatMap fun t => if t = n then [m] else [t] := by
  induction ts with
  | nil => rfl
  | cons t ts ih =>
    obtain ⟨ht, hts⟩ := List.nodup_cons.mp h
    rw [List.replace_cons, List.flatMap_cons]
    by_cases heq : t = n
    · subst heq
      rw [if_pos rfl, flatMap_of_not_mem ht]
      simp
    · have hbeq : (n == t) = false := by simpa using Ne.symm heq
      rw [if_neg heq, hbeq, ih hts]
      rfl

theorem erase_eq_flatMap (h : ts.Nodup) :
    ts.erase n = ts.flatMap fun t => if t = n then [] else [t] := by
  induction ts with
  | nil => rfl
  | cons t ts ih =>
    obtain ⟨ht, hts⟩ := List.nodup_cons.mp h
    rw [List.flatMap_cons]
    by_cases heq : t = n
    · subst heq
      rw [if_pos rfl, flatMap_of_not_mem ht, List.erase_cons_head, List.nil_append]
    · rw [if_neg heq, List.erase_cons_tail (by simpa using heq), ih hts]
      rfl

end Lists

/-! ### The cases of `drop` -/

section Cases

variable {l : NodeLinks} (h : l.Linked) {s m : ℕ}

include h

theorem prev_eq_iff (hm : l.next n = some m) (q : ℕ) : l.prev q = some n ↔ q = m := by
  rw [← h.next_iff, hm, Option.some_inj, eq_comm]

theorem prev_ne_of_end (hm : l.next n = none) (q : ℕ) : l.prev q ≠ some n := fun hq => by
  rw [(h.next_iff n q).mpr hq] at hm
  exact nomatch hm

theorem next_eq_iff (hs : l.prev n = some s) (q : ℕ) : l.next q = some n ↔ q = s := by
  rw [h.next_iff, hs, Option.some_inj, eq_comm]

theorem next_ne_of_start (hs : l.prev n = none) (q : ℕ) : l.next q ≠ some n := fun hq => by
  rw [(h.next_iff q n).mp hq] at hs
  exact nomatch hs

theorem drop_prev_of_next (hm : l.next n = some m) :
    (l.drop n).prev = Function.update (Function.update l.prev m (l.prev n)) n none := by
  funext q
  unfold NodeLinks.drop
  dsimp only
  by_cases hq : q = n
  · rw [if_pos hq, hq, Function.update_self]
  rw [if_neg hq, Function.update_of_ne hq]
  by_cases hqm : q = m
  · rw [if_pos ((prev_eq_iff h hm q).mpr hqm), hqm, Function.update_self]
  · rw [if_neg fun heq => hqm ((prev_eq_iff h hm q).mp heq), Function.update_of_ne hqm]

theorem drop_prev_of_end (hm : l.next n = none) :
    (l.drop n).prev = Function.update l.prev n none := by
  funext q
  unfold NodeLinks.drop
  dsimp only
  by_cases hq : q = n
  · rw [if_pos hq, hq, Function.update_self]
  · rw [if_neg hq, Function.update_of_ne hq, if_neg (prev_ne_of_end h hm q)]

theorem drop_next_of_prev (hs : l.prev n = some s) :
    (l.drop n).next = Function.update (Function.update l.next s (l.next n)) n none := by
  funext q
  unfold NodeLinks.drop
  dsimp only
  by_cases hq : q = n
  · rw [if_pos hq, hq, Function.update_self]
  rw [if_neg hq, Function.update_of_ne hq]
  by_cases hqs : q = s
  · rw [if_pos ((next_eq_iff h hs q).mpr hqs), hqs, Function.update_self]
  · rw [if_neg fun heq => hqs ((next_eq_iff h hs q).mp heq), Function.update_of_ne hqs]

theorem drop_next_of_start (hs : l.prev n = none) :
    (l.drop n).next = Function.update l.next n none := by
  funext q
  unfold NodeLinks.drop
  dsimp only
  by_cases hq : q = n
  · rw [if_pos hq, hq, Function.update_self]
  · rw [if_neg hq, Function.update_of_ne hq, if_neg (next_ne_of_start h hs q)]

/-- The next node, if there is one, gets the copy source. -/
theorem drop_copySource_of_next (hm : l.next n = some m) :
    (l.drop n).copySource = Function.update (Function.update
      (fun q => if l.copySource q = some n then l.source n else l.copySource q) m (l.copySource n))
        n none := by
  funext q
  unfold NodeLinks.drop
  dsimp only
  by_cases hq : q = n
  · rw [if_pos hq, hq, Function.update_self]
  rw [if_neg hq, Function.update_of_ne hq]
  by_cases hqm : q = m
  · rw [if_pos ((prev_eq_iff h hm q).mpr hqm), hqm, Function.update_self]
  · rw [if_neg fun heq => hqm ((prev_eq_iff h hm q).mp heq), Function.update_of_ne hqm]

theorem drop_copySource_of_end (hm : l.next n = none) :
    (l.drop n).copySource = Function.update
      (fun q => if l.copySource q = some n then l.source n else l.copySource q) n none := by
  funext q
  unfold NodeLinks.drop
  dsimp only
  by_cases hq : q = n
  · rw [if_pos hq, hq, Function.update_self]
  · rw [if_neg hq, Function.update_of_ne hq, if_neg (prev_ne_of_end h hm q)]

/-- A next node that gets no copy source has none anyway. -/
theorem drop_copySource_of_none (hn : l.copySource n = none) :
    (l.drop n).copySource = Function.update
      (fun q => if l.copySource q = some n then l.source n else l.copySource q) n none := by
  rcases hm : l.next n with _ | m
  · exact drop_copySource_of_end h hm
  · have hcopy := (h.one m).resolve_left (by
      rw [(h.next_iff n m).mp hm]
      exact Option.some_ne_none n)
    rw [drop_copySource_of_next h hm, hn]
    congr 1
    rw [Function.update_eq_self_iff]
    rw [hcopy, if_neg (Option.some_ne_none n).symm]

omit h

theorem drop_copyTargets_of_source (hs : l.source n = some s) :
    (l.drop n).copyTargets = Function.update (Function.update l.copyTargets s
      ((l.copyTargets s ++ l.copyTargets n).flatMap
        fun t => if t = n then (l.next n).toList else [t])) n [] := by
  funext q
  unfold NodeLinks.drop
  dsimp only
  by_cases hq : q = n
  · rw [if_pos hq, hq, Function.update_self]
  rw [if_neg hq, Function.update_of_ne hq]
  by_cases hqs : q = s
  · rw [hqs, if_pos hs, Function.update_self]
  · rw [if_neg fun heq => hqs (Option.some.inj (heq.symm.trans hs)), Function.update_of_ne hqs]

theorem drop_copyTargets_of_root (hs : l.source n = none) :
    (l.drop n).copyTargets = Function.update l.copyTargets n [] := by
  funext q
  unfold NodeLinks.drop
  dsimp only
  by_cases hq : q = n
  · rw [if_pos hq, hq, Function.update_self]
  · rw [if_neg hq, Function.update_of_ne hq, if_neg fun heq => nomatch heq.symm.trans hs]

end Cases

/-! ### Inner nodes -/

section Inner

variable {s : ℕ}

/-- The links when the branches of a node have been moved to its source. -/
theorem links_moveBranches (h : Consistent g) (hs : g.links.source n = some s) :
    let g' := (g.links.copyTargets n).foldl (fun g target => g.setCopySource target (some s))
      (g.setCopyTargets s fun ts => ts ++ g.links.copyTargets n)
    g'.links = { g.links with
        copySource := fun q => if g.links.copySource q = some n then some s else g.links.copySource q
        copyTargets := Function.update g.links.copyTargets s
          (g.links.copyTargets s ++ g.links.copyTargets n) } ∧
      ∀ q, (g'.nodes q).isSome = (g.nodes q).isSome := by
  have hsome := (isSome_of_source h.linked hs).2
  obtain ⟨hlinks, hsame⟩ := @foldl_setCopySource
    (g.setCopyTargets s fun ts => ts ++ g.links.copyTargets n) (some s)
    (fun g target => g.setCopySource target (some s)) (fun _ _ => rfl) (g.links.copyTargets n)
    fun b hb => by
      rw [setCopyTargets_isSome]
      exact (isSome_of_source h.linked
        (h.linked.source_eq_some.mpr (Or.inr ((h.linked.target_iff n b).mp hb)))).1
  refine ⟨hlinks.trans ?_, fun q => (hsame q).trans (setCopyTargets_isSome _ q)⟩
  rw [links_setCopyTargets hsome]
  apply NodeLinks.ext
  · rfl
  · rfl
  · funext q
    dsimp only
    by_cases hq : g.links.copySource q = some n
    · rw [if_pos hq, if_pos ((h.linked.target_iff n q).mpr hq)]
    · rw [if_neg hq, if_neg fun hmem => hq ((h.linked.target_iff n q).mp hmem)]
  · rfl

/-- The list of branches that the source has in the end. -/
theorem moved_nodup (h : Consistent g) (hs : g.links.source n = some s) :
    (g.links.copyTargets s ++ g.links.copyTargets n).Nodup ∧ n ∉ g.links.copyTargets n := by
  constructor
  · refine List.nodup_append'.mpr ⟨h.linked.nodup s, h.linked.nodup n, fun t ht ht' => ?_⟩
    have hcopy := (h.linked.target_iff s t).mp ht
    rw [(h.linked.target_iff n t).mp ht'] at hcopy
    exact h.ne_of_source hs (Option.some.inj hcopy).symm
  · intro hn
    exact h.ne_of_source (h.linked.source_eq_some.mpr (Or.inr ((h.linked.target_iff n n).mp hn))) rfl

/-- De-linking a node whose branches have been moved, and freeing it. -/
theorem links_delink (h : Consistent g) (hs : g.links.source n = some s) {g₂ : CVisibleGraph}
    (hlinks : g₂.links = { g.links with
      copySource := fun q => if g.links.copySource q = some n then some s else g.links.copySource q
      copyTargets := Function.update g.links.copyTargets s
        (g.links.copyTargets s ++ g.links.copyTargets n) })
    (hsame : ∀ q, (g₂.nodes q).isSome = (g.nodes q).isSome) :
    ((g₂.delink n s).destroyLeaf n).links = g.links.drop n ∧
      ∀ q, (((g₂.delink n s).destroyLeaf n).nodes q).isSome ↔ (g.nodes q).isSome ∧ q ≠ n := by
  have hl := h.linked
  obtain ⟨hnodup, hself⟩ := moved_nodup h hs
  have hsomeS : (g₂.nodes s).isSome := (hsame s).trans (isSome_of_source hl hs).2
  have hprev₂ : g₂.links.prev n = g.links.prev n := by rw [hlinks]
  have hnext₂ : g₂.links.next n = g.links.next n := by rw [hlinks]
  have htargets := drop_copyTargets_of_source hs
  have hsomeNext : ∀ m, g.links.next n = some m → (g₂.nodes m).isSome := fun m hm =>
    (hsame m).trans (isSome_of_prev (by
      rw [(hl.next_iff n m).mp hm]
      exact Option.some_ne_none n))
  unfold delink
  rw [hprev₂, hnext₂]
  rcases hprev : g.links.prev n with _ | p
  · -- a branch start
    have hcopy : g.links.copySource n = some s :=
      (hl.source_eq_some.mp hs).resolve_left (by rw [hprev]; exact (Option.some_ne_none s).symm)
    rcases hnext : g.links.next n with _ | m
    · refine ⟨?_, fun q => ?_⟩
      · rw [links_destroyLeaf, links_setCopyTargets hsomeS, hlinks]
        dsimp only
        rw [Function.update_self, Function.update_idem, erase_eq_flatMap hnodup]
        apply NodeLinks.ext
        · exact (drop_prev_of_end hl hnext).symm
        · exact (drop_next_of_start hl hprev).symm
        · rw [drop_copySource_of_end hl hnext, hs]
        · rw [htargets, hnext]
          rfl
      · rw [destroyLeaf_isSome, setCopyTargets_isSome, hsame]
    · refine ⟨?_, fun q => ?_⟩
      · rw [links_destroyLeaf, links_setCopySource (by simpa using hsomeNext m hnext),
          links_setPrev (by simpa using hsomeNext m hnext), links_setCopyTargets hsomeS, hlinks]
        dsimp only
        rw [Function.update_self, Function.update_idem, replace_eq_flatMap hnodup]
        apply NodeLinks.ext
        · rw [drop_prev_of_next hl hnext, hprev]
        · exact (drop_next_of_start hl hprev).symm
        · rw [drop_copySource_of_next hl hnext, hs, hcopy]
        · rw [htargets, hnext]
          rfl
      · rw [destroyLeaf_isSome, setCopySource_isSome, setPrev_isSome, setCopyTargets_isSome, hsame]
  · -- a node within a chain
    have hcopy : g.links.copySource n = none :=
      (hl.one n).resolve_left (by rw [hprev]; exact Option.some_ne_none p)
    obtain rfl : p = s := by
      have hsource := hl.source_eq_some.mpr (Or.inl hprev)
      exact Option.some.inj (hsource.symm.trans hs)
    have hnot : n ∉ g.links.copyTargets p ++ g.links.copyTargets n := by
      rw [List.mem_append, not_or, hl.target_iff, hcopy]
      exact ⟨(Option.some_ne_none p).symm, hself⟩
    rcases hnext : g.links.next n with _ | m
    · refine ⟨?_, fun q => ?_⟩
      · rw [links_destroyLeaf, links_setNext hsomeS, hlinks]
        apply NodeLinks.ext
        · exact (drop_prev_of_end hl hnext).symm
        · rw [drop_next_of_prev hl hprev, hnext]
        · rw [drop_copySource_of_none hl hcopy, hs]
        · rw [htargets, flatMap_of_not_mem hnot]
      · rw [destroyLeaf_isSome, setNext_isSome, hsame]
    · refine ⟨?_, fun q => ?_⟩
      · rw [links_destroyLeaf, links_setPrev (by simpa using hsomeNext m hnext),
          links_setNext hsomeS, hlinks]
        apply NodeLinks.ext
        · rw [drop_prev_of_next hl hnext, hprev]
        · rw [drop_next_of_prev hl hprev, hnext]
        · rw [drop_copySource_of_none hl hcopy, hs]
        · rw [htargets, flatMap_of_not_mem hnot]
      · rw [destroyLeaf_isSome, setPrev_isSome, setNext_isSome, hsame]

theorem links_dropInner (h : Consistent g) (hs : g.links.source n = some s) (preserveTags : Bool) :
    (g.dropInner n s preserveTags).links = g.links.drop n ∧
      ∀ q, ((g.dropInner n s preserveTags).nodes q).isSome ↔ (g.nodes q).isSome ∧ q ≠ n := by
  obtain ⟨hlinks, hsame⟩ := links_moveBranches h hs
  unfold dropInner
  apply links_delink h hs
  · split
    · rw [links_setFirstTag, links_setFirstTag]
      exact hlinks
    · exact hlinks
  · intro q
    split
    · rw [setFirstTag_isSome, setFirstTag_isSome]
      exact hsame q
    · exact hsame q

/-- Inner nodes are not among the roots. -/
theorem dropInner_roots (preserveTags : Bool) :
    (g.dropInner n s preserveTags).roots = g.roots ∧
      (g.dropInner n s preserveTags).insertionIndex = g.insertionIndex ∧
      (g.dropInner n s preserveTags).nodeCount = g.nodeCount - 1 := by
  have hfold : ∀ (branches : List ℕ) (g : CVisibleGraph),
      let g' := branches.foldl (fun g target => g.setCopySource target (some s)) g
      g'.roots = g.roots ∧ g'.insertionIndex = g.insertionIndex ∧ g'.nodeCount = g.nodeCount := by
    intro branches
    induction branches with
    | nil => exact fun _ => ⟨rfl, rfl, rfl⟩
    | cons b branches ih => exact fun g => ih (g.setCopySource b (some s))
  have hdelink : ∀ g : CVisibleGraph, (g.delink n s).roots = g.roots ∧
      (g.delink n s).insertionIndex = g.insertionIndex ∧ (g.delink n s).nodeCount = g.nodeCount := by
    intro g
    unfold delink
    split <;> exact ⟨rfl, rfl, rfl⟩
  obtain ⟨hroots, hindex, hcount⟩ := hfold (g.links.copyTargets n)
    (g.setCopyTargets s fun ts => ts ++ g.links.copyTargets n)
  unfold dropInner
  refine ⟨(hdelink _).1.trans ?_, (hdelink _).2.1.trans ?_,
    congrArg (· - 1) ((hdelink _).2.2.trans ?_)⟩
  · split <;> exact hroots
  · split <;> exact hindex
  · split <;> exact hcount

end Inner

/-! ### Roots -/

theorem replace_perm {l : List ℕ} {a : ℕ} (ha : a ∈ l) (b : ℕ) :
    (l.replace a b).Perm (b :: l.erase a) := by
  induction l with
  | nil => exact absurd ha List.not_mem_nil
  | cons c l ih =>
    rw [List.replace_cons]
    by_cases hac : a = c
    · subst hac
      rw [List.erase_cons_head, beq_self_eq_true]
    · have hbeq : (a == c) = false := by simpa using hac
      rw [hbeq, List.erase_cons_tail (by simpa using Ne.symm hac)]
      exact ((ih ((List.mem_cons.mp ha).resolve_left hac)).cons c).trans (List.Perm.swap b c _)

theorem foldl_addRoot {branches : List ℕ} (g : CVisibleGraph) (v : Option ℕ) :
    let g' := branches.foldl (fun g target => (g.setCopySource target v).addRoot target) g
    g'.roots.Perm (branches ++ g.roots) ∧ g'.nodeCount = g.nodeCount := by
  induction branches generalizing g with
  | nil => exact ⟨List.Perm.refl _, rfl⟩
  | cons b branches ih =>
    obtain ⟨hroots, hcount⟩ := ih ((g.setCopySource b v).addRoot b)
    refine ⟨hroots.trans ?_, hcount.trans addRoot_nodeCount⟩
    exact (addRoot_roots_perm.append_left branches).trans List.perm_middle

/-- Dropping a root makes the nodes behind and below it roots. -/
theorem links_dropRoot (h : Consistent g) (hn : (g.nodes n).isSome) (hs : g.links.source n = none) :
    (g.dropRoot n).links = g.links.drop n ∧
      (∀ q, ((g.dropRoot n).nodes q).isSome ↔ (g.nodes q).isSome ∧ q ≠ n) ∧
      (g.dropRoot n).roots.Perm (g.links.branches n ++ g.roots.erase n) ∧
      (g.dropRoot n).nodeCount = g.nodeCount - 1 := by
  have hl := h.linked
  obtain ⟨hprev, hcopy⟩ := NodeLinks.source_eq_none.mp hs
  have hroot : n ∈ g.roots := (h.roots_iff n).mpr ⟨hn, hs⟩
  have hsource : ∀ b ∈ g.links.copyTargets n, (g.nodes b).isSome := fun b hb =>
    (isSome_of_source hl (hl.source_eq_some.mpr (Or.inr ((hl.target_iff n b).mp hb)))).1
  -- the graph when the chain has been handled
  obtain ⟨g₁, hg₁, hlinks₁, hsome₁, hroots₁, hcount₁⟩ : ∃ g₁, g.dropFromRoots n = g₁ ∧
      { g₁.links with prev := Function.update g₁.links.prev n none } =
        { g.links with prev := (g.links.drop n).prev } ∧
      (∀ q, (g₁.nodes q).isSome = (g.nodes q).isSome) ∧
      g₁.roots.Perm ((g.links.next n).toList ++ g.roots.erase n) ∧ g₁.nodeCount = g.nodeCount := by
    refine ⟨_, rfl, ?_⟩
    unfold dropFromRoots
    rcases hnext : g.links.next n with _ | m
    · refine ⟨?_, fun q => rfl, List.Perm.refl _, rfl⟩
      rw [drop_prev_of_end hl hnext]
      rfl
    · have hm : (g.nodes m).isSome := isSome_of_prev (by
        rw [(hl.next_iff n m).mp hnext]
        exact Option.some_ne_none n)
      refine ⟨?_, fun q => setPrev_isSome none q, replace_perm hroot m, rfl⟩
      have hlinks : ((g.setPrev m none).replaceRoot n m).links =
          { g.links with prev := Function.update g.links.prev m none } := links_setPrev hm none
      dsimp only
      rw [hlinks, drop_prev_of_next hl hnext, hprev]
  obtain ⟨hlinks₂, hsome₂⟩ := @foldl_setCopySource g₁ none
    (fun g target => (g.setCopySource target none).addRoot target) (fun _ _ => addRoot_nodes)
    (g.links.copyTargets n) fun b hb => by
      rw [hsome₁]
      exact hsource b hb
  obtain ⟨hroots₂, hcount₂⟩ := @foldl_addRoot (g.links.copyTargets n) g₁ none
  unfold dropRoot
  dsimp only
  rw [hg₁]
  generalize (g.links.copyTargets n).foldl
    (fun g target => (g.setCopySource target none).addRoot target) g₁ = g₂ at *
  have hfields := NodeLinks.ext_iff.mp hlinks₁
  dsimp only at hfields
  refine ⟨?_, fun q => ?_, ?_, ?_⟩
  · rw [links_destroyLeaf, hlinks₂]
    apply NodeLinks.ext
    · exact hfields.1
    · rw [drop_next_of_start hl hprev, ← hfields.2.1]
    · rw [drop_copySource_of_none hl hcopy]
      dsimp only
      congr 1
      funext q
      rw [hfields.2.2.1, hs]
      by_cases hq : g.links.copySource q = some n
      · rw [if_pos hq, if_pos ((hl.target_iff n q).mpr hq)]
      · rw [if_neg hq, if_neg fun hmem => hq ((hl.target_iff n q).mp hmem)]
    · rw [drop_copyTargets_of_root hs, ← hfields.2.2.2]
  · rw [destroyLeaf_isSome, hsome₂, hsome₁]
  · refine hroots₂.trans ((hroots₁.append_left _).trans ?_)
    rw [← List.append_assoc]
    exact List.perm_append_comm.append_right _
  · show g₂.nodeCount - 1 = _
    rw [hcount₂, hcount₁]

/-! ### Dropping keeps the graph consistent -/

theorem source_drop_of_ne (h : Consistent g) {q : ℕ} (hq : q ≠ n) :
    (g.links.drop n).source q =
      if g.links.source q = some n then g.links.source n else g.links.source q := by
  rw [h.linked.source_drop, Function.update_of_ne hq, bypass]

/-- Paths between the other nodes. -/
theorem above_drop (h : Consistent g) {x y : ℕ} (hx : x ≠ n) (hy : y ≠ n) :
    Above (g.links.drop n).source x y ↔ Above g.links.source x y := by
  have hself : g.links.source n ≠ some n := NodeLinks.source_ne_self h.acyclic
  rw [h.linked.source_drop, ← above_bypass hself hx hy]
  exact ⟨above_of_prune, fun habove => above_prune habove (bypass_ne hself) hy⟩

/-- What dropping a node has to give to its caller. -/
structure Dropped (g : CVisibleGraph) (n : ℕ) (g' : CVisibleGraph) : Prop where
  consistent : Consistent g'
  links : g'.links = g.links.drop n
  isSome : ∀ q, (g'.nodes q).isSome ↔ (g.nodes q).isSome ∧ q ≠ n

theorem consistent_of_drop (h : Consistent g) (hn : (g.nodes n).isSome) {g' : CVisibleGraph}
    (hlinks : g'.links = g.links.drop n)
    (hsome : ∀ q, (g'.nodes q).isSome ↔ (g.nodes q).isSome ∧ q ≠ n)
    (hcount : g'.nodeCount = g.nodeCount - 1)
    (hroots : g'.roots.Perm
      (if g.links.source n = none then g.links.branches n ++ g.roots.erase n else g.roots)) :
    Dropped g n g' := by
  have hl := h.linked
  have hself : g.links.source n ≠ some n := NodeLinks.source_ne_self h.acyclic
  refine ⟨⟨hlinks ▸ hl.drop h.acyclic, fun q => ?_, ?_, fun q hq => ?_, ?_⟩, hlinks, hsome⟩
  · rw [hroots.mem_iff, hsome, hlinks]
    by_cases hsource : g.links.source n = none
    · rw [if_pos hsource, List.mem_append, hl.mem_branches, h.roots_nodup.mem_erase_iff,
        h.roots_iff]
      by_cases hq : q = n
      · subst hq
        exact iff_of_false (by rintro (hq | hq); exacts [hself hq, hq.1 rfl]) fun hq => hq.1.2 rfl
      · rw [source_drop_of_ne h hq, hsource]
        by_cases hqn : g.links.source q = some n
        · rw [if_pos hqn]
          exact iff_of_true (Or.inl hqn) ⟨⟨(isSome_of_source hl hqn).1, hq⟩, rfl⟩
        · rw [if_neg hqn]
          tauto
    · rw [if_neg hsource, h.roots_iff]
      by_cases hq : q = n
      · subst hq
        exact iff_of_false (fun hq => hsource hq.2) fun hq => hq.1.2 rfl
      · rw [source_drop_of_ne h hq]
        by_cases hqn : g.links.source q = some n
        · rw [if_pos hqn, hqn]
          exact iff_of_false (fun hq => nomatch hq.2) fun hq => hsource hq.2
        · rw [if_neg hqn]
          tauto
  · rw [hroots.nodup_iff]
    split
    · refine List.nodup_append'.mpr ⟨hl.branches_nodup n, h.roots_nodup.erase n, fun q hq hq' => ?_⟩
      have hsource := (hl.mem_branches n q).mp hq
      rw [((h.roots_iff q).mp (List.mem_of_mem_erase hq')).2] at hsource
      exact nomatch hsource
    · exact h.roots_nodup
  · obtain ⟨hold, hne⟩ := (hsome q).mp hq
    obtain ⟨r, hr, hrq⟩ := h.below q hold
    rw [hlinks]
    by_cases hrn : r = n
    · -- the node below the dropped root is a root now
      subst hrn
      rcases Relation.ReflTransGen.cases_head hrq with heq | ⟨z, hz, hzq⟩
      · exact absurd heq.symm hne
      · have hzne : z ≠ r := fun heq => hself (heq ▸ hz)
        refine ⟨z, ?_, (above_drop h hzne hne).mpr hzq⟩
        rw [source_drop_of_ne h hzne, if_pos hz]
        exact hr
    · refine ⟨r, ?_, (above_drop h hrn hne).mpr hrq⟩
      rw [source_drop_of_ne h hrn, hr, if_neg (Option.some_ne_none n).symm]
  · obtain ⟨nodes, hnodes, hcard⟩ := h.counted
    refine ⟨nodes.erase n, fun q => ?_, ?_⟩
    · rw [Finset.mem_erase, hnodes, hsome, and_comm]
    · rw [Finset.card_erase_of_mem ((hnodes n).mpr hn), hcard, hcount]

/-- Dropping a node removes it and keeps the graph consistent. -/
theorem dropNode_spec (h : Consistent g) (hn : (g.nodes n).isSome) (preserveTags : Bool) :
    Dropped g n (g.dropNode n preserveTags) := by
  unfold dropNode
  rcases hsource : g.links.source n with _ | s
  · obtain ⟨hlinks, hsome, hroots, hcount⟩ := links_dropRoot h hn hsource
    apply consistent_of_drop h hn hlinks hsome hcount
    rw [if_pos hsource]
    exact hroots
  · obtain ⟨hlinks, hsome⟩ := links_dropInner h hsource preserveTags
    obtain ⟨hroots, -, hcount⟩ := @dropInner_roots g n s preserveTags
    apply consistent_of_drop h hn hlinks hsome hcount
    rw [if_neg (by rw [hsource]; exact Option.some_ne_none s)]
    exact List.Perm.of_eq hroots

end CVisibleGraph

end TortoiseSvn.RevisionGraph
