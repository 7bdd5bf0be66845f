import TortoiseSvn.RevisionGraph.SearchTreeLinks
import TortoiseSvn.LogCache.PathRuns

/-!
# Runs of the search tree

Paths are inserted at the root, active nodes get entries, and are removed when their path ends. An
insertion is careful when, of the children that it looks at, none is inactive and has the given path,
and none that has the base of the given path stands beside that path.

Main result: `searchTree_of_run`. In a run of careful insertions, the tree stays consistent, and
insertions and removals do what they are meant to do.
-/

namespace TortoiseSvn.RevisionGraph

open TortoiseSvn.Lib TortoiseSvn.LogCache CDictionaryBasedTempPath

namespace CSearchPathTree

variable {t t' : CSearchPathTree} {s : Shape} {n m c this j : ℕ} {p : CDictionaryBasedTempPath}
  {startrev : ℕ} {base ns : List (List UInt8)}

/-! ### Looking for the place of a path -/

/-- While the path `p` is inserted, child `c` of a node is looked at. -/
inductive Meets (t : CSearchPathTree) (p : CDictionaryBasedTempPath) : ℕ → ℕ → Prop
  | root {c : ℕ} : t.firstChild 0 = some c → Meets t p 0 c
  | next {n c c' : ℕ} : Meets t p n c →
      (t.path c).getCommonRoot t.dictionary p = .ok (t.path n) → t.next c = some c' → Meets t p n c'
  | down {n c c' : ℕ} : Meets t p n c →
      (t.path c).getCommonRoot t.dictionary p ≠ .ok (t.path n) → t.path c ≠ p →
      t.firstChild c = some c' → Meets t p c c'

/-- No child that is looked at has the path and is inactive, or has the base of the path without being
above the path. -/
def Clear (t : CSearchPathTree) (p : CDictionaryBasedTempPath) : Prop :=
  ∀ n c, Meets t p n c → (t.path c = p → t.isActive c) ∧
    ((t.path c).index = p.index → (t.path c).relPathElements <+: p.relPathElements)

/-- The nodes at and below the nodes of a list. -/
noncomputable def span (t : CSearchPathTree) (l : List ℕ) : ℕ :=
  {q | ∃ c ∈ l, Above t.parent c q}.ncard

theorem Consistent.finite_span (h : Consistent t s) {l : List ℕ} (hl : ∀ c ∈ l, c ∈ t.nodes) :
    {q | ∃ c ∈ l, Above t.parent c q}.Finite := by
  refine t.nodes.finite_toSet.subset ?_
  rintro q ⟨c, hc, hcq⟩
  rcases hcq.cases_tail with rfl | ⟨z, -, hz⟩
  · exact hl c hc
  · exact (h.mem_nodes z q hz).2

/-- Siblings are not above their parent. -/
theorem Consistent.not_above_this (h : Consistent t s) (hc : c ∈ s.children n) :
    ¬ Above t.parent c n := by
  have hparent := (h.mem_iff n c).mp hc
  exact not_above_parent h.root_parent (h.below n (h.mem_nodes n c hparent).1) hparent

theorem Consistent.span_tail (h : Consistent t s) {front back : List ℕ}
    (hchildren : s.children n = front ++ c :: back) : t.span back < t.span (c :: back) := by
  have hmem : ∀ b ∈ c :: back, b ∈ s.children n := fun b hb =>
    hchildren ▸ List.mem_append_right front hb
  have hnodup := (h.chained n).nodup
  rw [hchildren] at hnodup
  refine Set.ncard_lt_ncard ⟨?_, fun hall => ?_⟩
    (h.finite_span fun b hb => h.children_mem (hmem b hb))
  · rintro q ⟨b, hb, hbq⟩
    exact ⟨b, List.mem_cons_of_mem c hb, hbq⟩
  · obtain ⟨b, hb, hbc⟩ := hall ⟨c, List.mem_cons_self, Above.refl _ c⟩
    rcases hbc.cases_tail with rfl | ⟨z, hz, hparent⟩
    · exact (List.nodup_cons.mp (List.nodup_append'.mp hnodup).2.1).1 hb
    · obtain rfl := Option.some.inj
        (hparent.symm.trans ((h.mem_iff n c).mp (hmem c List.mem_cons_self)))
      exact h.not_above_this (hmem b (List.mem_cons_of_mem c hb)) hz

theorem Consistent.span_children (h : Consistent t s) {front back : List ℕ}
    (hchildren : s.children n = front ++ c :: back) :
    t.span (s.children c) < t.span (c :: back) := by
  have hmem : ∀ b ∈ c :: back, b ∈ s.children n := fun b hb =>
    hchildren ▸ List.mem_append_right front hb
  refine Set.ncard_lt_ncard ⟨?_, fun hall => ?_⟩
    (h.finite_span fun b hb => h.children_mem (hmem b hb))
  · rintro q ⟨b, hb, hbq⟩
    exact ⟨c, List.mem_cons_self, (Above.single ((h.mem_iff c b).mp hb)).trans hbq⟩
  · obtain ⟨b, hb, hbc⟩ := hall ⟨c, List.mem_cons_self, Above.refl _ c⟩
    exact h.not_above_this hb hbc

/-- Not all nodes are below the root. -/
theorem Consistent.span_root (h : Consistent t s) : t.span (s.children 0) < t.nodes.card := by
  rw [span, ← Set.ncard_coe_finset]
  refine Set.ncard_lt_ncard ⟨?_, fun hall => ?_⟩ t.nodes.finite_toSet
  · rintro q ⟨c, hc, hcq⟩
    rcases hcq.cases_tail with rfl | ⟨z, -, hz⟩
    · exact h.children_mem hc
    · exact (h.mem_nodes z q hz).2
  · obtain ⟨c, hc, hcq⟩ := hall h.root_mem
    exact h.not_above_this hc hcq

/-- The place of a path is below a node that is strictly above it. -/
def Found (t : CSearchPathTree) (s : Shape) (p : CDictionaryBasedTempPath) (startrev : ℕ)
    (ns : List (List UInt8)) (result : Except Fault (CSearchPathTree × ℕ)) : Prop :=
  ∃ n ∈ t.nodes, result = t.newNode p startrev n ∧ s.names n <+: ns ∧ s.names n ≠ ns

/-- A child that overlaps with the path and differs from it is strictly above it. -/
theorem Consistent.overlap (h : Consistent t s) (hp : Denotes t.dictionary p j base ns)
    (hclear : Clear t p) (hpre : s.names this <+: ns) (hc : t.parent c = some this)
    (hmeets : Meets t p this c) :
    ∃ root, (t.path c).getCommonRoot t.dictionary p = .ok root ∧
      (root ≠ t.path this → t.path c ≠ p → s.names c <+: ns ∧ s.names c ≠ ns) := by
  obtain ⟨hthis, hcmem⟩ := h.mem_nodes this c hc
  obtain ⟨i, base', hdenotes⟩ := h.denotes this hthis
  obtain ⟨k, base'', hdenotes'⟩ := h.denotes c hcmem
  obtain ⟨hstrict, hne⟩ := h.strict this c hc
  have hdiffer : t.path c ≠ p → s.names c ≠ ns := fun hcp heq =>
    hcp (hdenotes'.unique (heq ▸ hp) h.built).1
  by_cases hkj : k = j
  · refine ⟨t.path c, getCommonRoot_of_same (by rw [hdenotes'.index, hp.index, hkj]),
      fun _ hcp => ⟨?_, hdiffer hcp⟩⟩
    subst hkj
    obtain rfl := hdenotes'.named.unique hp.named
    rw [hdenotes'.names, hp.names, List.prefix_append_right_inj]
    exact (hclear this c hmeets).2 (hdenotes'.index.trans hp.index.symm)
  · obtain ⟨root, hroot, habove⟩ := hdenotes.above_of_overlap hdenotes' hp h.built hstrict hne hpre
      (by rw [h.level this c hc, hdenotes.index]) hkj
    exact ⟨root, hroot, fun hne hcp => ⟨habove hne, hdiffer hcp⟩⟩

/-- The search ends, and finds the place of the path. -/
theorem Consistent.insert_finds (h : Consistent t s) (hp : Denotes t.dictionary p j base ns)
    (hclear : Clear t p) (startrev fuel : ℕ) :
    (∀ this ∈ t.nodes, s.names this <+: ns → s.names this ≠ ns →
      (∀ c, t.firstChild this = some c → Meets t p this c) →
      2 * t.span (s.children this) + 2 ≤ fuel →
      Found t s p startrev ns (insertAt fuel t this p startrev)) ∧
    (∀ this ∈ t.nodes, ∀ front back, s.children this = front ++ back → s.names this <+: ns →
      s.names this ≠ ns → (∀ c, back.head? = some c → Meets t p this c) →
      2 * t.span back + 1 ≤ fuel →
      Found t s p startrev ns (insertBelow fuel t this back.head? p startrev)) := by
  induction fuel with
  | zero => exact ⟨fun _ _ _ _ _ hfuel => absurd hfuel (by omega),
      fun _ _ _ _ _ _ _ _ hfuel => absurd hfuel (by omega)⟩
  | succ fuel ih =>
    refine ⟨fun this hthis hpre hne hmeets hfuel => ?_,
      fun this hthis front back hchildren hpre hne hmeets hfuel => ?_⟩
    · obtain ⟨i, base', hdenotes⟩ := h.denotes this hthis
      rw [insertAt, if_neg fun heq => hne (hdenotes.names_unique (heq ▸ hp)),
        (h.chained this).first]
      refine ih.2 this hthis [] (s.children this) rfl hpre hne (fun c hc => hmeets c ?_) (by omega)
      rw [(h.chained this).first, hc]
    · cases back with
      | nil =>
        rw [List.head?_nil, insertBelow]
        exact ⟨this, hthis, rfl, hpre, hne⟩
      | cons c back =>
        have hchained := h.chained this
        rw [hchildren] at hchained
        have hmem : c ∈ s.children this := hchildren ▸ List.mem_append_right _ List.mem_cons_self
        have hmeets' := hmeets c rfl
        obtain ⟨root, hroot, hoverlap⟩ := h.overlap hp hclear hpre ((h.mem_iff this c).mp hmem) hmeets'
        have htail := h.span_tail hchildren
        have hdown := h.span_children hchildren
        rw [List.head?_cons, insertBelow, hroot]
        dsimp only [bind, Except.bind]
        by_cases hcommon : root = t.path this
        · -- no overlap with this child
          rw [if_neg (not_not.mpr hcommon), hchained.next_eq]
          refine ih.2 this hthis (front ++ [c]) back (by simp [hchildren]) hpre hne
            (fun c' hc' => ?_) (by omega)
          exact hmeets'.next (hroot.trans (by rw [hcommon])) (hchained.next_eq.trans hc')
        · rw [if_pos hcommon]
          by_cases hcp : t.path c = p
          · have hactive := (hclear this c hmeets').1 hcp
            rw [isActive, decide_eq_true_eq] at hactive
            rw [if_pos hcp, if_neg hactive]
            exact ⟨this, hthis, rfl, hpre, hne⟩
          · obtain ⟨hpre', hne'⟩ := hoverlap hcommon hcp
            rw [if_neg hcp]
            refine ih.1 c (h.children_mem hmem) hpre' hne' (fun c' hc' => ?_) (by omega)
            refine hmeets'.down (fun heq => hcommon ?_) hcp hc'
            exact Except.ok.inj (hroot.symm.trans heq)

/-! ### Inserting -/

/-- The nodes that are active. -/
def activeNodes (t : CSearchPathTree) : Finset ℕ := t.nodes.filter fun n => t.isActive n

theorem mem_activeNodes : n ∈ t.activeNodes ↔ n ∈ t.nodes ∧ t.startRevision n ≠ noRevision := by
  rw [activeNodes, Finset.mem_filter, isActive, decide_eq_true_eq]

/-- All inactive nodes but the root have children. -/
def Tidy (t : CSearchPathTree) : Prop :=
  ∀ n ∈ t.nodes, n ≠ 0 → t.startRevision n = noRevision → t.firstChild n ≠ none

/-- Node `n` is still there, with all that the search tree knows about its path. -/
def Same (t : CSearchPathTree) (n : ℕ) (t' : CSearchPathTree) : Prop :=
  n ∈ t'.nodes ∧ t'.path n = t.path n ∧ t'.startRevision n = t.startRevision n ∧
    t'.lastEntry n = t.lastEntry n

theorem Created.activeNodes (h : Created t p startrev t' n) (hrev : startrev ≠ noRevision) :
    t'.activeNodes = Insert.insert n t.activeNodes := by
  ext q
  rw [Finset.mem_insert, mem_activeNodes, mem_activeNodes]
  constructor
  · rintro ⟨hq, hactive⟩
    by_cases hold : q ∈ t.nodes
    · rw [(h.kept q hold).2.1] at hactive
      exact Or.inr ⟨hold, hactive⟩
    · by_contra hnot
      exact hactive (h.levels q hq hold fun heq => hnot (Or.inl heq)).1
  · rintro (rfl | ⟨hq, hactive⟩)
    · exact ⟨h.mem, by rw [h.startRevision]; exact hrev⟩
    · exact ⟨h.subset hq, by rw [(h.kept q hq).2.1]; exact hactive⟩

theorem Created.tidy (h : Created t p startrev t' n) (hrev : startrev ≠ noRevision)
    (htidy : Tidy t) : Tidy t' := by
  intro q hq hroot hinactive
  by_cases hold : q ∈ t.nodes
  · rw [(h.kept q hold).2.1] at hinactive
    exact h.busy q hold (htidy q hold hroot hinactive)
  · refine (h.levels q hq hold ?_).2
    rintro rfl
    exact hrev (h.startRevision.symm.trans hinactive)

/-- A careful insertion makes a new node for the path. -/
theorem Consistent.insert_spec (h : Consistent t s) (hp : Denotes t.dictionary p j base ns)
    (hns : ns ≠ []) (hclear : Clear t p) (startrev : ℕ) :
    ∃ t' x s', t.insert p startrev = .ok (t', x) ∧ Consistent t' s' ∧
      Created t p startrev t' x := by
  have hzero := h.names_zero
  have hspan := h.span_root
  obtain ⟨n, hn, hresult, hpre, hne⟩ := (h.insert_finds hp hclear startrev (2 * t.nodes.card)).1 0
    h.root_mem (hzero ▸ List.nil_prefix) (fun heq => hns (heq.symm.trans hzero))
    (fun c hc => .root hc) (by omega)
  obtain ⟨t', x, s', hnew, hconsistent, hcreated⟩ := h.newNode_spec hn hp hpre hne startrev
  exact ⟨t', x, s', hresult.trans hnew, hconsistent, hcreated⟩

/-! ### Removing -/

/-- What removing empty nodes leaves. -/
structure Pruned (t t' : CSearchPathTree) : Prop where
  subset : t'.nodes ⊆ t.nodes
  kept : ∀ q ∈ t.nodes, t.startRevision q ≠ noRevision → q ∈ t'.nodes
  path : t'.path = t.path
  startRevision : t'.startRevision = t.startRevision
  lastEntry : t'.lastEntry = t.lastEntry

theorem Pruned.refl (t : CSearchPathTree) : Pruned t t :=
  ⟨Finset.Subset.refl _, fun _ hq _ => hq, rfl, rfl, rfl⟩

/-- Empty nodes are deleted upwards, until all inactive nodes have children again. -/
theorem Consistent.removeEmpty_spec (h : Consistent t s) (hn : n ∈ t.nodes)
    (htidy : ∀ q ∈ t.nodes, q ≠ 0 → q ≠ n → t.startRevision q = noRevision → t.firstChild q ≠ none)
    {fuel : ℕ} (hfuel : t.nodes.card ≤ fuel) :
    ∃ t' s', removeEmpty fuel t n = .ok t' ∧ Consistent t' s' ∧ Tidy t' ∧ Pruned t t' := by
  induction fuel generalizing t s n with
  | zero => exact absurd (Finset.card_pos.mpr ⟨n, hn⟩) (Nat.not_lt.mpr hfuel)
  | succ fuel ih =>
    rw [removeEmpty]
    by_cases hempty : t.isEmpty n
    · rw [if_pos hempty]
      rw [isEmpty, Bool.and_eq_true, Option.isNone_iff_eq_none, isActive, Bool.not_eq_true',
        decide_eq_false_iff_not, not_not] at hempty
      rcases hparent : t.parent n with _ | parent
      · -- the root stays
        obtain rfl := (h.below n hn).eq_of_root hparent
        exact ⟨t, s, rfl, h, fun q hq hroot => htidy q hq hroot hroot, Pruned.refl t⟩
      · obtain ⟨s₁, hs₁⟩ := h.deleteLeaf hparent hempty.2
        obtain ⟨hmem, -⟩ := h.mem_nodes parent n hparent
        have hne : parent ≠ n := by
          rintro rfl
          exact h.not_above_this ((h.mem_iff parent parent).mpr hparent) (Above.refl _ _)
        obtain ⟨t', s', hremove, hconsistent, htidy', hpruned⟩ := ih hs₁
          (Finset.mem_erase.mpr ⟨hne, hmem⟩)
          (fun q hq hroot hqp hinactive => by
            obtain ⟨hqn, hq⟩ := Finset.mem_erase.mp hq
            show (if q = parent ∧ _ then _ else _) ≠ none
            rw [if_neg fun hand => hqp hand.1]
            exact htidy q hq hroot hqn hinactive)
          (by
            show (t.nodes.erase n).card ≤ fuel
            rw [Finset.card_erase_of_mem hn]
            omega)
        refine ⟨t', s', hremove, hconsistent, htidy', hpruned.subset.trans (Finset.erase_subset _ _),
          fun q hq hactive => hpruned.kept q (Finset.mem_erase.mpr ⟨?_, hq⟩) hactive, hpruned.path,
          hpruned.startRevision, hpruned.lastEntry⟩
        rintro rfl
        exact hactive hempty.1
    · rw [if_neg hempty]
      refine ⟨t, s, rfl, h, fun q hq hroot hinactive hchild => ?_, Pruned.refl t⟩
      by_cases hqn : q = n
      · refine hempty ?_
        rw [isEmpty, isActive, ← hqn, hinactive, hchild]
        rfl
      · exact htidy q hq hroot hqn hinactive hchild

/-- Removing an active node deactivates it and deletes empty nodes. -/
theorem Consistent.remove_spec (h : Consistent t s) (hn : n ∈ t.activeNodes) (htidy : Tidy t) :
    ∃ t' s', t.remove n = .ok t' ∧ Consistent t' s' ∧ Tidy t' ∧
      t'.activeNodes = t.activeNodes.erase n ∧ ∀ q ∈ t.activeNodes, q ≠ n → Same t q t' := by
  obtain ⟨hmem, hactive⟩ := mem_activeNodes.mp hn
  have hroot : (0 : ℕ) ≠ n := by
    rintro rfl
    exact hactive h.root_inactive
  have hcleared : Consistent { t with
      startRevision := Function.update t.startRevision n noRevision
      lastEntry := Function.update t.lastEntry n none } s :=
    ⟨h.built, h.root_mem, h.root_path, h.root_parent, by
      show Function.update t.startRevision n noRevision 0 = _
      rw [Function.update_of_ne hroot]
      exact h.root_inactive, h.chained, h.mem_iff, h.mem_nodes, h.below, h.sorted, h.denotes,
      h.strict, h.level⟩
  obtain ⟨t', s', hremove, hconsistent, htidy', hpruned⟩ := hcleared.removeEmpty_spec hmem
    (fun q hq hq0 hqn hinactive => by
      replace hinactive : Function.update t.startRevision n noRevision q = noRevision := hinactive
      rw [Function.update_of_ne hqn] at hinactive
      exact htidy q hq hq0 hinactive) le_rfl
  have hrevision : ∀ q, q ≠ n → t'.startRevision q = t.startRevision q := fun q hqn => by
    rw [hpruned.startRevision]
    exact Function.update_of_ne hqn _ _
  have hkept : ∀ q ∈ t.activeNodes, q ≠ n → q ∈ t'.nodes := fun q hq hqn => by
    obtain ⟨hq, hactive⟩ := mem_activeNodes.mp hq
    refine hpruned.kept q hq ?_
    show Function.update t.startRevision n noRevision q ≠ _
    rw [Function.update_of_ne hqn]
    exact hactive
  refine ⟨t', s', hremove, hconsistent, htidy', ?_, fun q hq hqn => ⟨hkept q hq hqn, ?_,
    hrevision q hqn, ?_⟩⟩
  · ext q
    rw [Finset.mem_erase]
    constructor
    · intro hq
      obtain ⟨hq, hq'⟩ := mem_activeNodes.mp hq
      have hqn : q ≠ n := by
        rintro rfl
        rw [hpruned.startRevision] at hq'
        exact hq' (Function.update_self _ _ _)
      rw [hrevision q hqn] at hq'
      exact ⟨hqn, mem_activeNodes.mpr ⟨hpruned.subset hq, hq'⟩⟩
    · rintro ⟨hqn, hq⟩
      refine mem_activeNodes.mpr ⟨hkept q hq hqn, ?_⟩
      rw [hrevision q hqn]
      exact (mem_activeNodes.mp hq).2
  · rw [hpruned.path]
  · rw [hpruned.lastEntry]
    exact Function.update_of_ne hqn _ _

/-! ### Runs -/

/-- The operations on a search tree. -/
inductive Op
  | insert (p : CDictionaryBasedTempPath) (startrev : ℕ)
  | remove (n : ℕ)
  | chainEntries (n entry revision : ℕ)

/-- When an operation may be called: paths other than the root, with the longest base that is cached,
are inserted from a revision on, and only active nodes are used. -/
def Permitted (t : CSearchPathTree) : Op → Prop
  | .insert p startrev => (∃ i base ns, Denotes t.dictionary p i base ns ∧ ns ≠ []) ∧
      startrev ≠ noRevision
  | .remove n => n ∈ t.activeNodes
  | .chainEntries n _ revision => n ∈ t.activeNodes ∧ revision ≠ noRevision

/-- When an insertion meets no node that misleads it. -/
def Careful (t : CSearchPathTree) : Op → Prop
  | .insert p _ => Clear t p
  | _ => True

/-- Run an operation; the result is the new tree and the node. -/
def apply (t : CSearchPathTree) : Op → Except Fault (CSearchPathTree × ℕ)
  | .insert p startrev => t.insert p startrev
  | .remove n => (t.remove n).map fun t' => (t', n)
  | .chainEntries n entry revision => .ok (t.chainEntries n entry revision, n)

/-- What an operation does. -/
def Effect (t : CSearchPathTree) : Op → CSearchPathTree → ℕ → Prop
  | .insert p startrev, t', x => x ∈ t'.nodes ∧ t'.path x = p ∧ t'.startRevision x = startrev ∧
      t'.activeNodes.card = t.activeNodes.card + 1 ∧ ∀ q ∈ t.activeNodes, Same t q t'
  | .remove n, t', _ => t'.activeNodes.card + 1 = t.activeNodes.card ∧
      (∀ m ∈ t'.nodes, Above t.parent m n → m ≠ 0 → t'.isActive m ∨ t'.firstChild m ≠ none) ∧
      ∀ q ∈ t.activeNodes, q ≠ n → Same t q t'
  | .chainEntries n entry _, t', _ => t'.lastEntry n = some entry ∧
      t'.activeNodes = t.activeNodes ∧ ∀ q ∈ t.activeNodes, q ≠ n → Same t q t'

/-- The trees that operations build from a root alone. -/
inductive Run (d : CPathDictionary) (careful : CSearchPathTree → Op → Prop) :
    CSearchPathTree → Prop
  | init : Run d careful (init d)
  | step {t t' : CSearchPathTree} {op : Op} {x : ℕ} : Run d careful t → Permitted t op →
      careful t op → t.apply op = .ok (t', x) → Run d careful t'

theorem consistent_init {d : CPathDictionary} (hd : d.Built) :
    Consistent (init d) ⟨fun _ => [], fun _ => []⟩ := by
  refine ⟨hd, Finset.mem_singleton_self 0, rfl, rfl, rfl, fun _ => Chained.nil _ _, ?_, nofun, ?_,
    fun _ => List.Pairwise.nil, fun n _ => ⟨0, [], denotes_cached .root⟩, nofun, nofun⟩
  · exact fun n m => iff_of_false List.not_mem_nil nofun
  · intro n hn
    rw [Finset.mem_singleton.mp hn]
    exact Above.refl _ 0

theorem tidy_init (d : CPathDictionary) : Tidy (init d) := fun _ hn hroot =>
  absurd (Finset.mem_singleton.mp hn) hroot

/-- New entries for an active node. -/
theorem Consistent.chainEntries (h : Consistent t s) (htidy : Tidy t) (hn : n ∈ t.activeNodes)
    (entry : ℕ) {revision : ℕ} (hrev : revision ≠ noRevision) :
    Consistent (t.chainEntries n entry revision) s ∧ Tidy (t.chainEntries n entry revision) ∧
      (t.chainEntries n entry revision).activeNodes = t.activeNodes ∧
      ∀ q ∈ t.activeNodes, q ≠ n → Same t q (t.chainEntries n entry revision) := by
  obtain ⟨-, hactive⟩ := mem_activeNodes.mp hn
  have hother : ∀ q, q ≠ n → (t.chainEntries n entry revision).startRevision q =
      t.startRevision q := fun q hq => Function.update_of_ne hq _ _
  have hroot : (0 : ℕ) ≠ n := by
    rintro rfl
    exact hactive h.root_inactive
  have hself : (t.chainEntries n entry revision).startRevision n ≠ noRevision := by
    rw [show (t.chainEntries n entry revision).startRevision n = max (t.startRevision n) revision
      from Function.update_self _ _ _]
    rcases max_choice (t.startRevision n) revision with hmax | hmax
    · rw [hmax]
      exact hactive
    · rw [hmax]
      exact hrev
  refine ⟨⟨h.built, h.root_mem, h.root_path, h.root_parent, (hother 0 hroot).trans h.root_inactive,
    h.chained, h.mem_iff, h.mem_nodes, h.below, h.sorted, h.denotes, h.strict, h.level⟩,
    fun q hq hq0 hinactive => ?_, ?_, fun q hq hqn => ⟨(mem_activeNodes.mp hq).1, rfl, hother q hqn,
    Function.update_of_ne hqn _ _⟩⟩
  · by_cases hqn : q = n
    · rw [hqn] at hinactive
      exact absurd hinactive hself
    · rw [hother q hqn] at hinactive
      exact htidy q hq hq0 hinactive
  · ext q
    rw [mem_activeNodes, mem_activeNodes]
    by_cases hqn : q = n
    · rw [hqn]
      exact and_congr_right fun _ => iff_of_true hself hactive
    · rw [hother q hqn]
      exact Iff.rfl

/-- One careful operation. -/
theorem Consistent.apply_spec (h : Consistent t s) (htidy : Tidy t) (op : Op)
    (hpermitted : Permitted t op) (hcareful : Careful t op) :
    ∃ t' x s', t.apply op = .ok (t', x) ∧ Consistent t' s' ∧ Tidy t' ∧ Effect t op t' x := by
  cases op with
  | insert p startrev =>
    obtain ⟨⟨i, base, ns, hp, hns⟩, hrev⟩ := hpermitted
    obtain ⟨t', x, s', hinsert, hconsistent, hcreated⟩ := h.insert_spec hp hns hcareful startrev
    refine ⟨t', x, s', hinsert, hconsistent, hcreated.tidy hrev htidy, hcreated.mem, hcreated.path,
      hcreated.startRevision, ?_, fun q hq => ?_⟩
    · rw [hcreated.activeNodes hrev, Finset.card_insert_of_notMem]
      exact fun hx => hcreated.notMem (mem_activeNodes.mp hx).1
    · have hq := (mem_activeNodes.mp hq).1
      exact ⟨hcreated.subset hq, hcreated.kept q hq⟩
  | remove n =>
    obtain ⟨t', s', hremove, hconsistent, htidy', hactive, hsame⟩ := h.remove_spec hpermitted htidy
    refine ⟨t', n, s', by rw [apply, hremove]; rfl, hconsistent, htidy', ?_, fun m hm _ hm0 => ?_,
      hsame⟩
    · rw [hactive]
      exact Finset.card_erase_add_one hpermitted
    · by_cases hinactive : t'.startRevision m = noRevision
      · exact Or.inr (htidy' m hm hm0 hinactive)
      · exact Or.inl (decide_eq_true hinactive)
  | chainEntries n entry revision =>
    obtain ⟨hconsistent, htidy', hactive, hsame⟩ :=
      h.chainEntries htidy hpermitted.1 entry hpermitted.2
    exact ⟨_, n, s, rfl, hconsistent, htidy', Function.update_self _ _ _, hactive, hsame⟩

theorem consistent_of_run {d : CPathDictionary} (hd : d.Built) (h : Run d Careful t) :
    ∃ s, Consistent t s ∧ Tidy t := by
  induction h with
  | init => exact ⟨_, consistent_init hd, tidy_init d⟩
  | step _ hpermitted hcareful happly ih =>
    obtain ⟨s, hconsistent, htidy⟩ := ih
    obtain ⟨t', x, s', happly', hconsistent', htidy', -⟩ :=
      hconsistent.apply_spec htidy _ hpermitted hcareful
    obtain ⟨rfl, rfl⟩ := Prod.mk.inj (Except.ok.inj (happly.symm.trans happly'))
    exact ⟨s', hconsistent', htidy'⟩

/-- **In a run of careful insertions the search tree stays consistent, and every careful operation
ends and does what it is meant to do.** -/
theorem searchTree_of_run (d : CPathDictionary) (hd : d.Built) (t : CSearchPathTree)
    (h : Run d Careful t) : (∃ s, Consistent t s) ∧ ∀ op, Permitted t op → Careful t op →
      ∃ t' x, t.apply op = .ok (t', x) ∧ (∃ s', Consistent t' s') ∧ Effect t op t' x := by
  obtain ⟨s, hconsistent, htidy⟩ := consistent_of_run hd h
  refine ⟨⟨s, hconsistent⟩, fun op hpermitted hcareful => ?_⟩
  obtain ⟨t', x, s', happly, hconsistent', -, heffect⟩ :=
    hconsistent.apply_spec htidy op hpermitted hcareful
  exact ⟨t', x, happly, ⟨s', hconsistent'⟩, heffect⟩

/-- The dictionary with the paths `/a` and `/a/b`. -/
def twoLevels : CPathDictionary :=
  ((CPathDictionary.init.autoInsert (0 : ℕ) [97]).1.autoInsert (1 : ℕ) [98]).1

theorem built_twoLevels : twoLevels.Built :=
  (CPathDictionary.Run.autoInsert (.autoInsert .init (by decide) (by decide)) (by decide)
    (by decide)).built

theorem denotes_twoLevels {i : ℕ} (hpos : 0 < i) (hi : i < twoLevels.size) :
    ∃ j base ns, Denotes twoLevels ⟨(i : Index), []⟩ j base ns ∧ ns ≠ [] := by
  obtain ⟨ns, hns⟩ := built_twoLevels.exists_named hi
  refine ⟨i, ns, ns, denotes_cached hns, ?_⟩
  rintro rfl
  exact hpos.ne' (built_twoLevels.named_inj hns .root)

/-- The first path of a tree. -/
theorem searchTree_of_run_first : ∃ t' x,
    (init twoLevels).apply (.insert ⟨(2 : ℕ), []⟩ 1) = .ok (t', x) ∧ (∃ s', Consistent t' s') ∧
      Effect (init twoLevels) (.insert ⟨(2 : ℕ), []⟩ 1) t' x := by
  refine (searchTree_of_run twoLevels built_twoLevels _ .init).2 _
    ⟨denotes_twoLevels (by decide) (by decide), by decide⟩ fun n c hmeets => ?_
  -- no child is looked at
  have hnone : ∀ {n c}, Meets (init twoLevels) ⟨(2 : ℕ), []⟩ n c → False := by
    intro n c hmeets
    induction hmeets with
    | root hc => exact nomatch hc
    | next _ _ _ ih => exact ih
    | down _ _ _ _ ih => exact ih
  exact (hnone hmeets).elim

/-- A path that is inserted after one below it gets two active nodes. -/
theorem insert_adds_two : ¬ ∀ d : CPathDictionary, d.Built → ∀ t, Run d (fun _ _ => True) t →
    (∃ s, Consistent t s) ∧ ∀ op, Permitted t op →
      ∃ t' x, t.apply op = .ok (t', x) ∧ (∃ s', Consistent t' s') ∧ Effect t op t' x := by
  intro h
  have hpermitted : Permitted (init twoLevels) (.insert ⟨(2 : ℕ), []⟩ 1) :=
    ⟨denotes_twoLevels (by decide) (by decide), by decide⟩
  obtain ⟨t₁, x₁, h₁, -, -⟩ := (h twoLevels built_twoLevels _ .init).2 _ hpermitted
  have hdictionary : ((init twoLevels).apply (.insert ⟨(2 : ℕ), []⟩ 1)).map
      (fun r => r.1.dictionary) = .ok twoLevels := by decide
  have hcount : ((init twoLevels).apply (.insert ⟨(2 : ℕ), []⟩ 1)).bind
      (fun r => (r.1.apply (.insert ⟨(1 : ℕ), []⟩ 2)).map fun r' =>
        (r.1.activeNodes.card, r'.1.activeNodes.card)) = .ok (1, 3) := by decide
  rw [h₁] at hdictionary hcount
  replace hdictionary : t₁.dictionary = twoLevels := Except.ok.inj hdictionary
  have hrun : Run twoLevels (fun _ _ => True) t₁ := .step .init hpermitted trivial h₁
  obtain ⟨t₂, x₂, h₂, -, -, -, -, hcard, -⟩ := (h twoLevels built_twoLevels t₁ hrun).2
    (.insert ⟨(1 : ℕ), []⟩ 2) ⟨by
      rw [hdictionary]
      exact denotes_twoLevels (by decide) (by decide), by decide⟩
  replace hcount : ((t₁.apply (.insert ⟨(1 : ℕ), []⟩ 2)).map fun r' =>
    (t₁.activeNodes.card, r'.1.activeNodes.card)) = .ok (1, 3) := hcount
  rw [h₂] at hcount
  obtain ⟨hone, hthree⟩ := Prod.mk.inj (Except.ok.inj hcount)
  dsimp only at hone hthree
  rw [hone, hthree] at hcard
  exact absurd hcard (by decide)

end CSearchPathTree

end TortoiseSvn.RevisionGraph
