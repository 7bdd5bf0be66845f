import TortoiseSvn.RevisionGraph.SearchTreeTraversal

/-!
# Which nodes a search covers

Cached paths are inserted at the root and removed again. As long as no path is inserted that a node
has already, the search for a path finds the sub-tree that holds all nodes at or below it. A second
node for a path stands beside the first one, and the walk through one of them misses the other.

Main result: `covered_of_run`.
-/

namespace TortoiseSvn.RevisionGraph

open TortoiseSvn.Lib TortoiseSvn.LogCache CDictionaryBasedTempPath

namespace CSearchPathTree

variable {t t' : CSearchPathTree} {s : Shape} {n m x : ℕ}

/-! ### Runs -/

/-- No node but the root has the path. -/
def Unused (t : CSearchPathTree) (p : CDictionaryBasedTempPath) : Prop :=
  ∀ n ∈ t.nodes, t.path n = p → n = 0

/-- The trees that insertions of cached paths and removals build. The paths that are inserted meet a
condition. -/
inductive CachedRun (d : CPathDictionary)
    (careful : CSearchPathTree → CDictionaryBasedTempPath → Prop) : CSearchPathTree → Prop
  | init : CachedRun d careful (init d)
  | insert {t t' : CSearchPathTree} {i startrev x : ℕ} : CachedRun d careful t → i < d.size →
      startrev ≠ noRevision → careful t ⟨(i : Index), []⟩ →
      t.insert ⟨(i : Index), []⟩ startrev = .ok (t', x) → CachedRun d careful t'
  | remove {t t' : CSearchPathTree} {n : ℕ} : CachedRun d careful t → n ∈ t.nodes →
      t.remove n = .ok t' → CachedRun d careful t'

/-- The search for path `c` finds a sub-tree that holds all active nodes at or below the path, and the
walk through it visits each of them once, or there is no such node. -/
def Covered (t : CSearchPathTree) (c : ℕ) : Prop :=
  ∃ startNode, t.findCommonParent 0 (c : Index) = .ok startNode ∧
    (t.AtOrBelow c startNode ∧ (∃ l, t.crawl startNode = .ok l ∧
        ∀ n ∈ t.nodes, t.isActive n → t.AtOrBelow c n → l.count n = 1) ∨
      ¬ t.AtOrBelow c startNode ∧ ∀ n ∈ t.nodes, t.isActive n → ¬ t.AtOrBelow c n)

/-- A tree with one node for a path is covered. -/
theorem Single.covered (h : Single t s) {c : ℕ} {cs : List (List UInt8)}
    (hc : t.dictionary.Named c cs) (hlen : cs.length ≤ CPathDictionary.maxPath) : Covered t c := by
  obtain ⟨startNode, hfind, hmem, hanswer⟩ := h.findCommonParent_spec hc hlen
  refine ⟨startNode, hfind, ?_⟩
  rcases hanswer with hnames | hnobody
  · refine Or.inl ⟨?_, ?_⟩
    · rw [h.atOrBelow_iff hc hmem, hnames]
    · obtain ⟨l, hl, hnodup, hvisited⟩ := h.crawl_spec hmem
      refine ⟨l, hl, fun n hn _ hbelow => List.count_eq_one_of_mem hnodup ?_⟩
      rw [hvisited, h.above_iff hmem hn, hnames, ← h.atOrBelow_iff hc hn]
      exact hbelow
  · refine Or.inr ⟨?_, fun n hn _ => ?_⟩
    · rw [h.atOrBelow_iff hc hmem]
      exact hnobody startNode hmem
    · rw [h.atOrBelow_iff hc hn]
      exact hnobody n hn

/-! ### An inactive root -/

section Quiet

theorem insertionPosition_quiet (pathID : Index) (fuel node : ℕ) :
    t.quiet.insertionPosition pathID fuel node = t.insertionPosition pathID fuel node := by
  induction fuel generalizing node with
  | zero => rfl
  | succ fuel ih => simp only [insertionPosition, quiet_path, quiet_next, ih]

theorem linkBetween_quiet (path : CDictionaryBasedTempPath) (startrev parent : ℕ)
    (before behind : Option ℕ) : t.quiet.linkBetween path startrev parent before behind =
      (t.linkBetween path startrev parent before behind).quiet := by
  have hne : (0 : ℕ) ≠ t.freeNode := (Nat.succ_ne_zero _).symm
  have hrevision : Function.update (Function.update t.startRevision 0 noRevision) t.freeNode startrev =
      Function.update (Function.update t.startRevision t.freeNode startrev) 0 noRevision :=
    Function.update_comm hne _ _ _
  show { t.linkBetween path startrev parent before behind with
      startRevision := Function.update (Function.update t.startRevision 0 noRevision) t.freeNode
        startrev } = _
  rw [hrevision]
  rfl

theorem link_quiet (path : CDictionaryBasedTempPath) (startrev parent : ℕ) :
    t.quiet.link path startrev parent = (t.link path startrev parent).map quiet := by
  simp only [link, quiet_path, quiet_nodes, quiet_firstChild, quiet_lastChild, quiet_previous,
    insertionPosition_quiet, linkBetween_quiet]
  cases t.firstChild parent with
  | none => rfl
  | some firstChild =>
    cases t.lastChild parent with
    | none => rfl
    | some lastChild =>
      dsimp only
      split
      · rfl
      · split
        · rfl
        · cases t.insertionPosition path.index (t.nodes.card + 1) firstChild with
          | error e => rfl
          | ok node =>
            dsimp only [bind, Except.bind]
            cases t.previous node with
            | none => rfl
            | some previous => rfl

theorem create_quiet (fuel : ℕ) (path : CDictionaryBasedTempPath) (startrev parent : ℕ) :
    create fuel t.quiet path startrev parent =
      (create fuel t path startrev parent).map fun r => (r.1.quiet, r.2) := by
  induction fuel generalizing path startrev with
  | zero => rfl
  | succ fuel ih =>
    rw [create, create, quiet_dictionary, quiet_path]
    cases path.parentPathID t.dictionary with
    | error e => rfl
    | ok parentPathID =>
      dsimp only [bind, Except.bind]
      split
      · rw [ih]
        cases create fuel t ⟨parentPathID, []⟩ noRevision parent with
        | error e => rfl
        | ok r =>
          dsimp only [Except.map]
          rw [link_quiet]
          cases r.1.link path startrev r.2 with
          | error e => rfl
          | ok t' => rfl
      · rw [link_quiet]
        cases t.link path startrev parent with
        | error e => rfl
        | ok t' => rfl

theorem removeEmpty_quiet (hroot : t.parent 0 = none) (fuel n : ℕ) :
    removeEmpty fuel t.quiet n = (removeEmpty fuel t n).map quiet := by
  induction fuel generalizing t n with
  | zero => rfl
  | succ fuel ih =>
    rw [removeEmpty, removeEmpty, quiet_parent]
    by_cases hn : n = 0
    · -- at the root nothing is deleted
      rw [hn, hroot]
      dsimp only
      rw [ite_self, ite_self]
      rfl
    · have hempty : t.quiet.isEmpty n = t.isEmpty n := by
        have hrevision : t.quiet.startRevision n = t.startRevision n := Function.update_of_ne hn _ _
        rw [isEmpty, isEmpty, isActive, isActive, hrevision, quiet_firstChild]
      rw [hempty]
      split
      · cases t.parent n with
        | none => rfl
        | some parent =>
          have hdelete : t.quiet.deleteLeaf n parent = (t.deleteLeaf n parent).quiet := rfl
          dsimp only
          rw [hdelete]
          refine ih ?_ parent
          show Function.update t.parent n none 0 = none
          rw [Function.update_of_ne (Ne.symm hn)]
          exact hroot
      · rfl

end Quiet

/-! ### Inserting a path that is not used -/

section Insert

variable {i j parent startrev fuel : ℕ} {ns : List (List UInt8)}

/-- A new node is made below a node above the path, no child of which is above the path. -/
def Sought (t : CSearchPathTree) (s : Shape) (j startrev : ℕ) (ns : List (List UInt8))
    (result : Except Fault (CSearchPathTree × ℕ)) : Prop :=
  ∃ n ∈ t.nodes, result = t.newNode ⟨(j : Index), []⟩ startrev n ∧ s.names n <+: ns ∧
    s.names n ≠ ns ∧ ∀ m, t.parent m = some n → ¬ s.names m <+: ns

namespace Single

/-- A child overlaps with a path that is not its own if it is above the path. -/
theorem overlap_iff (h : Single t s) (hj : t.dictionary.Named j ns) (hpre : s.names n <+: ns)
    (hm : t.parent m = some n) (hmj : t.path m ≠ ⟨(j : Index), []⟩) :
    ∃ root, (t.path m).getCommonRoot t.dictionary ⟨(j : Index), []⟩ = .ok root ∧
      (root ≠ t.path n ↔ s.names m <+: ns) := by
  have hbuilt : t.dictionary.Built := h.consistent.built
  obtain ⟨hn, hm'⟩ := h.consistent.mem_nodes n m hm
  obtain ⟨hstrict, hne⟩ := h.consistent.strict n m hm
  obtain ⟨i, hpathN, hi⟩ := h.named hn
  obtain ⟨k, hpathM, hk⟩ := h.named hm'
  have hlevel : (t.path m).parentPathID t.dictionary = .ok (t.path n).index :=
    h.consistent.level n m hm
  have hkj : k ≠ j := by
    rintro rfl
    exact hmj hpathM
  have hdenotes := denotes_cached hi
  have hdenotes' := denotes_cached hk
  rw [hpathM, hpathN] at hlevel
  obtain ⟨root, hroot, habove⟩ := hdenotes.above_of_overlap hdenotes' (denotes_cached hj) hbuilt
    hstrict hne hpre hlevel hkj
  rw [hpathM, hpathN]
  refine ⟨root, hroot, habove, fun hmpre heq => ?_⟩
  -- the common root of a path and one below it is the first path
  obtain ⟨r, rs, hcommon, hr, hrs⟩ := hbuilt.commonRoot hk hj
  have hindex : (⟨(j : Index), []⟩ : CDictionaryBasedTempPath).index ≠ (k : Index) := fun heq =>
    hkj (Nat.cast_injective (R := Index) heq).symm
  rw [getCommonRoot, if_pos hindex] at hroot
  replace hroot : (t.dictionary.commonRoot (k : Index) (j : Index)).map (fun r => (⟨r, []⟩ : _)) =
    .ok root := hroot
  rw [hcommon] at hroot
  have hri := (Except.ok.inj hroot).trans heq
  obtain rfl := Nat.cast_injective (R := Index) (congrArg CDictionaryBasedTempPath.index hri)
  have hback := (hrs (s.names m)).mpr ⟨List.prefix_refl _, hmpre⟩
  rw [hr.unique hi] at hback
  exact hne (hstrict.eq_of_length_le hback.length_le)

/-- The search for a path that no node has ends at a node above the path, no child of which is above
the path. -/
theorem insert_finds (h : Single t s) (hj : t.dictionary.Named j ns)
    (hfresh : ∀ n ∈ t.nodes, s.names n ≠ ns) (startrev fuel : ℕ) :
    (∀ this ∈ t.nodes, s.names this <+: ns → 2 * t.span (s.children this) + 2 ≤ fuel →
      Sought t s j startrev ns (insertAt fuel t this ⟨(j : Index), []⟩ startrev)) ∧
    (∀ this ∈ t.nodes, ∀ front back, s.children this = front ++ back → s.names this <+: ns →
      (∀ m ∈ front, ¬ s.names m <+: ns) → 2 * t.span back + 1 ≤ fuel →
      Sought t s j startrev ns
        (insertBelow fuel t this back.head? ⟨(j : Index), []⟩ startrev)) := by
  have hpath : ∀ n ∈ t.nodes, t.path n ≠ ⟨(j : Index), []⟩ := fun n hn heq =>
    hfresh n hn (h.names_eq hn (congrArg CDictionaryBasedTempPath.index heq) hj)
  induction fuel with
  | zero => exact ⟨fun _ _ _ hfuel => absurd hfuel (by omega),
      fun _ _ _ _ _ _ _ hfuel => absurd hfuel (by omega)⟩
  | succ fuel ih =>
    refine ⟨fun this hthis hpre hfuel => ?_, fun this hthis front back hchildren hpre hfront hfuel => ?_⟩
    · have hfirst : t.firstChild this = (s.children this).head? := (h.consistent.chained this).first
      rw [insertAt, if_neg (hpath this hthis), hfirst]
      exact ih.2 this hthis [] (s.children this) rfl hpre
        (fun m hm => absurd hm List.not_mem_nil) (by omega)
    · cases back with
      | nil =>
        rw [List.head?_nil, insertBelow]
        refine ⟨this, hthis, rfl, hpre, hfresh this hthis, fun m hm => hfront m ?_⟩
        rw [← List.append_nil front, ← hchildren]
        exact (h.consistent.mem_iff this m).mpr hm
      | cons c back =>
        have hchained := h.consistent.chained this
        rw [hchildren] at hchained
        have hnext : t.next c = back.head? := hchained.next_eq
        have hparent := h.parent_of_children hchildren
        obtain ⟨-, hc⟩ := h.consistent.mem_nodes this c hparent
        obtain ⟨root, hroot, hoverlap⟩ := h.overlap_iff hj hpre hparent (hpath c hc)
        have htail : t.span back < t.span (c :: back) := h.consistent.span_tail hchildren
        have hdown : t.span (s.children c) < t.span (c :: back) :=
          h.consistent.span_children hchildren
        rw [List.head?_cons, insertBelow, hroot]
        dsimp only [bind, Except.bind]
        by_cases hcommon : root = t.path this
        · -- no overlap with this child
          rw [if_neg (not_not.mpr hcommon), hnext]
          refine ih.2 this hthis (front ++ [c]) back (by simp [hchildren]) hpre
            (fun m hm => ?_) (by omega)
          rcases List.mem_append.mp hm with hm | hm
          · exact hfront m hm
          · rw [List.mem_singleton.mp hm]
            exact fun hmpre => hoverlap.mpr hmpre hcommon
        · rw [if_pos hcommon, if_neg (hpath c hc)]
          exact ih.1 c hc (hoverlap.mp hcommon) (by omega)

/-- A cached path that no sibling has is linked in at its place. -/
theorem link_spec (h : Single t s) (hparent : parent ∈ t.nodes) (hj : t.dictionary.Named j ns)
    (hpre : s.names parent <+: ns) (hne : s.names parent ≠ ns)
    (hlevel : parentPathID t.dictionary ⟨(j : Index), []⟩ = .ok (t.path parent).index)
    (hfresh : ∀ m, t.parent m = some parent → t.path m ≠ ⟨(j : Index), []⟩) (startrev : ℕ) :
    ∃ t' s', t.link ⟨(j : Index), []⟩ startrev parent = .ok t' ∧ Single t' s' ∧
      ∀ m, t'.parent m ≠ some t.freeNode := by
  have hfree : t.freeNode ∉ t.nodes := freeNode_notMem t
  obtain ⟨front, back, -, -, -, hlink⟩ :=
    h.consistent.link_spec ⟨(j : Index), []⟩ startrev parent
  obtain ⟨t₁, s', hlink', hconsistent, -, -⟩ :=
    h.consistent.link_created hparent (denotes_cached hj) hpre hne hlevel startrev
  obtain rfl := Except.ok.inj (hlink.symm.trans hlink')
  rw [link_quiet] at hlink
  rcases hresult : t.link ⟨(j : Index), []⟩ startrev parent with e | t'
  · rw [hresult] at hlink
    exact nomatch hlink
  rw [hresult] at hlink
  have hquiet := Except.ok.inj hlink
  have hpath : t'.path = Function.update t.path t.freeNode ⟨(j : Index), []⟩ :=
    congrArg CSearchPathTree.path hquiet
  have hparents : t'.parent = Function.update t.parent t.freeNode (some parent) :=
    congrArg CSearchPathTree.parent hquiet
  have hnodes : t'.nodes = Insert.insert t.freeNode t.nodes := congrArg CSearchPathTree.nodes hquiet
  have hold : ∀ {q p}, t.parent q = some p → q ≠ t.freeNode := fun hq heq =>
    hfree (heq ▸ (h.consistent.mem_nodes _ _ hq).2)
  -- the new node is the only child that may have the new path
  have hother : ∀ q, t'.parent q = some parent → q ≠ t.freeNode →
      t'.path q ≠ ⟨(j : Index), []⟩ := by
    intro q hq hne
    rw [hparents, Function.update_of_ne hne] at hq
    rw [hpath, Function.update_of_ne hne]
    exact hfresh q hq
  have hnew : t'.parent t.freeNode = some parent ∧ t'.path t.freeNode = ⟨(j : Index), []⟩ := by
    rw [hparents, hpath]
    exact ⟨Function.update_self _ _ _, Function.update_self _ _ _⟩
  refine ⟨t', s', rfl, ⟨hquiet ▸ hconsistent, fun q hq => ?_, fun n a b ha hb hab => ?_⟩, fun m hm => ?_⟩
  · rw [hnodes] at hq
    rcases Finset.mem_insert.mp hq with rfl | hq
    · rw [hnew.2]
    · rw [hpath, Function.update_of_ne (ne_of_mem_of_not_mem hq hfree)]
      exact h.cached q hq
  · by_cases hax : a = t.freeNode
    · subst hax
      obtain rfl := Option.some.inj (hnew.1.symm.trans ha)
      by_contra hbx
      exact hother b hb (Ne.symm hbx) (hab.symm.trans hnew.2)
    · by_cases hbx : b = t.freeNode
      · subst hbx
        obtain rfl := Option.some.inj (hnew.1.symm.trans hb)
        exact absurd (hab.trans hnew.2) (hother a ha hax)
      · rw [hparents, Function.update_of_ne hax] at ha
        rw [hparents, Function.update_of_ne hbx] at hb
        rw [hpath, Function.update_of_ne hax, Function.update_of_ne hbx] at hab
        exact h.apart n a b ha hb hab
  · by_cases hmx : m = t.freeNode
    · rw [hmx, hnew.1] at hm
      exact hfree (Option.some.inj hm ▸ hparent)
    · rw [hparents, Function.update_of_ne hmx] at hm
      exact hfree (h.consistent.mem_nodes _ _ hm).1

/-- What making a node of a tree with one node for a path gives. -/
theorem created (h : Single t s) (hparent : parent ∈ t.nodes) (hj : t.dictionary.Named j ns)
    (hpre : s.names parent <+: ns) (hne : s.names parent ≠ ns) (hfuel : j < fuel)
    (hcreate : create fuel t ⟨(j : Index), []⟩ startrev parent = .ok (t', x)) :
    Created t.quiet ⟨(j : Index), []⟩ startrev t'.quiet x := by
  obtain ⟨t₁, x₁, s₁, hcreate₁, -, hcreated⟩ := h.consistent.create_spec hparent (denotes_cached hj)
    hpre hne startrev (by rw [if_pos rfl]; exact hfuel)
  rw [create_quiet, hcreate] at hcreate₁
  obtain ⟨rfl, rfl⟩ := Prod.mk.inj (Except.ok.inj hcreate₁)
  exact hcreated

/-- Making a node below a node, no child of which is above the path. -/
theorem create_spec (h : Single t s) (hparent : parent ∈ t.nodes) (hj : t.dictionary.Named j ns)
    (hpre : s.names parent <+: ns) (hne : s.names parent ≠ ns)
    (hbelow : ∀ m, t.parent m = some parent → ¬ s.names m <+: ns) (startrev : ℕ)
    (hfuel : j < fuel) : ∃ t' x s', create fuel t ⟨(j : Index), []⟩ startrev parent = .ok (t', x) ∧
      Single t' s' ∧ ∀ m, t'.parent m ≠ some x := by
  induction fuel generalizing j ns startrev with
  | zero => exact absurd hfuel (Nat.not_lt_zero _)
  | succ fuel ih =>
    have hbuilt : t.dictionary.Built := h.consistent.built
    have hdenotes := denotes_cached hj
    obtain ⟨q, qs, hq, hqn, hqpre, hqne, hmax, -, hlt⟩ := hdenotes.parentPathID hbuilt fun hnil =>
      hne (by rw [hnil] at hpre ⊢; exact List.prefix_nil.mp hpre)
    obtain ⟨i, hpath, hi⟩ := h.named hparent
    have hindex : (t.path parent).index = (i : Index) := by rw [hpath]
    rw [create, hq]
    rcases (denotes_cached hi).parent_level hdenotes hbuilt hpre hne hqn hqpre hmax with
      rfl | ⟨hiq, hpre', hne'⟩
    · -- the node is at the next level
      have hfresh : ∀ m, t.parent m = some parent → t.path m ≠ ⟨(j : Index), []⟩ := by
        intro m hm heq
        have hmem := (h.consistent.mem_nodes parent m hm).2
        refine hbelow m hm ?_
        rw [h.names_eq hmem (congrArg CDictionaryBasedTempPath.index heq) hj]
      obtain ⟨t', s', hlink, hsingle, hchildless⟩ := h.link_spec hparent hj hpre hne
        (hq.trans (by rw [hindex])) hfresh startrev
      refine ⟨t', t.freeNode, s', ?_, hsingle, hchildless⟩
      dsimp only [bind, Except.bind]
      rw [if_neg (by rw [hindex]; exact lt_irrefl _), hlink]
      rfl
    · obtain ⟨t₁, x₁, s₁, hcreate, hsingle₁, hchildless₁⟩ := ih hqn hpre' hne'
        (fun m hm hmpre => hbelow m hm (hmpre.trans hqpre)) noRevision
        ((hlt rfl).trans_le (Nat.le_of_lt_succ hfuel))
      have hcreated := h.created hparent hqn hpre' hne'
        ((hlt rfl).trans_le (Nat.le_of_lt_succ hfuel)) hcreate
      have hmem₁ : x₁ ∈ t₁.nodes := hcreated.mem
      have hdictionary : t₁.dictionary = t.dictionary := hcreated.dictionary
      have hpath₁ : t₁.path x₁ = ⟨(q : Index), []⟩ := hcreated.path
      have hnames : s₁.names x₁ = qs :=
        hsingle₁.names_eq hmem₁ (congrArg CDictionaryBasedTempPath.index hpath₁) (hdictionary ▸ hqn)
      obtain ⟨t', s', hlink, hsingle, hchildless⟩ := hsingle₁.link_spec hmem₁ (hdictionary ▸ hj)
        (hnames ▸ hqpre) (hnames ▸ hqne) (by rw [hdictionary, hq, hpath₁])
        (fun m hm => absurd hm (hchildless₁ m)) startrev
      refine ⟨t', t₁.freeNode, s', ?_, hsingle, hchildless⟩
      dsimp only [bind, Except.bind]
      rw [if_pos (by rw [hindex]; exact_mod_cast hiq), hcreate]
      dsimp only
      rw [hlink]
      rfl

/-- The insertion of a path that no node but the root has. -/
theorem insert (h : Single t s) (htidy : Tidy t.quiet) (hj : j < t.dictionary.size)
    (hrev : startrev ≠ noRevision) (hunused : Unused t ⟨(j : Index), []⟩)
    (hinsert : t.insert ⟨(j : Index), []⟩ startrev = .ok (t', x)) :
    (∃ s', Single t' s') ∧ Tidy t'.quiet ∧ t'.dictionary = t.dictionary := by
  have hbuilt : t.dictionary.Built := h.consistent.built
  have hroot : t.path 0 = ⟨((0 : ℕ) : Index), []⟩ := h.consistent.root_path
  have hmem : 0 ∈ t.nodes := h.consistent.root_mem
  have hzero : s.names 0 = [] := h.consistent.names_zero
  have hcard : 0 < t.nodes.card := Finset.card_pos.mpr ⟨0, hmem⟩
  obtain ⟨ns, hns⟩ := hbuilt.exists_named hj
  rw [CSearchPathTree.insert] at hinsert
  by_cases hjzero : j = 0
  · -- the root is taken into use
    subst hjzero
    obtain ⟨k, hk⟩ := Nat.exists_eq_succ_of_ne_zero (by omega : 2 * t.nodes.card ≠ 0)
    rw [hk, insertAt, if_pos hroot] at hinsert
    obtain ⟨rfl, rfl⟩ := Prod.mk.inj (Except.ok.inj hinsert)
    have hquiet : (t.setStartRevision 0 startrev).quiet = t.quiet := by
      have hrevision : Function.update (Function.update t.startRevision 0 startrev) 0 noRevision =
          Function.update t.startRevision 0 noRevision := Function.update_idem _ _ _
      rw [quiet, quiet, setStartRevision, setStartRevision, setStartRevision, hrevision]
    exact ⟨⟨s, ⟨hquiet ▸ h.consistent, h.cached, h.apart⟩⟩, hquiet ▸ htidy, rfl⟩
  · have hfresh : ∀ n ∈ t.nodes, s.names n ≠ ns := by
      intro n hn heq
      obtain ⟨i, hpath, hi⟩ := h.named hn
      obtain rfl := hbuilt.named_inj (heq ▸ hi) hns
      obtain rfl := hunused n hn hpath
      rw [hroot] at hpath
      exact hjzero (Nat.cast_injective (R := Index)
        (congrArg CDictionaryBasedTempPath.index hpath)).symm
    have hspan : t.span (s.children 0) < t.nodes.card := h.consistent.span_root
    obtain ⟨n, hn, hresult, hpre, hne, hbelow⟩ := (h.insert_finds hns hfresh startrev
      (2 * t.nodes.card)).1 0 hmem (hzero ▸ List.nil_prefix) (by omega)
    obtain ⟨t₁, x₁, s₁, hcreate, hsingle, -⟩ :=
      h.create_spec hn hns hpre hne hbelow startrev (Nat.lt_succ_of_lt hj)
    rw [hresult, newNode, hcreate] at hinsert
    obtain ⟨rfl, rfl⟩ := Prod.mk.inj (Except.ok.inj hinsert)
    have hcreated := h.created hn hns hpre hne (Nat.lt_succ_of_lt hj) hcreate
    exact ⟨⟨s₁, hsingle⟩, hcreated.tidy hrev htidy, hcreated.dictionary⟩

end Single

end Insert

/-! ### Removing -/

/-- Deleting nodes makes no node a child. -/
theorem removeEmpty_parent {fuel : ℕ} (hremove : removeEmpty fuel t n = .ok t') :
    t'.dictionary = t.dictionary ∧ ∀ q p, t'.parent q = some p → t.parent q = some p := by
  induction fuel generalizing t n with
  | zero => cases hremove
  | succ fuel ih =>
    rw [removeEmpty] at hremove
    split at hremove
    · rcases hparent : t.parent n with _ | parent
      · rw [hparent] at hremove
        obtain rfl := Except.ok.inj hremove
        exact ⟨rfl, fun _ _ hq => hq⟩
      · rw [hparent] at hremove
        obtain ⟨hdictionary, hparents⟩ := ih hremove
        refine ⟨hdictionary, fun q p hq => ?_⟩
        have hq' : Function.update t.parent n none q = some p := hparents q p hq
        by_cases hqn : q = n
        · rw [hqn, Function.update_self] at hq'
          cases hq'
        · rw [Function.update_of_ne hqn] at hq'
          exact hq'
    · obtain rfl := Except.ok.inj hremove
      exact ⟨rfl, fun _ _ hq => hq⟩

theorem Single.remove (h : Single t s) (htidy : Tidy t.quiet) (hn : n ∈ t.nodes)
    (hremove : t.remove n = .ok t') :
    (∃ s', Single t' s') ∧ Tidy t'.quiet ∧ t'.dictionary = t.dictionary := by
  let cleared : CSearchPathTree := { t with
    startRevision := Function.update t.startRevision n noRevision
    lastEntry := Function.update t.lastEntry n none }
  replace hremove : removeEmpty t.nodes.card cleared n = .ok t' := hremove
  have hc := h.consistent
  have hinactive : cleared.quiet.startRevision 0 = noRevision := by
    show Function.update cleared.startRevision 0 noRevision 0 = noRevision
    exact Function.update_self 0 noRevision cleared.startRevision
  have hcleared : Consistent cleared.quiet s :=
    ⟨hc.built, hc.root_mem, hc.root_path, hc.root_parent, hinactive, hc.chained, hc.mem_iff,
      hc.mem_nodes, hc.below, hc.sorted, hc.denotes, hc.strict, hc.level⟩
  have hbusy : ∀ q ∈ t.nodes, q ≠ 0 → q ≠ n → cleared.quiet.startRevision q = noRevision →
      t.firstChild q ≠ none := by
    intro q hq hq0 hqn hinactive
    have hkept : cleared.quiet.startRevision q = t.quiet.startRevision q := by
      show Function.update (Function.update t.startRevision n noRevision) 0 noRevision q =
        Function.update t.startRevision 0 noRevision q
      rw [Function.update_of_ne hq0, Function.update_of_ne hqn, Function.update_of_ne hq0]
    exact htidy q hq hq0 (hkept ▸ hinactive)
  obtain ⟨t₁, s', hremove₁, hconsistent, htidy', hpruned⟩ :=
    hcleared.removeEmpty_spec hn hbusy le_rfl
  have hroot : cleared.parent 0 = none := hc.root_parent
  obtain ⟨hdictionary, hparents⟩ := removeEmpty_parent hremove
  rw [removeEmpty_quiet hroot] at hremove₁
  replace hremove₁ : (removeEmpty t.nodes.card cleared n).map quiet = .ok t₁ := hremove₁
  rw [hremove] at hremove₁
  obtain rfl := Except.ok.inj hremove₁
  have hpath : t'.path = t.path := hpruned.path
  refine ⟨⟨s', hconsistent, fun q hq => ?_, fun p a b ha hb hab => ?_⟩, htidy', hdictionary⟩
  · rw [hpath]
    exact h.cached q (hpruned.subset hq)
  · rw [hpath] at hab
    exact h.apart p a b (hparents a p ha) (hparents b p hb) hab

/-! ### What a run covers -/

theorem single_of_run {d : CPathDictionary} (hd : d.Built) (h : CachedRun d Unused t) :
    (∃ s, Single t s) ∧ Tidy t.quiet ∧ t.dictionary = d := by
  induction h with
  | init =>
    have hquiet : (init d).quiet = init d := by
      rw [quiet, setStartRevision]
      exact congrArg (fun r => { init d with startRevision := r }) (Function.update_eq_self 0 _)
    refine ⟨⟨_, hquiet.symm ▸ consistent_init hd, fun _ _ => rfl, nofun⟩, ?_, rfl⟩
    rw [hquiet]
    exact tidy_init d
  | insert _ hi hrev hunused hinsert ih =>
    obtain ⟨⟨s, hsingle⟩, htidy, hdictionary⟩ := ih
    obtain ⟨hsingle', htidy', hdictionary'⟩ :=
      hsingle.insert htidy (hdictionary.symm ▸ hi) hrev hunused hinsert
    exact ⟨hsingle', htidy', hdictionary'.trans hdictionary⟩
  | remove _ hn hremove ih =>
    obtain ⟨⟨s, hsingle⟩, htidy, hdictionary⟩ := ih
    obtain ⟨hsingle', htidy', hdictionary'⟩ := hsingle.remove htidy hn hremove
    exact ⟨hsingle', htidy', hdictionary'.trans hdictionary⟩

/-- **When no path is inserted that a node has already, the search for a path that is not longer than
the array of IDs covers all active nodes at or below the path.** -/
theorem covered_of_run (d : CPathDictionary) (hd : d.Built) (t : CSearchPathTree)
    (h : CachedRun d Unused t) (c : ℕ) (cs : List (List UInt8)) (hc : d.Named c cs)
    (hlen : cs.length ≤ CPathDictionary.maxPath) : Covered t c := by
  obtain ⟨⟨s, hsingle⟩, -, hdictionary⟩ := single_of_run hd h
  exact hsingle.covered (hdictionary.symm ▸ hc) hlen

/-- One path is inserted. -/
theorem covered_of_run_one : ∃ t x, (init twoLevels).insert ⟨((2 : ℕ) : Index), []⟩ 1 = .ok (t, x) ∧
    Covered t 1 := by
  have hpaths : ((init twoLevels).insert ⟨((2 : ℕ) : Index), []⟩ 1).map (fun r => r.2) = .ok 2 := by
    decide
  rcases hinsert : (init twoLevels).insert ⟨((2 : ℕ) : Index), []⟩ 1 with e | ⟨t, x⟩
  · rw [hinsert] at hpaths
    exact nomatch hpaths
  obtain ⟨cs, hc⟩ := built_twoLevels.exists_named (by decide : 1 < twoLevels.size)
  have hlen : cs.length ≤ CPathDictionary.maxPath := by
    obtain ⟨j, js, element, -, hparent, hj, rfl⟩ := hc.parent (by
      rintro rfl
      exact absurd (built_twoLevels.named_inj hc .root) (by decide))
    have hroot : twoLevels.getParent ((1 : ℕ) : Index) = .ok ((0 : ℕ) : Index) := by decide
    obtain rfl := Nat.cast_injective (R := Index) (Except.ok.inj (hparent.symm.trans hroot))
    rw [hj.unique .root, List.nil_append, List.length_singleton]
    decide
  have hunused : Unused (init twoLevels) ⟨((2 : ℕ) : Index), []⟩ := fun n hn _ =>
    Finset.mem_singleton.mp hn
  exact ⟨t, x, rfl, covered_of_run twoLevels built_twoLevels t
    (.insert .init (by decide) (by decide) hunused hinsert) 1 cs hc hlen⟩

/-- A path that is inserted twice has two active nodes, and the walk visits one of them. -/
theorem insert_twice_uncovered : ¬ ∀ d : CPathDictionary, d.Built →
    ∀ t, CachedRun d (fun _ _ => True) t → ∀ c < d.size, Covered t c := by
  intro h
  have hnodes : ((init twoLevels).insert ⟨((1 : ℕ) : Index), []⟩ 1).bind (fun r =>
      (r.1.insert ⟨((1 : ℕ) : Index), []⟩ 2).map fun r' =>
        (decide (1 ∈ r'.1.nodes ∧ 2 ∈ r'.1.nodes), r'.1.isActive 1 && r'.1.isActive 2)) =
      .ok (true, true) := by decide
  have hpaths : ((init twoLevels).insert ⟨((1 : ℕ) : Index), []⟩ 1).bind (fun r =>
      (r.1.insert ⟨((1 : ℕ) : Index), []⟩ 2).map fun r' =>
        (r'.1.dictionary.isSameOrParentOf ((1 : ℕ) : Index) (r'.1.path 1).index,
          r'.1.dictionary.isSameOrParentOf ((1 : ℕ) : Index) (r'.1.path 2).index)) =
      .ok (.ok true, .ok true) := by decide
  have hwalk : ((init twoLevels).insert ⟨((1 : ℕ) : Index), []⟩ 1).bind (fun r =>
      (r.1.insert ⟨((1 : ℕ) : Index), []⟩ 2).map fun r' =>
        (r'.1.findCommonParent 0 ((1 : ℕ) : Index), r'.1.crawl 1)) = .ok (.ok 1, .ok [1]) := by
    decide
  rcases h₁ : (init twoLevels).insert ⟨((1 : ℕ) : Index), []⟩ 1 with e | ⟨t₁, x₁⟩
  · rw [h₁] at hnodes
    exact nomatch hnodes
  rcases h₂ : t₁.insert ⟨((1 : ℕ) : Index), []⟩ 2 with e | ⟨t₂, x₂⟩
  · rw [h₁] at hnodes
    replace hnodes : (t₁.insert ⟨((1 : ℕ) : Index), []⟩ 2).map (fun r' =>
        (decide (1 ∈ r'.1.nodes ∧ 2 ∈ r'.1.nodes), r'.1.isActive 1 && r'.1.isActive 2)) =
      .ok (true, true) := hnodes
    rw [h₂] at hnodes
    exact nomatch hnodes
  rw [h₁] at hnodes hpaths hwalk
  dsimp only [Except.bind] at hnodes hpaths hwalk
  rw [h₂] at hnodes hpaths hwalk
  obtain ⟨hmem, hactive⟩ := Prod.mk.inj (Except.ok.inj hnodes)
  obtain ⟨hbelow, hbelow'⟩ := Prod.mk.inj (Except.ok.inj hpaths)
  obtain ⟨hfind, hcrawl⟩ := Prod.mk.inj (Except.ok.inj hwalk)
  have hrun : CachedRun twoLevels (fun _ _ => True) t₂ :=
    .insert (.insert .init (by decide) (by decide) trivial h₁) (by decide) (by decide) trivial h₂
  obtain ⟨startNode, hstart, hcovered⟩ := h twoLevels built_twoLevels t₂ hrun 1 (by decide)
  obtain rfl := Except.ok.inj (hfind.symm.trans hstart)
  rcases hcovered with ⟨-, l, hl, hcount⟩ | ⟨hnot, -⟩
  · obtain rfl := Except.ok.inj (hcrawl.symm.trans hl)
    have hmissed := hcount 2 (of_decide_eq_true hmem).2 (Bool.and_eq_true_iff.mp hactive).2 hbelow'
    exact absurd hmissed (by decide)
  · exact hnot hbelow

end CSearchPathTree

end TortoiseSvn.RevisionGraph
