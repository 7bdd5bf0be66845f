import TortoiseSvn.RevisionGraph.SearchPathTree

/-!
# Consistent search trees

`Consistent` is the invariant of the search tree: every node is below the root, children are below
their parent's path at the next level, and lists of children are doubly linked in the order of the
base path IDs. It is kept when a node is linked in at its place, and when a leaf is deleted.

Main results: `create_spec` and `Consistent.deleteLeaf`.
-/

namespace TortoiseSvn.RevisionGraph

open TortoiseSvn.Lib TortoiseSvn.LogCache CDictionaryBasedTempPath

namespace CSearchPathTree

/-- The children of all nodes and the names of their paths. -/
structure Shape where
  children : ℕ → List ℕ
  names : ℕ → List (List UInt8)

/-- A search tree with children and names. -/
structure Consistent (t : CSearchPathTree) (s : Shape) : Prop where
  built : t.dictionary.Built
  root_mem : 0 ∈ t.nodes
  root_path : t.path 0 = ⟨(0 : ℕ), []⟩
  root_parent : t.parent 0 = none
  root_inactive : t.startRevision 0 = noRevision
  /-- Children are linked in both directions. -/
  chained : ∀ n, Chained t.previous t.next (t.firstChild n) (t.lastChild n) (s.children n)
  mem_iff : ∀ n m, m ∈ s.children n ↔ t.parent m = some n
  mem_nodes : ∀ n m, t.parent m = some n → n ∈ t.nodes ∧ m ∈ t.nodes
  below : ∀ n ∈ t.nodes, Above t.parent 0 n
  /-- Children are ordered by their base path IDs. -/
  sorted : ∀ n, (s.children n).Pairwise fun a b => (t.path a).index ≤ (t.path b).index
  denotes : ∀ n ∈ t.nodes, ∃ i base, Denotes t.dictionary (t.path n) i base (s.names n)
  /-- A child's path is strictly below its parent's path. -/
  strict : ∀ n m, t.parent m = some n → s.names n <+: s.names m ∧ s.names n ≠ s.names m
  level : ∀ n m, t.parent m = some n →
    (t.path m).parentPathID t.dictionary = .ok (t.path n).index

/-- The shape with a new child. -/
def Shape.add (s : Shape) (parent : ℕ) (children : List ℕ) (n : ℕ) (ns : List (List UInt8)) :
    Shape where
  children := Function.update s.children parent children
  names := Function.update s.names n ns

section Consistent

variable {t t' : CSearchPathTree} {s : Shape} {n m : ℕ}

theorem freeNode_notMem (t : CSearchPathTree) : t.freeNode ∉ t.nodes := fun hmem =>
  absurd (Finset.le_sup (f := id) hmem) (Nat.not_le.mpr (Nat.lt_succ_self _))

/-! ### What linking leaves as it is -/

section Frame

variable {path : CDictionaryBasedTempPath} {startrev parent : ℕ} {before behind : Option ℕ}

theorem linkBetween_path (hn : n ∈ t.nodes) :
    (t.linkBetween path startrev parent before behind).path n = t.path n := by
  show Function.update t.path t.freeNode path n = _
  rw [Function.update_of_ne (ne_of_mem_of_not_mem hn (freeNode_notMem t))]

theorem linkBetween_startRevision (hn : n ∈ t.nodes) :
    (t.linkBetween path startrev parent before behind).startRevision n = t.startRevision n := by
  show Function.update t.startRevision t.freeNode startrev n = _
  rw [Function.update_of_ne (ne_of_mem_of_not_mem hn (freeNode_notMem t))]

theorem linkBetween_lastEntry (hn : n ∈ t.nodes) :
    (t.linkBetween path startrev parent before behind).lastEntry n = t.lastEntry n := by
  show Function.update t.lastEntry t.freeNode none n = _
  rw [Function.update_of_ne (ne_of_mem_of_not_mem hn (freeNode_notMem t))]

theorem linkBetween_parent (hn : n ∈ t.nodes) :
    (t.linkBetween path startrev parent before behind).parent n = t.parent n := by
  show Function.update t.parent t.freeNode (some parent) n = _
  rw [Function.update_of_ne (ne_of_mem_of_not_mem hn (freeNode_notMem t))]

end Frame

namespace Consistent

theorem children_mem (h : Consistent t s) (hm : m ∈ s.children n) : m ∈ t.nodes :=
  (h.mem_nodes n m ((h.mem_iff n m).mp hm)).2

theorem children_of_notMem (h : Consistent t s) (hn : n ∉ t.nodes) : s.children n = [] :=
  List.eq_nil_iff_forall_not_mem.mpr fun m hm => hn (h.mem_nodes n m ((h.mem_iff n m).mp hm)).1

theorem children_eq_nil_iff (h : Consistent t s) : s.children n = [] ↔ t.firstChild n = none := by
  rw [(h.chained n).first, List.head?_eq_none_iff]

theorem names_zero (h : Consistent t s) : s.names 0 = [] := by
  obtain ⟨i, base, hdenotes⟩ := h.denotes 0 h.root_mem
  rw [h.root_path] at hdenotes
  exact hdenotes.names_unique (denotes_cached .root)

/-- A node with a parent is not the root. -/
theorem ne_zero (h : Consistent t s) (hm : t.parent m = some n) : m ≠ 0 := by
  rintro rfl
  rw [h.root_parent] at hm
  exact nomatch hm

/-- A node of another list of children. -/
theorem disjoint (h : Consistent t s) {a p q : ℕ} (hp : a ∈ s.children p) (hq : a ∈ s.children q) :
    p = q :=
  Option.some.inj (((h.mem_iff p a).mp hp).symm.trans ((h.mem_iff q a).mp hq))

/-! ### Linking a node in -/

section Link

variable {parent : ℕ} {front back : List ℕ} {path : CDictionaryBasedTempPath} {startrev i : ℕ}
  {base ns : List (List UInt8)}

theorem linkBetween_above (h : Consistent t s) (hn : n ∈ t.nodes) (parent : ℕ) :
    Above (Function.update t.parent t.freeNode (some parent)) 0 n := by
  refine above_update_of_not _ (h.below n hn) fun habove => ?_
  rcases Relation.ReflTransGen.cases_head habove with heq | ⟨z, hz, -⟩
  · exact freeNode_notMem t (heq ▸ hn)
  · exact freeNode_notMem t (h.mem_nodes _ _ hz).1

theorem linkBetween_chained (h : Consistent t s) (hparent : parent ∈ t.nodes)
    (hchildren : s.children parent = front ++ back) (q : ℕ) :
    let t' := t.linkBetween path startrev parent front.getLast? back.head?
    Chained t'.previous t'.next (t'.firstChild q) (t'.lastChild q)
      (Function.update s.children parent (front ++ t.freeNode :: back) q) := by
  have hfree := freeNode_notMem t
  have hne : parent ≠ t.freeNode := fun heq => hfree (heq ▸ hparent)
  have hother : ∀ p, ∀ a ∈ s.children p, a ≠ t.freeNode := fun p a ha heq =>
    hfree (heq ▸ h.children_mem ha)
  by_cases hq : q = parent
  · subst hq
    rw [Function.update_self]
    have hchained := h.chained q
    rw [hchildren] at hchained
    refine hchained.insert (fun hmem => hother q _ (hchildren ▸ hmem) rfl) (if_pos rfl) (if_pos rfl)
      (fun a ha => if_neg (hother q a (hchildren ▸ ha)))
      (fun a ha => if_neg (hother q a (hchildren ▸ ha))) ?_ ?_
    · show (if q = t.freeNode then none else _) = _
      rw [if_neg hne]
      by_cases hnone : front.getLast? = none
      · rw [if_pos ⟨rfl, hnone⟩, if_pos hnone]
      · rw [if_neg fun hand => hnone hand.2, if_neg hnone]
    · show (if q = t.freeNode then none else _) = _
      rw [if_neg hne]
      by_cases hnone : back.head? = none
      · rw [if_pos ⟨rfl, hnone⟩, if_pos hnone]
      · rw [if_neg fun hand => hnone hand.2, if_neg hnone]
  · rw [Function.update_of_ne hq]
    have hchained := h.chained q
    have hends : (t.linkBetween path startrev parent front.getLast? back.head?).firstChild q =
          t.firstChild q ∧
        (t.linkBetween path startrev parent front.getLast? back.head?).lastChild q =
          t.lastChild q := by
      by_cases hqx : q = t.freeNode
      · have hnil := h.children_of_notMem (hqx ▸ hfree : q ∉ t.nodes)
        rw [hnil] at hchained
        exact ⟨(if_pos hqx).trans hchained.first.symm, (if_pos hqx).trans hchained.last.symm⟩
      · exact ⟨(if_neg hqx).trans (if_neg fun hand => hq hand.1),
          (if_neg hqx).trans (if_neg fun hand => hq hand.1)⟩
    dsimp only
    rw [hends.1, hends.2]
    refine hchained.congr (fun a ha => ?_) fun a ha => ?_
    · refine (if_neg (hother q a ha)).trans (if_neg fun hback => hq (h.disjoint ha ?_))
      rw [hchildren]
      exact List.mem_append_right _ (List.mem_of_mem_head? hback)
    · refine (if_neg (hother q a ha)).trans (if_neg fun hfront => hq (h.disjoint ha ?_))
      rw [hchildren]
      exact List.mem_append_left _ (List.mem_of_getLast? hfront)

/-- A new node at its place among the children of a node above it. -/
theorem linkBetween (h : Consistent t s) (hparent : parent ∈ t.nodes)
    (hchildren : s.children parent = front ++ back)
    (hdenotes : Denotes t.dictionary path i base ns) (hpre : s.names parent <+: ns)
    (hne : s.names parent ≠ ns)
    (hlevel : path.parentPathID t.dictionary = .ok (t.path parent).index)
    (hfront : ∀ a ∈ front, (t.path a).index ≤ path.index)
    (hback : ∀ b ∈ back, path.index ≤ (t.path b).index) :
    Consistent (t.linkBetween path startrev parent front.getLast? back.head?)
      (s.add parent (front ++ t.freeNode :: back) t.freeNode ns) := by
  have hfree := freeNode_notMem t
  have hold : ∀ {q}, q ∈ t.nodes → q ≠ t.freeNode := fun hq heq => hfree (heq ▸ hq)
  -- a new parent link is an old one, or that of the new node
  have hparents : ∀ {p q}, Function.update t.parent t.freeNode (some parent) q = some p →
      q = t.freeNode ∧ p = parent ∨ t.parent q = some p := by
    intro p q hq
    by_cases hqx : q = t.freeNode
    · rw [hqx, Function.update_self] at hq
      exact Or.inl ⟨hqx, (Option.some.inj hq).symm⟩
    · rw [Function.update_of_ne hqx] at hq
      exact Or.inr hq
  refine ⟨h.built, Finset.mem_insert_of_mem h.root_mem, ?_, ?_, ?_,
    h.linkBetween_chained hparent hchildren, fun p q => ?_, fun p q hq => ?_, fun q hq => ?_,
    fun p => ?_, fun q hq => ?_, fun p q hq => ?_, fun p q hq => ?_⟩
  · exact (linkBetween_path h.root_mem).trans h.root_path
  · exact (linkBetween_parent h.root_mem).trans h.root_parent
  · exact (linkBetween_startRevision h.root_mem).trans h.root_inactive
  · show q ∈ Function.update s.children parent _ p ↔
      Function.update t.parent t.freeNode (some parent) q = some p
    by_cases hqx : q = t.freeNode
    · rw [hqx, Function.update_self]
      by_cases hp : p = parent
      · rw [hp, Function.update_self]
        exact iff_of_true (by simp) rfl
      · rw [Function.update_of_ne hp]
        exact iff_of_false (fun hmem => hfree (h.children_mem hmem))
          fun heq => hp (Option.some.inj heq).symm
    · rw [Function.update_of_ne hqx, ← h.mem_iff]
      by_cases hp : p = parent
      · rw [hp, Function.update_self, hchildren]
        simp [hqx]
      · rw [Function.update_of_ne hp]
  · rcases hparents hq with ⟨rfl, rfl⟩ | hq
    · exact ⟨Finset.mem_insert_of_mem hparent, Finset.mem_insert_self _ _⟩
    · obtain ⟨hp, hq⟩ := h.mem_nodes p q hq
      exact ⟨Finset.mem_insert_of_mem hp, Finset.mem_insert_of_mem hq⟩
  · rcases Finset.mem_insert.mp hq with rfl | hq
    · exact (h.linkBetween_above hparent parent).step (Function.update_self _ _ _)
    · exact h.linkBetween_above hq parent
  · have hkept : ∀ q, ∀ a ∈ s.children q, Function.update t.path t.freeNode path a = t.path a :=
      fun q a ha => Function.update_of_ne (hold (h.children_mem ha)) _ _
    have hsorted := h.sorted
    show (Function.update s.children parent (front ++ t.freeNode :: back) p).Pairwise fun a b =>
      (Function.update t.path t.freeNode path a).index ≤
        (Function.update t.path t.freeNode path b).index
    by_cases hp : p = parent
    · rw [hp, Function.update_self]
      have hparentSorted := hsorted parent
      rw [hchildren] at hparentSorted
      have hkept' := hkept parent
      rw [hchildren] at hkept'
      obtain ⟨hsortedF, hsortedB, hcross⟩ := List.pairwise_append.mp hparentSorted
      refine List.pairwise_append.mpr ⟨?_, List.pairwise_cons.mpr ⟨fun b hb => ?_, ?_⟩, ?_⟩
      · refine hsortedF.imp_of_mem fun {a b} ha hb hle => ?_
        rw [hkept' a (List.mem_append_left _ ha), hkept' b (List.mem_append_left _ hb)]
        exact hle
      · rw [Function.update_self, hkept' b (List.mem_append_right _ hb)]
        exact hback b hb
      · refine hsortedB.imp_of_mem fun {a b} ha hb hle => ?_
        rw [hkept' a (List.mem_append_right _ ha), hkept' b (List.mem_append_right _ hb)]
        exact hle
      · intro a ha b hb
        rw [hkept' a (List.mem_append_left _ ha)]
        rcases List.mem_cons.mp hb with rfl | hb
        · rw [Function.update_self]
          exact hfront a ha
        · rw [hkept' b (List.mem_append_right _ hb)]
          exact hcross a ha b hb
    · rw [Function.update_of_ne hp]
      refine (hsorted p).imp_of_mem fun {a b} ha hb hle => ?_
      rw [hkept p a ha, hkept p b hb]
      exact hle
  · show ∃ i base, Denotes t.dictionary (Function.update t.path t.freeNode path q) i base
      (Function.update s.names t.freeNode ns q)
    rcases Finset.mem_insert.mp hq with rfl | hq
    · rw [Function.update_self, Function.update_self]
      exact ⟨i, base, hdenotes⟩
    · rw [Function.update_of_ne (hold hq), Function.update_of_ne (hold hq)]
      exact h.denotes q hq
  · show Function.update s.names t.freeNode ns p <+: Function.update s.names t.freeNode ns q ∧
      Function.update s.names t.freeNode ns p ≠ Function.update s.names t.freeNode ns q
    rcases hparents hq with ⟨rfl, rfl⟩ | hq
    · rw [Function.update_self, Function.update_of_ne (hold hparent)]
      exact ⟨hpre, hne⟩
    · obtain ⟨hp', hq'⟩ := h.mem_nodes p q hq
      rw [Function.update_of_ne (hold hp'), Function.update_of_ne (hold hq')]
      exact h.strict p q hq
  · show (Function.update t.path t.freeNode path q).parentPathID t.dictionary =
      .ok (Function.update t.path t.freeNode path p).index
    rcases hparents hq with ⟨rfl, rfl⟩ | hq
    · rw [Function.update_self, Function.update_of_ne (hold hparent)]
      exact hlevel
    · obtain ⟨hp', hq'⟩ := h.mem_nodes p q hq
      rw [Function.update_of_ne (hold hp'), Function.update_of_ne (hold hq')]
      exact h.level p q hq

end Link

/-! ### Finding the place of a node -/

section Position

variable {parent : ℕ} {front back : List ℕ} {pathID : Index}

/-- The scan ends at the first child with at least the given ID. -/
theorem insertionPosition_spec (h : Consistent t s) {fuel : ℕ} {node : ℕ}
    (hchildren : s.children parent = front ++ node :: back) {last : ℕ}
    (hlast : (s.children parent).getLast? = some last) (hle : pathID ≤ (t.path last).index)
    (hfront : ∀ a ∈ front, (t.path a).index ≤ pathID) (hfuel : back.length < fuel) :
    ∃ front' node' back', t.insertionPosition pathID fuel node = .ok node' ∧
      s.children parent = front' ++ node' :: back' ∧ front <+: front' ∧
      (∀ a ∈ front', (t.path a).index ≤ pathID) ∧ pathID ≤ (t.path node').index := by
  induction fuel generalizing front node back with
  | zero => exact absurd hfuel (Nat.not_lt_zero _)
  | succ fuel ih =>
    rw [insertionPosition]
    by_cases hlt : (t.path node).index < pathID
    · rw [if_pos hlt]
      have hchained := h.chained parent
      rw [hchildren] at hchained
      rw [hchained.next_eq]
      cases back with
      | nil =>
        rw [hchildren, List.getLast?_append, List.getLast?_singleton, Option.some_or] at hlast
        obtain rfl := Option.some.inj hlast
        exact absurd hle (not_le.mpr hlt)
      | cons next back =>
        have hnext : s.children parent = (front ++ [node]) ++ next :: back := by
          rw [hchildren, List.append_assoc]
          rfl
        obtain ⟨front', node', back', hpos, hsplit, hpre, hle', hge⟩ := ih hnext
          (fun a ha => by
            rcases List.mem_append.mp ha with ha | ha
            · exact hfront a ha
            · rw [List.mem_singleton.mp ha]
              exact hlt.le)
          (by rw [List.length_cons] at hfuel; omega)
        exact ⟨front', node', back', hpos, hsplit, (List.prefix_append _ _).trans hpre, hle', hge⟩
    · rw [if_neg hlt]
      exact ⟨front, node, back, rfl, hchildren, List.prefix_refl front, hfront, not_lt.mp hlt⟩

theorem length_children_le (h : Consistent t s) (n : ℕ) : (s.children n).length ≤ t.nodes.card := by
  rw [← List.toFinset_card_of_nodup (h.chained n).nodup]
  exact Finset.card_le_card fun m hm => h.children_mem (List.mem_toFinset.mp hm)

/-- A node is linked in between children with smaller and children with larger IDs. -/
theorem link_spec (h : Consistent t s) (path : CDictionaryBasedTempPath) (startrev parent : ℕ) :
    ∃ front back, s.children parent = front ++ back ∧
      (∀ a ∈ front, (t.path a).index ≤ path.index) ∧
      (∀ b ∈ back, path.index ≤ (t.path b).index) ∧
      t.link path startrev parent =
        .ok (t.linkBetween path startrev parent front.getLast? back.head?) := by
  have hchained := h.chained parent
  have hsorted := h.sorted parent
  have hnone : ∀ {P : ℕ → Prop}, ∀ a ∈ ([] : List ℕ), P a := fun a ha => absurd ha List.not_mem_nil
  rw [link, hchained.first, hchained.last]
  rcases hchildren : s.children parent with _ | ⟨first, rest⟩
  · exact ⟨[], [], rfl, hnone, hnone, rfl⟩
  obtain ⟨last, hlast⟩ : ∃ last, (first :: rest).getLast? = some last :=
    ⟨_, List.getLast?_eq_some_getLast (List.cons_ne_nil first rest)⟩
  obtain ⟨init, hinit⟩ := List.getLast?_eq_some_iff.mp hlast
  rw [hlast, List.head?_cons]
  dsimp only
  rw [hchildren] at hsorted
  by_cases hend : (t.path last).index ≤ path.index
  · rw [if_pos hend]
    refine ⟨first :: rest, [], (List.append_nil _).symm, fun a ha => ?_, hnone, by rw [hlast]; rfl⟩
    rw [hinit] at ha hsorted
    rcases List.mem_append.mp ha with ha | ha
    · exact ((List.pairwise_append.mp hsorted).2.2 a ha last (List.mem_singleton_self last)).trans
        hend
    · rw [List.mem_singleton.mp ha]
      exact hend
  · rw [if_neg hend]
    by_cases hbegin : path.index ≤ (t.path first).index
    · rw [if_pos hbegin]
      refine ⟨[], first :: rest, rfl, hnone, fun b hb => ?_, rfl⟩
      rcases List.mem_cons.mp hb with rfl | hb
      · exact hbegin
      · exact hbegin.trans ((List.pairwise_cons.mp hsorted).1 b hb)
    · rw [if_neg hbegin]
      have hlen := h.length_children_le parent
      rw [hchildren, List.length_cons] at hlen
      have hsplit' : s.children parent = [] ++ first :: rest := hchildren
      obtain ⟨front, node, back, hpos, hsplit, -, hle, hge⟩ := h.insertionPosition_spec
        hsplit' (hchildren ▸ hlast) (not_le.mp hend).le hnone
        (Nat.lt_succ_of_lt hlen : rest.length < t.nodes.card + 1)
      have hfront : front ≠ [] := by
        rintro rfl
        rw [hchildren, List.nil_append] at hsplit
        obtain ⟨rfl, -⟩ := List.cons.inj hsplit
        exact hbegin hge
      obtain ⟨before, hbefore⟩ : ∃ before, front.getLast? = some before :=
        ⟨_, List.getLast?_eq_some_getLast hfront⟩
      rw [hsplit] at hchained
      refine ⟨front, node :: back, hchildren ▸ hsplit, hle, fun b hb => ?_, ?_⟩
      · rw [← hchildren, hsplit] at hsorted
        rcases List.mem_cons.mp hb with rfl | hb
        · exact hge
        · exact hge.trans ((List.pairwise_cons.mp (List.pairwise_append.mp hsorted).2.1).1 b hb)
      · have hprevious : t.previous node = some before := hchained.prev_eq.trans hbefore
        rw [hpos, hbefore]
        dsimp only [bind, Except.bind]
        rw [hprevious]
        rfl

end Position

end Consistent

/-! ### New nodes -/

/-- What making a node has to give: node `x`, and inactive nodes with children for missing levels. -/
structure Created (t : CSearchPathTree) (path : CDictionaryBasedTempPath) (startrev : ℕ)
    (t' : CSearchPathTree) (x : ℕ) : Prop where
  dictionary : t'.dictionary = t.dictionary
  subset : t.nodes ⊆ t'.nodes
  notMem : x ∉ t.nodes
  mem : x ∈ t'.nodes
  path : t'.path x = path
  startRevision : t'.startRevision x = startrev
  kept : ∀ n ∈ t.nodes, t'.path n = t.path n ∧ t'.startRevision n = t.startRevision n ∧
    t'.lastEntry n = t.lastEntry n
  levels : ∀ n ∈ t'.nodes, n ∉ t.nodes → n ≠ x →
    t'.startRevision n = noRevision ∧ t'.firstChild n ≠ none
  busy : ∀ n ∈ t.nodes, t.firstChild n ≠ none → t'.firstChild n ≠ none

section Create

variable {parent i j : ℕ} {path : CDictionaryBasedTempPath} {startrev : ℕ}
  {base ns : List (List UInt8)}

/-- Linking a node at the next level below another one. -/
theorem Consistent.link_created (h : Consistent t s) (hparent : parent ∈ t.nodes)
    (hdenotes : Denotes t.dictionary path i base ns) (hpre : s.names parent <+: ns)
    (hne : s.names parent ≠ ns)
    (hlevel : path.parentPathID t.dictionary = .ok (t.path parent).index) (startrev : ℕ) :
    ∃ t' s', t.link path startrev parent = .ok t' ∧ Consistent t' s' ∧
      Created t path startrev t' t.freeNode ∧ t'.firstChild parent ≠ none := by
  have hfree := freeNode_notMem t
  obtain ⟨front, back, hchildren, hfront, hback, hlink⟩ := h.link_spec path startrev parent
  have hconsistent : Consistent (t.linkBetween path startrev parent _ _) _ :=
    h.linkBetween hparent hchildren hdenotes hpre hne hlevel hfront hback
  refine ⟨_, _, hlink, hconsistent, ⟨rfl, Finset.subset_insert _ _, hfree,
    Finset.mem_insert_self _ _, Function.update_self _ _ _, Function.update_self _ _ _,
    fun n hn => ?_, fun n hn hold hx => ?_, fun n hn hchild => ?_⟩, ?_⟩
  · exact ⟨linkBetween_path hn, linkBetween_startRevision hn, linkBetween_lastEntry hn⟩
  · exact absurd hn (by simpa [CSearchPathTree.linkBetween, hx] using hold)
  · show (if n = t.freeNode then none else _) ≠ none
    rw [if_neg (ne_of_mem_of_not_mem hn hfree)]
    split
    · exact Option.some_ne_none _
    · exact hchild
  · rw [(hconsistent.chained parent).first]
    show (Function.update s.children parent _ parent).head? ≠ none
    rw [Function.update_self]
    simp

/-- Making a node makes the missing levels above it, too. -/
theorem Consistent.create_spec (h : Consistent t s) (hparent : parent ∈ t.nodes)
    (hdenotes : Denotes t.dictionary path j base ns) (hpre : s.names parent <+: ns)
    (hne : s.names parent ≠ ns) (startrev : ℕ) {fuel : ℕ}
    (hfuel : (if path.relPathElements = [] then j else j + 1) < fuel) :
    ∃ t' x s', create fuel t path startrev parent = .ok (t', x) ∧ Consistent t' s' ∧
      Created t path startrev t' x := by
  induction fuel generalizing path j base ns startrev with
  | zero => exact absurd hfuel (Nat.not_lt_zero _)
  | succ fuel ih =>
    have hnil : ns ≠ [] := by
      rintro rfl
      exact hne (List.prefix_nil.mp hpre)
    obtain ⟨q, qs, hq, hqn, hqpre, hqne, hmax, hle, hlt⟩ := hdenotes.parentPathID h.built hnil
    obtain ⟨i, base', hdenotes'⟩ := h.denotes parent hparent
    have hindex := hdenotes'.index
    rw [create, hq]
    rcases hdenotes'.parent_level hdenotes h.built hpre hne hqn hqpre hmax with rfl | ⟨hiq, hpre', hne'⟩
    · -- the node is at the next level
      obtain ⟨t', s', hlink, hconsistent, hcreated, -⟩ := h.link_created hparent hdenotes hpre hne
        (hq.trans (by rw [hindex])) startrev
      refine ⟨t', t.freeNode, s', ?_, hconsistent, hcreated⟩
      dsimp only [bind, Except.bind]
      rw [if_neg (by rw [hindex]; exact lt_irrefl _), hlink]
      rfl
    · have hcached : Denotes t.dictionary ⟨(q : Index), []⟩ q qs qs := denotes_cached hqn
      obtain ⟨t₁, x₁, s₁, hcreate, hconsistent₁, hcreated₁⟩ := ih hcached hpre' hne' noRevision (by
        rw [if_pos rfl]
        split at hfuel
        · exact (hlt ‹_›).trans_le (Nat.le_of_lt_succ hfuel)
        · omega)
      obtain ⟨k, base₁, hdenotes₁⟩ := hconsistent₁.denotes x₁ hcreated₁.mem
      rw [hcreated₁.path, hcreated₁.dictionary] at hdenotes₁
      have hnames := hdenotes₁.names_unique hcached
      obtain ⟨t', s', hlink, hconsistent, hcreated, hchild⟩ :=
        hconsistent₁.link_created hcreated₁.mem (hcreated₁.dictionary ▸ hdenotes)
          (hnames ▸ hqpre) (hnames ▸ hqne) (by rw [hcreated₁.dictionary, hq, hcreated₁.path])
          startrev
      refine ⟨t', t₁.freeNode, s', ?_, hconsistent, hcreated.dictionary.trans hcreated₁.dictionary,
        hcreated₁.subset.trans hcreated.subset, fun hmem => hcreated.notMem (hcreated₁.subset hmem),
        hcreated.mem, hcreated.path, hcreated.startRevision, fun n hn => ?_, fun n hn hold hx => ?_,
        fun n hn hbusy => ?_⟩
      · dsimp only [bind, Except.bind]
        rw [if_pos (by rw [hindex]; exact_mod_cast hiq), hcreate]
        dsimp only
        rw [hlink]
        rfl
      · obtain ⟨hp₁, hr₁, he₁⟩ := hcreated₁.kept n hn
        obtain ⟨hp, hr, he⟩ := hcreated.kept n (hcreated₁.subset hn)
        exact ⟨hp.trans hp₁, hr.trans hr₁, he.trans he₁⟩
      · by_cases hn₁ : n ∈ t₁.nodes
        · rw [(hcreated.kept n hn₁).2.1]
          by_cases hx₁ : n = x₁
          · rw [hx₁]
            exact ⟨hcreated₁.startRevision, hchild⟩
          · obtain ⟨hr, hc⟩ := hcreated₁.levels n hn₁ hold hx₁
            exact ⟨hr, hcreated.busy n hn₁ hc⟩
        · exact hcreated.levels n hn hn₁ hx
      · exact hcreated.busy n (hcreated₁.subset hn) (hcreated₁.busy n hn hbusy)

/-- A new node for a path below that of a node. -/
theorem Consistent.newNode_spec (h : Consistent t s) (hparent : parent ∈ t.nodes)
    (hdenotes : Denotes t.dictionary path j base ns) (hpre : s.names parent <+: ns)
    (hne : s.names parent ≠ ns) (startrev : ℕ) :
    ∃ t' x s', t.newNode path startrev parent = .ok (t', x) ∧ Consistent t' s' ∧
      Created t path startrev t' x := by
  have hlt := hdenotes.named.lt_size h.built
  refine h.create_spec hparent hdenotes hpre hne startrev ?_
  split <;> omega

end Create

/-! ### Deleting leaves -/

/-- The shape without a child. -/
def Shape.remove (s : Shape) (parent : ℕ) (children : List ℕ) : Shape :=
  { s with children := Function.update s.children parent children }

section Delete

variable {parent : ℕ} {front back : List ℕ}

theorem Consistent.deleteLeaf_chained (h : Consistent t s) (hn : t.parent n = some parent)
    (hchildren : s.children parent = front ++ n :: back) (q : ℕ) :
    let t' := t.deleteLeaf n parent
    Chained t'.previous t'.next (t'.firstChild q) (t'.lastChild q)
      (Function.update s.children parent (front ++ back) q) := by
  have hchained := h.chained parent
  rw [hchildren] at hchained
  have hmem : ∀ a, a ∈ front ++ back → a ∈ s.children parent := fun a ha => by
    rw [hchildren]
    rcases List.mem_append.mp ha with ha | ha
    · exact List.mem_append_left _ ha
    · exact List.mem_append_right _ (List.mem_cons_of_mem n ha)
  by_cases hq : q = parent
  · subst hq
    rw [Function.update_self]
    refine hchained.remove (fun a _ => rfl) (fun a _ => rfl) ?_ ?_
    · show (if q = q ∧ _ then _ else _) = _
      simp only [true_and]
    · show (if q = q ∧ _ then _ else _) = _
      simp only [true_and]
  · rw [Function.update_of_ne hq]
    have hends : (t.deleteLeaf n parent).firstChild q = t.firstChild q ∧
        (t.deleteLeaf n parent).lastChild q = t.lastChild q :=
      ⟨if_neg fun hand => hq hand.1, if_neg fun hand => hq hand.1⟩
    dsimp only
    rw [hends.1, hends.2]
    refine (h.chained q).congr (fun a ha => if_neg fun hnext => ?_) fun a ha =>
      if_neg fun hprev => ?_
    · rw [hchained.next_eq] at hnext
      exact hq (h.disjoint ha (hmem a (List.mem_append_right _ (List.mem_of_mem_head? hnext))))
    · rw [hchained.prev_eq] at hprev
      exact hq (h.disjoint ha (hmem a (List.mem_append_left _ (List.mem_of_getLast? hprev))))

/-- Deleting a node without children. -/
theorem Consistent.deleteLeaf (h : Consistent t s) (hn : t.parent n = some parent)
    (hleaf : t.firstChild n = none) : ∃ s', Consistent (t.deleteLeaf n parent) s' := by
  have hmem := (h.mem_iff parent n).mpr hn
  obtain ⟨front, back, hchildren⟩ := List.append_of_mem hmem
  have hchildless : ∀ q, t.parent q ≠ some n := fun q hq => by
    have hq' := (h.mem_iff n q).mpr hq
    rw [h.children_eq_nil_iff.mpr hleaf] at hq'
    exact List.not_mem_nil hq'
  have hparents : ∀ {p q}, Function.update t.parent n none q = some p → q ≠ n ∧ t.parent q = some p := by
    intro p q hq
    by_cases hqn : q = n
    · rw [hqn, Function.update_self] at hq
      exact nomatch hq
    · rw [Function.update_of_ne hqn] at hq
      exact ⟨hqn, hq⟩
  refine ⟨s.remove parent (front ++ back), h.built,
    Finset.mem_erase.mpr ⟨(h.ne_zero hn).symm, h.root_mem⟩, h.root_path, ?_, h.root_inactive,
    h.deleteLeaf_chained hn hchildren, fun p q => ?_, fun p q hq => ?_, fun q hq => ?_, fun p => ?_,
    fun q hq => h.denotes q (Finset.mem_of_mem_erase hq),
    fun p q hq => h.strict p q (hparents hq).2, fun p q hq => h.level p q (hparents hq).2⟩
  · show Function.update t.parent n none 0 = none
    rw [Function.update_of_ne (h.ne_zero hn).symm]
    exact h.root_parent
  · show q ∈ Function.update s.children parent (front ++ back) p ↔
      Function.update t.parent n none q = some p
    have hnodup := (h.chained parent).nodup
    rw [hchildren] at hnodup
    have hnotMem : n ∉ front ++ back := by
      obtain ⟨-, hcons, hdisj⟩ := List.nodup_append'.mp hnodup
      rw [List.mem_append, not_or]
      exact ⟨fun hf => hdisj hf List.mem_cons_self, (List.nodup_cons.mp hcons).1⟩
    by_cases hqn : q = n
    · rw [hqn, Function.update_self]
      refine iff_of_false (fun hmem' => ?_) (Option.some_ne_none p).symm
      by_cases hp : p = parent
      · rw [hp, Function.update_self] at hmem'
        exact hnotMem hmem'
      · rw [Function.update_of_ne hp] at hmem'
        exact hp (h.disjoint hmem' hmem)
    · rw [Function.update_of_ne hqn, ← h.mem_iff]
      by_cases hp : p = parent
      · rw [hp, Function.update_self, hchildren]
        simp [hqn]
      · rw [Function.update_of_ne hp]
  · obtain ⟨hqn, hq⟩ := hparents hq
    obtain ⟨hp, hq'⟩ := h.mem_nodes p q hq
    exact ⟨Finset.mem_erase.mpr ⟨fun heq => hchildless q (heq ▸ hq), hp⟩,
      Finset.mem_erase.mpr ⟨hqn, hq'⟩⟩
  · obtain ⟨hqn, hq⟩ := Finset.mem_erase.mp hq
    exact above_prune (h.below q hq) hchildless hqn
  · show (Function.update s.children parent (front ++ back) p).Pairwise _
    have hsorted := h.sorted p
    by_cases hp : p = parent
    · rw [hp, Function.update_self]
      rw [hp, hchildren] at hsorted
      exact hsorted.sublist ((List.sublist_cons_self n back).append_left front)
    · rw [Function.update_of_ne hp]
      exact hsorted

end Delete

end Consistent

end CSearchPathTree

end TortoiseSvn.RevisionGraph
