import Mathlib.Tactic
import Mathlib.Algebra.BigOperators.Finprod
import Mathlib.Algebra.Group.Action.Defs
import Mathlib.Data.Set.Card
import TortoiseSvn.Lib.Forest

/-!
# Items collected in a forest

The nodes of a forest hold items, and a marked node makes another one. Collecting the items below a
node raises each by the number of marked nodes that it passes on its way up.

Main results: `Moves.merge` and `Moves.fold`. Giving the items of an unmarked node to
its parent, or all that is collected below a node, does not change what is collected above.
-/

namespace TortoiseSvn.Lib

/-- A forest whose nodes hold items. -/
structure Holdings (α τ : Type*) where
  parent : α → Option α
  marked : α → Bool
  /-- What a marked node makes. -/
  made : α → τ
  held : α → Multiset τ

namespace Holdings

variable {α τ : Type*} [AddAction ℕ τ] {F F' : Holdings α τ} {n p q y : α}

/-- The marked nodes on the way from one node down to another, these two included. -/
def markedAbove (F : Holdings α τ) (n q : α) : Set α :=
  {a | Above F.parent n a ∧ Above F.parent a q ∧ F.marked a = true}

/-- The items that come from a node, raised by the marked nodes above. What the node holds is raised
by the node itself, too, when it is marked. -/
noncomputable def itemsOf (F : Holdings α τ) (n q : α) : Multiset τ :=
  (if F.marked q then ({(F.markedAbove n q \ {q}).ncard +ᵥ F.made q} : Multiset τ) else 0) +
    (F.held q).map ((F.markedAbove n q).ncard +ᵥ ·)

/-- The items that come from a node and the nodes below it. -/
noncomputable def collected (F : Holdings α τ) (n : α) : Multiset τ :=
  ∑ᶠ q ∈ {q | Above F.parent n q}, F.itemsOf n q

/-! ### Passing a node -/

section Split

omit [AddAction ℕ τ] in
theorem finite_markedAbove (hfin : {q | Above F.parent n q}.Finite) : (F.markedAbove n q).Finite :=
  hfin.subset fun _ ha => ha.1

omit [AddAction ℕ τ] in
theorem markedAbove_split (hp : F.parent y = some p) (hnp : Above F.parent n p)
    (hyq : Above F.parent y q) : F.markedAbove n q = F.markedAbove n p ∪ F.markedAbove y q := by
  have hpq : Above F.parent p q := (Above.single hp).trans hyq
  ext a
  constructor
  · rintro ⟨hna, haq, ha⟩
    rcases haq.total hyq with hay | hya
    · rcases hay.cases_tail with rfl | ⟨z, haz, hz⟩
      · exact .inr ⟨Above.refl _ a, hyq, ha⟩
      · obtain rfl := Option.some.inj (hp.symm.trans hz)
        exact .inl ⟨hna, haz, ha⟩
    · exact .inr ⟨hya, haq, ha⟩
  · rintro (⟨hna, hap, ha⟩ | ⟨hya, haq, ha⟩)
    · exact ⟨hna, hap.trans hpq, ha⟩
    · exact ⟨(hnp.step hp).trans hya, haq, ha⟩

variable (hp : F.parent y = some p) (hnp : Above F.parent n p) (hyq : Above F.parent y q)
  (hyp : ¬ Above F.parent y p) (hfin : {q | Above F.parent n q}.Finite)

include hp hnp hyq hyp hfin

omit [AddAction ℕ τ] in
theorem ncard_markedAbove : (F.markedAbove n q).ncard =
    (F.markedAbove n p).ncard + (F.markedAbove y q).ncard := by
  have hdisjoint : Disjoint (F.markedAbove n p) (F.markedAbove y q) :=
    Set.disjoint_left.mpr fun a ha ha' => hyp (ha'.1.trans ha.2.1)
  have hfin' : {q | Above F.parent y q}.Finite := hfin.subset fun a ha => (hnp.step hp).trans ha
  rw [markedAbove_split hp hnp hyq]
  exact Set.ncard_union_eq hdisjoint (finite_markedAbove hfin) (finite_markedAbove hfin')

omit [AddAction ℕ τ] in
theorem ncard_markedAbove_diff : (F.markedAbove n q \ {q}).ncard =
    (F.markedAbove n p).ncard + (F.markedAbove y q \ {q}).ncard := by
  have hdisjoint : Disjoint (F.markedAbove n p) (F.markedAbove y q \ {q}) :=
    Set.disjoint_left.mpr fun a ha ha' => hyp (ha'.1.1.trans ha.2.1)
  have hfin' : {q | Above F.parent y q}.Finite := hfin.subset fun a ha => (hnp.step hp).trans ha
  have hq : F.markedAbove n p \ {q} = F.markedAbove n p :=
    Set.sdiff_singleton_eq_self fun hq => hyp (hyq.trans hq.2.1)
  rw [markedAbove_split hp hnp hyq, Set.union_sdiff_distrib, hq]
  exact Set.ncard_union_eq hdisjoint (finite_markedAbove hfin)
    ((finite_markedAbove hfin').subset Set.sdiff_subset)

/-- Seen from above its parent, items of a sub-tree are raised by the marked nodes in between. -/
theorem itemsOf_split :
    F.itemsOf n q = (F.itemsOf y q).map ((F.markedAbove n p).ncard +ᵥ ·) := by
  rw [itemsOf, itemsOf, Multiset.map_add, Multiset.map_map,
    ncard_markedAbove hp hnp hyq hyp hfin, ncard_markedAbove_diff hp hnp hyq hyp hfin]
  congr 1
  · split
    · rw [Multiset.map_singleton, add_vadd]
    · rw [Multiset.map_zero]
  · refine Multiset.map_congr rfl fun x _ => ?_
    rw [Function.comp_apply, add_vadd]

end Split

theorem sum_below (hp : F.parent y = some p) (hnp : Above F.parent n p)
    (hyp : ¬ Above F.parent y p) (hfin : {q | Above F.parent n q}.Finite) :
    ∑ᶠ q ∈ {q | Above F.parent y q}, F.itemsOf n q =
      (F.collected y).map ((F.markedAbove n p).ncard +ᵥ ·) := by
  have hfin' : {q | Above F.parent y q}.Finite := hfin.subset fun a ha => (hnp.step hp).trans ha
  have hmap := (Multiset.mapAddMonoidHom ((F.markedAbove n p).ncard +ᵥ · : τ → τ)).map_finsum_mem
    (F.itemsOf y) hfin'
  rw [collected, ← Multiset.coe_mapAddMonoidHom, hmap]
  exact finsum_mem_congr rfl fun q hyq => itemsOf_split hp hnp hyq hyp hfin

/-- Nothing is below a marked node but the node itself. -/
theorem collected_of_leaf (hn : F.marked n = true) (hleaf : ∀ q, Above F.parent n q → q = n) :
    F.collected n = {F.made n} + (F.held n).map ((1 : ℕ) +ᵥ ·) := by
  have hbelow : {q | Above F.parent n q} = {n} := by
    ext q
    exact ⟨hleaf q, fun hq => hq ▸ Above.refl _ n⟩
  have habove : F.markedAbove n n = {n} := by
    ext a
    refine ⟨fun ha => hleaf a ha.1, ?_⟩
    rintro rfl
    exact ⟨Above.refl _ a, Above.refl _ a, hn⟩
  rw [collected, hbelow, finsum_mem_singleton, itemsOf, if_pos hn, habove, Set.ncard_singleton,
    Set.sdiff_self, Set.ncard_empty, zero_vadd]

/-! ### Moving items -/

/-- Some nodes are removed below `n`, and `p` holds more than before. The marked nodes above what
remains are kept. -/
structure Moves (F F' : Holdings α τ) (n p : α) (removed : Set α) (extra : Multiset τ) : Prop where
  finite : {q | Above F.parent n q}.Finite
  removed_below : ∀ q ∈ removed, Above F.parent n q
  receiver : Above F'.parent n p
  below : ∀ q, Above F'.parent n q ↔ Above F.parent n q ∧ q ∉ removed
  above : ∀ a q, Above F'.parent n a → Above F'.parent n q →
    (Above F'.parent a q ↔ Above F.parent a q)
  kept : ∀ a ∈ removed, F.marked a = true → ∀ q, Above F.parent a q → q ∈ removed
  marked : ∀ q, Above F'.parent n q → F'.marked q = F.marked q
  made : ∀ q, Above F'.parent n q → F'.made q = F.made q
  held : ∀ q, Above F'.parent n q → q ≠ p → F'.held q = F.held q
  held_receiver : F'.held p = F.held p + extra

namespace Moves

variable {removed : Set α} {extra : Multiset τ}

omit [AddAction ℕ τ] in
theorem markedAbove_eq (h : Moves F F' n p removed extra) (hq : Above F'.parent n q) :
    F'.markedAbove n q = F.markedAbove n q := by
  ext a
  constructor
  · rintro ⟨hna, haq, ha⟩
    exact ⟨((h.below a).mp hna).1, (h.above a q hna hq).mp haq, h.marked a hna ▸ ha⟩
  · rintro ⟨hna, haq, ha⟩
    have hna' : Above F'.parent n a :=
      (h.below a).mpr ⟨hna, fun hmem => ((h.below q).mp hq).2 (h.kept a hmem ha q haq)⟩
    exact ⟨hna', (h.above a q hna' hq).mpr haq, (h.marked a hna').trans ha⟩

theorem itemsOf_eq (h : Moves F F' n p removed extra) (hq : Above F'.parent n q) (hqp : q ≠ p) :
    F'.itemsOf n q = F.itemsOf n q := by
  rw [itemsOf, itemsOf, h.markedAbove_eq hq, h.marked q hq, h.made q hq, h.held q hq hqp]

theorem itemsOf_receiver (h : Moves F F' n p removed extra) :
    F'.itemsOf n p = F.itemsOf n p + extra.map ((F.markedAbove n p).ncard +ᵥ ·) := by
  rw [itemsOf, itemsOf, h.markedAbove_eq h.receiver, h.marked p h.receiver, h.made p h.receiver,
    h.held_receiver, Multiset.map_add, add_assoc]

/-- When what `p` gets is what the removed nodes gave, the same is collected as before. -/
theorem collected_eq (h : Moves F F' n p removed extra)
    (hextra : ∑ᶠ q ∈ removed, F.itemsOf n q = extra.map ((F.markedAbove n p).ncard +ᵥ ·)) :
    F'.collected n = F.collected n := by
  have hsub : removed ⊆ {q | Above F.parent n q} := h.removed_below
  have hrest : {q | Above F'.parent n q} = {q | Above F.parent n q} \ removed :=
    Set.ext h.below
  have hfin : {q | Above F'.parent n q}.Finite := hrest ▸ h.finite.subset Set.sdiff_subset
  have hpsub : {p} ⊆ {q | Above F'.parent n q} := Set.singleton_subset_iff.mpr h.receiver
  calc F'.collected n
      = F'.itemsOf n p + ∑ᶠ q ∈ {q | Above F'.parent n q} \ {p}, F'.itemsOf n q := by
        rw [collected, ← finsum_mem_add_sdiff hpsub hfin, finsum_mem_singleton]
    _ = extra.map ((F.markedAbove n p).ncard +ᵥ ·) + (F.itemsOf n p +
          ∑ᶠ q ∈ {q | Above F'.parent n q} \ {p}, F.itemsOf n q) := by
        rw [h.itemsOf_receiver, finsum_mem_congr rfl fun q hq => h.itemsOf_eq hq.1 hq.2]
        abel
    _ = ∑ᶠ q ∈ removed, F.itemsOf n q + ∑ᶠ q ∈ {q | Above F'.parent n q}, F.itemsOf n q := by
        rw [hextra, ← finsum_mem_add_sdiff hpsub hfin, finsum_mem_singleton]
    _ = F.collected n := by
        rw [hrest, finsum_mem_add_sdiff hsub h.finite]
        rfl

/-- **An unmarked node gives what it holds to its parent.** -/
theorem merge (h : Moves F F' n p {y} (F.held y)) (hp : F.parent y = some p)
    (hyp : ¬ Above F.parent y p) (hy : F.marked y = false) : F'.collected n = F.collected n := by
  have hnp : Above F.parent n p := ((h.below p).mp h.receiver).1
  have hnone : F.markedAbove y y = ∅ := by
    ext a
    refine iff_of_false (fun ⟨hya, hay, ha⟩ => ?_) (Set.notMem_empty a)
    rcases hay.cases_tail with rfl | ⟨z, haz, hz⟩
    · exact Bool.false_ne_true (hy.symm.trans ha)
    · obtain rfl := Option.some.inj (hp.symm.trans hz)
      exact hyp (hya.trans haz)
  apply h.collected_eq
  rw [finsum_mem_singleton, itemsOf_split hp hnp (Above.refl _ y) hyp h.finite, itemsOf, hnone,
    if_neg (by rw [hy]; exact Bool.false_ne_true), Set.ncard_empty, zero_add]
  congr 1
  exact (Multiset.map_congr rfl fun x _ => zero_vadd ℕ x).trans (Multiset.map_id _)

/-- **A sub-tree gives all that is collected in it to the parent of its first node.** -/
theorem fold (h : Moves F F' n p {q | Above F.parent y q} (F.collected y))
    (hp : F.parent y = some p) (hyp : ¬ Above F.parent y p) : F'.collected n = F.collected n :=
  h.collected_eq (sum_below hp ((h.below p).mp h.receiver).1 hyp h.finite)

end Moves

end Holdings

end TortoiseSvn.Lib
