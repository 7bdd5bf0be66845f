import TortoiseSvn.RevisionGraph.DroppedNodes

/-!
# Cutting branches off the visible graph

`MakeRoot` and `DropSubTree` take a node out of the chain or the list of copy targets that it stands
in. Then the node becomes a root, or it is destroyed together with everything below it.

Main results: `makeRoot_spec` and `dropSubTree_spec`.
-/

namespace TortoiseSvn.RevisionGraph

open TortoiseSvn.Lib

namespace NodeLinks

variable {l : NodeLinks}

/-- The links without the nodes of a set. -/
def prune (l : NodeLinks) (P : ℕ → Prop) [DecidablePred P] : NodeLinks where
  prev q := if P q then none else l.prev q
  next q := if P q then none else l.next q
  copySource q := if P q then none else l.copySource q
  copyTargets q := if P q then [] else l.copyTargets q

section Prune

variable {P : ℕ → Prop} [DecidablePred P]

theorem source_prune (q : ℕ) : (l.prune P).source q = if P q then none else l.source q := by
  unfold source prune
  dsimp only
  by_cases hq : P q
  · rw [if_pos hq, if_pos hq, if_pos hq]
    rfl
  · rw [if_neg hq, if_neg hq, if_neg hq]

/-- A set that no link leaves or enters can be removed. -/
theorem Linked.prune (h : Linked l) (hclosed : ∀ a b, l.source b = some a → (P a ↔ P b)) :
    Linked (l.prune P) := by
  refine ⟨fun a b => ?_, fun a b => ?_, fun q => ?_, fun q => ?_⟩
  · show (if P a then none else l.next a) = some b ↔ (if P b then none else l.prev b) = some a
    by_cases hab : l.next a = some b
    · have hprev := (h.next_iff a b).mp hab
      have hP := hclosed a b (h.source_eq_some.mpr (Or.inl hprev))
      by_cases ha : P a
      · rw [if_pos ha, if_pos (hP.mp ha)]
        exact iff_of_false nofun nofun
      · rw [if_neg ha, if_neg fun hb => ha (hP.mpr hb)]
        exact iff_of_true hab hprev
    · have hprev : l.prev b ≠ some a := fun hb => hab ((h.next_iff a b).mpr hb)
      refine iff_of_false (fun heq => ?_) fun heq => ?_
      · split at heq
        · exact nomatch heq
        · exact hab heq
      · split at heq
        · exact nomatch heq
        · exact hprev heq
  · show (b ∈ if P a then [] else l.copyTargets a) ↔ (if P b then none else l.copySource b) = some a
    by_cases hab : b ∈ l.copyTargets a
    · have hcopy := (h.target_iff a b).mp hab
      have hP := hclosed a b (h.source_eq_some.mpr (Or.inr hcopy))
      by_cases ha : P a
      · rw [if_pos ha, if_pos (hP.mp ha)]
        exact iff_of_false List.not_mem_nil nofun
      · rw [if_neg ha, if_neg fun hb => ha (hP.mpr hb)]
        exact iff_of_true hab hcopy
    · have hcopy : l.copySource b ≠ some a := fun hb => hab ((h.target_iff a b).mpr hb)
      refine iff_of_false (fun hmem => ?_) fun heq => ?_
      · split at hmem
        · exact List.not_mem_nil hmem
        · exact hab hmem
      · split at heq
        · exact nomatch heq
        · exact hcopy heq
  · show (if P q then [] else l.copyTargets q).Nodup
    split
    · exact List.nodup_nil
    · exact h.nodup q
  · show (if P q then none else l.prev q) = none ∨ (if P q then none else l.copySource q) = none
    split
    · exact Or.inl rfl
    · exact h.one q

end Prune

/-- Taking a node out of the list it stands in. -/
theorem Linked.cutTarget_of_erase (h : Linked l) {s n : ℕ} (hs : l.copySource n = some s) :
    ∃ i, (l.copyTargets s)[i]? = some n ∧ (l.copyTargets s).eraseIdx i = (l.copyTargets s).erase n := by
  obtain ⟨i, hi⟩ := List.mem_iff_getElem?.mp ((h.target_iff s n).mpr hs)
  obtain ⟨hlt, hget⟩ := List.getElem?_eq_some_iff.mp hi
  refine ⟨i, hi, ?_⟩
  rw [← hget]
  exact ((h.nodup s).erase_getElem i hlt).symm

/-- The links without those between a node and its source. -/
structure CutOff (l : NodeLinks) (n : ℕ) (l' : NodeLinks) : Prop where
  linked : Linked l'
  source : l'.source = Function.update l.source n none
  prev : l'.prev = Function.update l.prev n none
  copySource : l'.copySource = Function.update l.copySource n none
  next : ∀ q, l'.next q = if l.next q = some n then none else l.next q
  copyTargets : ∀ q, l'.copyTargets q = (l.copyTargets q).erase n

theorem Linked.cutOff_next (h : Linked l) {p n : ℕ} (hp : l.prev n = some p) :
    CutOff l n (l.cutNext p n) := by
  have hnext := (h.next_iff p n).mpr hp
  have hcopy := (h.one n).resolve_left (by rw [hp]; exact Option.some_ne_none p)
  refine ⟨h.cutNext hnext, h.source_cutNext hnext, rfl, ?_, fun q => ?_, fun q => ?_⟩
  · exact (Function.update_eq_self_iff.mpr hcopy.symm).symm
  · show Function.update l.next p none q = _
    by_cases hq : q = p
    · rw [hq, Function.update_self, if_pos hnext]
    · rw [Function.update_of_ne hq, if_neg]
      intro heq
      exact hq (Option.some.inj (((h.next_iff q n).mp heq).symm.trans hp))
  · refine (List.erase_of_not_mem fun hmem => ?_).symm
    have hsource := (h.target_iff q n).mp hmem
    rw [hcopy] at hsource
    exact nomatch hsource

theorem Linked.cutOff_target (h : Linked l) {s i n : ℕ} (hi : (l.copyTargets s)[i]? = some n)
    (herase : (l.copyTargets s).eraseIdx i = (l.copyTargets s).erase n) :
    CutOff l n (l.cutTarget s i n) := by
  have hcopy := (h.target_iff s n).mp (List.mem_of_getElem? hi)
  have hprev := (h.one n).resolve_right (by rw [hcopy]; exact Option.some_ne_none s)
  refine ⟨h.cutTarget hi, h.source_cutTarget hi, ?_, rfl, fun q => ?_, fun q => ?_⟩
  · exact (Function.update_eq_self_iff.mpr hprev.symm).symm
  · refine (if_neg fun heq => ?_).symm
    rw [h.next_iff, hprev] at heq
    exact nomatch heq
  · show Function.update l.copyTargets s _ q = _
    by_cases hq : q = s
    · rw [hq, Function.update_self, herase]
    · rw [Function.update_of_ne hq, List.erase_of_not_mem]
      intro hmem
      exact hq (Option.some.inj (((h.target_iff q n).mp hmem).symm.trans hcopy))

end NodeLinks

namespace CVisibleGraph

variable {g : CVisibleGraph} {n : ℕ}

/-! ### New roots -/

/-- What making a node a root has to give: only the links between it and its source are cut. -/
structure MadeRoot (g : CVisibleGraph) (n : ℕ) (g' : CVisibleGraph) : Prop where
  consistent : Consistent g'
  isSome : ∀ q, (g'.nodes q).isSome = (g.nodes q).isSome
  links : NodeLinks.CutOff g.links n g'.links

theorem consistent_of_cutOff (h : Consistent g) (hn : (g.nodes n).isSome)
    (hsource : g.links.source n ≠ none) {g' : CVisibleGraph}
    (hlinks : NodeLinks.CutOff g.links n g'.links)
    (hsome : ∀ q, (g'.nodes q).isSome = (g.nodes q).isSome) (hroots : g'.roots.Perm (n :: g.roots))
    (hcount : g'.nodeCount = g.nodeCount) : MadeRoot g n g' := by
  refine ⟨⟨hlinks.linked, fun q => ?_, ?_, fun q hq => ?_, ?_⟩, hsome, hlinks⟩
  · rw [hroots.mem_iff, List.mem_cons, h.roots_iff, hsome, hlinks.source]
    by_cases hq : q = n
    · rw [hq, Function.update_self]
      exact iff_of_true (Or.inl rfl) ⟨hn, rfl⟩
    · rw [Function.update_of_ne hq]
      exact or_iff_right hq
  · rw [hroots.nodup_iff]
    refine List.nodup_cons.mpr ⟨fun hmem => ?_, h.roots_nodup⟩
    exact hsource ((h.roots_iff n).mp hmem).2
  · rw [hsome] at hq
    obtain ⟨r, hr, hrq⟩ := h.below q hq
    rw [hlinks.source]
    by_cases hnq : Above g.links.source n q
    · exact ⟨n, Function.update_self _ _ _, above_update_self none hnq⟩
    · have hrn : r ≠ n := fun heq => hnq (heq ▸ hrq)
      exact ⟨r, by rw [Function.update_of_ne hrn, hr], above_update_of_not none hrq hnq⟩
  · obtain ⟨nodes, hnodes, hcard⟩ := h.counted
    exact ⟨nodes, fun q => by rw [hnodes, hsome], hcard.trans hcount.symm⟩

theorem makeRoot_spec (h : Consistent g) (hn : (g.nodes n).isSome) : MadeRoot g n (g.makeRoot n) := by
  have hl := h.linked
  have hsomeOf : ∀ {s}, g.links.source n = some s → (g.nodes s).isSome := fun hs =>
    (isSome_of_source hl hs).2
  unfold makeRoot
  rcases hcopy : g.links.copySource n with _ | s
  · rcases hprev : g.links.prev n with _ | p
    · -- already a root
      have hsource := NodeLinks.source_eq_none.mpr ⟨hprev, hcopy⟩
      refine ⟨h, fun q => rfl, hl, ?_, ?_, ?_, fun q => ?_, fun q => ?_⟩
      · exact (Function.update_eq_self_iff.mpr hsource.symm).symm
      · exact (Function.update_eq_self_iff.mpr hprev.symm).symm
      · exact (Function.update_eq_self_iff.mpr hcopy.symm).symm
      · refine (if_neg fun heq => ?_).symm
        rw [hl.next_iff, hprev] at heq
        exact nomatch heq
      · refine (List.erase_of_not_mem fun hmem => ?_).symm
        rw [hl.target_iff, hcopy] at hmem
        exact nomatch hmem
    · have hsource := hl.source_eq_some.mpr (Or.inl hprev)
      have hlinks : (((g.setNext p none).setPrev n none).addRoot n).links = g.links.cutNext p n := by
        rw [links_addRoot, links_setPrev (by simpa using hn), links_setNext (hsomeOf hsource)]
        rfl
      exact consistent_of_cutOff h hn (by rw [hsource]; exact Option.some_ne_none p)
        (hlinks ▸ hl.cutOff_next hprev) (fun q => by simp) addRoot_roots_perm addRoot_nodeCount
  · have hsource := hl.source_eq_some.mpr (Or.inr hcopy)
    obtain ⟨i, hi, herase⟩ := hl.cutTarget_of_erase hcopy
    have hlinks : (((g.setCopyTargets s fun ts => ts.erase n).setCopySource n none).addRoot n).links =
        g.links.cutTarget s i n := by
      rw [links_addRoot, links_setCopySource (by simpa using hn),
        links_setCopyTargets (hsomeOf hsource), NodeLinks.cutTarget, herase]
    exact consistent_of_cutOff h hn (by rw [hsource]; exact Option.some_ne_none s)
      (hlinks ▸ hl.cutOff_target hi herase) (fun q => by simp) addRoot_roots_perm addRoot_nodeCount

/-! ### Destroyed branches -/

/-- What destroying the nodes of a list leaves. -/
structure Destroyed (g : CVisibleGraph) (l : List ℕ) (g' : CVisibleGraph) : Prop where
  nodes : ∀ q, g'.nodes q = if q ∈ l then none else g.nodes q
  roots : g'.roots = g.roots
  nodeCount : g'.nodeCount = g.nodeCount - l.length

theorem branches_congr {g' : CVisibleGraph} {q : ℕ} (h : g'.nodes q = g.nodes q) :
    g'.links.branches q = g.links.branches q := by
  unfold NodeLinks.branches links linksOf Heap.read
  dsimp only
  rw [h]

theorem Destroyed.of_perm {g₁ g' : CVisibleGraph} {l l₁ : List ℕ} (h : Destroyed g₁ l₁ g')
    (hperm : l₁.Perm l) (hnodes : ∀ q, q ∉ l → g₁.nodes q = g.nodes q) (hroots : g₁.roots = g.roots)
    (hcount : g₁.nodeCount = g.nodeCount) : Destroyed g l g' := by
  refine ⟨fun q => ?_, h.roots.trans hroots, ?_⟩
  · rw [h.nodes]
    by_cases hq : q ∈ l
    · rw [if_pos hq, if_pos (hperm.mem_iff.mpr hq)]
    · rw [if_neg hq, if_neg (mt hperm.mem_iff.mp hq), hnodes q hq]
  · rw [h.nodeCount, hcount, hperm.length_eq]

theorem modify_nodes_of_ne {q : ℕ} (hq : q ≠ n) (f : CVisibleGraphNode → CVisibleGraphNode) :
    (g.modify n f).nodes q = g.nodes q := Function.update_of_ne hq _ _

/-- Destroying a node `t` that was taken away from another one, and then what is left of that. -/
theorem destroy_rest {fuel node t : ℕ} {below rest : List ℕ}
    (ih : ∀ (g : CVisibleGraph) (node : ℕ) (l : List ℕ), Covers g.links.branches [node] l → l.Nodup →
      (∀ q ∈ l, (g.nodes q).isSome) → l.length ≤ fuel →
      ∃ g', destroy fuel g node = some g' ∧ Destroyed g l g')
    (ht : Covers g.links.branches [t] (t :: below))
    (hnode : Covers g.links.branches [node] (node :: rest))
    (hnodup : ((t :: below) ++ (node :: rest)).Nodup)
    (hsome : ∀ q ∈ (t :: below) ++ (node :: rest), (g.nodes q).isSome)
    (hfuel : below.length + rest.length + 1 ≤ fuel) :
    ∃ g', (do let g ← destroy fuel g t; destroy fuel g node) = some g' ∧
      Destroyed g ((t :: below) ++ (node :: rest)) g' := by
  obtain ⟨hbelow, hrest, hdisj⟩ := List.nodup_append'.mp hnodup
  obtain ⟨g₂, hg₂, h₂⟩ := ih g t _ ht hbelow (fun q hq => hsome q (List.mem_append_left _ hq))
    (by rw [List.length_cons]; omega)
  have hkept : ∀ q ∈ node :: rest, g₂.nodes q = g.nodes q := fun q hq => by
    rw [h₂.nodes, if_neg fun hmem => hdisj hmem hq]
  obtain ⟨g₃, hg₃, h₃⟩ := ih g₂ node _
    (hnode.congr fun q hq => branches_congr (hkept q hq)) hrest
    (fun q hq => by rw [hkept q hq]; exact hsome q (List.mem_append_right _ hq))
    (by rw [List.length_cons]; omega)
  refine ⟨g₃, by simp [hg₂, hg₃], fun q => ?_, h₃.roots.trans h₂.roots, ?_⟩
  · rw [h₃.nodes, h₂.nodes]
    by_cases hq : q ∈ node :: rest
    · rw [if_pos hq, if_pos (List.mem_append_right _ hq)]
    · rw [if_neg hq]
      by_cases hq' : q ∈ t :: below
      · rw [if_pos hq', if_pos (List.mem_append_left _ hq')]
      · rw [if_neg hq', if_neg fun hmem => (List.mem_append.mp hmem).elim hq' hq]
  · rw [h₃.nodeCount, h₂.nodeCount, List.length_append, Nat.sub_sub]

/-- Destroying a node destroys what its links lead to, with as much fuel as there are such nodes. -/
theorem destroy_spec (fuel : ℕ) : ∀ (g : CVisibleGraph) (node : ℕ) (l : List ℕ),
    Covers g.links.branches [node] l → l.Nodup → (∀ q ∈ l, (g.nodes q).isSome) → l.length ≤ fuel →
      ∃ g', destroy fuel g node = some g' ∧ Destroyed g l g' := by
  induction fuel with
  | zero =>
    intro g node l hl _ _ hlen
    cases hl
    exact absurd hlen (Nat.not_succ_le_zero _)
  | succ fuel ih =>
    intro g node l hl hnodup hsome hlen
    obtain ⟨l', rfl, hl'⟩ : ∃ l', l = node :: l' ∧ Covers g.links.branches (g.links.branches node) l' := by
      cases hl with
      | cons hrest => exact ⟨_, rfl, by rwa [List.append_nil] at hrest⟩
    obtain ⟨hnot, hnodup'⟩ := List.nodup_cons.mp hnodup
    rw [List.length_cons] at hlen
    rw [destroy]
    unfold NodeLinks.branches at hl'
    rcases hnext : g.links.next node with _ | t
    · rcases htargets : g.links.copyTargets node with _ | ⟨t, targets⟩
      · -- nothing is below the node any more
        rw [hnext, htargets] at hl'
        cases hl'
        refine ⟨_, rfl, fun q => ?_, rfl, rfl⟩
        show g.nodes.free node q = _
        by_cases hq : q = node
        · rw [hq, Heap.free_self, if_pos List.mem_cons_self]
        · rw [Heap.free_of_ne hq, if_neg (by simpa using hq)]
      · -- the first copy target goes
        rw [hnext, htargets] at hl'
        obtain ⟨below, rest, rfl, hbelow, hrest⟩ : ∃ below rest, l' = t :: (below ++ rest) ∧
            Covers g.links.branches (g.links.branches t) below ∧
            Covers g.links.branches targets rest := by
          cases hl' with
          | cons hall =>
            obtain ⟨below, rest, rfl, hbelow, hrest⟩ := hall.split
            exact ⟨below, rest, rfl, hbelow, hrest⟩
        have hperm : (t :: below ++ node :: rest).Perm (node :: t :: (below ++ rest)) :=
          List.perm_middle.trans (List.Perm.refl _)
        have hkept : ∀ q, q ≠ node → (g.setCopyTargets node List.tail).nodes q = g.nodes q :=
          fun q hq => modify_nodes_of_ne hq _
        have hne : ∀ q ∈ t :: (below ++ rest), q ≠ node := fun q hq heq => hnot (heq ▸ hq)
        have hnode : (g.setCopyTargets node List.tail).links.branches node = targets := by
          have hlinks := links_setCopyTargets (hsome node List.mem_cons_self) List.tail
          unfold NodeLinks.branches
          rw [hlinks]
          dsimp only
          rw [Function.update_self, hnext, htargets]
          rfl
        obtain ⟨g', hg', hdestroyed⟩ := @destroy_rest (g.setCopyTargets node List.tail) fuel node t
          below rest ih
          (Covers.cons (by
            rw [branches_congr (hkept t (hne t List.mem_cons_self)), List.append_nil]
            exact hbelow.congr fun q hq => branches_congr (hkept q (hne q
              (List.mem_cons_of_mem t (List.mem_append_left _ hq))))))
          (Covers.cons (by
            rw [hnode, List.append_nil]
            exact hrest.congr fun q hq => branches_congr (hkept q (hne q
              (List.mem_cons_of_mem t (List.mem_append_right _ hq))))))
          (hperm.nodup_iff.mpr hnodup)
          (fun q hq => by
            rw [setCopyTargets_isSome]
            exact hsome q (hperm.mem_iff.mp hq))
          (by rw [List.length_cons, List.length_append] at hlen; omega)
        refine ⟨g', hg', hdestroyed.of_perm hperm (fun q hq => hkept q ?_) rfl rfl⟩
        exact fun heq => hq (heq ▸ List.mem_cons_self)
    · -- the next node goes, and the one behind it becomes the next one
      rw [hnext] at hl'
      obtain ⟨behind, below, rest, rfl, hbehind, hbelow, hrest⟩ : ∃ behind below rest,
          l' = t :: (behind ++ below ++ rest) ∧
          Covers g.links.branches (g.links.next t).toList behind ∧
          Covers g.links.branches (g.links.copyTargets t) below ∧
          Covers g.links.branches (g.links.copyTargets node) rest := by
        cases hl' with
        | cons hall =>
          obtain ⟨front, rest, rfl, hfront, hrest⟩ := hall.split
          obtain ⟨behind, below, rfl, hbehind, hbelow⟩ := hfront.split
          exact ⟨behind, below, rest, rfl, hbehind, hbelow, hrest⟩
      have hperm : (t :: below ++ node :: (behind ++ rest)).Perm
          (node :: t :: (behind ++ below ++ rest)) := by
        refine List.perm_middle.trans (List.Perm.cons node (List.Perm.cons t ?_))
        rw [List.append_assoc]
        exact (List.perm_append_comm_assoc below behind rest)
      have htne : t ≠ node := fun heq => hnot (heq ▸ List.mem_cons_self)
      have hkept : ∀ q, q ≠ node → q ≠ t →
          ((g.setNext node (g.links.next t)).setNext t none).nodes q = g.nodes q :=
        fun q hq hqt => (modify_nodes_of_ne hqt _).trans (modify_nodes_of_ne hq _)
      have hne : ∀ q ∈ behind ++ below ++ rest, q ≠ node ∧ q ≠ t := by
        intro q hq
        refine ⟨fun heq => hnot (heq ▸ List.mem_cons_of_mem t hq), fun heq => ?_⟩
        exact (List.nodup_cons.mp hnodup').1 (heq ▸ hq)
      have hlinks : ((g.setNext node (g.links.next t)).setNext t none).links = { g.links with
          next := Function.update (Function.update g.links.next node (g.links.next t)) t none } := by
        rw [links_setNext, links_setNext (hsome node List.mem_cons_self)]
        rw [setNext_isSome]
        exact hsome t (List.mem_cons_of_mem node List.mem_cons_self)
      have hnode : ((g.setNext node (g.links.next t)).setNext t none).links.branches node =
          (g.links.next t).toList ++ g.links.copyTargets node := by
        unfold NodeLinks.branches
        rw [hlinks]
        dsimp only
        rw [Function.update_of_ne (Ne.symm htne), Function.update_self]
      have ht : ((g.setNext node (g.links.next t)).setNext t none).links.branches t =
          g.links.copyTargets t := by
        unfold NodeLinks.branches
        rw [hlinks]
        dsimp only
        rw [Function.update_self]
        rfl
      obtain ⟨g', hg', hdestroyed⟩ := @destroy_rest
        ((g.setNext node (g.links.next t)).setNext t none) fuel node t below (behind ++ rest) ih
        (Covers.cons (by
          rw [ht, List.append_nil]
          refine hbelow.congr fun q hq => branches_congr ?_
          obtain ⟨hq₁, hq₂⟩ := hne q (List.mem_append_left _ (List.mem_append_right _ hq))
          exact hkept q hq₁ hq₂))
        (Covers.cons (by
          rw [hnode, List.append_nil]
          refine (hbehind.append hrest).congr fun q hq => branches_congr ?_
          obtain ⟨hq₁, hq₂⟩ := hne q (by
            rcases List.mem_append.mp hq with hq | hq
            · exact List.mem_append_left _ (List.mem_append_left _ hq)
            · exact List.mem_append_right _ hq)
          exact hkept q hq₁ hq₂))
        (hperm.nodup_iff.mpr hnodup)
        (fun q hq => by
          rw [setNext_isSome, setNext_isSome]
          exact hsome q (hperm.mem_iff.mp hq))
        (by
          rw [List.length_cons, List.length_append, List.length_append] at hlen
          rw [List.length_append]
          omega)
      refine ⟨g', hg', hdestroyed.of_perm hperm (fun q hq => hkept q ?_ ?_) rfl rfl⟩
      · exact fun heq => hq (heq ▸ List.mem_cons_self)
      · exact fun heq => hq (heq ▸ List.mem_cons_of_mem node List.mem_cons_self)

theorem Destroyed.links {l : List ℕ} {g' : CVisibleGraph} (h : Destroyed g l g') :
    g'.links = g.links.prune (· ∈ l) := by
  have hread : ∀ {γ : Type} (field : CVisibleGraphNode → γ) (d : γ),
      g'.nodes.read field d = fun q => if q ∈ l then d else g.nodes.read field d q := by
    intro γ field d
    funext q
    rw [Heap.read, h.nodes]
    split <;> rfl
  exact NodeLinks.ext (hread _ _) (hread _ _) (hread _ _) (hread _ _)

/-- What dropping a sub-tree has to give: the node and all below it are gone, and the others are
linked as before. -/
structure DroppedSubTree (g : CVisibleGraph) (n : ℕ) (g' : CVisibleGraph) : Prop where
  consistent : Consistent g'
  isSome : ∀ q, (g'.nodes q).isSome ↔ (g.nodes q).isSome ∧ ¬ Above g.links.source n q
  prev : ∀ q, (g'.nodes q).isSome → g'.links.prev q = g.links.prev q
  copySource : ∀ q, (g'.nodes q).isSome → g'.links.copySource q = g.links.copySource q

/-- Before its nodes are destroyed, a branch is taken out of the links of its source. -/
theorem exists_detached (h : Consistent g) {s : ℕ} (hs : g.links.source n = some s) :
    ∃ g₁ cut, g.dropSubTree n = destroy g.nodeCount g₁ n ∧ NodeLinks.CutOff g.links n cut ∧
      g₁.links = { cut with prev := g.links.prev, copySource := g.links.copySource } ∧
      (∀ q, q ≠ s → g₁.nodes q = g.nodes q) ∧ (∀ q, (g₁.nodes q).isSome = (g.nodes q).isSome) ∧
      g₁.roots = g.roots ∧ g₁.nodeCount = g.nodeCount := by
  have hl := h.linked
  have hsome := (isSome_of_source hl hs).2
  unfold dropSubTree
  rcases hprev : g.links.prev n with _ | p
  · rcases hcopy : g.links.copySource n with _ | c
    · rw [NodeLinks.source_eq_none.mpr ⟨hprev, hcopy⟩] at hs
      exact nomatch hs
    · obtain rfl := Option.some.inj (hs.symm.trans (hl.source_eq_some.mpr (Or.inr hcopy)))
      obtain ⟨i, hi, herase⟩ := hl.cutTarget_of_erase hcopy
      refine ⟨_, _, rfl, hl.cutOff_target hi herase, ?_, fun q hq => modify_nodes_of_ne hq _,
        setCopyTargets_isSome _, rfl, rfl⟩
      rw [links_setCopyTargets hsome, NodeLinks.cutTarget, herase]
  · obtain rfl := Option.some.inj (hs.symm.trans (hl.source_eq_some.mpr (Or.inl hprev)))
    refine ⟨_, _, rfl, hl.cutOff_next hprev, ?_, fun q hq => modify_nodes_of_ne hq _,
      setNext_isSome _, rfl, rfl⟩
    rw [links_setNext hsome]
    rfl

theorem Consistent.isSome_of_above (h : Consistent g) (hn : (g.nodes n).isSome) {q : ℕ}
    (hq : Above g.links.source n q) : (g.nodes q).isSome := by
  rcases hq.cases_tail with rfl | ⟨z, -, hz⟩
  · exact hn
  · exact (isSome_of_source h.linked hz).1

theorem Consistent.finite_below (h : Consistent g) (hn : (g.nodes n).isSome) :
    {q | Above g.links.source n q}.Finite := by
  obtain ⟨nodes, hnodes, -⟩ := h.counted
  exact nodes.finite_toSet.subset fun q hq => (hnodes q).mpr (h.isSome_of_above hn hq)

theorem consistent_of_prune (h : Consistent g) {s : ℕ} (hs : g.links.source n = some s)
    {cut : NodeLinks} (hcut : NodeLinks.CutOff g.links n cut) {l : List ℕ} (hnodup : l.Nodup)
    (hmem : ∀ q, q ∈ l ↔ Above g.links.source n q) {g' : CVisibleGraph}
    (hlinks : g'.links = cut.prune (· ∈ l))
    (hsome : ∀ q, (g'.nodes q).isSome ↔ (g.nodes q).isSome ∧ q ∉ l)
    (hroots : g'.roots = g.roots) (hcount : g'.nodeCount = g.nodeCount - l.length) :
    Consistent g' := by
  have hself : n ∈ l := (hmem n).mpr (Above.refl _ n)
  have hsource : ∀ q, g'.links.source q = if q ∈ l then none else g.links.source q := by
    intro q
    rw [hlinks, NodeLinks.source_prune, hcut.source]
    by_cases hq : q ∈ l
    · rw [if_pos hq, if_pos hq]
    · rw [if_neg hq, if_neg hq, Function.update_of_ne (ne_of_mem_of_not_mem hself hq).symm]
  have hrootMem : ∀ q, g.links.source q = none → q ∉ l := by
    intro q hq hql
    rw [((hmem q).mp hql).eq_of_root hq, hq] at hs
    exact nomatch hs
  refine ⟨hlinks ▸ hcut.linked.prune fun a b hab => ?_, fun q => ?_, hroots ▸ h.roots_nodup,
    fun q hq => ?_, ?_⟩
  · rw [hcut.source] at hab
    have hbn : b ≠ n := by
      rintro rfl
      rw [Function.update_self] at hab
      exact nomatch hab
    rw [Function.update_of_ne hbn] at hab
    rw [hmem, hmem]
    exact ⟨fun ha => ha.step hab, fun hb => hb.of_ne hbn hab⟩
  · rw [hroots, h.roots_iff, hsome, hsource]
    constructor
    · rintro ⟨hq, hroot⟩
      have hql := hrootMem q hroot
      exact ⟨⟨hq, hql⟩, by rw [if_neg hql, hroot]⟩
    · rintro ⟨⟨hq, hql⟩, hroot⟩
      rw [if_neg hql] at hroot
      exact ⟨hq, hroot⟩
  · obtain ⟨hold, hql⟩ := (hsome q).mp hq
    obtain ⟨r, hr, hrq⟩ := h.below q hold
    refine ⟨r, by rw [hsource, if_neg (hrootMem r hr), hr], above_congr hrq fun z _ hzq _ => ?_⟩
    rw [hsource, if_neg fun hz => hql ((hmem q).mpr (((hmem z).mp hz).trans hzq))]
  · obtain ⟨nodes, hnodes, hcard⟩ := h.counted
    refine ⟨nodes \ l.toFinset, fun q => ?_, ?_⟩
    · rw [Finset.mem_sdiff, List.mem_toFinset, hnodes, hsome]
    · rw [Finset.card_sdiff_of_subset, List.toFinset_card_of_nodup hnodup, hcard, hcount]
      intro q hq
      exact (hnodes q).mpr (h.isSome_of_above (isSome_of_source h.linked hs).1
        ((hmem q).mp (List.mem_toFinset.mp hq)))

/-- The nodes below a node, in the order of a traversal. -/
theorem Consistent.exists_covers (h : Consistent g) (hn : (g.nodes n).isSome) :
    ∃ l, Covers g.links.branches [n] l ∧ l.Nodup ∧ (∀ q, q ∈ l ↔ Above g.links.source n q) ∧
      (∀ q ∈ l, (g.nodes q).isSome) ∧ l.length ≤ g.nodeCount := by
  obtain ⟨nodes, hnodes, hcard⟩ := h.counted
  obtain ⟨r, hr, hrn⟩ := h.below n hn
  obtain ⟨l, hl, hnodup, hmem⟩ := Lib.exists_covers h.linked.mem_branches h.linked.branches_nodup hr
    hrn (h.finite_below hn)
  have hsome : ∀ q ∈ l, (g.nodes q).isSome := fun q hq => h.isSome_of_above hn ((hmem q).mp hq)
  refine ⟨l, hl, hnodup, hmem, hsome, ?_⟩
  rw [← hcard, ← List.toFinset_card_of_nodup hnodup]
  exact Finset.card_le_card fun q hq => (hnodes q).mpr (hsome q (List.mem_toFinset.mp hq))

/-- Dropping the sub-tree of a node that is no root removes the node and what is below it. -/
theorem dropSubTree_spec (h : Consistent g) (hn : g.links.source n ≠ none) :
    ∃ g', g.dropSubTree n = some g' ∧ DroppedSubTree g n g' := by
  obtain ⟨s, hs⟩ := Option.ne_none_iff_exists'.mp hn
  obtain ⟨hsomeN, -⟩ := isSome_of_source h.linked hs
  obtain ⟨l, hl, hnodup, hmem, hlsome, hlen⟩ := h.exists_covers hsomeN
  obtain ⟨g₁, cut, hdrop, hcut, hlinks, hnodes, hsome, hroots, hcount⟩ := exists_detached h hs
  -- the source is not below the node
  have hbeside : ∀ q ∈ l, q ≠ s := by
    rintro q hq rfl
    exact h.acyclic n hs ((hmem q).mp hq)
  obtain ⟨g', hg', hdestroyed⟩ := destroy_spec g.nodeCount g₁ n l
    (hl.congr fun q hq => branches_congr (hnodes q (hbeside q hq))) hnodup
    (fun q hq => by rw [hsome]; exact hlsome q hq) hlen
  have hsome' : ∀ q, (g'.nodes q).isSome ↔ (g.nodes q).isSome ∧ q ∉ l := by
    intro q
    rw [hdestroyed.nodes]
    split
    · exact iff_of_false Bool.false_ne_true fun hq => hq.2 ‹_›
    · rw [hsome]
      exact (and_iff_left ‹_›).symm
  have hlinks' : g'.links = g₁.links.prune (· ∈ l) := hdestroyed.links
  have hkept : ∀ q, (g'.nodes q).isSome → q ∉ l := fun q hq => ((hsome' q).mp hq).2
  have hprune : g₁.links.prune (· ∈ l) = cut.prune (· ∈ l) := by
    have hself : n ∈ l := (hmem n).mpr (Above.refl _ n)
    rw [hlinks]
    unfold NodeLinks.prune
    dsimp only
    rw [hcut.prev, hcut.copySource]
    congr 1
    · funext q
      by_cases hq : q ∈ l
      · rw [if_pos hq, if_pos hq]
      · rw [if_neg hq, if_neg hq, Function.update_of_ne (ne_of_mem_of_not_mem hself hq).symm]
    · funext q
      by_cases hq : q ∈ l
      · rw [if_pos hq, if_pos hq]
      · rw [if_neg hq, if_neg hq, Function.update_of_ne (ne_of_mem_of_not_mem hself hq).symm]
  refine ⟨g', hdrop.trans hg', ?_, fun q => ?_, fun q hq => ?_, fun q hq => ?_⟩
  · exact consistent_of_prune h hs hcut hnodup hmem (hlinks'.trans hprune) hsome'
      (hdestroyed.roots.trans hroots) (by rw [hdestroyed.nodeCount, hcount])
  · rw [hsome', hmem]
  · rw [hlinks', hlinks]
    exact if_neg (hkept q hq)
  · rw [hlinks', hlinks]
    exact if_neg (hkept q hq)

end CVisibleGraph

end TortoiseSvn.RevisionGraph
