import TortoiseSvn.Lib.Forest
import TortoiseSvn.Lib.Heap

/-!
# Links between graph nodes

The nodes of the full and of the visible graph are linked in the same way. A branch is a chain of
nodes along `next` and `prev`. It begins at a root or at a copy target, which has a `copySource` and
stands in that node's list of copy targets.

`Linked` says that forward and backward links agree. It is kept when a node without a source is
appended to a chain or hung below a node, and when it is cut off there.
-/

namespace TortoiseSvn.RevisionGraph

open TortoiseSvn.Lib

/-! ### Classification -/

/-- Flags of a node. Source: `NodeClassification.h` `CNodeClassification` -/
abbrev CNodeClassification := UInt32

namespace CNodeClassification

/-- Source: `NodeClassification.h` `EFlags` -/
def IS_RENAMED : CNodeClassification := 0x00000080

@[inherit_doc IS_RENAMED] def IS_COPY_TARGET : CNodeClassification := 0x02000000

/-- Source: `NodeClassification.h` `CNodeClassification::Matches` -/
def matchesFlags (flags required forbidden : CNodeClassification) : Bool :=
  flags &&& (required ||| forbidden) = required

/-- Source: `NodeClassification.h` `CNodeClassification::Is` -/
def is (flags value : CNodeClassification) : Bool := matchesFlags flags value 0

end CNodeClassification

/-! ### Links -/

/-- The links of all nodes of a graph. Unused addresses have none. -/
@[ext] structure NodeLinks where
  prev : ℕ → Option ℕ
  next : ℕ → Option ℕ
  copySource : ℕ → Option ℕ
  /-- The nodes in the list that begins at `firstCopyTarget`. -/
  copyTargets : ℕ → List ℕ

namespace NodeLinks

/-- Source: `FullGraphNode.h`, `VisibleGraphNode.h` `GetSource` -/
def source (l : NodeLinks) (n : ℕ) : Option ℕ := (l.copySource n).or (l.prev n)

/-- The nodes that a node links to: the next one and its copy targets. -/
def branches (l : NodeLinks) (n : ℕ) : List ℕ := (l.next n).toList ++ l.copyTargets n

/-- Forward and backward links agree. -/
structure Linked (l : NodeLinks) : Prop where
  next_iff : ∀ n m, l.next n = some m ↔ l.prev m = some n
  target_iff : ∀ n m, m ∈ l.copyTargets n ↔ l.copySource m = some n
  nodup : ∀ n, (l.copyTargets n).Nodup
  one : ∀ n, l.prev n = none ∨ l.copySource n = none

variable {l : NodeLinks}

theorem source_eq_none {n : ℕ} : l.source n = none ↔ l.prev n = none ∧ l.copySource n = none := by
  rw [source, Option.or_eq_none_iff, and_comm]

theorem Linked.source_eq_some (h : Linked l) {n m : ℕ} :
    l.source m = some n ↔ l.prev m = some n ∨ l.copySource m = some n := by
  unfold source
  rcases h.one m with hnone | hnone
  · rw [hnone, Option.or_none]
    exact (or_iff_right (Option.some_ne_none n).symm).symm
  · rw [hnone, Option.none_or]
    exact (or_iff_left (Option.some_ne_none n).symm).symm

theorem Linked.mem_branches (h : Linked l) (n m : ℕ) : m ∈ l.branches n ↔ l.source m = some n := by
  rw [branches, List.mem_append, Option.mem_toList, h.target_iff, h.source_eq_some, ← h.next_iff]

theorem Linked.branches_nodup (h : Linked l) (n : ℕ) : (l.branches n).Nodup := by
  refine List.nodup_append'.mpr ⟨?_, h.nodup n, ?_⟩
  · cases l.next n with
    | none => exact List.nodup_nil
    | some m => exact List.nodup_singleton m
  · intro m hm hm'
    have hprev := (h.next_iff n m).mp (Option.mem_toList.mp hm)
    have hcopy := (h.target_iff n m).mp hm'
    rcases h.one m with hnone | hnone
    · exact Option.some_ne_none n (hprev.symm.trans hnone)
    · exact Option.some_ne_none n (hcopy.symm.trans hnone)

/-! ### Attaching nodes -/

/-- Link a node behind the last node of a chain. -/
def append (l : NodeLinks) (s n : ℕ) : NodeLinks :=
  { l with next := Function.update l.next s (some n), prev := Function.update l.prev n (some s) }

/-- Put a node in front of the copy targets of another one. -/
def hang (l : NodeLinks) (s n : ℕ) : NodeLinks :=
  { l with
    copySource := Function.update l.copySource n (some s)
    copyTargets := Function.update l.copyTargets s (n :: l.copyTargets s) }

theorem Linked.append (h : Linked l) {s n : ℕ} (hs : l.next s = none) (hn : l.source n = none) :
    Linked (l.append s n) := by
  obtain ⟨hprev, hcopy⟩ := source_eq_none.mp hn
  have hbefore : ∀ q, l.next q ≠ some n := fun q hq =>
    Option.some_ne_none q (((h.next_iff q n).mp hq).symm.trans hprev)
  refine ⟨fun q m => ?_, h.target_iff, h.nodup, fun m => ?_⟩
  · show Function.update l.next s (some n) q = some m ↔ Function.update l.prev n (some s) m = some q
    by_cases hq : q = s
    · subst hq
      rw [Function.update_self]
      by_cases hm : m = n
      · subst hm
        rw [Function.update_self]
        exact iff_of_true rfl rfl
      · rw [Function.update_of_ne hm, ← h.next_iff, hs]
        exact iff_of_false (fun heq => hm (Option.some.inj heq).symm) (Option.some_ne_none m).symm
    · rw [Function.update_of_ne hq]
      by_cases hm : m = n
      · subst hm
        rw [Function.update_self]
        exact iff_of_false (hbefore q) fun heq => hq (Option.some.inj heq).symm
      · rw [Function.update_of_ne hm]
        exact h.next_iff q m
  · show Function.update l.prev n (some s) m = none ∨ l.copySource m = none
    by_cases hm : m = n
    · rw [hm]
      exact Or.inr hcopy
    · rw [Function.update_of_ne hm]
      exact h.one m

theorem Linked.hang (h : Linked l) {s n : ℕ} (hn : l.source n = none) : Linked (l.hang s n) := by
  obtain ⟨hprev, hcopy⟩ := source_eq_none.mp hn
  have hnot : ∀ q, n ∉ l.copyTargets q := fun q hq =>
    Option.some_ne_none q (((h.target_iff q n).mp hq).symm.trans hcopy)
  refine ⟨h.next_iff, fun q m => ?_, fun q => ?_, fun m => ?_⟩
  · show m ∈ Function.update l.copyTargets s (n :: l.copyTargets s) q ↔
      Function.update l.copySource n (some s) m = some q
    by_cases hm : m = n
    · subst hm
      rw [Function.update_self]
      by_cases hq : q = s
      · subst hq
        rw [Function.update_self]
        exact iff_of_true List.mem_cons_self rfl
      · rw [Function.update_of_ne hq]
        exact iff_of_false (hnot q) fun heq => hq (Option.some.inj heq).symm
    · rw [Function.update_of_ne hm, ← h.target_iff]
      by_cases hq : q = s
      · subst hq
        rw [Function.update_self]
        exact List.mem_cons.trans (or_iff_right hm)
      · rw [Function.update_of_ne hq]
  · show (Function.update l.copyTargets s (n :: l.copyTargets s) q).Nodup
    by_cases hq : q = s
    · subst hq
      rw [Function.update_self]
      exact List.nodup_cons.mpr ⟨hnot q, h.nodup q⟩
    · rw [Function.update_of_ne hq]
      exact h.nodup q
  · show l.prev m = none ∨ Function.update l.copySource n (some s) m = none
    by_cases hm : m = n
    · rw [hm]
      exact Or.inl hprev
    · rw [Function.update_of_ne hm]
      exact h.one m

theorem source_append {s n : ℕ} (hn : l.source n = none) :
    (l.append s n).source = Function.update l.source n (some s) := by
  obtain ⟨-, hcopy⟩ := source_eq_none.mp hn
  funext m
  unfold source NodeLinks.append
  dsimp only
  by_cases hm : m = n
  · rw [hm, Function.update_self, Function.update_self, hcopy, Option.none_or]
  · rw [Function.update_of_ne hm, Function.update_of_ne hm]

theorem source_hang {s n : ℕ} : (l.hang s n).source = Function.update l.source n (some s) := by
  funext m
  unfold source NodeLinks.hang
  dsimp only
  by_cases hm : m = n
  · rw [hm, Function.update_self, Function.update_self, Option.some_or]
  · rw [Function.update_of_ne hm, Function.update_of_ne hm]

/-! ### Cutting nodes off -/

/-- Cut a chain behind a node. -/
def cutNext (l : NodeLinks) (s n : ℕ) : NodeLinks :=
  { l with next := Function.update l.next s none, prev := Function.update l.prev n none }

/-- Take a node out of the copy targets of another one. -/
def cutTarget (l : NodeLinks) (s i n : ℕ) : NodeLinks :=
  { l with
    copySource := Function.update l.copySource n none
    copyTargets := Function.update l.copyTargets s ((l.copyTargets s).eraseIdx i) }

theorem Linked.cutNext (h : Linked l) {s n : ℕ} (hs : l.next s = some n) : Linked (l.cutNext s n) := by
  refine ⟨fun q m => ?_, h.target_iff, h.nodup, fun m => ?_⟩
  · show Function.update l.next s none q = some m ↔ Function.update l.prev n none m = some q
    by_cases hq : q = s
    · subst hq
      rw [Function.update_self]
      refine iff_of_false (Option.some_ne_none m).symm fun heq => ?_
      by_cases hm : m = n
      · rw [hm, Function.update_self] at heq
        exact nomatch heq
      · rw [Function.update_of_ne hm, ← h.next_iff, hs] at heq
        exact hm (Option.some.inj heq).symm
    · rw [Function.update_of_ne hq]
      by_cases hm : m = n
      · subst hm
        rw [Function.update_self]
        refine iff_of_false (fun heq => hq ?_) (Option.some_ne_none q).symm
        exact Option.some.inj (((h.next_iff q m).mp heq).symm.trans ((h.next_iff s m).mp hs))
      · rw [Function.update_of_ne hm]
        exact h.next_iff q m
  · show Function.update l.prev n none m = none ∨ l.copySource m = none
    by_cases hm : m = n
    · rw [hm, Function.update_self]
      exact Or.inl rfl
    · rw [Function.update_of_ne hm]
      exact h.one m

theorem Linked.cutTarget (h : Linked l) {s i n : ℕ} (hi : (l.copyTargets s)[i]? = some n) :
    Linked (l.cutTarget s i n) := by
  obtain ⟨hlt, hget⟩ := List.getElem?_eq_some_iff.mp hi
  have hsource := (h.target_iff s n).mp (List.mem_of_getElem? hi)
  have herase : (l.copyTargets s).eraseIdx i = (l.copyTargets s).erase n := by
    rw [← hget]
    exact ((h.nodup s).erase_getElem i hlt).symm
  refine ⟨h.next_iff, fun q m => ?_, fun q => ?_, fun m => ?_⟩
  · show m ∈ Function.update l.copyTargets s ((l.copyTargets s).eraseIdx i) q ↔
      Function.update l.copySource n none m = some q
    have hmem : m ∈ Function.update l.copyTargets s ((l.copyTargets s).eraseIdx i) q ↔
        m ≠ n ∧ m ∈ l.copyTargets q := by
      by_cases hq : q = s
      · subst hq
        rw [Function.update_self, herase, (h.nodup q).mem_erase_iff]
      · rw [Function.update_of_ne hq]
        refine (and_iff_right_of_imp fun hm heq => hq ?_).symm
        rw [heq, h.target_iff, hsource] at hm
        exact (Option.some.inj hm).symm
    rw [hmem]
    by_cases hm : m = n
    · rw [hm, Function.update_self]
      exact iff_of_false (fun hn => hn.1 rfl) (Option.some_ne_none q).symm
    · rw [Function.update_of_ne hm, and_iff_right hm]
      exact h.target_iff q m
  · show (Function.update l.copyTargets s ((l.copyTargets s).eraseIdx i) q).Nodup
    by_cases hq : q = s
    · rw [hq, Function.update_self]
      exact (h.nodup s).eraseIdx i
    · rw [Function.update_of_ne hq]
      exact h.nodup q
  · show l.prev m = none ∨ Function.update l.copySource n none m = none
    by_cases hm : m = n
    · rw [hm, Function.update_self]
      exact Or.inr rfl
    · rw [Function.update_of_ne hm]
      exact h.one m

theorem Linked.source_cutNext (h : Linked l) {s n : ℕ} (hs : l.next s = some n) :
    (l.cutNext s n).source = Function.update l.source n none := by
  have hprev := (h.next_iff s n).mp hs
  have hcopy := (h.one n).resolve_left (hprev ▸ Option.some_ne_none s)
  funext m
  unfold source NodeLinks.cutNext
  dsimp only
  by_cases hm : m = n
  · rw [hm, Function.update_self, Function.update_self, hcopy, Option.none_or]
  · rw [Function.update_of_ne hm, Function.update_of_ne hm]

theorem Linked.source_cutTarget (h : Linked l) {s i n : ℕ} (hi : (l.copyTargets s)[i]? = some n) :
    (l.cutTarget s i n).source = Function.update l.source n none := by
  have hcopy := (h.target_iff s n).mp (List.mem_of_getElem? hi)
  have hprev := (h.one n).resolve_right (hcopy ▸ Option.some_ne_none s)
  funext m
  unfold source NodeLinks.cutTarget
  dsimp only
  by_cases hm : m = n
  · rw [hm, Function.update_self, Function.update_self, hprev, Option.none_or]
  · rw [Function.update_of_ne hm, Function.update_of_ne hm]

/-! ### Dropping nodes -/

/-- The links without node `n`, whose chain and copy targets go to its source. -/
def drop (l : NodeLinks) (n : ℕ) : NodeLinks where
  prev q := if q = n then none else if l.prev q = some n then l.prev n else l.prev q
  next q := if q = n then none else if l.next q = some n then l.next n else l.next q
  copySource q :=
    if q = n then none
    else if l.prev q = some n then l.copySource n
    else if l.copySource q = some n then l.source n
    else l.copySource q
  copyTargets q :=
    if q = n then []
    else if l.source n = some q then
      (l.copyTargets q ++ l.copyTargets n).flatMap fun t => if t = n then (l.next n).toList else [t]
    else l.copyTargets q

section Drop

variable (h : Linked l) {n : ℕ} (hacyclic : ∀ q, l.source q = some n → ¬ Above l.source q n)

include hacyclic

theorem source_ne_self : l.source n ≠ some n := fun hn => hacyclic n hn (Above.refl _ n)

include h

theorem Linked.drop_next_iff (a b : ℕ) : (l.drop n).next a = some b ↔ (l.drop n).prev b = some a := by
  have hself := source_ne_self hacyclic
  have hprev : l.prev n ≠ some n := fun hn => hself (h.source_eq_some.mpr (Or.inl hn))
  have hnext : l.next n ≠ some n := fun hn => hprev ((h.next_iff n n).mp hn)
  have hab := h.next_iff a b
  have han := h.next_iff a n
  have hnb := h.next_iff n b
  unfold drop
  dsimp only
  by_cases ha : a = n
  · subst ha
    rw [if_pos rfl]
    refine iff_of_false (Option.some_ne_none b).symm fun hb => ?_
    split at hb
    · exact nomatch hb
    · split at hb
      · exact hprev hb
      · exact absurd hb ‹_›
  · rw [if_neg ha]
    by_cases hb : b = n
    · subst hb
      rw [if_pos rfl]
      refine iff_of_false (fun heq => ?_) (Option.some_ne_none a).symm
      split at heq
      · exact hnext heq
      · exact absurd heq ‹_›
    · rw [if_neg hb]
      by_cases hb' : l.prev b = some n
      · rw [if_pos hb']
        by_cases ha' : l.next a = some n
        · rw [if_pos ha']
          exact iff_of_true (hnb.mpr hb') (han.mp ha')
        · rw [if_neg ha', hab, hb', ← han]
          exact iff_of_false (fun heq => ha (Option.some.inj heq).symm) ha'
      · rw [if_neg hb']
        by_cases ha' : l.next a = some n
        · rw [if_pos ha', hnb, ← hab, ha']
          exact iff_of_false hb' fun heq => hb (Option.some.inj heq).symm
        · rw [if_neg ha']
          exact hab

/-- What becomes of the copy targets of the source. -/
theorem Linked.mem_drop_targets {a b : ℕ} (ha : l.source n = some a) (hb : b ≠ n) :
    (b ∈ (l.copyTargets a ++ l.copyTargets n).flatMap
        fun t => if t = n then (l.next n).toList else [t]) ↔
      (l.copySource n = some a ∧ l.prev b = some n) ∨ l.copySource b = some a ∨
        l.copySource b = some n := by
  have hself : n ∉ l.copyTargets n := fun hn =>
    source_ne_self hacyclic (h.source_eq_some.mpr (Or.inr ((h.target_iff n n).mp hn)))
  rw [List.mem_flatMap, ← h.target_iff a n, ← h.next_iff n b, ← h.target_iff a b,
    ← h.target_iff n b]
  constructor
  · rintro ⟨t, ht, hbt⟩
    split at hbt
    · rename_i heq
      subst heq
      exact Or.inl ⟨(List.mem_append.mp ht).resolve_right hself, Option.mem_toList.mp hbt⟩
    · rw [List.mem_singleton] at hbt
      exact Or.inr (hbt ▸ List.mem_append.mp ht)
  · rintro (⟨hn, hnext⟩ | hmem)
    · refine ⟨n, List.mem_append_left _ hn, ?_⟩
      rw [if_pos rfl]
      exact Option.mem_toList.mpr hnext
    · refine ⟨b, List.mem_append.mpr hmem, ?_⟩
      rw [if_neg hb]
      exact List.mem_singleton_self b

theorem Linked.drop_target_iff (a b : ℕ) :
    b ∈ (l.drop n).copyTargets a ↔ (l.drop n).copySource b = some a := by
  have hself := source_ne_self hacyclic
  have hcopy : l.copySource n ≠ some n := fun hn => hself (h.source_eq_some.mpr (Or.inr hn))
  unfold drop
  dsimp only
  by_cases hb : b = n
  · subst hb
    rw [if_pos rfl]
    refine iff_of_false (fun hmem => ?_) (Option.some_ne_none a).symm
    split at hmem
    · exact List.not_mem_nil hmem
    · split at hmem
      · obtain ⟨t, -, ht⟩ := List.mem_flatMap.mp hmem
        split at ht
        · have hnext := (h.next_iff b b).mp (Option.mem_toList.mp ht)
          exact hself (h.source_eq_some.mpr (Or.inl hnext))
        · rename_i hne
          exact hne (List.mem_singleton.mp ht).symm
      · rename_i hne
        exact hne (h.source_eq_some.mpr (Or.inr ((h.target_iff a b).mp hmem)))
  rw [if_neg hb]
  by_cases ha : a = n
  · subst ha
    rw [if_pos rfl]
    refine iff_of_false List.not_mem_nil fun heq => ?_
    split at heq
    · exact hcopy heq
    · split at heq
      · exact hself heq
      · exact absurd heq ‹_›
  rw [if_neg ha]
  have hcopyNone : l.prev b = some n → l.copySource b = none := fun hp =>
    (h.one b).resolve_left (by rw [hp]; exact Option.some_ne_none n)
  by_cases hsource : l.source n = some a
  · rw [if_pos hsource, h.mem_drop_targets hacyclic hsource hb]
    by_cases hp : l.prev b = some n
    · rw [if_pos hp, hcopyNone hp]
      simp only [hp, and_true, reduceCtorEq, or_false]
    · rw [if_neg hp]
      by_cases hc : l.copySource b = some n
      · rw [if_pos hc, hsource]
        exact iff_of_true (Or.inr (Or.inr hc)) rfl
      · rw [if_neg hc]
        simp only [hp, and_false, hc, or_false, false_or]
  · rw [if_neg hsource, h.target_iff]
    by_cases hp : l.prev b = some n
    · rw [if_pos hp, hcopyNone hp]
      exact iff_of_false (Option.some_ne_none a).symm fun heq =>
        hsource (h.source_eq_some.mpr (Or.inr heq))
    · rw [if_neg hp]
      by_cases hc : l.copySource b = some n
      · rw [if_pos hc, hc]
        exact iff_of_false (fun heq => ha (Option.some.inj heq).symm) hsource
      · rw [if_neg hc]

theorem Linked.drop : Linked (l.drop n) := by
  refine ⟨h.drop_next_iff hacyclic, h.drop_target_iff hacyclic, fun q => ?_, fun q => ?_⟩
  · unfold NodeLinks.drop
    dsimp only
    split
    · exact List.nodup_nil
    · rename_i hq
      split
      · rename_i hsource
        -- the next node is in no list of copy targets
        have hnext : ∀ m, l.next n = some m → ∀ a, m ∉ l.copyTargets a := by
          intro m hm a hmem
          have hprev := (h.next_iff n m).mp hm
          have hcopy := (h.target_iff a m).mp hmem
          rcases h.one m with hnone | hnone
          · exact Option.some_ne_none n (hprev.symm.trans hnone)
          · exact Option.some_ne_none a (hcopy.symm.trans hnone)
        have happend : (l.copyTargets q ++ l.copyTargets n).Nodup := by
          refine List.nodup_append'.mpr ⟨h.nodup q, h.nodup n, fun t ht ht' => hq ?_⟩
          have hcopy := (h.target_iff q t).mp ht
          rw [(h.target_iff n t).mp ht'] at hcopy
          exact (Option.some.inj hcopy).symm
        refine List.nodup_flatMap.mpr ⟨fun t _ => ?_, happend.imp_of_mem fun {t t'} ht ht' hne => ?_⟩
        · split
          · cases l.next n with
            | none => exact List.nodup_nil
            | some m => exact List.nodup_singleton m
          · exact List.nodup_singleton t
        · have hother : ∀ m t, l.next n = some m → t ∈ l.copyTargets q ++ l.copyTargets n → m ≠ t := by
            rintro m t hm ht rfl
            rcases List.mem_append.mp ht with ht | ht
            · exact hnext m hm _ ht
            · exact hnext m hm _ ht
          intro m hm hm'
          dsimp only at hm hm'
          split at hm
          · split at hm'
            · exact hne (‹t = n›.trans ‹t' = n›.symm)
            · exact hother m t' (Option.mem_toList.mp hm) ht' (List.mem_singleton.mp hm')
          · split at hm'
            · exact hother m t (Option.mem_toList.mp hm') ht (List.mem_singleton.mp hm)
            · exact hne ((List.mem_singleton.mp hm).symm.trans (List.mem_singleton.mp hm'))
      · exact h.nodup q
  · unfold NodeLinks.drop
    dsimp only
    split
    · exact Or.inl rfl
    · split
      · exact h.one n
      · split
        · rename_i hcopy
          left
          exact (h.one q).resolve_right (by rw [hcopy]; exact Option.some_ne_none n)
        · exact h.one q

end Drop

theorem Linked.source_drop (h : Linked l) {n : ℕ} : (l.drop n).source = Function.update (bypass l.source n) n none := by
  funext q
  by_cases hq : q = n
  · rw [hq, Function.update_self]
    exact source_eq_none.mpr ⟨if_pos rfl, if_pos rfl⟩
  rw [Function.update_of_ne hq, bypass]
  show ((l.drop n).copySource q).or ((l.drop n).prev q) = _
  unfold NodeLinks.drop
  dsimp only
  rw [if_neg hq, if_neg hq]
  by_cases hp : l.prev q = some n
  · rw [if_pos hp, if_pos hp, if_pos (h.source_eq_some.mpr (Or.inl hp))]
    rfl
  · rw [if_neg hp, if_neg hp]
    by_cases hc : l.copySource q = some n
    · have hprev := (h.one q).resolve_right (by rw [hc]; exact Option.some_ne_none n)
      rw [if_pos hc, if_pos (h.source_eq_some.mpr (Or.inr hc)), hprev, Option.or_none]
    · rw [if_neg hc, if_neg fun heq => (h.source_eq_some.mp heq).elim hp hc]
      rfl

end NodeLinks

/-! ### Nodes in memory -/

/-- A node of either graph, with the data that it has besides its links. -/
structure LinkedNode (δ : Type) where
  data : δ
  /-- The list of copy targets. -/
  firstCopyTarget : List ℕ := []
  prev : Option ℕ := none
  next : Option ℕ := none
  copySource : Option ℕ := none
  deriving DecidableEq

/-- The links of the nodes. -/
def linksOf {δ : Type} (nodes : Heap (LinkedNode δ)) : NodeLinks where
  prev := nodes.read LinkedNode.prev none
  next := nodes.read LinkedNode.next none
  copySource := nodes.read LinkedNode.copySource none
  copyTargets := nodes.read LinkedNode.firstCopyTarget []

section Memory

variable {δ : Type} {nodes : Heap (LinkedNode δ)} {n : ℕ}

theorem linksOf_alloc (hn : nodes n = none) (data : δ) :
    linksOf (nodes.alloc n { data := data }) = linksOf nodes :=
  NodeLinks.ext (Heap.read_alloc hn rfl) (Heap.read_alloc hn rfl) (Heap.read_alloc hn rfl)
    (Heap.read_alloc hn rfl)

theorem linksOf_setPrev (hn : (nodes n).isSome) (v : Option ℕ) :
    linksOf (nodes.modify n fun m => { m with prev := v }) =
      { linksOf nodes with prev := Function.update (linksOf nodes).prev n v } :=
  NodeLinks.ext (Heap.read_modify hn (fun _ => v) fun _ => rfl) (Heap.read_modify_other fun _ => rfl)
    (Heap.read_modify_other fun _ => rfl) (Heap.read_modify_other fun _ => rfl)

theorem linksOf_setNext (hn : (nodes n).isSome) (v : Option ℕ) :
    linksOf (nodes.modify n fun m => { m with next := v }) =
      { linksOf nodes with next := Function.update (linksOf nodes).next n v } :=
  NodeLinks.ext (Heap.read_modify_other fun _ => rfl) (Heap.read_modify hn (fun _ => v) fun _ => rfl)
    (Heap.read_modify_other fun _ => rfl) (Heap.read_modify_other fun _ => rfl)

theorem linksOf_setCopySource (hn : (nodes n).isSome) (v : Option ℕ) :
    linksOf (nodes.modify n fun m => { m with copySource := v }) =
      { linksOf nodes with copySource := Function.update (linksOf nodes).copySource n v } :=
  NodeLinks.ext (Heap.read_modify_other fun _ => rfl) (Heap.read_modify_other fun _ => rfl)
    (Heap.read_modify hn (fun _ => v) fun _ => rfl) (Heap.read_modify_other fun _ => rfl)

theorem linksOf_setCopyTargets (hn : (nodes n).isSome) (f : List ℕ → List ℕ) :
    linksOf (nodes.modify n fun m => { m with firstCopyTarget := f m.firstCopyTarget }) =
      { linksOf nodes with
        copyTargets := Function.update (linksOf nodes).copyTargets n
          (f ((linksOf nodes).copyTargets n)) } :=
  NodeLinks.ext (Heap.read_modify_other fun _ => rfl) (Heap.read_modify_other fun _ => rfl)
    (Heap.read_modify_other fun _ => rfl) (Heap.read_modify hn f fun _ => rfl)

theorem linksOf_setData (f : δ → δ) :
    linksOf (nodes.modify n fun m => { m with data := f m.data }) = linksOf nodes :=
  NodeLinks.ext (Heap.read_modify_other fun _ => rfl) (Heap.read_modify_other fun _ => rfl)
    (Heap.read_modify_other fun _ => rfl) (Heap.read_modify_other fun _ => rfl)

theorem linksOf_free (n : ℕ) : linksOf (nodes.free n) =
    { prev := Function.update (linksOf nodes).prev n none
      next := Function.update (linksOf nodes).next n none
      copySource := Function.update (linksOf nodes).copySource n none
      copyTargets := Function.update (linksOf nodes).copyTargets n [] } :=
  NodeLinks.ext Heap.read_free Heap.read_free Heap.read_free Heap.read_free

theorem isSome_of_prev (h : (linksOf nodes).prev n ≠ none) : (nodes n).isSome :=
  Heap.isSome_of_read h

theorem isSome_of_next (h : (linksOf nodes).next n ≠ none) : (nodes n).isSome :=
  Heap.isSome_of_read h

theorem isSome_of_copySource (h : (linksOf nodes).copySource n ≠ none) : (nodes n).isSome :=
  Heap.isSome_of_read h

theorem isSome_of_copyTargets (h : (linksOf nodes).copyTargets n ≠ []) : (nodes n).isSome :=
  Heap.isSome_of_read h

theorem source_of_none (hn : nodes n = none) : (linksOf nodes).source n = none :=
  NodeLinks.source_eq_none.mpr ⟨Heap.read_of_none hn, Heap.read_of_none hn⟩

/-- A node with a source and this source are in memory. -/
theorem isSome_of_source (h : (linksOf nodes).Linked) {s : ℕ}
    (hs : (linksOf nodes).source n = some s) : (nodes n).isSome ∧ (nodes s).isSome := by
  rcases h.source_eq_some.mp hs with hprev | hcopy
  · have hnext := (h.next_iff s n).mpr hprev
    exact ⟨isSome_of_prev (by rw [hprev]; exact Option.some_ne_none s),
      isSome_of_next (by rw [hnext]; exact Option.some_ne_none n)⟩
  · have htarget := (h.target_iff s n).mpr hcopy
    exact ⟨isSome_of_copySource (by rw [hcopy]; exact Option.some_ne_none s),
      isSome_of_copyTargets (List.ne_nil_of_mem htarget)⟩

end Memory

end TortoiseSvn.RevisionGraph
