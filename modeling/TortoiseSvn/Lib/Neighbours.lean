import Mathlib.Data.List.Destutter
import Mathlib.Data.List.Duplicate
import Mathlib.Data.List.Pairwise
import Mathlib.Order.Defs.LinearOrder
import Mathlib.Tactic

/-!
# Removing neighbours from a sorted list

`destutter` keeps an element of a list unless the last element that was kept covers it. When things
are nested, and what covers a thing is sorted before it, this leaves nothing that covers something
else, unless a topmost thing is separated from one that it covers. For equality, it leaves no
duplicates, unless the order takes different things for the same.

Main results: `Nested.pairwise_iff`, `nodup_destutter_iff`.
-/

namespace TortoiseSvn.Lib.Neighbours

open scoped List

variable {α κ : Type*}

/-- Behind an element there comes one that is not related to it, before one that is. -/
theorem exists_next {R : α → α → Prop} {l : List α} {x y : α} (hchain : l.IsChain R)
    (hsub : [x, y] <+ l) (hR : ¬ R x y) : ∃ q, [x, q, y] <+ l ∧ R x q := by
  induction l with
  | nil => exact nomatch List.sublist_nil.mp hsub
  | cons a l ih =>
    cases hsub with
    | cons _ hsub =>
      obtain ⟨q, hq, hxq⟩ := ih hchain.tail hsub
      exact ⟨q, hq.cons a, hxq⟩
    | cons_cons _ hsub =>
      cases l with
      | nil => exact nomatch List.sublist_nil.mp hsub
      | cons q l =>
        have hxq := (List.isChain_cons_cons.mp hchain).1
        cases hsub with
        | cons _ hsub => exact ⟨q, (hsub.cons_cons q).cons_cons x, hxq⟩
        | cons_cons _ _ => exact absurd hxq hR

variable [LinearOrder κ]

/-! ### Nested things -/

/-- What covers a thing does not stand behind it, and of two that cover a thing, the first one
covers the other one. -/
structure Nested (key : α → κ) (covers : α → α → Prop) : Prop where
  of_key_eq : ∀ {a b}, key a = key b → covers a b
  key_le : ∀ {a b}, covers a b → key a ≤ key b
  trans : ∀ {a b c}, covers a b → covers b c → covers a c
  first : ∀ {a b c}, covers a c → covers b c → key a ≤ key b → covers a b

namespace Nested

variable {key : α → κ} {covers : α → α → Prop} [DecidableRel covers] {l : List α} {a b x y : α}

omit [DecidableRel covers] in
theorem refl (h : Nested key covers) (a : α) : covers a a := h.of_key_eq rfl

/-- Nothing else covers it. -/
def Topmost (covers : α → α → Prop) (l : List α) (p : α) : Prop := ∀ a ∈ l, covers a p → covers p a

/-- Something that covers `r` stands before it, but something else stands between them. -/
def Separated (key : α → κ) (covers : α → α → Prop) (l : List α) : Prop :=
  ∃ p ∈ l, ∃ q ∈ l, ∃ r ∈ l, Topmost covers l p ∧ key p < key q ∧ key q < key r ∧ covers p r ∧
    ¬ covers p q

/-- Everything is covered by something that is kept, and so is what stands between them. -/
theorem exists_kept' (h : Nested key covers) (hsorted : (a :: l).Pairwise fun x y => key x ≤ key y)
    (hx : x ∈ a :: l) : ∃ y ∈ l.destutter' (fun a b => ¬ covers a b) a, covers y x ∧
      ∀ z ∈ a :: l, key y < key z → key z < key x → covers y z := by
  induction l generalizing a with
  | nil =>
    obtain rfl := List.mem_singleton.mp hx
    exact ⟨x, List.mem_singleton_self x, h.refl x, fun z _ hyz hzx =>
      absurd (hyz.trans hzx) (lt_irrefl _)⟩
  | cons b l ih =>
    obtain ⟨ha, hrest⟩ := List.pairwise_cons.mp hsorted
    obtain ⟨hb, hl⟩ := List.pairwise_cons.mp hrest
    by_cases hab : covers a b
    · rw [List.destutter'_cons_neg _ (not_not.mpr hab)]
      have hsorted' : (a :: l).Pairwise fun x y => key x ≤ key y :=
        List.pairwise_cons.mpr ⟨fun z hz => ha z (List.mem_cons_of_mem _ hz), hl⟩
      have hcase : x = b ∨ x ∈ a :: l := by
        rw [List.mem_cons, List.mem_cons] at hx
        rw [List.mem_cons]
        tauto
      rcases hcase with rfl | hx
      · -- the element that is not kept
        refine ⟨a, List.mem_destutter' _ _ _, hab, fun z hz haz hzx => ?_⟩
        rcases List.mem_cons.mp hz with rfl | hz
        · exact absurd haz (lt_irrefl _)
        · rcases List.mem_cons.mp hz with rfl | hz
          · exact absurd hzx (lt_irrefl _)
          · exact absurd hzx (hb z hz).not_gt
      · obtain ⟨y, hy, hyx, hbetween⟩ := ih hsorted' hx
        refine ⟨y, hy, hyx, fun z hz hyz hzx => ?_⟩
        rw [List.mem_cons, List.mem_cons] at hz
        rcases hz with rfl | rfl | hz
        · exact hbetween z (List.mem_cons_self ..) hyz hzx
        · rcases List.mem_cons.mp ((List.destutter'_sublist _ _ _).subset hy) with rfl | hy
          · exact hab
          · exact absurd hyz (hb y hy).not_gt
        · exact hbetween z (List.mem_cons_of_mem _ hz) hyz hzx
    · rw [List.destutter'_cons_pos _ hab]
      rcases List.mem_cons.mp hx with rfl | hx
      · exact ⟨x, List.mem_cons_self .., h.refl x, fun z _ hyz hzx =>
          absurd (hyz.trans hzx) (lt_irrefl _)⟩
      · obtain ⟨y, hy, hyx, hbetween⟩ := ih hrest hx
        refine ⟨y, List.mem_cons_of_mem _ hy, hyx, fun z hz hyz hzx => ?_⟩
        rcases List.mem_cons.mp hz with rfl | hz
        · have hy' := (List.destutter'_sublist _ _ _).subset hy
          exact absurd hyz (ha y hy').not_gt
        · exact hbetween z hz hyz hzx

theorem exists_kept (h : Nested key covers) (hsorted : l.Pairwise fun x y => key x ≤ key y)
    (hx : x ∈ l) : ∃ y ∈ l.destutter (fun a b => ¬ covers a b), covers y x ∧
      ∀ z ∈ l, key y < key z → key z < key x → covers y z := by
  cases l with
  | nil => exact absurd hx List.not_mem_nil
  | cons a l => exact h.exists_kept' hsorted hx

omit [DecidableRel covers] in
/-- The order of two elements of a sorted list. -/
theorem sublist_of_key_lt (hsorted : l.Pairwise fun x y => key x ≤ key y) (hx : x ∈ l) (hy : y ∈ l)
    (hlt : key x < key y) : [x, y] <+ l := by
  induction l with
  | nil => exact absurd hx List.not_mem_nil
  | cons a l ih =>
    obtain ⟨ha, hl⟩ := List.pairwise_cons.mp hsorted
    rcases List.mem_cons.mp hy with rfl | hy'
    · rcases List.mem_cons.mp hx with rfl | hx'
      · exact absurd hlt (lt_irrefl _)
      · exact absurd hlt (ha x hx').not_gt
    · rcases List.mem_cons.mp hx with rfl | hx'
      · exact (List.singleton_sublist.mpr hy').cons_cons x
      · exact (ih hl hx' hy').cons a

/-- Between something that is kept and something else that it covers, there stands something that it
does not cover. -/
theorem exists_between (h : Nested key covers) (hsorted : l.Pairwise fun x y => key x ≤ key y)
    (hsub : [x, y] <+ l.destutter fun a b => ¬ covers a b) (hxy : covers x y) :
    ∃ q ∈ l, key x < key q ∧ key q < key y ∧ ¬ covers x q := by
  obtain ⟨q, hq, hxq⟩ := exists_next (List.isChain_destutter _ l) hsub (not_not.mpr hxy)
  have hql := hq.trans (List.destutter_sublist _ l)
  obtain ⟨hx, hrest⟩ := List.pairwise_cons.mp (hsorted.sublist hql)
  have hxq' := hx q (List.mem_cons_self ..)
  have hqy := (List.pairwise_cons.mp hrest).1 y (List.mem_singleton_self y)
  refine ⟨q, hql.subset (by simp), lt_of_le_of_ne hxq' fun heq => ?_,
    lt_of_le_of_ne hqy fun heq => ?_, hxq⟩
  · exact hxq (h.of_key_eq heq)
  · exact hxq (h.trans hxy (h.of_key_eq heq.symm))

omit [DecidableRel covers] in
/-- Among what covers a thing there is a topmost thing. -/
theorem exists_topmost (h : Nested key covers) (hx : x ∈ l) :
    ∃ a ∈ l, covers a x ∧ Topmost covers l a := by
  classical
  obtain ⟨a, ha, hmin⟩ := (l.toFinset.filter fun a => covers a x).exists_min_image key
    ⟨x, Finset.mem_filter.mpr ⟨List.mem_toFinset.mpr hx, h.refl x⟩⟩
  obtain ⟨ha, hax⟩ := Finset.mem_filter.mp ha
  refine ⟨a, List.mem_toFinset.mp ha, hax, fun b hb hba => ?_⟩
  have hle := hmin b (Finset.mem_filter.mpr ⟨List.mem_toFinset.mpr hb, h.trans hba hax⟩)
  exact h.of_key_eq (le_antisymm hle (h.key_le hba))

/-- **Nothing that is kept covers something else, iff no topmost thing is separated from one that it
covers.** -/
theorem pairwise_iff (h : Nested key covers) (hsorted : l.Pairwise fun x y => key x ≤ key y) :
    ((l.destutter fun a b => ¬ covers a b).Pairwise fun a b => ¬ covers a b ∧ ¬ covers b a) ↔
      ¬ Separated key covers l := by
  have hkept := List.destutter_sublist (fun a b => ¬ covers a b) l
  have hsorted' := hsorted.sublist hkept
  constructor
  · rintro hpair ⟨p, hp, q, hq, r, hr, htop, hpq, hqr, hpr, hnot⟩
    have heq : ∀ x ∈ l.destutter (fun a b => ¬ covers a b),
        ∀ y ∈ l.destutter (fun a b => ¬ covers a b), covers x y → x = y := by
      intro x hx y hy hxy
      by_contra hne
      have : Std.Symm fun a b => ¬ covers a b ∧ ¬ covers b a := ⟨fun _ _ hab => hab.symm⟩
      exact (List.Pairwise.forall hpair hx hy hne).1 hxy
    -- `p` stands for the first of the things with its key
    obtain ⟨p', hp', hpp, -⟩ := h.exists_kept hsorted hp
    have hback := htop p' (hkept.subset hp') hpp
    have hkey := le_antisymm (h.key_le hback) (h.key_le hpp)
    obtain ⟨y, hy, hyr, hbetween⟩ := h.exists_kept hsorted hr
    rcases le_or_gt (key y) (key p') with hle | hlt
    · obtain rfl := heq y hy p' hp' (h.first hyr (h.trans hpp hpr) hle)
      exact hnot (h.trans hback (hbetween q hq (hkey ▸ hpq) hqr))
    · have hp'y := heq p' hp' y hy (h.first (h.trans hpp hpr) hyr hlt.le)
      exact absurd hlt (hp'y ▸ lt_irrefl _)
  · intro hsep
    rw [List.pairwise_iff_forall_sublist]
    intro x y hsub
    rw [← not_or]
    intro hor
    have hle : key x ≤ key y := (List.pairwise_cons.mp (hsorted'.sublist hsub)).1 y
      (List.mem_singleton_self y)
    have hxy : covers x y := hor.elim id fun hyx =>
      h.of_key_eq (le_antisymm hle (h.key_le hyx))
    have hx : x ∈ l.destutter fun a b => ¬ covers a b := hsub.subset (List.mem_cons_self ..)
    obtain ⟨a, ha, hax, htop⟩ := h.exists_topmost (hkept.subset hx)
    obtain ⟨p, hp, hpa, -⟩ := h.exists_kept hsorted ha
    have hap := htop p (hkept.subset hp) hpa
    have htop' : Topmost covers l p := fun b hb hbp =>
      h.trans hpa (htop b hb (h.trans hbp hpa))
    have hpx := h.trans hpa hax
    obtain ⟨y', hsub', hpy⟩ : ∃ y', [p, y'] <+ l.destutter (fun a b => ¬ covers a b) ∧
        covers p y' := by
      rcases (h.key_le hpx).lt_or_eq with hlt | heq
      · exact ⟨x, sublist_of_key_lt hsorted' hp hx hlt, hpx⟩
      · -- the topmost thing is the first one itself, or one with the same key
        obtain ⟨q, -, hxq, hqy, -⟩ := h.exists_between hsorted hsub hxy
        have hy : y ∈ l.destutter fun a b => ¬ covers a b := hsub.subset (by simp)
        exact ⟨y, sublist_of_key_lt hsorted' hp hy (heq ▸ hxq.trans hqy), h.trans hpx hxy⟩
    obtain ⟨q, hq, hpq, hqy, hnot⟩ := h.exists_between hsorted hsub' hpy
    have hy' : y' ∈ l.destutter fun a b => ¬ covers a b := hsub'.subset (by simp)
    exact hsep ⟨p, hkept.subset hp, q, hq, y', hkept.subset hy', htop', hpq, hqy, hpy, hnot⟩

end Nested

/-! ### Duplicates -/

section Duplicates

variable [DecidableEq α] {l : List α} {a x y : α}

omit [LinearOrder κ] in
theorem mem_destutter'_ne : x ∈ l.destutter' (· ≠ ·) a ↔ x = a ∨ x ∈ l := by
  induction l generalizing a with
  | nil =>
    rw [List.destutter'_nil, List.mem_singleton]
    exact (or_iff_left List.not_mem_nil).symm
  | cons b l ih =>
    rw [List.mem_cons]
    by_cases hab : a = b
    · rw [List.destutter'_cons_neg _ (not_not.mpr hab), ih, hab]
      tauto
    · rw [List.destutter'_cons_pos _ hab, List.mem_cons, ih]

omit [LinearOrder κ] in
/-- Nothing gets lost but duplicates. -/
theorem mem_destutter_ne : x ∈ l.destutter (· ≠ ·) ↔ x ∈ l := by
  cases l with
  | nil => exact Iff.rfl
  | cons a l => exact mem_destutter'_ne.trans List.mem_cons.symm

omit [LinearOrder κ] in
/-- What comes back after something else is kept twice. -/
theorem not_nodup_of_sublist (hxy : x ≠ y) (hsub : [x, y, x] <+ l) :
    ¬ (l.destutter (· ≠ ·)).Nodup := by
  induction l with
  | nil => exact nomatch List.sublist_nil.mp hsub
  | cons a l ih =>
    cases l with
    | nil => exact absurd hsub.length_le (by simp)
    | cons b l =>
      rw [List.destutter_cons_cons]
      by_cases hab : a = b
      · -- the first element is dropped
        subst hab
        rw [if_neg (not_not.mpr rfl)]
        refine ih ?_
        cases hsub with
        | cons _ hsub => exact hsub
        | cons_cons _ hsub =>
          cases hsub with
          | cons _ hsub => exact hsub.cons_cons x
          | cons_cons _ _ => exact absurd rfl hxy
      · rw [if_pos hab]
        intro hnodup
        obtain ⟨ha, hrest⟩ := List.nodup_cons.mp hnodup
        cases hsub with
        | cons _ hsub => exact ih hsub hrest
        | cons_cons _ hsub =>
          have hx : x ∈ b :: l := hsub.subset (by simp)
          exact ha (mem_destutter'_ne.mpr (List.mem_cons.mp hx))

/-- **However a list is sorted, no duplicates are kept, iff the order does not take anything for
the same as something that stands in the list twice.** -/
theorem nodup_destutter_iff (key : α → κ) (l : List α) :
    (∀ s : List α, s.Perm l → s.Pairwise (fun x y => key x ≤ key y) →
      (s.destutter (· ≠ ·)).Nodup) ↔
      ∀ x, l.Duplicate x → ∀ y ∈ l, key y = key x → y = x := by
  constructor
  · intro hall x hxx y hy hkey
    by_contra hne
    obtain ⟨rest, hrest⟩ := (List.duplicate_iff_sublist.mp hxx).exists_perm_append
    have hy' : y ∈ rest := by
      rcases List.mem_append.mp (hrest.mem_iff.mp hy) with hmem | hmem
      · exact absurd (by simpa using hmem) hne
      · exact hmem
    obtain ⟨others, hothers⟩ := (List.singleton_sublist.mpr hy').exists_perm_append
    have hperm : l.Perm ([x, y, x] ++ others) := by
      refine hrest.trans ((hothers.append_left [x, x]).trans ?_)
      exact ((List.Perm.swap y x []).append_right others).cons x
    -- a stable sort keeps the three elements in this order
    let le : α → α → Bool := fun a b => decide (key a ≤ key b)
    have htrans : ∀ a b c, le a b → le b c → le a c := fun a b c hab hbc =>
      decide_eq_true ((of_decide_eq_true hab).trans (of_decide_eq_true hbc))
    have htotal : ∀ a b, le a b || le b a := fun a b => by
      simpa [le] using le_total (key a) (key b)
    have hthree : [x, y, x].Pairwise fun a b => le a b := by
      simp [le, hkey]
    have hsub := List.sublist_mergeSort htrans htotal hthree
      (List.sublist_append_left [x, y, x] others)
    have hsorted := List.pairwise_mergeSort htrans htotal ([x, y, x] ++ others)
    exact not_nodup_of_sublist (Ne.symm hne) hsub
      (hall _ ((List.mergeSort_perm _ _).trans hperm.symm)
        (hsorted.imp fun hab => of_decide_eq_true hab))
  · intro hdup s hperm hsorted
    rw [List.nodup_iff_sublist]
    intro x hxx
    obtain ⟨q, hq, hxq⟩ := exists_next (List.isChain_destutter _ s) hxx (not_not.mpr rfl)
    have hqs := hq.trans (List.destutter_sublist _ s)
    obtain ⟨hx, hrest⟩ := List.pairwise_cons.mp (hsorted.sublist hqs)
    have hxq' := hx q (List.mem_cons_self ..)
    have hqx := (List.pairwise_cons.mp hrest).1 x (List.mem_singleton_self x)
    have htwice : l.Duplicate x := by
      rw [List.duplicate_iff_two_le_count, ← hperm.count_eq, ← List.duplicate_iff_two_le_count,
        List.duplicate_iff_sublist]
      exact hxx.trans (List.destutter_sublist _ s)
    have hmem : q ∈ l := hperm.mem_iff.mp (hqs.subset (by simp))
    exact hxq (hdup x htwice q hmem (le_antisymm hqx hxq')).symm

end Duplicates

end TortoiseSvn.Lib.Neighbours
