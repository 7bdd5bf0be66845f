import Mathlib.Tactic
import Mathlib.Logic.Relation

/-!
# Forests given by parents

A forest is a function to parents. `Above` is its ancestor relation, and the lemmas here say what
moving, cutting off and bypassing a node do to it. `follow` goes down along lists of children.

Main result: `existsUnique_follow`. When parents and children agree, exactly one sequence of child
positions leads from a root to each node below it.
-/

namespace TortoiseSvn.Lib

variable {α : Type*} {parent : α → Option α}

/-- A node or one of its ancestors. -/
def Above (parent : α → Option α) : α → α → Prop :=
  Relation.ReflTransGen fun x y => parent y = some x

namespace Above

theorem refl (parent : α → Option α) (x : α) : Above parent x x := Relation.ReflTransGen.refl

theorem step {x y z : α} (h : Above parent x y) (hz : parent z = some y) : Above parent x z :=
  Relation.ReflTransGen.tail h hz

theorem single {x y : α} (h : parent y = some x) : Above parent x y :=
  Relation.ReflTransGen.single h

theorem trans {x y z : α} (h : Above parent x y) (h' : Above parent y z) : Above parent x z :=
  Relation.ReflTransGen.trans h h'

/-- Links that stay keep the paths. -/
theorem mono {parent' : α → Option α} {x y : α} (hxy : Above parent x y)
    (h : ∀ x y, parent y = some x → parent' y = some x) : Above parent' x y :=
  Relation.ReflTransGen.mono h x y hxy

/-- The last step of a path. -/
theorem cases_tail {x y : α} (h : Above parent x y) :
    x = y ∨ ∃ z, Above parent x z ∧ parent y = some z := by
  rcases Relation.ReflTransGen.cases_tail h with rfl | ⟨z, hz, hy⟩
  · exact Or.inl rfl
  · exact Or.inr ⟨z, hz, hy⟩

/-- What is above another node is above the parent of that node, too. -/
theorem of_ne {x y z : α} (h : Above parent x y) (hne : y ≠ x) (hz : parent y = some z) :
    Above parent x z := by
  rcases h.cases_tail with rfl | ⟨z', hz', hy⟩
  · exact absurd rfl hne
  · obtain rfl := Option.some.inj (hz.symm.trans hy)
    exact hz'

/-- A node below another one has a parent. -/
theorem exists_parent {x y : α} (h : Above parent x y) (hne : y ≠ x) : ∃ z, parent y = some z := by
  rcases h.cases_tail with rfl | ⟨z, -, hz⟩
  · exact absurd rfl hne
  · exact ⟨z, hz⟩

/-- Nothing but the root itself is above a root. -/
theorem eq_of_root {x r : α} (h : Above parent x r) (hr : parent r = none) : x = r := by
  rcases h.cases_tail with rfl | ⟨z, -, hz⟩
  · rfl
  · rw [hr] at hz
    exact nomatch hz

/-- Two nodes above a third one are above one another. -/
theorem total {x y z : α} (hx : Above parent x z) (hy : Above parent y z) :
    Above parent x y ∨ Above parent y x := by
  induction hx with
  | refl => exact Or.inr hy
  | tail hxm hz ih =>
    rcases hy.cases_tail with rfl | ⟨z', hyz, hz'⟩
    · exact Or.inl (Relation.ReflTransGen.tail hxm hz)
    · obtain rfl := Option.some.inj (hz.symm.trans hz')
      exact ih hyz

end Above

/-- A node below a root is not its own ancestor. -/
theorem not_above_parent {r x y : α} (hr : parent r = none) (hx : Above parent r x)
    (hy : parent y = some x) : ¬ Above parent y x := by
  intro hyx
  induction hx generalizing y with
  | refl =>
    rw [hyx.eq_of_root hr, hr] at hy
    exact nomatch hy
  | @tail m x _ hm ih =>
    -- the cycle goes through the parent of `x`, too
    rcases hyx.cases_tail with rfl | ⟨z, hyz, hz⟩
    · obtain rfl := Option.some.inj (hm.symm.trans hy)
      exact ih hy (Above.refl parent _)
    · obtain rfl := Option.some.inj (hm.symm.trans hz)
      exact ih hm ((Above.single hy).trans hyz)

/-- A path depends on the parents of its nodes only, the first one aside. -/
theorem above_congr {parent' : α → Option α} {x y : α} (hxy : Above parent x y)
    (h : ∀ z, Above parent x z → Above parent z y → z ≠ x → parent' z = parent z) :
    Above parent' x y := by
  induction hxy with
  | refl => exact Above.refl _ x
  | @tail m y hxm hy ih =>
    by_cases hyx : y = x
    · rw [hyx]
      exact Above.refl _ x
    · apply (ih fun z hxz hz => h z hxz (hz.step hy)).step
      rw [h y (Above.step hxm hy) (Above.refl _ y) hyx]
      exact hy

/-! ### Changing parents -/

section Changes

variable [DecidableEq α]

/-- Below a node that is given another parent, nothing changes. -/
theorem above_update_self {x y : α} (o : Option α) (h : Above parent x y) :
    Above (Function.update parent x o) x y := by
  induction h with
  | refl => exact Above.refl _ x
  | @tail m y _ hy ih =>
    by_cases hxy : y = x
    · rw [hxy]
      exact Above.refl _ x
    · apply ih.step
      rw [Function.update_of_ne hxy]
      exact hy

/-- Beside a node that is given another parent, nothing changes. -/
theorem above_update_of_not {r x y : α} (o : Option α) (h : Above parent r y)
    (hx : ¬ Above parent x y) : Above (Function.update parent x o) r y := by
  induction h with
  | refl => exact Above.refl _ r
  | @tail m y _ hy ih =>
    have hxy : y ≠ x := fun heq => hx (heq ▸ Above.refl parent x)
    apply (ih fun hm => hx (hm.step hy)).step
    rw [Function.update_of_ne hxy]
    exact hy

/-- Moving a branch to a node outside of it. -/
theorem above_move {r p x y : α} (h : Above parent r y) (hp : Above parent r p)
    (hx : ¬ Above parent x p) : Above (Function.update parent x (some p)) r y := by
  by_cases hxy : Above parent x y
  · have hparent : Function.update parent x (some p) x = some p := Function.update_self _ _ _
    exact ((above_update_of_not _ hp hx).step hparent).trans (above_update_self _ hxy)
  · exact above_update_of_not _ h hxy

/-- Cutting off a node without children. -/
theorem above_prune {x y n : α} (h : Above parent x y) (hleaf : ∀ z, parent z ≠ some n)
    (hy : y ≠ n) : Above (Function.update parent n none) x y := by
  apply above_update_of_not none h
  intro hny
  rcases Relation.ReflTransGen.cases_head hny with heq | ⟨z, hz, -⟩
  · exact hy heq.symm
  · exact hleaf z hz

/-- Cutting off a node makes no new paths. -/
theorem above_of_prune {x y n : α} (h : Above (Function.update parent n none) x y) :
    Above parent x y := by
  induction h with
  | refl => exact Above.refl _ x
  | @tail m y _ hy ih =>
    by_cases hyn : y = n
    · rw [hyn, Function.update_self] at hy
      exact nomatch hy
    · rw [Function.update_of_ne hyn] at hy
      exact ih.step hy

/-- The parents when the children of a node are given to its own parent. -/
def bypass (parent : α → Option α) (n x : α) : Option α :=
  if parent x = some n then parent n else parent x

theorem bypass_ne {n : α} (hn : parent n ≠ some n) (x : α) : bypass parent n x ≠ some n := by
  unfold bypass
  split
  · exact hn
  · assumption

/-- Between the other nodes, bypassing a node changes no path. -/
theorem above_bypass {n x y : α} (hn : parent n ≠ some n) (hx : x ≠ n) (hy : y ≠ n) :
    Above (bypass parent n) x y ↔ Above parent x y := by
  constructor
  · intro h
    clear hy
    induction h with
    | refl => exact Above.refl _ x
    | @tail m y _ hm ih =>
      unfold bypass at hm
      split at hm
      · rename_i hyn
        exact (ih.step hm).step hyn
      · exact ih.step hm
  · intro h
    -- a path to the bypassed node ends at its parent instead
    have hpath : (y ≠ n → Above (bypass parent n) x y) ∧
        (y = n → ∃ p, parent n = some p ∧ Above (bypass parent n) x p) := by
      clear hy
      induction h with
      | refl => exact ⟨fun _ => Above.refl _ x, fun heq => absurd heq hx⟩
      | @tail m y _ hm ih =>
        by_cases hmn : m = n
        · obtain ⟨p, hp, hxp⟩ := ih.2 hmn
          rw [hmn] at hm
          refine ⟨fun _ => hxp.step ?_, fun hyn => ?_⟩
          · rw [bypass, if_pos hm, hp]
          · rw [hyn] at hm
            exact absurd hm hn
        · have hxm := ih.1 hmn
          refine ⟨fun _ => hxm.step ?_, fun hyn => ⟨m, hyn ▸ hm, hxm⟩⟩
          rw [bypass, if_neg fun heq => hmn (Option.some.inj (hm.symm.trans heq)), hm]
    exact hpath.1 hy

end Changes

/-! ### Traversals -/

/-- `l` lists the nodes that the links lead to from the nodes of a stack, in the order of a
depth-first traversal. -/
inductive Covers (children : α → List α) : List α → List α → Prop
  | nil : Covers children [] []
  | cons {x : α} {stack l : List α} :
      Covers children (children x ++ stack) l → Covers children (x :: stack) (x :: l)

namespace Covers

variable {children : α → List α} {stack stack' l l' : List α}

theorem append (h : Covers children stack l) (h' : Covers children stack' l') :
    Covers children (stack ++ stack') (l ++ l') := by
  induction h with
  | nil => exact h'
  | cons _ ih =>
    rw [List.append_assoc] at ih
    exact ih.cons

/-- The nodes below the front of a stack come first. -/
theorem split (h : Covers children (stack ++ stack') l) :
    ∃ front back, l = front ++ back ∧ Covers children stack front ∧ Covers children stack' back := by
  generalize hall : stack ++ stack' = all at h
  induction h generalizing stack stack' with
  | nil =>
    obtain ⟨rfl, rfl⟩ := List.append_eq_nil_iff.mp hall
    exact ⟨[], [], rfl, nil, nil⟩
  | @cons x rest l hrest ih =>
    cases stack with
    | nil =>
      rw [List.nil_append] at hall
      exact ⟨[], x :: l, rfl, nil, hall ▸ hrest.cons⟩
    | cons y stack =>
      obtain ⟨rfl, rfl⟩ := List.cons.inj hall
      obtain ⟨front, back, rfl, hfront, hback⟩ := ih (List.append_assoc _ _ _)
      exact ⟨y :: front, back, rfl, hfront.cons, hback⟩

/-- A traversal depends on the children of its nodes only. -/
theorem congr {children' : α → List α} (h : Covers children stack l)
    (hsame : ∀ x ∈ l, children' x = children x) : Covers children' stack l := by
  induction h with
  | nil => exact nil
  | @cons x stack l _ ih =>
    refine cons ?_
    rw [hsame x List.mem_cons_self]
    exact ih fun y hy => hsame y (List.mem_cons_of_mem x hy)

end Covers

/-- The traversal of a stack whose nodes have traversals, none of which meets another. -/
theorem exists_covers_stack {children : α → List α} {stack : List α} (hstack : stack.Nodup)
    (hone : ∀ x ∈ stack, ∃ l, Covers children [x] l ∧ l.Nodup ∧ ∀ y, y ∈ l ↔ Above parent x y)
    (hdisj : ∀ x ∈ stack, ∀ x' ∈ stack, x ≠ x' → ∀ y, Above parent x y → ¬ Above parent x' y) :
    ∃ l, Covers children stack l ∧ l.Nodup ∧ ∀ y, y ∈ l ↔ ∃ x ∈ stack, Above parent x y := by
  induction stack with
  | nil => exact ⟨[], .nil, List.nodup_nil, fun y => by simp⟩
  | cons x stack ih =>
    obtain ⟨hx, hstack⟩ := List.nodup_cons.mp hstack
    obtain ⟨l, hl, hlnodup, hlmem⟩ := hone x List.mem_cons_self
    obtain ⟨l', hl', hlnodup', hlmem'⟩ := ih hstack
      (fun x hx => hone x (List.mem_cons_of_mem _ hx))
      fun x hx x' hx' => hdisj x (List.mem_cons_of_mem _ hx) x' (List.mem_cons_of_mem _ hx')
    refine ⟨l ++ l', hl.append hl', List.nodup_append'.mpr ⟨hlnodup, hlnodup', ?_⟩, fun y => ?_⟩
    · intro y hy hy'
      obtain ⟨x', hx', hxy⟩ := (hlmem' y).mp hy'
      refine hdisj x List.mem_cons_self x' (List.mem_cons_of_mem _ hx') ?_ y ((hlmem y).mp hy) hxy
      rintro rfl
      exact hx hx'
    · rw [List.mem_append, hlmem, hlmem']
      simp

section Finite

variable {children : α → List α} (hchildren : ∀ x y, y ∈ children x ↔ parent y = some x)
  (hnodup : ∀ x, (children x).Nodup)

include hchildren hnodup

/-- A traversal from a node below a root of which finitely many nodes are below lists these. -/
theorem exists_covers {r x : α} (hr : parent r = none) (hx : Above parent r x)
    (hfin : {y | Above parent x y}.Finite) :
    ∃ l, Covers children [x] l ∧ l.Nodup ∧ ∀ y, y ∈ l ↔ Above parent x y := by
  induction hk : {y | Above parent x y}.ncard using Nat.strong_induction_on generalizing x with
  | _ k ih =>
    have hbelow : ∀ b ∈ children x, ¬ Above parent b x := fun b hb =>
      not_above_parent hr hx ((hchildren x b).mp hb)
    have hsub : ∀ b ∈ children x, {y | Above parent b y} ⊂ {y | Above parent x y} := by
      intro b hb
      have hstep := Above.single ((hchildren x b).mp hb)
      exact ⟨fun y hy => hstep.trans hy, fun hall => hbelow b hb (hall (Above.refl parent x))⟩
    obtain ⟨l, hl, hlnodup, hlmem⟩ := exists_covers_stack (hnodup x)
      (fun b hb => ih _ (hk ▸ Set.ncard_lt_ncard (hsub b hb) hfin)
        (hx.step ((hchildren x b).mp hb)) (hfin.subset (hsub b hb).1) rfl)
      (fun b hb b' hb' hne y hy hy' => by
        -- two children of one node are not above one another
        rcases hy.total hy' with habove | habove
        · rcases habove.cases_tail with heq | ⟨z, hz, hparent⟩
          · exact hne heq
          · rw [(hchildren x b').mp hb'] at hparent
            obtain rfl := Option.some.inj hparent
            exact hbelow b hb hz
        · rcases habove.cases_tail with heq | ⟨z, hz, hparent⟩
          · exact hne heq.symm
          · rw [(hchildren x b).mp hb] at hparent
            obtain rfl := Option.some.inj hparent
            exact hbelow b' hb' hz)
    refine ⟨x :: l, ?_, List.nodup_cons.mpr ⟨fun hmem => ?_, hlnodup⟩, fun y => ?_⟩
    · refine Covers.cons ?_
      rw [List.append_nil]
      exact hl
    · obtain ⟨b, hb, hbx⟩ := (hlmem x).mp hmem
      exact hbelow b hb hbx
    · rw [List.mem_cons, hlmem]
      constructor
      · rintro (rfl | ⟨b, hb, hby⟩)
        · exact Above.refl _ y
        · exact (Above.single ((hchildren x b).mp hb)).trans hby
      · intro hxy
        rcases Relation.ReflTransGen.cases_head hxy with rfl | ⟨b, hb, hby⟩
        · exact Or.inl rfl
        · exact Or.inr ⟨b, (hchildren x b).mpr hb, hby⟩

end Finite

/-! ### Going down -/

/-- The node that a sequence of child positions leads to. -/
def follow (children : α → List α) : List ℕ → α → Option α
  | [], x => some x
  | i :: path, x => (children x)[i]?.bind (follow children path)

theorem follow_append (children : α → List α) (path path' : List ℕ) (x : α) :
    follow children (path ++ path') x = (follow children path x).bind (follow children path') := by
  induction path generalizing x with
  | nil => rfl
  | cons i path ih =>
    rw [List.cons_append, follow, follow, Option.bind_assoc]
    congr 1
    funext y
    exact ih y

section Follow

variable {children : α → List α} (hchildren : ∀ x y, y ∈ children x ↔ parent y = some x)

include hchildren

theorem exists_follow {x y : α} (h : Above parent x y) : ∃ path, follow children path x = some y := by
  induction h with
  | refl => exact ⟨[], rfl⟩
  | @tail m y _ hy ih =>
    obtain ⟨path, hpath⟩ := ih
    obtain ⟨i, hi⟩ := List.mem_iff_getElem?.mp ((hchildren m y).mpr hy)
    refine ⟨path ++ [i], ?_⟩
    rw [follow_append, hpath, Option.bind_some, follow, hi]
    rfl

theorem follow_concat {path : List ℕ} {i : ℕ} {x y : α}
    (h : follow children (path ++ [i]) x = some y) :
    ∃ z, follow children path x = some z ∧ (children z)[i]? = some y ∧ parent y = some z := by
  rw [follow_append] at h
  obtain ⟨z, hz, h⟩ := Option.bind_eq_some_iff.mp h
  obtain ⟨y', hy, h⟩ := Option.bind_eq_some_iff.mp h
  obtain rfl := Option.some.inj h
  exact ⟨z, hz, hy, (hchildren z y').mp (List.mem_of_getElem? hy)⟩

/-- No two ways lead from a root to a node. -/
theorem follow_injective (hnodup : ∀ x, (children x).Nodup) {r : α} (hr : parent r = none) {y : α}
    {path path' : List ℕ} (h : follow children path r = some y)
    (h' : follow children path' r = some y) : path = path' := by
  induction path using List.reverseRecOn generalizing y path' with
  | nil =>
    obtain rfl := Option.some.inj h
    rcases List.eq_nil_or_concat path' with rfl | ⟨front, j, rfl⟩
    · rfl
    · rw [List.concat_eq_append] at h'
      obtain ⟨z, -, -, hz⟩ := follow_concat hchildren h'
      rw [hr] at hz
      exact nomatch hz
  | append_singleton path i ih =>
    obtain ⟨z, hz, hi, hy⟩ := follow_concat hchildren h
    rcases List.eq_nil_or_concat path' with rfl | ⟨front, j, rfl⟩
    · obtain rfl := Option.some.inj h'
      rw [hr] at hy
      exact nomatch hy
    · rw [List.concat_eq_append] at h' ⊢
      obtain ⟨z', hz', hj, hy'⟩ := follow_concat hchildren h'
      obtain rfl := Option.some.inj (hy.symm.trans hy')
      have hlt := (List.getElem?_eq_some_iff.mp hi).1
      rw [ih hz hz', (List.getElem?_inj hlt (hnodup z)).mp (hi.trans hj.symm)]

/-- Exactly one way leads from a root to each node below it. -/
theorem existsUnique_follow (hnodup : ∀ x, (children x).Nodup) {r : α} (hr : parent r = none) {y : α}
    (h : Above parent r y) : ∃! path, follow children path r = some y := by
  obtain ⟨path, hpath⟩ := exists_follow hchildren h
  exact ⟨path, hpath, fun path' hpath' => follow_injective hchildren hnodup hr hpath' hpath⟩

end Follow

end TortoiseSvn.Lib
