import Mathlib.Data.List.Infix
import Mathlib.Tactic

/-!
# Common beginnings

`common` is the longest common beginning of two lists, `commonAll` that of a list and others. When
lists are written as texts with a terminator behind each word, the beginnings of a text that end in a
terminator are the texts of the beginnings of its list.

Main results: `starts_common_iff`, `starts_join_iff`, `exists_of_starts_join`.
-/

namespace TortoiseSvn.Lib.Beginning

variable {α : Type*} [DecidableEq α]

/-! ### The longest common beginning -/

/-- The longest common beginning of two lists. -/
def common : List α → List α → List α
  | a :: l, b :: r => if a = b then a :: common l r else []
  | _, _ => []

/-- The longest common beginning of a list and others. -/
def commonAll (l : List α) (ls : List (List α)) : List α := ls.foldl common l

variable {s l r : List α}

@[simp] theorem nil_common (r : List α) : common [] r = [] := by
  rw [common]
  exact nofun

@[simp] theorem common_nil (l : List α) : common l [] = [] := by
  rw [common]
  exact nofun

theorem starts_common_iff : s <+: common l r ↔ s <+: l ∧ s <+: r := by
  induction l generalizing s r with
  | nil =>
    rw [nil_common]
    exact ⟨fun h => ⟨h, h.trans List.nil_prefix⟩, fun h => h.1⟩
  | cons a l ih =>
    cases r with
    | nil =>
      rw [common_nil]
      exact ⟨fun h => ⟨h.trans List.nil_prefix, h⟩, fun h => h.2⟩
    | cons b r =>
      rw [common]
      cases s with
      | nil => exact iff_of_true List.nil_prefix ⟨List.nil_prefix, List.nil_prefix⟩
      | cons c s =>
        rw [List.cons_prefix_cons, List.cons_prefix_cons]
        split_ifs with hab
        · subst hab
          rw [List.cons_prefix_cons, ih]
          tauto
        · refine iff_of_false (by simp) ?_
          rintro ⟨⟨rfl, -⟩, rfl, -⟩
          exact hab rfl

theorem starts_commonAll_iff {ls : List (List α)} :
    s <+: commonAll l ls ↔ s <+: l ∧ ∀ r ∈ ls, s <+: r := by
  induction ls generalizing l with
  | nil => exact (and_iff_left (List.forall_mem_nil _)).symm
  | cons r ls ih =>
    rw [commonAll, List.foldl_cons, ← commonAll, ih, starts_common_iff, List.forall_mem_cons,
      and_assoc]

omit [DecidableEq α] in
/-- A list is determined by its beginnings. -/
theorem eq_of_starts (h : ∀ s, s <+: l ↔ s <+: r) : l = r := by
  have hle := (h l).mp (List.prefix_refl l)
  exact hle.eq_of_length_le ((h r).mpr (List.prefix_refl r)).length_le

/-! ### Words with a terminator -/

/-- Every word is followed by the terminator. -/
def join (t : α) (ws : List (List α)) : List α := ws.flatMap (· ++ [t])

section Join

variable {t : α} {v w x y : List α} {vs ws : List (List α)}

omit [DecidableEq α] in
/-- The first terminator ends the first word. -/
theorem append_terminator_inj (hv : t ∉ v) (hw : t ∉ w) (h : v ++ t :: x = w ++ t :: y) :
    v = w ∧ x = y := by
  induction v generalizing w with
  | nil =>
    cases w with
    | nil => exact ⟨rfl, (List.cons.inj h).2⟩
    | cons b w => exact absurd (List.cons.inj h).1 fun heq => hw (heq ▸ List.mem_cons_self ..)
  | cons a v ih =>
    cases w with
    | nil => exact absurd (List.cons.inj h).1 fun heq => hv (heq ▸ List.mem_cons_self ..)
    | cons b w =>
      obtain ⟨rfl, htail⟩ := List.cons.inj h
      obtain ⟨rfl, rfl⟩ := ih (fun hmem => hv (List.mem_cons_of_mem _ hmem))
        (fun hmem => hw (List.mem_cons_of_mem _ hmem)) htail
      exact ⟨rfl, rfl⟩

omit [DecidableEq α] in
theorem starts_join_iff (hv : ∀ v ∈ vs, t ∉ v) (hw : ∀ w ∈ ws, t ∉ w) :
    join t vs <+: join t ws ↔ vs <+: ws := by
  constructor
  · induction vs generalizing ws with
    | nil => exact fun _ => List.nil_prefix
    | cons v vs ih =>
      obtain ⟨hv, hvs⟩ := List.forall_mem_cons.mp hv
      rintro ⟨rest, h⟩
      cases ws with
      | nil => simp [join] at h
      | cons w ws =>
        obtain ⟨hw, hws⟩ := List.forall_mem_cons.mp hw
        rw [join, join, List.flatMap_cons, List.flatMap_cons, List.append_assoc, List.append_assoc,
          List.append_assoc] at h
        obtain ⟨rfl, hrest⟩ := append_terminator_inj hv hw h
        exact List.cons_prefix_cons.mpr ⟨rfl, ih hvs hws ⟨rest, hrest⟩⟩
  · rintro ⟨rest, rfl⟩
    rw [join, join, List.flatMap_append]
    exact List.prefix_append _ _

omit [DecidableEq α] in
/-- A beginning that ends in a terminator consists of whole words. -/
theorem exists_of_starts_join (hw : ∀ w ∈ ws, t ∉ w) (h : s ++ [t] <+: join t ws) :
    ∃ vs, vs ≠ [] ∧ vs <+: ws ∧ s ++ [t] = join t vs := by
  induction ws generalizing s with
  | nil => simp [join] at h
  | cons w ws ih =>
    obtain ⟨hw, hws⟩ := List.forall_mem_cons.mp hw
    obtain ⟨rest, hrest⟩ := h
    rw [join, List.flatMap_cons, ← join] at hrest
    by_cases hs : t ∈ s
    · -- there is a whole word before the end
      obtain ⟨v, x, rfl, hv⟩ := List.eq_append_cons_of_mem hs
      rw [List.append_assoc, List.append_assoc, List.append_assoc] at hrest
      obtain ⟨rfl, htail⟩ := append_terminator_inj hv hw hrest
      obtain ⟨vs, -, hvs, heq⟩ := ih hws (s := x) ⟨rest, (List.append_assoc ..).trans htail⟩
      refine ⟨v :: vs, List.cons_ne_nil _ _, List.cons_prefix_cons.mpr ⟨rfl, hvs⟩, ?_⟩
      rw [join, List.flatMap_cons, ← join, ← heq]
      simp
    · rw [List.append_assoc, List.append_assoc] at hrest
      obtain ⟨rfl, -⟩ := append_terminator_inj hs hw hrest
      refine ⟨[s], List.cons_ne_nil _ _, List.cons_prefix_cons.mpr ⟨rfl, List.nil_prefix⟩, ?_⟩
      simp [join]

end Join

end TortoiseSvn.Lib.Beginning
