import Mathlib.Tactic

/-!
# Pools of unique values

A pool is a list without duplicates. The position of a value is its index, which never changes:
values are only appended. `merge` adds the values of another pool and tells where each of them is.
-/

namespace TortoiseSvn.Lib.Pool

variable {α : Type*} [DecidableEq α]

/-- The index of a value. -/
def find (l : List α) (a : α) : Option ℕ := l.findIdx? fun x => decide (x = a)

/-- The pool with `a` in it, and the index of `a`. -/
def autoInsert (l : List α) (a : α) : List α × ℕ :=
  match find l a with
  | some i => (l, i)
  | none => (l ++ [a], l.length)

/-- The pool with all values of `source` in it, and their indices in order. -/
def merge (l : List α) : List α → List α × List ℕ
  | [] => (l, [])
  | a :: source =>
    let (l, i) := autoInsert l a
    let (l, is) := merge l source
    (l, i :: is)

theorem find_eq_some_iff {l : List α} {a : α} {i : ℕ} :
    find l a = some i ↔ l[i]? = some a ∧ ∀ j < i, l[j]? ≠ some a := by
  rw [find, List.findIdx?_eq_some_iff_getElem]
  constructor
  · rintro ⟨hi, ha, hlt⟩
    refine ⟨by rw [List.getElem?_eq_getElem hi]; simpa using ha, fun j hj h => hlt j hj ?_⟩
    rw [List.getElem?_eq_getElem (hj.trans hi)] at h
    simpa using h
  · rintro ⟨h, hlt⟩
    obtain ⟨hi, ha⟩ := List.getElem?_eq_some_iff.mp h
    refine ⟨hi, by simpa using ha, fun j hj hx => hlt j hj ?_⟩
    rw [List.getElem?_eq_getElem (hj.trans hi)]
    simpa using hx

theorem getElem?_of_find {l : List α} {a : α} {i : ℕ} (h : find l a = some i) : l[i]? = some a :=
  (find_eq_some_iff.mp h).1

theorem find_eq_none {l : List α} {a : α} : find l a = none ↔ a ∉ l := by
  rw [find, List.findIdx?_eq_none_iff]
  refine ⟨fun h hm => by simpa using h a hm, fun h x hx => ?_⟩
  have hne : x ≠ a := fun he => h (he ▸ hx)
  simpa using hne

/-- In a pool, the index of a value is the only place where it stands. -/
theorem find_of_getElem? {l : List α} (hl : l.Nodup) {a : α} {i : ℕ} (h : l[i]? = some a) :
    find l a = some i := by
  obtain ⟨hi, rfl⟩ := List.getElem?_eq_some_iff.mp h
  rcases hx : find l l[i] with _ | j
  · exact absurd (List.getElem_mem hi) (find_eq_none.mp hx)
  · obtain ⟨hj, he⟩ := List.getElem?_eq_some_iff.mp (getElem?_of_find hx)
    rw [(hl.getElem_inj_iff).mp he]

theorem prefix_autoInsert (l : List α) (a : α) : l <+: (autoInsert l a).1 := by
  unfold autoInsert
  split
  · exact List.prefix_refl _
  · exact List.prefix_append _ _

theorem autoInsert_getElem? (l : List α) (a : α) :
    (autoInsert l a).1[(autoInsert l a).2]? = some a := by
  unfold autoInsert
  split
  · rename_i i h
    exact getElem?_of_find h
  · simp

theorem autoInsert_nodup {l : List α} (hl : l.Nodup) (a : α) : (autoInsert l a).1.Nodup := by
  unfold autoInsert
  split
  · exact hl
  · rename_i h
    refine List.nodup_append.mpr ⟨hl, List.nodup_singleton a, fun x hx y hy => ?_⟩
    rw [List.mem_singleton.mp hy]
    rintro rfl
    exact find_eq_none.mp h hx

theorem mem_autoInsert {l : List α} {a x : α} : x ∈ (autoInsert l a).1 ↔ x ∈ l ∨ x = a := by
  unfold autoInsert
  split
  · rename_i i h
    refine ⟨Or.inl, ?_⟩
    rintro (hx | rfl)
    · exact hx
    · exact List.mem_of_getElem? (getElem?_of_find h)
  · simp

theorem prefix_merge (l source : List α) : l <+: (merge l source).1 := by
  induction source generalizing l with
  | nil => exact List.prefix_refl _
  | cons a source ih => exact (prefix_autoInsert l a).trans (ih _)

theorem merge_length (l source : List α) : (merge l source).2.length = source.length := by
  induction source generalizing l with
  | nil => rfl
  | cons a source ih => simp [merge, ih]

theorem merge_nodup {l : List α} (hl : l.Nodup) (source : List α) : (merge l source).1.Nodup := by
  induction source generalizing l with
  | nil => exact hl
  | cons a source ih => exact ih (autoInsert_nodup hl a)

theorem mem_merge {l source : List α} {x : α} :
    x ∈ (merge l source).1 ↔ x ∈ l ∨ x ∈ source := by
  induction source generalizing l with
  | nil => simp [merge]
  | cons a source ih =>
    show x ∈ (merge (autoInsert l a).1 source).1 ↔ _
    rw [ih, mem_autoInsert, List.mem_cons, or_assoc]

/-- Every value of the merged pool is found under its new index. -/
theorem merge_getElem? (l source : List α) :
    ∀ {i j : ℕ}, (merge l source).2[i]? = some j → (merge l source).1[j]? = source[i]? := by
  induction source generalizing l with
  | nil => simp [merge]
  | cons a source ih =>
    intro i j h
    rcases i with _ | i
    · obtain rfl : (autoInsert l a).2 = j := by simpa [merge] using h
      have hpre := prefix_merge (autoInsert l a).1 source
      have hlt := (List.getElem?_eq_some_iff.mp (autoInsert_getElem? l a)).1
      show (merge (autoInsert l a).1 source).1[(autoInsert l a).2]? = some a
      rw [← autoInsert_getElem? l a]
      obtain ⟨t, ht⟩ := hpre
      rw [← ht, List.getElem?_append_left hlt]
    · exact ih (autoInsert l a).1 (by simpa [merge] using h)

/-- The new indices, value by value. -/
theorem merge_forall₂ (l source : List α) :
    List.Forall₂ (fun i a => (merge l source).1[i]? = some a) (merge l source).2 source := by
  refine List.forall₂_iff_get.mpr ⟨merge_length l source, fun i h₁ h₂ => ?_⟩
  have h := merge_getElem? l source (List.getElem?_eq_getElem h₁)
  rwa [List.getElem?_eq_getElem h₂] at h

end TortoiseSvn.Lib.Pool
