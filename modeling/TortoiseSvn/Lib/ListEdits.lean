import Mathlib.Data.List.InsertIdx
import Mathlib.Tactic

/-!
# Sequences of insertions and replacements in a list

`insertAll` inserts elements at indexes, one after the other, and `setAll` replaces elements.
Replacements at distinct indexes can be made in any order and taken back. Insertions cannot: the
same ones in another order give another list, which is what `weight` measures, the sum of the
positions of the elements with some property.
-/

namespace TortoiseSvn.Lib

variable {α : Type*}

/-! ### Replacements -/

/-- Replace the elements at the listed indexes. -/
def setAll (l : List (ℕ × α)) (rows : List α) : List α :=
  l.foldl (fun r e => r.set e.1 e.2) rows

@[simp] theorem setAll_nil (rows : List α) : setAll [] rows = rows := rfl

@[simp] theorem setAll_cons (e : ℕ × α) (l : List (ℕ × α)) (rows : List α) :
    setAll (e :: l) rows = setAll l (rows.set e.1 e.2) := rfl

@[simp] theorem length_setAll (l : List (ℕ × α)) (rows : List α) :
    (setAll l rows).length = rows.length := by
  induction l generalizing rows with
  | nil => rfl
  | cons e l ih => rw [setAll_cons, ih, List.length_set]

/-- An element at an index that is not listed stays. -/
theorem getElem?_setAll_of_notMem {l : List (ℕ × α)} {j : ℕ} (h : j ∉ l.map Prod.fst)
    (rows : List α) : (setAll l rows)[j]? = rows[j]? := by
  induction l generalizing rows with
  | nil => rfl
  | cons e l ih =>
    rw [List.map_cons, List.mem_cons, not_or] at h
    rw [setAll_cons, ih h.2, List.getElem?_set_ne (Ne.symm h.1)]

/-- A listed element stands at its index. -/
theorem getElem?_setAll_of_mem {l : List (ℕ × α)} (hl : (l.map Prod.fst).Nodup) {e : ℕ × α}
    (he : e ∈ l) {rows : List α} (hlt : e.1 < rows.length) :
    (setAll l rows)[e.1]? = some e.2 := by
  induction l generalizing rows with
  | nil => exact absurd he List.not_mem_nil
  | cons f l ih =>
    rw [List.map_cons, List.nodup_cons] at hl
    rw [setAll_cons]
    rcases List.mem_cons.mp he with rfl | he
    · rw [getElem?_setAll_of_notMem hl.1, List.getElem?_set_self hlt]
    · exact ih hl.2 he (by rwa [List.length_set])

/-- Replacing adds no other elements. -/
theorem mem_setAll {l : List (ℕ × α)} {rows : List α} {a : α} (h : a ∈ setAll l rows) :
    a ∈ l.map Prod.snd ∨ a ∈ rows := by
  induction l generalizing rows with
  | nil => exact Or.inr h
  | cons e l ih =>
    rcases ih h with ha | ha
    · exact Or.inl (List.mem_cons_of_mem _ ha)
    · rcases List.mem_or_eq_of_mem_set ha with ha | rfl
      · exact Or.inr ha
      · exact Or.inl List.mem_cons_self

/-- Replacements at distinct indexes are taken back by putting the old elements there. -/
theorem setAll_restore {l old : List (ℕ × α)} {rows : List α} (hl : (l.map Prod.fst).Nodup)
    (hkeys : (old.map Prod.fst).Perm (l.map Prod.fst))
    (hold : ∀ e ∈ old, rows[e.1]? = some e.2) : setAll old (setAll l rows) = rows := by
  refine List.ext_getElem? fun j => ?_
  by_cases hj : j ∈ old.map Prod.fst
  · obtain ⟨e, he, rfl⟩ := List.mem_map.mp hj
    obtain ⟨hlt, -⟩ := List.getElem?_eq_some_iff.mp (hold e he)
    rw [getElem?_setAll_of_mem (hkeys.nodup_iff.mpr hl) he (by rwa [length_setAll]), hold e he]
  · rw [getElem?_setAll_of_notMem hj,
      getElem?_setAll_of_notMem fun hj' => hj (hkeys.mem_iff.mpr hj')]

/-! ### Insertions -/

/-- Insert the listed elements, one after the other. -/
def insertAll (l : List (ℕ × α)) (rows : List α) : List α :=
  l.foldl (fun r e => r.insertIdx e.1 e.2) rows

@[simp] theorem insertAll_nil (rows : List α) : insertAll [] rows = rows := rfl

@[simp] theorem insertAll_cons (e : ℕ × α) (l : List (ℕ × α)) (rows : List α) :
    insertAll (e :: l) rows = insertAll l (rows.insertIdx e.1 e.2) := rfl

theorem insertAll_concat (l : List (ℕ × α)) (e : ℕ × α) (rows : List α) :
    insertAll (l ++ [e]) rows = (insertAll l rows).insertIdx e.1 e.2 := by
  simp [insertAll]

/-- No index lies behind the end of the list, which has `n` elements at first. -/
def InRange : List ℕ → ℕ → Prop
  | [], _ => True
  | i :: is, n => i ≤ n ∧ InRange is (n + 1)

instance InRange.decidable : ∀ (is : List ℕ) (n : ℕ), Decidable (InRange is n)
  | [], _ => isTrue trivial
  | _ :: is, n => @instDecidableAnd _ _ _ (InRange.decidable is (n + 1))

theorem inRange_concat {is : List ℕ} {i n : ℕ} :
    InRange (is ++ [i]) n ↔ InRange is n ∧ i ≤ n + is.length := by
  induction is generalizing n with
  | nil => simp [InRange]
  | cons j is ih =>
    simp only [List.cons_append, InRange, ih, List.length_cons, and_assoc]
    rw [show n + 1 + is.length = n + (is.length + 1) by omega]

theorem length_insertAll {l : List (ℕ × α)} {rows : List α}
    (h : InRange (l.map Prod.fst) rows.length) :
    (insertAll l rows).length = rows.length + l.length := by
  induction l generalizing rows with
  | nil => rfl
  | cons e l ih =>
    obtain ⟨he, hl⟩ := h
    have hlen := List.length_insertIdx_of_le_length he e.2
    rw [insertAll_cons, ih (by rwa [hlen]), hlen, List.length_cons]
    omega

/-- Replacements in front of an insertion can be made after it. -/
theorem set_insertIdx {rows : List α} {i j : ℕ} (h : i < j) (a b : α) :
    (rows.insertIdx j b).set i a = (rows.set i a).insertIdx j b := by
  induction rows generalizing i j with
  | nil =>
    obtain ⟨j, rfl⟩ := Nat.exists_eq_succ_of_ne_zero (Nat.ne_of_gt (Nat.zero_lt_of_lt h))
    simp
  | cons c rows ih =>
    obtain ⟨j, rfl⟩ := Nat.exists_eq_succ_of_ne_zero (Nat.ne_of_gt (Nat.zero_lt_of_lt h))
    cases i with
    | zero => simp
    | succ i => simp [ih (Nat.lt_of_succ_lt_succ h)]

theorem setAll_insertIdx {s : List (ℕ × α)} {j : ℕ} (h : ∀ e ∈ s, e.1 < j) (rows : List α)
    (b : α) : setAll s (rows.insertIdx j b) = (setAll s rows).insertIdx j b := by
  induction s generalizing rows with
  | nil => rfl
  | cons e s ih =>
    rw [setAll_cons, setAll_cons, set_insertIdx (h e (by simp)),
      ih fun f hf => h f (List.mem_cons_of_mem _ hf)]

/-- Replacements in front of all insertions can be made after them. -/
theorem setAll_insertAll {s l : List (ℕ × α)} (h : ∀ e ∈ s, ∀ f ∈ l, e.1 < f.1)
    (rows : List α) : setAll s (insertAll l rows) = insertAll l (setAll s rows) := by
  induction l generalizing rows with
  | nil => rfl
  | cons f l ih =>
    rw [insertAll_cons, insertAll_cons, ih fun e he g hg => h e he g (List.mem_cons_of_mem _ hg),
      setAll_insertIdx fun e he => h e he f (by simp)]

/-! ### The positions of the inserted elements -/

section Weight

variable (p : α → Bool)

/-- The sum of the positions of the elements with property `p`. -/
def weight : List α → ℕ
  | [] => 0
  | _ :: l => weight l + l.countP p

variable {p}

/-- An inserted element adds its position and moves the elements behind it on. -/
theorem weight_insertIdx {rows : List α} {i : ℕ} (hi : i ≤ rows.length) {a : α} (ha : p a) :
    weight p (rows.insertIdx i a) = weight p rows + i + (rows.drop i).countP p := by
  induction rows generalizing i with
  | nil =>
    obtain rfl := Nat.le_zero.mp hi
    simp [weight]
  | cons b rows ih =>
    cases i with
    | zero => simp [weight]
    | succ i =>
      have hi' : i ≤ rows.length := Nat.le_of_succ_le_succ hi
      have hcount : (rows.insertIdx i a).countP p = rows.countP p + 1 := by
        rw [(List.perm_insertIdx a rows hi').countP_eq, List.countP_cons_of_pos ha]
      rw [List.insertIdx_succ_cons, weight, weight, ih hi', hcount, List.drop_succ_cons]
      omega

theorem drop_insertIdx_succ (rows : List α) (i : ℕ) (a : α) (hi : i ≤ rows.length) :
    (rows.insertIdx i a).drop (i + 1) = rows.drop i := by
  induction rows generalizing i with
  | nil =>
    obtain rfl := Nat.le_zero.mp hi
    rfl
  | cons b rows ih =>
    cases i with
    | zero => rfl
    | succ i =>
      rw [List.insertIdx_succ_cons, List.drop_succ_cons, List.drop_succ_cons,
        ih i (Nat.le_of_succ_le_succ hi)]

/-- What stands from a position on stays there when something is inserted. -/
theorem drop_sublist_insertIdx (rows : List α) (k i : ℕ) (a : α) :
    (rows.drop k).Sublist ((rows.insertIdx i a).drop k) := by
  induction k generalizing rows i with
  | zero => simp
  | succ k ih =>
    rcases rows with _ | ⟨b, rows⟩
    · simp
    · cases i with
      | zero =>
        rw [List.insertIdx_zero, List.drop_succ_cons, List.drop_succ_cons]
        exact List.drop_sublist_drop_left (b :: rows) (Nat.le_succ k)
      | succ i =>
        rw [List.insertIdx_succ_cons, List.drop_succ_cons, List.drop_succ_cons]
        exact ih rows i

/-- An element inserted at some time is found at its index or behind it. -/
theorem countP_drop_insertAll_pos {l : List (ℕ × α)} {rows : List α}
    (hr : InRange (l.map Prod.fst) rows.length) {e : ℕ × α} (he : e ∈ l) (hp : p e.2) :
    0 < ((insertAll l rows).drop e.1).countP p := by
  induction l using List.reverseRecOn with
  | nil => exact absurd he List.not_mem_nil
  | append_singleton l f ih =>
    rw [List.map_append, List.map_singleton, inRange_concat, List.length_map] at hr
    rw [insertAll_concat]
    rcases List.mem_append.mp he with he | he
    · exact lt_of_lt_of_le (ih hr.1 he) (drop_sublist_insertIdx _ _ _ _).countP_le
    · obtain rfl := List.mem_singleton.mp he
      have hlen : e.1 ≤ (insertAll l rows).length := by rw [length_insertAll hr.1]; exact hr.2
      refine List.countP_pos_iff.mpr ⟨e.2, ?_, hp⟩
      refine List.mem_iff_getElem?.mpr ⟨0, ?_⟩
      rw [List.getElem?_drop, Nat.add_zero, List.getElem?_insertIdx_self, if_pos hlen]

/-- Insertions at strictly ascending indexes leave every inserted element where it was put. -/
theorem weight_insertAll_of_sorted {l : List (ℕ × α)} {rows : List α}
    (hr : InRange (l.map Prod.fst) rows.length) (hp : ∀ e ∈ l, p e.2)
    (hs : (l.map Prod.fst).Pairwise (· < ·)) (h0 : ∀ e ∈ l, (rows.drop e.1).countP p = 0) :
    weight p (insertAll l rows) = weight p rows + (l.map Prod.fst).sum := by
  induction l generalizing rows with
  | nil => simp
  | cons e l ih =>
    obtain ⟨hi, hr⟩ := hr
    rw [List.map_cons, List.pairwise_cons] at hs
    have hlen := List.length_insertIdx_of_le_length hi e.2
    have h0' : ∀ f ∈ l, ((rows.insertIdx e.1 e.2).drop f.1).countP p = 0 := by
      intro f hf
      have hlt : e.1 + 1 ≤ f.1 := hs.1 f.1 (List.mem_map_of_mem hf)
      have hsub := (List.drop_sublist_drop_left (rows.insertIdx e.1 e.2) hlt).countP_le (p := p)
      rw [drop_insertIdx_succ rows e.1 e.2 hi, h0 e (by simp)] at hsub
      exact Nat.le_zero.mp hsub
    rw [insertAll_cons, ih (by rwa [hlen]) (fun f hf => hp f (List.mem_cons_of_mem _ hf)) hs.2 h0',
      weight_insertIdx hi (hp e (by simp)), h0 e (by simp), List.map_cons, List.sum_cons]
    omega

theorem weight_insertAll_ge {l : List (ℕ × α)} {rows : List α}
    (hr : InRange (l.map Prod.fst) rows.length) (hp : ∀ e ∈ l, p e.2) :
    weight p rows + (l.map Prod.fst).sum ≤ weight p (insertAll l rows) := by
  induction l using List.reverseRecOn with
  | nil => simp
  | append_singleton l f ih =>
    rw [List.map_append, List.map_singleton, inRange_concat, List.length_map] at hr
    have hlen : f.1 ≤ (insertAll l rows).length := by rw [length_insertAll hr.1]; exact hr.2
    have := ih hr.1 fun e he => hp e (List.mem_append_left _ he)
    rw [insertAll_concat, weight_insertIdx hlen (hp f (by simp))]
    simp only [List.map_append, List.map_singleton, List.sum_append, List.sum_singleton]
    omega

/-- Insertions at indexes that do not ascend strictly move some inserted element on. -/
theorem weight_insertAll_gt {l : List (ℕ × α)} {rows : List α}
    (hr : InRange (l.map Prod.fst) rows.length) (hp : ∀ e ∈ l, p e.2)
    (hs : ¬(l.map Prod.fst).Pairwise (· < ·)) :
    weight p rows + (l.map Prod.fst).sum < weight p (insertAll l rows) := by
  induction l using List.reverseRecOn with
  | nil => exact absurd List.Pairwise.nil hs
  | append_singleton l f ih =>
    rw [List.map_append, List.map_singleton, inRange_concat, List.length_map] at hr
    have hp' : ∀ e ∈ l, p e.2 := fun e he => hp e (List.mem_append_left _ he)
    have hlen : f.1 ≤ (insertAll l rows).length := by rw [length_insertAll hr.1]; exact hr.2
    rw [insertAll_concat, weight_insertIdx hlen (hp f (by simp))]
    simp only [List.map_append, List.map_singleton, List.sum_append, List.sum_singleton]
    by_cases hl : (l.map Prod.fst).Pairwise (· < ·)
    · -- the last index is not above some earlier one, whose element it moves
      have hex : ∃ e ∈ l, f.1 ≤ e.1 := by
        by_contra hno
        refine hs ?_
        rw [List.map_append, List.map_singleton]
        refine List.pairwise_append.mpr ⟨hl, List.pairwise_singleton _ _, ?_⟩
        intro i hi j hj
        obtain ⟨e, he, rfl⟩ := List.mem_map.mp hi
        rw [List.mem_singleton.mp hj]
        exact not_le.mp fun hle => hno ⟨e, he, hle⟩
      obtain ⟨e, he, hle⟩ := hex
      have hpos := countP_drop_insertAll_pos hr.1 he (hp' e he)
      have hsub := (List.drop_sublist_drop_left (insertAll l rows) hle).countP_le (p := p)
      have := weight_insertAll_ge hr.1 hp'
      omega
    · have := ih hr.1 hp' hl
      omega

end Weight

end TortoiseSvn.Lib
