import Mathlib.Tactic

/-!
# Index mappings

An `index_mapping_t` maps target indices to source indices and is walked in the order in which its
entries were inserted. Containers use it to take over entries of another container: a target index
inside the container is replaced, one behind its end is appended.

`IndexMapping.update` is that operation on lists.
-/

namespace TortoiseSvn.LogCache

/-- The entries, as (key, value) pairs.
Source: `QuickHashMap.h` `quick_hash_map` -/
abbrev IndexMapping := List (ℕ × ℕ)

namespace IndexMapping

variable {α β : Type*}

/-- Source: `QuickHashMap.h` `quick_hash_map::find` -/
def find (m : IndexMapping) (key : ℕ) : Option ℕ := m.lookup key

theorem mem_of_find {m : IndexMapping} {key value : ℕ} (h : m.find key = some value) :
    (key, value) ∈ m := by
  obtain ⟨l₁, l₂, rfl, -⟩ := List.lookup_eq_some_iff.mp h
  simp

/-- The entries whose source index satisfies `p`. -/
def taken (m : IndexMapping) (p : ℕ → Bool) : IndexMapping := m.filter fun e => p e.2

/-- A map into a container of `count` entries: every target index is mapped once, those behind the
end are the next ones, in this order, and all source indices exist. -/
structure WellFormed (m : IndexMapping) (count sourceCount : ℕ) : Prop where
  unique : (m.map Prod.fst).Nodup
  next : (m.map Prod.fst).filter (fun key => count ≤ key) =
    List.range' count (m.countP fun e => count ≤ e.1)
  source : ∀ e ∈ m, e.2 < sourceCount

theorem WellFormed.key_lt {m : IndexMapping} {count sourceCount : ℕ}
    (h : m.WellFormed count sourceCount) {e : ℕ × ℕ} (he : e ∈ m) :
    e.1 < count + m.countP fun e => count ≤ e.1 := by
  by_cases hle : count ≤ e.1
  · have hmem : e.1 ∈ (m.map Prod.fst).filter (fun key => count ≤ key) :=
      List.mem_filter.mpr ⟨List.mem_map_of_mem he, decide_eq_true hle⟩
    rw [h.next] at hmem
    exact (List.mem_range'_1.mp hmem).2
  · omega

/-- A target index that is mapped once is found with its source. -/
theorem find_eq_some_iff {m : IndexMapping} (h : (m.map Prod.fst).Nodup) {key value : ℕ} :
    m.find key = some value ↔ (key, value) ∈ m := by
  refine ⟨mem_of_find, fun hmem => ?_⟩
  obtain ⟨l₁, l₂, rfl⟩ := List.append_of_mem hmem
  refine List.lookup_eq_some_iff.mpr ⟨l₁, l₂, rfl, fun e he => ?_⟩
  rw [List.map_append, List.map_cons, List.nodup_append] at h
  have hne : e.1 ≠ key := h.2.2 e.1 (List.mem_map_of_mem he) key List.mem_cons_self
  simpa using hne.symm

theorem find_taken {m : IndexMapping} (h : (m.map Prod.fst).Nodup) (p : ℕ → Bool) (key : ℕ) :
    (m.taken p).find key = (m.find key).filter p := by
  have htaken : ((m.taken p).map Prod.fst).Nodup := h.sublist (List.filter_sublist.map _)
  ext value
  rw [find_eq_some_iff htaken, taken, List.mem_filter, Option.filter_eq_some_iff,
    find_eq_some_iff h]

/-- The entries from index `i` on, those that are mapped being replaced. -/
def splice (m : IndexMapping) (source : ℕ → α) : ℕ → List α → List α
  | _, [] => []
  | i, a :: l => ((m.find i).map source).getD a :: splice m source (i + 1) l

/-- The entries for target indices from `count` on. -/
def appended (m : IndexMapping) (source : ℕ → α) (count : ℕ) : List α :=
  (m.filter fun e => count ≤ e.1).map fun e => source e.2

/-- The entries behind replacing and appending. -/
def update (m : IndexMapping) (source : ℕ → α) (l : List α) : List α :=
  m.splice source 0 l ++ m.appended source l.length

@[simp] theorem splice_length (m : IndexMapping) (source : ℕ → α) (i : ℕ) (l : List α) :
    (m.splice source i l).length = l.length := by
  induction l generalizing i with
  | nil => rfl
  | cons a l ih => simp [splice, ih]

theorem splice_getElem? (m : IndexMapping) (source : ℕ → α) (i : ℕ) (l : List α) (k : ℕ) :
    (m.splice source i l)[k]? = (l[k]?).map fun a => ((m.find (i + k)).map source).getD a := by
  induction l generalizing i k with
  | nil => simp [splice]
  | cons a l ih =>
    rcases k with _ | k
    · simp [splice]
    · rw [splice, List.getElem?_cons_succ, ih, List.getElem?_cons_succ, Nat.add_right_comm,
        Nat.add_assoc]

theorem splice_map (m : IndexMapping) (source : ℕ → α) (f : α → β) (i : ℕ) (l : List α) :
    (m.splice source i l).map f = m.splice (f ∘ source) i (l.map f) := by
  induction l generalizing i with
  | nil => rfl
  | cons a l ih =>
    rw [splice, List.map_cons, List.map_cons, splice, ih]
    cases m.find i <;> rfl

theorem length_update (m : IndexMapping) (source : ℕ → α) (l : List α) :
    (m.update source l).length = l.length + (m.filter fun e => l.length ≤ e.1).length := by
  rw [update, List.length_append, splice_length, appended, List.length_map]

/-- An update from the end of the list on only appends. -/
theorem update_of_le {m : IndexMapping} (source : ℕ → α) {l : List α}
    (h : ∀ e ∈ m, l.length ≤ e.1) : m.update source l = l ++ m.map fun e => source e.2 := by
  have hsplice : m.splice source 0 l = l := by
    refine List.ext_getElem? fun k => ?_
    rw [splice_getElem?, Nat.zero_add]
    rcases hk : l[k]? with _ | a
    · rfl
    · have hlt := (List.getElem?_eq_some_iff.mp hk).1
      cases hfind : m.find k with
      | none => rfl
      | some value => exact absurd (h _ (mem_of_find hfind)) (Nat.not_le.mpr hlt)
  have hall : m.filter (fun e => l.length ≤ e.1) = m :=
    List.filter_eq_self.mpr fun e he => decide_eq_true (h e he)
  rw [update, hsplice, appended, hall]

theorem filter_taken {m : IndexMapping} {count : ℕ} {p : ℕ → Bool}
    (hp : ∀ e ∈ m, count ≤ e.1 → p e.2 = true) :
    (m.taken p).filter (fun e => count ≤ e.1) = m.filter fun e => count ≤ e.1 := by
  rw [IndexMapping.taken, List.filter_filter]
  refine List.filter_congr fun e he => ?_
  by_cases hle : count ≤ e.1
  · simp [hle, hp e he hle]
  · simp [hle]

/-- The target indices are still the next ones if no entry behind the end is left out. -/
theorem WellFormed.taken {m : IndexMapping} {count sourceCount : ℕ} (h : m.WellFormed count sourceCount)
    {p : ℕ → Bool} (hp : ∀ e ∈ m, count ≤ e.1 → p e.2 = true) :
    (m.taken p).WellFormed count sourceCount := by
  refine ⟨h.unique.sublist (List.filter_sublist.map _), ?_, fun e he =>
    h.source e (List.mem_of_mem_filter he)⟩
  have hnext := h.next
  rw [List.filter_map, List.countP_eq_length_filter] at hnext ⊢
  change ((m.taken p).filter fun e => count ≤ e.1).map Prod.fst = _
  rw [filter_taken hp]
  exact hnext

/-- An entry that is not mapped is kept. -/
theorem update_getElem?_of_none {m : IndexMapping} (source : ℕ → α) {l : List α} {n : ℕ}
    (h : m.find n = none) (hn : n < l.length) : (m.update source l)[n]? = l[n]? := by
  rw [update, List.getElem?_append_left (by rwa [splice_length]), splice_getElem?, Nat.zero_add, h,
    List.getElem?_eq_getElem hn]
  rfl

/-- An entry that is mapped is replaced or appended. -/
theorem update_getElem?_of_find {m : IndexMapping} {source : ℕ → α} {l : List α} {sourceCount n s : ℕ}
    (hm : m.WellFormed l.length sourceCount) (h : m.find n = some s) :
    (m.update source l)[n]? = some (source s) := by
  rcases lt_or_ge n l.length with hlt | hle
  · rw [update, List.getElem?_append_left (by rwa [splice_length]), splice_getElem?, Nat.zero_add, h,
      List.getElem?_eq_getElem hlt]
    rfl
  · have hkeys : (m.filter fun e => l.length ≤ e.1).map Prod.fst =
        List.range' l.length (m.filter fun e => l.length ≤ e.1).length := by
      rw [← List.countP_eq_length_filter, ← hm.next, List.filter_map]
      rfl
    have hmem : (n, s) ∈ m.filter fun e => l.length ≤ e.1 :=
      List.mem_filter.mpr ⟨mem_of_find h, decide_eq_true hle⟩
    obtain ⟨i, hi, hget⟩ := List.getElem_of_mem hmem
    -- the entries behind the end stand in the order of their target indices
    have hkey : n = l.length + i := by
      have hith := congrArg (·[i]?) hkeys
      simpa [hi, hget] using hith
    rw [update, List.getElem?_append_right (by rwa [splice_length]), splice_length, appended,
      List.getElem?_map, hkey, Nat.add_sub_cancel_left, List.getElem?_eq_getElem hi, hget]
    rfl

/-- A relation that holds of the entries and of the sources holds behind splicing. -/
theorem splice_forall₂ {R : α → β → Prop} {m : IndexMapping} {source : ℕ → α} {source' : ℕ → β}
    (hsource : ∀ e ∈ m, R (source e.2) (source' e.2)) {l : List α} {l' : List β}
    (h : List.Forall₂ R l l') (i : ℕ) :
    List.Forall₂ R (m.splice source i l) (m.splice source' i l') := by
  induction h generalizing i with
  | nil => exact .nil
  | cons hab _ ih =>
    rw [splice, splice]
    refine .cons ?_ (ih (i + 1))
    cases hfind : m.find i with
    | none => exact hab
    | some value => exact hsource _ (mem_of_find hfind)

theorem splice_congr {m : IndexMapping} {source source' : ℕ → α}
    (h : ∀ e ∈ m, source e.2 = source' e.2) (i : ℕ) (l : List α) :
    m.splice source i l = m.splice source' i l := by
  have hforall := splice_forall₂ (R := Eq) h (List.forall₂_same.mpr fun a _ => rfl : l.Forall₂ Eq l) i
  rwa [List.forall₂_eq_eq_eq] at hforall

/-- What holds of the entries and of the sources holds behind splicing. -/
theorem splice_forall {p : α → Prop} {m : IndexMapping} {source : ℕ → α}
    (hsource : ∀ e ∈ m, p (source e.2)) {l : List α} (h : ∀ a ∈ l, p a) (i : ℕ) :
    ∀ a ∈ m.splice source i l, p a := by
  induction l generalizing i with
  | nil => exact fun a ha => absurd ha List.not_mem_nil
  | cons b l ih =>
    obtain ⟨hb, hl⟩ := List.forall_mem_cons.mp h
    rw [splice]
    refine List.forall_mem_cons.mpr ⟨?_, ih hl (i + 1)⟩
    cases hfind : m.find i with
    | none => exact hb
    | some value => exact hsource _ (mem_of_find hfind)

end IndexMapping

end TortoiseSvn.LogCache
