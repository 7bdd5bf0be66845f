import Mathlib.Tactic

/-!
# Doubly linked lists

`Chained` says that links in both directions hold the nodes of a list in its order. A node may be
linked in at any position and taken out again.
-/

namespace TortoiseSvn.Lib

variable {α : Type*}

/-- The nodes of `l` are linked in their order, from `first` to `last`. -/
structure Chained (prev next : α → Option α) (first last : Option α) (l : List α) : Prop where
  first : first = l.head?
  last : last = l.getLast?
  links : ∀ front a back, l = front ++ a :: back → prev a = front.getLast? ∧ next a = back.head?
  nodup : l.Nodup

namespace Chained

variable {prev next prev' next' : α → Option α} {first last first' last' : Option α}
  {l front back : List α} {x : α}

/-- The list depends on the links of its nodes only. -/
theorem congr (h : Chained prev next first last l) (hprev : ∀ a ∈ l, prev' a = prev a)
    (hnext : ∀ a ∈ l, next' a = next a) : Chained prev' next' first last l := by
  refine ⟨h.first, h.last, fun f a b heq => ?_, h.nodup⟩
  have ha : a ∈ l := heq ▸ List.mem_append_right f List.mem_cons_self
  rw [hprev a ha, hnext a ha]
  exact h.links f a b heq

theorem next_eq (h : Chained prev next first last (front ++ x :: back)) : next x = back.head? :=
  (h.links front x back rfl).2

theorem prev_eq (h : Chained prev next first last (front ++ x :: back)) :
    prev x = front.getLast? := (h.links front x back rfl).1

theorem nil (prev next : α → Option α) : Chained prev next none none [] :=
  ⟨rfl, rfl, fun f a b heq => absurd heq (by simp), List.nodup_nil⟩

variable [DecidableEq α]

/-- Link a node in between two others, or at an end of the list. -/
theorem insert (h : Chained prev next first last (front ++ back)) (hx : x ∉ front ++ back)
    (hprevx : prev' x = front.getLast?) (hnextx : next' x = back.head?)
    (hprev : ∀ a ∈ front ++ back, prev' a = if back.head? = some a then some x else prev a)
    (hnext : ∀ a ∈ front ++ back, next' a = if front.getLast? = some a then some x else next a)
    (hfirst : first' = if front.getLast? = none then some x else first)
    (hlast : last' = if back.head? = none then some x else last) :
    Chained prev' next' first' last' (front ++ x :: back) := by
  obtain ⟨hnodupF, hnodupB, hdisj⟩ := List.nodup_append'.mp h.nodup
  rw [List.mem_append, not_or] at hx
  refine ⟨?_, ?_, fun f a b heq => ?_, ?_⟩
  · rw [hfirst, h.first]
    cases front with
    | nil => rfl
    | cons c front => rw [if_neg (by simp)]; rfl
  · rw [hlast, h.last]
    cases back with
    | nil => simp
    | cons c back => simp [List.getLast?_append, List.getLast?_cons]
  · rcases List.append_eq_append_iff.mp heq with ⟨c, rfl, hback⟩ | ⟨c, rfl, hback⟩
    · -- the node stands in front of, or is, the new one
      cases c with
      | nil =>
        obtain ⟨rfl, rfl⟩ := List.cons.inj hback
        rw [List.append_nil]
        exact ⟨hprevx, hnextx⟩
      | cons c cs =>
        obtain ⟨rfl, rfl⟩ := List.cons.inj hback
        have hmem : a ∈ front ++ (cs ++ a :: b) := by simp
        have hold := h.links (front ++ cs) a b (List.append_assoc _ _ _).symm
        have hlastF : front.getLast? ≠ some a := fun hf =>
          hdisj (List.mem_of_getLast? hf) (by simp)
        rw [hprev a hmem, hnext a hmem, if_neg hlastF, hold.2]
        refine ⟨?_, rfl⟩
        cases cs with
        | nil => simp
        | cons d cs =>
          have hne : d ≠ a := by
            rintro rfl
            exact (List.nodup_cons.mp hnodupB).1 (by simp)
          rw [if_neg (by simpa using hne), hold.1]
          simp [List.getLast?_append, List.getLast?_cons]
    · cases c with
      | nil =>
        obtain ⟨rfl, rfl⟩ := List.cons.inj hback
        rw [List.append_nil] at hprevx
        exact ⟨hprevx, hnextx⟩
      | cons c cs =>
        obtain ⟨rfl, rfl⟩ := List.cons.inj hback
        have hmem : a ∈ (f ++ a :: cs) ++ back := by simp
        have hold := h.links f a (cs ++ back) (by simp)
        have hheadB : back.head? ≠ some a := fun hb =>
          hdisj (by simp) (List.mem_of_mem_head? hb)
        rw [hprev a hmem, hnext a hmem, if_neg hheadB, hold.1]
        refine ⟨rfl, ?_⟩
        rcases List.eq_nil_or_concat cs with rfl | ⟨cs, d, rfl⟩
        · simp
        · have hne : d ≠ a := by
            rintro rfl
            have hnodup := (List.nodup_append'.mp hnodupF).2.1
            exact (List.nodup_cons.mp hnodup).1 (by simp)
          rw [if_neg (by simpa [List.getLast?_append, List.getLast?_cons] using hne), hold.2]
          simp
  · refine List.nodup_append'.mpr ⟨hnodupF, List.nodup_cons.mpr ⟨hx.2, hnodupB⟩, ?_⟩
    intro a ha ha'
    rcases List.mem_cons.mp ha' with rfl | ha'
    · exact hx.1 ha
    · exact hdisj ha ha'

/-- Take a node out of the list. -/
theorem remove (h : Chained prev next first last (front ++ x :: back))
    (hprev : ∀ a ∈ front ++ back, prev' a = if next x = some a then prev x else prev a)
    (hnext : ∀ a ∈ front ++ back, next' a = if prev x = some a then next x else next a)
    (hfirst : first' = if first = some x then next x else first)
    (hlast : last' = if last = some x then prev x else last) :
    Chained prev' next' first' last' (front ++ back) := by
  obtain ⟨hnodupF, hnodup, hdisj⟩ := List.nodup_append'.mp h.nodup
  obtain ⟨hxB, hnodupB⟩ := List.nodup_cons.mp hnodup
  have hxF : x ∉ front := fun hx => hdisj hx List.mem_cons_self
  rw [h.next_eq] at hprev hfirst hnext
  rw [h.prev_eq] at hnext hlast hprev
  refine ⟨?_, ?_, fun f a b heq => ?_, ?_⟩
  · rw [hfirst, h.first]
    cases front with
    | nil => simp
    | cons c front =>
      have hne : c ≠ x := fun heq => hxF (heq ▸ List.mem_cons_self)
      simp [hne]
  · rw [hlast, h.last]
    rcases List.eq_nil_or_concat back with rfl | ⟨back, c, rfl⟩
    · simp
    · have hne : c ≠ x := fun heq => hxB (heq ▸ by simp)
      simp [List.getLast?_append, List.getLast?_cons, hne]
  · rcases List.append_eq_append_iff.mp heq with ⟨c, rfl, hback⟩ | ⟨c, rfl, hback⟩
    · -- behind the removed node
      subst hback
      have hmem : a ∈ front ++ (c ++ a :: b) := by simp
      have hold := h.links (front ++ x :: c) a b (by simp)
      have hlastF : front.getLast? ≠ some a := fun hf =>
        hdisj (List.mem_of_getLast? hf) (by simp)
      rw [hprev a hmem, hnext a hmem, if_neg hlastF, hold.2]
      refine ⟨?_, rfl⟩
      cases c with
      | nil => simp
      | cons d c =>
        have hne : d ≠ a := by
          rintro rfl
          exact (List.nodup_cons.mp hnodupB).1 (by simp)
        rw [if_neg (by simpa using hne), hold.1]
        simp [List.getLast?_append, List.getLast?_cons]
    · cases c with
      | nil =>
        -- the first node behind the removed one
        rw [List.nil_append] at hback
        subst hback
        rw [List.append_nil] at hprev hnext hnodupF hdisj h
        have hmem : a ∈ f ++ a :: b := by simp
        have hold := h.links (f ++ [x]) a b (by simp)
        have hlastF : f.getLast? ≠ some a := fun hf => hdisj (List.mem_of_getLast? hf) (by simp)
        rw [hprev a hmem, hnext a hmem, if_neg hlastF, hold.2, if_pos (by simp)]
        exact ⟨rfl, rfl⟩
      | cons c cs =>
        obtain ⟨rfl, rfl⟩ := List.cons.inj hback
        have hmem : a ∈ (f ++ a :: cs) ++ back := by simp
        have hold := h.links f a (cs ++ x :: back) (by simp)
        have hheadB : back.head? ≠ some a := fun hb =>
          hdisj (by simp) (List.mem_cons_of_mem x (List.mem_of_mem_head? hb))
        rw [hprev a hmem, hnext a hmem, if_neg hheadB, hold.1]
        refine ⟨rfl, ?_⟩
        rcases List.eq_nil_or_concat cs with rfl | ⟨cs, d, rfl⟩
        · simp
        · have hne : d ≠ a := by
            rintro rfl
            have hnodup := (List.nodup_append'.mp hnodupF).2.1
            exact (List.nodup_cons.mp hnodup).1 (by simp)
          rw [if_neg (by simpa [List.getLast?_append, List.getLast?_cons] using hne), hold.2]
          simp
  · exact List.nodup_append'.mpr ⟨hnodupF, hnodupB, fun a ha hb =>
      hdisj ha (List.mem_cons_of_mem x hb)⟩

end Chained

end TortoiseSvn.Lib
