import Mathlib.Data.List.Nodup
import Mathlib.Logic.Function.Basic

/-!
# A list and an index to its elements

The elements of a list have distinct keys, and an index tells for every key the name of its element: an
address, an iterator, a number. `Linked` says that the two agree; the lemmas follow the operations that
change both of them.
-/

namespace TortoiseSvn.Lib

variable {ε κ ι : Type} {key : ε → κ} {ident : ε → ι}

/-- Keys are distinct, and the index tells the names of the elements. -/
structure Linked (key : ε → κ) (ident : ε → ι) (index : κ → Option ι) (l : List ε) : Prop where
  nodup : (l.map key).Nodup
  find_iff : ∀ k i, index k = some i ↔ ∃ e ∈ l, key e = k ∧ ident e = i

namespace Linked

variable {index : κ → Option ι} {l l' : List ε} {e : ε} {k : κ}

theorem empty : Linked key ident (fun _ => none) [] :=
  ⟨List.nodup_nil, fun _ _ => by simp⟩

theorem find (h : Linked key ident index l) (he : e ∈ l) : index (key e) = some (ident e) :=
  (h.find_iff _ _).mpr ⟨e, he, rfl, rfl⟩

theorem find_eq_none_iff (h : Linked key ident index l) : index k = none ↔ k ∉ l.map key := by
  constructor
  · rintro hnone hmem
    obtain ⟨e, he, rfl⟩ := List.mem_map.mp hmem
    rw [h.find he] at hnone
    exact nomatch hnone
  · intro hmem
    cases hk : index k with
    | none => rfl
    | some i =>
      obtain ⟨e, he, rfl, -⟩ := (h.find_iff k i).mp hk
      exact absurd (List.mem_map_of_mem he) hmem

/-- The order does not matter. -/
theorem perm (h : Linked key ident index l) (hperm : l.Perm l') : Linked key ident index l' where
  nodup := (hperm.map key).nodup_iff.mp h.nodup
  find_iff k i := by simp only [h.find_iff, hperm.mem_iff]

/-- Elements change that keep their keys and names. -/
theorem map (h : Linked key ident index l) (f : ε → ε) (hkey : ∀ e, key (f e) = key e)
    (hident : ∀ e, ident (f e) = ident e) : Linked key ident index (l.map f) where
  nodup := by
    rw [List.map_map, show key ∘ f = key from funext hkey]
    exact h.nodup
  find_iff k i := by simp [h.find_iff, hkey, hident]

variable [DecidableEq κ]

/-- A new element at the end. -/
theorem append (h : Linked key ident index l) (hnew : key e ∉ l.map key) :
    Linked key ident (Function.update index (key e) (some (ident e))) (l ++ [e]) where
  nodup := by
    rw [List.map_append, List.nodup_append]
    refine ⟨h.nodup, List.nodup_singleton _, ?_⟩
    intro k hk k' hk' heq
    rw [List.map_singleton, List.mem_singleton] at hk'
    exact hnew (hk' ▸ heq ▸ hk)
  find_iff k i := by
    by_cases hk : k = key e
    · subst hk
      rw [Function.update_self]
      constructor
      · intro hi
        exact ⟨e, by simp, rfl, Option.some.inj hi⟩
      · rintro ⟨e', he', hkey, rfl⟩
        rcases List.mem_append.mp he' with hold | hlast
        · exact absurd (hkey ▸ List.mem_map_of_mem hold) hnew
        · rw [List.mem_singleton.mp hlast]
    · rw [Function.update_of_ne hk, h.find_iff]
      constructor
      · rintro ⟨e', he', hkey, hident⟩
        exact ⟨e', List.mem_append_left _ he', hkey, hident⟩
      · rintro ⟨e', he', rfl, hident⟩
        rcases List.mem_append.mp he' with hold | hlast
        · exact ⟨e', hold, rfl, hident⟩
        · exact absurd (by rw [List.mem_singleton.mp hlast]) hk

/-- The element with a key is removed from both. -/
theorem erase (h : Linked key ident index l) (k : κ) :
    Linked key ident (Function.update index k none) (l.filter fun e => key e ≠ k) where
  nodup := h.nodup.sublist ((List.filter_sublist).map key)
  find_iff k' i := by
    by_cases hk : k' = k
    · subst hk
      rw [Function.update_self]
      constructor
      · exact nofun
      · rintro ⟨e, he, hkey, -⟩
        have hne := (List.mem_filter.mp he).2
        exact absurd hkey (by simpa using hne)
    · rw [Function.update_of_ne hk, h.find_iff]
      constructor
      · rintro ⟨e, he, rfl, hident⟩
        exact ⟨e, List.mem_filter.mpr ⟨he, by simpa using hk⟩, rfl, hident⟩
      · rintro ⟨e, he, hkey, hident⟩
        exact ⟨e, List.mem_of_mem_filter he, hkey, hident⟩

/-- All other elements stay when the first one goes. -/
theorem filter_tail (hnodup : ((e :: l).map key).Nodup) :
    ((e :: l).filter fun x => key x ≠ key e) = l := by
  rw [List.map_cons, List.nodup_cons] at hnodup
  rw [List.filter_cons_of_neg (by simp), List.filter_eq_self]
  intro x hx
  have hne : key x ≠ key e := fun heq => hnodup.1 (heq ▸ List.mem_map_of_mem hx)
  simpa using hne

/-- An element that goes to the end. -/
theorem perm_filter_append (hkey : (l.map key).Nodup) (he : e ∈ l) :
    l.Perm ((l.filter fun x => key x ≠ key e) ++ [e]) := by
  induction l with
  | nil => exact absurd he List.not_mem_nil
  | cons x l ih =>
    rcases List.mem_cons.mp he with rfl | hl
    · rw [filter_tail hkey]
      exact (List.perm_append_singleton _ _).symm
    · have hne : key x ≠ key e := fun heq =>
        (List.nodup_cons.mp hkey).1 (heq ▸ List.mem_map_of_mem hl)
      rw [List.filter_cons_of_pos (by simpa using hne), List.cons_append]
      exact (ih (List.nodup_cons.mp hkey).2 hl).cons x

/-- The first element is removed from both. -/
theorem tail (h : Linked key ident index (e :: l)) :
    Linked key ident (Function.update index (key e) none) l := by
  have herase := h.erase (key e)
  rwa [filter_tail h.nodup] at herase

/-- An element that is looked for by a name of its own is the one with its key. -/
theorem eraseP_eq_filter {ν : Type} [DecidableEq ν] {name : ε → ν} (hname : (l.map name).Nodup)
    (hkey : (l.map key).Nodup) (he : e ∈ l) :
    (l.eraseP fun x => name x = name e) = l.filter fun x => key x ≠ key e := by
  induction l with
  | nil => rfl
  | cons x l ih =>
    rcases List.mem_cons.mp he with rfl | hl
    · rw [List.eraseP_cons_of_pos (by simp), filter_tail hkey]
    · have hnamex : name x ≠ name e := fun heq =>
        (List.nodup_cons.mp hname).1 (heq ▸ List.mem_map_of_mem hl)
      have hkeyx : key x ≠ key e := fun heq =>
        (List.nodup_cons.mp hkey).1 (heq ▸ List.mem_map_of_mem hl)
      rw [List.eraseP_cons_of_neg (by simpa using hnamex),
        List.filter_cons_of_pos (by simpa using hkeyx),
        ih (List.nodup_cons.mp hname).2 (List.nodup_cons.mp hkey).2 hl]

end Linked

end TortoiseSvn.Lib
