import Mathlib.Tactic

/-!
# Lists stored back to back

A list of lists can be kept as one buffer and a table of offsets, one for the beginning of every
list and one for the end of the last. `offsetsFrom` is that table and `segment` reads a list from
the buffer. Main lemma: `segment_flatten`, the segment between two neighbouring offsets is the list
that was stored there.
-/

namespace TortoiseSvn.Lib

variable {α β : Type*}

/-- The offsets of lists that are stored from `start` on. -/
def offsetsFrom (start : ℕ) : List (List α) → List ℕ
  | [] => [start]
  | l :: ls => start :: offsetsFrom (start + l.length) ls

/-- The part of a buffer between two offsets. -/
def segment (data : List α) (first last : ℕ) : List α := (data.drop first).take (last - first)

attribute [local simp] offsetsFrom

theorem segment_map (f : α → β) (data : List α) (first last : ℕ) :
    segment (data.map f) first last = (segment data first last).map f := by
  rw [segment, segment, List.map_take, List.map_drop]

theorem segment_middle (front data back : List α) :
    segment (front ++ data ++ back) front.length (front.length + data.length) = data := by
  rw [segment, Nat.add_sub_cancel_left, List.append_assoc, List.drop_left, List.take_left]

/-- Where the i-th list begins. -/
def offsetOf (ls : List (List α)) (i : ℕ) : ℕ := (ls.take i).flatten.length

@[simp] theorem offsetOf_zero (ls : List (List α)) : offsetOf ls 0 = 0 := rfl

@[simp] theorem offsetOf_nil (i : ℕ) : offsetOf ([] : List (List α)) i = 0 := by
  simp [offsetOf]

@[simp] theorem offsetOf_cons_succ (l : List α) (ls : List (List α)) (i : ℕ) :
    offsetOf (l :: ls) (i + 1) = l.length + offsetOf ls i := by
  simp [offsetOf]

theorem offsetOf_of_le {ls : List (List α)} {i : ℕ} (h : ls.length ≤ i) :
    offsetOf ls i = ls.flatten.length := by
  rw [offsetOf, List.take_of_length_le h]

theorem offsetOf_succ {ls : List (List α)} {i : ℕ} {l : List α} (h : ls[i]? = some l) :
    offsetOf ls (i + 1) = offsetOf ls i + l.length := by
  simp [offsetOf, List.take_add_one, h]

theorem offsetOf_le (ls : List (List α)) (i : ℕ) : offsetOf ls i ≤ ls.flatten.length := by
  conv_rhs => rw [← List.take_append_drop i ls, List.flatten_append, List.length_append]
  exact Nat.le_add_right _ _

theorem offsetOf_mono (ls : List (List α)) {i j : ℕ} (h : i ≤ j) : offsetOf ls i ≤ offsetOf ls j := by
  have hle := offsetOf_le (ls.take j) i
  rwa [offsetOf, List.take_take, min_eq_left h] at hle

theorem offsetsFrom_congr {ls : List (List α)} {ms : List (List β)}
    (h : ls.map List.length = ms.map List.length) (start : ℕ) :
    offsetsFrom start ls = offsetsFrom start ms := by
  induction ls generalizing start ms with
  | nil =>
    obtain rfl : ms = [] := by simpa using h.symm
    rfl
  | cons l ls ih =>
    rcases ms with _ | ⟨m, ms⟩
    · simp at h
    · rw [List.map_cons, List.map_cons, List.cons.injEq] at h
      rw [offsetsFrom, offsetsFrom, h.1, ih h.2]

@[simp] theorem offsetsFrom_length (start : ℕ) (ls : List (List α)) :
    (offsetsFrom start ls).length = ls.length + 1 := by
  induction ls generalizing start with
  | nil => rfl
  | cons l ls ih => simp [offsetsFrom, ih]

theorem offsetsFrom_getElem? {start i : ℕ} {ls : List (List α)} (h : i ≤ ls.length) :
    (offsetsFrom start ls)[i]? = some (start + offsetOf ls i) := by
  induction ls generalizing start i with
  | nil =>
    obtain rfl : i = 0 := by simpa using h
    rfl
  | cons l ls ih =>
    rcases i with _ | i
    · rfl
    · rw [offsetsFrom, List.getElem?_cons_succ, ih (by simpa using h), offsetOf_cons_succ,
        Nat.add_assoc]

theorem offsetsFrom_eq_cons (start : ℕ) (ls : List (List α)) :
    offsetsFrom start ls = start :: (offsetsFrom start ls).tail := by
  cases ls <;> rfl

theorem offsetsFrom_append (start : ℕ) (ls ms : List (List α)) :
    offsetsFrom start (ls ++ ms) =
      offsetsFrom start ls ++ (offsetsFrom (start + ls.flatten.length) ms).tail := by
  induction ls generalizing start with
  | nil => cases ms <;> rfl
  | cons l ls ih => simp [offsetsFrom, ih, Nat.add_assoc]

/-- Storing one more list. -/
theorem offsetsFrom_concat (start : ℕ) (ls : List (List α)) (l : List α) :
    offsetsFrom start (ls ++ [l]) =
      offsetsFrom start ls ++ [start + (ls ++ [l]).flatten.length] := by
  rw [offsetsFrom_append]
  simp [offsetsFrom, Nat.add_assoc]

/-- The table of some lists and one more ends with the number of all entries. -/
theorem offsetsFrom_eq_concat (ls : List (List α)) :
    ∃ l, offsetsFrom 0 ls = l ++ [ls.flatten.length] := by
  rcases List.eq_nil_or_concat ls with rfl | ⟨ls, l, rfl⟩
  · exact ⟨[], rfl⟩
  · rw [List.concat_eq_append, offsetsFrom_concat, Nat.zero_add]
    exact ⟨_, rfl⟩

theorem drop_offsetOf (ls : List (List α)) (i : ℕ) :
    ls.flatten.drop (offsetOf ls i) = (ls.drop i).flatten := by
  conv_lhs => rw [← List.take_append_drop i ls, List.flatten_append]
  have hlen : offsetOf (ls.take i ++ ls.drop i) i = (ls.take i).flatten.length := by
    rw [List.take_append_drop, offsetOf]
  rw [hlen, List.drop_left]

theorem take_offsetOf (ls : List (List α)) (i : ℕ) :
    ls.flatten.take (offsetOf ls i) = (ls.take i).flatten := by
  conv_lhs => rw [← List.take_append_drop i ls, List.flatten_append]
  have hlen : offsetOf (ls.take i ++ ls.drop i) i = (ls.take i).flatten.length := by
    rw [List.take_append_drop, offsetOf]
  rw [hlen, List.take_left]

/-- Offsets in increasing order cut a buffer into lists. -/
theorem exists_offsetsFrom {data : List α} {start : ℕ} {ends : List ℕ}
    (hsorted : (start :: ends).Pairwise (· ≤ ·)) (hle : ∀ o ∈ start :: ends, o ≤ data.length) :
    ∃ segs behind, start :: ends = offsetsFrom start segs ∧
      data.drop start = segs.flatten ++ behind := by
  induction ends generalizing start with
  | nil => exact ⟨[], data.drop start, rfl, rfl⟩
  | cons last ends ih =>
    obtain ⟨hfirst, hrest⟩ := List.pairwise_cons.mp hsorted
    obtain ⟨segs, behind, hoffsets, hdata⟩ := ih hrest fun o ho => hle o (List.mem_cons_of_mem _ ho)
    have hlast : start ≤ last := hfirst last List.mem_cons_self
    have hend : last ≤ data.length := hle last (List.mem_cons_of_mem _ List.mem_cons_self)
    have hlen : (segment data start last).length = last - start := by
      rw [segment, List.length_take, List.length_drop]
      omega
    refine ⟨segment data start last :: segs, behind, ?_, ?_⟩
    · rw [offsetsFrom, hlen, Nat.add_sub_cancel' hlast, hoffsets]
    · rw [List.flatten_cons, List.append_assoc, ← hdata]
      conv_lhs => rw [← List.take_append_drop (last - start) (data.drop start), List.drop_drop,
        Nat.add_sub_cancel' hlast]
      rfl

/-- The i-th list is the segment between the i-th offset and the next one. -/
theorem segment_flatten {ls : List (List α)} {i : ℕ} {l : List α} (h : ls[i]? = some l)
    (rest : List α) :
    segment (ls.flatten ++ rest) (offsetOf ls i) (offsetOf ls (i + 1)) = l := by
  obtain ⟨hi, rfl⟩ := List.getElem?_eq_some_iff.mp h
  rw [segment, List.drop_append_of_le_length (offsetOf_le ls i), drop_offsetOf, offsetOf_succ h,
    Nat.add_sub_cancel_left, List.drop_eq_getElem_cons hi, List.flatten_cons, List.append_assoc,
    List.take_left]

/-- Overwriting a list by one of the same length overwrites its segment. -/
theorem flatten_set {ls : List (List α)} {i : ℕ} {l l' : List α} (h : ls[i]? = some l)
    (hlen : l'.length = l.length) :
    (ls.set i l').flatten = ls.flatten.take (offsetOf ls i) ++ l' ++
      ls.flatten.drop (offsetOf ls i + l'.length) := by
  obtain ⟨hi, rfl⟩ := List.getElem?_eq_some_iff.mp h
  rw [hlen, ← offsetOf_succ h, take_offsetOf, drop_offsetOf, List.set_eq_take_append_cons_drop,
    if_pos hi]
  simp

end TortoiseSvn.Lib
