import TortoiseSvn.Lib.Segments
import TortoiseSvn.Streams.InStream

/-!
# Columns of a container

The data of a container lies in parallel vectors, and an offset table says which entries belong to
which revision. Accesses outside a vector are undefined.

Main lemmas: `gather_range` and `slice_eq`, both ways of reading a range give its segment.
-/

namespace TortoiseSvn.LogCache

open TortoiseSvn.Lib

/-- Of two computations in a row, the second one starts from the result of the first one. -/
theorem bind_eq_ok {α β : Type} {x : Except Fault α} {f : α → Except Fault β} {b : β} :
    (x >>= f) = .ok b ↔ ∃ a, x = .ok a ∧ f a = .ok b := by
  cases x with
  | error e => simp [bind, Except.bind]
  | ok a => simp [bind, Except.bind]

theorem checked_eq_ok {α : Type} {x : Option α} {a : α} : checked x = .ok a ↔ x = some a := by
  cases x <;> simp [checked]

variable {α : Type}

/-! ### Accesses -/

/-- The positions of a loop `for (k = first; k != last; ++k)`. One that begins behind its end runs
through all indices. -/
def positions (first last : ℕ) : Except Fault (List ℕ) :=
  if first ≤ last then .ok (List.range' first (last - first)) else .error .undefined

/-- The entries at given positions, read one by one. -/
def gather (l : List α) (ks : List ℕ) : Except Fault (List α) := ks.mapM fun k => checked l[k]?

/-- The range between two iterators, as it is given to `insert`. -/
def slice (l : List α) (first last : ℕ) : Except Fault (List α) :=
  if first ≤ last ∧ last ≤ l.length then .ok (segment l first last) else .error .undefined

/-- Overwrite an entry. -/
def store (l : List α) (i : ℕ) (a : α) : Except Fault (List α) :=
  if i < l.length then .ok (l.set i a) else .error .undefined

/-- `std::vector::back`. -/
def back (l : List α) : Except Fault α := checked l.getLast?

/-- Change the last entry. -/
def modifyBack (f : α → α) (l : List α) : Except Fault (List α) :=
  (back l).map fun a => l.dropLast ++ [f a]

/-- Repeat the last entry. -/
def pushBackLast (l : List α) : Except Fault (List α) := (back l).map fun a => l ++ [a]

/-- Append copies of the last entry. -/
def appendLast (toAppend : ℕ) (l : List α) : Except Fault (List α) :=
  (back l).map fun a => l ++ List.replicate toAppend a

/-! ### Ranges of a column -/

theorem positions_eq {first last : ℕ} (h : first ≤ last) :
    positions first last = .ok (List.range' first (last - first)) := if_pos h

theorem gather_cons {l : List α} {k : ℕ} {a : α} (h : l[k]? = some a) (ks : List ℕ) :
    gather l (k :: ks) = (gather l ks).map (a :: ·) := by
  unfold gather
  rw [List.mapM_cons, h]
  rcases ks.mapM fun k => checked l[k]? with e | as <;> rfl

/-- Reading a range entry by entry gives its segment. -/
theorem gather_range {l : List α} {first last : ℕ} (h : first ≤ last) (hlast : last ≤ l.length) :
    gather l (List.range' first (last - first)) = .ok (segment l first last) := by
  induction hn : last - first generalizing first with
  | zero =>
    rw [Lib.segment, hn, List.take_zero]
    rfl
  | succ n ih =>
    have hlt : first < l.length := by omega
    rw [List.range'_succ, gather_cons (List.getElem?_eq_getElem hlt)]
    rw [ih (by omega) (by omega)]
    rw [Lib.segment, Lib.segment, hn, show last - (first + 1) = n by omega,
      List.drop_eq_getElem_cons hlt, List.take_succ_cons]
    rfl

theorem slice_eq {l : List α} {first last : ℕ} (h : first ≤ last) (hlast : last ≤ l.length) :
    slice l first last = .ok (segment l first last) := if_pos ⟨h, hlast⟩

/-- The middle part of a column, both ways. -/
theorem slice_map_middle {β : Type} (f : α → β) (front rev back : List α) :
    slice ((front ++ rev ++ back).map f) front.length (front.length + rev.length) =
      .ok (rev.map f) := by
  rw [slice_eq (Nat.le_add_right _ _) (by simp), segment_map, segment_middle]

@[inherit_doc slice_map_middle]
theorem gather_map_middle {β : Type} (f : α → β) (front rev back : List α) :
    gather ((front ++ rev ++ back).map f) (List.range' front.length rev.length) =
      .ok (rev.map f) := by
  have h := gather_range (l := (front ++ rev ++ back).map f) (Nat.le_add_right front.length rev.length)
    (by simp)
  rwa [Nat.add_sub_cancel_left, segment_map, segment_middle] at h

theorem store_append (l m : List α) (a b : α) :
    store (l ++ a :: m) l.length b = .ok (l ++ b :: m) := by
  rw [store, if_pos (by simp), List.set_append_right _ _ le_rfl, Nat.sub_self]
  rfl

theorem back_concat (l : List α) (a : α) : back (l ++ [a]) = .ok a := by
  rw [back, List.getLast?_concat]
  rfl

theorem modifyBack_concat (f : α → α) (l : List α) (a : α) :
    modifyBack f (l ++ [a]) = .ok (l ++ [f a]) := by
  rw [modifyBack, back_concat, List.dropLast_concat]
  rfl

/-! ### Offset tables -/

theorem back_offsets (ls : List (List α)) : back (offsetsFrom 0 ls) = .ok ls.flatten.length := by
  obtain ⟨l, hl⟩ := offsetsFrom_eq_concat ls
  rw [hl, back_concat]

/-- One more list, which is empty. -/
theorem pushBackLast_offsets (ls : List (List α)) :
    pushBackLast (offsetsFrom 0 ls) = .ok (offsetsFrom 0 (ls ++ [[]])) := by
  rw [pushBackLast, back_offsets, offsetsFrom_concat]
  simp [Except.map]

/-- One more entry of the last list. -/
theorem modifyBack_offsets (ls : List (List α)) (l : List α) (a : α) :
    modifyBack (· + 1) (offsetsFrom 0 (ls ++ [l])) = .ok (offsetsFrom 0 (ls ++ [l ++ [a]])) := by
  rw [offsetsFrom_concat, modifyBack_concat, offsetsFrom_concat]
  simp [Nat.add_assoc]

/-- More lists, which are empty. -/
theorem appendLast_offsets (n : ℕ) (ls : List (List α)) :
    appendLast n (offsetsFrom 0 ls) = .ok (offsetsFrom 0 (ls ++ List.replicate n [])) := by
  have hempty : ∀ n start, (offsetsFrom start (List.replicate n ([] : List α))).tail =
      List.replicate n start := by
    intro n
    induction n with
    | zero => exact fun _ => rfl
    | succ n ih =>
      intro start
      rw [List.replicate_succ, offsetsFrom, List.tail_cons, List.replicate_succ, ← ih start]
      cases n <;> rfl
  rw [appendLast, back_offsets, offsetsFrom_append, hempty, Nat.zero_add]
  rfl

end TortoiseSvn.LogCache
