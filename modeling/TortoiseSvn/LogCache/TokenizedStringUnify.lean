import TortoiseSvn.LogCache.Columns
import TortoiseSvn.LogCache.PairPacker

/-!
# Unifying the strings of a container

`Unify` keeps the first of equal token sequences. Duplicates are found through a hash over the
sequences; then the remaining sequences are moved to the front, within the buffers they are read
from.

Main result: `unify_spec`. Whatever `Insert` and `Compress` have made of a container, unifying leaves
different sequences and maps every old index to the sequence it had before.
-/

namespace TortoiseSvn.LogCache

open TortoiseSvn.Lib

namespace CTokenizedStringContainer

/-! ### The code -/

/-- The tokens of a string, `[first, last)`.
Source: `TokenizedStringContainer.cpp` `CTokenizedStringContainer::CHashFunction` -/
def sequence (c : CTokenizedStringContainer) (value : ℕ) : List Token :=
  segment c.stringData (c.offsets.getD value 0) (c.offsets.getD (value + 1) 0)

/-- Source: `TokenizedStringContainer.cpp` `CTokenizedStringContainer::CHashFunction::equal` -/
def hashEqual (c : CTokenizedStringContainer) (value index : ℕ) : Bool :=
  if value = index then true
  else if (c.sequence value).length ≠ (c.sequence index).length then false
  else ((c.sequence value).zip (c.sequence index)).all fun p => p.1 = p.2

/-- The hash index, as the indices it holds, and the results of the first loop of `Unify`. -/
structure Filtering where
  hashIndex : List ℕ := []
  newIndexes : List ℕ := []
  remainingIndices : List ℕ := []

/-- One round of the first loop, "filter duplicates".
Source: `TokenizedStringContainer.cpp` `CTokenizedStringContainer::Unify` -/
def filterStep (c : CTokenizedStringContainer) (s : Filtering) (i : ℕ) : Filtering :=
  match s.hashIndex.find? fun index => c.hashEqual i index with
  | none => ⟨s.hashIndex ++ [i], s.newIndexes ++ [s.remainingIndices.length],
      s.remainingIndices ++ [i]⟩
  | some index => { s with newIndexes := s.newIndexes ++ [s.newIndexes.getD index 0] }

/-- `memmove` of `length` tokens. -/
def moveTokens (data : List Token) (target source length : ℕ) : List Token :=
  data.take target ++ segment data source (source + length) ++ data.drop (target + length)

/-- One round of the second loop, "actually remove the duplicate strings".
Source: `TokenizedStringContainer.cpp` `CTokenizedStringContainer::Unify` -/
def vacuumStep (c : CTokenizedStringContainer) (i source : ℕ) : CTokenizedStringContainer :=
  if i < source then
    let sourceOffset := c.offsets.getD source 0
    let targetOffset := c.offsets.getD i 0
    let length := c.offsets.getD (source + 1) 0 - sourceOffset
    { c with
      offsets := c.offsets.set (i + 1) (targetOffset + length)
      stringData := moveTokens c.stringData targetOffset sourceOffset length }
  else c

/-- The second loop, from position `i` of the remaining indices on.
Source: `TokenizedStringContainer.cpp` `CTokenizedStringContainer::Unify` -/
def vacuum : ℕ → List ℕ → CTokenizedStringContainer → CTokenizedStringContainer
  | _, [], c => c
  | i, source :: rest, c => vacuum (i + 1) rest (c.vacuumStep i source)

/-- The container without duplicates, and the new indexes of its old strings.
Source: `TokenizedStringContainer.cpp` `CTokenizedStringContainer::Unify` -/
def unify (c : CTokenizedStringContainer) (newIndexes : List ℕ) :
    Except Fault (CTokenizedStringContainer × List ℕ) :=
  if newIndexes ≠ [] then .error .assertion
  else
    let filtered := (List.range (c.offsets.length - 1)).foldl c.filterStep {}
    let moved := vacuum 0 filtered.remainingIndices c
    let offsets := moved.offsets.take (filtered.remainingIndices.length + 1)
    .ok ({ moved with
      offsets := offsets
      stringData := moved.stringData.take (offsets.getLastD 0) }, filtered.newIndexes)

/-! ### Finding duplicates -/

section Filter

variable {c : CTokenizedStringContainer}

theorem hashEqual_iff (c : CTokenizedStringContainer) (value index : ℕ) :
    c.hashEqual value index = true ↔ c.sequence value = c.sequence index := by
  unfold hashEqual
  by_cases hsame : value = index
  · rw [if_pos hsame, hsame]
    exact iff_of_true rfl rfl
  rw [if_neg hsame]
  generalize c.sequence value = lhs
  generalize c.sequence index = rhs
  by_cases hlen : lhs.length = rhs.length
  · rw [if_neg (not_not_intro hlen)]
    induction lhs generalizing rhs with
    | nil =>
      obtain rfl := List.length_eq_zero_iff.mp hlen.symm
      exact iff_of_true rfl rfl
    | cons a lhs ih =>
      cases rhs with
      | nil => exact absurd hlen (Nat.succ_ne_zero _)
      | cons b rhs =>
        rw [List.zip_cons_cons, List.all_cons, Bool.and_eq_true, decide_eq_true_iff,
          ih rhs (Nat.succ.inj hlen), List.cons.injEq]
  · rw [if_pos hlen]
    exact iff_of_false Bool.false_ne_true fun h => hlen (congrArg List.length h)

/-- What the first loop has found out about the first `k` strings. -/
structure Filtered (c : CTokenizedStringContainer) (k : ℕ) (s : Filtering) : Prop where
  hash : s.hashIndex = s.remainingIndices
  sorted : s.remainingIndices.Pairwise (· < ·)
  lt : ∀ r ∈ s.remainingIndices, r < k
  distinct : s.remainingIndices.Pairwise fun r r' => c.sequence r ≠ c.sequence r'
  length : s.newIndexes.length = k
  found : ∀ i < k, ∃ j r, s.newIndexes[i]? = some j ∧ s.remainingIndices[j]? = some r ∧
    c.sequence r = c.sequence i

theorem filterStep_spec {k : ℕ} {s : Filtering} (h : Filtered c k s) :
    Filtered c (k + 1) (c.filterStep s k) := by
  -- the strings before keep what was found for them
  have hold : ∀ (j' : ℕ) (more : List ℕ), ∀ i < k, ∃ j r, (s.newIndexes ++ [j'])[i]? = some j ∧
      (s.remainingIndices ++ more)[j]? = some r ∧ c.sequence r = c.sequence i := by
    intro j' more i hi
    obtain ⟨j, r, hj, hr, hseq⟩ := h.found i hi
    refine ⟨j, r, ?_, ?_, hseq⟩
    · rw [List.getElem?_append_left (List.getElem?_eq_some_iff.mp hj).1]
      exact hj
    · rw [List.getElem?_append_left (List.getElem?_eq_some_iff.mp hr).1]
      exact hr
  have hlength : ∀ j', (s.newIndexes ++ [j']).length = k + 1 := fun j' => by
    rw [List.length_append, List.length_singleton, h.length]
  have hlast : ∀ j', (s.newIndexes ++ [j'])[k]? = some j' := fun j' => by
    rw [← h.length]
    exact List.getElem?_concat_length
  unfold filterStep
  split
  · rename_i hnone
    have hnew : ∀ r ∈ s.remainingIndices, c.sequence r ≠ c.sequence k := by
      intro r hr heq
      rw [List.find?_eq_none] at hnone
      exact hnone r (h.hash ▸ hr) ((hashEqual_iff c k r).mpr heq.symm)
    refine ⟨congrArg (· ++ [k]) h.hash, ?_, ?_, ?_, hlength _, ?_⟩
    · exact List.pairwise_append.mpr ⟨h.sorted, List.pairwise_singleton _ _, fun r hr r' hr' => by
        rw [List.mem_singleton.mp hr']
        exact h.lt r hr⟩
    · intro r hr
      rcases List.mem_append.mp hr with hr | hr
      · exact (h.lt r hr).trans (Nat.lt_succ_self k)
      · rw [List.mem_singleton.mp hr]
        exact Nat.lt_succ_self k
    · exact List.pairwise_append.mpr ⟨h.distinct, List.pairwise_singleton _ _, fun r hr r' hr' => by
        rw [List.mem_singleton.mp hr']
        exact hnew r hr⟩
    · intro i hi
      rcases Nat.lt_succ_iff_lt_or_eq.mp hi with hi | rfl
      · exact hold _ _ i hi
      · exact ⟨_, i, hlast _, List.getElem?_concat_length, rfl⟩
  · rename_i index hsome
    have hindex := List.mem_of_find?_eq_some hsome
    have hequal := (hashEqual_iff c k index).mp (List.find?_some hsome)
    rw [h.hash] at hindex
    obtain ⟨j, r, hj, hr, hseq⟩ := h.found index (h.lt index hindex)
    refine ⟨h.hash, h.sorted, fun r hr => (h.lt r hr).trans (Nat.lt_succ_self k), h.distinct,
      hlength _, fun i hi => ?_⟩
    rcases Nat.lt_succ_iff_lt_or_eq.mp hi with hi | rfl
    · obtain ⟨j, r, hj, hr, hseq⟩ := hold (s.newIndexes.getD index 0) [] i hi
      exact ⟨j, r, hj, by rwa [List.append_nil] at hr, hseq⟩
    · refine ⟨j, r, ?_, hr, hseq.trans hequal.symm⟩
      rw [hlast, List.getD_eq_getElem?_getD, hj]
      rfl

theorem filter_spec (c : CTokenizedStringContainer) (k : ℕ) :
    Filtered c k ((List.range k).foldl c.filterStep {}) := by
  induction k with
  | zero =>
    exact ⟨rfl, List.Pairwise.nil, fun r hr => absurd hr List.not_mem_nil, List.Pairwise.nil, rfl,
      fun i hi => absurd hi (Nat.not_lt_zero i)⟩
  | succ k ih =>
    rw [List.range_succ, List.foldl_append]
    exact filterStep_spec ih

end Filter

/-! ### Removing duplicates -/

section Vacuum

variable {c : CTokenizedStringContainer} {front behind : List Token} {segs done : List (List Token)}
  {bound : ℕ}

/-- The buffers when the sequences `done` have been moved to the front, which come from before
string `bound`: behind them, nothing has changed yet. -/
structure Moved (front behind : List Token) (segs done : List (List Token)) (bound : ℕ)
    (c : CTokenizedStringContainer) : Prop where
  offsets : c.offsets = offsetsFrom front.length done ++
    (offsetsFrom front.length segs).drop (done.length + 1)
  data : c.stringData = front ++ done.flatten ++ (segs.flatten ++ behind).drop done.flatten.length
  count_le : done.length ≤ bound
  length_le : done.flatten.length ≤ offsetOf segs bound
  unmoved : done.length = bound → done.flatten.length = offsetOf segs bound

theorem moved_nil (hdata : c.stringData = front ++ segs.flatten ++ behind)
    (hoffsets : c.offsets = offsetsFrom front.length segs) : Moved front behind segs [] 0 c where
  offsets := by
    rw [hoffsets, offsetsFrom_eq_cons]
    rfl
  data := by
    rw [hdata, List.append_assoc]
    exact congrArg (· ++ _) (List.append_nil front).symm
  count_le := le_rfl
  length_le := le_rfl
  unmoved := fun _ => rfl

/-- Offsets that nothing has been written to. -/
theorem Moved.getD_offsets (h : Moved front behind segs done bound c) {j : ℕ}
    (hj : done.length < j) (hle : j ≤ segs.length) :
    c.offsets.getD j 0 = front.length + offsetOf segs j := by
  rw [List.getD_eq_getElem?_getD, h.offsets, List.getElem?_append_right (by simpa using hj),
    offsetsFrom_length, List.getElem?_drop, Nat.add_sub_cancel' hj, offsetsFrom_getElem? hle]
  rfl

/-- The offset behind the sequences that were moved. -/
theorem Moved.getD_end (h : Moved front behind segs done bound c) :
    c.offsets.getD done.length 0 = front.length + done.flatten.length := by
  rw [List.getD_eq_getElem?_getD, h.offsets, List.getElem?_append_left (by simp),
    offsetsFrom_getElem? le_rfl, offsetOf_of_le le_rfl]
  rfl

theorem drop_flatten {r : ℕ} {s : List Token} (hs : segs[r]? = some s) :
    (segs.flatten ++ behind).drop (offsetOf segs r) =
      s ++ (segs.flatten ++ behind).drop (offsetOf segs (r + 1)) := by
  obtain ⟨hr, rfl⟩ := List.getElem?_eq_some_iff.mp hs
  rw [List.drop_append_of_le_length (offsetOf_le _ _), drop_offsetOf,
    List.drop_append_of_le_length (offsetOf_le _ _), drop_offsetOf, List.drop_eq_getElem_cons hr,
    List.flatten_cons, List.append_assoc]

/-- Moving one more sequence. -/
theorem Moved.step (h : Moved front behind segs done bound c) {r : ℕ} (hbound : bound ≤ r)
    {s : List Token} (hs : segs[r]? = some s) :
    Moved front behind segs (done ++ [s]) (r + 1) (c.vacuumStep done.length r) := by
  have hr := (List.getElem?_eq_some_iff.mp hs).1
  have hsucc := offsetOf_succ hs
  have hmono := offsetOf_mono segs hbound
  have hlength := h.length_le
  have hcount := h.count_le
  have hflat : (done ++ [s]).flatten.length = done.flatten.length + s.length := by
    rw [List.flatten_append, List.flatten_singleton, List.length_append]
  have hlen : (done ++ [s]).length = done.length + 1 := by
    rw [List.length_append, List.length_singleton]
  by_cases hlt : done.length < r
  · -- the sequence comes from further behind
    have hsource := h.getD_offsets hlt hr.le
    have hlast : c.offsets.getD (r + 1) 0 = front.length + offsetOf segs (r + 1) :=
      h.getD_offsets (Nat.lt_succ_of_lt hlt) hr
    have htarget := h.getD_end
    have hsize : front.length + offsetOf segs (r + 1) - (front.length + offsetOf segs r) =
        s.length := by omega
    have hnext : done.length + 1 < (offsetsFrom front.length segs).length := by
      rw [offsetsFrom_length]
      omega
    have hsegment : segment c.stringData (front.length + offsetOf segs r)
        (front.length + offsetOf segs r + s.length) = s := by
      rw [h.data, Lib.segment, Nat.add_sub_cancel_left, List.append_assoc, ← List.drop_drop,
        List.drop_left, List.drop_append, List.drop_of_length_le (by omega), List.nil_append,
        List.drop_drop, Nat.add_sub_cancel' (by omega), drop_flatten hs, List.take_left]
    have hdrop : c.stringData.drop (front.length + done.flatten.length + s.length) =
        (segs.flatten ++ behind).drop (done.flatten.length + s.length) := by
      rw [h.data, List.append_assoc, Nat.add_assoc, ← List.drop_drop, List.drop_left,
        ← List.drop_drop, List.drop_left, List.drop_drop]
    have htake : c.stringData.take (front.length + done.flatten.length) = front ++ done.flatten := by
      rw [h.data, ← List.length_append, List.take_left]
    rw [vacuumStep, if_pos hlt, hsource, hlast, htarget]
    dsimp only
    rw [hsize]
    refine ⟨?_, ?_, by omega, by omega, fun heq => by omega⟩
    · show c.offsets.set (done.length + 1) _ = _
      rw [h.offsets, List.set_append_right _ _ (by simp), offsetsFrom_length, Nat.sub_self,
        List.drop_eq_getElem_cons hnext, List.set_cons_zero, offsetsFrom_concat, hflat, hlen,
        List.append_assoc, List.singleton_append, Nat.add_assoc]
    · show moveTokens _ _ _ _ = _
      rw [moveTokens, hsegment, hdrop, htake, hflat, List.flatten_append, List.flatten_singleton,
        ← List.append_assoc front]
  · -- all strings before were kept
    have heq : done.length = r := by omega
    have hend : done.flatten.length = offsetOf segs r := by
      rw [h.unmoved (by omega)]
      congr 1
      omega
    have hnext : r + 1 < (offsetsFrom front.length segs).length := by
      rw [offsetsFrom_length]
      omega
    rw [vacuumStep, if_neg hlt]
    refine ⟨?_, ?_, by omega, by omega, fun _ => by omega⟩
    · have hvalue : (offsetsFrom front.length segs)[r + 1] = front.length + offsetOf segs (r + 1) := by
        have hget := @offsetsFrom_getElem? _ front.length _ segs hr
        rw [List.getElem?_eq_getElem hnext] at hget
        exact Option.some.inj hget
      rw [h.offsets, heq, List.drop_eq_getElem_cons hnext, hvalue, offsetsFrom_concat, hflat, hlen,
        heq, hend, hsucc, List.append_assoc, List.singleton_append, Nat.add_assoc]
    · rw [h.data, hend, drop_flatten hs, hflat, hend, ← hsucc, List.flatten_append,
        List.flatten_singleton, List.append_assoc, List.append_assoc, List.append_assoc]

theorem Moved.vacuum {rest : List ℕ} (h : Moved front behind segs done bound c)
    (hsorted : rest.Pairwise (· < ·)) (hbounds : ∀ r ∈ rest, bound ≤ r ∧ r < segs.length) :
    ∃ bound', Moved front behind segs (done ++ rest.map fun r => segs.getD r []) bound'
      (vacuum done.length rest c) := by
  induction rest generalizing done bound c with
  | nil =>
    refine ⟨bound, ?_⟩
    rw [List.map_nil, List.append_nil]
    exact h
  | cons r rest ih =>
    obtain ⟨hlt, hrest⟩ := List.pairwise_cons.mp hsorted
    obtain ⟨hle, hr⟩ := hbounds r List.mem_cons_self
    have hs : segs[r]? = some (segs.getD r []) := by
      rw [List.getD_eq_getElem?_getD, List.getElem?_eq_getElem hr]
      rfl
    have hstep := h.step hle hs
    obtain ⟨bound', hend⟩ := ih hstep hrest fun r' hr' =>
      ⟨hlt r' hr', (hbounds r' (List.mem_cons_of_mem _ hr')).2⟩
    refine ⟨bound', ?_⟩
    rw [List.append_assoc, List.length_append] at hend
    exact hend

end Vacuum

/-! ### What inserting and compressing leave -/

/-- The offsets cut the buffer into sequences. -/
structure Ordered (c : CTokenizedStringContainer) : Prop where
  ne_nil : c.offsets ≠ []
  sorted : c.offsets.Pairwise (· ≤ ·)
  le : ∀ o ∈ c.offsets, o ≤ c.stringData.length

theorem Ordered.exists_segs {c : CTokenizedStringContainer} (h : Ordered c) :
    ∃ front segs behind, c.stringData = front ++ segs.flatten ++ behind ∧
      c.offsets = offsetsFrom front.length segs := by
  obtain ⟨start, ends, hoffsets⟩ := List.exists_cons_of_ne_nil h.ne_nil
  have hsorted := h.sorted
  have hle := h.le
  rw [hoffsets] at hsorted hle
  obtain ⟨segs, behind, hsegs, hdata⟩ := exists_offsetsFrom hsorted hle
  have hstart := hle start List.mem_cons_self
  refine ⟨c.stringData.take start, segs, behind, ?_, ?_⟩
  · rw [List.append_assoc, ← hdata, List.take_append_drop]
  · rw [List.length_take, min_eq_left hstart, hoffsets, hsegs]

theorem Ordered.grow {c c' : CTokenizedStringContainer} (h : Ordered c)
    (hoffsets : c'.offsets = c.offsets) (hdata : c.stringData.length ≤ c'.stringData.length) :
    Ordered c' := by
  refine ⟨hoffsets ▸ h.ne_nil, hoffsets ▸ h.sorted, fun o ho => ?_⟩
  rw [hoffsets] at ho
  exact (h.le o ho).trans hdata

/-- Strings that are stored behind all others. -/
theorem Ordered.concat {c : CTokenizedStringContainer} (h : Ordered c) {more : List Token}
    {ends : List ℕ} (hsorted : ends.Pairwise (· ≤ ·))
    (hbounds : ∀ o ∈ ends, c.stringData.length ≤ o ∧ o ≤ (c.stringData ++ more).length) :
    Ordered { c with stringData := c.stringData ++ more, offsets := c.offsets ++ ends } := by
  refine ⟨List.append_ne_nil_of_left_ne_nil h.ne_nil _, ?_, fun o ho => ?_⟩
  · exact List.pairwise_append.mpr ⟨h.sorted, hsorted, fun o ho o' ho' =>
      (h.le o ho).trans (hbounds o' ho').1⟩
  · rcases List.mem_append.mp ho with ho | ho
    · exact (h.le o ho).trans (by simp)
    · exact (hbounds o ho).2

theorem init_ordered : Ordered init :=
  ⟨List.cons_ne_nil _ _, List.pairwise_singleton _ _, by decide⟩

theorem append_ordered (delimiter : UInt8 → Bool) {c : CTokenizedStringContainer} (h : Ordered c)
    (s : List UInt8) : Ordered (c.append delimiter s) :=
  h.grow rfl (by simp [append])

theorem insert_ordered (delimiter : UInt8 → Bool) {c : CTokenizedStringContainer} (h : Ordered c)
    (s : List UInt8) : Ordered (c.insert delimiter s) := by
  have hgrown := @Ordered.concat _ (append_ordered delimiter h s) [] _
    (List.pairwise_singleton _ (c.append delimiter s).stringData.length) (by simp)
  rw [List.append_nil] at hgrown
  exact hgrown

theorem insertCount_ordered (delimiter : UInt8 → Bool) {c : CTokenizedStringContainer}
    (h : Ordered c) (s : List UInt8) (count : ℕ) : Ordered (c.insertCount delimiter s count) := by
  unfold insertCount
  split
  · exact h
  rename_i hcount
  apply (append_ordered delimiter h s).concat
  · split
    · exact List.Pairwise.nil
    · rw [List.pairwise_map]
      refine List.pairwise_lt_range.imp fun {i j} hij => ?_
      exact Nat.add_le_add_left (Nat.mul_le_mul_right _ hij.le) _
  · generalize (c.append delimiter s).stringData.drop c.stringData.length = item
    intro o ho
    split at ho
    · exact absurd ho List.not_mem_nil
    · obtain ⟨i, hi, rfl⟩ := List.mem_map.mp ho
      have hle : i ≤ count - 1 := Nat.le_sub_one_of_lt (List.mem_range.mp hi)
      refine ⟨Nat.le_add_right _ _, ?_⟩
      rw [List.length_append, List.length_flatten, List.map_replicate, List.sum_replicate,
        smul_eq_mul]
      exact Nat.add_le_add_left (Nat.mul_le_mul_right _ hle) _

section Packer

open CPairPacker

theorem compressString_ordered {c c' : CTokenizedStringContainer} {minimumToken index n : ℕ}
    (h : Ordered c) (hc : compressString c minimumToken index = .ok (c', n)) : Ordered c' := by
  obtain ⟨⟨first, token, rest⟩, hrange, hc⟩ := bind_eq_ok.mp hc
  obtain ⟨rfl, -⟩ := Prod.mk.inj (Except.ok.inj hc)
  refine h.grow rfl ?_
  have hfirst : first ≤ c.stringData.length := by
    unfold stringRange at hrange
    split at hrange
    · rename_i f l hf hl
      split at hrange
      · rename_i hle
        split at hrange
        · obtain ⟨rfl, -⟩ := Prod.mk.inj (Except.ok.inj hrange)
          exact hle.1.trans hle.2
        · exact nomatch hrange
      · exact nomatch hrange
    · exact nomatch hrange
  simp only [List.length_append, List.length_take, List.length_drop]
  omega

theorem compressAll_ordered {minimumToken n : ℕ} {active strings : List ℕ}
    {c c' : CTokenizedStringContainer} (h : Ordered c)
    (hc : compressAll minimumToken active c = .ok (c', strings, n)) : Ordered c' := by
  induction active generalizing c strings n with
  | nil =>
    obtain ⟨rfl, -⟩ := Prod.mk.inj (Except.ok.inj hc)
    exact h
  | cons index rest ih =>
    obtain ⟨⟨c₁, n₁⟩, hfirst, hc⟩ := bind_eq_ok.mp hc
    obtain ⟨⟨c₂, strings₂, n₂⟩, hrest, hc⟩ := bind_eq_ok.mp hc
    obtain ⟨rfl, -⟩ := Prod.mk.inj (Except.ok.inj hc)
    exact ih (compressString_ordered h hfirst) hrest

theorem oneRound_ordered {p p' : CPairPacker} {n : ℕ} (h : Ordered p.container)
    (hp : p.oneRound = .ok (p', n)) : Ordered p'.container := by
  obtain ⟨⟨newPairs, counts⟩, -, hp⟩ := bind_eq_ok.mp hp
  obtain ⟨pairs, -, hp⟩ := bind_eq_ok.mp hp
  obtain ⟨⟨c, strings, m⟩, hc, hp⟩ := bind_eq_ok.mp hp
  obtain ⟨rfl, -⟩ := Prod.mk.inj (Except.ok.inj hp)
  exact compressAll_ordered (c := { p.container with pairs := pairs })
    ⟨h.ne_nil, h.sorted, h.le⟩ hc

theorem rounds_ordered {p p' : CPairPacker} (h : Ordered p.container)
    (hp : Returns roundsBody p p') : Ordered p'.container := by
  have hbody : ∀ {p : CPairPacker} {r}, roundsBody p = .ok r → ∃ q n, p.oneRound = .ok (q, n) ∧
      (r = .inl q ∨ r = .inr q) := by
    intro p r hr
    obtain ⟨⟨q, n⟩, hq, hr⟩ := bind_eq_ok.mp hr
    refine ⟨q, n, hq, ?_⟩
    rw [← Except.ok.inj hr]
    by_cases hn : 0 < n
    · exact Or.inl (if_pos hn)
    · exact Or.inr (if_neg hn)
  refine Returns.invariant (fun p => Ordered p.container) (fun p => Ordered p.container)
    (fun s s' hs hb => ?_) (fun s a hs hb => ?_) hp h
  · obtain ⟨q, n, hq, hsum | hsum⟩ := hbody hb
    · rw [Sum.inl.inj hsum]
      exact oneRound_ordered hs hq
    · exact nomatch hsum
  · obtain ⟨q, n, hq, hsum | hsum⟩ := hbody hb
    · exact nomatch hsum
    · rw [Sum.inr.inj hsum]
      exact oneRound_ordered hs hq

/-- The new offsets that `Compact` has written lie within its target. -/
structure Compacting (s : Compaction) : Prop where
  ne_nil : s.offsets ≠ []
  sorted : s.boundaries.Pairwise (· ≤ ·)
  le : ∀ o ∈ s.boundaries, o ≤ s.target.length

theorem Compacting.cross {s : Compaction} (h : Compacting s) (k : ℕ) :
    (s.boundaries ++ List.replicate k s.target.length).Pairwise (· ≤ ·) ∧
      ∀ o ∈ s.boundaries ++ List.replicate k s.target.length, o ≤ s.target.length := by
  constructor
  · refine List.pairwise_append.mpr ⟨h.sorted, List.pairwise_replicate.mpr (Or.inr le_rfl), ?_⟩
    intro o ho o' ho'
    rw [List.eq_of_mem_replicate ho']
    exact h.le o ho
  · intro o ho
    rcases List.mem_append.mp ho with ho | ho
    · exact h.le o ho
    · exact (List.eq_of_mem_replicate ho).le

theorem compactBody_round {data : List Token} {s s' : Compaction} (h : Compacting s)
    (hs : compactBody data s = .ok (.inl s')) : Compacting s' := by
  unfold compactBody at hs
  split at hs
  · split at hs <;> exact nomatch hs
  · dsimp only at hs
    obtain ⟨hsorted, hle⟩ := h.cross (s.offsets.takeWhile (· = s.iter)).length
    split at hs
    · exact nomatch hs
    · split at hs
      · obtain rfl := Sum.inl.inj (Except.ok.inj hs)
        exact ⟨List.cons_ne_nil _ _, hsorted, fun o ho => (hle o ho).trans (by simp)⟩
      · obtain rfl := Sum.inl.inj (Except.ok.inj hs)
        exact ⟨List.cons_ne_nil _ _, hsorted, hle⟩

theorem compactBody_leave {data : List Token} {s s' : Compaction} (h : Compacting s)
    (hs : compactBody data s = .ok (.inr s')) : Compacting s' := by
  unfold compactBody at hs
  split at hs
  · split at hs
    · rw [← Sum.inr.inj (Except.ok.inj hs)]
      exact h
    · cases hs
  · dsimp only at hs
    split at hs
    · cases hs
    · split at hs <;> cases hs

theorem compact_ordered {p : CPairPacker} {c : CTokenizedStringContainer} (h : Ordered p.container)
    (hc : p.Compact c) : Ordered c := by
  unfold Compact at hc
  split at hc
  · rw [hc]
    exact h
  · obtain ⟨s, hs, rfl⟩ := hc
    have hend : Compacting s := Returns.invariant Compacting Compacting
      (fun _ _ => compactBody_round) (fun _ _ => compactBody_leave) hs
      ⟨h.ne_nil, List.Pairwise.nil, fun o ho => absurd ho List.not_mem_nil⟩
    obtain ⟨hsorted, hle⟩ := hend.cross s.offsets.length
    refine ⟨fun hnil => hend.ne_nil ?_, hsorted, hle⟩
    have hreplicate := (List.append_eq_nil_iff.mp hnil).2
    rw [List.replicate_eq_nil_iff] at hreplicate
    exact List.length_eq_zero_iff.mp hreplicate

theorem length_mapM {α β : Type} {f : α → Except Fault β} {l : List α} {l' : List β}
    (h : l.mapM f = .ok l') : l'.length = l.length := by
  induction l generalizing l' with
  | nil =>
    rw [List.mapM_nil] at h
    obtain rfl : [] = l' := Except.ok.inj h
    rfl
  | cons a l ih =>
    rw [List.mapM_cons] at h
    obtain ⟨b, -, h⟩ := bind_eq_ok.mp h
    obtain ⟨bs, hbs, h⟩ := bind_eq_ok.mp h
    rw [← Except.ok.inj h, List.length_cons, List.length_cons, ih hbs]

theorem compress_ordered {c c' : CTokenizedStringContainer} (h : Ordered c) (hc : c.Compress c') :
    Ordered c' := by
  obtain ⟨p, compacted, hrounds, hcompact, direct, order, -, -, hreorder⟩ := hc
  have hcompacted := compact_ordered (rounds_ordered (p := .start c) h hrounds) hcompact
  obtain ⟨pairs, -, hreorder⟩ := bind_eq_ok.mp hreorder
  obtain ⟨stringData, hdata, hreorder⟩ := bind_eq_ok.mp hreorder
  rw [← Except.ok.inj hreorder]
  exact hcompacted.grow rfl (length_mapM hdata).ge

end Packer

/-- A container that strings have been inserted into and that may have been compressed. -/
inductive Filled (delimiter : UInt8 → Bool) : CTokenizedStringContainer → Prop
  | init : Filled delimiter init
  | insert {c : CTokenizedStringContainer} (s : List UInt8) :
      Filled delimiter c → Filled delimiter (c.insert delimiter s)
  | insertCount {c : CTokenizedStringContainer} (s : List UInt8) (count : ℕ) :
      Filled delimiter c → Filled delimiter (c.insertCount delimiter s count)
  | compress {c c' : CTokenizedStringContainer} :
      Filled delimiter c → c.Compress c' → Filled delimiter c'

theorem Filled.ordered {delimiter : UInt8 → Bool} {c : CTokenizedStringContainer}
    (h : Filled delimiter c) : Ordered c := by
  induction h with
  | init => exact init_ordered
  | insert s _ ih => exact insert_ordered delimiter ih s
  | insertCount s count _ ih => exact insertCount_ordered delimiter ih s count
  | compress _ hc ih => exact compress_ordered ih hc

/-! ### Unifying -/

/-- The sequences of a container are its segments. -/
theorem sequence_eq {c : CTokenizedStringContainer} {front behind : List Token}
    {segs : List (List Token)} (hdata : c.stringData = front ++ segs.flatten ++ behind)
    (hoffsets : c.offsets = offsetsFrom front.length segs) {i : ℕ} {s : List Token}
    (hs : segs[i]? = some s) : c.sequence i = s := by
  have hi := (List.getElem?_eq_some_iff.mp hs).1
  rw [sequence, List.getD_eq_getElem?_getD, List.getD_eq_getElem?_getD, hoffsets,
    offsetsFrom_getElem? hi.le, offsetsFrom_getElem? hi, hdata, Lib.segment, List.append_assoc,
    Option.getD_some, Option.getD_some, ← List.drop_drop, List.drop_left, Nat.add_sub_add_left]
  exact segment_flatten hs behind

/-- What unifying is for: all sequences are different, the new indexes are those of the new
container, and they lead to the old sequences. -/
structure Unified (c c' : CTokenizedStringContainer) (newIndexes : List ℕ) : Prop where
  distinct : ∀ j < c'.offsets.length - 1, ∀ j' < c'.offsets.length - 1,
    c'.sequence j = c'.sequence j' → j = j'
  length : newIndexes.length = c.offsets.length - 1
  onto : ∀ j, j ∈ newIndexes ↔ j < c'.offsets.length - 1
  same : ∀ i j, newIndexes[i]? = some j → c'.sequence j = c.sequence i

/-- The remaining strings are found under the new indexes. -/
theorem Filtered.unified {c c' : CTokenizedStringContainer} {s : Filtering}
    (h : Filtered c (c.offsets.length - 1) s)
    (hcount : c'.offsets.length - 1 = s.remainingIndices.length)
    (hseq : ∀ j r : ℕ, s.remainingIndices[j]? = some r → c'.sequence j = c.sequence r) :
    Unified c c' s.newIndexes := by
  have hinj : ∀ j r j' r' : ℕ, s.remainingIndices[j]? = some r →
      s.remainingIndices[j']? = some r' → c.sequence r = c.sequence r' → j = j' := by
    intro j r j' r' hj hj' heq
    obtain ⟨hlt, rfl⟩ := List.getElem?_eq_some_iff.mp hj
    obtain ⟨hlt', rfl⟩ := List.getElem?_eq_some_iff.mp hj'
    have hpair := List.pairwise_iff_getElem.mp h.distinct
    rcases Nat.lt_trichotomy j j' with hjj | hjj | hjj
    · exact absurd heq (hpair j j' hlt hlt' hjj)
    · exact hjj
    · exact absurd heq.symm (hpair j' j hlt' hlt hjj)
  constructor
  case distinct =>
    intro j hj j' hj' heq
    rw [hcount] at hj hj'
    have hr := List.getElem?_eq_getElem hj
    have hr' := List.getElem?_eq_getElem hj'
    rw [hseq j _ hr, hseq j' _ hr'] at heq
    exact hinj j _ j' _ hr hr' heq
  case length => exact h.length
  case onto =>
    intro j
    rw [hcount]
    constructor
    · intro hj
      obtain ⟨i, hi⟩ := List.mem_iff_getElem?.mp hj
      have hlt := (List.getElem?_eq_some_iff.mp hi).1
      obtain ⟨j', r, hj', hr, -⟩ := h.found i (h.length ▸ hlt)
      rw [Option.some.inj (hi.symm.trans hj')]
      exact (List.getElem?_eq_some_iff.mp hr).1
    · intro hj
      have hr := List.getElem?_eq_getElem hj
      obtain ⟨j', r', hj', hr', heq⟩ := h.found _ (h.lt _ (List.getElem_mem hj))
      rw [hinj j _ j' r' hr hr' heq.symm]
      exact List.mem_of_getElem? hj'
  case same =>
    intro i j hi
    have hlt := (List.getElem?_eq_some_iff.mp hi).1
    obtain ⟨j', r, hj', hr, heq⟩ := h.found i (h.length ▸ hlt)
    rw [Option.some.inj (hi.symm.trans hj'), ← heq]
    exact hseq j' r hr

/-- The buffers of a unified container hold the remaining sequences and nothing behind them. -/
theorem unify_eq {c : CTokenizedStringContainer} {front behind : List Token}
    {segs : List (List Token)} (hdata : c.stringData = front ++ segs.flatten ++ behind)
    (hoffsets : c.offsets = offsetsFrom front.length segs) :
    ∃ c' s, c.unify [] = .ok (c', s.newIndexes) ∧ Filtered c (c.offsets.length - 1) s ∧
      c'.stringData = front ++ (s.remainingIndices.map fun r => segs.getD r []).flatten ++ [] ∧
      c'.offsets = offsetsFrom front.length (s.remainingIndices.map fun r => segs.getD r []) := by
  have hcount : c.offsets.length - 1 = segs.length := by
    rw [hoffsets, offsetsFrom_length, Nat.add_sub_cancel]
  have hfiltered := filter_spec c (c.offsets.length - 1)
  refine ⟨_, _, rfl, hfiltered, ?_⟩
  generalize (List.range (c.offsets.length - 1)).foldl c.filterStep {} = s at hfiltered ⊢
  obtain ⟨bound, hmoved⟩ := (moved_nil hdata hoffsets).vacuum hfiltered.sorted fun r hr =>
    ⟨Nat.zero_le r, hcount ▸ hfiltered.lt r hr⟩
  rw [List.nil_append, List.length_nil] at hmoved
  generalize vacuum 0 s.remainingIndices c = m at hmoved ⊢
  have hlen : (s.remainingIndices.map fun r => segs.getD r []).length = s.remainingIndices.length :=
    List.length_map _
  generalize (s.remainingIndices.map fun r => segs.getD r []) = done at hmoved hlen ⊢
  have htake : m.offsets.take (s.remainingIndices.length + 1) = offsetsFrom front.length done := by
    rw [hmoved.offsets, ← hlen, ← offsetsFrom_length front.length, List.take_left]
  have hlast : (offsetsFrom front.length done).getLastD 0 = front.length + done.flatten.length := by
    rw [List.getLastD_eq_getLast?, List.getLast?_eq_getElem?, offsetsFrom_length,
      Nat.add_sub_cancel, offsetsFrom_getElem? le_rfl, offsetOf_of_le le_rfl]
    rfl
  refine ⟨?_, htake⟩
  dsimp only
  rw [htake, hlast, hmoved.data, ← List.length_append, List.take_left, List.append_nil]

/-- **Unifying a container that strings were inserted into, and that may have been compressed, leaves
different sequences and the right new indexes.** -/
theorem unify_spec (delimiter : UInt8 → Bool) (c : CTokenizedStringContainer)
    (hc : Filled delimiter c) :
    ∃ c' newIndexes, c.unify [] = .ok (c', newIndexes) ∧ Unified c c' newIndexes := by
  obtain ⟨front, segs, behind, hdata, hoffsets⟩ := hc.ordered.exists_segs
  obtain ⟨c', s, hunify, hfiltered, hdata', hoffsets'⟩ := unify_eq hdata hoffsets
  refine ⟨c', s.newIndexes, hunify, hfiltered.unified ?_ fun j r hj => ?_⟩
  · rw [hoffsets', offsetsFrom_length, Nat.add_sub_cancel, List.length_map]
  · have hlt := hfiltered.lt r (List.mem_of_getElem? hj)
    rw [hoffsets, offsetsFrom_length, Nat.add_sub_cancel] at hlt
    have hr : segs[r]? = some (segs.getD r []) := by
      rw [List.getD_eq_getElem?_getD, List.getElem?_eq_getElem hlt]
      rfl
    rw [sequence_eq hdata hoffsets hr]
    refine sequence_eq hdata' hoffsets' ?_
    rw [List.getElem?_map, hj]
    rfl

/-- A string that was inserted twice. -/
def insertedTwice : CTokenizedStringContainer :=
  ((init.insert (fun _ => false) [97]).insert (fun _ => false) [98]).insert (fun _ => false) [97]

/-- The third string is the first one. -/
theorem unify_spec_insertedTwice : ∃ c' newIndexes,
    insertedTwice.unify [] = .ok (c', newIndexes) ∧ Unified insertedTwice c' newIndexes :=
  unify_spec (fun _ => false) insertedTwice (((Filled.init.insert [97]).insert [98]).insert [97])

end CTokenizedStringContainer

end TortoiseSvn.LogCache
