import TortoiseSvn.LogCache.DictionaryRuns
import TortoiseSvn.LogCache.RevisionInfoLoad
import TortoiseSvn.LogCache.RevisionStrings

/-!
# Optimizing a container

`Optimize` numbers the authors by their frequency and sorts the changes of each revision. The author
numbers of the revisions go through the inverse of the order in which the pool gets its strings.

Main result: `optimize_keeps_log`. A consistent container keeps its log, and no changed path comes
before a changed path above it. The containers of all runs are consistent (`Reached.consistent`).
-/

namespace TortoiseSvn.LogCache

open TortoiseSvn.Lib CPathDictionary

/-- Reading a list of positions, all of which exist. -/
theorem gather_ok {α : Type} {l : List α} {ks : List ℕ} (h : ∀ k ∈ ks, k < l.length) :
    ∃ as, gather l ks = .ok as ∧ List.Forall₂ (fun k a => l[k]? = some a) ks as := by
  induction ks with
  | nil => exact ⟨[], rfl, .nil⟩
  | cons k ks ih =>
    obtain ⟨hk, hks⟩ := List.forall_mem_cons.mp h
    obtain ⟨as, has, hall⟩ := ih hks
    have hget := List.getElem?_eq_getElem hk
    refine ⟨l[k] :: as, ?_, .cons hget hall⟩
    rw [gather_cons hget, has]
    rfl

/-- Strings of a dictionary end inside its buffer. -/
theorem CStringDictionary.Unique.stringAt {d : CStringDictionary} (h : d.Unique) {i : ℕ}
    (hi : i < d.size) : d.stringAt i = .ok (d.get i) := by
  obtain ⟨ws, rfl, -, -⟩ := h
  have hget := List.getElem?_eq_getElem (pack_size ws ▸ hi)
  apply if_pos
  refine ⟨hi, ?_⟩
  rw [drop_offset_pack ws hget]
  exact List.mem_append_right _ List.mem_cons_self

namespace CRevisionInfoContainer

/-! ### The order of authors -/

/-- Source: `RevisionInfoContainer.cpp` `SPerAuthorInfo` -/
structure SPerAuthorInfo where
  frequency : ℕ
  author : ℕ
  deriving DecidableEq

/-- By falling frequency, and by age within a frequency.
Source: `RevisionInfoContainer.cpp` `SPerAuthorInfo::operator<` -/
def SPerAuthorInfo.lt (x y : SPerAuthorInfo) : Bool :=
  y.frequency < x.frequency ∨ x.frequency = y.frequency ∧ x.author < y.author

/-- Source: `RevisionInfoContainer.cpp` `CRevisionInfoContainer::OptimizeAuthors`, the counting -/
def countAuthors : List ℕ → List SPerAuthorInfo → Except Fault (List SPerAuthorInfo)
  | [], counter => .ok counter
  | author :: authors, counter => do
    let info ← checked counter[author]?
    let counter ← store counter author { info with frequency := info.frequency + 1 }
    countAuthors authors counter

/-- The first entry is that of the empty string and stays. No two entries are equal, hence there is
one sorted order.
Source: `RevisionInfoContainer.cpp` `CRevisionInfoContainer::OptimizeAuthors`, the sorting -/
def sortAuthors : List SPerAuthorInfo → Except Fault (List SPerAuthorInfo)
  | [] => .error .undefined
  | first :: rest => .ok (first :: rest.mergeSort fun x y => !y.lt x)

/-- The new number of each author of the sorted list, from number `i` on, is written to the position
that is its old number.
Source: `RevisionInfoContainer.cpp` `CRevisionInfoContainer::OptimizeAuthors`, the re-mapping -/
def remapIndices : List SPerAuthorInfo → ℕ → List ℕ → Except Fault (List ℕ)
  | [], _, indices => .ok indices
  | info :: counter, i, indices => do
    let indices ← store indices info.author i
    remapIndices counter (i + 1) indices

/-- Source: `RevisionInfoContainer.cpp` `CRevisionInfoContainer::OptimizeAuthors` -/
def optimizeAuthors (c : CRevisionInfoContainer) : Except Fault CRevisionInfoContainer := do
  let counter := (List.range c.authorPool.size).map fun i => SPerAuthorInfo.mk 0 i
  let counter ← countAuthors c.authors counter
  let counter ← sortAuthors counter
  let indices := counter.map SPerAuthorInfo.author
  let authorPool ← c.authorPool.reorder indices
  let indices ← remapIndices counter 0 indices
  let authors ← gather indices c.authors
  pure { c with authorPool := authorPool, authors := authors }

/-- Source: `RevisionInfoContainer.cpp` `CRevisionInfoContainer::Optimize` -/
def optimize (sort : List SPerChangeInfo → List SPerChangeInfo) (c : CRevisionInfoContainer) :
    Except Fault CRevisionInfoContainer := do
  let c ← c.optimizeAuthors
  c.optimizeChangeOrder sort

/-! ### Reordering the authors -/

/-- Counting changes frequencies only. -/
theorem countAuthors_ok {authors : List ℕ} {counter : List SPerAuthorInfo}
    (h : ∀ a ∈ authors, a < counter.length) : ∃ counter', countAuthors authors counter = .ok counter' ∧
      counter'.map SPerAuthorInfo.author = counter.map SPerAuthorInfo.author := by
  induction authors generalizing counter with
  | nil => exact ⟨counter, rfl, rfl⟩
  | cons a authors ih =>
    obtain ⟨ha, hauthors⟩ := List.forall_mem_cons.mp h
    have hget := List.getElem?_eq_getElem ha
    obtain ⟨counter', hrun, hmap⟩ := @ih
      (counter.set a { counter[a] with frequency := counter[a].frequency + 1 })
      (by rwa [List.length_set])
    refine ⟨counter', ?_, hmap.trans ?_⟩
    · rw [countAuthors, hget]
      simp only [checked, bind, Except.bind]
      rw [store_eq ha]
      exact hrun
    · rw [List.map_set]
      apply set_self
      rw [List.getElem?_map, hget]
      rfl

theorem sortAuthors_ok {counter : List SPerAuthorInfo} (h : counter ≠ []) :
    ∃ sorted, sortAuthors counter = .ok sorted ∧ sorted.Perm counter ∧
      sorted.head? = counter.head? := by
  cases counter with
  | nil => exact absurd rfl h
  | cons first rest => exact ⟨_, rfl, (List.mergeSort_perm rest _).cons first, rfl⟩

/-- The loop inverts the order of the authors. -/
theorem remapIndices_ok {counter : List SPerAuthorInfo} {i : ℕ} {indices : List ℕ}
    (hlt : ∀ x ∈ counter, x.author < indices.length)
    (hnodup : (counter.map SPerAuthorInfo.author).Nodup) :
    ∃ indices', remapIndices counter i indices = .ok indices' ∧
      indices'.length = indices.length ∧
      (∀ (k : ℕ) x, counter[k]? = some x → indices'[x.author]? = some (i + k)) ∧
      ∀ a, a ∉ counter.map SPerAuthorInfo.author → indices'[a]? = indices[a]? := by
  induction counter generalizing i indices with
  | nil => exact ⟨indices, rfl, rfl, nofun, fun _ _ => rfl⟩
  | cons x counter ih =>
    obtain ⟨hx, hrest⟩ := List.forall_mem_cons.mp hlt
    rw [List.map_cons, List.nodup_cons] at hnodup
    obtain ⟨indices', hrun, hlen, hnew, hold⟩ := @ih (i + 1) (indices.set x.author i)
      (by rwa [List.length_set]) hnodup.2
    refine ⟨indices', ?_, by rw [hlen, List.length_set], ?_, ?_⟩
    · rw [remapIndices, store_eq hx]
      exact hrun
    · intro k y hy
      cases k with
      | zero =>
        obtain rfl := Option.some.inj hy
        rw [hold _ hnodup.1]
        exact List.getElem?_set_self hx
      | succ k => rw [hnew k y hy, Nat.add_right_comm, Nat.add_assoc]
    · intro a ha
      rw [List.map_cons, List.mem_cons, not_or] at ha
      rw [hold a ha.2, List.getElem?_set_ne (Ne.symm ha.1)]

/-- All authors keep their strings. -/
theorem ConsistentAuthors.optimizeAuthors {c : CRevisionInfoContainer} (h : c.ConsistentAuthors) :
    ∃ c', c.optimizeAuthors = .ok c' ∧ c'.ConsistentAuthors ∧
      c' = { c with authorPool := c'.authorPool, authors := c'.authors } ∧
      c'.authorPool.size = c.authorPool.size ∧
      List.Forall₂ (fun a a' => c'.authorPool.get a' = c.authorPool.get a) c.authors c'.authors := by
  generalize hn : c.authorPool.size = n
  have hauthors : ∀ a ∈ c.authors, a < n := fun a ha => hn ▸ h.authors a ha
  have hcounter : ((List.range n).map fun i => SPerAuthorInfo.mk 0 i).map SPerAuthorInfo.author =
      List.range n := by
    rw [List.map_map]
    exact List.map_id' _
  obtain ⟨counter, hcount, hmap⟩ := @countAuthors_ok c.authors
    ((List.range n).map fun i => SPerAuthorInfo.mk 0 i) (by simpa using hauthors)
  rw [hcounter] at hmap
  have hne : counter ≠ [] := by
    intro hnil
    have hlen := congrArg List.length hmap
    rw [hnil, List.length_map, List.length_range] at hlen
    have hpos := hn ▸ h.empty.1
    exact absurd hlen.symm (Nat.ne_of_gt hpos)
  obtain ⟨sorted, hsort, hperm, hhead⟩ := sortAuthors_ok hne
  have his : (sorted.map SPerAuthorInfo.author).Perm (List.range n) :=
    (hperm.map _).trans (.of_eq hmap)
  have hfirst : (sorted.map SPerAuthorInfo.author)[0]? = some 0 := by
    rw [← List.head?_eq_getElem?, List.head?_map, hhead, ← List.head?_map, hmap,
      List.head?_eq_getElem?]
    exact List.getElem?_range (hn ▸ h.empty.1)
  obtain ⟨pool, hpool, hunique, hsize, hget⟩ := h.pool.reorder (hn.symm ▸ his)
  have hindices : (sorted.map SPerAuthorInfo.author).length = n := by
    rw [his.length_eq, List.length_range]
  obtain ⟨indices, hremap, hlen, hinverse, -⟩ := @remapIndices_ok sorted 0
    (sorted.map SPerAuthorInfo.author)
    (fun x hx => by
      rw [hindices]
      exact List.mem_range.mp (his.mem_iff.mp (List.mem_map_of_mem hx)))
    (his.nodup_iff.mpr List.nodup_range)
  obtain ⟨authors, hgather, hall⟩ := @gather_ok _ indices c.authors (by rwa [hlen, hindices])
  -- an author's new number is its position in the order
  have hstring : ∀ a < n, ∀ a', indices[a]? = some a' → a' < pool.size ∧
      pool.get a' = c.authorPool.get a := by
    intro a ha a' ha'
    obtain ⟨x, hx, rfl⟩ := List.mem_map.mp (his.mem_iff.mpr (List.mem_range.mpr ha))
    obtain ⟨k, hk⟩ := List.getElem?_of_mem hx
    rw [hinverse k x hk, Nat.zero_add] at ha'
    obtain rfl := Option.some.inj ha'
    have hauthor : (sorted.map SPerAuthorInfo.author)[k]? = some x.author := by
      rw [List.getElem?_map, hk]
      rfl
    refine ⟨?_, hget k x.author hauthor⟩
    rw [hsize, hn, ← hindices]
    exact (List.getElem?_eq_some_iff.mp hauthor).1
  refine ⟨{ c with authorPool := pool, authors := authors }, ?_, ⟨hunique, ⟨?_, ?_⟩, ?_⟩, rfl,
    hsize.trans hn, ?_⟩
  · unfold CRevisionInfoContainer.optimizeAuthors
    rw [hn]
    simp only [bind, Except.bind, hcount, hsort, hpool, hremap, hgather]
    rfl
  · exact hsize.symm ▸ h.empty.1
  · exact (hget 0 0 hfirst).trans h.empty.2
  · intro a' ha'
    obtain ⟨a, ha, hget'⟩ := exists_of_forall₂ hall.flip ha'
    exact (hstring a (hauthors a ha) a' hget').1
  · have hboth := (List.forall₂_and_left c.authors authors).mpr ⟨hauthors, hall⟩
    exact hboth.imp fun a a' ha => (hstring a ha.1 a' ha.2).2

/-! ### Reordering the changes -/

section Changes

variable {c c' : CRevisionInfoContainer} {sort : List SPerChangeInfo → List SPerChangeInfo}

/-- All but the numbers of the authors and the data of the changes. -/
def untouched (c : CRevisionInfoContainer) : CRevisionInfoContainer :=
  { c with
    authorPool := .init, authors := [], changes := [], changedPaths := [], changedPathTypes := []
    copyFromPaths := [], copyFromRevisions := [], textModifies := [], propsModifies := [] }

theorem columns_of_untouched (h : c'.untouched = c.untouched) :
    c'.comments = c.comments ∧ c'.timeStamps = c.timeStamps ∧ c'.paths = c.paths := by
  have hcomments : c'.untouched.comments = c.untouched.comments := by rw [h]
  have htimes : c'.untouched.timeStamps = c.untouched.timeStamps := by rw [h]
  have hpaths : c'.untouched.paths = c.untouched.paths := by rw [h]
  exact ⟨hcomments, htimes, hpaths⟩

theorem writeChanges_untouched {ys : List SPerChangeInfo} {iter : CChangesIterator}
    (h : writeChanges ys iter c = .ok c') : c'.untouched = c.untouched := by
  induction ys generalizing iter c with
  | nil =>
    obtain rfl := Except.ok.inj h
    rfl
  | cons y ys ih =>
    rw [writeChanges] at h
    simp only [bind_eq_ok] at h
    obtain ⟨_, -, _, -, _, -, _, -, _, -, h⟩ := h
    split at h
    · simp only [bind_eq_ok] at h
      obtain ⟨_, -, _, -, h⟩ := h
      have hrest := ih h
      exact hrest
    · have hrest := ih h
      exact hrest

theorem optimizeChangeOrder_untouched (h : c.optimizeChangeOrder sort = .ok c') :
    c'.untouched = c.untouched := by
  unfold optimizeChangeOrder at h
  generalize c.size = n at h
  generalize 0 = i at h
  induction n generalizing i c with
  | zero =>
    obtain rfl := Except.ok.inj h
    rfl
  | succ n ih =>
    rw [optimizeChangeOrderLoop] at h
    simp only [bind_eq_ok] at h
    obtain ⟨_, -, _, -, c₁, hc₁, h⟩ := h
    exact (ih _ h).trans (writeChanges_untouched hc₁)

/-- Path `i` lies below path `j` and is another path. -/
def Below (d : CPathDictionary) (i j : Index) : Prop :=
  ∃ a b : ℕ, i = (a : Index) ∧ j = (b : Index) ∧ a ≠ b ∧ d.Above b a

/-- Paths have larger indices than those above them. -/
theorem Below.lt {d : CPathDictionary} (hd : d.Tree) {i j : Index} (h : Below d i j) : j < i := by
  obtain ⟨a, b, rfl, rfl, hne, habove⟩ := h
  exact Nat.cast_lt.mpr (lt_of_le_of_ne (hd.le_of_above habove) hne.symm)

/-- Sorted changes come behind the changes of the paths above theirs. -/
theorem IsSort.not_below (hsort : IsSort sort) {d : CPathDictionary} (hd : d.Tree)
    (xs : List SPerChangeInfo) :
    (sort xs).Pairwise fun x y => ¬ Below d x.changedPath y.changedPath := by
  refine (hsort xs).2.imp fun {x y} hlt hbelow => hlt ?_
  exact decide_eq_true (.inl (hbelow.lt hd))

/-- Change `x` may come before change `y`. -/
theorem lt_eq_false_iff {x y : SPerChangeInfo} : y.lt x = false ↔
    x.changedPath < y.changedPath ∨ x.changedPath = y.changedPath ∧ y.change ≤ x.change := by
  rw [SPerChangeInfo.lt, decide_eq_false_iff_not, not_or, not_and, not_lt, UInt8.not_lt,
    le_iff_lt_or_eq]
  constructor
  · rintro ⟨hlt | heq, hchange⟩
    · exact .inl hlt
    · exact .inr ⟨heq, hchange heq.symm⟩
  · rintro (hlt | ⟨heq, hchange⟩)
    · exact ⟨.inl hlt, fun heq => absurd heq hlt.ne'⟩
    · exact ⟨.inr heq, fun _ => hchange⟩

/-- A sort as the source asks for. -/
theorem isSort_mergeSort : IsSort fun xs => xs.mergeSort fun x y => !y.lt x := by
  intro xs
  have hsorted : (xs.mergeSort fun x y : SPerChangeInfo => !y.lt x).Pairwise
      fun x y => (!y.lt x) = true := by
    apply List.pairwise_mergeSort
    · intro x y z hxy hyz
      rw [Bool.not_eq_true', lt_eq_false_iff] at hxy hyz ⊢
      rcases hxy with hxy | ⟨hxy, hchange⟩
      · exact .inl (hxy.trans_le (hyz.elim le_of_lt fun h => h.1.le))
      · rcases hyz with hyz | ⟨hyz, hchange'⟩
        · exact .inl (hxy.trans_lt hyz)
        · exact .inr ⟨hxy.trans hyz, UInt8.le_trans hchange' hchange⟩
    · intro x y
      rw [Bool.or_eq_true, Bool.not_eq_true', Bool.not_eq_true', lt_eq_false_iff, lt_eq_false_iff]
      rcases lt_trichotomy x.changedPath y.changedPath with hlt | heq | hlt
      · exact .inl (.inl hlt)
      · rcases UInt8.le_total x.change y.change with hle | hle
        · exact .inr (.inr ⟨heq.symm, hle⟩)
        · exact .inl (.inr ⟨heq, hle⟩)
      · exact .inr (.inl hlt)
  exact ⟨List.mergeSort_perm xs _, hsorted.imp fun {x y} hle => by simpa using hle⟩

end Changes

/-! ### The log -/

/-- A container whose columns fit together. -/
structure Consistent (c : CRevisionInfoContainer) : Prop where
  changes : ∃ revs, c.Tracks revs
  authors : c.ConsistentAuthors
  /-- An `index_t` counts the authors. -/
  size : c.authorPool.size ≤ noIndex

/-- Two containers have the same log, in which the changes of a revision have no order. -/
structure SameLog (c c' : CRevisionInfoContainer) : Prop where
  size : c'.size = c.size
  author : ∀ i < c.size, ∃ author, c.getAuthor i = .ok author ∧ c'.getAuthor i = .ok author
  comment : ∀ i comment, c'.comments.GetAt i comment ↔ c.comments.GetAt i comment
  timeStamp : ∀ i, c'.getTimeStamp i = c.getTimeStamp i
  paths : c'.paths = c.paths
  changes : ∀ i < c.size, ∃ xs ys, c.changesOf i = .ok xs ∧ c'.changesOf i = .ok ys ∧ ys.Perm xs
  others : c'.untouched = c.untouched

/-- No change of a revision comes before a change of a path above its own. -/
def ParentsFirst (c : CRevisionInfoContainer) : Prop :=
  ∀ i < c.size, ∃ xs, c.changesOf i = .ok xs ∧
    xs.Pairwise fun x y => ¬ Below c.paths x.changedPath y.changedPath

section Log

variable {c c' : CRevisionInfoContainer} {sort : List SPerChangeInfo → List SPerChangeInfo}
  {delimiter : UInt8 → Bool} {dateOf : List UInt8 → ℤ}

theorem ConsistentAuthors.getAuthor (h : c.ConsistentAuthors) (hsize : c.authorPool.size ≤ noIndex)
    {i a : ℕ} (ha : c.authors[i]? = some a) : c.getAuthor i = .ok (c.authorPool.get a) := by
  have hlt := h.authors a (List.mem_of_getElem? ha)
  rw [CRevisionInfoContainer.getAuthor, ha]
  simp only [checked, bind, Except.bind]
  rw [if_neg (hlt.trans_le hsize).ne, h.pool.stringAt hlt]

/-- Authors are found at their new numbers. -/
theorem getAuthor_of_forall₂ (h : c.ConsistentAuthors) (h' : c'.ConsistentAuthors)
    (hsize : c.authorPool.size ≤ noIndex) (hsize' : c'.authorPool.size ≤ noIndex)
    (hall : List.Forall₂ (fun a a' => c'.authorPool.get a' = c.authorPool.get a) c.authors
      c'.authors) {i : ℕ} (hi : i < c.authors.length) :
    ∃ author, c.getAuthor i = .ok author ∧ c'.getAuthor i = .ok author := by
  have hi' : i < c'.authors.length := hall.length_eq ▸ hi
  refine ⟨_, h.getAuthor hsize (List.getElem?_eq_getElem hi), ?_⟩
  rw [h'.getAuthor hsize' (List.getElem?_eq_getElem hi')]
  exact congrArg _ (List.Forall₂.get hall hi hi')

/-- **Optimizing a consistent container keeps its log**: every revision has its author, its comment,
its time stamp and its changes, which are in an order in which parent paths come first. -/
theorem optimize_keeps_log (h : c.Consistent) (hsort : IsSort sort) :
    ∃ c', c.optimize sort = .ok c' ∧ c.SameLog c' ∧ c'.ParentsFirst ∧ c'.Consistent := by
  obtain ⟨revs, ht⟩ := h.changes
  obtain ⟨c₁, hrun₁, hauthors, hc₁, hpool, hall⟩ := h.authors.optimizeAuthors
  have ht₁ : c₁.Tracks revs := by
    refine ht.congr ⟨?_, hall.length_eq.symm, ?_⟩
    · rw [hc₁]
      rfl
    · rw [hc₁]
  obtain ⟨c₂, hrun₂, hholds, hsize, hflags, hpaths⟩ :=
    ht₁.changes.optimizeChangeOrder ht₁.size hsort
  have hstrings := optimizeChangeOrder_strings hrun₂
  have hpool₂ : c₂.authorPool = c₁.authorPool := congrArg StringColumns.authorPool hstrings
  have hauthors₂ : c₂.authors = c₁.authors := congrArg StringColumns.authors hstrings
  have hothers : c₂.untouched = c.untouched := by
    rw [optimizeChangeOrder_untouched hrun₂, hc₁]
    rfl
  have ht₂ : c₂.Tracks (revs.map sort) := by
    refine ⟨hholds, ?_, ?_⟩
    · rw [hsize, ht₁.size, List.length_map]
    · rw [hflags, ht₁.flags, List.length_map]
  have hcount : c₂.size = c.size := hsize.trans hall.length_eq.symm
  have hconsistent : c₂.Consistent := by
    refine ⟨⟨_, ht₂⟩, hauthors.congr hstrings, ?_⟩
    rw [hpool₂, hpool]
    exact h.size
  have hread : ∀ i < c.size, ∃ rev, revs[i]? = some rev ∧ c.changesOf i = .ok rev ∧
      c₂.changesOf i = .ok (sort rev) := by
    intro i hi
    have hrev : revs[i]? = some _ := List.getElem?_eq_getElem (ht.size ▸ hi)
    refine ⟨_, hrev, ht.changes.changesOf_eq hrev, ht₂.changes.changesOf_eq ?_⟩
    rw [List.getElem?_map, hrev]
    rfl
  refine ⟨c₂, ?_, ⟨hcount, fun i hi => ?_, fun i comment => ?_, fun i => ?_, ?_, fun i hi => ?_,
    hothers⟩, fun i hi => ?_, hconsistent⟩
  · rw [optimize, hrun₁]
    exact hrun₂
  · refine getAuthor_of_forall₂ h.authors hconsistent.authors h.size hconsistent.size ?_ hi
    rw [hauthors₂, hpool₂]
    exact hall
  · rw [(columns_of_untouched hothers).1]
  · rw [getTimeStamp, (columns_of_untouched hothers).2.1, getTimeStamp]
  · exact (columns_of_untouched hothers).2.2
  · obtain ⟨rev, -, hc, hc₂⟩ := hread i hi
    exact ⟨_, _, hc, hc₂, (hsort rev).1⟩
  · obtain ⟨rev, -, -, hc₂⟩ := hread i (hcount ▸ hi)
    exact ⟨_, hc₂, hsort.not_below hholds.built.tree rev⟩

/-- Whatever was called, the container is consistent, as long as its authors can be counted. -/
theorem Reached.consistent (h : Reached delimiter dateOf c) (hsize : c.authorPool.size ≤ noIndex) :
    c.Consistent := ⟨h.tracks, h.authors, hsize⟩

/-- The log of a container with one change. -/
theorem optimize_keeps_log_oneChange : ∃ c c' : CRevisionInfoContainer, oneChange = .ok c ∧
    c.optimize (fun xs => xs.mergeSort fun x y => !y.lt x) = .ok c' ∧ c.SameLog c' := by
  have hrun : (oneChange.map fun c => decide (c.authorPool.size ≤ noIndex)) = .ok true := by
    decide +kernel
  obtain ⟨c, hc, hsize⟩ := map_eq_ok.mp hrun
  obtain ⟨⟨c₁, i₁⟩, hc₁, hc'⟩ := bind_eq_ok.mp hc
  have hreached : Reached _ (fun _ => 0) c := (Reached.init.insert hc₁).addChange hc'
  obtain ⟨c', hopt, hlog, -⟩ := optimize_keeps_log
    (hreached.consistent (of_decide_eq_true hsize)) isSort_mergeSort
  exact ⟨c, c', hc, hopt, hlog⟩

end Log

end CRevisionInfoContainer

end TortoiseSvn.LogCache
