import TortoiseSvn.Access.LogIteratorBase

/-!
# Paths that are partly in the dictionary

A `CDictionaryBasedTempPath` is a cached path, its base, and the elements that follow it. When the
base is as long as the dictionary allows, the path has one representation only, and the indices of the
bases tell much about the order of the paths.

`GetCommonRoot` compares the elements behind a base with themselves: for two paths with the same base,
the result is the left one.
-/

namespace TortoiseSvn.LogCache

open TortoiseSvn.Lib

/-- The parent of a cached path has all of its names but the last one. -/
theorem CPathDictionary.Named.parent {d : CPathDictionary} {i : ℕ} {ns : List (List UInt8)}
    (h : d.Named i ns) (hne : ns ≠ []) : ∃ (j : ℕ) (js : List (List UInt8)) (element : List UInt8),
      0 < i ∧ d.getParent (i : Index) = .ok (j : Index) ∧ d.Named j js ∧ ns = js ++ [element] := by
  cases h with
  | root => exact absurd rfl hne
  | child hpos hp hj =>
    refine ⟨_, _, _, hpos, ?_, hj, rfl⟩
    rw [getParent, entry_coe hp]
    rfl

namespace CDictionaryBasedTempPath

/-! ### Common roots -/

/-- The elements that two lists begin with. -/
def matching : List (List UInt8) → List (List UInt8) → List (List UInt8)
  | a :: as, b :: bs => if a = b then a :: matching as bs else []
  | _, _ => []

/-- The common root of two paths. Both iterators of the loop run through the elements of `lhs`.
Source: `DictionaryBasedTempPath.cpp` `CDictionaryBasedTempPath::GetCommonRoot` -/
def getCommonRoot (d : CPathDictionary) (lhs rhs : CDictionaryBasedTempPath) :
    Except Fault CDictionaryBasedTempPath :=
  if rhs.index ≠ lhs.index then (d.commonRoot lhs.index rhs.index).map fun root => ⟨root, []⟩
  else .ok ⟨lhs.index, matching lhs.relPathElements lhs.relPathElements⟩

theorem matching_self (l : List (List UInt8)) : matching l l = l := by
  induction l with
  | nil => rfl
  | cons a l ih => rw [matching, if_pos rfl, ih]

/-- The index of the path that is the parent level of a path in the dictionary.
Source: `SearchPathTree.cpp` `CSearchPathTree::Link`, `parentPathID` -/
def parentPathID (d : CPathDictionary) (path : CDictionaryBasedTempPath) : Except Fault Index :=
  if path.isFullyCachedPath then d.getParent path.index else .ok path.index

/-! ### Names -/

/-- A path with the names `ns`, the base of which is as long as the dictionary allows. -/
structure Denotes (d : CPathDictionary) (path : CDictionaryBasedTempPath) (i : ℕ)
    (base ns : List (List UInt8)) : Prop where
  index : path.index = (i : Index)
  named : d.Named i base
  names : ns = base ++ path.relPathElements
  maximal : ∀ s rest, path.relPathElements = s :: rest → ∀ j, ¬ d.Named j (base ++ [s])

section Names

variable {d : CPathDictionary} {path path' : CDictionaryBasedTempPath} {i j k : ℕ}
  {base base' ns ms ks : List (List UInt8)}

theorem denotes_cached (hi : d.Named i ns) : Denotes d ⟨(i : Index), []⟩ i ns ns :=
  ⟨rfl, hi, (List.append_nil ns).symm, nofun⟩

theorem Denotes.base_prefix (h : Denotes d path i base ns) : base <+: ns :=
  ⟨path.relPathElements, h.names.symm⟩

/-- What is cached of a path is in its base. -/
theorem Denotes.prefix_base (h : Denotes d path i base ns) (hk : d.Named k ks) (hpre : ks <+: ns) :
    ks <+: base := by
  rcases List.prefix_or_prefix_of_prefix hpre h.base_prefix with hle | ⟨rest, rfl⟩
  · exact hle
  · cases rest with
    | nil => rw [List.append_nil]
    | cons s rest =>
      rw [h.names, List.prefix_append_right_inj] at hpre
      obtain ⟨tail, htail⟩ := hpre
      have hpre' : base ++ [s] <+: base ++ s :: rest := ⟨rest, by simp⟩
      obtain ⟨j, hj⟩ := hk.of_prefix hpre'
      exact absurd hj (h.maximal s (rest ++ tail) htail.symm j)

theorem Denotes.isFullyCachedPath_iff (h : Denotes d path i base ns) :
    path.isFullyCachedPath = true ↔ base = ns := by
  rw [isFullyCachedPath, List.isEmpty_iff, h.names]
  exact List.self_eq_append_right.symm

/-- A path has one representation. -/
theorem Denotes.unique (h : Denotes d path i base ns) (h' : Denotes d path' j base' ns)
    (hd : d.Built) : path = path' ∧ i = j ∧ base = base' := by
  have hle := h'.prefix_base h.named h.base_prefix
  have hle' := h.prefix_base h'.named h'.base_prefix
  obtain rfl := hle.eq_of_length_le hle'.length_le
  obtain rfl := hd.named_inj h.named h'.named
  have hrel := List.append_cancel_left (h.names.symm.trans h'.names)
  have hindex := h.index.trans h'.index.symm
  cases path
  cases path'
  exact ⟨by rw [mk.injEq]; exact ⟨hindex, hrel⟩, rfl, rfl⟩

theorem Denotes.names_unique (h : Denotes d path i base ns) (h' : Denotes d path j base' ms) :
    ns = ms := by
  obtain rfl := Nat.cast_injective (R := Index) (h.index.symm.trans h'.index)
  rw [h.names, h'.names, h.named.unique h'.named]

/-- Below a path that is not fully cached, all paths have its base. -/
theorem Denotes.same_base (h : Denotes d path i base ns) (h' : Denotes d path' j base' ms)
    (hd : d.Built) (hpre : ns <+: ms) (hrel : path.relPathElements ≠ []) : i = j := by
  obtain ⟨s, rest, hs⟩ := List.exists_cons_of_ne_nil hrel
  obtain ⟨tail, htail⟩ := h'.prefix_base h.named (h.base_prefix.trans hpre)
  cases tail with
  | nil =>
    rw [List.append_nil] at htail
    exact hd.named_inj h.named (htail ▸ h'.named)
  | cons t tail =>
    -- the base of the lower path would contain the first element that is not cached
    have hpre' : base ++ path.relPathElements <+: base ++ (t :: tail ++ path'.relPathElements) := by
      rw [← h.names, ← List.append_assoc, htail, ← h'.names]
      exact hpre
    rw [List.prefix_append_right_inj, hs, List.cons_append, List.cons_prefix_cons] at hpre'
    have hprefix : base ++ [s] <+: base' := ⟨tail, by
      rw [hpre'.1, ← htail]
      simp⟩
    obtain ⟨j', hj'⟩ := h'.named.of_prefix hprefix
    exact absurd hj' (h.maximal s rest hs j')

/-! ### Parent levels -/

/-- The parent level of a path is the deepest cached path that is strictly above it. -/
theorem Denotes.parentPathID (h : Denotes d path i base ns) (hd : d.Built) (hne : ns ≠ []) :
    ∃ (q : ℕ) (qs : List (List UInt8)), parentPathID d path = .ok (q : Index) ∧ d.Named q qs ∧ qs <+: ns ∧ qs ≠ ns ∧
      (∀ k ks, d.Named k ks → ks <+: ns → ks ≠ ns → ks <+: qs) ∧ q ≤ i ∧
      (path.relPathElements = [] → q < i) := by
  unfold CDictionaryBasedTempPath.parentPathID
  by_cases hfull : path.isFullyCachedPath
  · rw [if_pos hfull]
    obtain rfl := h.isFullyCachedPath_iff.mp hfull
    obtain ⟨j, js, element, hpos, hparent, hj, hns⟩ := h.named.parent hne
    obtain ⟨q, hq, hlt⟩ := hd.tree.getParent (h.named.lt_size hd) hpos
    obtain rfl := Nat.cast_injective (R := Index) (Except.ok.inj (hparent.symm.trans hq))
    refine ⟨j, js, by rw [h.index]; exact hparent, hj, ⟨[element], hns.symm⟩, by simp [hns], ?_,
      hlt.le, fun _ => hlt⟩
    intro k ks _ hpre hks
    rw [hns] at hpre hks
    exact (List.prefix_concat_iff.mp hpre).resolve_left hks
  · rw [if_neg hfull]
    refine ⟨i, base, by rw [h.index], h.named, h.base_prefix,
      fun heq => hfull (h.isFullyCachedPath_iff.mpr heq), fun k ks hk hpre _ => h.prefix_base hk hpre,
      le_rfl, fun hrel => absurd (by rw [isFullyCachedPath, hrel]; rfl) hfull⟩

/-- The parent level of a path is not above a path that is strictly above it: it is its base, or
below it, and then the path is cached. -/
theorem Denotes.parent_level (h : Denotes d path i base ns) (h' : Denotes d path' j base' ms)
    (hd : d.Built) (hpre : ns <+: ms) (hne : ns ≠ ms) {q : ℕ} {qs : List (List UInt8)}
    (hq : d.Named q qs) (hqm : qs <+: ms)
    (hmax : ∀ k ks, d.Named k ks → ks <+: ms → ks ≠ ms → ks <+: qs) :
    i = q ∨ i < q ∧ ns <+: qs ∧ ns ≠ qs := by
  have hbase : base ≠ ms := by
    rintro rfl
    exact hne (hpre.eq_of_length_le h.base_prefix.length_le)
  have hle := hmax i base h.named (h.base_prefix.trans hpre) hbase
  have habove := (hd.above_iff_prefix h.named hq).mpr hle
  rcases (hd.tree.le_of_above habove).eq_or_lt with heq | hlt
  · exact Or.inl heq
  · right
    have hrel : path.relPathElements = [] := by
      by_contra hrel
      have hcached : Denotes d ⟨(q : Index), []⟩ q qs qs := denotes_cached hq
      rcases List.prefix_or_prefix_of_prefix hpre hqm with hnq | hqn
      · exact hlt.ne (h.same_base hcached hd hnq hrel)
      · have hback := (hd.above_iff_prefix hq h.named).mpr (h.prefix_base hq hqn)
        exact absurd (hd.tree.le_of_above hback) (Nat.not_le.mpr hlt)
    have hnames : ns = base := by rw [h.names, hrel, List.append_nil]
    refine ⟨hlt, hnames ▸ hle, fun heq => ?_⟩
    rw [hnames] at heq
    exact hlt.ne (hd.named_inj h.named (heq ▸ hq))

/-! ### Overlaps -/

/-- Paths with the same base: the common root is the left one. -/
theorem getCommonRoot_of_same (hindex : path.index = path'.index) :
    getCommonRoot d path path' = .ok path := by
  rw [getCommonRoot, if_neg (by rw [hindex]; exact fun hne => hne rfl), matching_self]

/-- Two paths below a node, the first of them at the next level. When their bases differ and their
common root is not the path of the node, the first one is above the other one. -/
theorem Denotes.above_of_overlap {path'' : CDictionaryBasedTempPath} {c : ℕ}
    {base'' cs : List (List UInt8)} (h : Denotes d path i base ns)
    (hc : Denotes d path'' c base'' cs) (h' : Denotes d path' j base' ms) (hd : d.Built)
    (hnc : ns <+: cs) (hne : ns ≠ cs) (hnm : ns <+: ms)
    (hlevel : CDictionaryBasedTempPath.parentPathID d path'' = .ok (i : Index)) (hindex : c ≠ j) :
    ∃ root, getCommonRoot d path'' path' = .ok root ∧ (root ≠ path → cs <+: ms) := by
  obtain ⟨r, rs, hroot, hr, hrs⟩ := hd.commonRoot hc.named h'.named
  refine ⟨⟨(r : Index), []⟩, ?_, fun hne' => ?_⟩
  · rw [getCommonRoot, if_pos, hc.index, h'.index, hroot]
    · rfl
    · rw [hc.index, h'.index]
      exact fun heq => hindex (Nat.cast_injective (R := Index) heq).symm
  · have hcne : cs ≠ [] := by
      rintro rfl
      exact hne (List.prefix_nil.mp hnc)
    obtain ⟨q, qs, hq, hqn, -, -, hmax, -, -⟩ := hc.parentPathID hd hcne
    obtain rfl := Nat.cast_injective (R := Index) (Except.ok.inj (hlevel.symm.trans hq))
    by_cases hrel : path.relPathElements = []
    · have hns : ns = base := by rw [h.names, hrel, List.append_nil]
      obtain rfl := h.named.unique hqn
      have hbr : base <+: rs := (hrs base).mpr ⟨hc.prefix_base h.named (hns ▸ hnc),
        h'.prefix_base h.named (hns ▸ hnm)⟩
      obtain ⟨hrc, hrm⟩ := (hrs rs).mp (List.prefix_refl rs)
      have hrne : rs ≠ base := by
        rintro rfl
        apply hne'
        obtain rfl := hd.named_inj hr h.named
        exact ((denotes_cached hr).unique ⟨h.index, h.named, by rw [hrel, List.append_nil],
          h.maximal⟩ hd).1
      by_cases hrc' : rs = cs
      · exact hrc' ▸ hrm.trans h'.base_prefix
      · have hle := hmax r rs hr (hrc.trans hc.base_prefix) hrc'
        exact absurd (hle.eq_of_length_le hbr.length_le) hrne
    · exact absurd ((h.same_base hc hd hnc hrel).symm.trans (h.same_base h' hd hnm hrel)) hindex

end Names

end CDictionaryBasedTempPath

end TortoiseSvn.LogCache
