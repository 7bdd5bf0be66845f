import TortoiseSvn.Lib.Neighbours
import TortoiseSvn.Svn.PathEquivalence

/-!
# Removing children and duplicates

`RemoveChildren` and `RemoveDuplicates` sort a list of paths without regard to case and remove what
`std::unique` finds next to an ancestor or an equivalent path. A character that sorts below the
separator gets between a path and its children, and a path in another case gets between duplicates.

Main results: `removeChildren_iff`, `removeDuplicates_iff`.
-/

namespace TortoiseSvn.Svn

open Lib.Neighbours

namespace CTSVNPath

/-! ### Ancestors -/

section Ancestors

variable {P Q R : List ℕ}

theorem le_of_starts (h : P <+: Q) : P ≤ Q := by
  obtain ⟨rest, rfl⟩ := h
  exact not_lt.mp fun hlt => List.le_append_left hlt

theorem Above.starts (h : Above P Q) : P <+: Q := by
  rcases h with rfl | h | h
  · exact List.prefix_refl P
  · exact (List.prefix_append _ _).trans h
  · exact h.2

theorem Above.trans (h : Above P Q) (h' : Above Q R) : Above P R := by
  rcases h with rfl | h | h
  · exact h'
  · exact .inr (.inl (h.trans h'.starts))
  · exact .inr (.inr ⟨h.1, h.2.trans h'.starts⟩)

/-- What stands between a text and one that it begins, it begins too. -/
theorem starts_of_between (h : P <+: R) (hPQ : P ≤ Q) (hQR : Q ≤ R) : P <+: Q := by
  induction P generalizing Q R with
  | nil => exact List.nil_prefix
  | cons a P ih =>
    obtain ⟨rest, rfl⟩ := h
    cases Q with
    | nil => exact absurd (List.nil_lt_cons a P) hPQ.not_gt
    | cons b Q =>
      rw [← not_lt, List.cons_lt_cons_iff, not_or] at hPQ
      rw [List.cons_append, ← not_lt, List.cons_lt_cons_iff, not_or] at hQR
      obtain rfl := le_antisymm (not_lt.mp hPQ.1) (not_lt.mp hQR.1)
      have hle := not_lt.mp fun hlt => hPQ.2 ⟨rfl, hlt⟩
      have hle' := not_lt.mp fun hlt => hQR.2 ⟨rfl, hlt⟩
      exact List.cons_prefix_cons.mpr ⟨rfl, ih (List.prefix_append _ _) hle hle'⟩

/-- The first different character decides. -/
theorem lt_of_continued {c d : ℕ} (hcd : c < d) (hQ : P ++ [c] <+: Q) (hR : P ++ [d] <+: R) :
    Q < R := by
  obtain ⟨x, rfl⟩ := hQ
  obtain ⟨y, rfl⟩ := hR
  rw [List.append_assoc, List.append_assoc]
  exact List.append_left_lt (List.cons_lt_cons_iff.mpr (.inl hcd))

/-- Of two ancestors of a path, the smaller one is an ancestor of the other one. -/
theorem Above.first (h : Above P R) (h' : Above Q R) (hle : P ≤ Q) : Above P Q := by
  rcases List.prefix_or_prefix_of_prefix h.starts h'.starts with hpre | hpre
  · by_cases heq : P = Q
    · exact .inl heq
    · have hlen : P.length < Q.length :=
        lt_of_le_of_ne hpre.length_le fun hlen => heq (hpre.eq_of_length hlen)
      rcases h with rfl | h | h
      · exact absurd h'.starts.length_le (by omega)
      · refine .inr (.inl (List.prefix_of_prefix_length_le h h'.starts ?_))
        rw [List.length_append, List.length_singleton]
        exact hlen
      · exact .inr (.inr ⟨h.1, hpre⟩)
  · exact .inl (le_antisymm hle (le_of_starts hpre))

end Ancestors

end CTSVNPath

namespace CTSVNPathList

open CTSVNPath

/-! ### The code -/

/-- `std::unique` followed by `erase`. -/
def unique (pred : CTSVNPath → CTSVNPath → Bool) (m_paths : List CTSVNPath) : List CTSVNPath :=
  m_paths.destutter fun p q => ¬ pred p q

/-- What the list may be afterwards.
Source: `TSVNPath.cpp` `CTSVNPathList::RemoveChildren`, `CTSVNPath::CheckChild` -/
def RemoveChildren (m : CaseMap) (m_paths result : List CTSVNPath) : Prop :=
  ∃ sorted, SortByPathname m m_paths sorted ∧ result = unique (IsAncestorOf m) sorted

/-- What the list may be afterwards.
Source: `TSVNPath.cpp` `CTSVNPathList::RemoveDuplicates`, `CTSVNPath::PredLeftEquivalentToRight` -/
def RemoveDuplicates (m : CaseMap) (m_paths result : List CTSVNPath) : Prop :=
  ∃ sorted, SortByPathname m m_paths sorted ∧ result = unique IsEquivalentTo sorted

theorem unique_subset {pred : CTSVNPath → CTSVNPath → Bool} {m_paths : List CTSVNPath} :
    unique pred m_paths ⊆ m_paths :=
  (List.destutter_sublist _ _).subset

/-! ### Sorted lists -/

section Sorted

variable {m : CaseMap} {paths sorted : List CTSVNPath} {p q : CTSVNPath}

/-- The text of a path in lower case. -/
def pathKey (m : CaseMap) (p : CTSVNPath) : List ℕ := m.key p.GetWinPathString

/-- The texts are those of the list before. -/
theorem sorted_texts (h : SortByPathname m paths sorted) :
    (sorted.map GetWinPathString).Perm (paths.map GetWinPathString) := by
  refine (h.1.map GetWinPathString).trans ?_
  split_ifs
  · exact .refl _
  · rw [List.map_map]
    exact .of_eq (List.map_congr_left fun p _ => p.getWinPathString_ensure)

theorem mem_of_sorted (h : SortByPathname m paths sorted) (hp : p ∈ sorted) :
    ∃ q ∈ paths, p = q ∨ p = q.EnsureBackslashPathSet := by
  have hmem := h.1.mem_iff.mp hp
  split_ifs at hmem
  · exact ⟨p, hmem, .inl rfl⟩
  · obtain ⟨q, hq, rfl⟩ := List.mem_map.mp hmem
    exact ⟨q, hq, .inr rfl⟩

theorem exists_sorted (h : SortByPathname m paths sorted) (hp : p ∈ paths) :
    ∃ q ∈ sorted, q.GetWinPathString = p.GetWinPathString :=
  List.mem_map.mp ((sorted_texts h).mem_iff.mpr (List.mem_map_of_mem hp))

/-- No text is sorted behind a larger one. -/
theorem sorted_keys (hnul : ∀ p ∈ paths, 0 ∉ p.GetWinPathString)
    (h : SortByPathname m paths sorted) :
    sorted.Pairwise fun p q => pathKey m p ≤ pathKey m q := by
  have hnul' : ∀ p ∈ sorted, 0 ∉ p.GetWinPathString := by
    intro p hp
    obtain ⟨q, hq, hpq⟩ := List.mem_map.mp
      ((sorted_texts h).mem_iff.mp (List.mem_map_of_mem (f := GetWinPathString) hp))
    exact hpq ▸ hnul q hq
  refine h.2.imp_of_mem fun hp hq hless => ?_
  rw [less_iff (hnul' _ hq) (hnul' _ hp)] at hless
  exact not_lt.mp hless

end Sorted

/-! ### Children -/

theorem isAncestorOf_key {m : CaseMap} {p q : CTSVNPath} :
    IsAncestorOf m p q = true ↔ Above (pathKey m p) (pathKey m q) :=
  isAncestorOf_iff

/-- The paths are nested in the order in which they are sorted. -/
theorem nested (m : CaseMap) :
    Nested (pathKey m) fun p q => IsAncestorOf m p q = true where
  of_key_eq h := isAncestorOf_key.mpr (.inl h)
  key_le h := le_of_starts (isAncestorOf_key.mp h).starts
  trans h h' := isAncestorOf_key.mpr ((isAncestorOf_key.mp h).trans (isAncestorOf_key.mp h'))
  first h h' hle :=
    isAncestorOf_key.mpr ((isAncestorOf_key.mp h).first (isAncestorOf_key.mp h') hle)

/-- A text without ancestors in the list, other than a drive root, is continued by a separator in
one text and by a character below the separator in another one. -/
def Crossed (keys : List (List ℕ)) : Prop :=
  ∃ P ∈ keys, ∃ Q ∈ keys, ∃ R ∈ keys, (∀ A ∈ keys, Above A P → Above P A) ∧
    ¬ (P.length = 3 ∧ P[1]? = some 0x3a) ∧ (∃ c < 0x5c, P ++ [c] <+: Q) ∧ P ++ [0x5c] <+: R

theorem Crossed.perm {keys keys' : List (List ℕ)} (hperm : keys.Perm keys') (h : Crossed keys) :
    Crossed keys' := by
  obtain ⟨P, hP, Q, hQ, R, hR, htop, hrest⟩ := h
  exact ⟨P, hperm.mem_iff.mp hP, Q, hperm.mem_iff.mp hQ, R, hperm.mem_iff.mp hR,
    fun A hA => htop A (hperm.mem_iff.mpr hA), hrest⟩

/-- What is separated from an ancestor is separated by a character below the separator. -/
theorem separated_iff (m : CaseMap) (l : List CTSVNPath) :
    Nested.Separated (pathKey m) (fun p q => IsAncestorOf m p q = true) l ↔
      Crossed (l.map (pathKey m)) := by
  have hmem : ∀ p ∈ l, pathKey m p ∈ l.map (pathKey m) := fun p => List.mem_map_of_mem
  constructor
  · rintro ⟨p, hp, q, hq, r, hr, htop, hpq, hqr, hpr, hnot⟩
    replace hpr := isAncestorOf_key.mp hpr
    replace hnot := mt isAncestorOf_key.mpr hnot
    have hstarts := starts_of_between hpr.starts hpq.le hqr.le
    obtain ⟨x, hx⟩ := hstarts
    obtain ⟨c, x, rfl⟩ : ∃ c x', x = c :: x' := List.exists_cons_of_ne_nil fun hnil => by
      rw [hnil, List.append_nil] at hx
      exact absurd hpq (hx ▸ lt_irrefl _)
    have hc : pathKey m p ++ [c] <+: pathKey m q := ⟨x, by rw [← hx]; simp⟩
    have hsep : pathKey m p ++ [0x5c] <+: pathKey m r := by
      rcases hpr with heq | hsep | hdrive
      · exact absurd (hpq.trans hqr) (heq ▸ lt_irrefl _)
      · exact hsep
      · exact absurd (.inr (.inr ⟨hdrive.1, ⟨_, hx⟩⟩)) hnot
    refine ⟨_, hmem p hp, _, hmem q hq, _, hmem r hr, fun A hA hAP => ?_,
      fun hdrive => hnot (.inr (.inr ⟨hdrive, ⟨_, hx⟩⟩)), ⟨c, ?_, hc⟩, hsep⟩
    · obtain ⟨a, ha, rfl⟩ := List.mem_map.mp hA
      exact isAncestorOf_key.mp (htop a ha (isAncestorOf_key.mpr hAP))
    · rcases lt_trichotomy c 0x5c with hlt | rfl | hgt
      · exact hlt
      · exact absurd (.inr (.inl hc)) hnot
      · exact absurd (lt_of_continued hgt hsep hc) hqr.not_gt
  · rintro ⟨P, hP, Q, hQ, R, hR, htop, hdrive, ⟨c, hc, hcQ⟩, hsep⟩
    obtain ⟨p, hp, rfl⟩ := List.mem_map.mp hP
    obtain ⟨q, hq, rfl⟩ := List.mem_map.mp hQ
    obtain ⟨r, hr, rfl⟩ := List.mem_map.mp hR
    refine ⟨p, hp, q, hq, r, hr, fun a ha hap => ?_, ?_, lt_of_continued hc hcQ hsep,
      isAncestorOf_key.mpr (.inr (.inl hsep)), ?_⟩
    · exact isAncestorOf_key.mpr (htop _ (hmem a ha) (isAncestorOf_key.mp hap))
    · refine lt_of_le_of_ne (le_of_starts ((List.prefix_append _ _).trans hcQ)) fun heq => ?_
      exact absurd hcQ.length_le (by rw [← heq]; simp)
    · refine fun hpq => ?_
      rcases isAncestorOf_key.mp hpq with heq | hsep' | hdrive'
      · exact absurd hcQ.length_le (by
          rw [heq]
          simp)
      · have hsame := List.prefix_of_prefix_length_le hcQ hsep' (by simp)
        have heq := hsame.eq_of_length (by simp)
        have hlast : c = 0x5c := by simpa using heq
        exact absurd hc (hlast ▸ lt_irrefl _)
      · exact hdrive hdrive'.1

/-- No path is an ancestor of another one, all paths were in the list, and what is missing has an
ancestor that is left. -/
structure ChildrenRemoved (m : CaseMap) (paths result : List CTSVNPath) : Prop where
  apart : result.Pairwise fun p q => ¬ IsAncestorOf m p q ∧ ¬ IsAncestorOf m q p
  kept : ∀ p ∈ result, ∃ q ∈ paths, p = q ∨ p = q.EnsureBackslashPathSet
  covered : ∀ p ∈ paths, ∃ q ∈ result, IsAncestorOf m q p

/-- **The children are removed iff no path is continued by a separator and by a character below the
separator.** -/
theorem removeChildren_iff {m : CaseMap} {paths result : List CTSVNPath}
    (hnul : ∀ p ∈ paths, 0 ∉ p.GetWinPathString) (h : RemoveChildren m paths result) :
    ChildrenRemoved m paths result ↔ ¬ Crossed (paths.map (pathKey m)) := by
  obtain ⟨sorted, hsort, rfl⟩ := h
  have hkeys := sorted_keys hnul hsort
  have hperm : (sorted.map (pathKey m)).Perm (paths.map (pathKey m)) := by
    have htexts := (sorted_texts hsort).map m.key
    rwa [List.map_map, List.map_map] at htexts
  have hcrossed : Crossed (sorted.map (pathKey m)) ↔ Crossed (paths.map (pathKey m)) :=
    ⟨Crossed.perm hperm, Crossed.perm hperm.symm⟩
  rw [← hcrossed, ← separated_iff, ← (nested m).pairwise_iff hkeys]
  refine ⟨fun h => h.apart, fun hpair => ⟨hpair, fun p hp => ?_, fun p hp => ?_⟩⟩
  · exact mem_of_sorted hsort (unique_subset hp)
  · obtain ⟨q, hq, hqp⟩ := exists_sorted hsort hp
    obtain ⟨y, hy, hyq, -⟩ := (nested m).exists_kept hkeys hq
    refine ⟨y, hy, ?_⟩
    rw [isAncestorOf_key] at hyq ⊢
    rwa [pathKey, pathKey, ← hqp]

/-- `c:\a` and `c:\a\x` -/
theorem removeChildren_iff_child :
    ChildrenRemoved .minimal [⟨[99, 58, 92, 97], []⟩, ⟨[99, 58, 92, 97, 92, 120], []⟩]
        [⟨[99, 58, 92, 97], []⟩] ↔
      ¬ Crossed ([⟨[99, 58, 92, 97], []⟩, ⟨[99, 58, 92, 97, 92, 120], []⟩].map
        (pathKey .minimal)) :=
  removeChildren_iff (by decide)
    ⟨[⟨[99, 58, 92, 97], []⟩, ⟨[99, 58, 92, 97, 92, 120], []⟩], ⟨.refl _, by decide⟩, rfl⟩

/-- The path `c:\a b` stands between `c:\a` and `c:\a\x`. -/
theorem not_childrenRemoved : ¬ ∀ (m : CaseMap) (paths result : List CTSVNPath),
    (∀ p ∈ paths, ∃ w, Spells p w) → RemoveChildren m paths result →
      ChildrenRemoved m paths result := by
  intro h
  have hbroken := h .minimal
    [⟨[99, 58, 92, 97], []⟩, ⟨[99, 58, 92, 97, 32, 98], []⟩, ⟨[99, 58, 92, 97, 92, 120], []⟩]
    [⟨[99, 58, 92, 97], []⟩, ⟨[99, 58, 92, 97, 32, 98], []⟩, ⟨[99, 58, 92, 97, 92, 120], []⟩]
    (by
      simp only [List.forall_mem_cons]
      refine ⟨⟨_, spells_back (normalised_of_ending ?_ ?_ ?_ ?_ ?_ ?_) ?_⟩,
        ⟨_, spells_back (normalised_of_ending ?_ ?_ ?_ ?_ ?_ ?_) ?_⟩,
        ⟨_, spells_back (normalised_of_ending ?_ ?_ ?_ ?_ ?_ ?_) ?_⟩, nofun⟩ <;> decide)
    ⟨_, ⟨.refl _, by decide⟩, rfl⟩
  exact absurd hbroken.apart (by decide)

/-! ### Duplicates -/

/-- No two paths are equivalent, and the same paths are equivalent to some path of the list. -/
structure DuplicatesRemoved (paths result : List CTSVNPath) : Prop where
  apart : result.Pairwise fun p q => ¬ IsEquivalentTo p q ∧ ¬ IsEquivalentTo q p
  same : ∀ x w, Spells x w →
    ((∃ p ∈ result, IsEquivalentTo x p) ↔ ∃ p ∈ paths, IsEquivalentTo x p)

section Duplicates

variable {m : CaseMap} {paths sorted : List CTSVNPath}

/-- The texts of the paths that are left. -/
theorem unique_texts (h : ∀ p ∈ sorted, ∃ w, Spells p w) :
    (unique IsEquivalentTo sorted).map GetWinPathString =
      (sorted.map GetWinPathString).destutter (· ≠ ·) := by
  refine List.map_destutter fun p hp q hq => not_congr ?_
  obtain ⟨w, hw⟩ := h p hp
  obtain ⟨v, hv⟩ := h q hq
  rw [isEquivalentTo_of_spells hw hv, hw.win, hv.win]

theorem spells_of_sorted (h : ∀ p ∈ paths, ∃ w, Spells p w) (hsort : SortByPathname m paths sorted) :
    ∀ p ∈ sorted, ∃ w, Spells p w := by
  intro p hp
  obtain ⟨q, hq, rfl | rfl⟩ := mem_of_sorted hsort hp
  · exact h p hq
  · obtain ⟨w, hw⟩ := h q hq
    exact ⟨w, hw.ensure⟩

/-- A path is equivalent to a path of a list iff its text is there. -/
theorem exists_equivalent_iff {l : List CTSVNPath} (h : ∀ p ∈ l, ∃ w, Spells p w) {x : CTSVNPath}
    {w : List UInt16} (hx : Spells x w) :
    (∃ p ∈ l, IsEquivalentTo x p) ↔ w ∈ l.map GetWinPathString := by
  rw [List.mem_map]
  refine exists_congr fun p => and_congr_right fun hp => ?_
  obtain ⟨v, hv⟩ := h p hp
  rw [isEquivalentTo_of_spells hx hv, hv.win]
  exact eq_comm

theorem pairwise_equivalent_iff {l : List CTSVNPath} (h : ∀ p ∈ l, ∃ w, Spells p w) :
    (l.Pairwise fun p q => ¬ IsEquivalentTo p q ∧ ¬ IsEquivalentTo q p) ↔
      (l.map GetWinPathString).Nodup := by
  rw [List.Nodup, List.pairwise_map]
  refine List.Pairwise.iff_of_mem fun {p q} hp hq => ?_
  obtain ⟨w, hw⟩ := h p hp
  obtain ⟨v, hv⟩ := h q hq
  rw [isEquivalentTo_of_spells hw hv, isEquivalentTo_of_spells hv hw, hw.win, hv.win]
  exact ⟨fun h => h.1, fun h => ⟨h, h.symm⟩⟩

/-- Every way to sort the texts comes from a way to sort the paths. -/
theorem exists_sorted_paths (hnul : ∀ p ∈ paths, 0 ∉ p.GetWinPathString) {s : List (List UInt16)}
    (hperm : s.Perm (paths.map GetWinPathString)) (hs : s.Pairwise fun v w => m.key v ≤ m.key w) :
    ∃ sorted, SortByPathname m paths sorted ∧ s = sorted.map GetWinPathString := by
  have htexts : (if paths.length < 2 then paths else paths.map EnsureBackslashPathSet).map
      GetWinPathString = paths.map GetWinPathString := by
    split_ifs
    · rfl
    · rw [List.map_map]
      exact List.map_congr_left fun p _ => p.getWinPathString_ensure
  have hcomp := congrFun (congrFun (List.eq_map_comp_perm GetWinPathString) s)
    (if paths.length < 2 then paths else paths.map EnsureBackslashPathSet)
  obtain ⟨sorted, rfl, hsorted⟩ := hcomp.mpr (htexts ▸ hperm)
  refine ⟨sorted, ⟨hsorted, ?_⟩, rfl⟩
  have hnul' : ∀ p ∈ sorted, 0 ∉ p.GetWinPathString := by
    intro p hp
    obtain ⟨q, hq, hqp⟩ := List.mem_map.mp (hperm.mem_iff.mp (List.mem_map_of_mem hp))
    exact hqp ▸ hnul q hq
  refine (List.pairwise_map.mp hs).imp_of_mem fun hp hq hle => ?_
  rw [less_iff (hnul' _ hq) (hnul' _ hp)]
  exact not_lt.mpr hle

end Duplicates

/-- **However the list is sorted, the duplicates are removed, iff no path that stands there twice
stands there in another case.** -/
theorem removeDuplicates_iff {m : CaseMap} {paths : List CTSVNPath}
    (h : ∀ p ∈ paths, ∃ w, Spells p w) :
    (∀ result, RemoveDuplicates m paths result → DuplicatesRemoved paths result) ↔
      ∀ w, (paths.map GetWinPathString).Duplicate w → ∀ v ∈ paths.map GetWinPathString,
        m.key v = m.key w → v = w := by
  have hnul : ∀ p ∈ paths, 0 ∉ p.GetWinPathString := by
    intro p hp
    obtain ⟨w, hw⟩ := h p hp
    rw [hw.win]
    exact hw.normalised.noNul
  rw [← nodup_destutter_iff m.key]
  constructor
  · intro hall s hperm hs
    obtain ⟨sorted, hsort, rfl⟩ := exists_sorted_paths hnul hperm hs
    have hspells := spells_of_sorted h hsort
    rw [← unique_texts hspells, ← pairwise_equivalent_iff fun p hp => hspells p (unique_subset hp)]
    exact (hall _ ⟨sorted, hsort, rfl⟩).apart
  · rintro hnodup - ⟨sorted, hsort, rfl⟩
    have hspells := spells_of_sorted h hsort
    have hresult : ∀ p ∈ unique IsEquivalentTo sorted, ∃ w, Spells p w := fun p hp =>
      hspells p (unique_subset hp)
    refine ⟨?_, fun x w hx => ?_⟩
    · rw [pairwise_equivalent_iff hresult, unique_texts hspells]
      exact hnodup _ (sorted_texts hsort) (List.pairwise_map.mpr (sorted_keys hnul hsort))
    · rw [exists_equivalent_iff hresult hx, exists_equivalent_iff h hx, unique_texts hspells,
        mem_destutter_ne, (sorted_texts hsort).mem_iff]

/-- The paths `c:\a`, `c:\b` and `c:\a`. -/
theorem removeDuplicates_iff_three :
    (∀ result, RemoveDuplicates .minimal [⟨[99, 58, 92, 97], []⟩, ⟨[99, 58, 92, 98], []⟩,
      ⟨[99, 58, 92, 97], []⟩] result → DuplicatesRemoved [⟨[99, 58, 92, 97], []⟩,
        ⟨[99, 58, 92, 98], []⟩, ⟨[99, 58, 92, 97], []⟩] result) ↔
      ∀ w, ([⟨[99, 58, 92, 97], []⟩, ⟨[99, 58, 92, 98], []⟩, ⟨[99, 58, 92, 97], []⟩].map
        GetWinPathString).Duplicate w → ∀ v ∈ [⟨[99, 58, 92, 97], []⟩, ⟨[99, 58, 92, 98], []⟩,
          ⟨[99, 58, 92, 97], []⟩].map GetWinPathString,
        CaseMap.minimal.key v = CaseMap.minimal.key w → v = w :=
  removeDuplicates_iff (by
    simp only [List.forall_mem_cons]
    refine ⟨⟨_, spells_back (normalised_of_ending ?_ ?_ ?_ ?_ ?_ ?_) ?_⟩,
      ⟨_, spells_back (normalised_of_ending ?_ ?_ ?_ ?_ ?_ ?_) ?_⟩,
      ⟨_, spells_back (normalised_of_ending ?_ ?_ ?_ ?_ ?_ ?_) ?_⟩, nofun⟩ <;> decide)

/-- The path `c:\A` stands between two paths `c:\a`. -/
theorem not_duplicatesRemoved : ¬ ∀ (m : CaseMap) (paths result : List CTSVNPath),
    (∀ p ∈ paths, ∃ w, Spells p w) → RemoveDuplicates m paths result →
      DuplicatesRemoved paths result := by
  intro h
  have hbroken := h .minimal
    [⟨[99, 58, 92, 97], []⟩, ⟨[99, 58, 92, 65], []⟩, ⟨[99, 58, 92, 97], []⟩]
    [⟨[99, 58, 92, 97], []⟩, ⟨[99, 58, 92, 65], []⟩, ⟨[99, 58, 92, 97], []⟩]
    (by
      simp only [List.forall_mem_cons]
      refine ⟨⟨_, spells_back (normalised_of_ending ?_ ?_ ?_ ?_ ?_ ?_) ?_⟩,
        ⟨_, spells_back (normalised_of_ending ?_ ?_ ?_ ?_ ?_ ?_) ?_⟩,
        ⟨_, spells_back (normalised_of_ending ?_ ?_ ?_ ?_ ?_ ?_) ?_⟩, nofun⟩ <;> decide)
    ⟨_, ⟨.refl _, by decide⟩, rfl⟩
  exact absurd hbroken.apart (by decide)

end CTSVNPathList

end TortoiseSvn.Svn
