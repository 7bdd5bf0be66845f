import TortoiseSvn.LogCache.PathOrder
import TortoiseSvn.LogCache.SkipRevisionInfo

/-!
# Looking up skip ranges

`GetPreviousRevision` steps from a revision over the skip ranges of a path and of all its parents,
as long as any of them holds the revision it has got to.

Main result: `getPreviousRevision_spec`. In a tree, the lookup ends at the first revision below
that no range of the path or of a parent holds, and says `NO_REVISION` iff it did not move.
-/

namespace TortoiseSvn.LogCache

open TortoiseSvn.Lib

/-- The start of the range that holds a revision, less one. The range is the last one that
`upper_bound` leaves behind.
Source: `SkipRevisionInfo.cpp` `SPerPathRanges::FindPrevious` -/
def TRanges.findPrevious (ranges : TRanges) (revision : ℕ) : ℕ :=
  match (ranges.before (revision + 1)).getLast? with
  | none => noRevision
  | some (start, size) => if addU start size ≤ revision then noRevision else subU start 1

/-- Ranges of revisions: revision 0 is in none of them, each ends before the next one begins. -/
structure TRanges.Regular (ranges : TRanges) : Prop where
  gapped : TRanges.Gapped ranges.entries
  start_pos : ∀ e ∈ ranges.entries, 1 ≤ e.1
  stop_lt : ∀ e ∈ ranges.entries, e.1 + e.2 < 2 ^ 32

namespace CSkipRevisionInfo

/-- The ranges of a path. Source: `SkipRevisionInfo.cpp` `GetPreviousRevision`, the lookup -/
def rangesOf (c : CSkipRevisionInfo) (path : Index) : Option TRanges :=
  (c.data.find? fun p => decide ((p.pathID : Index) = path)).map SPerPathRanges.ranges

/-- "crawl this path data": the revision before the range of the path that holds `revision`.
Source: `SkipRevisionInfo.cpp` `CSkipRevisionInfo::GetPreviousRevision` -/
def ownPrevious (ranges : Option TRanges) (revision : ℕ) : ℕ :=
  match ranges with
  | none => revision
  | some ranges =>
    if ranges.findPrevious revision ≠ noRevision then ranges.findPrevious revision else revision

mutual

/-- The revision before the ranges of a path and its parents that hold `revision`, calls and rounds
being nested no deeper than `fuel`.
Source: `SkipRevisionInfo.cpp` `CSkipRevisionInfo::GetPreviousRevision` -/
def getPreviousRevision (d : CPathDictionary) (c : CSkipRevisionInfo) :
    ℕ → Index → ℕ → Option (Except Fault ℕ)
  | 0, _, _ => none
  | fuel + 1, path, revision =>
    if path = ⊤ ∨ revision = noRevision then some (.ok noRevision)
    else crawl d c fuel path revision revision

/-- The rounds of `GetPreviousRevision` from `result` on.
Source: `SkipRevisionInfo.cpp` `CSkipRevisionInfo::GetPreviousRevision`, the loop -/
def crawl (d : CPathDictionary) (c : CSkipRevisionInfo) :
    ℕ → Index → ℕ → ℕ → Option (Except Fault ℕ)
  | 0, _, _, _ => none
  | fuel + 1, path, startRevision, result =>
    match d.getParent path with
    | .error e => some (.error e)
    | .ok parent =>
      match getPreviousRevision d c fuel parent result with
      | none => none
      | some (.error e) => some (.error e)
      | some (.ok parentNext) =>
        let revision := if parentNext ≠ noRevision then parentNext else result
        let revision := ownPrevious (c.rangesOf path) revision
        if revision < result then crawl d c fuel path startRevision revision
        else some (.ok (if revision = startRevision then noRevision else result))

end

/-- `GetPreviousRevision` returns `result`.
Source: `SkipRevisionInfo.cpp` `CSkipRevisionInfo::GetPreviousRevision` -/
def GetPreviousRevision (d : CPathDictionary) (c : CSkipRevisionInfo) (path : Index)
    (revision result : ℕ) : Prop :=
  ∃ fuel, getPreviousRevision d c fuel path revision = some (.ok result)

/-! ### What the lookup is for -/

/-- The revisions in ranges of a path. -/
def held (ranges : Option TRanges) : Set ℕ :=
  {r | ∃ m, ranges = some m ∧ r ∈ TRanges.covered m.entries}

/-- The revisions in ranges of a path or of one of its parents. -/
def skipped (d : CPathDictionary) (c : CSkipRevisionInfo) (path : ℕ) : Set ℕ :=
  {r | ∃ a : ℕ, d.Above a path ∧ r ∈ held (c.rangesOf (a : Index))}

/-- `result` is the first revision below `revision` that is not in `s`, or `NO_REVISION` when
`revision` itself is not. -/
def PreviousGap (s : Set ℕ) (revision result : ℕ) : Prop :=
  (result = noRevision ∧ revision ∉ s) ∨
    (result < revision ∧ Set.Ioc result revision ⊆ s ∧ result ∉ s)

/-! ### One path -/

/-- The lookup in the ranges of one path. -/
theorem findPrevious_spec {m : TRanges} (h : m.Regular) (revision : ℕ) :
    (m.findPrevious revision = noRevision ∧ revision ∉ TRanges.covered m.entries) ∨
      (m.findPrevious revision < revision ∧ m.findPrevious revision ≠ noRevision ∧
        Set.Ioc (m.findPrevious revision) revision ⊆ TRanges.covered m.entries) := by
  have hsplit := m.before_append_onward (revision + 1)
  unfold TRanges.findPrevious
  rcases hlast : (m.before (revision + 1)).getLast? with _ | ⟨start, size⟩
  · -- every range begins behind the revision
    refine .inl ⟨rfl, ?_⟩
    rintro ⟨e, he, hle, -⟩
    rw [List.getLast?_eq_none_iff] at hlast
    rw [hlast, List.nil_append] at hsplit
    have := SortedMap.le_of_mem_onward (m := m) (k := revision + 1) (e := e) (hsplit ▸ he)
    omega
  · obtain ⟨front, hfront⟩ := List.getLast?_eq_some_iff.mp hlast
    rw [hfront, List.append_assoc] at hsplit
    have hmem : (start, size) ∈ m.entries := by
      rw [← hsplit]
      simp
    have hle : start < revision + 1 := SortedMap.lt_of_mem_before (m := m) (e := (start, size))
      (by rw [hfront]; simp)
    have hpos := h.start_pos _ hmem
    have hstop := h.stop_lt _ hmem
    dsimp only at hpos hstop ⊢
    rw [addU_of_lt hstop, subU_of_le hpos (by omega)]
    by_cases hgap : start + size ≤ revision
    · rw [if_pos hgap]
      refine .inl ⟨rfl, ?_⟩
      rintro ⟨e, he, hle', hlt⟩
      have hgapped := h.gapped
      rw [← hsplit] at he hgapped
      obtain ⟨-, -, hcross⟩ := List.pairwise_append.mp hgapped
      rcases List.mem_append.mp he with he | he
      · have := hcross e he (start, size) (by simp)
        dsimp only at this
        omega
      · rcases List.mem_append.mp he with he | he
        · obtain rfl := List.mem_singleton.mp he
          dsimp only at hlt
          omega
        · have := SortedMap.le_of_mem_onward he
          omega
    · rw [if_neg hgap]
      refine .inr ⟨by omega, by unfold noRevision; omega, fun x hx => ?_⟩
      exact ⟨_, hmem, by have := hx.1; dsimp only; omega, by have := hx.2; dsimp only; omega⟩

/-- A step over the range of one path. -/
theorem ownPrevious_spec {ranges : Option TRanges} (h : ∀ m, ranges = some m → m.Regular)
    (revision : ℕ) : ownPrevious ranges revision ≤ revision ∧
      Set.Ioc (ownPrevious ranges revision) revision ⊆ held ranges ∧
      (ownPrevious ranges revision = revision → revision ∉ held ranges) := by
  rcases ranges with _ | m
  · refine ⟨le_rfl, fun x hx => absurd (hx.1.trans_le hx.2) (lt_irrefl _), fun _ hmem => ?_⟩
    obtain ⟨m, hm, -⟩ := hmem
    cases hm
  · have hheld : held (some m) = TRanges.covered m.entries := by
      ext r
      exact ⟨fun ⟨n, hn, hr⟩ => Option.some.inj hn ▸ hr, fun hr => ⟨m, rfl, hr⟩⟩
    rw [hheld, ownPrevious]
    rcases findPrevious_spec (h m rfl) revision with ⟨hnone, hnot⟩ | ⟨hlt, hne, hsub⟩
    · rw [if_neg (not_not.mpr hnone)]
      exact ⟨le_rfl, fun x hx => absurd (hx.1.trans_le hx.2) (lt_irrefl _), fun _ => hnot⟩
    · rw [if_pos hne]
      exact ⟨hlt.le, hsub, fun he => absurd he hlt.ne⟩

/-! ### Fuel -/

theorem fuel_succ (d : CPathDictionary) (c : CSkipRevisionInfo) (n : ℕ) :
    (∀ path revision r, getPreviousRevision d c n path revision = some r →
      getPreviousRevision d c (n + 1) path revision = some r) ∧
    ∀ path start result r, crawl d c n path start result = some r →
      crawl d c (n + 1) path start result = some r := by
  induction n with
  | zero => exact ⟨fun _ _ _ h => by simp [getPreviousRevision] at h,
      fun _ _ _ _ h => by simp [crawl] at h⟩
  | succ n ih =>
    constructor
    · intro path revision r h
      rw [getPreviousRevision] at h ⊢
      split_ifs at h ⊢ with hno
      · exact h
      · exact ih.2 _ _ _ _ h
    · intro path start result r h
      rw [crawl] at h ⊢
      rcases hparent : d.getParent path with e | parent
      · simpa [hparent] using h
      · simp only [hparent] at h ⊢
        rcases hget : getPreviousRevision d c n parent result with _ | r'
        · simp [hget] at h
        · rw [hget] at h
          rw [ih.1 _ _ _ hget]
          rcases r' with e | parentNext
          · exact h
          · dsimp only at h ⊢
            generalize ownPrevious (c.rangesOf path) _ = revision at h ⊢
            by_cases hlt : revision < result
            · rw [if_pos hlt] at h ⊢
              exact ih.2 _ _ _ _ h
            · rwa [if_neg hlt] at h ⊢

theorem getPreviousRevision_mono {d : CPathDictionary} {c : CSkipRevisionInfo} {m n : ℕ}
    (hmn : m ≤ n) {path : Index} {revision : ℕ} {r : Except Fault ℕ}
    (h : getPreviousRevision d c m path revision = some r) :
    getPreviousRevision d c n path revision = some r := by
  induction hmn with
  | refl => exact h
  | step _ ih => exact (fuel_succ d c _).1 _ _ _ ih

theorem crawl_mono {d : CPathDictionary} {c : CSkipRevisionInfo} {m n : ℕ} (hmn : m ≤ n)
    {path : Index} {start result : ℕ} {r : Except Fault ℕ}
    (h : crawl d c m path start result = some r) : crawl d c n path start result = some r := by
  induction hmn with
  | refl => exact h
  | step _ ih => exact (fuel_succ d c _).2 _ _ _ _ ih

theorem GetPreviousRevision.unique {d : CPathDictionary} {c : CSkipRevisionInfo} {path : Index}
    {revision r r' : ℕ} (h : GetPreviousRevision d c path revision r)
    (h' : GetPreviousRevision d c path revision r') : r = r' := by
  obtain ⟨m, hm⟩ := h
  obtain ⟨n, hn⟩ := h'
  have hm' := getPreviousRevision_mono (le_max_left m n) hm
  rw [getPreviousRevision_mono (le_max_right m n) hn] at hm'
  exact (Except.ok.inj (Option.some.inj hm')).symm

/-! ### The lookup -/

section Lookup

variable {d : CPathDictionary} {c : CSkipRevisionInfo}

/-- The rounds of one call, when the calls for the parent path find gaps of `s`. -/
theorem crawl_spec {path parent : Index} (hparent : d.getParent path = .ok parent) {s : Set ℕ}
    (hs : ∀ revision < 2 ^ 32, ∃ r, GetPreviousRevision d c parent revision r ∧
      PreviousGap s revision r)
    (hown : ∀ m, c.rangesOf path = some m → m.Regular) {start result : ℕ} (hstart : start < 2 ^ 32)
    (hle : result ≤ start) (hmoved : Set.Ioc result start ⊆ s ∪ held (c.rangesOf path)) :
    ∃ fuel r, crawl d c fuel path start result = some (.ok r) ∧
      PreviousGap (s ∪ held (c.rangesOf path)) start r := by
  induction result using Nat.strong_induction_on with
  | _ result ih =>
    obtain ⟨next, ⟨m, hm⟩, hgap⟩ := hs result (by omega)
    -- what the parents leave
    let revision := if next ≠ noRevision then next else result
    have hparents : revision ≤ result ∧ Set.Ioc revision result ⊆ s ∧
        (revision = result → result ∉ s) := by
      rcases hgap with ⟨rfl, hnot⟩ | ⟨hlt, hsub, -⟩
      · simp only [revision, ne_eq, not_true_eq_false, if_false]
        exact ⟨le_rfl, fun x hx => absurd (hx.1.trans_le hx.2) (lt_irrefl _), fun _ => hnot⟩
      · have hne : next ≠ noRevision := by
          unfold noRevision
          omega
        simp only [revision, if_pos hne]
        exact ⟨hlt.le, hsub, fun he => absurd he hlt.ne⟩
    obtain ⟨hle₁, hsub₁, hstay₁⟩ := hparents
    obtain ⟨hle₂, hsub₂, hstay₂⟩ := ownPrevious_spec hown revision
    have hstep : ∀ n, m ≤ n → crawl d c (n + 1) path start result =
        if ownPrevious (c.rangesOf path) revision < result then
          crawl d c n path start (ownPrevious (c.rangesOf path) revision)
        else some (.ok (if ownPrevious (c.rangesOf path) revision = start then noRevision
          else result)) := by
      intro n hn
      rw [crawl]
      simp only [hparent, getPreviousRevision_mono hn hm]
      rfl
    by_cases hlt : ownPrevious (c.rangesOf path) revision < result
    · have hmoved' : Set.Ioc (ownPrevious (c.rangesOf path) revision) start ⊆
          s ∪ held (c.rangesOf path) := by
        intro x hx
        rcases Nat.lt_or_ge result x with h | h
        · exact hmoved ⟨h, hx.2⟩
        · rcases Nat.lt_or_ge revision x with h' | h'
          · exact .inl (hsub₁ ⟨h', h⟩)
          · exact .inr (hsub₂ ⟨hx.1, h'⟩)
      obtain ⟨fuel, r, hr, hgap'⟩ := ih _ hlt (hlt.le.trans hle) hmoved'
      refine ⟨max m fuel + 1, r, ?_, hgap'⟩
      rw [hstep _ (le_max_left _ _), if_pos hlt]
      exact crawl_mono (le_max_right _ _) hr
    · have hr : revision = result := by omega
      have ho : ownPrevious (c.rangesOf path) revision = revision := by omega
      have hnot : result ∉ s ∪ held (c.rangesOf path) := by
        rintro (h | h)
        · exact hstay₁ hr h
        · exact hstay₂ ho (hr ▸ h)
      refine ⟨m + 1, _, by rw [hstep m le_rfl, if_neg hlt], ?_⟩
      rw [ho, hr]
      by_cases hs' : result = start
      · rw [if_pos hs']
        exact .inl ⟨rfl, hs' ▸ hnot⟩
      · rw [if_neg hs']
        exact .inr ⟨lt_of_le_of_ne hle hs', hmoved, hnot⟩

/-- The lookup above the root. -/
theorem previousGap_top {revision : ℕ} :
    ∃ r, GetPreviousRevision d c ⊤ revision r ∧ PreviousGap ∅ revision r :=
  ⟨noRevision, ⟨1, by simp [getPreviousRevision]⟩, .inl ⟨rfl, Set.notMem_empty _⟩⟩

theorem exists_previousGap (hd : d.Tree) (hc : ∀ p ∈ c.data, p.ranges.Regular) {i : ℕ}
    (hi : i < d.size) {revision : ℕ} (hrev : revision < 2 ^ 32) :
    ∃ r, GetPreviousRevision d c (i : Index) revision r ∧
      PreviousGap (skipped d c i) revision r := by
  induction i using Nat.strong_induction_on generalizing revision with
  | _ i ih =>
    have hown : ∀ m, c.rangesOf (i : Index) = some m → m.Regular := by
      intro m hm
      obtain ⟨p, hp, rfl⟩ := Option.map_eq_some_iff.mp hm
      exact hc p (List.mem_of_find?_eq_some hp)
    -- the parent and what its own lookup steps over
    have hparent : ∃ (parent : Index) (s : Set ℕ), d.getParent (i : Index) = .ok parent ∧
        (∀ revision < 2 ^ 32, ∃ r, GetPreviousRevision d c parent revision r ∧
          PreviousGap s revision r) ∧ skipped d c i = s ∪ held (c.rangesOf (i : Index)) := by
      rcases Nat.eq_zero_or_pos i with rfl | hpos
      · obtain ⟨element, hroot⟩ := hd.root
        refine ⟨⊤, ∅, ?_, fun _ _ => previousGap_top, ?_⟩
        · rw [CPathDictionary.getParent, CPathDictionary.entry_coe hroot]
          rfl
        · ext r
          simp [skipped, hd.above_root]
      · obtain ⟨j, hj, hlt⟩ := hd.getParent hi hpos
        refine ⟨j, skipped d c j, hj, fun r hr => ih j hlt (hlt.trans hi) hr, ?_⟩
        ext r
        simp only [skipped, CPathDictionary.above_iff hj, Set.mem_ofPred_eq, Set.mem_union]
        constructor
        · rintro ⟨a, rfl | ha, hr⟩
          · exact .inr hr
          · exact .inl ⟨a, ha, hr⟩
        · rintro (⟨a, ha, hr⟩ | hr)
          · exact ⟨a, .inr ha, hr⟩
          · exact ⟨i, .inl rfl, hr⟩
    obtain ⟨parent, s, hget, hs, hskip⟩ := hparent
    by_cases hno : revision = noRevision
    · -- no range holds `NO_REVISION`
      refine ⟨noRevision, ⟨1, by simp [getPreviousRevision, hno]⟩, .inl ⟨rfl, ?_⟩⟩
      rintro ⟨a, -, m, hm, e, he, hle, hlt⟩
      obtain ⟨p, hp, rfl⟩ := Option.map_eq_some_iff.mp hm
      have := (hc p (List.mem_of_find?_eq_some hp)).stop_lt e he
      unfold noRevision at hno
      omega
    · obtain ⟨fuel, r, hr, hgap⟩ := crawl_spec hget hs hown hrev le_rfl
        fun x hx => absurd (hx.1.trans_le hx.2) (lt_irrefl _)
      refine ⟨r, ⟨fuel + 1, ?_⟩, hskip ▸ hgap⟩
      rw [getPreviousRevision, if_neg, hr]
      simp [hno]

/-- **In a tree, the lookup ends with one result. It is `NO_REVISION` iff the revision is in no
range of the path or of a parent; otherwise it is the first revision below that is in none.** -/
theorem getPreviousRevision_spec (hd : d.Tree) (hc : ∀ p ∈ c.data, p.ranges.Regular) {i : ℕ}
    (hi : i < d.size) {revision : ℕ} (hrev : revision < 2 ^ 32) :
    ∃ r, (∀ r', GetPreviousRevision d c (i : Index) revision r' ↔ r' = r) ∧
      (r = noRevision ↔ revision ∉ skipped d c i) ∧
      (r ≠ noRevision → r < revision ∧ (∀ x, r < x → x ≤ revision → x ∈ skipped d c i) ∧
        r ∉ skipped d c i) := by
  obtain ⟨r, hr, hgap⟩ := exists_previousGap hd hc hi hrev
  refine ⟨r, fun r' => ⟨fun h => h.unique hr, fun h => h ▸ hr⟩, ?_⟩
  rcases hgap with ⟨rfl, hnot⟩ | ⟨hlt, hsub, hnot⟩
  · exact ⟨⟨fun _ => hnot, fun _ => rfl⟩, fun h => absurd rfl h⟩
  · have hne : r ≠ noRevision := by
      unfold noRevision
      omega
    exact ⟨⟨fun h => absurd h hne, fun h => absurd (hsub ⟨hlt, le_rfl⟩) h⟩,
      fun _ => ⟨hlt, fun x h₁ h₂ => hsub ⟨h₁, h₂⟩, hnot⟩⟩

end Lookup

/-- The root and a child. -/
def rootAndChild : CPathDictionary := ⟨.init, [(⊤, (0 : ℕ)), ((0 : ℕ), (0 : ℕ))]⟩

/-- The root skips 3 to 6, the child 7 and 8. -/
def adjoining : CSkipRevisionInfo := ⟨[⟨.ofList [(3, 4)], 0⟩, ⟨.ofList [(7, 2)], 1⟩]⟩

theorem rootAndChild_tree : rootAndChild.Tree where
  root := ⟨_, rfl⟩
  parent := fun i p hi hp => by
    obtain rfl : i = 1 := by
      have := (List.getElem?_eq_some_iff.mp hp).1
      simp only [rootAndChild, List.length_cons, List.length_nil] at this
      omega
    obtain rfl := Option.some.inj hp
    exact ⟨0, rfl, hi⟩

/-- The lookup goes on in the ranges of the root. -/
theorem getPreviousRevision_spec_adjoining :
    GetPreviousRevision rootAndChild adjoining (1 : ℕ) 8 2 ∧ 2 ∉ skipped rootAndChild adjoining 1 := by
  have hregular : ∀ p ∈ adjoining.data, p.ranges.Regular := by
    intro p hp
    simp only [adjoining, List.mem_cons, List.not_mem_nil, or_false] at hp
    rcases hp with rfl | rfl <;> exact ⟨by decide, by decide, by decide⟩
  obtain ⟨r, hr, -, hgap⟩ := @getPreviousRevision_spec rootAndChild adjoining rootAndChild_tree
    hregular 1 (by decide) 8 (by decide)
  have h2 : GetPreviousRevision rootAndChild adjoining (1 : ℕ) 8 2 := ⟨20, by decide⟩
  obtain rfl := (hr 2).mp h2
  exact ⟨h2, (hgap (by decide)).2.2⟩

end CSkipRevisionInfo

end TortoiseSvn.LogCache
