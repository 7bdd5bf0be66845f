import TortoiseSvn.LogCache.RevisionIndexRuns
import TortoiseSvn.LogCache.RevisionInfoUpdate
import TortoiseSvn.LogCache.SkipRevisionInfo

/-!
# The cached log

`CCachedLogInfo` combines the revision index with the revision info container: the index has an entry of
the container for each revision that is cached. An update from another cache first gives an entry to each
revision of that cache and maps it to the entry that the revision has there.

Main result: `mapRevisions_spec`. The map is one that the container can be updated with, and behind it the
entries of different revisions are still different.
-/

namespace TortoiseSvn.LogCache

open TortoiseSvn.Lib

/-- Source: `RevisionInfoContainer.h` `CRevisionInfoContainer::GetComment` -/
def CRevisionInfoContainer.getComment (c : CRevisionInfoContainer) (index : ℕ) :
    Except Fault (List UInt8) :=
  c.comments.get index

/-- Whether the changes of a revision are known. The entry of a cached revision exists.
Source: `SkipRevisionInfo.cpp` `CSkipRevisionInfo::DataAvailable` -/
def dataAvailable (revisions : CRevisionIndex) (logInfo : CRevisionInfoContainer) (revision : ℕ) :
    Bool :=
  match revisions.get revision with
  | ⊤ => false
  | (ind : ℕ) => logInfo.presenceFlags.getD ind 0 &&& HAS_CHANGEDPATHS ≠ 0

/-- The cache without its file. The asserts on `revisionAdded` are left out.
Source: `CachedLogInfo.h` `CCachedLogInfo` -/
structure CCachedLogInfo where
  revisions : CRevisionIndex
  logInfo : CRevisionInfoContainer
  skippedRevisions : CSkipRevisionInfo
  modified : Bool
  revisionAdded : Bool
  deriving DecidableEq

namespace CCachedLogInfo

/-- Source: `CachedLogInfo.cpp` `CCachedLogInfo::CCachedLogInfo` -/
def init : CCachedLogInfo where
  revisions := .init
  logInfo := .init
  skippedRevisions := {}
  modified := false
  revisionAdded := false

/-- Source: `CachedLogInfo.cpp` `CCachedLogInfo::IsEmpty` -/
def isEmpty (l : CCachedLogInfo) : Bool := l.revisions.getFirstCachedRevision = noRevision

/-- Source: `CachedLogInfo.cpp` `CCachedLogInfo::Insert` -/
def insert (delimiter : UInt8 → Bool) (l : CCachedLogInfo) (revision : ℕ)
    (author comment : List UInt8) (timeStamp : ℤ) (flags : UInt8) : Except Fault CCachedLogInfo := do
  let (logInfo, index) ← l.logInfo.insert delimiter author comment timeStamp flags
  let revisions ← l.revisions.setRevisionIndex revision (index : Index)
  pure { l with
    revisions := revisions, logInfo := logInfo, modified := true, revisionAdded := true }

/-- Source: `CachedLogInfo.h` `CCachedLogInfo::AddChange` -/
def addChange (l : CCachedLogInfo) (action : TChangeAction) (pathType : ℕ)
    (path fromPath : List UInt8) (fromRevision : ℕ) (textModified propsModified : UInt8) :
    Except Fault CCachedLogInfo :=
  (l.logInfo.addChange action pathType path fromPath fromRevision textModified propsModified).map
    fun logInfo => { l with logInfo := logInfo }

/-- Source: `CachedLogInfo.h` `CCachedLogInfo::AddRevProp` -/
def addRevProp (delimiter : UInt8 → Bool) (dateOf : List UInt8 → ℤ) (l : CCachedLogInfo)
    (revProp value : List UInt8) : Except Fault CCachedLogInfo :=
  (l.logInfo.addRevProp delimiter dateOf revProp value).map
    fun logInfo => { l with logInfo := logInfo }

/-- What the mapping of the revisions works on.
Source: `CachedLogInfo.cpp` `CCachedLogInfo::Update`, the variables -/
structure RevisionMap where
  revisions : CRevisionIndex
  newIndex : ℕ
  indexMap : IndexMapping
  deriving DecidableEq

/-- Source: `CachedLogInfo.cpp` `CCachedLogInfo::Update`, the loop body -/
def mapRevision (source : CRevisionIndex) (st : RevisionMap) (i : ℕ) : Except Fault RevisionMap :=
  match source.get i with
  | ⊤ => .ok st
  | (sourceIndex : ℕ) =>
    match st.revisions.get i with
    | ⊤ => (st.revisions.setRevisionIndex i (st.newIndex : Index)).map fun revisions =>
      ⟨revisions, st.newIndex + 1, st.indexMap ++ [(st.newIndex, sourceIndex)]⟩
    | (destIndex : ℕ) => .ok { st with indexMap := st.indexMap ++ [(destIndex, sourceIndex)] }

/-- "build revision index map". Source: `CachedLogInfo.cpp` `CCachedLogInfo::Update` -/
def mapRevisions (l newData : CCachedLogInfo) : Except Fault RevisionMap :=
  (List.range' newData.revisions.firstRevision
      (newData.revisions.getLastRevision - newData.revisions.firstRevision)).foldlM
    (mapRevision newData.revisions) ⟨l.revisions, l.logInfo.size, []⟩

/-- Source: `CachedLogInfo.cpp` `CCachedLogInfo::Update` -/
def update (delimiter : UInt8 → Bool) (l newData : CCachedLogInfo) (flags : UInt8)
    (keepOldDataForMissingNew : Bool) : Except Fault CCachedLogInfo :=
  if newData.isEmpty ∧ keepOldDataForMissingNew then .ok l
  else do
    let st ← l.mapRevisions newData
    let logInfo ← l.logInfo.update delimiter newData.logInfo st.indexMap flags
      keepOldDataForMissingNew
    pure { l with
      revisions := st.revisions
      logInfo := logInfo
      skippedRevisions := l.skippedRevisions.compress (dataAvailable st.revisions logInfo)
      modified := true }

/-! ### The entries of the revisions -/

/-- Every entry belongs to one revision; revisions are not negative as signed numbers. -/
structure Indexed (revisions : CRevisionIndex) (size : ℕ) : Prop where
  fits : revisions.Fits
  revision_lt : ∀ r, revisions.entry r ≠ ⊤ → r < 2 ^ 31
  valid : ∀ r (n : ℕ), revisions.entry r = (n : Index) → n < size
  injective : ∀ r r' (n : ℕ), revisions.entry r = (n : Index) → revisions.entry r' = (n : Index) → r = r'
  surjective : ∀ n < size, ∃ r, revisions.entry r = (n : Index)

/-- The map once the revisions `done` are mapped: the entries that revisions had before are kept, and those
behind `size` belong to revisions that are new. -/
structure RevisionMap.Covers (old source : CRevisionIndex) (size : ℕ) (done : List ℕ)
    (st : RevisionMap) : Prop where
  indexed : Indexed st.revisions st.newIndex
  kept : ∀ r, old.entry r ≠ ⊤ → st.revisions.entry r = old.entry r
  added : ∀ r (n : ℕ), old.entry r = ⊤ → st.revisions.entry r = (n : Index) →
    r ∈ done ∧ size ≤ n ∧ source.entry r ≠ ⊤
  le : size ≤ st.newIndex
  mem : ∀ e : ℕ × ℕ, e ∈ st.indexMap ↔ ∃ r ∈ done, source.entry r = (e.2 : Index) ∧
    st.revisions.entry r = (e.1 : Index)
  mapped : ∀ r ∈ done, source.entry r ≠ ⊤ → st.revisions.entry r ≠ ⊤
  unique : (st.indexMap.map Prod.fst).Nodup
  next : (st.indexMap.map Prod.fst).filter (fun key => size ≤ key) =
    List.range' size (st.newIndex - size)

section

variable {old source : CRevisionIndex} {size r : ℕ} {done : List ℕ} {st : RevisionMap}

/-- There are no more entries than revisions. -/
theorem Indexed.size_le {revisions : CRevisionIndex} (h : Indexed revisions size) : size ≤ 2 ^ 31 := by
  choose! f hf using h.surjective
  have hmaps : Set.MapsTo f (Finset.range size) (Finset.range (2 ^ 31)) := fun n hn =>
    Finset.mem_coe.mpr (Finset.mem_range.mpr (h.revision_lt _ (by
      rw [hf n (Finset.mem_range.mp (Finset.mem_coe.mp hn))]
      exact WithTop.natCast_ne_top n)))
  have hinj : Set.InjOn f (Finset.range size) := by
    intro n hn n' hn' heq
    have hentry := hf n (Finset.mem_range.mp (Finset.mem_coe.mp hn))
    rw [heq, hf n' (Finset.mem_range.mp (Finset.mem_coe.mp hn')), Nat.cast_inj] at hentry
    exact hentry.symm
  have hcard := Finset.card_le_card_of_injOn f hmaps hinj
  rwa [Finset.card_range, Finset.card_range] at hcard

/-- A revision without an entry gets one that no other revision has. -/
theorem Indexed.setRevisionIndex {revisions : CRevisionIndex} (h : Indexed revisions size)
    (hr : r < 2 ^ 31) (hnew : revisions.entry r = ⊤) :
    ∃ revisions', revisions.setRevisionIndex r (size : Index) = .ok revisions' ∧
      Indexed revisions' (size + 1) ∧
      revisions'.entry = Function.update revisions.entry r (size : Index) := by
  obtain ⟨revisions', hset, hfits, hentry⟩ := CRevisionIndex.setRevisionIndex_spec h.fits hr
    (WithTop.natCast_ne_top size) hnew
  have hcases : ∀ r' (n : ℕ), revisions'.entry r' = (n : Index) →
      r' = r ∧ n = size ∨ revisions.entry r' = (n : Index) ∧ n < size := by
    intro r' n hn
    rw [hentry] at hn
    rcases eq_or_ne r' r with rfl | hne
    · rw [Function.update_self] at hn
      exact .inl ⟨rfl, (WithTop.coe_injective hn).symm⟩
    · rw [Function.update_of_ne hne] at hn
      exact .inr ⟨hn, h.valid r' n hn⟩
  refine ⟨revisions', hset, ⟨hfits, fun r' hr' => ?_, fun r' n hn => ?_, fun r₁ r₂ n h₁ h₂ => ?_,
    fun n hn => ?_⟩, hentry⟩
  · obtain ⟨n, hn⟩ := (Index.cases (revisions'.entry r')).resolve_left hr'
    rcases hcases r' n hn with ⟨rfl, -⟩ | ⟨hold, -⟩
    · exact hr
    · exact h.revision_lt r' fun htop => WithTop.top_ne_natCast n (htop.symm.trans hold)
  · rcases hcases r' n hn with ⟨-, rfl⟩ | ⟨-, hlt⟩ <;> omega
  · rcases hcases r₁ n h₁ with ⟨rfl, hn₁⟩ | ⟨h₁, hn₁⟩ <;> rcases hcases r₂ n h₂ with ⟨rfl, hn₂⟩ | ⟨h₂, hn₂⟩
    · rfl
    · omega
    · omega
    · exact h.injective r₁ r₂ n h₁ h₂
  · rw [hentry]
    rcases Nat.lt_succ_iff_lt_or_eq.mp hn with hlt | rfl
    · obtain ⟨r', hr'⟩ := h.surjective n hlt
      have hne : r' ≠ r := by
        rintro rfl
        exact WithTop.top_ne_natCast n (hnew.symm.trans hr')
      exact ⟨r', by rw [Function.update_of_ne hne, hr']⟩
    · exact ⟨r, Function.update_self ..⟩

/-- A round for a revision that the other cache does not have. -/
theorem RevisionMap.Covers.skip (h : st.Covers old source size done) (hs : source.entry r = ⊤) :
    st.Covers old source size (done ++ [r]) where
  indexed := h.indexed
  kept := h.kept
  added := fun r' n hold hn =>
    let ⟨hmem, hrest⟩ := h.added r' n hold hn
    ⟨List.mem_append_left _ hmem, hrest⟩
  le := h.le
  mem := fun e => by
    have hnot : ¬ (source.entry r = (e.2 : Index) ∧ st.revisions.entry r = (e.1 : Index)) := by
      rw [hs]
      exact fun hand => WithTop.top_ne_natCast e.2 hand.1
    rw [h.mem e]
    simp only [List.mem_append, List.mem_singleton, or_and_right, exists_or, exists_eq_left]
    rw [or_iff_left hnot]
  mapped := fun r' hr' hne => by
    rcases List.mem_append.mp hr' with hr' | hr'
    · exact h.mapped r' hr' hne
    · exact absurd (List.mem_singleton.mp hr' ▸ hs) hne
  unique := h.unique
  next := h.next

/-- A round for a revision that has an entry. -/
theorem RevisionMap.Covers.known (h : st.Covers old source size done) (hold : Indexed old size)
    (hr : r ∉ done) {s n : ℕ} (hs : source.entry r = (s : Index))
    (hn : st.revisions.entry r = (n : Index)) :
    ({ st with indexMap := st.indexMap ++ [(n, s)] } : RevisionMap).Covers old source size
      (done ++ [r]) where
  indexed := h.indexed
  kept := h.kept
  added := fun r' n hold hn =>
    let ⟨hmem, hrest⟩ := h.added r' n hold hn
    ⟨List.mem_append_left _ hmem, hrest⟩
  le := h.le
  mem := fun e => by
    have hnew : e = (n, s) ↔ source.entry r = (e.2 : Index) ∧ st.revisions.entry r = (e.1 : Index) := by
      rw [hs, hn, Nat.cast_inj, Nat.cast_inj, Prod.ext_iff, and_comm, eq_comm, @eq_comm _ e.1]
    rw [List.mem_append, h.mem e, List.mem_singleton, hnew]
    simp only [List.mem_append, List.mem_singleton, or_and_right, exists_or, exists_eq_left]
  mapped := fun r' hr' hne => by
    rcases List.mem_append.mp hr' with hr' | hr'
    · exact h.mapped r' hr' hne
    · rw [List.mem_singleton.mp hr', hn]
      exact WithTop.natCast_ne_top n
  unique := by
    rw [List.map_append, List.map_singleton]
    refine List.nodup_append.mpr ⟨h.unique, List.nodup_singleton _, fun key hkey key' hkey' => ?_⟩
    rintro rfl
    obtain ⟨e, he, rfl⟩ := List.mem_map.mp hkey
    obtain ⟨r', hr', -, hentry⟩ := (h.mem e).mp he
    rw [List.mem_singleton.mp hkey'] at hentry
    exact hr (h.indexed.injective r' r n hentry hn ▸ hr')
  next := by
    -- a revision that is not yet mapped has its old entry
    have hlt : n < size := by
      by_contra hge
      rcases Index.cases (old.entry r) with htop | ⟨n', hn'⟩
      · exact hr (h.added r n htop hn).1
      · have hkept := h.kept r (hn' ▸ WithTop.natCast_ne_top n')
        rw [hn, hn', Nat.cast_inj] at hkept
        exact hge (hkept ▸ hold.valid r n' hn')
    rw [List.map_append, List.map_singleton, List.filter_append, h.next,
      List.filter_cons_of_neg (by simpa using hlt), List.filter_nil, List.append_nil]

/-- A round for a revision that gets the next entry. -/
theorem RevisionMap.Covers.append (h : st.Covers old source size done) (hr : r ∉ done) {s : ℕ}
    {revisions : CRevisionIndex} (hs : source.entry r = (s : Index))
    (hn : st.revisions.entry r = ⊤) (hindexed : Indexed revisions (st.newIndex + 1))
    (hentry : revisions.entry = Function.update st.revisions.entry r (st.newIndex : Index)) :
    (⟨revisions, st.newIndex + 1, st.indexMap ++ [(st.newIndex, s)]⟩ : RevisionMap).Covers old source
      size (done ++ [r]) where
  indexed := hindexed
  kept := fun r' hr' => by
    have hne : r' ≠ r := by
      rintro rfl
      exact hr' ((h.kept r' hr').symm.trans hn)
    show revisions.entry r' = _
    rw [hentry, Function.update_of_ne hne]
    exact h.kept r' hr'
  added := fun r' n hold hn' => by
    change revisions.entry r' = (n : Index) at hn'
    rw [hentry] at hn'
    rcases eq_or_ne r' r with rfl | hne
    · rw [Function.update_self] at hn'
      obtain rfl : st.newIndex = n := Nat.cast_inj.mp hn'
      exact ⟨List.mem_append_right _ (List.mem_singleton_self _), h.le,
        hs ▸ WithTop.natCast_ne_top s⟩
    · rw [Function.update_of_ne hne] at hn'
      obtain ⟨hmem, hrest⟩ := h.added r' n hold hn'
      exact ⟨List.mem_append_left _ hmem, hrest⟩
  le := h.le.trans (Nat.le_succ _)
  mem := fun e => by
    have hnew : e = (st.newIndex, s) ↔
        source.entry r = (e.2 : Index) ∧ revisions.entry r = (e.1 : Index) := by
      rw [hs, hentry, Function.update_self, Nat.cast_inj, Nat.cast_inj, Prod.ext_iff, and_comm,
        eq_comm, @eq_comm _ e.1]
    have hdone : ∀ r' ∈ done, revisions.entry r' = st.revisions.entry r' := by
      intro r' hr'
      have hne : r' ≠ r := by
        rintro rfl
        exact hr hr'
      rw [hentry, Function.update_of_ne hne]
    rw [List.mem_append, h.mem e, List.mem_singleton, hnew]
    simp only [List.mem_append, List.mem_singleton, or_and_right, exists_or, exists_eq_left]
    refine or_congr_left (exists_congr fun r' => and_congr_right fun hr' => ?_)
    rw [hdone r' hr']
  mapped := fun r' hr' hne => by
    show revisions.entry r' ≠ ⊤
    rw [hentry]
    rcases eq_or_ne r' r with rfl | hne'
    · rw [Function.update_self]
      exact WithTop.natCast_ne_top _
    · rw [Function.update_of_ne hne']
      exact h.mapped r' ((List.mem_append.mp hr').resolve_right fun he =>
        hne' (List.mem_singleton.mp he)) hne
  unique := by
    rw [List.map_append, List.map_singleton]
    refine List.nodup_append.mpr ⟨h.unique, List.nodup_singleton _, fun key hkey key' hkey' => ?_⟩
    rintro rfl
    obtain ⟨e, he, rfl⟩ := List.mem_map.mp hkey
    obtain ⟨r', -, -, hentry⟩ := (h.mem e).mp he
    exact (h.indexed.valid r' e.1 hentry).ne (List.mem_singleton.mp hkey')
  next := by
    rw [List.map_append, List.map_singleton, List.filter_append, h.next,
      List.filter_cons_of_pos (by simpa using h.le), List.filter_nil, Nat.succ_sub h.le,
      List.range'_1_concat, Nat.add_sub_cancel' h.le]

/-- A round. -/
theorem RevisionMap.Covers.step (h : st.Covers old source size done) (hold : Indexed old size)
    (hsource : source.Fits) (hr : r ∉ done) (hlt : r < 2 ^ 32)
    (hlimit : source.entry r ≠ ⊤ → r < 2 ^ 31) :
    ∃ st', mapRevision source st r = .ok st' ∧ st'.Covers old source size (done ++ [r]) := by
  unfold mapRevision
  rw [CRevisionIndex.get_eq_entry hsource hlt, CRevisionIndex.get_eq_entry h.indexed.fits hlt]
  rcases Index.cases (source.entry r) with htop | ⟨s, hs⟩
  · rw [htop]
    exact ⟨st, rfl, h.skip htop⟩
  rcases Index.cases (st.revisions.entry r) with htop | ⟨n, hn⟩
  · obtain ⟨revisions, hset, hindexed, hentry⟩ := h.indexed.setRevisionIndex
      (hlimit (hs ▸ WithTop.natCast_ne_top s)) htop
    rw [hs, htop]
    refine ⟨_, ?_, h.append hr hs htop hindexed hentry⟩
    dsimp only
    rw [hset]
    rfl
  · rw [hs, hn]
    exact ⟨_, rfl, h.known hold hr hs hn⟩

/-- The loop. -/
theorem RevisionMap.Covers.foldlM (h : st.Covers old source size done) (hold : Indexed old size)
    (hsource : source.Fits) (hlimit : ∀ r, source.entry r ≠ ⊤ → r < 2 ^ 31) {rest : List ℕ}
    (hnodup : (done ++ rest).Nodup) (hlt : ∀ r ∈ rest, r < 2 ^ 32) :
    ∃ st', rest.foldlM (mapRevision source) st = .ok st' ∧
      st'.Covers old source size (done ++ rest) := by
  induction rest generalizing done st with
  | nil => exact ⟨st, rfl, (List.append_nil done).symm ▸ h⟩
  | cons r rest ih =>
    have hr : r ∉ done := fun hmem =>
      (List.nodup_append.mp hnodup).2.2 r hmem r List.mem_cons_self rfl
    obtain ⟨hltr, hlt⟩ := List.forall_mem_cons.mp hlt
    obtain ⟨st₁, hround, h₁⟩ := h.step hold hsource hr hltr (hlimit r)
    have hsplit : done ++ r :: rest = done ++ [r] ++ rest := by
      rw [List.append_assoc, List.singleton_append]
    obtain ⟨st', hrun, h'⟩ := ih h₁ (hsplit ▸ hnodup) hlt
    refine ⟨st', ?_, hsplit ▸ h'⟩
    rw [List.foldlM_cons, hround]
    exact hrun

/-- What the mapping of all revisions leads to. -/
structure RevisionMap.Joins (old source : CRevisionIndex) (size sourceSize : ℕ) (st : RevisionMap) :
    Prop where
  indexed : Indexed st.revisions (size + st.indexMap.countP fun e => size ≤ e.1)
  wellFormed : st.indexMap.WellFormed size sourceSize
  kept : ∀ r, old.entry r ≠ ⊤ → st.revisions.entry r = old.entry r
  added : ∀ r (n : ℕ), old.entry r = ⊤ → st.revisions.entry r = (n : Index) →
    size ≤ n ∧ source.entry r ≠ ⊤
  find : ∀ r (n s : ℕ), st.revisions.entry r = (n : Index) →
    (st.indexMap.find n = some s ↔ source.entry r = (s : Index))

theorem RevisionMap.Covers.joins (h : st.Covers old source size done) {sourceSize : ℕ}
    (hsource : Indexed source sourceSize) (hdone : ∀ r, source.entry r ≠ ⊤ → r ∈ done) :
    st.Joins old source size sourceSize := by
  have hcount : (st.indexMap.countP fun e => size ≤ e.1) = st.newIndex - size := by
    have hlength := congrArg List.length h.next
    rw [List.length_range', List.filter_map, List.length_map] at hlength
    rw [List.countP_eq_length_filter]
    exact hlength
  refine ⟨?_, ⟨h.unique, hcount ▸ h.next, fun e he => ?_⟩, h.kept, fun r n hr hn =>
    (h.added r n hr hn).2, fun r n s hn => ?_⟩
  · rw [hcount, Nat.add_sub_cancel' h.le]
    exact h.indexed
  · obtain ⟨r, -, hs, -⟩ := (h.mem e).mp he
    exact hsource.valid r e.2 hs
  · rw [IndexMapping.find_eq_some_iff h.unique, h.mem]
    constructor
    · rintro ⟨r', -, hs, hn'⟩
      exact h.indexed.injective r' r n hn' hn ▸ hs
    · exact fun hs => ⟨r, hdone r (hs ▸ WithTop.natCast_ne_top s), hs, hn⟩

/-- An entry behind the end is that of a revision that is new. -/
theorem RevisionMap.Joins.new_entry {sourceSize : ℕ} (h : st.Joins old source size sourceSize)
    (hold : Indexed old size) {e : ℕ × ℕ} (he : e ∈ st.indexMap) (hle : size ≤ e.1) :
    ∃ r, old.entry r = ⊤ ∧ source.entry r = (e.2 : Index) := by
  obtain ⟨r, hr⟩ := h.indexed.surjective e.1 (h.wellFormed.key_lt he)
  refine ⟨r, ?_, (h.find r e.1 e.2 hr).mp ((IndexMapping.find_eq_some_iff h.wellFormed.unique).mpr he)⟩
  rcases Index.cases (old.entry r) with htop | ⟨n, hn⟩
  · exact htop
  · have hkept := h.kept r (hn ▸ WithTop.natCast_ne_top n)
    rw [hr, hn, Nat.cast_inj] at hkept
    exact absurd (hkept ▸ hold.valid r n hn) (Nat.not_lt.mpr hle)

end

/-- **The map of the revisions can be used for an update**, and behind it every revision of either cache
has an entry of its own. -/
theorem mapRevisions_spec {l newData : CCachedLogInfo} (h : Indexed l.revisions l.logInfo.size)
    (hnew : Indexed newData.revisions newData.logInfo.size) :
    ∃ st, l.mapRevisions newData = .ok st ∧
      st.Joins l.revisions newData.revisions l.logInfo.size newData.logInfo.size := by
  have hfits := hnew.fits
  have hlast : newData.revisions.getLastRevision =
      newData.revisions.firstRevision + newData.revisions.indices.length := addU_of_lt hfits
  have hstart : (⟨l.revisions, l.logInfo.size, []⟩ : RevisionMap).Covers l.revisions
      newData.revisions l.logInfo.size [] :=
    ⟨h, fun _ _ => rfl, fun r n htop hn => absurd (htop.symm.trans hn) (WithTop.top_ne_natCast n),
      le_rfl, fun e => by simp, fun r hr => absurd hr List.not_mem_nil, List.nodup_nil, by simp⟩
  have hrange : ∀ r ∈ List.range' newData.revisions.firstRevision newData.revisions.indices.length,
      r < 2 ^ 32 := fun r hr => (List.mem_range'_1.mp hr).2.trans hfits
  obtain ⟨st, hrun, hcovers⟩ := hstart.foldlM h hfits hnew.revision_lt List.nodup_range' hrange
  refine ⟨st, ?_, hcovers.joins hnew fun r hr => ?_⟩
  · unfold mapRevisions
    rw [hlast, Nat.add_sub_cancel_left]
    exact hrun
  · obtain ⟨i, hi, rfl⟩ := CRevisionIndex.range_of_entry hr
    exact List.mem_range'_1.mpr ⟨Nat.le_add_right _ _, Nat.add_lt_add_left hi _⟩

end CCachedLogInfo

end TortoiseSvn.LogCache
