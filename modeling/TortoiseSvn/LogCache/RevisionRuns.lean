import TortoiseSvn.LogCache.ChangeOrder
import TortoiseSvn.LogCache.ChangeUpdate

/-!
# Runs on the revision info container

A container is filled by adding revisions and data to the last one, by updating it from other
containers and by sorting its changes. Whatever the order of these calls is, it holds one list of
changes for each revision.

Main result: `changes_run`, the change tables behind any run, and what an update does to them.
-/

namespace TortoiseSvn.LogCache

open TortoiseSvn.Lib CPathDictionary

namespace CRevisionInfoContainer

/-! ### Operations that leave the changes alone -/

/-- The changes, the number of revisions and that of their flags are the same. -/
structure SameChanges (c c' : CRevisionInfoContainer) : Prop where
  columns : c'.changeColumns = c.changeColumns
  size : c'.size = c.size
  flags : c'.presenceFlags.length = c.presenceFlags.length

section Same

variable {c c' newData : CRevisionInfoContainer} {delimiter : UInt8 → Bool} {m : IndexMapping}
  {flags : UInt8} {keep : Bool}

theorem SameChanges.refl (c : CRevisionInfoContainer) : c.SameChanges c := ⟨rfl, rfl, rfl⟩

theorem SameChanges.trans {c'' : CRevisionInfoContainer} (h : c.SameChanges c')
    (h' : c'.SameChanges c'') : c.SameChanges c'' :=
  ⟨h'.columns.trans h.columns, h'.size.trans h.size, h'.flags.trans h.flags⟩

theorem updateAuthors_same (h : c.updateAuthors newData m keep = .ok c') : c.SameChanges c' := by
  obtain ⟨authors, hauthors, hc⟩ := bind_eq_ok.mp h
  obtain rfl := Except.ok.inj hc
  exact ⟨rfl, updateAuthorsLoop_length hauthors, rfl⟩

theorem updateTimeStamps_same (h : c.updateTimeStamps newData m keep = .ok c') :
    c.SameChanges c' := by
  obtain ⟨timeStamps, -, hc⟩ := bind_eq_ok.mp h
  obtain rfl := Except.ok.inj hc
  exact ⟨rfl, rfl, rfl⟩

theorem updateComments_same (h : c.updateComments delimiter newData m keep = .ok c') :
    c.SameChanges c' := by
  obtain ⟨toReplace, -, h⟩ := bind_eq_ok.mp h
  obtain ⟨comments, -, hc⟩ := bind_eq_ok.mp h
  obtain rfl := Except.ok.inj hc
  exact ⟨rfl, rfl, rfl⟩

theorem takeMerges_same {mapping : List ℕ} {s : ℕ} (h : c.takeMerges newData mapping s = .ok c') :
    c.SameChanges c' := by
  unfold takeMerges at h
  simp only [bind_eq_ok] at h
  obtain ⟨_, -, _, -, _, -, _, -, _, -, _, -, _, -, _, -, _, -, hc⟩ := h
  obtain rfl := Except.ok.inj hc
  exact ⟨rfl, rfl, rfl⟩

theorem keepMerges_same {old : CRevisionInfoContainer} {first last : ℕ}
    (h : c.keepMerges old first last = .ok c') : c.SameChanges c' := by
  unfold keepMerges at h
  simp only [bind_eq_ok] at h
  obtain ⟨_, -, _, -, _, -, _, -, hc⟩ := h
  obtain rfl := Except.ok.inj hc
  exact ⟨rfl, rfl, rfl⟩

theorem updateMergersLoop_same {old : CRevisionInfoContainer} {mapping : List ℕ} {n i first : ℕ}
    (h : updateMergersLoop newData old m mapping keep n i first c = .ok c') : c.SameChanges c' := by
  induction n generalizing i first c with
  | zero =>
    obtain rfl := Except.ok.inj h
    exact .refl c
  | succ n ih =>
    rw [updateMergersLoop] at h
    obtain ⟨⟨c₁, first₁⟩, hround, h⟩ := bind_eq_ok.mp h
    refine SameChanges.trans ?_ (ih h)
    unfold updateMergersRound at hround
    obtain ⟨_, -, hround⟩ := bind_eq_ok.mp hround
    obtain ⟨source, -, hround⟩ := bind_eq_ok.mp hround
    obtain ⟨c₂, hc₂, hround⟩ := bind_eq_ok.mp hround
    obtain ⟨_, -, hround⟩ := bind_eq_ok.mp hround
    obtain ⟨rfl, -⟩ := Prod.mk.inj (Except.ok.inj hround)
    have hsame : c.SameChanges c₂ := by
      cases source with
      | some s => exact takeMerges_same hc₂
      | none => exact keepMerges_same hc₂
    exact ⟨hsame.columns, hsame.size, hsame.flags⟩

theorem updateMergers_same {mapping : List ℕ} (h : c.updateMergers newData m mapping keep = .ok c') :
    c.SameChanges c' := by
  obtain ⟨hcolumns, hsize, hflags⟩ := updateMergersLoop_same h
  exact ⟨hcolumns, hsize, hflags⟩

theorem updateUserRevProps_same (h : c.updateUserRevProps delimiter newData m keep = .ok c') :
    c.SameChanges c' := by
  obtain ⟨st, -, h⟩ := bind_eq_ok.mp h
  obtain ⟨_, -, h⟩ := bind_eq_ok.mp h
  obtain ⟨_, -, hc⟩ := bind_eq_ok.mp h
  obtain rfl := Except.ok.inj hc
  exact ⟨rfl, rfl, rfl⟩

theorem updatePresenceFlags_same (h : c.updatePresenceFlags newData m flags keep = .ok c') :
    c.SameChanges c' := by
  obtain ⟨presenceFlags, hflags, hc⟩ := bind_eq_ok.mp h
  obtain rfl := Except.ok.inj hc
  exact ⟨rfl, rfl, updatePresenceFlagsLoop_length hflags⟩

theorem pass_same {flag : UInt8} {f : CRevisionInfoContainer → Except Fault CRevisionInfoContainer}
    (h : c.pass flags flag f = .ok c') (hf : f c = .ok c' → c.SameChanges c') :
    c.SameChanges c' := by
  obtain ⟨-, hc⟩ | ⟨-, rfl⟩ := pass_ok h
  · exact hf hc
  · exact .refl c'

theorem modifyBack_length {α : Type} {f : α → α} {l l' : List α} (h : modifyBack f l = .ok l') :
    l'.length = l.length := by
  unfold modifyBack back at h
  rcases List.eq_nil_or_concat l with rfl | ⟨l₀, a, rfl⟩
  · exact nomatch h
  · rw [List.concat_eq_append, List.getLast?_concat, List.dropLast_concat] at h
    obtain rfl := Except.ok.inj h
    rw [List.concat_eq_append, List.length_append, List.length_append]
    rfl

theorem map_eq_ok {α β : Type} {f : α → β} {x : Except Fault α} {b : β} :
    x.map f = .ok b ↔ ∃ a, x = .ok a ∧ f a = b := by
  cases x with
  | error e => simp [Except.map]
  | ok a => simp [Except.map]

theorem addRevProp_same {dateOf : List UInt8 → ℤ} {revProp value : List UInt8}
    (h : c.addRevProp delimiter dateOf revProp value = .ok c') : c.SameChanges c' := by
  unfold addRevProp at h
  split at h
  · obtain ⟨authors, hauthors, rfl⟩ := map_eq_ok.mp h
    exact ⟨rfl, modifyBack_length hauthors, rfl⟩
  split at h
  · obtain ⟨_, -, rfl⟩ := map_eq_ok.mp h
    exact ⟨rfl, rfl, rfl⟩
  split at h
  · obtain ⟨_, -, rfl⟩ := map_eq_ok.mp h
    exact ⟨rfl, rfl, rfl⟩
  · unfold addUserRevProp at h
    split at h
    · exact nomatch h
    · obtain ⟨_, -, hc⟩ := bind_eq_ok.mp h
      obtain rfl := Except.ok.inj hc
      exact ⟨rfl, rfl, rfl⟩

end Same

/-! ### Updating -/

/-- The container holds the lists of changes, and a flag for each of its revisions. -/
structure Tracks (c : CRevisionInfoContainer) (revs : List (List SPerChangeInfo)) : Prop where
  changes : c.HoldsChanges revs
  size : c.size = revs.length
  flags : c.presenceFlags.length = revs.length

section Update

variable {c c' newData : CRevisionInfoContainer} {delimiter : UInt8 → Bool} {m : IndexMapping}
  {flags : UInt8} {keep : Bool} {olds news : List (List SPerChangeInfo)}

theorem Tracks.congr (h : c.Tracks olds) (hs : c.SameChanges c') : c'.Tracks olds where
  changes := h.changes.congr hs.columns
  size := hs.size.trans h.size
  flags := hs.flags.trans h.flags

/-- New revisions have no changes. -/
theorem Tracks.appendNewEntries (h : c.Tracks olds) (hc : c.appendNewEntries delimiter m = .ok c') :
    c'.Tracks (olds ++ List.replicate (m.countP fun e => c.size ≤ e.1) []) ∧ c'.paths = c.paths := by
  generalize hn : (m.countP fun e => c.size ≤ e.1) = n
  obtain ⟨rfl, rfl⟩ | ⟨-, changes, copies, merges, props, hchanges, hcopies, -, -, rfl⟩ :=
    appendNewEntries_ok hc hn
  · rw [List.replicate_zero, List.append_nil]
    exact ⟨h, rfl⟩
  · have hflat : (olds ++ List.replicate n []).flatten = olds.flatten := by simp
    have hcopiesOf : copiesOf (List.replicate n []) = List.replicate n [] := by
      simp [copiesOf]
    have hroots : List.Forall₂ (IsRootOf c.paths) (List.replicate n ⊤) (List.replicate n []) := by
      rw [List.forall₂_iff_get]
      refine ⟨by simp, fun i h₁ h₂ => ?_⟩
      simp only [List.get_eq_getElem, List.getElem_replicate]
      exact .none
    rw [h.changes.changesOffsets, appendLast_offsets] at hchanges
    rw [h.changes.copyFromOffsets, appendLast_offsets] at hcopies
    have hsize : c.authors.length = olds.length := h.size
    have hflags := h.flags
    have hlists := h.changes.lists
    refine ⟨⟨⟨h.changes.built, ?_, (Except.ok.inj hchanges).symm, ?_, ?_, ?_, ?_⟩, ?_, ?_⟩, rfl⟩
    · rw [hflat]
      exact ⟨hlists.changes, hlists.changedPaths, hlists.changedPathTypes, hlists.textModifies,
        hlists.propsModifies, hlists.copyFromPaths, hlists.copyFromRevisions⟩
    · rw [copiesOf_append, hcopiesOf]
      exact (Except.ok.inj hcopies).symm
    · show c.sumChanges ++ _ = _
      rw [h.changes.sums, List.map_append, List.map_replicate]
      rfl
    · exact List.rel_append h.changes.roots hroots
    · intro rev hrev
      rcases List.mem_append.mp hrev with hmem | hmem
      · exact h.changes.valid rev hmem
      · rw [List.eq_of_mem_replicate hmem]
        exact fun x hx => absurd hx List.not_mem_nil
    · show (c.authors ++ _).length = _
      simp [hsize]
    · show (c.presenceFlags ++ _).length = _
      simp [hflags]

/-- More paths. -/
theorem Tracks.extends (h : c.Tracks olds) {d' : CPathDictionary} (hd' : d'.Built)
    (hext : c.paths.Extends d') : ({ c with paths := d' } : CRevisionInfoContainer).Tracks olds where
  changes :=
    { built := hd'
      lists := ⟨h.changes.lists.changes, h.changes.lists.changedPaths,
        h.changes.lists.changedPathTypes, h.changes.lists.textModifies,
        h.changes.lists.propsModifies, h.changes.lists.copyFromPaths,
        h.changes.lists.copyFromRevisions⟩
      changesOffsets := h.changes.changesOffsets
      copyFromOffsets := h.changes.copyFromOffsets
      sums := h.changes.sums
      roots := h.changes.roots.imp fun _ _ hr => hr.extends h.changes.built hext
      valid := fun rev hrev x hx => (h.changes.valid rev hrev x hx).extends h.changes.built hext }
  size := h.size
  flags := h.flags

/-- The lists behind an update: those of the entries that are taken over replace the old ones. -/
def updatedChanges (newData : CRevisionInfoContainer) (m : IndexMapping) (flags : UInt8)
    (keepOldDataForMissingNew : Bool) (mapping : List ℕ) (news olds : List (List SPerChangeInfo)) :
    List (List SPerChangeInfo) :=
  if flags &&& HAS_CHANGEDPATHS ≠ 0 then
    (m.taken (newData.supplied HAS_CHANGEDPATHS keepOldDataForMissingNew)).splice
      (sourceChanges mapping news) 0 olds
  else olds

/-- **An update** appends the new revisions and replaces the changes of the revisions whose changes
are taken over. -/
theorem Tracks.update (h : c.Tracks olds) (hnew : newData.Tracks news)
    (hm : m.WellFormed c.size newData.size)
    (hc : c.update delimiter newData m flags keep = .ok c') :
    ∃ mapping, c.paths.Extends c'.paths ∧ Maps c'.paths newData.paths mapping newData.paths.size ∧
      c'.Tracks (updatedChanges newData m flags keep mapping news
        (olds ++ List.replicate (m.countP fun e => c.size ≤ e.1) [])) := by
  unfold CRevisionInfoContainer.update at hc
  simp only [bind_eq_ok] at hc
  obtain ⟨c₁, happend, ⟨d', mapping⟩, hmerge, c₂, hauthors, c₃, htimes, c₄, hcomments, c₅, hchanges,
    c₆, hmergers, c₇, hprops, hflags⟩ := hc
  obtain ⟨h₁, hpaths₁⟩ := h.appendNewEntries happend
  obtain ⟨d, mapping', hmerge', hbuilt, hext, hmaps⟩ := h₁.changes.built.merge_spec
    hnew.changes.built
  obtain ⟨rfl, rfl⟩ := Prod.mk.inj (Except.ok.inj (hmerge.symm.trans hmerge'))
  -- the passes before the one over the changes
  have hsame : ({ c₁ with paths := d' } : CRevisionInfoContainer).SameChanges c₄ :=
    (pass_same hauthors updateAuthors_same).trans
      ((pass_same htimes updateTimeStamps_same).trans (pass_same hcomments updateComments_same))
  have h₄ := (h₁.extends hbuilt hext).congr hsame
  have hpaths₄ : c₄.paths = d' := congrArg ChangeColumns.paths hsame.columns
  -- the passes behind it
  have hsame' : c₅.SameChanges c' := (pass_same hmergers updateMergers_same).trans
    ((pass_same hprops updateUserRevProps_same).trans (updatePresenceFlags_same hflags))
  have hpaths' : c'.paths = c₅.paths := congrArg ChangeColumns.paths hsame'.columns
  have hmaps₄ : Maps c₄.paths newData.paths mapping newData.paths.size := hpaths₄ ▸ hmaps
  have hext₄ : c.paths.Extends c₄.paths := by rwa [hpaths₄, ← hpaths₁]
  obtain ⟨hflag, hchanges⟩ | ⟨hflag, rfl⟩ := pass_ok hchanges
  · obtain ⟨roots, sums, hupdate, hholds⟩ := @HoldsChanges.updateChanges c₄ newData m mapping
      keep news _ h₄.changes h₄.size hnew.changes hmaps₄ hm.unique
      (fun e he => hnew.size ▸ hm.source e he) hnew.flags
    obtain rfl := Except.ok.inj (hupdate.symm.trans hchanges)
    refine ⟨mapping, hpaths' ▸ hext₄, hpaths' ▸ hmaps₄, ?_⟩
    rw [updatedChanges, if_pos hflag]
    refine Tracks.congr ⟨hholds, ?_, ?_⟩ hsame'
    · rw [IndexMapping.splice_length]
      exact h₄.size
    · rw [IndexMapping.splice_length]
      exact h₄.flags
  · refine ⟨mapping, hpaths' ▸ hext₄, hpaths' ▸ hmaps₄, ?_⟩
    rw [updatedChanges, if_neg (not_not.mpr hflag)]
    exact h₄.congr hsame'

end Update

/-! ### Runs -/

/-- The containers that a sequence of calls leads to, from an empty one on. Calls that throw end the
sequence. -/
inductive Reached (delimiter : UInt8 → Bool) (dateOf : List UInt8 → ℤ) :
    CRevisionInfoContainer → Prop
  | init : Reached delimiter dateOf .init
  | insert {c c' : CRevisionInfoContainer} {author comment : List UInt8} {timeStamp : ℤ}
      {flags : UInt8} {index : ℕ} : Reached delimiter dateOf c →
      c.insert delimiter author comment timeStamp flags = .ok (c', index) →
      Reached delimiter dateOf c'
  | addChange {c c' : CRevisionInfoContainer} {action : TChangeAction} {pathType : ℕ}
      {path fromPath : List UInt8} {fromRevision : ℕ} {textModified propsModified : UInt8} :
      Reached delimiter dateOf c →
      c.addChange action pathType path fromPath fromRevision textModified propsModified = .ok c' →
      Reached delimiter dateOf c'
  | addMergedRevision {c c' : CRevisionInfoContainer} {fromPath toPath : List UInt8}
      {revisionStart revisionDelta : ℕ} : Reached delimiter dateOf c →
      c.addMergedRevision fromPath toPath revisionStart revisionDelta = .ok c' →
      Reached delimiter dateOf c'
  | addRevProp {c c' : CRevisionInfoContainer} {revProp value : List UInt8} :
      Reached delimiter dateOf c → c.addRevProp delimiter dateOf revProp value = .ok c' →
      Reached delimiter dateOf c'
  | update {c newData c' : CRevisionInfoContainer} {indexMap : IndexMapping} {flags : UInt8}
      {keepOldDataForMissingNew : Bool} : Reached delimiter dateOf c →
      Reached delimiter dateOf newData → indexMap.WellFormed c.size newData.size →
      c.update delimiter newData indexMap flags keepOldDataForMissingNew = .ok c' →
      Reached delimiter dateOf c'
  | optimizeChangeOrder {c c' : CRevisionInfoContainer}
      {sort : List SPerChangeInfo → List SPerChangeInfo} : Reached delimiter dateOf c →
      IsSort sort → c.optimizeChangeOrder sort = .ok c' → Reached delimiter dateOf c'

section Runs

variable {c c' newData : CRevisionInfoContainer} {delimiter : UInt8 → Bool}
  {dateOf : List UInt8 → ℤ} {revs : List (List SPerChangeInfo)}

theorem init_tracks : init.Tracks [] := ⟨init_holdsChanges, rfl, rfl⟩

theorem Tracks.insert (h : c.Tracks revs) {author comment : List UInt8} {timeStamp : ℤ}
    {flags : UInt8} {index : ℕ}
    (hc : c.insert delimiter author comment timeStamp flags = .ok (c', index)) :
    c'.Tracks (revs ++ [[]]) := by
  have hchanges := h.changes.insert hc
  have hsize : c.authors.length = revs.length := h.size
  obtain ⟨_, _, _, _, -, -, -, -, -, rfl⟩ := insert_ok hc
  refine ⟨hchanges, ?_, ?_⟩
  · show (c.authors ++ _).length = _
    simp [hsize]
  · show (c.presenceFlags ++ _).length = _
    simp [h.flags]

/-- Adding a change keeps the number of revisions, of which there is one. -/
theorem addChange_size {action : TChangeAction} {pathType fromRevision : ℕ}
    {path fromPath : List UInt8} {textModified propsModified : UInt8}
    (hc : c.addChange action pathType path fromPath fromRevision textModified propsModified =
      .ok c') :
    c'.size = c.size ∧ c'.presenceFlags = c.presenceFlags ∧ c.rootPaths ≠ [] := by
  have hadd : ∀ {flags c₁}, c.addChangedPath flags pathType path textModified propsModified =
      .ok c₁ → c₁.size = c.size ∧ c₁.presenceFlags = c.presenceFlags ∧ c.rootPaths ≠ [] := by
    intro flags c₁ h₁
    obtain ⟨root, _, _, _, hroot, -, -, -, rfl⟩ := addChangedPath_ok h₁
    refine ⟨rfl, rfl, fun hnil => ?_⟩
    rw [hnil] at hroot
    exact nomatch hroot
  unfold CRevisionInfoContainer.addChange at hc
  split at hc
  · exact nomatch hc
  split at hc
  · exact hadd hc
  · obtain ⟨c₁, h₁, h₂⟩ := bind_eq_ok.mp hc
    obtain ⟨_, -, rfl⟩ := addCopySource_ok h₂
    obtain ⟨hsize, hflags, hne⟩ := hadd h₁
    exact ⟨hsize, hflags, hne⟩

/-- A change is added to the last revision. -/
theorem Tracks.addChange (h : c.Tracks revs) {action : TChangeAction} {pathType fromRevision : ℕ}
    {path fromPath : List UInt8} {textModified propsModified : UInt8}
    (hc : c.addChange action pathType path fromPath fromRevision textModified propsModified =
      .ok c') : ∃ front rev x, revs = front ++ [rev] ∧ c'.Tracks (front ++ [rev ++ [x]]) ∧
        c'.paths.IsNamed x.changedPath (namesOf path) ∧
        x.change = (if fromPath = [] then action.code else action.code ||| HAS_COPY_FROM) ∧
        (fromPath ≠ [] → c'.paths.IsNamed x.copyFromPath (namesOf fromPath) ∧
          x.copyFromRevision = fromRevision) := by
  obtain ⟨hsize, hflags, hne⟩ := addChange_size hc
  rcases List.eq_nil_or_concat revs with rfl | ⟨front, rev, rfl⟩
  · exact absurd (List.forall₂_nil_right_iff.mp h.changes.roots) hne
  · rw [List.concat_eq_append] at h ⊢
    obtain ⟨x, hx, hpath, hchange, hcopy⟩ := h.changes.addChange hc
    refine ⟨front, rev, x, rfl, ⟨hx, ?_, ?_⟩, hpath, hchange, hcopy⟩
    · rw [hsize, h.size, List.length_append, List.length_append]
      rfl
    · rw [hflags, h.flags, List.length_append, List.length_append]
      rfl

theorem Tracks.addMergedRevision (h : c.Tracks revs) {fromPath toPath : List UInt8}
    {revisionStart revisionDelta : ℕ}
    (hc : c.addMergedRevision fromPath toPath revisionStart revisionDelta = .ok c') :
    c'.Tracks revs := by
  unfold CRevisionInfoContainer.addMergedRevision at hc
  split at hc
  · exact nomatch hc
  obtain ⟨_, -, hc⟩ := bind_eq_ok.mp hc
  obtain rfl := Except.ok.inj hc
  obtain ⟨hbuilt, hext, -⟩ := h.changes.built.parsePath fromPath
  obtain ⟨hbuilt', hext', -⟩ := hbuilt.parsePath toPath
  exact (h.extends hbuilt' (hext.trans hext')).congr ⟨rfl, rfl, rfl⟩

/-- Whatever was called, the container holds a list of changes for each revision. -/
theorem Reached.tracks (h : Reached delimiter dateOf c) : ∃ revs, c.Tracks revs := by
  induction h with
  | init => exact ⟨[], init_tracks⟩
  | insert _ hc ih =>
    obtain ⟨revs, h⟩ := ih
    exact ⟨_, h.insert hc⟩
  | addChange _ hc ih =>
    obtain ⟨revs, h⟩ := ih
    obtain ⟨_, _, _, -, h', -⟩ := h.addChange hc
    exact ⟨_, h'⟩
  | addMergedRevision _ hc ih =>
    obtain ⟨revs, h⟩ := ih
    exact ⟨revs, h.addMergedRevision hc⟩
  | addRevProp _ hc ih =>
    obtain ⟨revs, h⟩ := ih
    exact ⟨revs, h.congr (addRevProp_same hc)⟩
  | update _ _ hm hc ih ihNew =>
    obtain ⟨olds, h⟩ := ih
    obtain ⟨news, hnew⟩ := ihNew
    obtain ⟨mapping, -, -, h'⟩ := h.update hnew hm hc
    exact ⟨_, h'⟩
  | optimizeChangeOrder _ hsort hc ih =>
    obtain ⟨revs, h⟩ := ih
    obtain ⟨c₁, hc₁, hchanges, hsize, hflags, -⟩ := h.changes.optimizeChangeOrder h.size hsort
    obtain rfl := Except.ok.inj (hc₁.symm.trans hc)
    refine ⟨_, hchanges, ?_, ?_⟩
    · rw [hsize, h.size, List.length_map]
    · rw [hflags, h.flags, List.length_map]

end Runs

/-! ### The change tables -/

/-- An offset table for `count` lists with `total` entries. -/
def IsOffsetTable (offsets : List ℕ) (count total : ℕ) : Prop :=
  offsets.length = count + 1 ∧ offsets.head? = some 0 ∧ offsets.Pairwise (· ≤ ·) ∧
    offsets.getLast? = some total

/-- The root path is `NO_INDEX` without changes, and else the deepest path above all changed
paths. -/
def IsDeepestRoot (d : CPathDictionary) (root : Index) (xs : List SPerChangeInfo) : Prop :=
  (root = ⊤ ↔ xs = []) ∧ (xs ≠ [] → ∃ r : ℕ, root = (r : Index) ∧
    ∀ a, d.Above a r ↔ ∀ x ∈ xs, ∃ p : ℕ, x.changedPath = (p : Index) ∧ d.Above a p)

/-- The data of a revision: the ranges have as many entries as there are changes and copy sources,
the iterator reads them, and sum and root path are those of the changes. -/
def RevisionFits (c : CRevisionInfoContainer) (i : ℕ) : Prop :=
  ∃ first last xs root, c.getChangesBegin i = .ok first ∧ c.getChangesEnd i = .ok last ∧
    c.changesOf i = .ok xs ∧ last.changeOffset = first.changeOffset + xs.length ∧
    last.copyFromOffset = first.copyFromOffset + xs.countP SPerChangeInfo.hasFromPath ∧
    c.sumChanges[i]? = some (sumOf xs) ∧ c.getRootPath i = .ok root ∧
    IsDeepestRoot c.paths root xs

/-- The change tables fit together. -/
structure ConsistentChanges (c : CRevisionInfoContainer) : Prop where
  changesOffsets : IsOffsetTable c.changesOffsets c.size c.changes.length
  copyFromOffsets : IsOffsetTable c.copyFromOffsets c.size c.copyFromPaths.length
  changedPaths : c.changedPaths.length = c.changes.length
  changedPathTypes : c.changedPathTypes.length = c.changes.length
  textModifies : c.textModifies.length = c.changes.length
  propsModifies : c.propsModifies.length = c.changes.length
  copyFromRevisions : c.copyFromRevisions.length = c.copyFromPaths.length
  revision : ∀ i < c.size, c.RevisionFits i

/-- Two path indices stand for the same path string. -/
def SamePath (d d' : CPathDictionary) (i j : Index) : Prop :=
  ∃ path, d.GetPath i path ∧ d'.GetPath j path

/-- Two changes are the same, their paths being compared as strings. -/
structure SameChange (d d' : CPathDictionary) (x y : SPerChangeInfo) : Prop where
  path : SamePath d d' x.changedPath y.changedPath
  type : x.changedPathType = y.changedPathType
  change : x.change = y.change
  copyFromPath : x.hasFromPath = true → SamePath d d' x.copyFromPath y.copyFromPath
  copyFromRevision : x.copyFromRevision = y.copyFromRevision
  textModifies : x.textModifies = y.textModifies
  propsModifies : x.propsModifies = y.propsModifies

/-- The source entry whose changes an update gives to entry `i`, if there is one. -/
def changesTakenFrom (newData : CRevisionInfoContainer) (m : IndexMapping) (flags : UInt8)
    (keepOldDataForMissingNew : Bool) (i : ℕ) : Option ℕ :=
  if flags &&& HAS_CHANGEDPATHS ≠ 0 then
    (m.find i).filter (newData.supplied HAS_CHANGEDPATHS keepOldDataForMissingNew)
  else none

/-- What an update does to the changes of entry `i`. -/
def ChangesUpdated (c newData c' : CRevisionInfoContainer) (source : Option ℕ) (i : ℕ) : Prop :=
  ∃ xs, c'.changesOf i = .ok xs ∧
    match source with
    | some s => ∃ ys, newData.changesOf s = .ok ys ∧
        List.Forall₂ (SameChange c'.paths newData.paths) xs ys
    | none => if i < c.size then ∃ ys, c.changesOf i = .ok ys ∧
        List.Forall₂ (SameChange c'.paths c.paths) xs ys else xs = []

/-- What adding a change does: it comes last in the list of the last revision, with the paths and
the source revision that were given. -/
def ChangeAdded (c c' : CRevisionInfoContainer) (path fromPath : List UInt8) (fromRevision : ℕ) :
    Prop :=
  ∃ xs x, c.changesOf (c.size - 1) = .ok xs ∧ c'.changesOf (c.size - 1) = .ok (xs ++ [x]) ∧
    c'.paths.GetPath x.changedPath (pathString (namesOf path)) ∧
    (x.hasFromPath = true ↔ fromPath ≠ []) ∧
    (fromPath ≠ [] → c'.paths.GetPath x.copyFromPath (pathString (namesOf fromPath)) ∧
      x.copyFromRevision = fromRevision)

section Tables

variable {c c' newData : CRevisionInfoContainer} {delimiter : UInt8 → Bool}
  {dateOf : List UInt8 → ℤ} {revs olds news : List (List SPerChangeInfo)}

theorem isOffsetTable_offsetsFrom {α : Type} (ls : List (List α)) :
    IsOffsetTable (offsetsFrom 0 ls) ls.length ls.flatten.length := by
  refine ⟨offsetsFrom_length 0 ls, ?_, ?_, ?_⟩
  · rw [offsetsFrom_eq_cons]
    rfl
  · rw [List.pairwise_iff_getElem]
    intro i j hi hj hij
    rw [offsetsFrom_length] at hi hj
    have hget : ∀ {k}, (hk : k < (offsetsFrom 0 ls).length) →
        (offsetsFrom 0 ls)[k] = offsetOf ls k := by
      intro k hk
      have h := @offsetsFrom_getElem? α 0 k ls
        (by rw [offsetsFrom_length] at hk; omega)
      rw [List.getElem?_eq_getElem hk, Nat.zero_add] at h
      exact Option.some.inj h
    rw [hget, hget]
    exact offsetOf_mono ls hij.le
  · obtain ⟨l, hl⟩ := offsetsFrom_eq_concat ls
    rw [hl, List.getLast?_concat]

theorem exists_of_forall₂ {α β : Type} {R : α → β → Prop} {l : List α} {m : List β}
    (h : List.Forall₂ R l m) {a : α} (ha : a ∈ l) : ∃ b ∈ m, R a b := by
  induction h with
  | nil => exact absurd ha List.not_mem_nil
  | cons hR _ ih =>
    rcases List.mem_cons.mp ha with rfl | ha
    · exact ⟨_, List.mem_cons_self, hR⟩
    · obtain ⟨b, hb, hRb⟩ := ih ha
      exact ⟨b, List.mem_cons_of_mem _ hb, hRb⟩

/-- The root path whose names the changed paths begin with is the deepest one above them. -/
theorem IsRootOf.isDeepestRoot {d : CPathDictionary} (hd : d.Built) {root : Index}
    {rev : List SPerChangeInfo} (h : IsRootOf d root rev) : IsDeepestRoot d root rev := by
  cases h with
  | none => exact ⟨iff_of_true rfl rfl, fun hne => absurd rfl hne⟩
  | @some _ _ rs pss hne hroot hpss hpre =>
    obtain ⟨r, rfl, hr⟩ := hroot
    refine ⟨iff_of_false (WithTop.natCast_ne_top r) hne, fun _ => ⟨r, rfl, fun a => ?_⟩⟩
    constructor
    · intro ha x hx
      obtain ⟨ms, hms⟩ := hd.exists_named ((hd.tree.le_of_above ha).trans_lt (hr.lt_size hd))
      have hbelow := (hpre ms).mp ((hd.above_iff_prefix hms hr).mp ha)
      obtain ⟨ps, hps, p, hp, hpn⟩ := exists_of_forall₂ hpss hx
      exact ⟨p, hp, (hd.above_iff_prefix hms hpn).mpr (hbelow ps hps)⟩
    · intro ha
      have hbelow : ∀ ps ∈ pss, ∃ p, d.Named p ps ∧ d.Above a p := by
        intro ps hps
        obtain ⟨x, hx, p, hp, hpn⟩ := exists_of_forall₂ hpss.flip hps
        obtain ⟨p', hp', hap⟩ := ha x hx
        obtain rfl := Nat.cast_injective (R := Index) (hp.symm.trans hp')
        exact ⟨p, hpn, hap⟩
      obtain ⟨x, hx⟩ := List.exists_mem_of_ne_nil rev hne
      obtain ⟨ps, hps, -⟩ := exists_of_forall₂ hpss hx
      obtain ⟨p, hpn, hap⟩ := hbelow ps hps
      obtain ⟨ms, hms⟩ := hd.exists_named ((hd.tree.le_of_above hap).trans_lt (hpn.lt_size hd))
      apply (hd.above_iff_prefix hms hr).mpr
      apply (hpre ms).mpr
      intro qs hqs
      obtain ⟨q, hqn, haq⟩ := hbelow qs hqs
      exact (hd.above_iff_prefix hms hqn).mp haq

theorem Tracks.consistent (h : c.Tracks revs) : c.ConsistentChanges := by
  have hlists := h.changes.lists
  have hcopies : c.copyFromPaths.length = (copiesOf revs).flatten.length := by
    rw [hlists.copyFromPaths, List.length_map, copiesOf_flatten]
  have hchanges : c.changes.length = revs.flatten.length := by
    rw [hlists.changes, List.length_map]
  refine ⟨?_, ?_, ?_, ?_, ?_, ?_, ?_, fun i hi => ?_⟩
  · rw [h.changes.changesOffsets, h.size, hchanges]
    exact isOffsetTable_offsetsFrom revs
  · have htable := isOffsetTable_offsetsFrom (copiesOf revs)
    rwa [copiesOf_length, ← h.size, ← h.changes.copyFromOffsets, ← hcopies] at htable
  · rw [hchanges, hlists.changedPaths, List.length_map]
  · rw [hchanges, hlists.changedPathTypes, List.length_map]
  · rw [hchanges, hlists.textModifies, List.length_map]
  · rw [hchanges, hlists.propsModifies, List.length_map]
  · rw [hlists.copyFromRevisions, hlists.copyFromPaths, List.length_map, List.length_map]
  · rw [h.size] at hi
    have hrev : revs[i]? = some revs[i] := List.getElem?_eq_getElem hi
    have hcopy : (copiesOf revs)[i]? = some (revs[i].filter SPerChangeInfo.hasFromPath) := by
      rw [copiesOf, List.getElem?_map, hrev]
      rfl
    obtain ⟨root, hroot, hisRoot⟩ := h.changes.root hrev
    refine ⟨_, _, revs[i], root, h.changes.getChangesBegin hi.le,
      h.changes.getChangesBegin (Nat.succ_le_of_lt hi), h.changes.changesOf_eq hrev,
      offsetOf_succ hrev, ?_, ?_, ?_, hisRoot.isDeepestRoot h.changes.built⟩
    · rw [List.countP_eq_length_filter]
      exact offsetOf_succ hcopy
    · rw [h.changes.sums, List.getElem?_map, hrev]
      rfl
    · rw [CRevisionInfoContainer.getRootPath, hroot]
      rfl

theorem samePath_of_isNamed {d d' : CPathDictionary} (hd : d.Built) (hd' : d'.Built) {i j : Index}
    {ns : List (List UInt8)} (hi : d.IsNamed i ns) (hj : d'.IsNamed j ns) : SamePath d d' i j := by
  obtain ⟨i, rfl, hi⟩ := hi
  obtain ⟨j, rfl, hj⟩ := hj
  exact ⟨_, hd.getPath hi, hd'.getPath hj⟩

/-- A change that was kept. -/
theorem sameChange_of_extends {d d' : CPathDictionary} (hd : d.Built) (hd' : d'.Built)
    (hext : d.Extends d') {x : SPerChangeInfo} (hx : x.Valid d) : SameChange d' d x x where
  path := by
    obtain ⟨ns, hns⟩ := hx.path
    exact samePath_of_isNamed hd' hd (hns.extends hd hext) hns
  type := rfl
  change := rfl
  copyFromPath := fun hfrom => by
    obtain ⟨ns, hns⟩ := hx.copy hfrom
    exact samePath_of_isNamed hd' hd (hns.extends hd hext) hns
  copyFromRevision := rfl
  textModifies := rfl
  propsModifies := rfl

/-- A change that was taken over. -/
theorem sameChange_translate {d source : CPathDictionary} (hd : d.Built) (hs : source.Built)
    {mapping : List ℕ} (hmaps : Maps d source mapping source.size) {x : SPerChangeInfo}
    (hx : x.Valid source) : SameChange d source (x.translate mapping) x where
  path := by
    obtain ⟨ns, hns⟩ := hx.path
    exact samePath_of_isNamed hd hs (mapped_eq hmaps hs hns).2 hns
  type := rfl
  change := rfl
  copyFromPath := fun hfrom => by
    obtain ⟨ns, hns⟩ := hx.copy hfrom
    exact samePath_of_isNamed hd hs (mapped_eq hmaps hs hns).2 hns
  copyFromRevision := rfl
  textModifies := rfl
  propsModifies := rfl

theorem forall₂_map_self {α β : Type} {R : β → α → Prop} {f : α → β} {l : List α}
    (h : ∀ a ∈ l, R (f a) a) : List.Forall₂ R (l.map f) l := by
  rw [List.forall₂_map_left_iff]
  exact List.forall₂_same.mpr h

/-- The changes of an entry behind an update. -/
theorem Tracks.changesUpdated (h : c.Tracks olds) (hnew : newData.Tracks news) {m : IndexMapping}
    {flags : UInt8} {keep : Bool} (hm : m.WellFormed c.size newData.size)
    (hc : c.update delimiter newData m flags keep = .ok c') {i : ℕ} (hi : i < c'.size) :
    ChangesUpdated c newData c' (changesTakenFrom newData m flags keep i) i := by
  obtain ⟨mapping, hext, hmaps, h'⟩ := h.update hnew hm hc
  generalize hn : (m.countP fun e => c.size ≤ e.1) = n at h'
  have hbuilt' := h'.changes.built
  -- the list that an entry has before the changes are taken over
  have hkeep : ∀ xs, (olds ++ List.replicate n [])[i]? = some xs →
      if i < c.size then ∃ ys, c.changesOf i = .ok ys ∧
        List.Forall₂ (SameChange c'.paths c.paths) xs ys else xs = [] := by
    intro xs hxs
    split
    · rename_i hlt
      rw [List.getElem?_append_left (h.size ▸ hlt)] at hxs
      refine ⟨xs, h.changes.changesOf_eq hxs, List.forall₂_same.mpr fun x hx => ?_⟩
      exact sameChange_of_extends h.changes.built hbuilt' hext
        (h.changes.valid xs (List.mem_of_getElem? hxs) x hx)
    · rename_i hge
      rw [List.getElem?_append_right (h.size ▸ not_lt.mp hge)] at hxs
      exact List.eq_of_mem_replicate (List.mem_of_getElem? hxs)
  have hrev : ∀ {revs'}, c'.Tracks revs' → ∃ xs, revs'[i]? = some xs ∧ c'.changesOf i = .ok xs := by
    intro revs' ht
    have hlt : i < revs'.length := ht.size ▸ hi
    exact ⟨_, List.getElem?_eq_getElem hlt, ht.changes.changesOf_eq (List.getElem?_eq_getElem hlt)⟩
  obtain ⟨xs, hxs, hread⟩ := hrev h'
  refine ⟨xs, hread, ?_⟩
  unfold changesTakenFrom
  rw [updatedChanges] at hxs
  split at hxs
  · rename_i hflag
    rw [if_pos hflag]
    rw [IndexMapping.splice_getElem?, Nat.zero_add, IndexMapping.find_taken hm.unique,
      Option.map_eq_some_iff] at hxs
    obtain ⟨ys, hys, rfl⟩ := hxs
    cases hfind : (m.find i).filter (newData.supplied HAS_CHANGEDPATHS keep) with
    | none => exact hkeep ys hys
    | some s =>
      have hs : s < news.length := by
        rw [← hnew.size]
        exact hm.source _ (IndexMapping.mem_of_find (Option.filter_eq_some_iff.mp hfind).1)
      have hsrc : news[s]? = some (news.getD s []) := by
        rw [List.getD_eq_getElem?_getD, List.getElem?_eq_getElem hs]
        rfl
      refine ⟨_, hnew.changes.changesOf_eq hsrc, forall₂_map_self fun x hx => ?_⟩
      exact sameChange_translate hbuilt' hnew.changes.built hmaps
        (hnew.changes.valid _ (List.mem_of_getElem? hsrc) x hx)
  · rename_i hflag
    rw [if_neg hflag]
    exact hkeep xs hxs

theorem Tracks.changeAdded (h : c.Tracks revs) {action : TChangeAction} {pathType fromRevision : ℕ}
    {path fromPath : List UInt8} {textModified propsModified : UInt8}
    (hc : c.addChange action pathType path fromPath fromRevision textModified propsModified =
      .ok c') : ChangeAdded c c' path fromPath fromRevision := by
  obtain ⟨front, rev, x, rfl, h', ⟨p, hp, hpath⟩, hchange, hcopy⟩ := h.addChange hc
  have hlast : c.size - 1 = front.length := by
    rw [h.size, List.length_append]
    rfl
  have hbuilt := h'.changes.built
  refine ⟨rev, x, ?_, ?_, ?_, ?_, fun hne => ?_⟩
  · rw [hlast]
    exact h.changes.changesOf_eq List.getElem?_concat_length
  · rw [hlast]
    exact h'.changes.changesOf_eq List.getElem?_concat_length
  · rw [hp]
    exact hbuilt.getPath hpath
  · unfold SPerChangeInfo.hasFromPath
    rw [hchange, decide_eq_true_iff]
    split
    · rename_i hnil
      exact iff_of_false (not_not.mpr action.no_copy) (not_not.mpr hnil)
    · rename_i hne
      exact iff_of_true action.copy hne
  · obtain ⟨⟨q, hq, hfrom⟩, hrev⟩ := hcopy hne
    rw [hq]
    exact ⟨hbuilt.getPath hfrom, hrev⟩

end Tables

/-! ### Mapped revisions whose changes are not taken over -/

/-- One revision with one change. -/
def oneChange : Except Fault CRevisionInfoContainer := do
  let r ← init.insert (fun _ => false) [] [] 0 HAS_CHANGEDPATHS
  r.1.addChange ⟨ACTION_ADDED, isAction_added⟩ 1 [47, 97] [] 0 0 0

/-- One revision without any data. -/
def noChange : Except Fault CRevisionInfoContainer := do
  let r ← init.insert (fun _ => false) [] [] 0 0
  pure r.1

end CRevisionInfoContainer

end TortoiseSvn.LogCache
