import TortoiseSvn.LogCache.MergeUpdate
import TortoiseSvn.LogCache.RevisionRuns
import TortoiseSvn.LogCache.RevisionStrings
import TortoiseSvn.LogCache.UserRevProps

/-!
# Updating a consistent container

In a consistent container all columns have an entry for each revision, and all indices are known to
their pools. `Update` returns on such containers, whatever its flags are, but of the user properties it
may lose some.

Main result: `update_userRevProps_iff`. The user properties behind an update are those that it is meant to
give if and only if no revision that keeps some stands behind one that takes over others.
-/

namespace TortoiseSvn.LogCache

open TortoiseSvn.Lib CPathDictionary

namespace CRevisionInfoContainer

/-- The columns of a container fit together; how many comments there are is left open. -/
structure Sound (c : CRevisionInfoContainer) (props : List (List (ℕ × List UInt8))) : Prop where
  changes : ∃ revs, c.Tracks revs
  authors : c.ConsistentAuthors
  timeStamps : c.timeStamps.length = c.size
  comments : ∃ texts, c.comments.Clean texts
  merges : ∃ merges, c.HoldsMerges merges ∧ merges.length = c.size
  userRevProps : c.HoldsProps props
  length : props.length = c.size

/-- All columns of a container fit together. -/
structure ConsistentColumns (c : CRevisionInfoContainer) : Prop where
  sound : ∃ props, c.Sound props
  comments : ∃ texts, c.comments.Clean texts ∧ texts.length = c.size

/-- A pass that leaves the user properties alone. -/
structure Passed (c c' : CRevisionInfoContainer) (props : List (List (ℕ × List UInt8))) : Prop where
  sound : c'.Sound props
  pool : c'.userRevPropsPool = c.userRevPropsPool
  size : c'.size = c.size
  paths : c'.paths = c.paths

section

variable {c c' newData : CRevisionInfoContainer} {delimiter : UInt8 → Bool} {m : IndexMapping}
  {flags flag : UInt8} {keep : Bool} {props newProps : List (List (ℕ × List UInt8))}

theorem Sound.refl (h : c.Sound props) : c.Passed c props := ⟨h, rfl, rfl, rfl⟩

theorem Passed.trans {c'' : CRevisionInfoContainer} (h : c.Passed c' props)
    (h' : c'.Passed c'' props) : c.Passed c'' props :=
  ⟨h'.sound, h'.pool.trans h.pool, h'.size.trans h.size, h'.paths.trans h.paths⟩

theorem Sound.presence (h : c.Sound props) : c.presenceFlags.length = c.size := by
  obtain ⟨revs, ht⟩ := h.changes
  rw [ht.flags, ht.size]

theorem Sound.pass (h : c.Sound props) (flags flag : UInt8)
    (f : CRevisionInfoContainer → Except Fault CRevisionInfoContainer)
    (hf : ∃ c', f c = .ok c' ∧ c.Passed c' props) :
    ∃ c', c.pass flags flag f = .ok c' ∧ c.Passed c' props := by
  unfold CRevisionInfoContainer.pass
  split
  · exact hf
  · exact ⟨c, rfl, h.refl⟩

/-! ### New entries -/

/-- New entries have no user properties. -/
theorem Sound.appendNewEntries (delimiter : UInt8 → Bool) (m : IndexMapping) (h : c.Sound props) :
    ∃ c', c.appendNewEntries delimiter m = .ok c' ∧
      c'.Sound (props ++ List.replicate (m.countP fun e => c.size ≤ e.1) []) ∧
      c'.userRevPropsPool = c.userRevPropsPool ∧ c'.paths = c.paths ∧
      c'.size = c.size + m.countP fun e => c.size ≤ e.1 := by
  obtain ⟨revs, ht⟩ := h.changes
  obtain ⟨merges, hmerges, hmergesLen⟩ := h.merges
  generalize hn : (m.countP fun e => c.size ≤ e.1) = n
  have hok : ∃ c', c.appendNewEntries delimiter m = .ok c' := by
    unfold CRevisionInfoContainer.appendNewEntries
    dsimp only
    split
    · exact ⟨_, rfl⟩
    · rw [ht.changes.changesOffsets, ht.changes.copyFromOffsets, hmerges.offsets, h.userRevProps.offsets,
        appendLast_offsets, appendLast_offsets, appendLast_offsets, appendLast_offsets]
      exact ⟨_, rfl⟩
  obtain ⟨c', hc'⟩ := hok
  obtain ⟨ht', hpaths⟩ := ht.appendNewEntries hc'
  have hauthors := h.authors.appendNewEntries hc'
  obtain ⟨rfl, rfl⟩ | ⟨-, _, _, _, _, -, -, hm, hp, rfl⟩ := appendNewEntries_ok hc' hn
  · exact ⟨c', hc', by simpa using h, rfl, rfl, rfl⟩
  rw [hmerges.offsets, appendLast_offsets] at hm
  rw [h.userRevProps.offsets, appendLast_offsets] at hp
  obtain rfl := Except.ok.inj hm
  obtain rfl := Except.ok.inj hp
  have hflat : ∀ {α : Type} (ls : List (List α)), (ls ++ List.replicate n []).flatten = ls.flatten := by
    intro α ls
    simp
  have hall : ∀ {α : Type} {ls : List (List α)} {p : α → Prop}, (∀ l ∈ ls, ∀ x ∈ l, p x) →
      ∀ l ∈ ls ++ List.replicate n [], ∀ x ∈ l, p x := by
    intro α ls p hp l hl
    rcases List.mem_append.mp hl with hl | hl
    · exact hp l hl
    · rw [List.eq_of_mem_replicate hl]
      exact fun x hx => absurd hx List.not_mem_nil
  have hsize : ∀ {α : Type} (ls : List (List α)), ls.length = c.size →
      (ls ++ List.replicate n []).length = (c.authors ++ List.replicate n 0).length := by
    intro α ls hls
    rw [List.length_append, List.length_append, hls, List.length_replicate, List.length_replicate]
    rfl
  refine ⟨_, hc', ⟨⟨_, ht'⟩, hauthors, ?_, ?_, ⟨merges ++ List.replicate n [], ?_, hsize _ hmergesLen⟩,
    ?_, hsize _ h.length⟩, rfl, rfl, ?_⟩
  · show (c.timeStamps ++ _).length = (c.authors ++ _).length
    rw [List.length_append, List.length_append, h.timeStamps, List.length_replicate,
      List.length_replicate]
    rfl
  · obtain ⟨texts, htexts⟩ := h.comments
    refine ⟨texts, ?_⟩
    show CTokenizedStringContainer.Clean (c.comments.insertCount delimiter [] n) texts
    rwa [CTokenizedStringContainer.insertCount_nil]
  · exact ⟨rfl, (hmerges.fromPaths).trans (by rw [hflat]), (hmerges.toPaths).trans (by rw [hflat]),
      (hmerges.starts).trans (by rw [hflat]), (hmerges.deltas).trans (by rw [hflat]),
      hall hmerges.valid⟩
  · exact ⟨h.userRevProps.pool, rfl, (h.userRevProps.names).trans (by rw [hflat]), by
      rw [hflat]
      exact h.userRevProps.values, hall h.userRevProps.known⟩
  · show (c.authors ++ _).length = _
    rw [List.length_append, List.length_replicate]
    rfl

/-! ### The passes over single values -/

theorem store_total {α : Type} {l : List α} {i : ℕ} (hi : i < l.length) (a : α) :
    ∃ l', store l i a = .ok l' ∧ l'.length = l.length :=
  ⟨_, if_pos hi, List.length_set⟩

theorem updateAuthorsLoop_total {mapping authors : List ℕ} (hkeys : ∀ e ∈ m, e.1 < authors.length)
    (hflags : ∀ e ∈ m, e.2 < newData.presenceFlags.length)
    (hauthors : ∀ e ∈ m, ∃ a j, newData.authors[e.2]? = some a ∧ mapping[a]? = some j) :
    ∃ authors', updateAuthorsLoop newData keep mapping m authors = .ok authors' := by
  induction m generalizing authors with
  | nil => exact ⟨authors, rfl⟩
  | cons e m ih =>
    obtain ⟨hkey, hkeys⟩ := List.forall_mem_cons.mp hkeys
    obtain ⟨hflag, hflags⟩ := List.forall_mem_cons.mp hflags
    obtain ⟨⟨a, j, ha, hj⟩, hauthors⟩ := List.forall_mem_cons.mp hauthors
    obtain ⟨l', hl', hlen⟩ := store_total hkey j
    rw [updateAuthorsLoop, supplies_eq hflag]
    simp only [bind, Except.bind]
    split
    · rw [ha]
      simp only [checked]
      rw [hj]
      dsimp only
      rw [hl']
      exact ih (fun e he => hlen ▸ hkeys e he) hflags hauthors
    · exact ih hkeys hflags hauthors

theorem updateTimeStampsLoop_total {timeStamps : List ℤ}
    (hkeys : ∀ e ∈ m, e.1 < timeStamps.length)
    (hflags : ∀ e ∈ m, e.2 < newData.presenceFlags.length)
    (hsource : ∀ e ∈ m, e.2 < newData.timeStamps.length) :
    ∃ timeStamps', updateTimeStampsLoop newData keep m timeStamps = .ok timeStamps' ∧
      timeStamps'.length = timeStamps.length := by
  induction m generalizing timeStamps with
  | nil => exact ⟨timeStamps, rfl, rfl⟩
  | cons e m ih =>
    obtain ⟨hkey, hkeys⟩ := List.forall_mem_cons.mp hkeys
    obtain ⟨hflag, hflags⟩ := List.forall_mem_cons.mp hflags
    obtain ⟨hlt, hsource⟩ := List.forall_mem_cons.mp hsource
    obtain ⟨l', hl', hlen⟩ := store_total hkey newData.timeStamps[e.2]
    rw [updateTimeStampsLoop, supplies_eq hflag]
    simp only [bind, Except.bind]
    split
    · rw [List.getElem?_eq_getElem hlt]
      simp only [checked]
      rw [hl', ← hlen]
      exact ih (fun e he => hlen ▸ hkeys e he) hflags hsource
    · exact ih hkeys hflags hsource

theorem updatePresenceFlagsLoop_total {presenceFlags : List UInt8}
    (hkeys : ∀ e ∈ m, e.1 < presenceFlags.length)
    (hflags : ∀ e ∈ m, e.2 < newData.presenceFlags.length) :
    ∃ presenceFlags', updatePresenceFlagsLoop newData flags keep m presenceFlags =
      .ok presenceFlags' := by
  induction m generalizing presenceFlags with
  | nil => exact ⟨presenceFlags, rfl⟩
  | cons e m ih =>
    obtain ⟨hkey, hkeys⟩ := List.forall_mem_cons.mp hkeys
    obtain ⟨hflag, hflags⟩ := List.forall_mem_cons.mp hflags
    have hnew : newData.getPresenceFlags e.2 = .ok newData.presenceFlags[e.2] := by
      rw [getPresenceFlags, List.getElem?_eq_getElem hflag]
      rfl
    obtain ⟨l', hl', hlen⟩ := store_total hkey (if keep then
      presenceFlags[e.1] ||| newData.presenceFlags[e.2] &&& flags
      else presenceFlags[e.1] &&& ~~~flags ||| newData.presenceFlags[e.2] &&& flags)
    rw [updatePresenceFlagsLoop, hnew]
    simp only [bind, Except.bind]
    rw [List.getElem?_eq_getElem hkey]
    simp only [checked]
    rw [hl']
    exact ih (fun e he => hlen ▸ hkeys e he) hflags

theorem commentsToReplace_eq (hflags : ∀ e ∈ m, e.2 < newData.presenceFlags.length) :
    newData.commentsToReplace keep m = .ok (m.taken (newData.supplied HAS_COMMENT keep)) := by
  induction m with
  | nil => rfl
  | cons e m ih =>
    obtain ⟨hflag, hflags⟩ := List.forall_mem_cons.mp hflags
    rw [commentsToReplace, supplies_eq hflag, ih hflags]
    show _ = Except.ok (List.filter (fun e => newData.supplied HAS_COMMENT keep e.2) (e :: m))
    rw [List.filter_cons]
    rfl

/-! ### Each pass returns -/

theorem Sound.of_columns (h : c.Sound props) (ht : ∃ revs, c'.Tracks revs) (hsize : c'.size = c.size)
    (hauthors : c'.ConsistentAuthors) (htimes : c'.timeStamps.length = c.timeStamps.length)
    (hcomments : ∃ texts, c'.comments.Clean texts)
    (hmerges : ∃ merges, c'.HoldsMerges merges ∧ merges.length = c'.size)
    (hprops : c'.propColumns = c.propColumns) (hpaths : c'.paths = c.paths) : c.Passed c' props where
  sound := ⟨ht, hauthors, by rw [htimes, h.timeStamps, hsize], hcomments, hmerges,
    h.userRevProps.congr hprops, h.length.trans hsize.symm⟩
  pool := congrArg PropColumns.pool hprops
  size := hsize
  paths := hpaths

theorem Sound.updateAuthors (keep : Bool) (h : c.Sound props) (hnew : newData.Sound newProps)
    (hkeys : ∀ e ∈ m, e.1 < c.size) (hsource : ∀ e ∈ m, e.2 < newData.size) :
    ∃ c', c.updateAuthors newData m keep = .ok c' ∧ c.Passed c' props := by
  obtain ⟨revs, ht⟩ := h.changes
  obtain ⟨merges, hmerges, hlen⟩ := h.merges
  obtain ⟨-, -, hall⟩ := h.authors.pool.merge hnew.authors.pool
  obtain ⟨authors, hloop⟩ := @updateAuthorsLoop_total newData m keep
    (c.authorPool.merge newData.authorPool).2 c.authors hkeys
    (fun e he => hnew.presence ▸ hsource e he) fun e he => by
      have hlt : e.2 < newData.authors.length := hsource e he
      obtain ⟨j, hj, -⟩ := hall _ (hnew.authors.authors _ (List.getElem_mem hlt))
      exact ⟨_, j, List.getElem?_eq_getElem hlt, hj⟩
  have hrun : c.updateAuthors newData m keep = .ok { c with
      authorPool := (c.authorPool.merge newData.authorPool).1, authors := authors } := by
    unfold CRevisionInfoContainer.updateAuthors
    dsimp only
    rw [hloop]
    rfl
  have hsame := updateAuthors_same hrun
  exact ⟨_, hrun, h.of_columns ⟨revs, ht.congr hsame⟩ hsame.size
    (h.authors.updateAuthors hnew.authors hrun) rfl h.comments
    ⟨merges, hmerges.congr rfl, hlen.trans hsame.size.symm⟩ rfl rfl⟩

theorem Sound.updateTimeStamps (keep : Bool) (h : c.Sound props) (hnew : newData.Sound newProps)
    (hkeys : ∀ e ∈ m, e.1 < c.size) (hsource : ∀ e ∈ m, e.2 < newData.size) :
    ∃ c', c.updateTimeStamps newData m keep = .ok c' ∧ c.Passed c' props := by
  obtain ⟨revs, ht⟩ := h.changes
  obtain ⟨merges, hmerges, hlen⟩ := h.merges
  obtain ⟨timeStamps, hloop, htimes⟩ := @updateTimeStampsLoop_total newData m keep c.timeStamps
    (fun e he => h.timeStamps ▸ hkeys e he) (fun e he => hnew.presence ▸ hsource e he)
    (fun e he => hnew.timeStamps ▸ hsource e he)
  have hrun : c.updateTimeStamps newData m keep = .ok { c with timeStamps := timeStamps } := by
    unfold CRevisionInfoContainer.updateTimeStamps
    rw [hloop]
    rfl
  have hsame := updateTimeStamps_same hrun
  exact ⟨_, hrun, h.of_columns ⟨revs, ht.congr hsame⟩ rfl (h.authors.congr rfl) htimes h.comments
    ⟨merges, hmerges.congr rfl, hlen⟩ rfl rfl⟩

theorem Sound.updateComments (delimiter : UInt8 → Bool) (keep : Bool) (h : c.Sound props)
    (hnew : newData.ConsistentColumns) (hsource : ∀ e ∈ m, e.2 < newData.size) :
    ∃ c', c.updateComments delimiter newData m keep = .ok c' ∧ c.Passed c' props := by
  obtain ⟨revs, ht⟩ := h.changes
  obtain ⟨merges, hmerges, hlen⟩ := h.merges
  obtain ⟨texts, htexts⟩ := h.comments
  obtain ⟨newProps, hsound⟩ := hnew.sound
  obtain ⟨newTexts, hnewTexts, hnewLen⟩ := hnew.comments
  obtain ⟨comments, hreplace, hclean⟩ := htexts.replace delimiter hnewTexts
    (m := m.taken (newData.supplied HAS_COMMENT keep)) fun e he => by
      rw [hnewLen]
      exact hsource e (List.mem_of_mem_filter he)
  have hrun : c.updateComments delimiter newData m keep = .ok { c with comments := comments } := by
    unfold CRevisionInfoContainer.updateComments
    rw [commentsToReplace_eq fun e he => hsound.presence ▸ hsource e he]
    simp only [bind, Except.bind]
    rw [hreplace]
    rfl
  have hsame := updateComments_same hrun
  exact ⟨_, hrun, h.of_columns ⟨revs, ht.congr hsame⟩ rfl ⟨h.authors.pool, h.authors.empty,
    h.authors.authors⟩ rfl ⟨_, hclean⟩ ⟨merges, hmerges.congr rfl, hlen⟩ rfl rfl⟩

theorem Sound.updateChanges {mapping : List ℕ} (keep : Bool) (h : c.Sound props)
    (hnew : newData.Sound newProps)
    (hmaps : Maps c.paths newData.paths mapping newData.paths.size) (hm : (m.map Prod.fst).Nodup)
    (hsource : ∀ e ∈ m, e.2 < newData.size) :
    ∃ c', c.updateChanges newData m mapping keep = .ok c' ∧ c.Passed c' props := by
  obtain ⟨revs, ht⟩ := h.changes
  obtain ⟨news, hnews⟩ := hnew.changes
  obtain ⟨merges, hmerges, hlen⟩ := h.merges
  obtain ⟨roots, sums, hrun, hholds⟩ := @HoldsChanges.updateChanges c newData m mapping keep news revs
    ht.changes ht.size hnews.changes hmaps hm (fun e he => hnews.size ▸ hsource e he) hnews.flags
  refine ⟨_, hrun, h.of_columns ⟨_, hholds, ?_, ?_⟩ rfl (h.authors.congr rfl) rfl h.comments
    ⟨merges, hmerges.congr rfl, hlen⟩ rfl rfl⟩
  · rw [IndexMapping.splice_length]
    exact ht.size
  · rw [IndexMapping.splice_length]
    exact ht.flags

theorem Sound.updateMergers {mapping : List ℕ} (keep : Bool) (h : c.Sound props)
    (hnew : newData.Sound newProps)
    (hmaps : Maps c.paths newData.paths mapping newData.paths.size) (hm : (m.map Prod.fst).Nodup)
    (hsource : ∀ e ∈ m, e.2 < newData.size) :
    ∃ c', c.updateMergers newData m mapping keep = .ok c' ∧ c.Passed c' props := by
  obtain ⟨revs, ht⟩ := h.changes
  obtain ⟨news, hnews⟩ := hnew.changes
  obtain ⟨merges, hmerges, hlen⟩ := h.merges
  obtain ⟨newMerges, hnewMerges, hnewLen⟩ := hnew.merges
  obtain ⟨hrun, hholds⟩ := @HoldsMerges.updateMergers c newData merges newMerges m mapping keep hmerges
    hlen.symm hnewMerges hmaps hnews.changes.built hm (fun e he => hnewLen ▸ hsource e he)
    (hnew.presence.trans hnewLen.symm)
  have hsame := updateMergers_same hrun
  refine ⟨_, hrun, h.of_columns ⟨revs, ht.congr hsame⟩ rfl (h.authors.congr rfl) rfl h.comments
    ⟨_, hholds, ?_⟩ rfl rfl⟩
  rw [IndexMapping.splice_length]
  exact hlen

theorem Sound.extends (h : c.Sound props) {d' : CPathDictionary} (hd' : d'.Built)
    (hext : c.paths.Extends d') : ({ c with paths := d' } : CRevisionInfoContainer).Sound props := by
  obtain ⟨revs, ht⟩ := h.changes
  obtain ⟨merges, hmerges, hlen⟩ := h.merges
  exact ⟨⟨revs, ht.extends hd' hext⟩, h.authors.congr rfl, h.timeStamps, h.comments,
    ⟨merges, ⟨hmerges.offsets, hmerges.fromPaths, hmerges.toPaths, hmerges.starts, hmerges.deltas,
      fun rev hrev x hx => (hmerges.valid rev hrev x hx).extends ht.changes.built hext⟩, hlen⟩,
    h.userRevProps.congr rfl, h.length⟩

/-- All that `Update` does before the pass over the user properties. -/
theorem Sound.update_eq (delimiter : UInt8 → Bool) (flags : UInt8) (keep : Bool) (h : c.Sound props)
    (hnew : newData.ConsistentColumns) (hm : m.WellFormed c.size newData.size) :
    ∃ c₆ : CRevisionInfoContainer, c₆.Sound (props ++ List.replicate (m.countP fun e => c.size ≤ e.1) []) ∧
      c₆.userRevPropsPool = c.userRevPropsPool ∧
      (c₆.size = c.size + m.countP fun e => c.size ≤ e.1) ∧
      c.update delimiter newData m flags keep = (do
        let c ← c₆.pass flags HAS_USERREVPROPS (updateUserRevProps delimiter · newData m keep)
        c.updatePresenceFlags newData m flags keep) := by
  obtain ⟨newProps, hsound⟩ := hnew.sound
  obtain ⟨news, hnews⟩ := hsound.changes
  obtain ⟨c₀, happend, h₀, hpool₀, -, hsize₀⟩ := h.appendNewEntries delimiter m
  obtain ⟨revs, ht⟩ := h₀.changes
  obtain ⟨d', mapping, hmerge, hbuilt, hext, hmaps⟩ := ht.changes.built.merge_spec hnews.changes.built
  have h₁ := h₀.extends hbuilt hext
  have hsize₁ : ({ c₀ with paths := d' } : CRevisionInfoContainer).size =
      c.size + m.countP fun e => c.size ≤ e.1 := hsize₀
  have hkeys : ∀ {c' : CRevisionInfoContainer},
      c'.size = ({ c₀ with paths := d' } : CRevisionInfoContainer).size → ∀ e ∈ m, e.1 < c'.size := by
    intro c' hc' e he
    rw [hc', hsize₁]
    exact hm.key_lt he
  -- the passes
  obtain ⟨c₂, hauthors, hp₂⟩ := h₁.pass flags HAS_AUTHOR (fun c => c.updateAuthors newData m keep)
    (h₁.updateAuthors keep hsound (hkeys rfl) hm.source)
  obtain ⟨c₃, htimes, hp₃⟩ := hp₂.sound.pass flags HAS_TIME_STAMP (fun c => c.updateTimeStamps newData m keep)
    (hp₂.sound.updateTimeStamps keep hsound (hkeys hp₂.size) hm.source)
  obtain ⟨c₄, hcomments, hp₄⟩ := hp₃.sound.pass flags HAS_COMMENT
    (fun c => c.updateComments delimiter newData m keep)
    (hp₃.sound.updateComments delimiter keep hnew hm.source)
  have hto₄ := (hp₂.trans hp₃).trans hp₄
  have hmaps₄ : Maps c₄.paths newData.paths mapping newData.paths.size := hto₄.paths ▸ hmaps
  obtain ⟨c₅, hchanges, hp₅⟩ := hp₄.sound.pass flags HAS_CHANGEDPATHS
    (fun c => c.updateChanges newData m mapping keep)
    (hp₄.sound.updateChanges keep hsound hmaps₄ hm.unique hm.source)
  have hmaps₅ : Maps c₅.paths newData.paths mapping newData.paths.size := hp₅.paths ▸ hmaps₄
  obtain ⟨c₆, hmergers, hp₆⟩ := hp₅.sound.pass flags HAS_MERGEINFO
    (fun c => c.updateMergers newData m mapping keep)
    (hp₅.sound.updateMergers keep hsound hmaps₅ hm.unique hm.source)
  have hto₆ := (hto₄.trans hp₅).trans hp₆
  refine ⟨c₆, hp₆.sound, hto₆.pool.trans hpool₀, hto₆.size.trans hsize₁, ?_⟩
  unfold CRevisionInfoContainer.update
  simp only [bind, Except.bind]
  rw [happend]
  dsimp only
  rw [hmerge]
  dsimp only
  rw [hauthors]
  dsimp only
  rw [htimes]
  dsimp only
  rw [hcomments]
  dsimp only
  rw [hchanges]
  dsimp only
  rw [hmergers]

/-! ### The user properties behind an update -/

/-- What an update is meant to do to the user properties: an entry whose properties are taken over has
those of its source, the others have the ones that they had, and there is a value for each name. -/
structure UserRevPropsUpdated (c newData : CRevisionInfoContainer) (m : IndexMapping)
    (keepOldDataForMissingNew : Bool) (c' : CRevisionInfoContainer) : Prop where
  taken : ∀ i s, m.find i = some s →
    newData.supplied HAS_USERREVPROPS keepOldDataForMissingNew s = true →
      c'.userRevPropsOf i = newData.userRevPropsOf s
  kept : ∀ i < c'.size, (∀ s, m.find i = some s →
    newData.supplied HAS_USERREVPROPS keepOldDataForMissingNew s = false) →
      c'.userRevPropsOf i = if i < c.size then c.userRevPropsOf i else .ok []
  values : c'.userRevPropValues.offsets.length = c'.userRevPropNames.length + 1

/-- No entry that keeps user properties stands behind one that takes over others. -/
def KeepsBeforeTakes (c newData : CRevisionInfoContainer) (m : IndexMapping)
    (keepOldDataForMissingNew : Bool) : Prop :=
  ∀ i k s, i < k → k < c.size → m.find i = some s →
    newData.supplied HAS_USERREVPROPS keepOldDataForMissingNew s = true →
    newData.userRevPropsOf s ≠ .ok [] → (∀ t, m.find k = some t →
      newData.supplied HAS_USERREVPROPS keepOldDataForMissingNew t = false) →
    c.userRevPropsOf k = .ok []

theorem find_taken_some (hm : (m.map Prod.fst).Nodup) {p : ℕ → Bool} {i s : ℕ} :
    (m.taken p).find i = some s ↔ m.find i = some s ∧ p s = true := by
  rw [IndexMapping.find_taken hm, Option.filter_eq_some_iff]

theorem find_taken_none (hm : (m.map Prod.fst).Nodup) {p : ℕ → Bool} {i : ℕ} :
    (m.taken p).find i = none ↔ ∀ s, m.find i = some s → p s = false := by
  rw [IndexMapping.find_taken hm, Option.filter_eq_none_iff]
  simp only [Bool.not_eq_true]

theorem HoldsProps.userRevPropsOf_getD (h : c.HoldsProps props) {i : ℕ} (hi : i < props.length) :
    c.userRevPropsOf i =
      .ok ((props.getD i []).map fun p => (c.userRevPropsPool.get p.1, p.2)) := by
  refine h.userRevPropsOf_eq ?_
  rw [List.getD_eq_getElem?_getD, List.getElem?_eq_getElem hi]
  rfl

theorem HoldsProps.userRevPropsOf_eq_nil (h : c.HoldsProps props) {i : ℕ} (hi : i < props.length) :
    c.userRevPropsOf i = .ok [] ↔ props.getD i [] = [] := by
  rw [h.userRevPropsOf_getD hi, Except.ok.injEq, List.map_eq_nil_iff]

/-- New entries are appended to the lists of properties. -/
theorem getD_appended {i : ℕ} (n : ℕ) (props : List (List (ℕ × List UInt8))) :
    (props ++ List.replicate n []).getD i [] = props.getD i [] := by
  simp only [List.getD_eq_getElem?_getD]
  rcases lt_or_ge i props.length with hlt | hge
  · rw [List.getElem?_append_left hlt]
  · rw [List.getElem?_append_right hge, List.getElem?_eq_none hge, List.getElem?_replicate]
    split <;> rfl

/-- The condition, in terms of the lists of properties. -/
theorem keepsBeforeTakes_iff (h : c.Sound props) (hnew : newData.Sound newProps)
    (hm : m.WellFormed c.size newData.size) (n : ℕ) : c.KeepsBeforeTakes newData m keep ↔
      Slot.KeptFirst (valueSlots newData m keep (props ++ List.replicate n []) newProps).flatten := by
  rw [keptFirst_iff]
  have hsource : ∀ {i s}, m.find i = some s → s < newProps.length := fun hi =>
    hnew.length ▸ hm.source _ (IndexMapping.mem_of_find hi)
  constructor
  · intro hcond i k s hik hk hi hne hnone
    obtain ⟨hi, hs⟩ := (find_taken_some hm.unique).mp hi
    rw [getD_appended]
    rcases lt_or_ge k props.length with hlt | hge
    · rw [← h.userRevProps.userRevPropsOf_eq_nil hlt]
      exact hcond i k s hik (h.length ▸ hlt) hi hs
        (mt (hnew.userRevProps.userRevPropsOf_eq_nil (hsource hi)).mp hne)
        ((find_taken_none hm.unique).mp hnone)
    · rw [List.getD_eq_getElem?_getD, List.getElem?_eq_none hge]
      rfl
  · intro hcond i k s hik hk hi hs hne hnone
    have hlt : k < props.length := h.length ▸ hk
    rw [h.userRevProps.userRevPropsOf_eq_nil hlt, ← getD_appended n]
    exact hcond i k s hik (by rw [List.length_append]; omega)
      ((find_taken_some hm.unique).mpr ⟨hi, hs⟩)
      (mt (hnew.userRevProps.userRevPropsOf_eq_nil (hsource hi)).mpr hne)
      ((find_taken_none hm.unique).mpr hnone)

/-- Spliced properties are read as those of the entry that they come from. -/
theorem updated_of_holds {n : ℕ} {c₆ : CRevisionInfoContainer} (h : c.Sound props)
    (hnew : newData.Sound newProps) (hm : m.WellFormed c.size newData.size)
    (hn : (m.countP fun e => c.size ≤ e.1) = n) (h₆ : c₆.HoldsProps (props ++ List.replicate n []))
    (hpool : c₆.userRevPropsPool = c.userRevPropsPool) (hsize : c'.size = c.size + n)
    (hpool' : c'.userRevPropsPool = (c₆.userRevPropsPool.merge newData.userRevPropsPool).1)
    (hc' : c'.HoldsProps (splicedProps newData m keep
      (c₆.userRevPropsPool.merge newData.userRevPropsPool).2 (props ++ List.replicate n []) newProps)) :
    c.UserRevPropsUpdated newData m keep c' := by
  obtain ⟨-, hext, hall⟩ := h₆.pool.merge hnew.userRevProps.pool
  have hlen : (props ++ List.replicate n []).length = c'.size := by
    rw [List.length_append, List.length_replicate, h.length, hsize]
  have hread : ∀ {i rev}, (props ++ List.replicate n [])[i]? = some rev → c'.userRevPropsOf i =
      .ok (((((m.taken (newData.supplied HAS_USERREVPROPS keep)).find i).map fun s =>
        (newProps.getD s []).map (translateProp
          (c₆.userRevPropsPool.merge newData.userRevPropsPool).2)).getD rev).map
            fun p => (c'.userRevPropsPool.get p.1, p.2)) := by
    intro i rev hi
    refine hc'.userRevPropsOf_eq ?_
    rw [splicedProps, IndexMapping.splice_getElem?, hi, Nat.zero_add]
    rfl
  have hentry : ∀ {i}, i < c'.size → (props ++ List.replicate n [])[i]? = some (props.getD i []) := by
    intro i hi
    have hget := getD_appended (i := i) n props
    rw [List.getD_eq_getElem?_getD, List.getElem?_eq_getElem (hlen ▸ hi)] at hget
    rw [← hget, List.getElem?_eq_getElem (hlen ▸ hi)]
    rfl
  refine ⟨fun i s hi hs => ?_, fun i hi hnot => ?_, ?_⟩
  · have hlt := hm.key_lt (IndexMapping.mem_of_find hi)
    rw [hn, ← hsize] at hlt
    have hslt : s < newProps.length := hnew.length ▸ hm.source _ (IndexMapping.mem_of_find hi)
    rw [hread (hentry hlt), (find_taken_some hm.unique).mpr ⟨hi, hs⟩, Option.map_some,
      Option.getD_some, hnew.userRevProps.userRevPropsOf_getD hslt, List.map_map]
    congr 1
    refine List.map_congr_left fun p hp => ?_
    have hknown := hnew.userRevProps.known (newProps.getD s []) (by
      rw [List.getD_eq_getElem?_getD, List.getElem?_eq_getElem hslt]
      exact List.getElem_mem hslt) p hp
    obtain ⟨j, hj, -, hname⟩ := hall p.1 hknown
    show (c'.userRevPropsPool.get (List.getD _ p.1 0), p.2) = _
    rw [List.getD_eq_getElem?_getD, hj, hpool', Option.getD_some, hname]
  · rw [hread (hentry hi), (find_taken_none hm.unique).mpr hnot, Option.map_none, Option.getD_none]
    split
    · rename_i hlt
      rw [h.userRevProps.userRevPropsOf_getD (h.length ▸ hlt)]
      congr 1
      refine List.map_congr_left fun p hp => ?_
      have hknown := h₆.known (props.getD i []) (List.mem_of_getElem? (hentry hi)) p hp
      rw [hpool', hext.get _ hknown, hpool]
    · rename_i hge
      rw [List.getD_eq_getElem?_getD, List.getElem?_eq_none (h.length ▸ Nat.le_of_not_lt hge)]
      rfl
  · rw [hc'.values.length_offsets, hc'.names, List.length_map, List.length_map]

/-- **`Update` returns, and the user properties behind it are the intended ones if and only if** no entry
that keeps some stands behind one that takes over others. -/
theorem update_userRevProps_iff (delimiter : UInt8 → Bool) (keep : Bool) (h : c.ConsistentColumns)
    (hnew : newData.ConsistentColumns) (hm : m.WellFormed c.size newData.size)
    (hflags : flags &&& HAS_USERREVPROPS ≠ 0) :
    ∃ c', c.update delimiter newData m flags keep = .ok c' ∧
      (c.UserRevPropsUpdated newData m keep c' ↔ c.KeepsBeforeTakes newData m keep) := by
  obtain ⟨props, hsound⟩ := h.sound
  obtain ⟨newProps, hnewSound⟩ := hnew.sound
  generalize hn : (m.countP fun e => c.size ≤ e.1) = n
  obtain ⟨c₆, h₆, hpool, hsize, hupdate⟩ := hsound.update_eq delimiter flags keep hnew hm
  rw [hn] at h₆ hsize
  obtain ⟨values, hprops, hclean⟩ := @HoldsProps.updateUserRevProps c₆ newData
    (props ++ List.replicate n []) newProps m _ keep delimiter h₆.userRevProps h₆.length.symm
    hnewSound.userRevProps hm.unique (fun e he => hnewSound.length ▸ hm.source e he)
    (hnewSound.presence.trans hnewSound.length.symm) rfl
  obtain ⟨presenceFlags, hpresence⟩ := @updatePresenceFlagsLoop_total newData m flags keep
    c₆.presenceFlags (fun e he => by
      rw [h₆.presence, hsize, ← hn]
      exact hm.key_lt he) fun e he => hnewSound.presence ▸ hm.source e he
  rw [CRevisionInfoContainer.pass, if_pos hflags, hprops] at hupdate
  simp only [bind, Except.bind] at hupdate
  unfold CRevisionInfoContainer.updatePresenceFlags at hupdate
  dsimp only at hupdate
  rw [hpresence] at hupdate
  refine ⟨_, hupdate, ?_⟩
  rw [keepsBeforeTakes_iff hsound hnewSound hm n]
  constructor
  · intro hupdated
    have hvalues := hupdated.values
    rw [hclean.length_offsets] at hvalues
    refine Slot.keptFirst_of_length _ _ ((Nat.succ_injective hvalues).trans ?_)
    rw [List.length_map, ← valueSlots_map fun e he => hnewSound.length ▸ hm.source e he,
      ← List.map_flatten, List.length_map]
  · intro hfirst
    have hholds := h₆.userRevProps.of_keptFirst hnewSound.userRevProps
      (fun e he => hnewSound.length ▸ hm.source e he) rfl hclean hfirst
    exact updated_of_holds hsound hnewSound hm hn h₆.userRevProps hpool hsize rfl (hholds.congr rfl)

/-! ### ConsistentColumns containers -/

theorem init_consistent : init.ConsistentColumns where
  sound := ⟨[], ⟨[], init_tracks⟩, init_authors, rfl,
    ⟨[], CTokenizedStringContainer.init_clean⟩,
    ⟨[], ⟨rfl, rfl, rfl, rfl, rfl, fun _ hrev => absurd hrev List.not_mem_nil⟩, rfl⟩,
    ⟨.init, rfl, rfl, CTokenizedStringContainer.init_clean,
      fun _ hrev => absurd hrev List.not_mem_nil⟩, rfl⟩
  comments := ⟨[], CTokenizedStringContainer.init_clean, rfl⟩

/-- A new revision. -/
theorem ConsistentColumns.insert (h : c.ConsistentColumns) {author comment : List UInt8} {timeStamp : ℤ} {index : ℕ}
    (hcomment : (0 : UInt8) ∉ comment)
    (hc : c.insert delimiter author comment timeStamp flags = .ok (c', index)) : c'.ConsistentColumns := by
  obtain ⟨props, hsound⟩ := h.sound
  obtain ⟨texts, htexts, htextsLen⟩ := h.comments
  obtain ⟨revs, ht⟩ := hsound.changes
  obtain ⟨merges, hmerges, hlen⟩ := hsound.merges
  have ht' := ht.insert hc
  have hauthors := hsound.authors.insert hc
  obtain ⟨_, _, _, _, -, -, hm, hp, -, rfl⟩ := insert_ok hc
  rw [hmerges.offsets, pushBackLast_offsets] at hm
  rw [hsound.userRevProps.offsets, pushBackLast_offsets] at hp
  obtain rfl := Except.ok.inj hm
  obtain rfl := Except.ok.inj hp
  have hflat : ∀ {α : Type} (ls : List (List α)), (ls ++ [[]]).flatten = ls.flatten := by
    intro α ls
    simp
  have hall : ∀ {α : Type} {ls : List (List α)} {p : α → Prop}, (∀ l ∈ ls, ∀ x ∈ l, p x) →
      ∀ l ∈ ls ++ [[]], ∀ x ∈ l, p x := by
    intro α ls p hp
    exact forall_mem_concat.mpr ⟨hp, fun x hx => absurd hx List.not_mem_nil⟩
  have hsize : ∀ {α : Type} (ls : List α) (a : α), ls.length = c.size →
      (ls ++ [a]).length = (c.authors ++ [(c.authorPool.autoInsert (author.takeWhile (· ≠ 0))).2]).length := by
    intro α ls a hls
    rw [List.length_append, List.length_append, hls]
    rfl
  have hclean := htexts.insert delimiter hcomment
  exact ⟨⟨props ++ [[]], ⟨_, ht'⟩, hauthors, hsize _ _ hsound.timeStamps, ⟨_, hclean⟩,
    ⟨merges ++ [[]], ⟨rfl, hmerges.fromPaths.trans (by rw [hflat]),
      hmerges.toPaths.trans (by rw [hflat]), hmerges.starts.trans (by rw [hflat]),
      hmerges.deltas.trans (by rw [hflat]), hall hmerges.valid⟩, hsize _ _ hlen⟩,
    ⟨hsound.userRevProps.pool, rfl, hsound.userRevProps.names.trans (by rw [hflat]), by
      rw [hflat]
      exact hsound.userRevProps.values, hall hsound.userRevProps.known⟩, hsize _ _ hsound.length⟩,
    ⟨_, hclean, hsize _ _ htextsLen⟩⟩

theorem insert_pos {author comment : List UInt8} {timeStamp : ℤ} {index : ℕ}
    (hc : c.insert delimiter author comment timeStamp flags = .ok (c', index)) : 0 < c'.size := by
  obtain ⟨_, _, _, _, -, -, -, -, -, rfl⟩ := insert_ok hc
  show 0 < (c.authors ++ [_]).length
  rw [List.length_append]
  exact Nat.succ_pos _

/-- One more user property of the last revision. -/
theorem ConsistentColumns.addUserRevProp (h : c.ConsistentColumns) {revProp value : List UInt8}
    (hpos : 0 < c.size) (hvalue : (0 : UInt8) ∉ value)
    (hc : c.addUserRevProp delimiter revProp value = .ok c') : c'.ConsistentColumns := by
  obtain ⟨props, hsound⟩ := h.sound
  obtain ⟨revs, ht⟩ := hsound.changes
  obtain ⟨merges, hmerges, hlen⟩ := hsound.merges
  have hprops := hsound.userRevProps
  unfold CRevisionInfoContainer.addUserRevProp at hc
  split at hc
  · cases hc
  obtain ⟨offsets, hoffsets, hc⟩ := bind_eq_ok.mp hc
  obtain rfl := Except.ok.inj hc
  obtain ⟨hunique, hext, hlt, -⟩ := hprops.pool.autoInsert (nulFree_takeWhile revProp)
  rcases List.eq_nil_or_concat props with rfl | ⟨front, rev, rfl⟩
  · exact absurd hsound.length.symm hpos.ne'
  rw [List.concat_eq_append] at hprops hsound
  rw [hprops.offsets, modifyBack_offsets front rev
    ((c.userRevPropsPool.autoInsert (revProp.takeWhile (· ≠ 0))).2, value)] at hoffsets
  have hflat : (front ++ [rev ++ [((c.userRevPropsPool.autoInsert (revProp.takeWhile (· ≠ 0))).2,
      value)]]).flatten = (front ++ [rev]).flatten ++
        [((c.userRevPropsPool.autoInsert (revProp.takeWhile (· ≠ 0))).2, value)] := by
    simp
  have hsame : c.SameChanges { c with
      userRevPropOffsets := offsets
      userRevPropsPool := (c.userRevPropsPool.autoInsert (revProp.takeWhile (· ≠ 0))).1
      userRevPropNames := c.userRevPropNames ++
        [(c.userRevPropsPool.autoInsert (revProp.takeWhile (· ≠ 0))).2]
      userRevPropValues := c.userRevPropValues.insert delimiter value } := ⟨rfl, rfl, rfl⟩
  refine ⟨⟨front ++ [rev ++ [((c.userRevPropsPool.autoInsert (revProp.takeWhile (· ≠ 0))).2, value)]],
    ⟨revs, ht.congr hsame⟩, ⟨hsound.authors.pool, hsound.authors.empty, hsound.authors.authors⟩,
    hsound.timeStamps, hsound.comments, ⟨merges, hmerges.congr rfl, hlen⟩,
    ⟨hunique, (Except.ok.inj hoffsets).symm, ?_, ?_, ?_⟩, ?_⟩, h.comments⟩
  · rw [hflat, List.map_append, ← hprops.names]
    rfl
  · rw [hflat, List.map_append]
    exact hprops.values.insert delimiter hvalue
  · obtain ⟨hfront, hrev⟩ := forall_mem_concat.mp hprops.known
    refine forall_mem_concat.mpr ⟨fun l hl p hp => (hfront l hl p hp).trans_le hext.size, ?_⟩
    exact forall_mem_concat.mpr ⟨fun p hp => (hrev p hp).trans_le hext.size, hlt⟩
  · have hlength := hsound.length
    rw [List.length_append] at hlength ⊢
    exact hlength

/-- Two revisions, of which the second has a user property. -/
def twoRevisions : Except Fault CRevisionInfoContainer := do
  let r ← init.insert (fun _ => false) [] [] 0 0
  let r ← r.1.insert (fun _ => false) [] [] 0 HAS_USERREVPROPS
  r.1.addUserRevProp (fun _ => false) [112] [119]

/-- One revision with a user property. -/
def oneRevision : Except Fault CRevisionInfoContainer := do
  let r ← init.insert (fun _ => false) [] [] 0 HAS_USERREVPROPS
  r.1.addUserRevProp (fun _ => false) [112] [118]

theorem twoRevisions_consistent {c : CRevisionInfoContainer} (hc : twoRevisions = .ok c) :
    c.ConsistentColumns := by
  obtain ⟨⟨c₁, i₁⟩, hc₁, hc⟩ := bind_eq_ok.mp hc
  obtain ⟨⟨c₂, i₂⟩, hc₂, hc⟩ := bind_eq_ok.mp hc
  have h₂ := (init_consistent.insert List.not_mem_nil hc₁).insert List.not_mem_nil hc₂
  exact h₂.addUserRevProp (insert_pos hc₂) (by decide) hc

theorem oneRevision_consistent {c : CRevisionInfoContainer} (hc : oneRevision = .ok c) :
    c.ConsistentColumns := by
  obtain ⟨⟨c₁, i₁⟩, hc₁, hc⟩ := bind_eq_ok.mp hc
  exact (init_consistent.insert List.not_mem_nil hc₁).addUserRevProp (insert_pos hc₁) (by decide) hc

/-- An update of the first revision takes the value of the second one away. -/
theorem update_loses_userRevProps : ¬ ∀ (delimiter : UInt8 → Bool)
    (c newData c' : CRevisionInfoContainer) (m : IndexMapping) (flags : UInt8) (keep : Bool),
    c.ConsistentColumns → newData.ConsistentColumns → m.WellFormed c.size newData.size →
    flags &&& HAS_USERREVPROPS ≠ 0 → c.update delimiter newData m flags keep = .ok c' →
    c.UserRevPropsUpdated newData m keep c' := by
  intro h
  have hrun : (do
      let c ← twoRevisions
      let n ← oneRevision
      let c' ← c.update (fun _ => false) n [(0, 0)] HAS_USERREVPROPS false
      pure (c.size, n.size, c'.userRevPropValues.offsets.length, c'.userRevPropNames.length)) =
        (.ok (2, 1, 2, 2) : Except Fault _) := by
    decide +kernel
  simp only [bind_eq_ok] at hrun
  obtain ⟨c, hc, n, hn, c', hc', hsizes⟩ := hrun
  simp only [pure, Except.pure, Except.ok.injEq, Prod.mk.injEq] at hsizes
  obtain ⟨hcsize, hnsize, hvalues, hnames⟩ := hsizes
  have hm : IndexMapping.WellFormed [(0, 0)] c.size n.size := by
    rw [hcsize, hnsize]
    exact ⟨by decide, by decide, by decide⟩
  have hupdated := h (fun _ => false) c n c' [(0, 0)] HAS_USERREVPROPS false
    (twoRevisions_consistent hc) (oneRevision_consistent hn) hm (by decide) hc'
  have hlengths := hupdated.values
  omega

theorem update_userRevProps_second : ∃ c newData c', twoRevisions = .ok c ∧ oneRevision = .ok newData ∧
    c.update (fun _ => false) newData [(1, 0)] HAS_USERREVPROPS true = .ok c' ∧
    c.UserRevPropsUpdated newData [(1, 0)] true c' := by
  have hrun : (do
      let c ← twoRevisions
      let n ← oneRevision
      pure (c.size, n.size)) = (.ok (2, 1) : Except Fault _) := by
    decide +kernel
  simp only [bind_eq_ok] at hrun
  obtain ⟨c, hc, n, hn, hsizes⟩ := hrun
  simp only [pure, Except.pure, Except.ok.injEq, Prod.mk.injEq] at hsizes
  have hm : IndexMapping.WellFormed [(1, 0)] c.size n.size := by
    rw [hsizes.1, hsizes.2]
    exact ⟨by decide, by decide, by decide⟩
  obtain ⟨c', hc', hiff⟩ := update_userRevProps_iff (fun _ => false) true
    (twoRevisions_consistent hc) (oneRevision_consistent hn) hm
    (show HAS_USERREVPROPS &&& HAS_USERREVPROPS ≠ 0 by decide)
  refine ⟨c, n, c', hc, hn, hc', hiff.mpr fun i k s hik hk hi => ?_⟩
  -- only the last revision is taken over
  have hmem := IndexMapping.mem_of_find hi
  simp only [List.mem_singleton, Prod.mk.injEq] at hmem
  omega

end

end CRevisionInfoContainer

end TortoiseSvn.LogCache
