import TortoiseSvn.LogCache.CachedLogInfo
import TortoiseSvn.LogCache.ColumnLengths
import TortoiseSvn.LogCache.ContainerUpdate

/-!
# The comments of the cached revisions

All columns of the container are meant to have an entry for each revision, the comments among them, and the
comment of a revision is the last one that a call supplied for it. `Update` does not append comments for
revisions that come without one, and `AddRevProp` does not take the tokens of an old comment away.

Main result: `comments_run`. As long as every new revision comes with its comment, and log messages are added
to revisions without a comment only, the columns stay aligned and the comments are the right ones.
-/

namespace TortoiseSvn.LogCache

open TortoiseSvn.Lib

/-- Every column has an entry for each revision, and every offset table one more. -/
structure CRevisionInfoContainer.Aligned (c : CRevisionInfoContainer) : Prop where
  presenceFlags : c.presenceFlags.length = c.size
  comments : c.comments.size = c.size
  timeStamps : c.timeStamps.length = c.size
  rootPaths : c.rootPaths.length = c.size
  sumChanges : c.sumChanges.length = c.size
  changesOffsets : c.changesOffsets.length = c.size + 1
  copyFromOffsets : c.copyFromOffsets.length = c.size + 1
  mergedRevisionsOffsets : c.mergedRevisionsOffsets.length = c.size + 1
  userRevPropOffsets : c.userRevPropOffsets.length = c.size + 1

namespace CCachedLogInfo

open CRevisionInfoContainer

/-! ### Runs -/

/-- The comment of each revision. -/
abbrev Comments := ℕ → List UInt8

/-- A call that changes a cache. -/
inductive Call where
  | insert (revision : ℕ) (author comment : List UInt8) (timeStamp : ℤ) (flags : UInt8)
  | addChange (action : TChangeAction) (pathType : ℕ) (path fromPath : List UInt8) (fromRevision : ℕ)
      (textModified propsModified : UInt8)
  | addRevProp (revProp value : List UInt8)
  | update (newData : CCachedLogInfo) (flags : UInt8) (keepOldDataForMissingNew : Bool)

/-- The comments behind `AddRevProp`: a log message is that of the last revision. -/
def afterRevProp (l : CCachedLogInfo) (revProp value : List UInt8) (comments : Comments) : Comments :=
  fun r => if revProp = svnLog ∧ l.revisions.get r = ((l.logInfo.size - 1 : ℕ) : Index) then value
    else comments r

/-- Whether an update takes the comment of a revision over from the other cache. -/
def suppliesComment (newData : CCachedLogInfo) (flags : UInt8) (keepOldDataForMissingNew : Bool)
    (r : ℕ) : Bool :=
  match newData.revisions.get r with
  | ⊤ => false
  | (s : ℕ) => flags &&& HAS_COMMENT ≠ 0 ∧
    newData.logInfo.supplied HAS_COMMENT keepOldDataForMissingNew s

/-- The comments behind an update. -/
def afterUpdate (newData : CCachedLogInfo) (flags : UInt8) (keepOldDataForMissingNew : Bool)
    (newComments comments : Comments) : Comments :=
  fun r => if newData.suppliesComment flags keepOldDataForMissingNew r then newComments r
    else comments r

/-- The caches that a sequence of calls leads to, each with the comments that were supplied last. In every
state `l` the next call satisfies `P l`. Revisions are not negative as signed numbers. -/
inductive Run (delimiter : UInt8 → Bool) (dateOf : List UInt8 → ℤ) (P : CCachedLogInfo → Call → Prop) :
    CCachedLogInfo → Comments → Prop
  | init : Run delimiter dateOf P .init fun _ => []
  | insert {l l' : CCachedLogInfo} {comments : Comments} {revision : ℕ} {author comment : List UInt8}
      {timeStamp : ℤ} {flags : UInt8} : Run delimiter dateOf P l comments → revision < 2 ^ 31 →
      P l (.insert revision author comment timeStamp flags) →
      l.insert delimiter revision author comment timeStamp flags = .ok l' →
      Run delimiter dateOf P l' (Function.update comments revision comment)
  | addChange {l l' : CCachedLogInfo} {comments : Comments} {action : TChangeAction} {pathType : ℕ}
      {path fromPath : List UInt8} {fromRevision : ℕ} {textModified propsModified : UInt8} :
      Run delimiter dateOf P l comments →
      P l (.addChange action pathType path fromPath fromRevision textModified propsModified) →
      l.addChange action pathType path fromPath fromRevision textModified propsModified = .ok l' →
      Run delimiter dateOf P l' comments
  | addRevProp {l l' : CCachedLogInfo} {comments : Comments} {revProp value : List UInt8} :
      Run delimiter dateOf P l comments → P l (.addRevProp revProp value) →
      l.addRevProp delimiter dateOf revProp value = .ok l' →
      Run delimiter dateOf P l' (l.afterRevProp revProp value comments)
  | update {l l' newData : CCachedLogInfo} {comments newComments : Comments} {flags : UInt8}
      {keepOldDataForMissingNew : Bool} : Run delimiter dateOf P l comments →
      Run delimiter dateOf P newData newComments →
      P l (.update newData flags keepOldDataForMissingNew) →
      l.update delimiter newData flags keepOldDataForMissingNew = .ok l' →
      Run delimiter dateOf P l' (newData.afterUpdate flags keepOldDataForMissingNew newComments comments)

/-- Comments are without terminators, a log message is added to a revision without one, and an update
supplies the comments of all revisions that are new. -/
def KeepsComments (l : CCachedLogInfo) : Call → Prop
  | .insert _ _ comment _ _ => (0 : UInt8) ∉ comment
  | .addChange .. => True
  | .addRevProp revProp value => revProp = svnLog → (0 : UInt8) ∉ value ∧ l.logInfo.comments.LastEmpty
  | .update newData flags keepOldDataForMissingNew => ∀ r < 2 ^ 32, l.revisions.get r = ⊤ →
    newData.revisions.get r ≠ ⊤ → newData.suppliesComment flags keepOldDataForMissingNew r = true

/-! ### One call -/

/-- The comments of the revisions are those of the container. -/
structure Recorded (l : CCachedLogInfo) (comments : Comments) : Prop where
  indexed : Indexed l.revisions l.logInfo.size
  lengths : l.logInfo.HasLength l.logInfo.size
  texts : ∃ texts, l.logInfo.comments.Clean texts ∧ texts.length = l.logInfo.size ∧
    ∀ r (n : ℕ), l.revisions.entry r = (n : Index) → texts[n]? = some (comments r)

section

variable {l l' newData : CCachedLogInfo} {comments newComments : Comments} {delimiter : UInt8 → Bool}
  {dateOf : List UInt8 → ℤ} {flags : UInt8} {keep : Bool}

theorem Indexed.get_eq {revisions : CRevisionIndex} {size r : ℕ} (h : Indexed revisions size)
    (hr : r < 2 ^ 32) : revisions.get r = revisions.entry r :=
  CRevisionIndex.get_eq_entry h.fits hr

theorem Indexed.lt {revisions : CRevisionIndex} {size r n : ℕ} (h : Indexed revisions size)
    (hr : revisions.entry r = (n : Index)) : r < 2 ^ 32 :=
  (h.revision_lt r (hr ▸ WithTop.natCast_ne_top n)).trans (by decide)

theorem init_recorded : init.Recorded fun _ => [] := by
  have hentry : ∀ r (n : ℕ), init.revisions.entry r ≠ (n : Index) := by
    intro r n hn
    have htop : init.revisions.entry r = ⊤ := CRevisionIndex.entry_of_end_le (Nat.zero_le r)
    exact WithTop.top_ne_natCast n (htop.symm.trans hn)
  refine ⟨⟨Nat.two_pow_pos 32, fun r hr => ?_, fun r n hn => absurd hn (hentry r n), fun r _ n hn =>
    absurd hn (hentry r n), fun n hn => absurd hn (Nat.not_lt_zero n)⟩, init_hasLength,
    [], CTokenizedStringContainer.init_clean, rfl, fun r n hn => absurd hn (hentry r n)⟩
  exact absurd (CRevisionIndex.entry_of_end_le (Nat.zero_le r)) hr

/-- The revisions, the lengths and the comments decide. -/
theorem Recorded.congr (h : l.Recorded comments) (hrevisions : l'.revisions = l.revisions)
    (hlengths : l'.logInfo.columnLengths = l.logInfo.columnLengths)
    (hcomments : l'.logInfo.comments = l.logInfo.comments) : l'.Recorded comments := by
  have hlength := h.lengths.congr hlengths
  obtain ⟨texts, hclean, hlen, htexts⟩ := h.texts
  refine ⟨?_, ?_, texts, hcomments ▸ hclean, hlen.trans hlength.size.symm, hrevisions ▸ htexts⟩
  · rw [hlength.size, hrevisions]
    exact h.indexed
  · rw [hlength.size]
    exact hlength

theorem get_eq_top_of_set {m m' : CRevisionIndex} {revision : ℕ} {index : Index}
    (h : m.setRevisionIndex revision index = .ok m') : m.get revision = ⊤ := by
  by_contra hne
  unfold CRevisionIndex.setRevisionIndex at h
  rw [if_pos (.inl hne)] at h
  cases h

/-- A new revision gets the next entry in all columns. -/
theorem Recorded.insert (h : l.Recorded comments) {revision : ℕ} {author comment : List UInt8}
    {timeStamp : ℤ} (hr : revision < 2 ^ 31) (hcomment : (0 : UInt8) ∉ comment)
    (hl : l.insert delimiter revision author comment timeStamp flags = .ok l') :
    l'.Recorded (Function.update comments revision comment) := by
  obtain ⟨⟨logInfo, index⟩, hlog, hl⟩ := bind_eq_ok.mp hl
  obtain ⟨revisions, hset, hl⟩ := bind_eq_ok.mp hl
  obtain rfl := Except.ok.inj hl
  have hlengths := h.lengths.insert hlog
  obtain ⟨_, _, _, _, -, -, -, -, rfl, hlogInfo⟩ := insert_ok hlog
  have hcomments : logInfo.comments = l.logInfo.comments.insert delimiter comment := by rw [hlogInfo]
  have hnew : l.revisions.entry revision = ⊤ := by
    rw [← h.indexed.get_eq (hr.trans (by decide))]
    exact get_eq_top_of_set hset
  obtain ⟨revisions', hset', hindexed, hentry⟩ := h.indexed.setRevisionIndex hr hnew
  obtain rfl := Except.ok.inj (hset.symm.trans hset')
  obtain ⟨texts, hclean, hlen, htexts⟩ := h.texts
  refine ⟨?_, ?_, texts ++ [comment], ?_, ?_, fun r n hn => ?_⟩
  · show Indexed revisions logInfo.size
    rw [hlengths.size]
    exact hindexed
  · show logInfo.HasLength logInfo.size
    rw [hlengths.size]
    exact hlengths
  · show logInfo.comments.Clean _
    rw [hcomments]
    exact hclean.insert delimiter hcomment
  · show _ = logInfo.size
    rw [hlengths.size, List.length_append, List.length_singleton, hlen]
  · change revisions.entry r = (n : Index) at hn
    rw [hentry] at hn
    rcases eq_or_ne r revision with rfl | hne
    · rw [Function.update_self, Nat.cast_inj] at hn
      rw [Function.update_self, ← hn, ← hlen, List.getElem?_concat_length]
    · rw [Function.update_of_ne hne] at hn ⊢
      rw [List.getElem?_append_left (hlen ▸ h.indexed.valid r n hn)]
      exact htexts r n hn

theorem Recorded.addChange (h : l.Recorded comments) {action : TChangeAction} {pathType : ℕ}
    {path fromPath : List UInt8} {fromRevision : ℕ} {textModified propsModified : UInt8}
    (hl : l.addChange action pathType path fromPath fromRevision textModified propsModified = .ok l') :
    l'.Recorded comments := by
  obtain ⟨logInfo, hlog, rfl⟩ := map_eq_ok.mp hl
  obtain ⟨hlengths, hcomments⟩ := addChange_lengths hlog
  exact h.congr rfl hlengths hcomments

/-- A log message takes the place of the last comment. -/
theorem addRevProp_log {c c' : CRevisionInfoContainer} {value : List UInt8}
    (h : c.addRevProp delimiter dateOf svnLog value = .ok c') :
    ∃ comments, c.comments.remove (subU c.comments.size 1) = .ok comments ∧
      c'.comments = comments.insert delimiter value := by
  unfold CRevisionInfoContainer.addRevProp at h
  rw [if_neg (by decide +kernel), if_neg (by decide +kernel), if_pos rfl] at h
  obtain ⟨comments, hremove, rfl⟩ := map_eq_ok.mp h
  exact ⟨comments, hremove, rfl⟩

/-- The container of the comments has a size, if there are not too many of them. -/
theorem size_of_clean {c : CTokenizedStringContainer} {texts : List (List UInt8)} (h : c.Clean texts)
    (hlt : texts.length < 2 ^ 32 - 1) : c.size = texts.length := by
  rw [CTokenizedStringContainer.size, h.length_offsets, subU_of_le (Nat.le_add_left _ _) (by omega),
    Nat.add_sub_cancel]

/-- A property of the last revision; a log message takes the place of a comment without tokens. -/
theorem Recorded.addRevProp (h : l.Recorded comments) {revProp value : List UInt8}
    (hvalue : revProp = svnLog → (0 : UInt8) ∉ value ∧ l.logInfo.comments.LastEmpty)
    (hl : l.addRevProp delimiter dateOf revProp value = .ok l') :
    l'.Recorded (l.afterRevProp revProp value comments) := by
  obtain ⟨logInfo, hlog, rfl⟩ := map_eq_ok.mp hl
  obtain ⟨hlengths, hcomments⟩ := addRevProp_lengths hlog
  by_cases hprop : revProp = svnLog
  · subst hprop
    obtain ⟨hnul, hlast⟩ := hvalue rfl
    obtain ⟨texts, hclean, hlen, htexts⟩ := h.texts
    have hsize := h.indexed.size_le
    obtain ⟨strings, hremove, hstrings⟩ := addRevProp_log hlog
    obtain ⟨front, s, rfl⟩ : ∃ front s, texts = front ++ [s] := by
      rcases List.eq_nil_or_concat texts with rfl | ⟨front, s, rfl⟩
      · obtain ⟨a, ha⟩ := List.length_eq_one_iff.mp hclean.length_offsets
        rw [CTokenizedStringContainer.LastEmpty, ha] at hlast
        cases hlast
      · exact ⟨front, s, List.concat_eq_append⟩
    rw [List.length_append, List.length_singleton] at hlen
    obtain ⟨strings', hremove', hfront⟩ := hclean.remove_last hlast
    rw [size_of_clean hclean (by simp; omega), List.length_append, List.length_singleton,
      subU_of_le (Nat.le_add_left _ _) (by omega), Nat.add_sub_cancel] at hremove
    obtain rfl := Except.ok.inj (hremove.symm.trans hremove')
    have hlength := h.lengths.congr hlengths
    refine ⟨?_, ?_, front ++ [value], ?_, ?_, fun r n hn => ?_⟩
    · show Indexed l.revisions logInfo.size
      rw [hlength.size]
      exact h.indexed
    · show logInfo.HasLength logInfo.size
      rw [hlength.size]
      exact hlength
    · show logInfo.comments.Clean _
      rw [hstrings]
      exact hfront.insert delimiter hnul
    · show _ = logInfo.size
      rw [hlength.size, List.length_append, List.length_singleton, hlen]
    · change l.revisions.entry r = (n : Index) at hn
      have hn' := h.indexed.valid r n hn
      have hcond : svnLog = svnLog ∧ l.revisions.get r = ((l.logInfo.size - 1 : ℕ) : Index) ↔
          n = front.length := by
        rw [h.indexed.get_eq (h.indexed.lt hn), hn, Nat.cast_inj, ← hlen, Nat.add_sub_cancel]
        exact and_iff_right rfl
      have hold := htexts r n hn
      unfold afterRevProp
      by_cases hfull : n = front.length
      · rw [if_pos (hcond.mpr hfull), hfull, List.getElem?_concat_length]
      · rw [if_neg (mt hcond.mp hfull), ← hold, List.getElem?_append_left (by omega),
          List.getElem?_append_left (by omega)]
  · have hsame : l.afterRevProp revProp value comments = comments := by
      funext r
      exact if_neg fun hand => hprop hand.1
    rw [hsame]
    exact h.congr rfl hlengths (hcomments hprop)

/-! ### Updates -/

/-- Nothing is supplied from an empty cache. -/
theorem entry_of_isEmpty (h : newData.Recorded newComments) (hempty : newData.isEmpty = true) (r : ℕ) :
    newData.revisions.entry r = ⊤ := by
  by_contra hne
  have hleast := CRevisionIndex.getFirstCachedRevision_isLeast h.indexed.fits ⟨r, hne⟩
  have hfirst : newData.revisions.getFirstCachedRevision = noRevision := of_decide_eq_true hempty
  have hle := hleast.2 hne
  have hlt := h.indexed.revision_lt r hne
  rw [hfirst, noRevision] at hle
  omega

/-- A revision that is supplied has an entry in the other cache. -/
theorem suppliesComment_iff (h : newData.Recorded newComments) {r : ℕ} (hr : r < 2 ^ 32) :
    newData.suppliesComment flags keep r = true ↔ ∃ s : ℕ, newData.revisions.entry r = (s : Index) ∧
      flags &&& HAS_COMMENT ≠ 0 ∧ newData.logInfo.supplied HAS_COMMENT keep s = true := by
  unfold suppliesComment
  rw [h.indexed.get_eq hr]
  rcases Index.cases (newData.revisions.entry r) with htop | ⟨s, hs⟩
  · rw [htop]
    refine ⟨fun hfalse => absurd hfalse Bool.false_ne_true, ?_⟩
    rintro ⟨s, hs, -⟩
    exact absurd hs (WithTop.top_ne_natCast s)
  · rw [hs]
    refine ⟨fun hand => ⟨s, rfl, of_decide_eq_true hand⟩, ?_⟩
    rintro ⟨s', hs', hand⟩
    rw [Nat.cast_inj] at hs'
    subst hs'
    exact decide_eq_true hand

/-- The comments behind an update, from the map of the revisions. -/
theorem Recorded.texts_update (h : l.Recorded comments) (hnew : newData.Recorded newComments)
    {st : RevisionMap} {logInfo : CRevisionInfoContainer}
    (hst : st.Joins l.revisions newData.revisions l.logInfo.size newData.logInfo.size)
    (hsupplies : ∀ r, l.revisions.entry r = ⊤ → newData.revisions.entry r ≠ ⊤ →
      newData.suppliesComment flags keep r = true)
    (hlog : l.logInfo.update delimiter newData.logInfo st.indexMap flags keep = .ok logInfo) :
    ∃ texts, logInfo.comments.Clean texts ∧ texts.length = logInfo.size ∧
      ∀ r (n : ℕ), st.revisions.entry r = (n : Index) →
        texts[n]? = some (newData.afterUpdate flags keep newComments comments r) := by
  obtain ⟨texts, hclean, hlen, htexts⟩ := h.texts
  obtain ⟨newTexts, hnewClean, hnewLen, hnewTexts⟩ := hnew.texts
  obtain ⟨hlength, hsame, hreplace⟩ := h.lengths.update hlog
  -- the comments of the entries that are new are supplied
  have hentry : ∀ e ∈ st.indexMap, l.logInfo.size ≤ e.1 → flags &&& HAS_COMMENT ≠ 0 ∧
      newData.logInfo.supplied HAS_COMMENT keep e.2 = true := by
    intro e he hle
    obtain ⟨r, hold, hsource⟩ := hst.new_entry h.indexed he hle
    obtain ⟨s, hs, hsupplied⟩ := (suppliesComment_iff hnew (hnew.indexed.lt hsource)).mp
      (hsupplies r hold (hsource ▸ WithTop.natCast_ne_top e.2))
    rw [hsource, Nat.cast_inj] at hs
    rwa [hs]
  -- a revision whose comment is not supplied has the entry that it had before
  have hkept : ∀ r (n : ℕ), st.revisions.entry r = (n : Index) →
      newData.suppliesComment flags keep r = false →
        l.revisions.entry r = (n : Index) := by
    intro r n hn hnot
    rcases Index.cases (l.revisions.entry r) with htop | ⟨n', hn'⟩
    · rw [hsupplies r htop (hst.added r n htop hn).2] at hnot
      cases hnot
    · rw [← hst.kept r (hn' ▸ WithTop.natCast_ne_top n'), hn]
  by_cases hflag : flags &&& HAS_COMMENT = 0
  · have hnone : (st.indexMap.countP fun e => l.logInfo.size ≤ e.1) = 0 :=
      List.countP_eq_zero.mpr fun e he => by simpa using fun hle => (hentry e he hle).1 hflag
    refine ⟨texts, hsame hflag ▸ hclean, by rw [hlength.size, hnone, hlen, Nat.add_zero], fun r n hn => ?_⟩
    have hnot : newData.suppliesComment flags keep r = false := by
      refine Bool.eq_false_iff.mpr fun hsupplied => ?_
      obtain ⟨s, -, hflag', -⟩ := (suppliesComment_iff hnew (hst.indexed.lt hn)).mp hsupplied
      exact hflag' hflag
    rw [afterUpdate, if_neg (Bool.eq_false_iff.mp hnot)]
    exact htexts r n (hkept r n hn hnot)
  · obtain ⟨toReplace, hsome, hreplaced⟩ := hreplace hflag
    have hpresence : newData.logInfo.presenceFlags.length = newData.logInfo.size :=
      (hasLength_iff.mp hnew.lengths).2.1
    rw [commentsToReplace_eq fun e he => hpresence ▸ hst.wellFormed.source e he] at hsome
    obtain rfl := Except.ok.inj hsome
    have htaken : ∀ e ∈ st.indexMap, l.logInfo.size ≤ e.1 →
        newData.logInfo.supplied HAS_COMMENT keep e.2 = true := fun e he hle => (hentry e he hle).2
    have hm := hst.wellFormed.taken htaken
    obtain ⟨strings, hrun, hstrings⟩ := hclean.replace delimiter hnewClean fun e he =>
      hnewLen ▸ hm.source e he
    obtain rfl := Except.ok.inj (hreplaced.symm.trans hrun)
    refine ⟨_, hstrings, ?_, fun r n hn => ?_⟩
    · rw [IndexMapping.length_update, hlength.size, hlen, IndexMapping.filter_taken htaken,
        List.countP_eq_length_filter]
    unfold afterUpdate
    by_cases hsupplied : newData.suppliesComment flags keep r = true
    · obtain ⟨s, hs, -, hsource⟩ := (suppliesComment_iff hnew (hst.indexed.lt hn)).mp hsupplied
      have hfind := (find_taken_some hst.wellFormed.unique).mpr ⟨(hst.find r n s hn).mpr hs, hsource⟩
      rw [if_pos hsupplied, IndexMapping.update_getElem?_of_find (hlen ▸ hm) hfind,
        List.getD_eq_getElem?_getD, hnewTexts r s hs, Option.getD_some]
    · have hold := hkept r n hn (Bool.eq_false_iff.mpr hsupplied)
      have hfind := (find_taken_none hst.wellFormed.unique).mpr fun s hs =>
        Bool.eq_false_iff.mpr fun hsource => hsupplied ((suppliesComment_iff hnew
          (hst.indexed.lt hn)).mpr ⟨s, (hst.find r n s hn).mp hs, hflag, hsource⟩)
      rw [if_neg hsupplied, IndexMapping.update_getElem?_of_none _ hfind
        (hlen ▸ h.indexed.valid r n hold)]
      exact htexts r n hold

/-- **An update keeps the comments** if it supplies those of all revisions that are new. -/
theorem Recorded.update (h : l.Recorded comments) (hnew : newData.Recorded newComments)
    (hsupplies : ∀ r < 2 ^ 32, l.revisions.get r = ⊤ → newData.revisions.get r ≠ ⊤ →
      newData.suppliesComment flags keep r = true)
    (hl : l.update delimiter newData flags keep = .ok l') :
    l'.Recorded (newData.afterUpdate flags keep newComments comments) := by
  unfold CCachedLogInfo.update at hl
  split at hl
  · rename_i hempty
    obtain rfl := Except.ok.inj hl
    obtain ⟨texts, hclean, hlen, htexts⟩ := h.texts
    refine ⟨h.indexed, h.lengths, texts, hclean, hlen, fun r n hn => ?_⟩
    have hnot : newData.suppliesComment flags keep r = false := by
      refine Bool.eq_false_iff.mpr fun hsupplied => ?_
      obtain ⟨s, hs, -⟩ := (suppliesComment_iff hnew (h.indexed.lt hn)).mp hsupplied
      exact WithTop.top_ne_natCast s ((entry_of_isEmpty hnew hempty.1 r).symm.trans hs)
    rw [afterUpdate, if_neg (Bool.eq_false_iff.mp hnot)]
    exact htexts r n hn
  · obtain ⟨st, hmap, hl⟩ := bind_eq_ok.mp hl
    obtain ⟨logInfo, hlog, hl⟩ := bind_eq_ok.mp hl
    obtain rfl := Except.ok.inj hl
    obtain ⟨st', hmap', hst⟩ := mapRevisions_spec h.indexed hnew.indexed
    obtain rfl := Except.ok.inj (hmap.symm.trans hmap')
    have hlength := (h.lengths.update hlog).1
    refine ⟨?_, ?_, h.texts_update hnew hst (fun r htop hne => ?_) hlog⟩
    · show Indexed st.revisions logInfo.size
      rw [hlength.size]
      exact hst.indexed
    · show logInfo.HasLength logInfo.size
      rw [hlength.size]
      exact hlength
    · have hlt := (hnew.indexed.revision_lt r hne).trans (show 2 ^ 31 < 2 ^ 32 by decide)
      exact hsupplies r hlt (by rwa [h.indexed.get_eq hlt]) (by rwa [hnew.indexed.get_eq hlt])

/-! ### All calls -/

theorem Run.recorded (h : Run delimiter dateOf KeepsComments l comments) : l.Recorded comments := by
  induction h with
  | init => exact init_recorded
  | insert _ hr hcomment hl ih => exact ih.insert hr hcomment hl
  | addChange _ _ hl ih => exact ih.addChange hl
  | addRevProp _ hvalue hl ih => exact ih.addRevProp hvalue hl
  | update _ _ hsupplies hl ih ihnew => exact ih.update ihnew hsupplies hl

theorem Recorded.aligned (h : l.Recorded comments) : l.logInfo.Aligned := by
  obtain ⟨texts, hclean, hlen, -⟩ := h.texts
  have hsize := h.indexed.size_le
  obtain ⟨-, hflags, htimes, hroots, hsums, hchanges, hcopies, hmerges, hprops⟩ :=
    hasLength_iff.mp h.lengths
  exact ⟨hflags, (size_of_clean hclean (by omega)).trans hlen, htimes, hroots, hsums, hchanges, hcopies,
    hmerges, hprops⟩

end

/-- One revision, with its comment. -/
def oneComment (comment : List UInt8) (flags : UInt8) : Except Fault CCachedLogInfo :=
  init.insert (fun _ => false) 1 [] comment 0 flags

end CCachedLogInfo

end TortoiseSvn.LogCache
