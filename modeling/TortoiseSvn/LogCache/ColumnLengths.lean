import TortoiseSvn.LogCache.RevisionRuns
import TortoiseSvn.LogCache.TokenizedStringReplace

/-!
# The lengths of the columns

The columns of a container that have an entry for each revision grow together. The comments are a container
of their own; what happens to them is said beside the lengths of the other columns.

Main result: `HasLength.update`. Behind an update all columns but the comments have grown by the number of
the new entries.
-/

namespace TortoiseSvn.LogCache

open TortoiseSvn.Lib CPathDictionary

namespace CRevisionInfoContainer

/-- The lengths of the columns with an entry for each revision, and of the offset tables. -/
def columnLengths (c : CRevisionInfoContainer) : List ℕ × List ℕ :=
  ([c.authors.length, c.presenceFlags.length, c.timeStamps.length, c.rootPaths.length,
      c.sumChanges.length],
    [c.changesOffsets.length, c.copyFromOffsets.length, c.mergedRevisionsOffsets.length,
      c.userRevPropOffsets.length])

/-- There are `n` entries in each column, and an offset more in each table. -/
def HasLength (c : CRevisionInfoContainer) (n : ℕ) : Prop :=
  c.columnLengths = (List.replicate 5 n, List.replicate 4 (n + 1))

/-- The lengths are kept, and so are the comments. -/
structure SameLengths (c c' : CRevisionInfoContainer) : Prop where
  lengths : c'.columnLengths = c.columnLengths
  comments : c'.comments = c.comments

section

variable {c c' newData : CRevisionInfoContainer} {delimiter : UInt8 → Bool} {m : IndexMapping}
  {flags flag : UInt8} {keep : Bool} {n : ℕ}

theorem HasLength.size (h : c.HasLength n) : c.size = n := by
  simp only [HasLength, columnLengths, List.replicate, Prod.mk.injEq, List.cons.injEq] at h
  exact h.1.1

theorem SameLengths.refl (c : CRevisionInfoContainer) : c.SameLengths c := ⟨rfl, rfl⟩

theorem SameLengths.trans {c'' : CRevisionInfoContainer} (h : c.SameLengths c')
    (h' : c'.SameLengths c'') : c.SameLengths c'' :=
  ⟨h'.lengths.trans h.lengths, h'.comments.trans h.comments⟩

theorem HasLength.congr (h : c.HasLength n) (hc : c'.columnLengths = c.columnLengths) :
    c'.HasLength n :=
  hc.trans h

/-! ### The passes of an update -/

theorem updateAuthors_lengths (h : c.updateAuthors newData m keep = .ok c') : c.SameLengths c' := by
  obtain ⟨authors, hauthors, hc⟩ := bind_eq_ok.mp h
  obtain rfl := Except.ok.inj hc
  exact ⟨by simp only [columnLengths, updateAuthorsLoop_length hauthors], rfl⟩

theorem updateTimeStampsLoop_length {timeStamps timeStamps' : List ℤ}
    (h : updateTimeStampsLoop newData keep m timeStamps = .ok timeStamps') :
    timeStamps'.length = timeStamps.length := by
  induction m generalizing timeStamps with
  | nil => rw [← Except.ok.inj h]
  | cons e m ih =>
    rw [updateTimeStampsLoop] at h
    obtain ⟨b, -, h⟩ := bind_eq_ok.mp h
    split at h
    · simp only [bind_eq_ok] at h
      obtain ⟨_, -, _, hstore, h⟩ := h
      rw [ih h, store_length hstore]
    · exact ih h

theorem updateTimeStamps_lengths (h : c.updateTimeStamps newData m keep = .ok c') :
    c.SameLengths c' := by
  obtain ⟨timeStamps, htimes, hc⟩ := bind_eq_ok.mp h
  obtain rfl := Except.ok.inj hc
  exact ⟨by simp only [columnLengths, updateTimeStampsLoop_length htimes], rfl⟩

theorem takeChanges_lengths {mapping : List ℕ} {i s : ℕ}
    (h : c.takeChanges newData mapping i s = .ok c') : c.SameLengths c' := by
  unfold takeChanges copyChanges copyCopies at h
  simp only [bind_eq_ok, pure, Except.pure, Except.ok.injEq] at h
  obtain ⟨_, ⟨_, -, _, -, _, -, _, -, _, -, _, -, _, -, _, -, _, -, rfl⟩, _,
    ⟨_, -, _, -, _, -, _, -, _, -, _, -, rfl⟩, _, -, _, -, roots, hroots, _, -, sums, hsums, rfl⟩ := h
  exact ⟨by simp only [columnLengths, store_length hroots, store_length hsums], rfl⟩

theorem keepChanges_lengths {old : CRevisionInfoContainer} {firstChange lastChange firstCopy lastCopy : ℕ}
    (h : c.keepChanges old firstChange lastChange firstCopy lastCopy = .ok c') : c.SameLengths c' := by
  unfold keepChanges at h
  simp only [bind_eq_ok] at h
  obtain ⟨_, -, _, -, _, -, _, -, _, -, h⟩ := h
  split at h
  · obtain rfl := Except.ok.inj h
    exact ⟨rfl, rfl⟩
  · simp only [bind_eq_ok, pure, Except.pure, Except.ok.injEq] at h
    obtain ⟨_, -, _, -, rfl⟩ := h
    exact ⟨rfl, rfl⟩

theorem updateChangesLoop_lengths {old : CRevisionInfoContainer} {mapping : List ℕ}
    {k i firstChange firstCopy : ℕ}
    (h : updateChangesLoop newData old m mapping keep k i firstChange firstCopy c = .ok c') :
    c.SameLengths c' := by
  induction k generalizing i firstChange firstCopy c with
  | zero =>
    obtain rfl := Except.ok.inj h
    exact .refl c
  | succ k ih =>
    rw [updateChangesLoop] at h
    obtain ⟨⟨c₁, _, _⟩, hround, h⟩ := bind_eq_ok.mp h
    refine SameLengths.trans ?_ (ih h)
    unfold updateChangesRound storeChangeOffsets at hround
    simp only [bind_eq_ok, pure, Except.pure, Except.ok.injEq, Prod.mk.injEq] at hround
    obtain ⟨_, -, _, -, source, -, c₂, hc₂, _, ⟨changes, hchanges, copies, hcopies, rfl⟩, rfl, -⟩ :=
      hround
    have hsame : c.SameLengths c₂ := by
      cases source with
      | some s => exact takeChanges_lengths hc₂
      | none => exact keepChanges_lengths hc₂
    refine hsame.trans ⟨?_, rfl⟩
    simp only [columnLengths, store_length hchanges, store_length hcopies]

theorem updateChanges_lengths {mapping : List ℕ}
    (h : c.updateChanges newData m mapping keep = .ok c') : c.SameLengths c' := by
  obtain ⟨hlengths, hcomments⟩ := updateChangesLoop_lengths h
  exact ⟨hlengths, hcomments⟩

theorem updateMergersLoop_lengths {old : CRevisionInfoContainer} {mapping : List ℕ} {k i first : ℕ}
    (h : updateMergersLoop newData old m mapping keep k i first c = .ok c') : c.SameLengths c' := by
  induction k generalizing i first c with
  | zero =>
    obtain rfl := Except.ok.inj h
    exact .refl c
  | succ k ih =>
    rw [updateMergersLoop] at h
    obtain ⟨⟨c₁, first₁⟩, hround, h⟩ := bind_eq_ok.mp h
    refine SameLengths.trans ?_ (ih h)
    unfold updateMergersRound at hround
    simp only [bind_eq_ok, pure, Except.pure, Except.ok.injEq, Prod.mk.injEq] at hround
    obtain ⟨_, -, source, -, c₂, hc₂, offsets, hoffsets, rfl, -⟩ := hround
    have hsame : c.SameLengths c₂ := by
      cases source with
      | some s =>
        unfold takeMerges at hc₂
        simp only [bind_eq_ok, pure, Except.pure, Except.ok.injEq] at hc₂
        obtain ⟨_, -, _, -, _, -, _, -, _, -, _, -, _, -, _, -, _, -, rfl⟩ := hc₂
        exact ⟨rfl, rfl⟩
      | none =>
        unfold keepMerges at hc₂
        simp only [bind_eq_ok, pure, Except.pure, Except.ok.injEq] at hc₂
        obtain ⟨_, -, _, -, _, -, _, -, rfl⟩ := hc₂
        exact ⟨rfl, rfl⟩
    refine hsame.trans ⟨?_, rfl⟩
    simp only [columnLengths, store_length hoffsets]

theorem updateMergers_lengths {mapping : List ℕ}
    (h : c.updateMergers newData m mapping keep = .ok c') : c.SameLengths c' := by
  obtain ⟨hlengths, hcomments⟩ := updateMergersLoop_lengths h
  exact ⟨hlengths, hcomments⟩

theorem updateUserRevPropsLoop_length {oldNames mapping : List ℕ} {k i first : ℕ}
    {st st' : RevPropSplice}
    (h : updateUserRevPropsLoop newData oldNames m mapping keep k i first st = .ok st') :
    st'.offsets.length = st.offsets.length := by
  induction k generalizing i first st with
  | zero => rw [← Except.ok.inj h]
  | succ k ih =>
    rw [updateUserRevPropsLoop] at h
    obtain ⟨⟨st₁, first₁⟩, hround, h⟩ := bind_eq_ok.mp h
    rw [ih h]
    unfold updateUserRevPropsRound at hround
    simp only [bind_eq_ok, pure, Except.pure, Except.ok.injEq, Prod.mk.injEq] at hround
    obtain ⟨_, -, source, -, st₂, hst₂, offsets, hoffsets, rfl, -⟩ := hround
    have hsame : st₂.offsets = st.offsets := by
      cases source with
      | some s =>
        change st.take newData mapping s = .ok st₂ at hst₂
        unfold RevPropSplice.take at hst₂
        split at hst₂
        · rw [Except.ok.inj hst₂]
        · simp only [bind_eq_ok, pure, Except.pure, Except.ok.injEq] at hst₂
          obtain ⟨_, -, _, -, _, -, _, -, _, -, rfl⟩ := hst₂
          rfl
      | none =>
        unfold RevPropSplice.keep at hst₂
        simp only [bind_eq_ok, pure, Except.pure, Except.ok.injEq] at hst₂
        obtain ⟨_, -, _, -, rfl⟩ := hst₂
        rfl
    exact (store_length hoffsets).trans (congrArg List.length hsame)

theorem updateUserRevProps_lengths (h : c.updateUserRevProps delimiter newData m keep = .ok c') :
    c.SameLengths c' := by
  obtain ⟨st, hloop, h⟩ := bind_eq_ok.mp h
  obtain ⟨_, -, h⟩ := bind_eq_ok.mp h
  obtain ⟨_, -, hc⟩ := bind_eq_ok.mp h
  obtain rfl := Except.ok.inj hc
  exact ⟨by simp only [columnLengths, updateUserRevPropsLoop_length hloop], rfl⟩

theorem updatePresenceFlags_lengths (h : c.updatePresenceFlags newData m flags keep = .ok c') :
    c.SameLengths c' := by
  obtain ⟨presenceFlags, hflags, hc⟩ := bind_eq_ok.mp h
  obtain rfl := Except.ok.inj hc
  exact ⟨by simp only [columnLengths, updatePresenceFlagsLoop_length hflags], rfl⟩

theorem pass_lengths {f : CRevisionInfoContainer → Except Fault CRevisionInfoContainer}
    (h : c.pass flags flag f = .ok c') (hf : f c = .ok c' → c.SameLengths c') :
    c.SameLengths c' := by
  obtain ⟨-, hc⟩ | ⟨-, rfl⟩ := pass_ok h
  · exact hf hc
  · exact .refl c'

/-! ### All operations -/

theorem pushBackLast_length {α : Type} {l l' : List α} (h : pushBackLast l = .ok l') :
    l'.length = l.length + 1 := by
  obtain ⟨a, -, rfl⟩ := map_eq_ok.mp h
  rw [List.length_append, List.length_singleton]

theorem appendLast_length {α : Type} {l l' : List α} (h : appendLast n l = .ok l') :
    l'.length = l.length + n := by
  obtain ⟨a, -, rfl⟩ := map_eq_ok.mp h
  rw [List.length_append, List.length_replicate]

/-- The lengths, one by one. -/
theorem hasLength_iff : c.HasLength n ↔ c.authors.length = n ∧ c.presenceFlags.length = n ∧
    c.timeStamps.length = n ∧ c.rootPaths.length = n ∧ c.sumChanges.length = n ∧
    c.changesOffsets.length = n + 1 ∧ c.copyFromOffsets.length = n + 1 ∧
    c.mergedRevisionsOffsets.length = n + 1 ∧ c.userRevPropOffsets.length = n + 1 := by
  simp only [HasLength, columnLengths, List.replicate, Prod.mk.injEq, List.cons.injEq, and_true,
    and_assoc]

theorem init_hasLength : init.HasLength 0 := rfl

theorem HasLength.insert (h : c.HasLength n) {author comment : List UInt8} {timeStamp : ℤ} {index : ℕ}
    (hc : c.insert delimiter author comment timeStamp flags = .ok (c', index)) :
    c'.HasLength (n + 1) := by
  obtain ⟨changes, copies, merges, props, hchanges, hcopies, hmerges, hprops, -, rfl⟩ := insert_ok hc
  rw [hasLength_iff] at h ⊢
  obtain ⟨hauthors, hflags, htimes, hroots, hsums, hchange, hcopy, hmerge, hprop⟩ := h
  simp only [List.length_append, List.length_singleton, pushBackLast_length hchanges,
    pushBackLast_length hcopies, pushBackLast_length hmerges, pushBackLast_length hprops, hauthors,
    hflags, htimes, hroots, hsums, hchange, hcopy, hmerge, hprop, and_self]

theorem addChangedPath_lengths {textModified propsModified : UInt8} {pathType : ℕ} {path : List UInt8}
    (h : c.addChangedPath flags pathType path textModified propsModified = .ok c') :
    c.SameLengths c' := by
  obtain ⟨root, root', sums, changes, hroot, -, hsums, hchanges, rfl⟩ := addChangedPath_ok h
  have hroots : modifyBack (fun _ => root') c.rootPaths = .ok (c.rootPaths.dropLast ++ [root']) := by
    rw [modifyBack, hroot]
    rfl
  exact ⟨by simp only [columnLengths, modifyBack_length hroots, modifyBack_length hsums,
    modifyBack_length hchanges], rfl⟩

theorem addChange_lengths {action : TChangeAction} {pathType : ℕ} {path fromPath : List UInt8}
    {fromRevision : ℕ} {textModified propsModified : UInt8}
    (h : c.addChange action pathType path fromPath fromRevision textModified propsModified = .ok c') :
    c.SameLengths c' := by
  unfold addChange at h
  split at h
  · cases h
  split at h
  · exact addChangedPath_lengths h
  · obtain ⟨c₁, hc₁, h⟩ := bind_eq_ok.mp h
    obtain ⟨copies, hcopies, rfl⟩ := addCopySource_ok h
    refine (addChangedPath_lengths hc₁).trans ⟨?_, rfl⟩
    simp only [columnLengths, modifyBack_length hcopies]

/-- The comments change with the log message only. -/
theorem addRevProp_lengths {dateOf : List UInt8 → ℤ} {revProp value : List UInt8}
    (h : c.addRevProp delimiter dateOf revProp value = .ok c') :
    c'.columnLengths = c.columnLengths ∧ (revProp ≠ svnLog → c'.comments = c.comments) := by
  unfold addRevProp at h
  split at h
  · obtain ⟨authors, hauthors, rfl⟩ := map_eq_ok.mp h
    exact ⟨by simp only [columnLengths, modifyBack_length hauthors], fun _ => rfl⟩
  split at h
  · obtain ⟨timeStamps, htimes, rfl⟩ := map_eq_ok.mp h
    exact ⟨by simp only [columnLengths, modifyBack_length htimes], fun _ => rfl⟩
  split at h
  · rename_i hlog
    obtain ⟨comments, -, rfl⟩ := map_eq_ok.mp h
    exact ⟨rfl, fun hne => absurd hlog hne⟩
  · unfold addUserRevProp at h
    split at h
    · cases h
    · obtain ⟨offsets, hoffsets, hc⟩ := bind_eq_ok.mp h
      obtain rfl := Except.ok.inj hc
      exact ⟨by simp only [columnLengths, modifyBack_length hoffsets], fun _ => rfl⟩

/-- Each column grows by the number of the new entries; the strings do not. -/
theorem HasLength.appendNewEntries (h : c.HasLength n) (hc : c.appendNewEntries delimiter m = .ok c') :
    c'.HasLength (n + m.countP fun e => n ≤ e.1) ∧ c'.comments = c.comments := by
  obtain ⟨h0, rfl⟩ | ⟨-, changes, copies, merges, props, hchanges, hcopies, hmerges, hprops, rfl⟩ :=
    appendNewEntries_ok hc rfl
  · rw [h.size] at h0
    rw [h0]
    exact ⟨h, rfl⟩
  · rw [h.size] at *
    refine ⟨?_, CTokenizedStringContainer.insertCount_nil _ _⟩
    rw [hasLength_iff] at h ⊢
    obtain ⟨hauthors, hflags, htimes, hroots, hsums, hchange, hcopy, hmerge, hprop⟩ := h
    simp only [List.length_append, List.length_replicate, appendLast_length hchanges,
      appendLast_length hcopies, appendLast_length hmerges, appendLast_length hprops, hauthors,
      hflags, htimes, hroots, hsums, hchange, hcopy, hmerge, hprop, Nat.add_right_comm, and_self]

/-- The comments are replaced in one pass, which the other columns do not notice. -/
theorem updateComments_lengths (h : c.updateComments delimiter newData m keep = .ok c') :
    c'.columnLengths = c.columnLengths ∧ ∃ toReplace, newData.commentsToReplace keep m = .ok toReplace ∧
      c.comments.replace delimiter newData.comments toReplace = .ok c'.comments := by
  obtain ⟨toReplace, hsome, h⟩ := bind_eq_ok.mp h
  obtain ⟨comments, hcomments, hc⟩ := bind_eq_ok.mp h
  obtain rfl := Except.ok.inj hc
  exact ⟨rfl, toReplace, hsome, hcomments⟩

/-- **An update lets all columns grow** by the number of the new entries; of the strings, it replaces
those that are taken over, but does not append any for the entries that are new. -/
theorem HasLength.update (h : c.HasLength n)
    (hc : c.update delimiter newData m flags keep = .ok c') :
    c'.HasLength (n + m.countP fun e => n ≤ e.1) ∧
      (flags &&& HAS_COMMENT = 0 → c'.comments = c.comments) ∧
      (flags &&& HAS_COMMENT ≠ 0 → ∃ toReplace, newData.commentsToReplace keep m = .ok toReplace ∧
        c.comments.replace delimiter newData.comments toReplace = .ok c'.comments) := by
  unfold CRevisionInfoContainer.update at hc
  simp only [bind_eq_ok] at hc
  obtain ⟨c₁, happend, ⟨d', mapping⟩, -, c₂, hauthors, c₃, htimes, c₄, hcomments, c₅, hchanges,
    c₆, hmergers, c₇, hprops, hflags⟩ := hc
  obtain ⟨h₁, hstrings⟩ := h.appendNewEntries happend
  -- the passes before the one over the comments, and those behind it
  have hfront : ({ c₁ with paths := d' } : CRevisionInfoContainer).SameLengths c₃ :=
    (pass_lengths hauthors updateAuthors_lengths).trans (pass_lengths htimes updateTimeStamps_lengths)
  have hback : c₄.SameLengths c' :=
    ((pass_lengths hchanges updateChanges_lengths).trans
      (pass_lengths hmergers updateMergers_lengths)).trans
        ((pass_lengths hprops updateUserRevProps_lengths).trans (updatePresenceFlags_lengths hflags))
  have h₃ := h₁.congr hfront.lengths
  obtain ⟨hflag, hc₄⟩ | ⟨hflag, rfl⟩ := pass_ok hcomments
  · obtain ⟨hlengths, toReplace, hsome, hreplace⟩ := updateComments_lengths hc₄
    refine ⟨(h₃.congr hlengths).congr hback.lengths, fun h0 => absurd h0 hflag, fun _ => ?_⟩
    refine ⟨toReplace, hsome, ?_⟩
    rw [hback.comments, ← hstrings, ← hfront.comments]
    exact hreplace
  · exact ⟨h₃.congr hback.lengths, fun _ => (hback.comments.trans hfront.comments).trans hstrings,
      fun hne => absurd hflag hne⟩

end

end CRevisionInfoContainer

end TortoiseSvn.LogCache
