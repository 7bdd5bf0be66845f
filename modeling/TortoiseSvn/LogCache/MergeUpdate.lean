import TortoiseSvn.LogCache.ChangeUpdate

/-!
# Splicing the merges of two containers

The merges of a revision are quadruples of two paths, the first revision of a range and its length. As with
the changes, `UpdateMergers` writes the columns anew, entry by entry.

Main result: `HoldsMerges.updateMergers`. The lists of merges behind an update are those of
`IndexMapping.splice`, with the paths of the source translated.
-/

namespace TortoiseSvn.LogCache

open TortoiseSvn.Lib CPathDictionary

namespace CRevisionInfoContainer

/-- The data of a merge.
Source: `RevisionInfoContainer.h` `CRevisionInfoContainer::CMergedRevisionsIterator` -/
structure Merge where
  fromPath : Index
  toPath : Index
  rangeStart : ℕ
  rangeDelta : ℕ
  deriving DecidableEq

/-- A merge whose paths are those of another dictionary. -/
def Merge.translate (mapping : List ℕ) (x : Merge) : Merge :=
  { x with fromPath := translated mapping x.fromPath, toPath := translated mapping x.toPath }

/-- The paths of a merge are in the dictionary. -/
structure Merge.Valid (d : CPathDictionary) (x : Merge) : Prop where
  fromPath : ∃ ns, d.IsNamed x.fromPath ns
  toPath : ∃ ns, d.IsNamed x.toPath ns

/-- The container holds the lists of merges. -/
structure HoldsMerges (c : CRevisionInfoContainer) (merges : List (List Merge)) : Prop where
  offsets : c.mergedRevisionsOffsets = offsetsFrom 0 merges
  fromPaths : c.mergedFromPaths = merges.flatten.map Merge.fromPath
  toPaths : c.mergedToPaths = merges.flatten.map Merge.toPath
  starts : c.mergedRangeStarts = merges.flatten.map Merge.rangeStart
  deltas : c.mergedRangeDeltas = merges.flatten.map Merge.rangeDelta
  valid : ∀ rev ∈ merges, ∀ x ∈ rev, x.Valid c.paths

/-- The columns of the merges. -/
structure MergeColumns where
  paths : CPathDictionary
  offsets : List ℕ
  fromPaths : List Index
  toPaths : List Index
  starts : List ℕ
  deltas : List ℕ

@[inherit_doc MergeColumns] def mergeColumns (c : CRevisionInfoContainer) : MergeColumns where
  paths := c.paths
  offsets := c.mergedRevisionsOffsets
  fromPaths := c.mergedFromPaths
  toPaths := c.mergedToPaths
  starts := c.mergedRangeStarts
  deltas := c.mergedRangeDeltas

/-- Merges are appended to the columns. -/
def appendMerges (c : CRevisionInfoContainer) (rev : List Merge) : CRevisionInfoContainer :=
  { c with
    mergedFromPaths := c.mergedFromPaths ++ rev.map Merge.fromPath
    mergedToPaths := c.mergedToPaths ++ rev.map Merge.toPath
    mergedRangeStarts := c.mergedRangeStarts ++ rev.map Merge.rangeStart
    mergedRangeDeltas := c.mergedRangeDeltas ++ rev.map Merge.rangeDelta }

section

variable {c old newData : CRevisionInfoContainer} {merges olds news : List (List Merge)}
  {m : IndexMapping} {mapping : List ℕ} {keep : Bool}

/-- Only the columns of the merges matter. -/
theorem HoldsMerges.congr {c' : CRevisionInfoContainer} (h : c.HoldsMerges merges)
    (hc : c'.mergeColumns = c.mergeColumns) : c'.HoldsMerges merges where
  offsets := (congrArg MergeColumns.offsets hc).trans h.offsets
  fromPaths := (congrArg MergeColumns.fromPaths hc).trans h.fromPaths
  toPaths := (congrArg MergeColumns.toPaths hc).trans h.toPaths
  starts := (congrArg MergeColumns.starts hc).trans h.starts
  deltas := (congrArg MergeColumns.deltas hc).trans h.deltas
  valid := by
    rw [show c'.paths = c.paths from congrArg MergeColumns.paths hc]
    exact h.valid

theorem Merge.Valid.extends {d d' : CPathDictionary} {x : Merge} (h : x.Valid d) (hd : d.Built)
    (hext : d.Extends d') : x.Valid d' where
  fromPath := h.fromPath.imp fun _ hns => hns.extends hd hext
  toPath := h.toPath.imp fun _ hns => hns.extends hd hext

theorem Merge.Valid.translate {d source : CPathDictionary}
    (hmaps : Maps d source mapping source.size) (hs : source.Built) {x : Merge}
    (h : x.Valid source) : (x.translate mapping).Valid d where
  fromPath := h.fromPath.imp fun _ hns => (mapped_eq hmaps hs hns).2
  toPath := h.toPath.imp fun _ hns => (mapped_eq hmaps hs hns).2

/-- Old merges are appended. -/
theorem keepMerges_eq {front rev back : List Merge}
    (hfrom : old.mergedFromPaths = (front ++ rev ++ back).map Merge.fromPath)
    (hto : old.mergedToPaths = (front ++ rev ++ back).map Merge.toPath)
    (hstart : old.mergedRangeStarts = (front ++ rev ++ back).map Merge.rangeStart)
    (hdelta : old.mergedRangeDeltas = (front ++ rev ++ back).map Merge.rangeDelta) :
    c.keepMerges old front.length (front.length + rev.length) = .ok (c.appendMerges rev) := by
  unfold keepMerges appendMerges
  rw [hfrom, hto, hstart, hdelta, slice_map_middle, slice_map_middle, slice_map_middle,
    slice_map_middle]
  rfl

/-- The merges of a source entry are appended, with their paths translated. -/
theorem takeMerges_eq (hnew : newData.HoldsMerges news) {d : CPathDictionary}
    (hmaps : Maps d newData.paths mapping newData.paths.size) (hbuilt : newData.paths.Built) {s : ℕ}
    {rev : List Merge} (hs : news[s]? = some rev) :
    c.takeMerges newData mapping s = .ok (c.appendMerges (rev.map (Merge.translate mapping))) := by
  have hlt := (List.getElem?_eq_some_iff.mp hs).1
  have hflat := flatten_split hs
  have hvalid := hnew.valid rev (List.mem_of_getElem? hs)
  have hgather : ∀ {β : Type} (f : Merge → β),
      gather (news.flatten.map f) (List.range' (offsetOf news s) rev.length) = .ok (rev.map f) := by
    intro β f
    rw [hflat]
    exact gather_map_middle f _ rev _
  have hfrom := @mapM_mapped _ _ _ hmaps hbuilt (rev.map Merge.fromPath) fun i hi => by
    obtain ⟨x, hx, rfl⟩ := List.mem_map.mp hi
    exact (hvalid x hx).fromPath
  have hto := @mapM_mapped _ _ _ hmaps hbuilt (rev.map Merge.toPath) fun i hi => by
    obtain ⟨x, hx, rfl⟩ := List.mem_map.mp hi
    exact (hvalid x hx).toPath
  have hchecked : ∀ n : ℕ, checked (some n) = .ok n := fun _ => rfl
  unfold takeMerges appendMerges
  rw [hnew.offsets, offsetsFrom_getElem? hlt.le, offsetsFrom_getElem? hlt, Nat.zero_add,
    Nat.zero_add, offsetOf_succ hs, hnew.fromPaths, hnew.toPaths, hnew.starts, hnew.deltas]
  simp only [hchecked, bind, Except.bind, positions_eq (Nat.le_add_right _ _),
    Nat.add_sub_cancel_left, hgather, hfrom, hto, List.map_map]
  rfl

/-! ### The splicing loop -/

/-- The container while its merges are spliced: the lists `done` are written, and the table still has its
old entries behind these. -/
def splicingMerges (c : CRevisionInfoContainer) (done : List (List Merge)) (tail : List ℕ) :
    CRevisionInfoContainer :=
  { c with
    mergedFromPaths := done.flatten.map Merge.fromPath
    mergedToPaths := done.flatten.map Merge.toPath
    mergedRangeStarts := done.flatten.map Merge.rangeStart
    mergedRangeDeltas := done.flatten.map Merge.rangeDelta
    mergedRevisionsOffsets := offsetsFrom 0 done ++ tail }

/-- The merges that a source entry gives. -/
def sourceMerges (mapping : List ℕ) (news : List (List Merge)) (s : ℕ) : List Merge :=
  (news.getD s []).map (Merge.translate mapping)

variable {done : List (List Merge)} {tail : List ℕ}

/-- Behind appending merges and storing where they end, one more list of merges is written. -/
theorem appendMerges_store (rev : List Merge) (offset : ℕ) :
    store ((c.splicingMerges done (offset :: tail)).appendMerges rev).mergedRevisionsOffsets
        (done.length + 1)
        ((c.splicingMerges done (offset :: tail)).appendMerges rev).mergedFromPaths.length =
      .ok (offsetsFrom 0 (done ++ [rev]) ++ tail) ∧
    { (c.splicingMerges done (offset :: tail)).appendMerges rev with
      mergedRevisionsOffsets := offsetsFrom 0 (done ++ [rev]) ++ tail } =
        c.splicingMerges (done ++ [rev]) tail := by
  have hflat : ∀ {β : Type} (f : Merge → β),
      done.flatten.map f ++ rev.map f = (done ++ [rev]).flatten.map f := by
    intro β f
    rw [List.flatten_append, List.flatten_singleton, List.map_append]
  constructor
  · have hstore := store_append (offsetsFrom 0 done) tail offset (done ++ [rev]).flatten.length
    rw [offsetsFrom_length] at hstore
    show store (offsetsFrom 0 done ++ offset :: tail) _ (done.flatten.map _ ++ rev.map _).length = _
    rw [hflat, List.length_map, hstore, offsetsFrom_concat, Nat.zero_add, List.append_assoc]
    rfl
  · unfold splicingMerges appendMerges
    simp only [hflat]

/-- The loop over the entries that are left. -/
theorem updateMergersLoop_eq (hnew : newData.HoldsMerges news) {d : CPathDictionary}
    (hmaps : Maps d newData.paths mapping newData.paths.size) (hbuilt : newData.paths.Built)
    (hm : (m.map Prod.fst).Nodup) (hsource : ∀ e ∈ m, e.2 < news.length)
    (hflags : newData.presenceFlags.length = news.length) (hold : old.HoldsMerges merges)
    {rest : List (List Merge)} {front : List Merge} (hrest : merges.flatten = front ++ rest.flatten) :
    updateMergersLoop newData old m mapping keep rest.length done.length front.length
        (c.splicingMerges done (offsetsFrom front.length rest).tail) =
      .ok (c.splicingMerges (done ++ (m.taken (newData.supplied HAS_MERGEINFO keep)).splice
        (sourceMerges mapping news) done.length rest) []) := by
  induction rest generalizing done front with
  | nil =>
    rw [IndexMapping.splice, List.append_nil]
    rfl
  | cons rev rest ih =>
    rw [List.flatten_cons, ← List.append_assoc] at hrest
    have hrepl := @replacement_eq newData HAS_MERGEINFO keep _ hm
      (fun e he => hflags ▸ hsource e he) done.length
    have hlast : (c.splicingMerges done ((front.length + rev.length) ::
        (offsetsFrom (front.length + rev.length) rest).tail)).mergedRevisionsOffsets[done.length + 1]? =
          some (front.length + rev.length) := offset_behind done _ _
    -- what is left behind the round
    have hround := fun new : List Merge => @ih (done ++ [new]) (front ++ rev) hrest
    simp only [List.length_append, List.length_singleton, List.append_assoc,
      List.singleton_append] at hround
    have hstored := fun new => @appendMerges_store c done
      (offsetsFrom (front.length + rev.length) rest).tail new (front.length + rev.length)
    rw [List.length_cons, updateMergersLoop, offsetsFrom, List.tail_cons, offsetsFrom_eq_cons,
      IndexMapping.splice]
    unfold updateMergersRound
    rw [hlast, hrepl]
    simp only [checked, bind, Except.bind]
    cases hfind : (m.taken (newData.supplied HAS_MERGEINFO keep)).find done.length with
    | none =>
      obtain ⟨hstore, hc⟩ := hstored rev
      dsimp only
      rw [keepMerges_eq (hold.fromPaths.trans (by rw [hrest])) (hold.toPaths.trans (by rw [hrest]))
        (hold.starts.trans (by rw [hrest])) (hold.deltas.trans (by rw [hrest]))]
      dsimp only
      rw [hstore]
      simp only [pure, Except.pure]
      rw [hc]
      exact hround rev
    | some s =>
      have hs : news[s]? = some (news.getD s []) := by
        have hlt := hsource _ (List.mem_of_mem_filter (IndexMapping.mem_of_find hfind))
        rw [List.getD_eq_getElem?_getD, List.getElem?_eq_getElem hlt]
        rfl
      obtain ⟨hstore, hc⟩ := hstored (sourceMerges mapping news s)
      dsimp only
      rw [takeMerges_eq hnew hmaps hbuilt hs, ← sourceMerges]
      dsimp only
      rw [hstore]
      simp only [pure, Except.pure]
      rw [hc]
      exact hround _

/-- **Behind `UpdateMergers`, the lists of merges are the spliced ones.** -/
theorem HoldsMerges.updateMergers (h : c.HoldsMerges olds) (hsize : c.size = olds.length)
    (hnew : newData.HoldsMerges news) (hmaps : Maps c.paths newData.paths mapping newData.paths.size)
    (hbuilt : newData.paths.Built) (hm : (m.map Prod.fst).Nodup)
    (hsource : ∀ e ∈ m, e.2 < news.length) (hflags : newData.presenceFlags.length = news.length) :
    c.updateMergers newData m mapping keep = .ok (c.splicingMerges
        ((m.taken (newData.supplied HAS_MERGEINFO keep)).splice (sourceMerges mapping news) 0 olds) []) ∧
      (c.splicingMerges ((m.taken (newData.supplied HAS_MERGEINFO keep)).splice
        (sourceMerges mapping news) 0 olds) []).HoldsMerges
          ((m.taken (newData.supplied HAS_MERGEINFO keep)).splice (sourceMerges mapping news) 0 olds) := by
  have hloop := @updateMergersLoop_eq c c newData olds news m mapping keep [] hnew _ hmaps hbuilt hm
    hsource hflags h olds [] rfl
  have hstart : { c with
      mergedFromPaths := [], mergedToPaths := [], mergedRangeStarts := [], mergedRangeDeltas := [] } =
        c.splicingMerges [] (offsetsFrom 0 olds).tail := by
    have hoffsets : c.mergedRevisionsOffsets =
        offsetsFrom 0 ([] : List (List Merge)) ++ (offsetsFrom 0 olds).tail :=
      h.offsets.trans (offsetsFrom_eq_cons 0 olds)
    unfold splicingMerges
    rw [← hoffsets]
    rfl
  constructor
  · rw [CRevisionInfoContainer.updateMergers, hstart, hsize]
    exact hloop
  · refine ⟨List.append_nil _, rfl, rfl, rfl, rfl, ?_⟩
    refine IndexMapping.splice_forall (fun e he => ?_) h.valid 0
    refine List.forall_mem_map.mpr fun x hx => ?_
    have hs : news[e.2]? = some (news.getD e.2 []) := by
      rw [List.getD_eq_getElem?_getD, List.getElem?_eq_getElem (hsource e (List.mem_of_mem_filter he))]
      rfl
    exact (hnew.valid _ (List.mem_of_getElem? hs) x hx).translate hmaps hbuilt

end

end CRevisionInfoContainer

end TortoiseSvn.LogCache
