import TortoiseSvn.LogCache.ChangeColumns

/-!
# Splicing the changes of two containers

`UpdateChanges` writes the columns of the changes anew. It walks over the entries of the target and
appends, for each of them, the changes of the source entry that replaces it, or the old ones.

Main result: `HoldsChanges.updateChanges`. The lists of changes behind an update are those of
`IndexMapping.splice`, with the paths of the source translated.
-/

namespace TortoiseSvn.LogCache

open TortoiseSvn.Lib CPathDictionary

namespace CRevisionInfoContainer

/-! ### The source entries that are taken over -/

section Supplies

variable {newData : CRevisionInfoContainer} {flag : UInt8} {keep : Bool} {m : IndexMapping}

/-- Whether the data of a source entry is taken over. -/
def supplied (newData : CRevisionInfoContainer) (flag : UInt8) (keepOldDataForMissingNew : Bool)
    (sourceIndex : ℕ) : Bool :=
  !keepOldDataForMissingNew || (newData.presenceFlags.getD sourceIndex 0 &&& flag) ≠ 0

theorem supplies_eq {s : ℕ} (hs : s < newData.presenceFlags.length) :
    newData.supplies flag keep s = .ok (newData.supplied flag keep s) := by
  unfold supplies supplied getPresenceFlags
  rw [List.getD_eq_getElem?_getD, List.getElem?_eq_getElem hs]
  cases keep <;> rfl

/-- The source entry that replaces a target entry. -/
theorem replacement_eq (hm : (m.map Prod.fst).Nodup)
    (hsource : ∀ e ∈ m, e.2 < newData.presenceFlags.length) (i : ℕ) :
    newData.replacement m flag keep i = .ok ((m.taken (newData.supplied flag keep)).find i) := by
  unfold replacement
  rw [IndexMapping.find_taken hm]
  cases hfind : m.find i with
  | none => rfl
  | some s =>
    dsimp only
    rw [supplies_eq (hsource _ (IndexMapping.mem_of_find hfind)), Option.filter_some]
    rfl

end Supplies

/-! ### Translating paths -/

/-- The index that a path index is mapped to. -/
def translated (mapping : List ℕ) (index : Index) : Index := index.map fun i => mapping.getD i 0

/-- A change whose paths are those of another dictionary. -/
def SPerChangeInfo.translate (mapping : List ℕ) (x : SPerChangeInfo) : SPerChangeInfo :=
  { x with
    changedPath := translated mapping x.changedPath
    copyFromPath := translated mapping x.copyFromPath }

@[simp] theorem hasFromPath_translate (mapping : List ℕ) (x : SPerChangeInfo) :
    (x.translate mapping).hasFromPath = x.hasFromPath := rfl

theorem filter_translate (mapping : List ℕ) (xs : List SPerChangeInfo) :
    (xs.map (SPerChangeInfo.translate mapping)).filter SPerChangeInfo.hasFromPath =
      (xs.filter SPerChangeInfo.hasFromPath).map (SPerChangeInfo.translate mapping) :=
  List.filter_map

theorem sumOf_translate (mapping : List ℕ) (xs : List SPerChangeInfo) :
    sumOf (xs.map (SPerChangeInfo.translate mapping)) = sumOf xs := List.foldl_map

section Translate

variable {d source : CPathDictionary} {mapping : List ℕ} {count : ℕ}

/-- A path of the source is mapped to the path of the same names. -/
theorem mapped_eq (hmaps : Maps d source mapping source.size) (hs : source.Built) {index : Index}
    {ns : List (List UInt8)} (hi : source.IsNamed index ns) :
    mapped mapping index = .ok (translated mapping index) ∧
      d.IsNamed (translated mapping index) ns := by
  obtain ⟨i, rfl, hn⟩ := hi
  obtain ⟨j, hj, hdn⟩ := hmaps.2 i (hn.lt_size hs) ns hn
  have htr : translated mapping (i : Index) = (j : Index) := by
    show ((mapping.getD i 0 : ℕ) : Index) = j
    rw [List.getD_eq_getElem?_getD, hj]
    rfl
  rw [htr, mapped_coe, hj]
  exact ⟨rfl, j, rfl, hdn⟩

theorem mapM_mapped (hmaps : Maps d source mapping source.size) (hs : source.Built)
    {indices : List Index} (hi : ∀ i ∈ indices, ∃ ns, source.IsNamed i ns) :
    indices.mapM (mapped mapping) = .ok (indices.map (translated mapping)) := by
  induction indices with
  | nil => rfl
  | cons i indices ih =>
    obtain ⟨⟨ns, hns⟩, hrest⟩ := List.forall_mem_cons.mp hi
    rw [List.mapM_cons, (mapped_eq hmaps hs hns).1, ih hrest]
    rfl

theorem SPerChangeInfo.Valid.translate (hmaps : Maps d source mapping source.size)
    (hs : source.Built) {x : SPerChangeInfo} (h : x.Valid source) : (x.translate mapping).Valid d where
  path := h.path.imp fun _ hns => (mapped_eq hmaps hs hns).2
  copy := fun hx => (h.copy hx).imp fun _ hns => (mapped_eq hmaps hs hns).2
  noCopy := fun hx => by
    obtain ⟨hpath, hrev⟩ := h.noCopy hx
    refine ⟨?_, hrev⟩
    show translated mapping x.copyFromPath = ⊤
    rw [hpath]
    rfl

/-- A root path is either none or mapped to the path of the same names. -/
theorem IsRootOf.translate (hmaps : Maps d source mapping source.size) (hs : source.Built)
    {root : Index} {rev : List SPerChangeInfo} (h : IsRootOf source root rev) :
    mapped mapping root = .ok (translated mapping root) ∧
      IsRootOf d (translated mapping root) (rev.map (SPerChangeInfo.translate mapping)) := by
  cases h with
  | none => exact ⟨rfl, .none⟩
  | some hne hroot hpss hpre =>
    obtain ⟨hmapped, hnamed⟩ := mapped_eq hmaps hs hroot
    refine ⟨hmapped, .some (fun hnil => hne (List.map_eq_nil_iff.mp hnil)) hnamed ?_ hpre⟩
    rw [List.forall₂_map_left_iff]
    exact hpss.imp fun _ _ hns => (mapped_eq hmaps hs hns).2

end Translate

/-! ### Appending the changes of an entry -/

/-- The container behind appending changes to its columns. -/
def appendChanges (c : CRevisionInfoContainer) (rev : List SPerChangeInfo) :
    CRevisionInfoContainer :=
  { c with
    changes := c.changes ++ rev.map SPerChangeInfo.change
    changedPathTypes := c.changedPathTypes ++ rev.map SPerChangeInfo.changedPathType
    changedPaths := c.changedPaths ++ rev.map SPerChangeInfo.changedPath
    textModifies := c.textModifies ++ rev.map SPerChangeInfo.textModifies
    propsModifies := c.propsModifies ++ rev.map SPerChangeInfo.propsModifies
    copyFromPaths := c.copyFromPaths ++
      (rev.filter SPerChangeInfo.hasFromPath).map SPerChangeInfo.copyFromPath
    copyFromRevisions := c.copyFromRevisions ++
      (rev.filter SPerChangeInfo.hasFromPath).map SPerChangeInfo.copyFromRevision }

section Append

variable {c old newData : CRevisionInfoContainer} {front rev back : List SPerChangeInfo}

theorem filter_middle (front rev back : List SPerChangeInfo) :
    (front ++ rev ++ back).filter SPerChangeInfo.hasFromPath =
      front.filter SPerChangeInfo.hasFromPath ++ rev.filter SPerChangeInfo.hasFromPath ++
        back.filter SPerChangeInfo.hasFromPath := by
  rw [List.filter_append, List.filter_append]

/-- Old changes are appended. -/
theorem keepChanges_eq (h : old.Lists (front ++ rev ++ back)) :
    c.keepChanges old front.length (front.length + rev.length)
      (front.filter SPerChangeInfo.hasFromPath).length
      ((front.filter SPerChangeInfo.hasFromPath).length +
        (rev.filter SPerChangeInfo.hasFromPath).length) = .ok (c.appendChanges rev) := by
  unfold keepChanges appendChanges
  simp only [h.changes, h.changedPaths, h.changedPathTypes, h.textModifies, h.propsModifies,
    h.copyFromPaths, h.copyFromRevisions, filter_middle, slice_map_middle, bind, Except.bind]
  split
  · rename_i hlen
    have hnil : rev.filter SPerChangeInfo.hasFromPath = [] :=
      List.eq_nil_of_length_eq_zero (by omega)
    rw [hnil, List.map_nil, List.map_nil, List.append_nil, List.append_nil]
    rfl
  · rfl

/-- The changes of a source entry are appended, with their paths translated. -/
theorem copyChanges_eq {news : List (List SPerChangeInfo)} (h : newData.HoldsChanges news) {s : ℕ}
    (hs : news[s]? = some rev) {d : CPathDictionary} {mapping : List ℕ}
    (hmaps : Maps d newData.paths mapping newData.paths.size) :
    (do
      let c ← c.copyChanges newData mapping s
      c.copyCopies newData mapping s) =
        .ok (c.appendChanges (rev.map (SPerChangeInfo.translate mapping))) := by
  have hlt := (List.getElem?_eq_some_iff.mp hs).1
  have hvalid := h.valid rev (List.mem_of_getElem? hs)
  have hlists := h.lists
  rw [flatten_split hs] at hlists
  have hcopies : (copiesOf news)[s]? = some (rev.filter SPerChangeInfo.hasFromPath) := by
    rw [copiesOf, List.getElem?_map, hs]
    rfl
  have hfirst : offsetOf (copiesOf news) s =
      ((news.take s).flatten.filter SPerChangeInfo.hasFromPath).length := by
    rw [offsetOf, take_copiesOf, copiesOf_flatten]
  have hpaths := @mapM_mapped _ _ _ hmaps h.built (rev.map SPerChangeInfo.changedPath)
    (List.forall_mem_map.mpr fun x hx => (hvalid x hx).path)
  have hfrom := @mapM_mapped _ _ _ hmaps h.built
    ((rev.filter SPerChangeInfo.hasFromPath).map SPerChangeInfo.copyFromPath)
    (List.forall_mem_map.mpr fun x hx =>
      (hvalid x (List.mem_of_mem_filter hx)).copy (List.of_mem_filter hx))
  have hchanges : c.copyChanges newData mapping s = .ok { c with
      changes := c.changes ++ rev.map SPerChangeInfo.change
      changedPathTypes := c.changedPathTypes ++ rev.map SPerChangeInfo.changedPathType
      changedPaths := c.changedPaths ++ (rev.map SPerChangeInfo.changedPath).map (translated mapping)
      textModifies := c.textModifies ++ rev.map SPerChangeInfo.textModifies
      propsModifies := c.propsModifies ++ rev.map SPerChangeInfo.propsModifies } := by
    unfold copyChanges
    rw [h.changesOffsets, offsetsFrom_getElem? hlt.le, offsetsFrom_getElem? hlt, offsetOf_succ hs,
      Nat.zero_add, Nat.zero_add]
    simp only [checked, bind, Except.bind, positions_eq (Nat.le_add_right _ _),
      Nat.add_sub_cancel_left]
    simp only [hlists.changes, hlists.changedPaths, hlists.changedPathTypes, hlists.textModifies,
      hlists.propsModifies, offsetOf, gather_map_middle, hpaths]
    rfl
  rw [hchanges]
  simp only [bind, Except.bind]
  unfold copyCopies
  rw [h.copyFromOffsets, offsetsFrom_getElem? (by simpa using hlt.le),
    offsetsFrom_getElem? (by simpa using hlt), offsetOf_succ hcopies, Nat.zero_add, Nat.zero_add]
  simp only [checked, bind, Except.bind, positions_eq (Nat.le_add_right _ _),
    Nat.add_sub_cancel_left]
  simp only [hfirst, hlists.copyFromPaths, hlists.copyFromRevisions, filter_middle,
    gather_map_middle, hfrom]
  unfold appendChanges
  rw [filter_translate]
  simp only [List.map_map, pure, Except.pure]
  rfl

end Append

/-! ### The splicing loop -/

/-- The container while its changes are spliced: the lists `done` are written, and the tables still
have their old entries behind these. -/
def splicing (c : CRevisionInfoContainer) (done : List (List SPerChangeInfo))
    (changeTail copyTail : List ℕ) (roots : List Index) (sums : List UInt8) :
    CRevisionInfoContainer :=
  { c with
    changes := done.flatten.map SPerChangeInfo.change
    changedPathTypes := done.flatten.map SPerChangeInfo.changedPathType
    changedPaths := done.flatten.map SPerChangeInfo.changedPath
    textModifies := done.flatten.map SPerChangeInfo.textModifies
    propsModifies := done.flatten.map SPerChangeInfo.propsModifies
    copyFromPaths := (copiesOf done).flatten.map SPerChangeInfo.copyFromPath
    copyFromRevisions := (copiesOf done).flatten.map SPerChangeInfo.copyFromRevision
    changesOffsets := offsetsFrom 0 done ++ changeTail
    copyFromOffsets := offsetsFrom 0 (copiesOf done) ++ copyTail
    rootPaths := roots
    sumChanges := sums }

section Splicing

variable {c old newData : CRevisionInfoContainer} {m : IndexMapping} {mapping : List ℕ} {keep : Bool}
  {done news : List (List SPerChangeInfo)} {changeTail copyTail : List ℕ}

/-- The tables behind writing one more list. -/
theorem splicing_storeOffsets (rev : List SPerChangeInfo) (roots : List Index) (sums : List UInt8)
    {change copy : ℕ} :
    ((c.splicing done (change :: changeTail) (copy :: copyTail) roots sums).appendChanges
        rev).storeChangeOffsets done.length =
      .ok (c.splicing (done ++ [rev]) changeTail copyTail roots sums) := by
  have hstore := store_append (offsetsFrom 0 done) changeTail change
    (done ++ [rev]).flatten.length
  have hstore' := store_append (offsetsFrom 0 (copiesOf done)) copyTail copy
    (copiesOf (done ++ [rev])).flatten.length
  rw [offsetsFrom_length] at hstore
  rw [offsetsFrom_length, copiesOf_length] at hstore'
  have hflat : ∀ {β : Type} (f : SPerChangeInfo → β),
      done.flatten.map f ++ rev.map f = (done ++ [rev]).flatten.map f := by
    intro β f
    simp
  have hcopies : ∀ {β : Type} (f : SPerChangeInfo → β), (copiesOf done).flatten.map f ++
      (rev.filter SPerChangeInfo.hasFromPath).map f = (copiesOf (done ++ [rev])).flatten.map f := by
    intro β f
    rw [copiesOf_concat]
    simp
  unfold storeChangeOffsets splicing appendChanges
  simp only [hflat, hcopies, List.length_map, hstore, hstore', bind, Except.bind, pure, Except.pure]
  rw [offsetsFrom_concat, Nat.zero_add, copiesOf_concat, offsetsFrom_concat, Nat.zero_add,
    ← copiesOf_concat]
  simp

/-- The offset behind an entry is read from the old part of a table. -/
theorem offset_behind {α : Type} (ls : List (List α)) (tail : List ℕ) (offset : ℕ) :
    (offsetsFrom 0 ls ++ offset :: tail)[ls.length + 1]? = some offset := by
  rw [List.getElem?_append_right (by rw [offsetsFrom_length]), offsetsFrom_length, Nat.sub_self]
  rfl

theorem splicing_offsets (roots : List Index) (sums : List UInt8) (change copy : ℕ) :
    (c.splicing done (change :: changeTail) (copy :: copyTail) roots
        sums).changesOffsets[done.length + 1]? = some change ∧
      (c.splicing done (change :: changeTail) (copy :: copyTail) roots
        sums).copyFromOffsets[done.length + 1]? = some copy := by
  refine ⟨offset_behind done changeTail change, ?_⟩
  have h := offset_behind (copiesOf done) copyTail copy
  rwa [copiesOf_length] at h

/-- A round for an entry that keeps its changes. -/
theorem round_keep {front rev back : List SPerChangeInfo} (hold : old.Lists (front ++ rev ++ back))
    (hfind : newData.replacement m HAS_CHANGEDPATHS keep done.length = .ok none)
    (roots : List Index) (sums : List UInt8) :
    updateChangesRound newData old m mapping keep done.length front.length
        (front.filter SPerChangeInfo.hasFromPath).length
        (c.splicing done ((front.length + rev.length) :: changeTail)
          (((front.filter SPerChangeInfo.hasFromPath).length +
            (rev.filter SPerChangeInfo.hasFromPath).length) :: copyTail) roots sums) =
      .ok (c.splicing (done ++ [rev]) changeTail copyTail roots sums, front.length + rev.length,
        (front.filter SPerChangeInfo.hasFromPath).length +
          (rev.filter SPerChangeInfo.hasFromPath).length) := by
  obtain ⟨hchange, hcopy⟩ := @splicing_offsets c done changeTail copyTail roots sums
    (front.length + rev.length)
    ((front.filter SPerChangeInfo.hasFromPath).length +
      (rev.filter SPerChangeInfo.hasFromPath).length)
  unfold updateChangesRound
  rw [hchange, hcopy, hfind]
  simp only [checked, bind, Except.bind]
  rw [keepChanges_eq hold]
  simp only [splicing_storeOffsets, pure, Except.pure]

/-- The changes, the root path and the sum that a source entry gives. -/
def sourceChanges (mapping : List ℕ) (news : List (List SPerChangeInfo)) (s : ℕ) :
    List SPerChangeInfo :=
  (news.getD s []).map (SPerChangeInfo.translate mapping)

@[inherit_doc sourceChanges] def sourceRoot (mapping : List ℕ) (newData : CRevisionInfoContainer)
    (s : ℕ) : Index :=
  translated mapping (newData.rootPaths.getD s ⊤)

@[inherit_doc sourceChanges] def sourceSum (news : List (List SPerChangeInfo)) (s : ℕ) : UInt8 :=
  sumOf (news.getD s [])

/-- A round for an entry that takes over the changes of a source entry. -/
theorem round_take (hnew : newData.HoldsChanges news) {d : CPathDictionary}
    (hmaps : Maps d newData.paths mapping newData.paths.size) {s : ℕ} (hs : s < news.length)
    (hfind : newData.replacement m HAS_CHANGEDPATHS keep done.length = .ok (some s))
    {roots rootTail : List Index} {sums sumTail : List UInt8} {root : Index} {sum : UInt8}
    (hroots : roots.length = done.length) (hsums : sums.length = done.length)
    (change copy firstChange firstCopy : ℕ) :
    updateChangesRound newData old m mapping keep done.length firstChange firstCopy
        (c.splicing done (change :: changeTail) (copy :: copyTail) (roots ++ root :: rootTail)
          (sums ++ sum :: sumTail)) =
      .ok (c.splicing (done ++ [sourceChanges mapping news s]) changeTail copyTail
        (roots ++ sourceRoot mapping newData s :: rootTail)
        (sums ++ sourceSum news s :: sumTail), change, copy) := by
  obtain ⟨hchange, hcopy⟩ := @splicing_offsets c done changeTail copyTail
    (roots ++ root :: rootTail) (sums ++ sum :: sumTail) change copy
  have hsrc : news[s]? = some (news.getD s []) := by
    rw [List.getD_eq_getElem?_getD, List.getElem?_eq_getElem hs]
    rfl
  have hcopyAll := copyChanges_eq (c := c.splicing done (change :: changeTail) (copy :: copyTail)
    (roots ++ root :: rootTail) (sums ++ sum :: sumTail)) hnew hsrc hmaps
  have hsum : newData.sumChanges[s]? = some (sourceSum news s) := by
    rw [hnew.sums, List.getElem?_map, hsrc]
    rfl
  obtain ⟨newRoot, hnewRoot, hisRoot⟩ := hnew.root hsrc
  have hmapped : mapped mapping newRoot = .ok (sourceRoot mapping newData s) := by
    rw [(hisRoot.translate hmaps hnew.built).1, sourceRoot, List.getD_eq_getElem?_getD, hnewRoot]
    rfl
  have hstore := store_append roots rootTail root (sourceRoot mapping newData s)
  have hstore' := store_append sums sumTail sum (sourceSum news s)
  rw [hroots] at hstore
  rw [hsums] at hstore'
  have htake : (c.splicing done (change :: changeTail) (copy :: copyTail)
      (roots ++ root :: rootTail) (sums ++ sum :: sumTail)).takeChanges newData mapping
        done.length s = .ok ((c.splicing done (change :: changeTail) (copy :: copyTail)
          (roots ++ sourceRoot mapping newData s :: rootTail)
          (sums ++ sourceSum news s :: sumTail)).appendChanges (sourceChanges mapping news s)) := by
    unfold takeChanges
    rw [← bind_assoc, hcopyAll, hnewRoot, hsum]
    simp only [checked, bind, Except.bind, hmapped]
    unfold splicing appendChanges
    dsimp only
    rw [hstore, hstore']
    rfl
  unfold updateChangesRound
  rw [hchange, hcopy, hfind]
  simp only [checked, bind, Except.bind]
  rw [htake]
  simp only [splicing_storeOffsets, pure, Except.pure]

/-- The loop over the entries that are left. -/
theorem updateChangesLoop_eq (hnew : newData.HoldsChanges news) {d : CPathDictionary}
    (hmaps : Maps d newData.paths mapping newData.paths.size) (hm : (m.map Prod.fst).Nodup)
    (hsource : ∀ e ∈ m, e.2 < news.length) (hflags : newData.presenceFlags.length = news.length)
    {rest : List (List SPerChangeInfo)} {front : List SPerChangeInfo}
    (hold : old.Lists (front ++ rest.flatten)) {roots rootTail : List Index}
    {sums sumTail : List UInt8} (hroots : roots.length = done.length)
    (hsums : sums.length = done.length) (hrootTail : rootTail.length = rest.length)
    (hsumTail : sumTail.length = rest.length) :
    updateChangesLoop newData old m mapping keep rest.length done.length front.length
        (front.filter SPerChangeInfo.hasFromPath).length
        (c.splicing done (offsetsFrom front.length rest).tail
          (offsetsFrom (front.filter SPerChangeInfo.hasFromPath).length (copiesOf rest)).tail
          (roots ++ rootTail) (sums ++ sumTail)) =
      .ok (c.splicing
        (done ++ (m.taken (newData.supplied HAS_CHANGEDPATHS keep)).splice
          (sourceChanges mapping news) done.length rest) [] []
        (roots ++ (m.taken (newData.supplied HAS_CHANGEDPATHS keep)).splice
          (sourceRoot mapping newData) done.length rootTail)
        (sums ++ (m.taken (newData.supplied HAS_CHANGEDPATHS keep)).splice
          (sourceSum news) done.length sumTail)) := by
  induction rest generalizing done front roots rootTail sums sumTail with
  | nil =>
    obtain rfl := List.eq_nil_of_length_eq_zero hrootTail
    obtain rfl := List.eq_nil_of_length_eq_zero hsumTail
    simp only [IndexMapping.splice, List.append_nil]
    rfl
  | cons rev rest ih =>
    obtain ⟨root, rootTail, rfl⟩ := List.exists_cons_of_length_eq_add_one hrootTail
    obtain ⟨sum, sumTail, rfl⟩ := List.exists_cons_of_length_eq_add_one hsumTail
    rw [List.flatten_cons, ← List.append_assoc] at hold
    have hrepl := @replacement_eq newData HAS_CHANGEDPATHS keep _ hm
      (fun e he => hflags ▸ hsource e he) done.length
    have hfilter : ((front ++ rev).filter SPerChangeInfo.hasFromPath).length =
        (front.filter SPerChangeInfo.hasFromPath).length +
          (rev.filter SPerChangeInfo.hasFromPath).length := by
      rw [List.filter_append, List.length_append]
    -- what is left behind the round
    have hrest := fun (new : List SPerChangeInfo) (root' : Index) (sum' : UInt8) =>
      @ih (done ++ [new]) (front ++ rev) hold (roots ++ [root']) rootTail (sums ++ [sum'])
        sumTail (by simp [hroots]) (by simp [hsums])
        (by simpa using hrootTail) (by simpa using hsumTail)
    rw [List.length_append, hfilter] at hrest
    simp only [List.length_append, List.length_singleton, List.append_assoc,
      List.singleton_append] at hrest
    rw [List.length_cons, updateChangesLoop, offsetsFrom, List.tail_cons, copiesOf, List.map_cons,
      offsetsFrom, List.tail_cons, ← copiesOf, offsetsFrom_eq_cons, offsetsFrom_eq_cons _ (copiesOf _)]
    simp only [IndexMapping.splice]
    cases hfind : (m.taken (newData.supplied HAS_CHANGEDPATHS keep)).find done.length with
    | none =>
      rw [hfind] at hrepl
      rw [round_keep hold hrepl]
      exact hrest rev root sum
    | some s =>
      rw [hfind] at hrepl
      have hs : s < news.length :=
        hsource _ (List.mem_of_mem_filter (IndexMapping.mem_of_find hfind))
      rw [round_take hnew hmaps hs hrepl hroots hsums]
      exact hrest _ _ _

/-- Before the loop, no list is written. -/
theorem splicing_nil {olds : List (List SPerChangeInfo)} (h : c.HoldsChanges olds) :
    { c with
      changes := [], changedPaths := [], changedPathTypes := [], copyFromPaths := []
      copyFromRevisions := [], textModifies := [], propsModifies := [] } =
    c.splicing [] (offsetsFrom 0 olds).tail (offsetsFrom 0 (copiesOf olds)).tail c.rootPaths
      c.sumChanges := by
  have hchanges : c.changesOffsets =
      offsetsFrom 0 ([] : List (List SPerChangeInfo)) ++ (offsetsFrom 0 olds).tail :=
    h.changesOffsets.trans (offsetsFrom_eq_cons 0 olds)
  have hcopies : c.copyFromOffsets =
      offsetsFrom 0 (copiesOf []) ++ (offsetsFrom 0 (copiesOf olds)).tail :=
    h.copyFromOffsets.trans (offsetsFrom_eq_cons 0 (copiesOf olds))
  unfold splicing
  rw [← hchanges, ← hcopies]
  rfl

/-- **Behind `UpdateChanges`, the lists of changes are the spliced ones**, and only the columns of
the changes have changed. -/
theorem HoldsChanges.updateChanges {olds : List (List SPerChangeInfo)} (h : c.HoldsChanges olds)
    (hsize : c.size = olds.length) (hnew : newData.HoldsChanges news)
    (hmaps : Maps c.paths newData.paths mapping newData.paths.size)
    (hm : (m.map Prod.fst).Nodup) (hsource : ∀ e ∈ m, e.2 < news.length)
    (hflags : newData.presenceFlags.length = news.length) :
    ∃ roots sums, c.updateChanges newData m mapping keep = .ok (c.splicing
        ((m.taken (newData.supplied HAS_CHANGEDPATHS keep)).splice
          (sourceChanges mapping news) 0 olds) [] [] roots sums) ∧
      (c.splicing ((m.taken (newData.supplied HAS_CHANGEDPATHS keep)).splice
          (sourceChanges mapping news) 0 olds) [] [] roots sums).HoldsChanges
        ((m.taken (newData.supplied HAS_CHANGEDPATHS keep)).splice
          (sourceChanges mapping news) 0 olds) := by
  have hrootsLen : c.rootPaths.length = olds.length := h.roots.length_eq
  have hsumsLen : c.sumChanges.length = olds.length := by rw [h.sums, List.length_map]
  have hloop := @updateChangesLoop_eq c c newData m mapping keep [] news hnew _ hmaps hm hsource
    hflags olds [] h.lists [] c.rootPaths [] c.sumChanges rfl rfl hrootsLen hsumsLen
  have hget : ∀ e ∈ m.taken (newData.supplied HAS_CHANGEDPATHS keep),
      news[e.2]? = some (news.getD e.2 []) := by
    intro e he
    rw [List.getD_eq_getElem?_getD, List.getElem?_eq_getElem (hsource e (List.mem_of_mem_filter he))]
    rfl
  simp only [List.nil_append, List.length_nil, List.filter_nil] at hloop
  refine ⟨(m.taken (newData.supplied HAS_CHANGEDPATHS keep)).splice (sourceRoot mapping newData) 0
      c.rootPaths, (m.taken (newData.supplied HAS_CHANGEDPATHS keep)).splice (sourceSum news) 0
      c.sumChanges, ?_, ?_, ⟨rfl, rfl, rfl, rfl, rfl, ?_, ?_⟩, ?_, ?_, ?_, ?_, ?_⟩
  · rw [CRevisionInfoContainer.updateChanges, splicing_nil h, hsize]
    exact hloop
  · exact h.built
  · rw [← copiesOf_flatten]
    rfl
  · rw [← copiesOf_flatten]
    rfl
  · exact List.append_nil _
  · exact List.append_nil _
  · show IndexMapping.splice _ _ 0 c.sumChanges = _
    rw [h.sums, IndexMapping.splice_map]
    congr 1
    funext s
    exact (sumOf_translate mapping _).symm
  · refine IndexMapping.splice_forall₂ (fun e he => ?_) h.roots 0
    obtain ⟨root, hroot, hisRoot⟩ := hnew.root (hget e he)
    have htr := (hisRoot.translate hmaps hnew.built).2
    rwa [show root = newData.rootPaths.getD e.2 ⊤ by
      rw [List.getD_eq_getElem?_getD, hroot]; rfl] at htr
  · refine IndexMapping.splice_forall (fun e he => ?_) h.valid 0
    refine List.forall_mem_map.mpr fun x hx => ?_
    exact (hnew.valid _ (List.mem_of_getElem? (hget e he)) x hx).translate hmaps hnew.built

end Splicing

end CRevisionInfoContainer

end TortoiseSvn.LogCache
