import TortoiseSvn.LogCache.RevisionInfoUpdate

/-!
# The columns of the changes

The changes of all revisions are kept in parallel columns with two offset tables, one for the
changes and one for their copy sources, which fewer columns hold. `ChangeColumns.Holds` says that
the columns hold given lists of changes, one for each revision, together with the sums and the
common root paths that are derived from them.

Main results: `changesOf_eq`, an iterator reads the list of a revision, and `Holds.insert` and
`Holds.addChange`, what adding data does to the lists.
-/

namespace TortoiseSvn.LogCache

open TortoiseSvn.Lib CPathDictionary

namespace CPathDictionary

/-- The path at an index, which is not `NO_INDEX`, has the names `ns`. -/
def IsNamed (d : CPathDictionary) (index : Index) (ns : List (List UInt8)) : Prop :=
  ∃ i : ℕ, index = (i : Index) ∧ d.Named i ns

variable {d d' : CPathDictionary} {index : Index} {ns ms : List (List UInt8)}

theorem IsNamed.unique (h : d.IsNamed index ns) (h' : d.IsNamed index ms) : ns = ms := by
  obtain ⟨i, rfl, hi⟩ := h
  obtain ⟨j, hj, hn⟩ := h'
  obtain rfl := Nat.cast_injective (R := Index) hj
  exact hi.unique hn

theorem IsNamed.extends (h : d.IsNamed index ns) (hd : d.Built) (hext : d.Extends d') :
    d'.IsNamed index ns := by
  obtain ⟨i, rfl, hi⟩ := h
  exact ⟨i, rfl, hi.extends hd hext⟩

end CPathDictionary

namespace CRevisionInfoContainer

/-! ### Lists of changes -/

/-- The changes with a copy source, revision by revision. -/
def copiesOf (revs : List (List SPerChangeInfo)) : List (List SPerChangeInfo) :=
  revs.map (List.filter SPerChangeInfo.hasFromPath)

/-- All actions of some changes. -/
def sumOf (rev : List SPerChangeInfo) : UInt8 := rev.foldl (fun sum x => sum ||| x.change) 0

@[simp] theorem sumOf_nil : sumOf [] = 0 := rfl

theorem sumOf_concat (rev : List SPerChangeInfo) (x : SPerChangeInfo) :
    sumOf (rev ++ [x]) = sumOf rev ||| x.change := by
  rw [sumOf, List.foldl_append]
  rfl

theorem sumOf_perm {rev rev' : List SPerChangeInfo} (h : rev.Perm rev') : sumOf rev = sumOf rev' :=
  h.foldl_eq' (fun x _ y _ sum => by
    rw [UInt8.or_assoc, UInt8.or_assoc, UInt8.or_comm x.change]) 0

@[simp] theorem copiesOf_length (revs : List (List SPerChangeInfo)) :
    (copiesOf revs).length = revs.length := List.length_map _

theorem copiesOf_flatten (revs : List (List SPerChangeInfo)) :
    (copiesOf revs).flatten = revs.flatten.filter SPerChangeInfo.hasFromPath :=
  List.filter_flatten.symm

theorem copiesOf_append (revs revs' : List (List SPerChangeInfo)) :
    copiesOf (revs ++ revs') = copiesOf revs ++ copiesOf revs' := List.map_append

/-- A change whose paths are in the dictionary, and that has a copy source only if its flag says
so. -/
structure SPerChangeInfo.Valid (d : CPathDictionary) (x : SPerChangeInfo) : Prop where
  path : ∃ ns, d.IsNamed x.changedPath ns
  copy : x.hasFromPath = true → ∃ ns, d.IsNamed x.copyFromPath ns
  noCopy : x.hasFromPath = false → x.copyFromPath = ⊤ ∧ x.copyFromRevision = 0

theorem SPerChangeInfo.Valid.extends {d d' : CPathDictionary} {x : SPerChangeInfo} (h : x.Valid d)
    (hd : d.Built) (hext : d.Extends d') : x.Valid d' where
  path := h.path.imp fun _ hns => hns.extends hd hext
  copy := fun hx => (h.copy hx).imp fun _ hns => hns.extends hd hext
  noCopy := h.noCopy

/-- The root path of a revision: none without changes, and else the path whose names are those that
all changed paths begin with. -/
inductive IsRootOf (d : CPathDictionary) : Index → List SPerChangeInfo → Prop
  | none : IsRootOf d ⊤ []
  | some {root : Index} {rev : List SPerChangeInfo} {rs : List (List UInt8)}
      {pss : List (List (List UInt8))} : rev ≠ [] → d.IsNamed root rs →
      List.Forall₂ (fun x ps => d.IsNamed x.changedPath ps) rev pss →
      (∀ ms, ms <+: rs ↔ ∀ ps ∈ pss, ms <+: ps) → IsRootOf d root rev

theorem IsRootOf.extends {d d' : CPathDictionary} {root : Index} {rev : List SPerChangeInfo}
    (h : IsRootOf d root rev) (hd : d.Built) (hext : d.Extends d') : IsRootOf d' root rev := by
  cases h with
  | none => exact .none
  | some hne hroot hpss hpre =>
    exact .some hne (hroot.extends hd hext) (hpss.imp fun _ _ hns => hns.extends hd hext) hpre

/-- One more change. -/
theorem IsRootOf.extendRoot {d : CPathDictionary} (hd : d.Built) {root : Index}
    {rev : List SPerChangeInfo} (h : IsRootOf d root rev) {x : SPerChangeInfo} {path : ℕ}
    (hx : x.changedPath = (path : Index)) {ns : List (List UInt8)} (hn : d.Named path ns) :
    ∃ root', CRevisionInfoContainer.extendRoot d root path = .ok root' ∧
      IsRootOf d root' (rev ++ [x]) := by
  unfold CRevisionInfoContainer.extendRoot
  cases h with
  | none =>
    refine ⟨path, if_pos rfl, @IsRootOf.some _ _ _ _ [ns] (List.cons_ne_nil _ _)
      ⟨path, rfl, hn⟩ (.cons ⟨path, hx, hn⟩ .nil) fun ms => ?_⟩
    rw [List.forall_mem_singleton]
  | @some _ _ rs pss hne hroot hpss hpre =>
    obtain ⟨i, rfl, hi⟩ := hroot
    obtain ⟨r, rs', hr, hrs', hpre'⟩ := hd.commonRoot hn hi
    rw [if_neg (WithTop.natCast_ne_top i)]
    refine ⟨r, hr, @IsRootOf.some _ _ _ _ (pss ++ [ns]) (List.append_ne_nil_of_right_ne_nil _
      (List.cons_ne_nil _ _)) ⟨r, rfl, hrs'⟩ (List.rel_append hpss (.cons ⟨path, hx, hn⟩ .nil))
      fun ms => ?_⟩
    rw [hpre', hpre, List.forall_mem_append, List.forall_mem_singleton, and_comm]

/-- The order of the changes does not matter. -/
theorem IsRootOf.perm {d : CPathDictionary} {root : Index} {rev rev' : List SPerChangeInfo}
    (h : IsRootOf d root rev) (hp : rev'.Perm rev) : IsRootOf d root rev' := by
  cases h with
  | none =>
    obtain rfl := hp.eq_nil
    exact .none
  | @some _ _ rs pss hne hroot hpss hpre =>
    obtain ⟨pss', hpss', hp'⟩ := List.perm_comp_forall₂ hp hpss
    refine .some (fun hnil => hne ?_) hroot hpss' fun ms => ?_
    · rw [hnil] at hp
      exact hp.symm.eq_nil
    · rw [hpre]
      exact forall_congr' fun ps => by rw [hp'.mem_iff]

/-! ### Columns -/

/-- What a container has about changes. -/
structure ChangeColumns where
  paths : CPathDictionary
  rootPaths : List Index
  sumChanges : List UInt8
  changesOffsets : List ℕ
  copyFromOffsets : List ℕ
  changes : List UInt8
  changedPaths : List Index
  changedPathTypes : List ℕ
  copyFromPaths : List Index
  copyFromRevisions : List ℕ
  textModifies : List UInt8
  propsModifies : List UInt8

/-- The columns of the changes. -/
def changeColumns (c : CRevisionInfoContainer) : ChangeColumns where
  paths := c.paths
  rootPaths := c.rootPaths
  sumChanges := c.sumChanges
  changesOffsets := c.changesOffsets
  copyFromOffsets := c.copyFromOffsets
  changes := c.changes
  changedPaths := c.changedPaths
  changedPathTypes := c.changedPathTypes
  copyFromPaths := c.copyFromPaths
  copyFromRevisions := c.copyFromRevisions
  textModifies := c.textModifies
  propsModifies := c.propsModifies

/-- The columns of a container hold the changes `xs`, one behind the other. -/
structure Lists (c : CRevisionInfoContainer) (xs : List SPerChangeInfo) : Prop where
  changes : c.changes = xs.map SPerChangeInfo.change
  changedPaths : c.changedPaths = xs.map SPerChangeInfo.changedPath
  changedPathTypes : c.changedPathTypes = xs.map SPerChangeInfo.changedPathType
  textModifies : c.textModifies = xs.map SPerChangeInfo.textModifies
  propsModifies : c.propsModifies = xs.map SPerChangeInfo.propsModifies
  copyFromPaths : c.copyFromPaths =
    (xs.filter SPerChangeInfo.hasFromPath).map SPerChangeInfo.copyFromPath
  copyFromRevisions : c.copyFromRevisions =
    (xs.filter SPerChangeInfo.hasFromPath).map SPerChangeInfo.copyFromRevision

/-- The container holds the lists of changes `revs`, one for each revision. -/
structure HoldsChanges (c : CRevisionInfoContainer) (revs : List (List SPerChangeInfo)) : Prop where
  built : c.paths.Built
  lists : c.Lists revs.flatten
  changesOffsets : c.changesOffsets = offsetsFrom 0 revs
  copyFromOffsets : c.copyFromOffsets = offsetsFrom 0 (copiesOf revs)
  sums : c.sumChanges = revs.map sumOf
  roots : List.Forall₂ (IsRootOf c.paths) c.rootPaths revs
  valid : ∀ rev ∈ revs, ∀ x ∈ rev, x.Valid c.paths

/-- Whether a container holds lists of changes depends on the columns of the changes only. -/
theorem HoldsChanges.congr {c c' : CRevisionInfoContainer} {revs : List (List SPerChangeInfo)}
    (h : c.HoldsChanges revs) (hc : c'.changeColumns = c.changeColumns) : c'.HoldsChanges revs := by
  have hpaths : c'.paths = c.paths := congrArg ChangeColumns.paths hc
  refine ⟨hpaths ▸ h.built, ⟨?_, ?_, ?_, ?_, ?_, ?_, ?_⟩, ?_, ?_, ?_, ?_, hpaths ▸ h.valid⟩
  · exact (congrArg ChangeColumns.changes hc).trans h.lists.changes
  · exact (congrArg ChangeColumns.changedPaths hc).trans h.lists.changedPaths
  · exact (congrArg ChangeColumns.changedPathTypes hc).trans h.lists.changedPathTypes
  · exact (congrArg ChangeColumns.textModifies hc).trans h.lists.textModifies
  · exact (congrArg ChangeColumns.propsModifies hc).trans h.lists.propsModifies
  · exact (congrArg ChangeColumns.copyFromPaths hc).trans h.lists.copyFromPaths
  · exact (congrArg ChangeColumns.copyFromRevisions hc).trans h.lists.copyFromRevisions
  · exact (congrArg ChangeColumns.changesOffsets hc).trans h.changesOffsets
  · exact (congrArg ChangeColumns.copyFromOffsets hc).trans h.copyFromOffsets
  · exact (congrArg ChangeColumns.sumChanges hc).trans h.sums
  · rw [hpaths, show c'.rootPaths = c.rootPaths from congrArg ChangeColumns.rootPaths hc]
    exact h.roots

theorem init_holdsChanges : init.HoldsChanges [] where
  built := .init
  lists := ⟨rfl, rfl, rfl, rfl, rfl, rfl, rfl⟩
  changesOffsets := rfl
  copyFromOffsets := rfl
  sums := rfl
  roots := .nil
  valid := fun _ h => absurd h List.not_mem_nil

/-! ### Reading -/

variable {c : CRevisionInfoContainer}

theorem getElem?_map_middle {α β : Type} (f : α → β) (l m : List α) (a : α) :
    ((l ++ a :: m).map f)[l.length]? = some (f a) := by
  rw [List.getElem?_map, List.getElem?_append_right le_rfl, Nat.sub_self]
  rfl

/-- What is read at the iterator of a change. -/
theorem Lists.perChangeInfo {pre post : List SPerChangeInfo} {x : SPerChangeInfo}
    (h : c.Lists (pre ++ x :: post)) (hx : x.Valid c.paths) :
    c.perChangeInfo ⟨pre.length, (pre.filter SPerChangeInfo.hasFromPath).length⟩ = .ok x := by
  unfold CRevisionInfoContainer.perChangeInfo
  simp only [h.changes, h.changedPaths, h.changedPathTypes, h.textModifies, h.propsModifies,
    getElem?_map_middle, checked, bind, Except.bind]
  cases hfrom : x.hasFromPath with
  | true =>
    have hfilter : (pre ++ x :: post).filter SPerChangeInfo.hasFromPath =
        pre.filter SPerChangeInfo.hasFromPath ++ x :: post.filter SPerChangeInfo.hasFromPath := by
      rw [List.filter_append, List.filter_cons_of_pos hfrom]
    rw [if_pos (of_decide_eq_true hfrom), h.copyFromPaths, h.copyFromRevisions, hfilter,
      getElem?_map_middle, getElem?_map_middle]
    rfl
  | false =>
    obtain ⟨hpath, hrev⟩ := hx.noCopy hfrom
    rw [if_neg (of_decide_eq_false hfrom), ← hpath, ← hrev]
    rfl

theorem Lists.readChanges {pre xs post : List SPerChangeInfo} (h : c.Lists (pre ++ xs ++ post))
    (hxs : ∀ x ∈ xs, x.Valid c.paths) : c.readChanges xs.length
      ⟨pre.length, (pre.filter SPerChangeInfo.hasFromPath).length⟩ = .ok xs := by
  induction xs generalizing pre with
  | nil => rfl
  | cons x xs ih =>
    obtain ⟨hx, hxs⟩ := List.forall_mem_cons.mp hxs
    rw [List.append_assoc, List.cons_append] at h
    have hnext : CChangesIterator.next
        ⟨pre.length, (pre.filter SPerChangeInfo.hasFromPath).length⟩ x =
        ⟨(pre ++ [x]).length, ((pre ++ [x]).filter SPerChangeInfo.hasFromPath).length⟩ := by
      cases hfrom : x.hasFromPath <;> simp [CChangesIterator.next, hfrom]
    have hrest := @ih (pre ++ [x]) (by rwa [List.append_assoc, List.append_assoc]) hxs
    rw [List.length_cons, CRevisionInfoContainer.readChanges, h.perChangeInfo hx]
    simp only [bind, Except.bind]
    rw [hnext, hrest]
    rfl

theorem HoldsChanges.getChangesBegin {revs : List (List SPerChangeInfo)} (h : c.HoldsChanges revs)
    {i : ℕ} (hi : i ≤ revs.length) :
    c.getChangesBegin i = .ok ⟨offsetOf revs i, offsetOf (copiesOf revs) i⟩ := by
  unfold CRevisionInfoContainer.getChangesBegin
  rw [h.changesOffsets, h.copyFromOffsets, offsetsFrom_getElem? hi,
    offsetsFrom_getElem? ((copiesOf_length revs).symm ▸ hi), Nat.zero_add, Nat.zero_add]
  rfl

theorem take_copiesOf (revs : List (List SPerChangeInfo)) (i : ℕ) :
    (copiesOf revs).take i = copiesOf (revs.take i) := List.map_take.symm

/-- The list of a revision between the lists before it and those behind it. -/
theorem flatten_split {α : Type} {ls : List (List α)} {i : ℕ} {l : List α} (h : ls[i]? = some l) :
    ls.flatten = (ls.take i).flatten ++ l ++ (ls.drop (i + 1)).flatten := by
  obtain ⟨hi, rfl⟩ := List.getElem?_eq_some_iff.mp h
  conv_lhs => rw [← List.take_append_drop i ls, List.drop_eq_getElem_cons hi]
  rw [List.flatten_append, List.flatten_cons, List.append_assoc]

/-- The root path of a revision. -/
theorem HoldsChanges.root {revs : List (List SPerChangeInfo)} (h : c.HoldsChanges revs) {i : ℕ}
    {rev : List SPerChangeInfo} (hi : revs[i]? = some rev) :
    ∃ root, c.rootPaths[i]? = some root ∧ IsRootOf c.paths root rev := by
  obtain ⟨hlt, rfl⟩ := List.getElem?_eq_some_iff.mp hi
  have hlt' : i < c.rootPaths.length := h.roots.length_eq ▸ hlt
  exact ⟨c.rootPaths[i], List.getElem?_eq_getElem hlt', List.Forall₂.get h.roots hlt' hlt⟩

/-- An iterator reads the changes of a revision, each copy with its own source. -/
theorem HoldsChanges.changesOf_eq {revs : List (List SPerChangeInfo)} (h : c.HoldsChanges revs)
    {i : ℕ} {rev : List SPerChangeInfo} (hi : revs[i]? = some rev) :
    c.changesOf i = .ok rev := by
  have hlt := (List.getElem?_eq_some_iff.mp hi).1
  have hlists := h.lists
  rw [flatten_split hi] at hlists
  have hread := hlists.readChanges (h.valid rev (List.mem_of_getElem? hi))
  have hcopy : offsetOf (copiesOf revs) i =
      ((revs.take i).flatten.filter SPerChangeInfo.hasFromPath).length := by
    rw [offsetOf, take_copiesOf, copiesOf_flatten]
  unfold CRevisionInfoContainer.changesOf CRevisionInfoContainer.getChangesEnd
  rw [h.getChangesBegin hlt.le, h.getChangesBegin hlt]
  simp only [bind, Except.bind]
  rw [if_pos (offsetOf_mono revs (Nat.le_succ i)), offsetOf_succ hi, Nat.add_sub_cancel_left, hcopy]
  exact hread

/-! ### Adding data -/

section Adding

variable {c' : CRevisionInfoContainer} {revs : List (List SPerChangeInfo)}

theorem forall_mem_concat {α : Type} {p : α → Prop} {l : List α} {a : α} :
    (∀ x ∈ l ++ [a], p x) ↔ (∀ x ∈ l, p x) ∧ p a := by
  rw [List.forall_mem_append, List.forall_mem_singleton]

/-- A revision is added without changes. -/
theorem HoldsChanges.insert (h : c.HoldsChanges revs) {delimiter : UInt8 → Bool}
    {author comment : List UInt8} {timeStamp : ℤ} {flags : UInt8} {index : ℕ}
    (hc : c.insert delimiter author comment timeStamp flags = .ok (c', index)) :
    c'.HoldsChanges (revs ++ [[]]) := by
  obtain ⟨changes, copies, -, -, hchanges, hcopies, -, -, -, rfl⟩ := insert_ok hc
  have hflat : (revs ++ [[]]).flatten = revs.flatten := by simp
  rw [h.changesOffsets, pushBackLast_offsets] at hchanges
  rw [h.copyFromOffsets, pushBackLast_offsets] at hcopies
  refine ⟨h.built, ?_, (Except.ok.inj hchanges).symm, ?_, ?_, ?_, ?_⟩
  · rw [hflat]
    exact ⟨h.lists.changes, h.lists.changedPaths, h.lists.changedPathTypes, h.lists.textModifies,
      h.lists.propsModifies, h.lists.copyFromPaths, h.lists.copyFromRevisions⟩
  · rw [copiesOf_append]
    exact (Except.ok.inj hcopies).symm
  · rw [List.map_append, ← h.sums]
    rfl
  · exact List.rel_append h.roots (.cons .none .nil)
  · exact forall_mem_concat.mpr ⟨h.valid, fun x hx => absurd hx List.not_mem_nil⟩

theorem forall₂_concat_right {α β : Type} {R : α → β → Prop} {l : List α} {m : List β} {b : β}
    (h : List.Forall₂ R l (m ++ [b])) :
    ∃ l' a, l = l' ++ [a] ∧ List.Forall₂ R l' m ∧ R a b := by
  rw [← List.forall₂_reverse_iff, List.reverse_append, List.reverse_singleton,
    List.singleton_append] at h
  obtain ⟨a, u, hab, hum, hl⟩ := List.forall₂_cons_right_iff.mp h
  refine ⟨u.reverse, a, ?_, ?_, hab⟩
  · rw [← List.reverse_reverse l, hl, List.reverse_cons]
  · rwa [← List.forall₂_reverse_iff, List.reverse_reverse]

/-- The tables behind adding a path to the last revision, for a change that has this path and these
flags. -/
theorem HoldsChanges.addChangedPath {rev : List SPerChangeInfo} (h : c.HoldsChanges (revs ++ [rev]))
    {flags textModified propsModified : UInt8} {pathType : ℕ} {path : List UInt8}
    (hc : c.addChangedPath flags pathType path textModified propsModified = .ok c')
    {x : SPerChangeInfo} (hpath : x.changedPath = ((c.paths.parsePath path).2 : Index))
    (hflags : x.change = flags) :
    c.paths.Extends c'.paths ∧ c'.paths.Built ∧ c'.paths.IsNamed x.changedPath (namesOf path) ∧
      c'.changesOffsets = offsetsFrom 0 (revs ++ [rev ++ [x]]) ∧
      c'.sumChanges = (revs ++ [rev ++ [x]]).map sumOf ∧
      List.Forall₂ (IsRootOf c'.paths) c'.rootPaths (revs ++ [rev ++ [x]]) := by
  obtain ⟨root, root', sums, changes, hroot, hroot', hsums, hchanges, rfl⟩ := addChangedPath_ok hc
  obtain ⟨hbuilt, hext, hnamed⟩ := h.built.parsePath path
  refine ⟨hext, hbuilt, ⟨_, hpath, hnamed⟩, ?_, ?_, ?_⟩
  · rw [h.changesOffsets, modifyBack_offsets revs rev x] at hchanges
    exact (Except.ok.inj hchanges).symm
  · rw [h.sums, List.map_append, List.map_singleton, modifyBack_concat] at hsums
    rw [List.map_append, List.map_singleton, sumOf_concat, hflags]
    exact (Except.ok.inj hsums).symm
  · obtain ⟨roots, last, hroots, hrevs, hlast⟩ := forall₂_concat_right h.roots
    rw [hroots, back_concat] at hroot
    obtain rfl := Except.ok.inj hroot
    obtain ⟨root'', hr, hisRoot⟩ := (hlast.extends h.built hext).extendRoot hbuilt hpath hnamed
    obtain rfl := Except.ok.inj (hroot'.symm.trans hr)
    show List.Forall₂ _ (c.rootPaths.dropLast ++ [root']) _
    rw [hroots, List.dropLast_concat]
    exact List.rel_append (hrevs.imp fun _ _ hr => hr.extends h.built hext) (.cons hisRoot .nil)

theorem flatten_concat_concat {α : Type} (ls : List (List α)) (l : List α) (a : α) :
    (ls ++ [l ++ [a]]).flatten = (ls ++ [l]).flatten ++ [a] := by simp

/-- A change in the columns behind the others. -/
theorem Lists.concat {c : CRevisionInfoContainer} {xs : List SPerChangeInfo} {x : SPerChangeInfo}
    (h : c.Lists xs)
    (hchange : c'.changes = c.changes ++ [x.change])
    (hpath : c'.changedPaths = c.changedPaths ++ [x.changedPath])
    (htype : c'.changedPathTypes = c.changedPathTypes ++ [x.changedPathType])
    (htext : c'.textModifies = c.textModifies ++ [x.textModifies])
    (hprops : c'.propsModifies = c.propsModifies ++ [x.propsModifies])
    (hfromPath : c'.copyFromPaths =
      c.copyFromPaths ++ if x.hasFromPath then [x.copyFromPath] else [])
    (hfromRev : c'.copyFromRevisions =
      c.copyFromRevisions ++ if x.hasFromPath then [x.copyFromRevision] else []) :
    c'.Lists (xs ++ [x]) := by
  have hfilter : (xs ++ [x]).filter SPerChangeInfo.hasFromPath =
      xs.filter SPerChangeInfo.hasFromPath ++ if x.hasFromPath then [x] else [] := by
    rw [List.filter_append, List.filter_singleton, Bool.cond_eq_ite]
  refine ⟨?_, ?_, ?_, ?_, ?_, ?_, ?_⟩
  · rw [hchange, h.changes, List.map_append, List.map_singleton]
  · rw [hpath, h.changedPaths, List.map_append, List.map_singleton]
  · rw [htype, h.changedPathTypes, List.map_append, List.map_singleton]
  · rw [htext, h.textModifies, List.map_append, List.map_singleton]
  · rw [hprops, h.propsModifies, List.map_append, List.map_singleton]
  · rw [hfromPath, h.copyFromPaths, hfilter, List.map_append]
    split <;> rfl
  · rw [hfromRev, h.copyFromRevisions, hfilter, List.map_append]
    split <;> rfl

theorem copiesOf_concat (revs : List (List SPerChangeInfo)) (rev : List SPerChangeInfo) :
    copiesOf (revs ++ [rev]) = copiesOf revs ++ [rev.filter SPerChangeInfo.hasFromPath] := by
  rw [copiesOf_append]
  rfl

theorem filter_concat {α : Type} (p : α → Bool) (l : List α) (a : α) :
    (l ++ [a]).filter p = if p a then l.filter p ++ [a] else l.filter p := by
  rw [List.filter_append, List.filter_singleton]
  cases p a <;> simp

/-- The changes that were there stay valid, and the new one is. -/
theorem HoldsChanges.valid_concat {rev : List SPerChangeInfo}
    (h : c.HoldsChanges (revs ++ [rev])) {d' : CPathDictionary} (hext : c.paths.Extends d')
    {x : SPerChangeInfo} (hx : x.Valid d') :
    ∀ rev' ∈ revs ++ [rev ++ [x]], ∀ y ∈ rev', y.Valid d' := by
  obtain ⟨hrevs, hrev⟩ := forall_mem_concat.mp h.valid
  refine forall_mem_concat.mpr ⟨fun r hr y hy => (hrevs r hr y hy).extends h.built hext, ?_⟩
  exact forall_mem_concat.mpr ⟨fun y hy => (hrev y hy).extends h.built hext, hx⟩

/-- **Adding a change** appends it to the last revision, with its copy source if it has one. -/
theorem HoldsChanges.addChange {rev : List SPerChangeInfo} (h : c.HoldsChanges (revs ++ [rev]))
    {action : TChangeAction} {pathType fromRevision : ℕ} {path fromPath : List UInt8}
    {textModified propsModified : UInt8}
    (hc : c.addChange action pathType path fromPath fromRevision textModified propsModified =
      .ok c') : ∃ x, c'.HoldsChanges (revs ++ [rev ++ [x]]) ∧
      c'.paths.IsNamed x.changedPath (namesOf path) ∧
      x.change = (if fromPath = [] then action.code else action.code ||| HAS_COPY_FROM) ∧
      (fromPath ≠ [] → c'.paths.IsNamed x.copyFromPath (namesOf fromPath) ∧
        x.copyFromRevision = fromRevision) := by
  unfold CRevisionInfoContainer.addChange at hc
  split at hc
  · exact nomatch hc
  split at hc
  · rename_i hnil
    let x : SPerChangeInfo := ⟨((c.paths.parsePath path).2 : Index), pathType, action.code, ⊤, 0,
      textModified, propsModified⟩
    have hfrom : x.hasFromPath = false := decide_eq_false (not_not.mpr action.no_copy)
    obtain ⟨hext, hbuilt, hnamed, hoffsets, hsums, hroots⟩ := h.addChangedPath (x := x) hc rfl rfl
    have hvalid : x.Valid c'.paths :=
      ⟨⟨_, hnamed⟩, fun ht => absurd (hfrom.symm.trans ht) Bool.false_ne_true, fun _ => ⟨rfl, rfl⟩⟩
    refine ⟨x, ⟨hbuilt, ?_, hoffsets, ?_, hsums, hroots, h.valid_concat hext hvalid⟩, hnamed,
      (if_pos hnil).symm, fun hne => absurd hnil hne⟩
    · rw [flatten_concat_concat]
      obtain ⟨_, _, _, _, -, -, -, -, rfl⟩ := addChangedPath_ok hc
      refine h.lists.concat rfl rfl rfl rfl rfl ?_ ?_ <;>
        · rw [hfrom]
          exact (List.append_nil _).symm
    · obtain ⟨_, _, _, _, -, -, -, -, rfl⟩ := addChangedPath_ok hc
      rw [copiesOf_concat, filter_concat, hfrom, if_neg Bool.false_ne_true, ← copiesOf_concat]
      exact h.copyFromOffsets
  · rename_i hne
    obtain ⟨c₁, hc₁, hc⟩ := bind_eq_ok.mp hc
    obtain ⟨copies, hcopies, hc'⟩ := addCopySource_ok hc
    let x : SPerChangeInfo := ⟨((c.paths.parsePath path).2 : Index), pathType,
      action.code ||| HAS_COPY_FROM, ((c₁.paths.parsePath fromPath).2 : Index), fromRevision,
      textModified, propsModified⟩
    have hfrom : x.hasFromPath = true := decide_eq_true action.copy
    obtain ⟨hext, hbuilt, hnamed, hoffsets, hsums, hroots⟩ := h.addChangedPath (x := x) hc₁ rfl rfl
    obtain ⟨hbuilt', hext', hnamed'⟩ := hbuilt.parsePath fromPath
    have hpaths : c'.paths = (c₁.paths.parsePath fromPath).1 := by rw [hc']
    rw [← hpaths] at hbuilt' hext' hnamed'
    have hvalid : x.Valid c'.paths := ⟨⟨_, hnamed.extends hbuilt hext'⟩,
      fun _ => ⟨_, _, rfl, hnamed'⟩, fun hf => absurd (hfrom.symm.trans hf) (Bool.false_ne_true ·.symm)⟩
    refine ⟨x, ⟨hbuilt', ?_, ?_, ?_, ?_, ?_, h.valid_concat (hext.trans hext') hvalid⟩,
      hnamed.extends hbuilt hext', (if_neg hne).symm, fun _ => ⟨⟨_, rfl, hnamed'⟩, rfl⟩⟩
    · rw [flatten_concat_concat, hc']
      obtain ⟨_, _, _, _, -, -, -, -, rfl⟩ := addChangedPath_ok hc₁
      refine h.lists.concat rfl rfl rfl rfl rfl ?_ ?_ <;>
        · rw [hfrom]
          rfl
    · rw [hc']
      exact hoffsets
    · obtain ⟨_, _, _, _, -, -, -, -, rfl⟩ := addChangedPath_ok hc₁
      rw [show c.copyFromOffsets = _ from h.copyFromOffsets, copiesOf_concat,
        modifyBack_offsets _ _ x] at hcopies
      rw [hc', copiesOf_concat, filter_concat, if_pos hfrom]
      exact (Except.ok.inj hcopies).symm
    · rw [hc']
      exact hsums
    · have hroots' := hroots.imp fun _ _ hr => hr.extends hbuilt hext'
      rw [hc'] at hroots' ⊢
      exact hroots'

end Adding

end CRevisionInfoContainer

end TortoiseSvn.LogCache
