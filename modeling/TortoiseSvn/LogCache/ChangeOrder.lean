import TortoiseSvn.LogCache.ChangeColumns

/-!
# Sorting the changes of a revision

`OptimizeChangeOrder` reads the changes of each revision, sorts them and writes them over the old
ones. The copy sources are written in the new order of their changes.

Main result: `HoldsChanges.optimizeChangeOrder`. The container then holds the sorted lists.
-/

namespace TortoiseSvn.LogCache

open TortoiseSvn.Lib CPathDictionary

/-! ### Overwriting a part of a list -/

/-- The list with the entries from position `p` on replaced by others. -/
def overwrite {α : Type} (l : List α) (p : ℕ) (ys : List α) : List α :=
  l.take p ++ ys ++ l.drop (p + ys.length)

section Overwrite

variable {α : Type}

theorem overwrite_nil (l : List α) (p : ℕ) : overwrite l p [] = l := by
  simp [overwrite]

theorem overwrite_middle (front back : List α) {xs ys : List α} (h : ys.length = xs.length) :
    overwrite (front ++ xs ++ back) front.length ys = front ++ ys ++ back := by
  rw [overwrite, h, ← List.length_append, List.drop_left, List.append_assoc front xs back,
    List.take_left]

/-- Entries can be written one by one. -/
theorem overwrite_cons {l : List α} {p : ℕ} (h : p < l.length) (a : α) (ys : List α) :
    overwrite (l.set p a) (p + 1) ys = overwrite l p (a :: ys) := by
  rw [overwrite, overwrite, List.length_cons, Nat.add_right_comm, Nat.add_assoc,
    List.drop_set_of_lt (by omega), List.take_set, List.take_add_one, List.getElem?_eq_getElem h,
    Option.toList_some, List.set_append_right _ _ (by simp), List.length_take, min_eq_left h.le,
    Nat.sub_self]
  simp

@[simp] theorem overwrite_length {l : List α} {p : ℕ} {ys : List α} (h : p + ys.length ≤ l.length) :
    (overwrite l p ys).length = l.length := by
  simp only [overwrite, List.length_append, List.length_take, List.length_drop]
  omega

theorem set_self {l : List α} {i : ℕ} {a : α} (h : l[i]? = some a) : l.set i a = l := by
  obtain ⟨hi, rfl⟩ := List.getElem?_eq_some_iff.mp h
  exact List.set_getElem_self hi

theorem store_eq {l : List α} {p : ℕ} (h : p < l.length) (a : α) : store l p a = .ok (l.set p a) :=
  if_pos h

end Overwrite

namespace CRevisionInfoContainer

/-! ### Writing changes -/

/-- The columns behind writing changes over others. -/
def overwriteChanges (c : CRevisionInfoContainer) (ys : List SPerChangeInfo)
    (iter : CChangesIterator) : CRevisionInfoContainer :=
  { c with
    changedPaths := overwrite c.changedPaths iter.changeOffset (ys.map SPerChangeInfo.changedPath)
    changedPathTypes :=
      overwrite c.changedPathTypes iter.changeOffset (ys.map SPerChangeInfo.changedPathType)
    changes := overwrite c.changes iter.changeOffset (ys.map SPerChangeInfo.change)
    textModifies :=
      overwrite c.textModifies iter.changeOffset (ys.map SPerChangeInfo.textModifies)
    propsModifies :=
      overwrite c.propsModifies iter.changeOffset (ys.map SPerChangeInfo.propsModifies)
    copyFromPaths := overwrite c.copyFromPaths iter.copyFromOffset
      ((ys.filter SPerChangeInfo.hasFromPath).map SPerChangeInfo.copyFromPath)
    copyFromRevisions := overwrite c.copyFromRevisions iter.copyFromOffset
      ((ys.filter SPerChangeInfo.hasFromPath).map SPerChangeInfo.copyFromRevision) }

/-- The positions from an iterator on lie inside the columns. -/
structure Room (c : CRevisionInfoContainer) (ys : List SPerChangeInfo) (iter : CChangesIterator) :
    Prop where
  changedPaths : iter.changeOffset + ys.length ≤ c.changedPaths.length
  changedPathTypes : iter.changeOffset + ys.length ≤ c.changedPathTypes.length
  changes : iter.changeOffset + ys.length ≤ c.changes.length
  textModifies : iter.changeOffset + ys.length ≤ c.textModifies.length
  propsModifies : iter.changeOffset + ys.length ≤ c.propsModifies.length
  copyFromPaths : iter.copyFromOffset + (ys.filter SPerChangeInfo.hasFromPath).length ≤
    c.copyFromPaths.length
  copyFromRevisions : iter.copyFromOffset + (ys.filter SPerChangeInfo.hasFromPath).length ≤
    c.copyFromRevisions.length

theorem writeChanges_eq {ys : List SPerChangeInfo} {iter : CChangesIterator}
    {c : CRevisionInfoContainer} (h : c.Room ys iter) :
    writeChanges ys iter c = .ok (c.overwriteChanges ys iter) := by
  induction ys generalizing iter c with
  | nil =>
    unfold overwriteChanges
    simp only [List.map_nil, List.filter_nil, overwrite_nil]
    rfl
  | cons y ys ih =>
    obtain ⟨h₁, h₂, h₃, h₄, h₅, h₆, h₇⟩ := h
    rw [List.length_cons] at h₁ h₂ h₃ h₄ h₅
    rw [writeChanges, store_eq (by omega), store_eq (by omega), store_eq (by omega),
      store_eq (by omega), store_eq (by omega)]
    simp only [bind, Except.bind]
    cases hfrom : y.hasFromPath with
    | true =>
      rw [List.filter_cons_of_pos hfrom, List.length_cons] at h₆ h₇
      rw [if_pos rfl, store_eq (by omega)]
      dsimp only
      rw [store_eq (by omega)]
      dsimp only
      rw [ih]
      · unfold overwriteChanges CChangesIterator.next
        simp only [hfrom, if_true, List.map_cons, List.filter_cons_of_pos hfrom]
        rw [overwrite_cons (by omega), overwrite_cons (by omega), overwrite_cons (by omega),
          overwrite_cons (by omega), overwrite_cons (by omega), overwrite_cons (by omega),
          overwrite_cons (by omega)]
      · unfold CChangesIterator.next
        constructor <;> simp only [hfrom, if_true, List.length_set] <;> omega
    | false =>
      have hneg : ¬ y.hasFromPath = true := by rw [hfrom]; exact Bool.false_ne_true
      rw [List.filter_cons_of_neg hneg] at h₆ h₇
      rw [if_neg Bool.false_ne_true, ih]
      · unfold overwriteChanges CChangesIterator.next
        simp only [hfrom, Bool.false_eq_true, if_false, List.map_cons,
          List.filter_cons_of_neg hneg]
        rw [overwrite_cons (by omega), overwrite_cons (by omega), overwrite_cons (by omega),
          overwrite_cons (by omega), overwrite_cons (by omega)]
      · unfold CChangesIterator.next
        constructor <;> simp only [hfrom, Bool.false_eq_true, if_false, List.length_set] <;> omega

/-! ### Sorting -/

/-- What `std::sort` promises: the elements in some order, none of them less than one before it. -/
def IsSort (sort : List SPerChangeInfo → List SPerChangeInfo) : Prop :=
  ∀ xs, (sort xs).Perm xs ∧ (sort xs).Pairwise fun x y => ¬ y.lt x

section Sorting

variable {c : CRevisionInfoContainer} {revs : List (List SPerChangeInfo)}

/-- Writing other changes over those of a revision, of which as many have a copy source. -/
theorem Lists.overwrite {front rev back ys : List SPerChangeInfo}
    (h : c.Lists (front ++ rev ++ back)) (hp : ys.Perm rev) :
    c.Room ys ⟨front.length, (front.filter SPerChangeInfo.hasFromPath).length⟩ ∧
      (c.overwriteChanges ys ⟨front.length,
        (front.filter SPerChangeInfo.hasFromPath).length⟩).Lists (front ++ ys ++ back) := by
  have hlen := hp.length_eq
  have hcopies := (hp.filter SPerChangeInfo.hasFromPath).length_eq
  have hover : ∀ {β : Type} (f : SPerChangeInfo → β),
      LogCache.overwrite ((front ++ rev ++ back).map f) front.length (ys.map f) =
        (front ++ ys ++ back).map f := by
    intro β f
    have ho := @overwrite_middle _ (front.map f) (back.map f) (rev.map f) (ys.map f)
      (by simp [hlen])
    rw [List.length_map] at ho
    simpa using ho
  have hover' : ∀ {β : Type} (f : SPerChangeInfo → β), LogCache.overwrite
      (((front ++ rev ++ back).filter SPerChangeInfo.hasFromPath).map f)
      (front.filter SPerChangeInfo.hasFromPath).length
      ((ys.filter SPerChangeInfo.hasFromPath).map f) =
        ((front ++ ys ++ back).filter SPerChangeInfo.hasFromPath).map f := by
    intro β f
    have ho := @overwrite_middle _ ((front.filter SPerChangeInfo.hasFromPath).map f)
      ((back.filter SPerChangeInfo.hasFromPath).map f)
      ((rev.filter SPerChangeInfo.hasFromPath).map f)
      ((ys.filter SPerChangeInfo.hasFromPath).map f) (by simp [hcopies])
    rw [List.length_map] at ho
    simpa using ho
  constructor
  · constructor
    · rw [h.changedPaths, List.length_map, List.length_append, List.length_append, hlen]
      exact Nat.le_add_right _ _
    · rw [h.changedPathTypes, List.length_map, List.length_append, List.length_append, hlen]
      exact Nat.le_add_right _ _
    · rw [h.changes, List.length_map, List.length_append, List.length_append, hlen]
      exact Nat.le_add_right _ _
    · rw [h.textModifies, List.length_map, List.length_append, List.length_append, hlen]
      exact Nat.le_add_right _ _
    · rw [h.propsModifies, List.length_map, List.length_append, List.length_append, hlen]
      exact Nat.le_add_right _ _
    · rw [h.copyFromPaths, List.length_map, List.filter_append, List.filter_append,
        List.length_append, List.length_append, hcopies]
      exact Nat.le_add_right _ _
    · rw [h.copyFromRevisions, List.length_map, List.filter_append, List.filter_append,
        List.length_append, List.length_append, hcopies]
      exact Nat.le_add_right _ _
  · unfold overwriteChanges
    rw [h.changes, h.changedPaths, h.changedPathTypes, h.textModifies, h.propsModifies,
      h.copyFromPaths, h.copyFromRevisions]
    exact ⟨hover _, hover _, hover _, hover _, hover _, hover' _, hover' _⟩

theorem flatten_set_split {α : Type} {ls : List (List α)} {i : ℕ} {l : List α} (hi : i < ls.length) :
    (ls.set i l).flatten = (ls.take i).flatten ++ l ++ (ls.drop (i + 1)).flatten := by
  rw [List.set_eq_take_append_cons_drop, if_pos hi, List.flatten_append, List.flatten_cons,
    List.append_assoc]

theorem forall₂_set {α β : Type} {R : α → β → Prop} {l : List α} {m : List β}
    (h : List.Forall₂ R l m) {i : ℕ} {a : α} {b : β} (ha : l[i]? = some a) (hb : R a b) :
    List.Forall₂ R l (m.set i b) := by
  induction h generalizing i with
  | nil => exact nomatch ha
  | cons hR hrest ih =>
    cases i with
    | zero =>
      obtain rfl := Option.some.inj ha
      exact .cons hb hrest
    | succ i => exact .cons hR (ih ha)

/-- A round writes the sorted changes of a revision. -/
theorem HoldsChanges.sortRevision (h : c.HoldsChanges revs) {i : ℕ} {rev ys : List SPerChangeInfo}
    (hi : revs[i]? = some rev) (hp : ys.Perm rev) :
    ∃ iter, c.getChangesBegin i = .ok iter ∧
      writeChanges ys iter c = .ok (c.overwriteChanges ys iter) ∧
      (c.overwriteChanges ys iter).HoldsChanges (revs.set i ys) := by
  have hlt := (List.getElem?_eq_some_iff.mp hi).1
  have hlists := h.lists
  rw [flatten_split hi] at hlists
  obtain ⟨hroom, hlists'⟩ := hlists.overwrite hp
  have hcopy : offsetOf (copiesOf revs) i =
      ((revs.take i).flatten.filter SPerChangeInfo.hasFromPath).length := by
    rw [offsetOf, take_copiesOf, copiesOf_flatten]
  have hlens : (revs.set i ys).map List.length = revs.map List.length := by
    rw [List.map_set, hp.length_eq, ← List.map_set]
    exact congrArg _ (set_self hi)
  have hcopyLens : (copiesOf (revs.set i ys)).map List.length =
      (copiesOf revs).map List.length := by
    have hset : copiesOf (revs.set i ys) =
        (copiesOf revs).set i (ys.filter SPerChangeInfo.hasFromPath) := List.map_set
    rw [hset, List.map_set, (hp.filter _).length_eq, ← List.map_set]
    refine congrArg _ (set_self ?_)
    rw [copiesOf, List.getElem?_map, hi]
    rfl
  obtain ⟨root, hroot, hisRoot⟩ := h.root hi
  refine ⟨_, h.getChangesBegin hlt.le, ?_, ?_⟩
  · rw [hcopy]
    exact writeChanges_eq hroom
  · rw [hcopy]
    refine ⟨h.built, ?_, ?_, ?_, ?_, ?_, ?_⟩
    · rw [flatten_set_split hlt]
      exact hlists'
    · rw [offsetsFrom_congr hlens]
      exact h.changesOffsets
    · rw [offsetsFrom_congr hcopyLens]
      exact h.copyFromOffsets
    · rw [List.map_set, sumOf_perm hp, ← List.map_set, set_self hi]
      exact h.sums
    · exact forall₂_set h.roots hroot (hisRoot.perm hp)
    · intro rev' hrev' x hx
      rcases List.mem_or_eq_of_mem_set hrev' with hmem | rfl
      · exact h.valid rev' hmem x hx
      · exact h.valid rev (List.mem_of_getElem? hi) x (hp.mem_iff.mp hx)

/-- The rounds for the revisions that are left. -/
theorem HoldsChanges.optimizeChangeOrderLoop {sort : List SPerChangeInfo → List SPerChangeInfo}
    (hsort : IsSort sort) {front rest : List (List SPerChangeInfo)}
    (h : c.HoldsChanges (front ++ rest)) :
    ∃ c', optimizeChangeOrderLoop sort rest.length front.length c = .ok c' ∧
      c'.HoldsChanges (front ++ rest.map sort) ∧ c'.size = c.size ∧
      c'.presenceFlags = c.presenceFlags ∧ c'.paths = c.paths := by
  induction rest generalizing front c with
  | nil => exact ⟨c, rfl, h, rfl, rfl, rfl⟩
  | cons rev rest ih =>
    have hi : (front ++ rev :: rest)[front.length]? = some rev := by
      rw [List.getElem?_append_right le_rfl, Nat.sub_self]
      rfl
    obtain ⟨iter, hiter, hwrite, hholds⟩ := h.sortRevision hi (hsort rev).1
    rw [List.set_append_right _ _ le_rfl, Nat.sub_self, List.set_cons_zero,
      List.append_cons] at hholds
    obtain ⟨c', hloop, hc', hsize, hflags, hpaths⟩ := ih hholds
    refine ⟨c', ?_, ?_, hsize, hflags, hpaths⟩
    · rw [List.length_append] at hloop
      rw [List.length_cons, CRevisionInfoContainer.optimizeChangeOrderLoop, h.changesOf_eq hi, hiter]
      simp only [bind, Except.bind]
      rw [hwrite]
      exact hloop
    · rwa [List.map_cons, List.append_cons]

/-- **`OptimizeChangeOrder` sorts the changes of every revision**, and nothing else happens to
them. -/
theorem HoldsChanges.optimizeChangeOrder (h : c.HoldsChanges revs) (hsize : c.size = revs.length)
    {sort : List SPerChangeInfo → List SPerChangeInfo} (hsort : IsSort sort) :
    ∃ c', c.optimizeChangeOrder sort = .ok c' ∧ c'.HoldsChanges (revs.map sort) ∧
      c'.size = c.size ∧ c'.presenceFlags = c.presenceFlags ∧ c'.paths = c.paths := by
  have hloop := @HoldsChanges.optimizeChangeOrderLoop c sort hsort [] revs h
  rwa [List.length_nil, ← hsize] at hloop

end Sorting

end CRevisionInfoContainer

end TortoiseSvn.LogCache
