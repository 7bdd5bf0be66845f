import TortoiseSvn.Access.LogIteratorBase
import TortoiseSvn.LogCache.ParentReplacement

/-!
# Following copies

When a revision has added the path that a log iterator follows, or copied it or one of its parents
from elsewhere, the iterator stops or goes on at the copy source. The changes of a revision list
parents first, so the last copy that is found is the one closest to the path.

Main result: `handleCopyAndDelete_iff`.
-/

namespace TortoiseSvn.LogCache

open TortoiseSvn.Lib CRevisionInfoContainer CPathDictionary CDictionaryBasedTempPath

/-! ### The iterator -/

/-- The iterator, with the members of its base class that say where the path was added.
Source: `CopyFollowingLogIterator.h` `CCopyFollowingLogIterator` -/
structure CCopyFollowingLogIterator extends CLogIteratorBase where
  addRevision : ℕ
  addPath : CDictionaryBasedTempPath

/-- What the examination of the changes leads to. -/
inductive CopyOutcome where
  | unaffected
  | started
  | copied (bestRename : SPerChangeInfo)
  deriving DecidableEq

namespace CCopyFollowingLogIterator

/-- The actions that add a path. -/
def addingActions : List UInt8 :=
  [ACTION_ADDED, ACTION_REPLACED, ACTION_MOVED, ACTION_MOVEREPLACED]

/-- The changes from a position on, as many as there are up to the end, with the last copy found so
far. The result says also whether the path was added without a copy source.
Source: `LogIteratorBase.cpp` `CLogIteratorBase::InternalHandleCopyAndDelete`, the loop -/
def copyLoop (c : CRevisionInfoContainer) (path : CDictionaryBasedTempPath) :
    ℕ → CChangesIterator → Option CChangesIterator → Except Fault (Bool × Option CChangesIterator)
  | 0, _, bestRename => .ok (false, bestRename)
  | n + 1, iter, bestRename => do
    let change ← checked c.changes[iter.changeOffset]?
    let next : CChangesIterator := ⟨iter.changeOffset + 1,
      if change &&& HAS_COPY_FROM ≠ 0 then iter.copyFromOffset + 1 else iter.copyFromOffset⟩
    let action := change &&& ANY_ACTION
    if action = ACTION_CHANGED then copyLoop c path n next bestRename
    else do
      let changedPath ← checked c.changedPaths[iter.changeOffset]?
      let isParent ← c.paths.isSameOrParentOf changedPath path.index
      if ¬ isParent then copyLoop c path n next bestRename
      else if action ∈ addingActions then
        if change &&& HAS_COPY_FROM ≠ 0 then
          match bestRename with
          | none => copyLoop c path n next (some iter)
          | some best => do
            let bestPath ← checked c.changedPaths[best.changeOffset]?
            -- parent ADDs must be in strict order
            if bestPath < changedPath then copyLoop c path n next (some iter)
            else .error .assertion
        else if path.isFullyCachedPath ∧ path.index = changedPath then .ok (true, bestRename)
        else copyLoop c path n next bestRename
      else if action = ACTION_DELETED then copyLoop c path n next bestRename
      else .error .assertion

/-- Source: `LogIteratorBase.cpp` `CLogIteratorBase::InternalHandleCopyAndDelete` -/
def findCopy (c : CRevisionInfoContainer) (first last : CChangesIterator) (revisionRootPath : Index)
    (path : CDictionaryBasedTempPath) : Except Fault CopyOutcome :=
  if revisionRootPath = ⊤ then .ok .unaffected
  else do
    let mayAffect ← c.paths.isSameOrParentOf revisionRootPath path.index
    if ¬ mayAffect then pure .unaffected
    else if last.changeOffset < first.changeOffset then .error .undefined
    else do
      let (started, bestRename) ←
        copyLoop c path (last.changeOffset - first.changeOffset) first none
      if started then pure .started
      else
        match bestRename with
        | none => pure .unaffected
        | some iter => do
          let bestRename ← c.perChangeInfo iter
          pure (.copied bestRename)

/-- The iterator at the end of the history. -/
def ended (it : CCopyFollowingLogIterator) : CCopyFollowingLogIterator :=
  { it with
    addRevision := it.revision
    addPath := it.path
    revision := noRevision
    path := ⟨⊤, []⟩ }

/-- The iterator at a copy source. -/
def moved (it : CCopyFollowingLogIterator) (path : CDictionaryBasedTempPath) (revision : ℕ) :
    CCopyFollowingLogIterator :=
  { it with
    addRevision := it.revision
    addPath := it.path
    revision := revision
    path := path }

/-- The iterator stops or goes on at the copy source.
Source: `LogIteratorBase.cpp` `CLogIteratorBase::InternalHandleCopyAndDelete` -/
def Follows (it : CCopyFollowingLogIterator) :
    CopyOutcome → Bool → CCopyFollowingLogIterator → Prop
  | .unaffected, found, it' => found = false ∧ it' = it
  | .started, found, it' => found = true ∧ it' = it.ended
  | .copied bestRename, found, it' => found = true ∧ ∃ path,
      ReplaceParent it.revisionInfo.paths it.path bestRename.changedPath bestRename.copyFromPath
        path ∧ it' = it.moved path bestRename.copyFromRevision

/-- Source: `LogIteratorBase.cpp` `CLogIteratorBase::InternalHandleCopyAndDelete` -/
def InternalHandleCopyAndDelete (it : CCopyFollowingLogIterator) (first last : CChangesIterator)
    (revisionRootPath : Index) (found : Bool) (it' : CCopyFollowingLogIterator) : Prop :=
  ∃ outcome, findCopy it.revisionInfo first last revisionRootPath it.path = .ok outcome ∧
    it.Follows outcome found it'

/-- The data of the revision must be there.
Source: `CopyFollowingLogIterator.cpp` `CCopyFollowingLogIterator::HandleCopyAndDelete` -/
def HandleCopyAndDelete (it : CCopyFollowingLogIterator) (found : Bool)
    (it' : CCopyFollowingLogIterator) : Prop :=
  ∃ (index : ℕ) (first last : CChangesIterator) (revisionRootPath : Index),
    it.revisionIndices.get it.revision = (index : Index) ∧
    it.revisionInfo.getChangesBegin index = .ok first ∧
    it.revisionInfo.getChangesEnd index = .ok last ∧
    it.revisionInfo.getRootPath index = .ok revisionRootPath ∧
    it.InternalHandleCopyAndDelete first last revisionRootPath found it'

/-! ### The loop -/

/-- A change that copies a path or one of its parents. -/
def CopiesAbove (d : CPathDictionary) (p : ℕ) (x : SPerChangeInfo) : Prop :=
  x.getAction ∈ addingActions ∧ x.hasFromPath = true ∧
    ∃ a : ℕ, x.changedPath = (a : Index) ∧ d.Above a p

/-- A change that adds a path without a copy source. -/
def StopsAt (p : ℕ) (x : SPerChangeInfo) : Prop :=
  x.getAction ∈ addingActions ∧ x.hasFromPath = false ∧ x.changedPath = (p : Index)

/-- Every path comes before the paths below it, and only once. -/
def ParentsFirst (d : CPathDictionary) (rev : List SPerChangeInfo) : Prop :=
  rev.Pairwise fun x y => ∀ a b : ℕ, x.changedPath = (a : Index) → y.changedPath = (b : Index) →
    ¬ d.Above b a

/-- The action is one of those that a change can have. -/
def KnownAction (x : SPerChangeInfo) : Prop :=
  x.getAction ∈ ACTION_CHANGED :: ACTION_DELETED :: addingActions

/-- The copy that is the closest one to the path among all copies of the path and its parents. -/
def IsClosestCopy (d : CPathDictionary) (p : ℕ) (xs : List SPerChangeInfo) (x : SPerChangeInfo) :
    Prop :=
  x ∈ xs ∧ CopiesAbove d p x ∧ ∀ y ∈ xs, CopiesAbove d p y → ∀ a b : ℕ,
    y.changedPath = (a : Index) → x.changedPath = (b : Index) → d.Above a b

/-- The last copy found is the closest one so far. -/
def Best (c : CRevisionInfoContainer) (p : ℕ) (done : List SPerChangeInfo) :
    Option CChangesIterator → Prop
  | none => ∀ y ∈ done, ¬ CopiesAbove c.paths p y
  | some iter => ∃ x, IsClosestCopy c.paths p done x ∧ c.perChangeInfo iter = .ok x ∧
      c.changedPaths[iter.changeOffset]? = some x.changedPath

section Loop

variable {c : CRevisionInfoContainer} {p : ℕ} {done : List SPerChangeInfo} {x : SPerChangeInfo}
  {best : Option CChangesIterator}

theorem IsClosestCopy.skip {y : SPerChangeInfo} (h : IsClosestCopy c.paths p done y)
    (hx : ¬ CopiesAbove c.paths p x) : IsClosestCopy c.paths p (done ++ [x]) y :=
  ⟨List.mem_append_left _ h.1, h.2.1,
    forall_mem_concat.mpr ⟨h.2.2, fun hx' => absurd hx' hx⟩⟩

/-- A change that copies nothing makes no difference. -/
theorem Best.skip (h : Best c p done best) (hx : ¬ CopiesAbove c.paths p x) :
    Best c p (done ++ [x]) best := by
  cases best with
  | none => exact forall_mem_concat.mpr ⟨h, hx⟩
  | some iter =>
    obtain ⟨y, hclosest, hread⟩ := h
    exact ⟨y, hclosest.skip hx, hread⟩

/-- Of two copies, the later one is closer. -/
theorem above_of_parentsFirst (hd : c.paths.Built) (horder : ParentsFirst c.paths (done ++ [x]))
    {y : SPerChangeInfo} (hy : y ∈ done) (hcopy : CopiesAbove c.paths p y)
    (hx : CopiesAbove c.paths p x) {a b : ℕ} (ha : y.changedPath = (a : Index))
    (hb : x.changedPath = (b : Index)) : c.paths.Above a b ∧ a < b := by
  obtain ⟨-, -, a', ha', hap⟩ := hcopy
  obtain ⟨-, -, b', hb', hbp⟩ := hx
  obtain rfl := Nat.cast_injective (R := Index) (ha.symm.trans ha')
  obtain rfl := Nat.cast_injective (R := Index) (hb.symm.trans hb')
  have hnot := (List.pairwise_append.mp horder).2.2 y hy x (List.mem_singleton_self x) a b ha hb
  have hlt : a < b := not_le.mp fun hle => hnot (hd.tree.above_of_le hbp hap hle)
  exact ⟨hd.tree.above_of_le hap hbp hlt.le, hlt⟩

/-- A copy is the closest one from now on. -/
theorem isClosestCopy_concat (hd : c.paths.Built) (horder : ParentsFirst c.paths (done ++ [x]))
    (hx : CopiesAbove c.paths p x) : IsClosestCopy c.paths p (done ++ [x]) x := by
  refine ⟨List.mem_append_right _ (List.mem_singleton_self x), hx,
    forall_mem_concat.mpr ⟨fun y hy hcopy a b ha hb => ?_, fun _ a b ha hb => ?_⟩⟩
  · exact (above_of_parentsFirst hd horder hy hcopy hx ha hb).1
  · obtain rfl := Nat.cast_injective (R := Index) (ha.symm.trans hb)
    exact .refl a

/-- If there is a copy, then there is a closest one. -/
theorem exists_isClosestCopy (hd : c.paths.Built) {xs : List SPerChangeInfo}
    (horder : ParentsFirst c.paths xs) (h : ∃ x ∈ xs, CopiesAbove c.paths p x) :
    ∃ x, IsClosestCopy c.paths p xs x := by
  induction xs using List.reverseRecOn with
  | nil =>
    obtain ⟨x, hx, -⟩ := h
    exact absurd hx List.not_mem_nil
  | append_singleton xs x ih =>
    by_cases hx : CopiesAbove c.paths p x
    · exact ⟨x, isClosestCopy_concat hd horder hx⟩
    · obtain ⟨y, hy, hcopy⟩ := h
      rcases List.mem_append.mp hy with hy | hy
      · exact (ih (List.pairwise_append.mp horder).1 ⟨y, hy, hcopy⟩).imp fun _ hz => hz.skip hx
      · exact absurd (List.mem_singleton.mp hy ▸ hcopy) hx

/-- The iterator behind some changes. -/
def behind (xs : List SPerChangeInfo) : CChangesIterator :=
  ⟨xs.length, (xs.filter SPerChangeInfo.hasFromPath).length⟩

theorem behind_concat (xs : List SPerChangeInfo) (x : SPerChangeInfo) :
    behind (xs ++ [x]) = ⟨(behind xs).changeOffset + 1,
      if x.change &&& HAS_COPY_FROM ≠ 0 then (behind xs).copyFromOffset + 1
      else (behind xs).copyFromOffset⟩ := by
  have hlength : (xs ++ [x]).length = xs.length + 1 := List.length_append
  unfold behind
  rw [hlength, List.filter_append, List.length_append]
  cases hfrom : x.hasFromPath with
  | true =>
    rw [if_pos (of_decide_eq_true hfrom), List.filter_cons_of_pos hfrom]
    rfl
  | false =>
    rw [if_neg (of_decide_eq_false hfrom), List.filter_cons_of_neg (Bool.eq_false_iff.mp hfrom)]
    rfl

/-- A round of the loop at a known change. -/
theorem copyLoop_eq (hd : c.paths.Built) (hsize : p < c.paths.size) {front post : List SPerChangeInfo}
    (h : c.Lists (front ++ x :: post)) {a : ℕ} (ha : x.changedPath = (a : Index)) (n : ℕ)
    (best : Option CChangesIterator) :
    ∃ above, (above = true ↔ c.paths.Above a p) ∧
      copyLoop c ⟨(p : Index), []⟩ (n + 1) (behind front) best =
        if x.getAction = ACTION_CHANGED ∨ above = false then
          copyLoop c ⟨(p : Index), []⟩ n (behind (front ++ [x])) best
        else if x.getAction ∈ addingActions then
          if x.hasFromPath then
            match best with
            | none => copyLoop c ⟨(p : Index), []⟩ n (behind (front ++ [x])) (some (behind front))
            | some iter => do
              let bestPath ← checked c.changedPaths[iter.changeOffset]?
              if bestPath < (a : Index) then
                copyLoop c ⟨(p : Index), []⟩ n (behind (front ++ [x])) (some (behind front))
              else .error .assertion
          else if p = a then .ok (true, best)
          else copyLoop c ⟨(p : Index), []⟩ n (behind (front ++ [x])) best
        else if x.getAction = ACTION_DELETED then
          copyLoop c ⟨(p : Index), []⟩ n (behind (front ++ [x])) best
        else .error .assertion := by
  have hpath : c.changedPaths[(behind front).changeOffset]? = some (a : Index) := by
    rw [h.changedPaths, behind, getElem?_map_middle, ha]
  have hchange : c.changes[(behind front).changeOffset]? = some x.change := by
    rw [h.changes, behind, getElem?_map_middle]
  obtain ⟨above, habove, hiff⟩ := CPathDictionary.isSameOrParentOf_spec hd.tree a hsize
  refine ⟨above, hiff, ?_⟩
  have hsame : ((p : Index) = (a : Index)) = (p = a) := by rw [Nat.cast_inj]
  rw [copyLoop, hpath, hchange]
  simp only [checked, bind, Except.bind, habove, ← behind_concat, isFullyCachedPath,
    List.isEmpty_nil, true_and, hsame, SPerChangeInfo.hasFromPath, decide_eq_true_eq]
  rw [show x.change &&& ANY_ACTION = x.getAction from rfl]
  by_cases hchanged : x.getAction = ACTION_CHANGED
  · rw [if_pos hchanged, if_pos (.inl hchanged)]
  · rw [if_neg hchanged]
    cases above with
    | false => rw [if_pos Bool.false_ne_true, if_pos (.inr rfl)]
    | true =>
      rw [if_neg (not_not.mpr rfl), if_neg (not_or.mpr ⟨hchanged, Bool.noConfusion⟩)]

/-- A round ends the loop when the path was added, and otherwise keeps the best copy. -/
theorem copyLoop_succ (hd : c.paths.Built) (hsize : p < c.paths.size)
    {before post : List SPerChangeInfo} (h : c.Lists (before ++ done ++ x :: post))
    (hx : x.Valid c.paths) (hknown : KnownAction x) (hbest : Best c p done best)
    (horder : ParentsFirst c.paths (done ++ [x])) (n : ℕ) :
    (StopsAt p x ∧
        copyLoop c ⟨(p : Index), []⟩ (n + 1) (behind (before ++ done)) best = .ok (true, best)) ∨
      ¬ StopsAt p x ∧ ∃ best', Best c p (done ++ [x]) best' ∧
        copyLoop c ⟨(p : Index), []⟩ (n + 1) (behind (before ++ done)) best =
          copyLoop c ⟨(p : Index), []⟩ n (behind (before ++ done ++ [x])) best' := by
  obtain ⟨ns, a, ha, hnamed⟩ := hx.path
  obtain ⟨above, habove, hround⟩ := copyLoop_eq hd hsize h ha n best
  rw [hround]
  have hcopies : CopiesAbove c.paths p x ↔
      x.getAction ∈ addingActions ∧ x.hasFromPath = true ∧ c.paths.Above a p := by
    refine and_congr_right fun _ => and_congr_right fun _ => ⟨?_, fun hap => ⟨a, ha, hap⟩⟩
    rintro ⟨a', ha', hap⟩
    obtain rfl := Nat.cast_injective (R := Index) (ha.symm.trans ha')
    exact hap
  have hstops : StopsAt p x ↔ x.getAction ∈ addingActions ∧ x.hasFromPath = false ∧ p = a := by
    refine and_congr_right fun _ => and_congr_right fun _ => ?_
    rw [ha, Nat.cast_inj, eq_comm]
  by_cases hskip : x.getAction = ACTION_CHANGED ∨ above = false
  · -- the path is not affected
    rw [if_pos hskip]
    have hnot : ¬ (x.getAction ∈ addingActions ∧ c.paths.Above a p) := by
      rintro ⟨hadds, hap⟩
      rcases hskip with hchanged | hfalse
      · rw [hchanged] at hadds
        exact absurd hadds (by decide)
      · exact absurd (hfalse.symm.trans (habove.mpr hap)) Bool.false_ne_true
    refine .inr ⟨fun hs => ?_, best, hbest.skip fun hc => ?_, rfl⟩
    · obtain ⟨hadds, -, rfl⟩ := hstops.mp hs
      exact hnot ⟨hadds, .refl p⟩
    · obtain ⟨hadds, -, hap⟩ := hcopies.mp hc
      exact hnot ⟨hadds, hap⟩
  rw [if_neg hskip]
  obtain ⟨hchanged, hfalse⟩ := not_or.mp hskip
  have hap := habove.mp (Bool.not_eq_false _ ▸ hfalse)
  by_cases hadds : x.getAction ∈ addingActions
  · rw [if_pos hadds]
    cases hfrom : x.hasFromPath with
    | true =>
      rw [if_pos rfl]
      have hcopy := hcopies.mpr ⟨hadds, hfrom, hap⟩
      have hpath : c.changedPaths[(behind (before ++ done)).changeOffset]? = some x.changedPath := by
        rw [h.changedPaths, behind, getElem?_map_middle]
      refine .inr ⟨fun hs => ?_, some (behind (before ++ done)),
        ⟨x, isClosestCopy_concat hd horder hcopy, h.perChangeInfo hx, hpath⟩, ?_⟩
      · exact absurd (hfrom.symm.trans (hstops.mp hs).2.1) Bool.noConfusion
      · cases best with
        | none => rfl
        | some iter =>
          -- the copies come in strict order
          obtain ⟨y, ⟨hy, hycopy, -⟩, -, hypath⟩ := hbest
          obtain ⟨-, -, b, hb, -⟩ := id hycopy
          have hlt := (above_of_parentsFirst hd horder hy hycopy hcopy hb ha).2
          dsimp only
          rw [hypath, hb]
          exact if_pos (Nat.cast_lt.mpr hlt)
    | false =>
      rw [if_neg Bool.false_ne_true]
      by_cases hsame : p = a
      · rw [if_pos hsame]
        exact .inl ⟨hstops.mpr ⟨hadds, hfrom, hsame⟩, rfl⟩
      · rw [if_neg hsame]
        refine .inr ⟨fun hs => hsame (hstops.mp hs).2.2, best, hbest.skip fun hc => ?_, rfl⟩
        exact absurd (hfrom.symm.trans hc.2.1) Bool.noConfusion
  · rw [if_neg hadds]
    have hdeleted : x.getAction = ACTION_DELETED := by
      rcases List.mem_cons.mp hknown with h | h
      · exact absurd h hchanged
      · exact (List.mem_cons.mp h).resolve_right hadds
    rw [if_pos hdeleted]
    exact .inr ⟨fun hs => hadds hs.1, best, hbest.skip fun hc => hadds hc.1, rfl⟩

/-- The loop over the changes of a revision, or over the last of them. -/
theorem copyLoop_spec (hd : c.paths.Built) (hsize : p < c.paths.size)
    {before xs post : List SPerChangeInfo} (h : c.Lists (before ++ done ++ xs ++ post))
    (hxs : ∀ x ∈ xs, x.Valid c.paths) (hknown : ∀ x ∈ xs, KnownAction x)
    (horder : ParentsFirst c.paths (done ++ xs)) (hbest : Best c p done best) :
    ∃ started best',
      copyLoop c ⟨(p : Index), []⟩ xs.length (behind (before ++ done)) best = .ok (started, best') ∧
      (started = true ↔ ∃ x ∈ xs, StopsAt p x) ∧
      (started = false → Best c p (done ++ xs) best') := by
  induction xs generalizing done best with
  | nil =>
    refine ⟨false, best, rfl, ?_, fun _ => ?_⟩
    · simp
    · rwa [List.append_nil]
  | cons x xs ih =>
    obtain ⟨hx, hxs⟩ := List.forall_mem_cons.mp hxs
    obtain ⟨hxknown, hknown⟩ := List.forall_mem_cons.mp hknown
    rw [List.append_assoc, List.cons_append] at h
    rw [List.append_cons] at horder
    rw [List.length_cons]
    obtain ⟨hstops, hloop⟩ | ⟨hstops, best₁, hbest₁, hloop⟩ :=
      copyLoop_succ hd hsize h hx hxknown hbest (List.pairwise_append.mp horder).1 xs.length
    · exact ⟨true, best, hloop, iff_of_true rfl ⟨x, List.mem_cons_self, hstops⟩, Bool.noConfusion⟩
    · have h' : c.Lists (before ++ (done ++ [x]) ++ xs ++ post) := by
        rwa [← List.append_assoc before, List.append_assoc, List.append_assoc _ [x],
          List.singleton_append]
      obtain ⟨started, best', hresult, hiff, hlast⟩ := ih h' hxs hknown horder hbest₁
      rw [← List.append_assoc] at hresult
      refine ⟨started, best', hloop.trans hresult, hiff.trans ?_, ?_⟩
      · rw [List.exists_mem_cons_iff]
        exact (or_iff_right hstops).symm
      · rwa [List.append_cons]

/-- What the examination of the changes must lead to. -/
def Finds (d : CPathDictionary) (p : ℕ) (rev : List SPerChangeInfo) : CopyOutcome → Prop
  | .unaffected => (∀ x ∈ rev, ¬ StopsAt p x) ∧ ∀ x ∈ rev, ¬ CopiesAbove d p x
  | .started => ∃ x ∈ rev, StopsAt p x
  | .copied bestRename => (∀ x ∈ rev, ¬ StopsAt p x) ∧ IsClosestCopy d p rev bestRename

/-- The examination of the changes of a revision. -/
theorem findCopy_spec {revs : List (List SPerChangeInfo)} (h : c.HoldsChanges revs) {i : ℕ}
    {rev : List SPerChangeInfo} (hi : revs[i]? = some rev) (hsize : p < c.paths.size)
    (hknown : ∀ x ∈ rev, KnownAction x) (horder : ParentsFirst c.paths rev) :
    ∃ first last root outcome, c.getChangesBegin i = .ok first ∧ c.getChangesEnd i = .ok last ∧
      c.getRootPath i = .ok root ∧ findCopy c first last root ⟨(p : Index), []⟩ = .ok outcome ∧
      Finds c.paths p rev outcome := by
  have hlt := (List.getElem?_eq_some_iff.mp hi).1
  obtain ⟨root, hroots, hisRoot⟩ := h.root hi
  have hgetRoot : c.getRootPath i = .ok root := by
    rw [CRevisionInfoContainer.getRootPath, hroots]
    rfl
  obtain ⟨hnone, hdeepest⟩ := hisRoot.isDeepestRoot h.built
  have hend : c.getChangesEnd i = _ := h.getChangesBegin hlt
  have hfind : ∃ outcome, findCopy c ⟨offsetOf revs i, offsetOf (copiesOf revs) i⟩
      ⟨offsetOf revs (i + 1), offsetOf (copiesOf revs) (i + 1)⟩ root ⟨(p : Index), []⟩ =
        .ok outcome ∧ Finds c.paths p rev outcome := by
    unfold findCopy
    rcases Index.cases root with rfl | ⟨r, rfl⟩
    · -- there are no changes
      obtain rfl := hnone.mp rfl
      exact ⟨.unaffected, if_pos rfl, fun x hx => absurd hx List.not_mem_nil, fun x hx =>
        absurd hx List.not_mem_nil⟩
    have hne : rev ≠ [] := fun hnil => WithTop.natCast_ne_top r (hnone.mpr hnil)
    obtain ⟨r', hr', habove⟩ := hdeepest hne
    obtain rfl := Nat.cast_injective (R := Index) hr'
    obtain ⟨mayAffect, hmay, hmayIff⟩ := CPathDictionary.isSameOrParentOf_spec h.built.tree r hsize
    rw [if_neg (WithTop.natCast_ne_top r), hmay]
    simp only [bind, Except.bind]
    cases mayAffect with
    | false =>
      have hnot : ∀ x ∈ rev, ∀ a : ℕ, x.changedPath = (a : Index) → ¬ c.paths.Above a p := by
        intro x hx a ha hap
        obtain ⟨a', ha', hra⟩ := (habove r).mp (.refl r) x hx
        obtain rfl := Nat.cast_injective (R := Index) (ha.symm.trans ha')
        exact absurd (hmayIff.mpr (hra.trans hap)) Bool.false_ne_true
      refine ⟨.unaffected, if_pos Bool.false_ne_true, fun x hx hs => ?_, fun x hx hc => ?_⟩
      · exact hnot x hx p hs.2.2 (.refl p)
      · obtain ⟨-, -, a, ha, hap⟩ := hc
        exact hnot x hx a ha hap
    | true =>
      have hlists := h.lists
      rw [flatten_split hi] at hlists
      have hbefore : (⟨offsetOf revs i, offsetOf (copiesOf revs) i⟩ : CChangesIterator) =
          behind (revs.take i).flatten := by
        rw [behind, offsetOf, offsetOf, take_copiesOf, copiesOf_flatten]
      obtain ⟨started, best, hloop, hstarted, hbest⟩ := @copyLoop_spec c p [] none h.built hsize
        (revs.take i).flatten rev (revs.drop (i + 1)).flatten (by rwa [List.append_nil])
        (h.valid rev (List.mem_of_getElem? hi)) hknown (by rwa [List.nil_append])
        fun y hy => absurd hy List.not_mem_nil
      rw [List.append_nil, ← hbefore] at hloop
      rw [if_neg (not_not.mpr rfl),
        if_neg (not_lt.mpr (offsetOf_mono revs (Nat.le_succ i))), offsetOf_succ hi,
        Nat.add_sub_cancel_left, hloop]
      dsimp only
      cases started with
      | true => exact ⟨.started, if_pos rfl, hstarted.mp rfl⟩
      | false =>
        have hnever : ∀ x ∈ rev, ¬ StopsAt p x := fun x hx hs =>
          absurd (hstarted.mpr ⟨x, hx, hs⟩) Bool.false_ne_true
        have hlast := hbest rfl
        rw [List.nil_append] at hlast
        rw [if_neg Bool.false_ne_true]
        cases best with
        | none => exact ⟨.unaffected, rfl, hnever, hlast⟩
        | some iter =>
          obtain ⟨x, hclosest, hread, -⟩ := hlast
          dsimp only
          rw [hread]
          exact ⟨.copied x, rfl, hnever, hclosest⟩
  obtain ⟨outcome, houtcome, hfinds⟩ := hfind
  exact ⟨_, _, root, outcome, h.getChangesBegin hlt.le, hend, hgetRoot, houtcome, hfinds⟩

end Loop

/-! ### Copy sources -/

/-- The names of a parsed path of a repository, whose root is parsed as one empty name. -/
def RepositoryPath (ns : List (List UInt8)) : Prop := PathNames ns ∨ ns = [[]]

/-- The condition under which a path is replaced as it should be: the paths are not too long, and the
root itself is copied only to where nothing follows it, or from the root. -/
def CopyFits (ns old source : List (List UInt8)) : Prop :=
  (source.length ≤ maxPath ∧ (ns.length ≤ maxPath ∨ old = ns)) ∧
    (realNames old = [] → realNames source = [] ∨ realNames ns = [])

section Sources

variable {d : CPathDictionary} {i o q : ℕ} {ns ms old source rest : List (List UInt8)}

theorem realNames_append (ns ms : List (List UInt8)) :
    realNames (ns ++ ms) = realNames ns ++ realNames ms := List.filter_append _ _

theorem realNames_realNames (ns : List (List UInt8)) : realNames (realNames ns) = realNames ns := by
  simp only [realNames, List.filter_filter, Bool.and_self]

/-- The path without the empty name is in the dictionary, too, and is printed in the same way. -/
theorem RepositoryPath.named (h : RepositoryPath ns) (hi : d.Named i ns) :
    PathNames (realNames ns) ∧ pathString (realNames ns) = pathString ns ∧
      (∃ k, d.Named k (realNames ns)) ∧ ((realNames ns).length ≤ maxPath ↔ ns.length ≤ maxPath) := by
  rcases h with h | rfl
  · rw [realNames_eq h]
    exact ⟨h, rfl, ⟨i, hi⟩, Iff.rfl⟩
  · exact ⟨by decide, rfl, ⟨0, .root⟩, iff_of_true (by decide) (by decide)⟩

/-- The new path of a cached path depends on the printed paths only. -/
theorem replaceParent_cached (hd : d.Built) (hi : d.Named i ns) (ho : d.Named o old)
    (hq : d.Named q source) {result : CDictionaryBasedTempPath} :
    ReplaceParent d ⟨(i : Index), []⟩ (o : Index) (q : Index) result ↔
      (pathString old).length ≤ (pathString ns).length ∧ result = tempPath d (pathString source ++
        (pathString ns).drop (pathString old).length) := by
  have htext : ∀ text, GetPath d ⟨(i : Index), []⟩ text ↔ text = pathString ns :=
    fun text => CDictionaryBasedTempPath.getPath_iff hd rfl hi
  constructor
  · rintro ⟨oldText, newText, text, hold, hnew, hpath, hle, hresult⟩
    rw [hd.getPath_iff ho] at hold
    rw [hd.getPath_iff hq] at hnew
    rw [htext] at hpath
    rw [hold, hpath] at hle
    rw [hold, hnew, hpath] at hresult
    exact ⟨hle, hresult⟩
  · rintro ⟨hle, hresult⟩
    exact ⟨_, _, _, (hd.getPath_iff ho).mpr rfl, (hd.getPath_iff hq).mpr rfl, (htext _).mpr rfl, hle,
      hresult⟩

/-- A cached path of a repository below a copy is replaced by the path below the copy source iff
that fits. -/
theorem copyFits_iff (hd : d.Built) (hinit : init.Extends d) (hi : d.Named i ns)
    (hns : RepositoryPath ns) (ho : d.Named o old) (hq : d.Named q source)
    (hsource : RepositoryPath source) (hsplit : ns = old ++ rest) :
    (∃ result, ReplaceParent d ⟨(i : Index), []⟩ (o : Index) (q : Index) result ∧
      Spells d result (source ++ rest)) ↔ CopyFits ns old source := by
  have hold : RepositoryPath old := by
    rcases hns with h | h
    · exact .inl fun e he => h e (hsplit ▸ List.mem_append_left _ he)
    · rcases List.append_eq_singleton_iff.mp (hsplit.symm.trans h) with ⟨hnil, -⟩ | ⟨hone, -⟩
      · exact .inl (hnil ▸ fun e he => absurd he List.not_mem_nil)
      · exact .inr hone
  obtain ⟨hnames, hstring, ⟨i', hi'⟩, hlength⟩ := hns.named hi
  obtain ⟨-, holdString, ⟨o', ho'⟩, -⟩ := hold.named ho
  obtain ⟨hsourceNames, hsourceString, ⟨q', hq'⟩, hsourceLength⟩ := hsource.named hq
  have hreal : realNames ns = realNames old ++ realNames rest := by
    rw [hsplit, realNames_append]
  have hiff := @spells_iff d ⟨(i' : Index), []⟩ i' o' q' _ _ _ (realNames rest) hd hinit rfl hi' hnames
    (fun e he => absurd he List.not_mem_nil) ho' hq' hsourceNames
    (hreal ▸ List.prefix_append _ _) (by rw [List.append_nil, hreal])
  have hleft : (∃ result, ReplaceParent d ⟨(i : Index), []⟩ (o : Index) (q : Index) result ∧
      Spells d result (source ++ rest)) ↔ ∃ result, ReplaceParent d ⟨(i' : Index), []⟩ (o' : Index)
        (q' : Index) result ∧ Spells d result (realNames source ++ realNames rest) := by
    refine exists_congr fun result => and_congr ?_ ?_
    · rw [replaceParent_cached hd hi ho hq, replaceParent_cached hd hi' ho' hq', hstring, holdString,
        hsourceString]
    · unfold Spells
      rw [realNames_append, realNames_append, realNames_realNames, realNames_realNames]
  have hwhole : realNames ns = [] ↔ realNames old = [] ∧ realNames rest = [] := by
    rw [hreal, List.append_eq_nil_iff]
  have hsame : (realNames ns).length ≤ maxPath ∨ realNames old = realNames ns ↔
      ns.length ≤ maxPath ∨ old = ns := by
    rcases hns with h | rfl
    · rw [realNames_eq h, realNames_eq fun e he => h e (hsplit ▸ List.mem_append_left _ he)]
    · exact iff_of_true (.inl (by decide)) (.inl (by decide))
  rw [hleft, hiff, hsourceLength, hsame, CopyFits, hwhole]
  refine and_congr_right fun _ => forall_congr' fun h => or_congr_right ?_
  rw [and_iff_right h]

end Sources

/-! ### The dictionary of a container -/

section Dictionary

variable {c c' : CRevisionInfoContainer} {delimiter : UInt8 → Bool} {dateOf : List UInt8 → ℤ}

/-- A change adds paths only. -/
theorem extends_addChange (hd : c.paths.Built) {action : TChangeAction} {pathType fromRevision : ℕ}
    {path fromPath : List UInt8} {textModified propsModified : UInt8}
    (h : c.addChange action pathType path fromPath fromRevision textModified propsModified =
      .ok c') : c.paths.Extends c'.paths := by
  obtain ⟨hbuilt, hext, -⟩ := hd.parsePath path
  unfold CRevisionInfoContainer.addChange at h
  split at h
  · exact nomatch h
  split at h
  · obtain ⟨_, _, _, _, -, -, -, -, rfl⟩ := addChangedPath_ok h
    exact hext
  · obtain ⟨c₁, hc₁, hc⟩ := bind_eq_ok.mp h
    obtain ⟨_, _, _, _, -, -, -, -, rfl⟩ := addChangedPath_ok hc₁
    obtain ⟨_, -, rfl⟩ := addCopySource_ok hc
    exact hext.trans (hbuilt.parsePath fromPath).2.1

/-- The root of the dictionary is always there. -/
theorem extends_init_of_reached (h : Reached delimiter dateOf c) :
    CPathDictionary.init.Extends c.paths := by
  induction h with
  | init => exact .refl _
  | insert _ hc ih =>
    obtain ⟨_, _, _, _, -, -, -, -, -, rfl⟩ := insert_ok hc
    exact ih
  | addChange hreached hc ih =>
    obtain ⟨revs, htracks⟩ := hreached.tracks
    exact ih.trans (extends_addChange htracks.changes.built hc)
  | addMergedRevision hreached hc ih =>
    obtain ⟨revs, htracks⟩ := hreached.tracks
    unfold CRevisionInfoContainer.addMergedRevision at hc
    split at hc
    · exact nomatch hc
    obtain ⟨_, -, hc⟩ := bind_eq_ok.mp hc
    obtain rfl := Except.ok.inj hc
    obtain ⟨hbuilt, hext, -⟩ := htracks.changes.built.parsePath _
    exact ih.trans (hext.trans (hbuilt.parsePath _).2.1)
  | @addRevProp c c' _ _ _ hc ih =>
    have hpaths : c'.paths = c.paths := congrArg ChangeColumns.paths (addRevProp_same hc).columns
    rwa [hpaths]
  | update hreached hnewReached hm hc ih _ =>
    obtain ⟨olds, htracks⟩ := hreached.tracks
    obtain ⟨news, hnew⟩ := hnewReached.tracks
    obtain ⟨mapping, hext, -⟩ := htracks.update hnew hm hc
    exact ih.trans hext
  | optimizeChangeOrder hreached hsort hc ih =>
    obtain ⟨revs, htracks⟩ := hreached.tracks
    obtain ⟨c₁, hc₁, -, -, -, hpaths⟩ :=
      htracks.changes.optimizeChangeOrder htracks.size hsort
    obtain rfl := Except.ok.inj (hc₁.symm.trans hc)
    rw [hpaths]
    exact ih

end Dictionary

/-! ### The iterator after a revision -/

/-- The path itself is added or replaced without a copy source. -/
def Starts (p : ℕ) (rev : List SPerChangeInfo) : Prop :=
  ∃ x ∈ rev, (x.getAction = ACTION_ADDED ∨ x.getAction = ACTION_REPLACED) ∧
    x.hasFromPath = false ∧ x.changedPath = (p : Index)

/-- The iterator follows the copies of a revision. -/
structure Handled (it : CCopyFollowingLogIterator) (p : ℕ) (ns : List (List UInt8))
    (rev : List SPerChangeInfo) (found : Bool) (it' : CCopyFollowingLogIterator) : Prop where
  started : Starts p rev → found = true ∧ it' = it.ended
  copied : ¬ Starts p rev → ∀ x old source rest, IsClosestCopy it.revisionInfo.paths p rev x →
    it.revisionInfo.paths.IsNamed x.changedPath old →
    it.revisionInfo.paths.IsNamed x.copyFromPath source → ns = old ++ rest →
    found = true ∧ ∃ path, it' = it.moved path x.copyFromRevision ∧
      Spells it.revisionInfo.paths path (source ++ rest)
  unaffected : ¬ Starts p rev → (∀ x ∈ rev, ¬ CopiesAbove it.revisionInfo.paths p x) →
    found = false ∧ it' = it

/-- The condition on a revision: the path itself is not moved without a copy source, and the closest
copy, if it matters, fits. -/
def Followable (d : CPathDictionary) (p : ℕ) (ns : List (List UInt8)) (rev : List SPerChangeInfo) :
    Prop :=
  (∀ x ∈ rev, x.changedPath = (p : Index) → x.getAction = ACTION_MOVED ∨
      x.getAction = ACTION_MOVEREPLACED → x.hasFromPath = true) ∧
    (¬ Starts p rev → ∀ x old source, IsClosestCopy d p rev x → d.IsNamed x.changedPath old →
      d.IsNamed x.copyFromPath source → CopyFits ns old source)

section Handling

variable {it it' : CCopyFollowingLogIterator} {d : CPathDictionary} {p : ℕ}
  {ns : List (List UInt8)} {rev : List SPerChangeInfo}

/-- There is one change of a path only. -/
theorem ParentsFirst.eq_of_path (horder : ParentsFirst d rev) {x y : SPerChangeInfo} (hx : x ∈ rev)
    (hy : y ∈ rev) (hxp : x.changedPath = (p : Index)) (hyp : y.changedPath = (p : Index)) : x = y := by
  have hsymm : Std.Symm fun x y : SPerChangeInfo =>
      ¬ (x.changedPath = (p : Index) ∧ y.changedPath = (p : Index)) :=
    ⟨fun a b hnot hba => hnot hba.symm⟩
  have hpair : rev.Pairwise fun x y : SPerChangeInfo =>
      ¬ (x.changedPath = (p : Index) ∧ y.changedPath = (p : Index)) :=
    horder.imp fun hnot hboth => hnot p p hboth.1 hboth.2 (.refl p)
  exact not_not.mp fun hne => hpair.forall hx hy hne ⟨hxp, hyp⟩

/-- Two closest copies are one. -/
theorem IsClosestCopy.unique (hd : d.Built) (horder : ParentsFirst d rev) {x y : SPerChangeInfo}
    (hx : IsClosestCopy d p rev x) (hy : IsClosestCopy d p rev y) : x = y := by
  obtain ⟨hmemx, hcopyx, hclosestx⟩ := hx
  obtain ⟨hmemy, hcopyy, hclosesty⟩ := hy
  obtain ⟨-, -, a, ha, -⟩ := id hcopyx
  obtain ⟨-, -, b, hb, -⟩ := id hcopyy
  obtain rfl : a = b := le_antisymm (hd.tree.le_of_above (hclosesty x hmemx hcopyx a b ha hb))
    (hd.tree.le_of_above (hclosestx y hmemy hcopyy b a hb ha))
  exact horder.eq_of_path hmemx hmemy ha hb

/-- A path that is added without a copy source, but is not added or replaced, is moved. -/
theorem starts_or_moved {x : SPerChangeInfo} (hx : x ∈ rev) (hs : StopsAt p x) :
    Starts p rev ∨ x.getAction = ACTION_MOVED ∨ x.getAction = ACTION_MOVEREPLACED := by
  obtain ⟨hadds, hfrom, hpath⟩ := hs
  rcases List.mem_cons.mp hadds with h | h
  · exact .inl ⟨x, hx, .inl h, hfrom, hpath⟩
  rcases List.mem_cons.mp h with h | h
  · exact .inl ⟨x, hx, .inr h, hfrom, hpath⟩
  · exact .inr (by simpa using h)

theorem Starts.stopsAt (h : Starts p rev) : ∃ x ∈ rev, StopsAt p x := by
  obtain ⟨x, hx, haction, hfrom, hpath⟩ := h
  refine ⟨x, hx, ?_, hfrom, hpath⟩
  rcases haction with h | h <;> rw [h] <;> decide

/-- The iterator at a copy source is no longer where it was, and not at the end either. -/
theorem moved_ne_ended {path : CDictionaryBasedTempPath} (revision : ℕ) (hpath : path.index ≠ ⊤) :
    it.moved path revision ≠ it.ended :=
  fun h => hpath (congrArg (fun it : CCopyFollowingLogIterator => it.path.index) h)

/-- The path has started in this revision. -/
theorem follows_started_iff (hd : it.revisionInfo.paths.Built)
    (hvalid : ∀ x ∈ rev, x.Valid it.revisionInfo.paths) (hp : it.revisionInfo.paths.Named p ns)
    (horder : ParentsFirst it.revisionInfo.paths rev) (hstops : ∃ x ∈ rev, StopsAt p x) :
    (∃ found it', it.Follows .started found it' ∧ it.Handled p ns rev found it') ↔
      Followable it.revisionInfo.paths p ns rev := by
  obtain ⟨x, hx, hs⟩ := hstops
  by_cases hstarts : Starts p rev
  · refine iff_of_true ⟨true, it.ended, ⟨rfl, rfl⟩, fun _ => ⟨rfl, rfl⟩, fun h => absurd hstarts h,
      fun h => absurd hstarts h⟩ ⟨fun y hy hpath haction => ?_, fun h => absurd hstarts h⟩
    -- the only change of the path is no move
    obtain ⟨z, hz, hzaction, -, hzpath⟩ := hstarts
    obtain rfl := horder.eq_of_path hy hz hpath hzpath
    rcases haction with h | h <;> rcases hzaction with h' | h' <;>
      exact absurd (h.symm.trans h') (by decide)
  · have hmoved := (starts_or_moved hx hs).resolve_left hstarts
    refine iff_of_false ?_ fun h => ?_
    · rintro ⟨found, it', ⟨rfl, rfl⟩, hhandled⟩
      by_cases hcopy : ∃ y ∈ rev, CopiesAbove it.revisionInfo.paths p y
      · obtain ⟨y, hclosest⟩ := exists_isClosestCopy hd horder hcopy
        obtain ⟨hy, ⟨-, hfrom, a, ha, hap⟩, -⟩ := id hclosest
        obtain ⟨source, hsource⟩ := (hvalid y hy).copy hfrom
        obtain ⟨old, hold⟩ := (hvalid y hy).path
        obtain ⟨a', ha', hnamed⟩ := id hold
        obtain rfl := Nat.cast_injective (R := Index) (ha.symm.trans ha')
        obtain ⟨rest, hrest⟩ := (hd.above_iff_prefix hnamed hp).mp hap
        obtain ⟨-, path, hit, i, -, hindex, -⟩ :=
          hhandled.copied hstarts y old source rest hclosest hold hsource hrest.symm
        exact moved_ne_ended _ (hindex ▸ WithTop.natCast_ne_top i) hit.symm
      · exact absurd (hhandled.unaffected hstarts fun y hy hc => hcopy ⟨y, hy, hc⟩).1 Bool.noConfusion
    · exact absurd ((h.1 x hx hs.2.2 hmoved).symm.trans hs.2.1) Bool.noConfusion

/-- The path goes on at a copy source. -/
theorem follows_copied_iff (hd : it.revisionInfo.paths.Built)
    (hinit : init.Extends it.revisionInfo.paths)
    (hvalid : ∀ x ∈ rev, x.Valid it.revisionInfo.paths) (hpath : it.path = ⟨(p : Index), []⟩)
    (hp : it.revisionInfo.paths.Named p ns) (hns : RepositoryPath ns)
    (hsources : ∀ x ∈ rev, ∀ source, it.revisionInfo.paths.IsNamed x.copyFromPath source →
      RepositoryPath source) (horder : ParentsFirst it.revisionInfo.paths rev) {x : SPerChangeInfo}
    (hstops : ∀ x ∈ rev, ¬ StopsAt p x) (hclosest : IsClosestCopy it.revisionInfo.paths p rev x) :
    (∃ found it', it.Follows (.copied x) found it' ∧ it.Handled p ns rev found it') ↔
      Followable it.revisionInfo.paths p ns rev := by
  have hstarts : ¬ Starts p rev := fun h => by
    obtain ⟨y, hy, hs⟩ := h.stopsAt
    exact hstops y hy hs
  obtain ⟨hx, hcopy, -⟩ := id hclosest
  obtain ⟨-, hfrom, a, ha, hap⟩ := id hcopy
  obtain ⟨source, q, hq, hqnamed⟩ := (hvalid x hx).copy hfrom
  obtain ⟨old, o, ho, honamed⟩ := (hvalid x hx).path
  obtain rfl := Nat.cast_injective (R := Index) (ha.symm.trans ho)
  obtain ⟨rest, hrest⟩ := (hd.above_iff_prefix honamed hp).mp hap
  have hfits := copyFits_iff hd hinit hp hns honamed hqnamed (hsources x hx source ⟨q, hq, hqnamed⟩)
    hrest.symm
  have hunique : ∀ y old' source', IsClosestCopy it.revisionInfo.paths p rev y →
      it.revisionInfo.paths.IsNamed y.changedPath old' →
      it.revisionInfo.paths.IsNamed y.copyFromPath source' → y = x ∧ old' = old ∧ source' = source := by
    rintro y old' source' hy ⟨o', ho', hold'⟩ ⟨q', hq', hsource'⟩
    obtain rfl := hy.unique hd horder hclosest
    obtain rfl := Nat.cast_injective (R := Index) (ha.symm.trans ho')
    obtain rfl := Nat.cast_injective (R := Index) (hq.symm.trans hq')
    exact ⟨rfl, hold'.unique honamed, hsource'.unique hqnamed⟩
  have hfollowable : Followable it.revisionInfo.paths p ns rev ↔ CopyFits ns old source := by
    constructor
    · exact fun h => h.2 hstarts x old source hclosest ⟨a, ha, honamed⟩ ⟨q, hq, hqnamed⟩
    · refine fun h => ⟨fun y hy hypath haction => ?_, fun _ y old' source' hy hold' hsource' => ?_⟩
      · refine Bool.not_eq_false _ ▸ fun hnot => hstops y hy ⟨?_, hnot, hypath⟩
        rcases haction with h | h <;> rw [h] <;> decide
      · obtain ⟨-, rfl, rfl⟩ := hunique y old' source' hy hold' hsource'
        exact h
  rw [hfollowable, ← hfits]
  constructor
  · rintro ⟨found, it', ⟨rfl, path, hreplace, rfl⟩, hhandled⟩
    obtain ⟨-, path', hit, hspells⟩ := hhandled.copied hstarts x old source rest hclosest
      ⟨a, ha, honamed⟩ ⟨q, hq, hqnamed⟩ hrest.symm
    obtain rfl : path = path' := congrArg (fun it : CCopyFollowingLogIterator => it.path) hit
    rw [hpath, ha, hq] at hreplace
    exact ⟨path, hreplace, hspells⟩
  · rintro ⟨path, hreplace, hspells⟩
    refine ⟨true, it.moved path x.copyFromRevision, ⟨rfl, path, ?_, rfl⟩, fun h => absurd h hstarts,
      fun _ y old' source' rest' hy hold' hsource' hsplit => ?_, fun _ hnone => absurd hcopy (hnone x hx)⟩
    · rwa [hpath, ha, hq]
    · obtain ⟨rfl, rfl, rfl⟩ := hunique y old' source' hy hold' hsource'
      obtain rfl := List.append_cancel_left (hrest.trans hsplit)
      exact ⟨rfl, path, rfl, hspells⟩

/-- The examination of the changes and what the iterator makes of it, in a container that holds some
lists of changes. -/
theorem handled_iff {revs : List (List SPerChangeInfo)} (ht : it.revisionInfo.Tracks revs)
    (hinit : init.Extends it.revisionInfo.paths) {index : ℕ}
    (hindex : it.revisionIndices.get it.revision = (index : Index)) (hi : revs[index]? = some rev)
    (hknown : ∀ x ∈ rev, KnownAction x) (horder : ParentsFirst it.revisionInfo.paths rev)
    (hpath : it.path = ⟨(p : Index), []⟩) (hp : it.revisionInfo.paths.Named p ns)
    (hns : RepositoryPath ns) (hsources : ∀ x ∈ rev, ∀ source,
      it.revisionInfo.paths.IsNamed x.copyFromPath source → RepositoryPath source) :
    (∃ found it', it.HandleCopyAndDelete found it' ∧ it.Handled p ns rev found it') ↔
      Followable it.revisionInfo.paths p ns rev := by
  have hd := ht.changes.built
  have hvalid := ht.changes.valid rev (List.mem_of_getElem? hi)
  obtain ⟨first, last, root, outcome, hfirst, hlast, hroot, hfind, hfinds⟩ :=
    findCopy_spec ht.changes hi (hp.lt_size hd) hknown horder
  -- the outcome is all that matters
  have houtcome : ∀ found it', it.HandleCopyAndDelete found it' ↔ it.Follows outcome found it' := by
    intro found it'
    constructor
    · rintro ⟨index', first', last', root', hindex', hfirst', hlast', hroot', outcome', hfind', hfollows⟩
      obtain rfl := Nat.cast_injective (R := Index) (hindex.symm.trans hindex')
      obtain rfl := Except.ok.inj (hfirst.symm.trans hfirst')
      obtain rfl := Except.ok.inj (hlast.symm.trans hlast')
      obtain rfl := Except.ok.inj (hroot.symm.trans hroot')
      rw [hpath, hfind] at hfind'
      obtain rfl := Except.ok.inj hfind'
      exact hfollows
    · refine fun hfollows => ⟨index, first, last, root, hindex, hfirst, hlast, hroot, outcome, ?_,
        hfollows⟩
      rw [hpath]
      exact hfind
  simp only [houtcome]
  cases outcome with
  | unaffected =>
    obtain ⟨hstops, hcopies⟩ := hfinds
    have hstarts : ¬ Starts p rev := fun hs => by
      obtain ⟨x, hx, hs⟩ := hs.stopsAt
      exact hstops x hx hs
    refine iff_of_true ⟨false, it, ⟨rfl, rfl⟩, fun hs => absurd hs hstarts, ?_, fun _ _ => ⟨rfl, rfl⟩⟩
      ⟨fun x hx hxp haction => ?_, fun _ x _ _ hclosest => absurd hclosest.2.1 (hcopies x hclosest.1)⟩
    · exact fun _ x _ _ _ hclosest => absurd hclosest.2.1 (hcopies x hclosest.1)
    · refine Bool.not_eq_false _ ▸ fun hnot => hstops x hx ⟨?_, hnot, hxp⟩
      rcases haction with h | h <;> rw [h] <;> decide
  | started => exact follows_started_iff hd hvalid hp horder hfinds
  | copied x =>
    exact follows_copied_iff hd hinit hvalid hpath hp hns hsources horder hfinds.1 hfinds.2

/-- **The iterator follows the copies of a revision iff the path itself is not moved without a copy
source and the closest copy fits.** -/
theorem handleCopyAndDelete_iff {delimiter : UInt8 → Bool} {dateOf : List UInt8 → ℤ}
    (h : Reached delimiter dateOf it.revisionInfo) {index : ℕ}
    (hindex : it.revisionIndices.get it.revision = (index : Index))
    (hsize : index < it.revisionInfo.size) (hchanges : it.revisionInfo.changesOf index = .ok rev)
    (hknown : ∀ x ∈ rev, KnownAction x) (horder : ParentsFirst it.revisionInfo.paths rev)
    (hpath : it.path = ⟨(p : Index), []⟩) (hp : it.revisionInfo.paths.Named p ns)
    (hns : RepositoryPath ns) (hsources : ∀ x ∈ rev, ∀ source,
      it.revisionInfo.paths.IsNamed x.copyFromPath source → RepositoryPath source) :
    (∃ found it', it.HandleCopyAndDelete found it' ∧ it.Handled p ns rev found it') ↔
      Followable it.revisionInfo.paths p ns rev := by
  obtain ⟨revs, ht⟩ := h.tracks
  obtain ⟨rev', hi⟩ : ∃ rev', revs[index]? = some rev' :=
    ⟨_, List.getElem?_eq_getElem (ht.size ▸ hsize)⟩
  obtain rfl := Except.ok.inj ((ht.changes.changesOf_eq hi).symm.trans hchanges)
  exact handled_iff ht (extends_init_of_reached h) hindex hi hknown horder hpath hp hns hsources

end Handling

/-- One revision, in which `/a` is copied from `/b`. -/
def oneCopy : Except Fault CRevisionInfoContainer := do
  let r ← init.insert (fun _ => false) [] [] 0 HAS_CHANGEDPATHS
  r.1.addChange ⟨ACTION_ADDED, isAction_added⟩ 1 [47, 97] [47, 98] 3 0 0

/-- The change of that revision. -/
def copyOfB : SPerChangeInfo :=
  ⟨((1 : ℕ) : Index), 1, ACTION_ADDED ||| HAS_COPY_FROM, ((2 : ℕ) : Index), 3, 0, 0⟩

/-- At that revision, following some path. -/
def follower (c : CRevisionInfoContainer) (p : ℕ) : CCopyFollowingLogIterator where
  revisionInfo := c
  revisionIndices := ⟨5, [(0 : ℕ)]⟩
  skipRevisionInfo := ⟨[]⟩
  revision := 5
  path := ⟨(p : Index), []⟩
  addRevision := noRevision
  addPath := ⟨⊤, []⟩

theorem oneCopy_spec : ∃ c, oneCopy = .ok c ∧ Reached (fun _ => false) (fun _ => 0) c ∧ c.size = 1 ∧
    c.changesOf 0 = .ok [copyOfB] ∧ c.paths.Named 1 [[97]] ∧ c.paths.Named 2 [[98]] ∧
    c.mergedRangeStarts = [] ∧ c.mergedRevisionsOffsets = [0, 0] := by
  have hrun : (do
      let c ← oneCopy
      let changes ← c.changesOf 0
      pure (c.size, c.paths, changes, c.mergedRangeStarts, c.mergedRevisionsOffsets)) =
        (.ok (1, ((init.parsePath [47, 97]).1.parsePath [47, 98]).1, [copyOfB], [], [0, 0]) :
          Except Fault _) := by
    decide +kernel
  simp only [bind_eq_ok] at hrun
  obtain ⟨c, hc, changes, hchanges, hsizes⟩ := hrun
  simp only [pure, Except.pure, Except.ok.injEq, Prod.mk.injEq] at hsizes
  obtain ⟨hsize, hpaths, rfl, hranges, hoffsets⟩ := hsizes
  obtain ⟨⟨c₁, i₁⟩, hc₁, hc'⟩ := bind_eq_ok.mp hc
  obtain ⟨hbuilt, -, ha⟩ := Built.init.parsePath [47, 97]
  obtain ⟨-, hext, hb⟩ := hbuilt.parsePath [47, 98]
  have hfirst : (CPathDictionary.init.parsePath [47, 97]).2 = 1 := by decide +kernel
  have hsecond : ((CPathDictionary.init.parsePath [47, 97]).1.parsePath [47, 98]).2 = 2 := by
    decide +kernel
  rw [hfirst, show namesOf [47, 97] = [[97]] by decide +kernel] at ha
  rw [hsecond, show namesOf [47, 98] = [[98]] by decide +kernel] at hb
  exact ⟨c, hc, (Reached.init.insert hc₁).addChange hc', hsize, hchanges,
    hpaths ▸ ha.extends hbuilt hext, hpaths ▸ hb, hranges, hoffsets⟩

theorem knownAction_copyOfB : ∀ x ∈ [copyOfB], KnownAction x := by
  intro x hx
  obtain rfl := List.mem_singleton.mp hx
  unfold KnownAction
  decide

theorem repositoryPath_copyOfB {d : CPathDictionary} (hb : d.Named 2 [[98]]) :
    ∀ x ∈ [copyOfB], ∀ source, d.IsNamed x.copyFromPath source → RepositoryPath source := by
  intro x hx source hsource
  obtain rfl := List.mem_singleton.mp hx
  obtain ⟨i, hi, hnamed⟩ := hsource
  obtain rfl := Nat.cast_injective (R := Index) hi
  rw [← hb.unique hnamed]
  exact .inl (by decide)

/-- The copy is followed to its source. -/
theorem handleCopyAndDelete_iff_oneCopy : ∃ c, oneCopy = .ok c ∧
    ((∃ found it', (follower c 1).HandleCopyAndDelete found it' ∧
      (follower c 1).Handled 1 [[97]] [copyOfB] found it') ↔
      Followable c.paths 1 [[97]] [copyOfB]) := by
  obtain ⟨c, hc, hreached, hsize, hchanges, ha, hb, -⟩ := oneCopy_spec
  have hindex : CRevisionIndex.get ⟨5, [(0 : ℕ)]⟩ 5 = (0 : ℕ) := by decide
  exact ⟨c, hc, @handleCopyAndDelete_iff (follower c 1) 1 [[97]] [copyOfB] _ _ hreached 0 hindex
    (hsize ▸ Nat.one_pos) hchanges knownAction_copyOfB (List.pairwise_singleton _ _) rfl ha
    (.inl (by decide)) (repositoryPath_copyOfB hb)⟩

/-- A path below `/a` with more elements than are printed. -/
def deepPath : List (List UInt8) := List.replicate 261 [97]

/-- The copied path is the closest copy for every path below it. -/
theorem isClosestCopy_copyOfB {d : CPathDictionary} {p : ℕ} (habove : d.Above 1 p) :
    IsClosestCopy d p [copyOfB] copyOfB := by
  refine ⟨List.mem_singleton_self _, ⟨by decide, by decide, 1, rfl, habove⟩, ?_⟩
  intro y hy _ a b ha hb
  obtain rfl := List.mem_singleton.mp hy
  obtain rfl := Nat.cast_injective (R := Index) (ha.symm.trans hb)
  exact .refl a

/-- The copy of `/a` from `/b` is not followed from a path with 261 elements. -/
theorem handleCopyAndDelete_truncates : ¬ ∀ (it : CCopyFollowingLogIterator) (p index : ℕ)
    (ns : List (List UInt8)) (rev : List SPerChangeInfo),
      Reached (fun _ => false) (fun _ => 0) it.revisionInfo →
      it.revisionIndices.get it.revision = (index : Index) → index < it.revisionInfo.size →
      it.revisionInfo.changesOf index = .ok rev → (∀ x ∈ rev, KnownAction x) →
      ParentsFirst it.revisionInfo.paths rev → it.path = ⟨(p : Index), []⟩ →
      it.revisionInfo.paths.Named p ns → RepositoryPath ns →
      (∀ x ∈ rev, ∀ source, it.revisionInfo.paths.IsNamed x.copyFromPath source →
        RepositoryPath source) →
      ∃ found it', it.HandleCopyAndDelete found it' ∧ it.Handled p ns rev found it' := by
  intro h
  obtain ⟨c, -, hreached, hsize, hchanges, ha, hb, hranges, hoffsets⟩ := oneCopy_spec
  obtain ⟨revs, ht⟩ := hreached.tracks
  have hd := ht.changes.built
  obtain ⟨hbuilt, hext, hdeep⟩ := hd.parsePath (canonicalPath deepPath)
  obtain ⟨hbuilt', hext', -⟩ := hbuilt.parsePath []
  have hnames : PathNames deepPath := by
    intro e he
    rw [List.eq_of_mem_replicate he]
    decide
  rw [hnames.namesOf (List.cons_ne_nil _ _)] at hdeep
  -- the path is added by a merge
  obtain ⟨c', hc', hpaths⟩ : ∃ c', c.addMergedRevision (canonicalPath deepPath) [] 0 0 = .ok c' ∧
      c'.paths = ((c.paths.parsePath (canonicalPath deepPath)).1.parsePath []).1 := by
    unfold CRevisionInfoContainer.addMergedRevision
    rw [hranges, hoffsets]
    exact ⟨_, rfl, rfl⟩
  have ht' := ht.addMergedRevision hc'
  have hp := hdeep.extends hbuilt hext'
  have ha' := (ha.extends hd hext).extends hbuilt hext'
  have hb' := (hb.extends hd hext).extends hbuilt hext'
  rw [← hpaths] at hp ha' hb' hbuilt'
  generalize (c.paths.parsePath (canonicalPath deepPath)).2 = p at hp
  obtain ⟨rev, hi⟩ : ∃ rev, revs[0]? = some rev :=
    ⟨_, List.getElem?_eq_getElem (ht.size ▸ hsize ▸ Nat.one_pos)⟩
  obtain rfl := Except.ok.inj ((ht.changes.changesOf_eq hi).symm.trans hchanges)
  have hindex : CRevisionIndex.get ⟨5, [(0 : ℕ)]⟩ 5 = (0 : ℕ) := by decide
  have hreached' := hreached.addMergedRevision hc'
  have hhandled := h (follower c' p) p 0 deepPath [copyOfB] hreached' hindex
    (lt_of_lt_of_eq (List.getElem?_eq_some_iff.mp hi).1 ht'.size.symm) (ht'.changes.changesOf_eq hi)
    knownAction_copyOfB (List.pairwise_singleton _ _) rfl hp (.inl hnames)
    (repositoryPath_copyOfB hb')
  have hfollowable := (@handled_iff (follower c' p) p deepPath [copyOfB] _ ht'
    (extends_init_of_reached hreached') 0 hindex hi knownAction_copyOfB (List.pairwise_singleton _ _)
    rfl hp (.inl hnames) (repositoryPath_copyOfB hb')).mp hhandled
  have hnot : ¬ Starts p [copyOfB] := by
    rintro ⟨x, hx, -, hfrom, -⟩
    obtain rfl := List.mem_singleton.mp hx
    exact absurd hfrom (by decide)
  have habove := (hbuilt'.above_iff_prefix ha' hp).mpr ⟨List.replicate 260 [97], rfl⟩
  obtain ⟨⟨-, hlong | hsame⟩, -⟩ := hfollowable.2 hnot copyOfB [[97]] [[98]]
    (isClosestCopy_copyOfB habove) ⟨1, rfl, ha'⟩ ⟨2, rfl, hb'⟩
  · rw [deepPath, List.length_replicate] at hlong
    exact absurd hlong (by decide)
  · have hlength := congrArg List.length hsame
    rw [deepPath, List.length_replicate] at hlength
    exact absurd hlength (by decide)

end CCopyFollowingLogIterator

end TortoiseSvn.LogCache
