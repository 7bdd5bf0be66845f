import Mathlib.Data.List.DropRight
import TortoiseSvn.Merge.DiffData

/-!
# Two-way diffs

`DoTwoWayDiff` builds the one-pane view and the two-pane view of the changes between two files. In the
two-pane view, the rows of a hunk with fewer lines on one side are filled up with empty rows. Moved
blocks are not looked for, and the hunks are not split.

Main result: `doTwoWayDiff_ok`. No line is lost or misplaced, whatever the hunks are.
-/

namespace TortoiseSvn.Merge

open TortoiseSvn.Lib

namespace CDiffData

/-! ### Comparing lines -/

/-- Blanks and tabs. -/
def isBlank (c : Char) : Bool := c = ' ' ∨ c = '\t'

/-- Leading blanks do not count with `dwIgnoreWS = 2`, trailing ones else.
Source: `DiffData.cpp` `CompareWithIgnoreWS` -/
def compareWithIgnoreWS (s1 s2 : String) (dwIgnoreWS : ℕ) : Bool :=
  if dwIgnoreWS = 2 then s1.toList.dropWhile isBlank ≠ s2.toList.dropWhile isBlank
  else s1.toList.rdropWhile isBlank ≠ s2.toList.rdropWhile isBlank

/-- The blanks of a line, up to its first terminator.
Source: `DiffData.cpp` `DoTwoWayDiff`, the loops over `pLine1` and `pLine2` -/
def blanksOf (s : String) : List Char := (s.toList.takeWhile (· ≠ '\x00')).filter isBlank

/-- The number of UTF-16 units, as `CString::GetLength` counts them. -/
def getLength (s : String) : ℕ := (s.toList.map fun c => if c.val < 0x10000 then 1 else 2).sum

/-- Source: `DiffData.cpp` `DoTwoWayDiff` -/
def maxstringlengthforwhitespacecheck : ℕ := 500

/-- The state of lines in a common hunk that are not equal.
Source: `DiffData.cpp` `DoTwoWayDiff`, the common hunks of the two-pane view -/
def commonState (o : DiffOptions) (base your : String) : DiffStates :=
  let ds := if o.dwIgnoreWS = 1 ∧ getLength base < maxstringlengthforwhitespacecheck ∧
      getLength your < maxstringlengthforwhitespacecheck ∧ blanksOf base ≠ blanksOf your then
    DiffStates.whitespace else .normal
  let changedNonWS := (o.dwIgnoreWS = 2 ∨ o.dwIgnoreWS = 3) ∧
    compareWithIgnoreWS base your o.dwIgnoreWS
  let ds := if ¬ changedNonWS then DiffStates.normal else ds
  if ds = .normal ∧ (¬ o.rxEmpty ∨ o.bIgnoreCase ∨ o.bIgnoreComments) then .filteredDiff else ds

/-! ### The one-pane view -/

/-- The view and the positions in both files. -/
structure OnePane where
  both : CViewData
  baseline : ℕ
  yourline : ℕ

/-- Lines of a common hunk that are not equal are shown as removed and added, unless white space does
not count.
Source: `DiffData.cpp` `DoTwoWayDiff`, the common hunks of the one-pane view -/
def addCommon (o : DiffOptions) (both : CViewData) (base your : CFileTextLine) (yourline : ℕ) :
    CViewData :=
  let changedWS := (o.dwIgnoreWS = 2 ∨ o.dwIgnoreWS = 3) ∧
    compareWithIgnoreWS base.sLine your.sLine o.dwIgnoreWS
  if base.sLine ≠ your.sLine ∧ (changedWS ∨ o.dwIgnoreWS = 0) then
    (both.addData base.sLine .removedWhitespace yourline base.eEnding .shown (-1)).addData
      your.sLine .addedWhitespace yourline your.eEnding .shown (-1)
  else both.addData your.sLine .normal yourline base.eEnding .hidden (-1)

/-- Source: `DiffData.cpp` `DoTwoWayDiff`, the first loop over the lines of the base -/
def onePaneOriginal (d : CDiffData) (type : DiffType) (s : OnePane) : Except DiffFailure OnePane :=
  match d.arBaseFile[s.baseline]? with
  | none => .error .newlines
  | some base =>
    if type = .common then
      match d.arYourFile[s.yourline]? with
      | none => .error .newlines
      | some your => .ok ⟨addCommon d.options s.both base your s.yourline, s.baseline + 1,
          s.yourline + 1⟩
    else .ok ⟨s.both.addData base.sLine .removed (-1) base.eEnding .shown (-1), s.baseline + 1,
      s.yourline⟩

/-- Source: `DiffData.cpp` `DoTwoWayDiff`, the first loop over your lines -/
def onePaneModified (d : CDiffData) (s : OnePane) : Except DiffFailure OnePane :=
  match d.arYourFile[s.yourline]? with
  | none => .ok { s with yourline := s.yourline + 1 }
  | some your => .ok ⟨s.both.addData your.sLine .added s.yourline your.eEnding .shown (-1),
      s.baseline, s.yourline + 1⟩

/-- Source: `DiffData.cpp` `DoTwoWayDiff`, the first loop over the hunks -/
def onePaneHunk (d : CDiffData) (s : OnePane) (hunk : SvnDiff) : Except DiffFailure OnePane := do
  let s ← rounds (fun _ => d.onePaneOriginal hunk.type) 0 hunk.original s
  if hunk.type = .diffModified then rounds (fun _ => d.onePaneModified) 0 hunk.modified s else .ok s

/-! ### The two-pane view -/

/-- Both views and the positions in both files. -/
structure TwoPane where
  left : CViewData
  right : CViewData
  baseline : ℕ
  yourline : ℕ

/-- Source: `DiffData.cpp` `DoTwoWayDiff`, the common hunks of the two-pane view -/
def twoPaneCommon (d : CDiffData) (s : TwoPane) : Except DiffFailure TwoPane := do
  let your ← orUndefined d.arYourFile[s.yourline]?
  let base ← orUndefined d.arBaseFile[s.baseline]?
  let ds := if base.sLine ≠ your.sLine then commonState d.options base.sLine your.sLine else .normal
  let hide := if base.sLine ≠ your.sLine then HideState.shown else .hidden
  return ⟨s.left.addData base.sLine ds s.baseline base.eEnding hide (-1),
    s.right.addData your.sLine ds s.yourline your.eEnding hide (-1), s.baseline + 1, s.yourline + 1⟩

/-- The counter says how many lines of the base are left in the hunk.
Source: `DiffData.cpp` `DoTwoWayDiff`, the second loop over your lines -/
def twoPaneModified (d : CDiffData) (s : TwoPane × ℤ) : Except DiffFailure (TwoPane × ℤ) :=
  match d.arYourFile[s.1.yourline]? with
  | none => .ok s
  | some your =>
    let right := s.1.right.addData your.sLine .added s.1.yourline your.eEnding .shown (-1)
    if s.2 ≤ 0 then
      .ok (⟨s.1.left.addEmpty, right, s.1.baseline, s.1.yourline + 1⟩, s.2 - 1)
    else do
      let base ← orUndefined d.arBaseFile[s.1.baseline]?
      return (⟨s.1.left.addData base.sLine .removed s.1.baseline base.eEnding .shown (-1), right,
        s.1.baseline + 1, s.1.yourline + 1⟩, s.2 - 1)

/-- The counter says how many rows of the hunk have a line of the base already.
Source: `DiffData.cpp` `DoTwoWayDiff`, the second loop over the lines of the base -/
def twoPaneOriginal (d : CDiffData) (s : TwoPane × ℤ) : Except DiffFailure (TwoPane × ℤ) :=
  match d.arBaseFile[s.1.baseline]? with
  | none => .ok (s.1, s.2 - 1)
  | some base =>
    if s.2 ≤ 0 then
      .ok (⟨s.1.left.addData base.sLine .removed s.1.baseline base.eEnding .shown (-1),
        s.1.right.addEmpty, s.1.baseline + 1, s.1.yourline⟩, s.2 - 1)
    else .ok (s.1, s.2 - 1)

/-- Source: `DiffData.cpp` `DoTwoWayDiff`, the second loop over the hunks -/
def twoPaneHunk (d : CDiffData) (s : TwoPane) (hunk : SvnDiff) : Except DiffFailure TwoPane :=
  match hunk.type with
  | .common => rounds (fun _ => d.twoPaneCommon) 0 hunk.original s
  | .diffModified => do
    let r ← rounds (fun _ => d.twoPaneModified) 0 hunk.modified (s, (hunk.original : ℤ))
    let r ← rounds (fun _ => d.twoPaneOriginal) 0 hunk.original (r.1, (hunk.modified : ℤ))
    return r.1
  | _ => .ok s

/-- The position behind the last row that is not empty, among the first `n` rows.
Source: `DiffData.cpp` `DoTwoWayDiff`, the search for the first empty row of the last block -/
def lastBlock (view : CViewData) : ℕ → Except DiffFailure ℕ
  | 0 => .ok 0
  | n + 1 => do
    if (← orUndefined (view.getState n)) = .empty then lastBlock view n else return n + 1

/-- A last line goes to the first empty row of the last block, or into a new row beside an empty
one.
Source: `DiffData.cpp` `DoTwoWayDiff`, "add last (empty) lines if needed" -/
def addLastLine (view other : CViewData) (row : Viewdata) :
    Except DiffFailure (CViewData × CViewData) := do
  let nPos ← lastBlock view view.data.length
  if nPos < view.data.length then
    let view ← orUndefined (view.setData nPos row)
    return (view, other)
  else return (view.addRow row, other.addEmpty)

/-- Source: `DiffData.cpp` `DoTwoWayDiff`, "add last (empty) lines if needed" -/
def addLastLines (d : CDiffData) (s : TwoPane) : Except DiffFailure (CViewData × CViewData) :=
  match d.arBaseFile[s.baseline]?, d.arYourFile[s.yourline]? with
  | some base, some your =>
    .ok (s.left.addData base.sLine .normal s.baseline base.eEnding .shown (-1),
      s.right.addData your.sLine .normal s.yourline your.eEnding .shown (-1))
  | some base, none => addLastLine s.left s.right
      { sLine := base.sLine, state := .removed, linenumber := s.baseline, ending := base.eEnding
        hidestate := .shown }
  | none, some your => (addLastLine s.right s.left
      { sLine := your.sLine, state := .added, linenumber := s.yourline, ending := your.eEnding
        hidestate := .shown }).map Prod.swap
  | none, none => .ok (s.left, s.right)

/-- The views are those that the data has when the diff begins, which are empty.
Source: `DiffData.cpp` `DoTwoWayDiff` -/
def doTwoWayDiff (d : CDiffData) (hunks : List SvnDiff) : Except DiffFailure CDiffData := do
  let one ← hunks.foldlM d.onePaneHunk ⟨d.yourBaseBoth, 0, 0⟩
  let both ← hideUnchangedSections d.options.contextLines [one.both]
  let two ← hunks.foldlM d.twoPaneHunk ⟨d.yourBaseLeft, d.yourBaseRight, 0, 0⟩
  let (left, right) ← d.addLastLines two
  let views ← hideUnchangedSections d.options.contextLines [left, right]
  return { d with
    yourBaseBoth := both.headD {}
    yourBaseLeft := views.headD {}
    yourBaseRight := views.tail.headD {} }

/-! ### The rounds of the two-pane view -/

/-- A row of a view has a line. -/
def hasLine (row : Viewdata) : Bool := row.state ≠ .empty

/-- Both views show the first lines of their files, and no row is empty in both. -/
structure Paired (d : CDiffData) (s : TwoPane) : Prop where
  rows : List.Forall₂ (fun l r => hasLine l = true ∨ hasLine r = true) s.left.data s.right.data
  left : s.left.linesWhere hasLine = numbered d.arBaseFile s.baseline
  right : s.right.linesWhere hasLine = numbered d.arYourFile s.yourline

section Rounds

variable {d : CDiffData} {s : TwoPane}

/-- One more row in both views. -/
theorem Paired.addRows (h : d.Paired s) {l r : Viewdata} {b y : ℕ}
    (hl : Takes hasLine d.arBaseFile l s.baseline b)
    (hr : Takes hasLine d.arYourFile r s.yourline y) (hne : hasLine l = true ∨ hasLine r = true) :
    d.Paired ⟨s.left.addRow l, s.right.addRow r, b, y⟩ where
  rows := List.rel_append h.rows (.cons hne .nil)
  left := hl.linesWhere h.left
  right := hr.linesWhere h.right

theorem commonState_ne_empty (o : DiffOptions) (base your : String) :
    commonState o base your ≠ .empty := by
  unfold commonState
  dsimp only
  split_ifs <;> exact DiffStates.noConfusion

theorem Paired.twoPaneCommon (h : d.Paired s) (hb : s.baseline < d.arBaseFile.length)
    (hy : s.yourline < d.arYourFile.length) :
    ∃ s', d.twoPaneCommon s = .ok s' ∧ d.Paired s' ∧ s'.baseline = s.baseline + 1 ∧
      s'.yourline = s.yourline + 1 := by
  have hbase := List.getElem?_eq_getElem hb
  have hyour := List.getElem?_eq_getElem hy
  generalize d.arBaseFile[s.baseline] = base at hbase
  generalize d.arYourFile[s.yourline] = your at hyour
  have hstate : (if base.sLine ≠ your.sLine then commonState d.options base.sLine your.sLine
      else .normal) ≠ DiffStates.empty := by
    split
    · exact commonState_ne_empty _ _ _
    · exact DiffStates.noConfusion
  unfold CDiffData.twoPaneCommon
  rw [hyour, hbase]
  refine ⟨_, rfl, h.addRows (.line ?_ hbase rfl rfl) (.line ?_ hyour rfl rfl) (.inl ?_), rfl, rfl⟩ <;>
  exact decide_eq_true hstate

theorem Paired.twoPaneModified {o i : ℕ} (h : d.Paired s) (hy : s.yourline < d.arYourFile.length)
    (hb : i < o → s.baseline < d.arBaseFile.length) :
    ∃ s', d.twoPaneModified (s, (o : ℤ) - i) = .ok (s', (o : ℤ) - (i + 1 : ℕ)) ∧ d.Paired s' ∧
      s'.baseline = s.baseline + (if i < o then 1 else 0) ∧ s'.yourline = s.yourline + 1 := by
  have hyour := List.getElem?_eq_getElem hy
  have hcount : (o : ℤ) - i - 1 = (o : ℤ) - (i + 1 : ℕ) := by push_cast; ring
  unfold CDiffData.twoPaneModified
  rw [hyour]
  dsimp only
  rw [hcount]
  split
  · rename_i hle
    rw [if_neg (by omega)]
    exact ⟨_, rfl, h.addRows (.skip rfl) (.line rfl hyour rfl rfl) (.inr rfl), rfl, rfl⟩
  · rename_i hlt
    have hbase := List.getElem?_eq_getElem (hb (by omega))
    rw [if_pos (by omega), hbase]
    exact ⟨_, rfl, h.addRows (.line rfl hbase rfl rfl) (.line rfl hyour rfl rfl) (.inl rfl), rfl, rfl⟩

theorem Paired.twoPaneOriginal {m i : ℕ} (h : d.Paired s)
    (hb : m ≤ i → s.baseline < d.arBaseFile.length) :
    ∃ s', d.twoPaneOriginal (s, (m : ℤ) - i) = .ok (s', (m : ℤ) - (i + 1 : ℕ)) ∧ d.Paired s' ∧
      s'.baseline = s.baseline + (if m ≤ i then 1 else 0) ∧ s'.yourline = s.yourline := by
  have hcount : (m : ℤ) - i - 1 = (m : ℤ) - (i + 1 : ℕ) := by push_cast; ring
  unfold CDiffData.twoPaneOriginal
  dsimp only
  rw [hcount]
  rcases Nat.lt_or_ge i m with hlt | hle
  · rw [if_neg (by omega : ¬ m ≤ i)]
    cases d.arBaseFile[s.baseline]? with
    | none => exact ⟨s, rfl, h, rfl, rfl⟩
    | some base =>
      dsimp only
      rw [if_neg (by omega)]
      exact ⟨s, rfl, h, rfl, rfl⟩
  · have hbase := List.getElem?_eq_getElem (hb hle)
    rw [if_pos hle, hbase]
    dsimp only
    rw [if_pos (by omega)]
    exact ⟨_, rfl, h.addRows (.line rfl hbase rfl rfl) (.skip rfl) (.inl rfl), rfl, rfl⟩

/-- What the hunks of a two-way diff look like: common lines or changed lines. -/
def IsTwoWay (hunk : SvnDiff) : Prop :=
  hunk.type = .common ∧ hunk.original = hunk.modified ∨ hunk.type = .diffModified

/-- A hunk puts all of its lines into both views. -/
theorem Paired.twoPaneHunk (h : d.Paired s) {hunk : SvnDiff} (htype : IsTwoWay hunk)
    (hb : s.baseline + hunk.original ≤ d.arBaseFile.length)
    (hy : s.yourline + hunk.modified ≤ d.arYourFile.length) :
    ∃ s', d.twoPaneHunk s hunk = .ok s' ∧ d.Paired s' ∧
      s'.baseline = s.baseline + hunk.original ∧ s'.yourline = s.yourline + hunk.modified := by
  unfold CDiffData.twoPaneHunk
  rcases htype with ⟨htype, hlen⟩ | htype
  · rw [htype]
    obtain ⟨s', hrun, h', hbase, hyour⟩ := @rounds_ok _ _ (fun _ => d.twoPaneCommon)
      (fun i t => d.Paired t ∧ t.baseline = s.baseline + i ∧ t.yourline = s.yourline + i) 0
      hunk.original
      (fun i t _ hi ⟨ht, hbase, hyour⟩ => by
        obtain ⟨t', hrun, ht', hbase', hyour'⟩ := ht.twoPaneCommon (by omega) (by omega)
        exact ⟨t', hrun, ht', by omega, by omega⟩)
      s ⟨h, rfl, rfl⟩
    exact ⟨s', hrun, h', by omega, by omega⟩
  · rw [htype]
    -- first your lines, beside lines of the base as long as there are any
    obtain ⟨⟨s₁, c₁⟩, hrun₁, h₁, hc₁, hbase₁, hyour₁⟩ := @rounds_ok _ _ (fun _ => d.twoPaneModified)
      (fun i t => d.Paired t.1 ∧ t.2 = (hunk.original : ℤ) - i ∧
        t.1.baseline = s.baseline + min i hunk.original ∧ t.1.yourline = s.yourline + i) 0
      hunk.modified
      (fun i t _ hi ⟨ht, hcount, hbase, hyour⟩ => by
        obtain ⟨t, count⟩ := t
        obtain rfl : count = (hunk.original : ℤ) - i := hcount
        dsimp only at ht hbase hyour
        obtain ⟨t', hrun, ht', hbase', hyour'⟩ := ht.twoPaneModified (o := hunk.original) (i := i)
          (by omega) (by omega)
        refine ⟨_, hrun, ht', rfl, ?_, ?_⟩ <;> dsimp only
        · split at hbase' <;> omega
        · omega)
      (s, (hunk.original : ℤ)) ⟨h, by simp, by simp, rfl⟩
    -- then the lines of the base that are left
    obtain ⟨⟨s₂, c₂⟩, hrun₂, h₂, hc₂, hbase₂, hyour₂⟩ := @rounds_ok _ _ (fun _ => d.twoPaneOriginal)
      (fun i t => d.Paired t.1 ∧ t.2 = (hunk.modified : ℤ) - i ∧
        t.1.baseline = s.baseline + min hunk.modified hunk.original + (i - hunk.modified) ∧
        t.1.yourline = s.yourline + hunk.modified) 0 hunk.original
      (fun i t _ hi ⟨ht, hcount, hbase, hyour⟩ => by
        obtain ⟨t, count⟩ := t
        obtain rfl : count = (hunk.modified : ℤ) - i := hcount
        dsimp only at ht hbase hyour
        obtain ⟨t', hrun, ht', hbase', hyour'⟩ := ht.twoPaneOriginal (m := hunk.modified) (i := i)
          (by omega)
        refine ⟨_, hrun, ht', rfl, ?_, ?_⟩ <;> dsimp only
        · split at hbase' <;> omega
        · omega)
      (s₁, (hunk.modified : ℤ)) (by
        dsimp only at h₁ hbase₁ hyour₁ ⊢
        exact ⟨h₁, by simp, by omega, by omega⟩)
    dsimp only at hbase₂ hyour₂ h₂
    refine ⟨s₂, ?_, h₂, by omega, hyour₂⟩
    dsimp only
    rw [hrun₁]
    simp only [bind, Except.bind]
    rw [hrun₂]
    rfl

/-- All hunks put their lines into both views. -/
theorem Paired.twoPaneHunks {hunks : List SvnDiff} (h : d.Paired s)
    (htypes : ∀ hunk ∈ hunks, IsTwoWay hunk)
    (hb : s.baseline + (hunks.map fun hunk => hunk.original).sum ≤ d.arBaseFile.length)
    (hy : s.yourline + (hunks.map fun hunk => hunk.modified).sum ≤ d.arYourFile.length) :
    ∃ s', hunks.foldlM d.twoPaneHunk s = .ok s' ∧ d.Paired s' ∧
      s'.baseline = s.baseline + (hunks.map fun hunk => hunk.original).sum ∧
      s'.yourline = s.yourline + (hunks.map fun hunk => hunk.modified).sum := by
  induction hunks generalizing s with
  | nil => exact ⟨s, rfl, h, rfl, rfl⟩
  | cons hunk hunks ih =>
    obtain ⟨htype, hrest⟩ := List.forall_mem_cons.mp htypes
    rw [List.map_cons, List.sum_cons] at hb hy
    obtain ⟨s₁, hrun₁, h₁, hbase₁, hyour₁⟩ := h.twoPaneHunk htype (by omega) (by omega)
    obtain ⟨s₂, hrun₂, h₂, hbase₂, hyour₂⟩ := ih h₁ hrest (by omega) (by omega)
    refine ⟨s₂, ?_, h₂, ?_, ?_⟩
    · rw [List.foldlM_cons, hrun₁]
      exact hrun₂
    · rw [List.map_cons, List.sum_cons]
      omega
    · rw [List.map_cons, List.sum_cons]
      omega

end Rounds

/-! ### The last lines -/

section LastLines

variable {view other : CViewData} {n : ℕ}

/-- All rows behind the position that is found are empty. -/
theorem lastBlock_ok (hn : n ≤ view.data.length) : ∃ p ≤ n, lastBlock view n = .ok p ∧
    ∀ (j : ℕ) row, p ≤ j → j < n → view.data[j]? = some row → hasLine row = false := by
  induction n with
  | zero => exact ⟨0, le_rfl, rfl, fun j _ _ hj => absurd hj (Nat.not_lt_zero j)⟩
  | succ n ih =>
    have hget : view.data[n]? = some view.data[n] := List.getElem?_eq_getElem hn
    have hstate : view.getState n = some view.data[n].state := by
      rw [CViewData.getState, CViewData.getData, hget]
      rfl
    rw [lastBlock, hstate]
    simp only [orUndefined, bind, Except.bind]
    split
    · rename_i hempty
      obtain ⟨p, hp, hrun, hall⟩ := ih (Nat.le_of_succ_le hn)
      refine ⟨p, Nat.le_succ_of_le hp, hrun, fun j row hpj hj hrow => ?_⟩
      rcases Nat.lt_succ_iff_lt_or_eq.mp hj with hlt | rfl
      · exact hall j row hpj hlt hrow
      · obtain rfl := Option.some.inj (hget.symm.trans hrow)
        exact decide_eq_false (not_not.mpr hempty)
    · exact ⟨n + 1, le_rfl, rfl, fun j _ hle hlt => absurd hle (Nat.not_le.mpr hlt)⟩

/-- Overwriting the first of the empty rows at the end of a view. -/
theorem linesWhere_set {p : ℕ} {row : Viewdata} (hp : p < view.data.length)
    (hempty : ∀ (j : ℕ) row, p ≤ j → view.data[j]? = some row → hasLine row = false)
    (hrow : hasLine row = true) :
    ((view.data.set p row).filter hasLine).map (fun r => (r.sLine, r.linenumber)) =
      view.linesWhere hasLine ++ [(row.sLine, row.linenumber)] := by
  have hnone : ∀ k, p ≤ k → (view.data.drop k).filter hasLine = [] := by
    intro k hk
    rw [List.filter_eq_nil_iff]
    intro r hr
    obtain ⟨j, hj⟩ := List.getElem?_of_mem hr
    rw [List.getElem?_drop] at hj
    rw [hempty (k + j) r (by omega) hj]
    exact Bool.false_ne_true
  have hsplit : view.data.filter hasLine = (view.data.take p).filter hasLine := by
    conv_lhs => rw [← List.take_append_drop p view.data]
    rw [List.filter_append, hnone p le_rfl, List.append_nil]
  rw [List.set_eq_take_append_cons_drop, if_pos hp, List.filter_append,
    List.filter_cons_of_pos hrow, hnone (p + 1) (Nat.le_succ p), CViewData.linesWhere, hsplit,
    List.map_append]
  rfl

theorem linesWhere_addEmpty (view : CViewData) :
    view.addEmpty.linesWhere hasLine = view.linesWhere hasLine := by
  unfold CViewData.addEmpty CViewData.addData
  rw [CViewData.linesWhere_addRow]
  exact List.append_nil _

/-- A last line comes behind the others, and not into a row that is empty in both views. -/
theorem addLastLine_ok {file : CFileTextLines}
    (hrows : List.Forall₂ (fun v o => hasLine v = true ∨ hasLine o = true) view.data other.data)
    (hlines : view.linesWhere hasLine = numbered file n) (row : Viewdata)
    (hrow : Takes hasLine file row n (n + 1)) (hne : hasLine row = true) : ∃ view' other', addLastLine view other row = .ok (view', other') ∧
      List.Forall₂ (fun v o => hasLine v = true ∨ hasLine o = true) view'.data other'.data ∧
      view'.linesWhere hasLine = numbered file (n + 1) ∧
      other'.linesWhere hasLine = other.linesWhere hasLine := by
  obtain ⟨p, -, hrun, hempty⟩ := @lastBlock_ok view _ le_rfl
  unfold addLastLine
  rw [hrun]
  simp only [bind, Except.bind]
  split
  · rename_i hp
    obtain ⟨view', hset, hdata⟩ := CViewData.setData_of_lt hp row
    rw [hset]
    refine ⟨view', other, rfl, ?_, ?_, rfl⟩
    · rw [hdata, List.forall₂_iff_get]
      rw [List.forall₂_iff_get] at hrows
      refine ⟨by rw [List.length_set, hrows.1], fun i hi hi' => ?_⟩
      rw [List.get_eq_getElem, List.getElem_set]
      split
      · exact .inl hne
      · exact hrows.2 i (by rwa [List.length_set] at hi) hi'
    · have hadd := hrow.linesWhere hlines
      rw [CViewData.linesWhere_addRow, if_pos hne] at hadd
      rw [CViewData.linesWhere, hdata, linesWhere_set hp (fun j r hle hj =>
        hempty j r hle (List.getElem?_eq_some_iff.mp hj).1 hj) hne, hadd]
  · refine ⟨_, _, rfl, List.rel_append hrows (.cons (.inl hne) .nil), hrow.linesWhere hlines,
      linesWhere_addEmpty other⟩

end LastLines

/-! ### Both views -/

/-- The hunks cover a file, but for a last line that the diff may not report. -/
def Covers (file : CFileTextLines) (lengths : List ℕ) : Prop :=
  lengths.sum ≤ file.length ∧ file.length ≤ lengths.sum + 1

/-- The two-pane view shows all lines of both files in order, with their numbers, and no row is empty
on both sides. -/
structure ShowsBoth (d : CDiffData) : Prop where
  count : d.yourBaseLeft.data.length = d.yourBaseRight.data.length
  left : d.yourBaseLeft.linesWhere hasLine = numbered d.arBaseFile d.arBaseFile.length
  right : d.yourBaseRight.linesWhere hasLine = numbered d.arYourFile d.arYourFile.length
  notBoth : ∀ (i : ℕ) l r, d.yourBaseLeft.data[i]? = some l → d.yourBaseRight.data[i]? = some r →
    hasLine l = true ∨ hasLine r = true

section Views

variable {d : CDiffData} {hunks : List SvnDiff}

theorem onePaneOriginal_ok {type : DiffType} {s : OnePane} (hb : s.baseline < d.arBaseFile.length)
    (hy : type = .common → s.yourline < d.arYourFile.length) :
    ∃ s', d.onePaneOriginal type s = .ok s' ∧ s'.baseline = s.baseline + 1 ∧
      s'.yourline = s.yourline + (if type = .common then 1 else 0) := by
  unfold onePaneOriginal
  rw [List.getElem?_eq_getElem hb]
  dsimp only
  split
  · rename_i htype
    rw [List.getElem?_eq_getElem (hy htype)]
    exact ⟨_, rfl, rfl, rfl⟩
  · exact ⟨_, rfl, rfl, rfl⟩

theorem onePaneHunk_ok {s : OnePane} {hunk : SvnDiff} (htype : IsTwoWay hunk)
    (hb : s.baseline + hunk.original ≤ d.arBaseFile.length)
    (hy : s.yourline + hunk.modified ≤ d.arYourFile.length) :
    ∃ s', d.onePaneHunk s hunk = .ok s' ∧ s'.baseline = s.baseline + hunk.original ∧
      s'.yourline = s.yourline + hunk.modified := by
  have hcommon : hunk.type = .common → hunk.original = hunk.modified := by
    intro hc
    rcases htype with ⟨-, hlen⟩ | htype
    · exact hlen
    · exact absurd (hc.symm.trans htype) DiffType.noConfusion
  obtain ⟨s₁, hrun₁, hbase₁, hyour₁⟩ := @rounds_ok _ _ (fun _ => d.onePaneOriginal hunk.type)
    (fun i t => t.baseline = s.baseline + i ∧
      t.yourline = s.yourline + (if hunk.type = .common then i else 0)) 0 hunk.original
    (fun i t _ hi ⟨hbase, hyour⟩ => by
      obtain ⟨t', hrun, hbase', hyour'⟩ := @onePaneOriginal_ok d hunk.type t (by omega) (fun hc => by
        have hlen := hcommon hc
        rw [if_pos hc] at hyour
        omega)
      refine ⟨t', hrun, by omega, ?_⟩
      by_cases hc : hunk.type = .common
      · rw [if_pos hc] at hyour hyour' ⊢
        omega
      · rw [if_neg hc] at hyour hyour' ⊢
        omega)
    s ⟨rfl, by split <;> rfl⟩
  unfold onePaneHunk
  rw [hrun₁]
  simp only [bind, Except.bind]
  rcases htype with ⟨htype, hlen⟩ | htype
  · rw [htype, if_neg DiffType.noConfusion]
    rw [htype, if_pos rfl] at hyour₁
    exact ⟨s₁, rfl, by omega, by omega⟩
  · rw [htype, if_pos rfl]
    rw [htype, if_neg DiffType.noConfusion] at hyour₁
    obtain ⟨s₂, hrun₂, hbase₂, hyour₂⟩ := @rounds_ok _ _ (fun _ => d.onePaneModified)
      (fun i t => t.baseline = s₁.baseline ∧ t.yourline = s₁.yourline + i) 0 hunk.modified
      (fun i t _ hi ⟨hbase, hyour⟩ => by
        unfold onePaneModified
        rw [List.getElem?_eq_getElem (by omega : t.yourline < d.arYourFile.length)]
        exact ⟨_, rfl, hbase, by dsimp only; omega⟩)
      s₁ ⟨rfl, rfl⟩
    exact ⟨s₂, hrun₂, by omega, by omega⟩

/-- The one-pane view gets to its end. -/
theorem onePane_ok {s : OnePane} (htypes : ∀ hunk ∈ hunks, IsTwoWay hunk)
    (hb : s.baseline + (hunks.map fun hunk => hunk.original).sum ≤ d.arBaseFile.length)
    (hy : s.yourline + (hunks.map fun hunk => hunk.modified).sum ≤ d.arYourFile.length) :
    ∃ s', hunks.foldlM d.onePaneHunk s = .ok s' := by
  induction hunks generalizing s with
  | nil => exact ⟨s, rfl⟩
  | cons hunk hunks ih =>
    obtain ⟨htype, hrest⟩ := List.forall_mem_cons.mp htypes
    rw [List.map_cons, List.sum_cons] at hb hy
    obtain ⟨s₁, hrun₁, hbase₁, hyour₁⟩ := @onePaneHunk_ok d s hunk htype (by omega) (by omega)
    obtain ⟨s₂, hrun₂⟩ := @ih s₁ hrest (by omega) (by omega)
    refine ⟨s₂, ?_⟩
    rw [List.foldlM_cons, hrun₁]
    exact hrun₂

/-- The last lines complete both views. -/
theorem Paired.addLastLines {s : TwoPane} (h : d.Paired s)
    (hb : s.baseline ≤ d.arBaseFile.length ∧ d.arBaseFile.length ≤ s.baseline + 1)
    (hy : s.yourline ≤ d.arYourFile.length ∧ d.arYourFile.length ≤ s.yourline + 1) :
    ∃ left right, d.addLastLines s = .ok (left, right) ∧
      d.Paired ⟨left, right, d.arBaseFile.length, d.arYourFile.length⟩ := by
  have hend : ∀ {file : CFileTextLines} {n : ℕ}, n ≤ file.length ∧ file.length ≤ n + 1 →
      file[n]? = none ∧ file.length = n ∨ ∃ line, file[n]? = some line ∧ file.length = n + 1 := by
    intro file n ⟨hle, hge⟩
    rcases Nat.lt_or_ge n file.length with hlt | hge'
    · exact .inr ⟨_, List.getElem?_eq_getElem hlt, by omega⟩
    · exact .inl ⟨List.getElem?_eq_none hge', by omega⟩
  unfold CDiffData.addLastLines
  rcases hend hb with ⟨hbase, hblen⟩ | ⟨base, hbase, hblen⟩ <;>
    rcases hend hy with ⟨hyour, hylen⟩ | ⟨your, hyour, hylen⟩ <;> rw [hbase, hyour, hblen, hylen]
  · exact ⟨s.left, s.right, rfl, h⟩
  · obtain ⟨right, left, hrun, hrows, hright, hleft⟩ := addLastLine_ok
      (h.rows.flip.imp fun _ _ ho => ho.symm) h.right
      { sLine := your.sLine, state := .added, linenumber := s.yourline, ending := your.eEnding
        hidestate := .shown } (.line rfl hyour rfl rfl) rfl
    refine ⟨left, right, ?_, hrows.flip.imp fun _ _ ho => ho.symm, hleft.trans h.left, hright⟩
    dsimp only
    rw [hrun]
    rfl
  · obtain ⟨left, right, hrun, hrows, hleft, hright⟩ := addLastLine_ok h.rows h.left
      { sLine := base.sLine, state := .removed, linenumber := s.baseline, ending := base.eEnding
        hidestate := .shown } (.line rfl hbase rfl rfl) rfl
    exact ⟨left, right, hrun, hrows, hleft, hright.trans h.right⟩
  · exact ⟨_, _, rfl, h.addRows (.line rfl hbase rfl rfl) (.line rfl hyour rfl rfl) (.inl rfl)⟩

/-- **A two-way diff loses nothing**: whatever the hunks are, both views show their files. -/
theorem doTwoWayDiff_ok (d : CDiffData) (hunks : List SvnDiff)
    (htypes : ∀ hunk ∈ hunks, IsTwoWay hunk)
    (hbase : Covers d.arBaseFile (hunks.map fun hunk => hunk.original))
    (hyour : Covers d.arYourFile (hunks.map fun hunk => hunk.modified)) :
    ∃ d', d.clearViews.doTwoWayDiff hunks = .ok d' ∧ d'.arBaseFile = d.arBaseFile ∧
      d'.arYourFile = d.arYourFile ∧ d'.ShowsBoth := by
  obtain ⟨one, hone⟩ := @onePane_ok d.clearViews hunks ⟨{}, 0, 0⟩ htypes
    (by rw [Nat.zero_add]; exact hbase.1) (by rw [Nat.zero_add]; exact hyour.1)
  obtain ⟨both, hboth, -⟩ := @hideUnchangedSections_ok one.both.data.length [one.both]
    d.options.contextLines (List.forall_mem_singleton.mpr rfl)
  have hstart : d.clearViews.Paired ⟨{}, {}, 0, 0⟩ := ⟨.nil, rfl, rfl⟩
  obtain ⟨two, htwo, hpaired, hb, hy⟩ := hstart.twoPaneHunks htypes
    (by rw [Nat.zero_add]; exact hbase.1) (by rw [Nat.zero_add]; exact hyour.1)
  rw [Nat.zero_add] at hb hy
  obtain ⟨left, right, hlast, hrows, hleft, hright⟩ := hpaired.addLastLines
    (by rw [hb]; exact hbase) (by rw [hy]; exact hyour)
  have hcount := hrows.length_eq
  obtain ⟨views, hviews, hsame⟩ := @hideUnchangedSections_ok left.data.length [left, right]
    d.options.contextLines (List.forall_mem_cons.mpr ⟨rfl, List.forall_mem_singleton.mpr hcount.symm⟩)
  -- the views behind hiding have the same rows
  obtain ⟨left', rest, rfl, hleft', hrest⟩ := List.map_eq_cons_iff.mp hsame.rows
  obtain ⟨right', rest, rfl, hright', hrest⟩ := List.map_eq_cons_iff.mp hrest
  obtain rfl := List.map_eq_nil_iff.mp hrest
  refine ⟨{ d.clearViews with
    yourBaseBoth := both.headD {}, yourBaseLeft := left', yourBaseRight := right' }, ?_, rfl, rfl,
    ?_, ?_, ?_, ?_⟩
  · unfold doTwoWayDiff
    rw [show d.clearViews.yourBaseBoth = {} from rfl, show d.clearViews.yourBaseLeft = {} from rfl,
      show d.clearViews.yourBaseRight = {} from rfl, show d.clearViews.options = d.options from rfl]
    simp only [bind, Except.bind, hone, hboth, htwo, hlast, hviews]
    rfl
  · exact (hsame.length left' List.mem_cons_self).trans
      (hsame.length right' (List.mem_cons_of_mem _ List.mem_cons_self)).symm
  · exact (CViewData.linesWhere_eq_of_rows hleft' fun _ => rfl).trans hleft
  · exact (CViewData.linesWhere_eq_of_rows hright' fun _ => rfl).trans hright
  · have hall : List.Forall₂ (fun l r => hasLine l = true ∨ hasLine r = true) left'.rows
        right'.rows := by
      rw [hleft', hright', CViewData.rows, CViewData.rows, List.forall₂_map_left_iff,
        List.forall₂_map_right_iff]
      exact hrows
    rw [CViewData.rows, CViewData.rows, List.forall₂_map_left_iff,
      List.forall₂_map_right_iff] at hall
    intro i l r hl hr
    obtain ⟨hi, rfl⟩ := List.getElem?_eq_some_iff.mp hl
    obtain ⟨hi', rfl⟩ := List.getElem?_eq_some_iff.mp hr
    exact hall.get hi hi'

/-- A last line that only your file has. -/
theorem doTwoWayDiff_ok_lastLine : ∃ d' : CDiffData, (clearViews
    { options := ⟨0, false, false, false, true, 1⟩, arBaseFile := [⟨"a", .lf⟩], arTheirFile := []
      arYourFile := [⟨"a", .lf⟩, ⟨"b", .noEnding⟩] }).doTwoWayDiff
        [{ original := 1, modified := 1, latest := 0, type := .common }] = .ok d' ∧
      d'.ShowsBoth := by
  obtain ⟨d', hrun, -, -, hshows⟩ := doTwoWayDiff_ok
    { options := ⟨0, false, false, false, true, 1⟩, arBaseFile := [⟨"a", .lf⟩], arTheirFile := []
      arYourFile := [⟨"a", .lf⟩, ⟨"b", .noEnding⟩] }
    [{ original := 1, modified := 1, latest := 0, type := .common }]
    (List.forall_mem_singleton.mpr (.inl ⟨rfl, rfl⟩)) ⟨by decide, by decide⟩ ⟨by decide, by decide⟩
  exact ⟨d', hrun, hshows⟩

end Views

end CDiffData

end TortoiseSvn.Merge
