import TortoiseSvn.Merge.FileTextLines

/-!
# Saving a view with conflicts

`CBaseView::SaveFile` collects the rows of a view. Rows that still conflict are replaced by the rows of
the right and the left view, with markers around them. The markers are added without a line ending, so
that the next line is written directly behind them.

Main result: `savesLines_iff`. What is saved consists of the expected lines, with every marker on a line
of its own, iff no row conflicts.
-/

namespace TortoiseSvn.Merge

namespace FileText

/-- What is saved of a row. Source: `ViewData.h` `viewdata` -/
structure Row where
  sLine : Text
  state : DiffStates
  ending : EOL
  deriving DecidableEq, Repr

namespace Row

/-- Source: `BaseView.cpp` `CBaseView::SaveFile`, `file.Add` -/
def line (row : Row) : CFileTextLine := ⟨row.sLine, row.ending⟩

/-- A row with a conflict that is not solved. -/
def IsConflicted (row : Row) : Prop := row.state = .conflicted ∨ row.state = .conflictedIgnored

instance (row : Row) : Decidable row.IsConflicted := inferInstanceAs (Decidable (_ ∨ _))

end Row

/-- The states of removed lines. Source: `BaseView.cpp` `CBaseView::SaveFile` -/
def removedStates : List DiffStates :=
  [.conflictEmpty, .identicalRemoved, .removed, .theirsRemoved, .yoursRemoved, .conflictResolvedEmpty]

/-- `<<<<<<< .mine` -/
def mineMarker : Text := [60, 60, 60, 60, 60, 60, 60, 32, 46, 109, 105, 110, 101]

/-- `=======` -/
def separator : Text := [61, 61, 61, 61, 61, 61, 61]

/-- `>>>>>>> .theirs` -/
def theirsMarker : Text := [62, 62, 62, 62, 62, 62, 62, 32, 46, 116, 104, 101, 105, 114, 115]

/-! ### The file that is saved -/

/-- The index behind a run of conflicted rows.
Source: `BaseView.cpp` `CBaseView::SaveFile`, `do … while` -/
def lastOfRun (view : List Row) (first : ℕ) : ℕ :=
  first + 1 + ((view.drop (first + 1)).takeWhile fun row => decide row.IsConflicted).length

/-- The rows of another view from one index to another. There must be such rows.
Source: `BaseView.cpp` `CBaseView::SaveFile`, the loops over `j` -/
def linesOf (view : List Row) (first last : ℕ) : Option (List CFileTextLine) :=
  if last ≤ view.length then some (((view.drop first).take (last - first)).map Row.line) else none

/-- Source: `BaseView.cpp` `CBaseView::SaveFile`, the loop -/
def saveLoop (saveRemovedLines : Bool) (view left right : List Row) :
    ℕ → ℕ → List CFileTextLine → Option (List CFileTextLine)
  | 0, _, file => some file
  | fuel + 1, i, file =>
    match view[i]? with
    | none => some file
    | some row =>
      if row.IsConflicted then
        let last := lastOfRun view i
        (linesOf right i last).bind fun mine =>
          (linesOf left i last).bind fun theirs =>
            saveLoop saveRemovedLines view left right fuel last
              (file ++ [⟨mineMarker, .noEnding⟩] ++ mine ++ [⟨separator, .noEnding⟩] ++ theirs ++
                [⟨theirsMarker, .noEnding⟩])
      else if row.state = .empty then saveLoop saveRemovedLines view left right fuel (i + 1) file
      else if row.state ∈ removedStates ∧ ¬ saveRemovedLines then
        saveLoop saveRemovedLines view left right fuel (i + 1) file
      else saveLoop saveRemovedLines view left right fuel (i + 1) (file ++ [row.line])

/-- The file, and the number of its lines that is returned. `none` stands for an access to a row that
is not there.
Source: `BaseView.cpp` `CBaseView::SaveFile` -/
def SaveFile (saveRemovedLines : Bool) (lineEndings : EOL) (view left right : List Row) :
    Option (CFileTextLines × ℕ) :=
  (saveLoop saveRemovedLines view left right view.length 0 []).map fun lines =>
    (⟨lines, false, lineEndings⟩, if lines = [⟨[], .noEnding⟩] then 0 else lines.length)

/-! ### The lines that are expected -/

/-- The rows of the three views at one index. -/
structure Rows where
  own : Row
  left : Row
  right : Row
  deriving DecidableEq, Repr

/-- A line with its ending, or a marker, which may have any ending. -/
inductive Item where
  | row (sLine ending : Text)
  | marker (text : Text)
  deriving DecidableEq, Repr

section Expectation

variable (lineEndings : EOL)

/-- A row carries a line ending, or fills a gap. -/
def ProperRow (row : Row) : Prop :=
  encodedEol false lineEndings row.ending ≠ [] ∨ row.sLine = [] ∧ row.ending = .noEnding

/-- The line of a row that carries an ending. -/
def rowItem (row : Row) : List Item :=
  if encodedEol false lineEndings row.ending ≠ [] then
    [.row row.sLine (encodedEol false lineEndings row.ending)]
  else []

/-- What is expected of a row that does not conflict: nothing for empty and removed rows. -/
def ownItem (row : Row) : List Item :=
  if row.state = .empty ∨ row.state ∈ removedStates then [] else rowItem lineEndings row

/-- What is expected of a run of conflicted rows. -/
def runItems (run : List Rows) : List Item :=
  [.marker mineMarker] ++ run.flatMap (fun rows => rowItem lineEndings rows.right) ++
    [.marker separator] ++ run.flatMap (fun rows => rowItem lineEndings rows.left) ++
    [.marker theirsMarker]

/-- The lines that are expected, run by run. -/
inductive Expected : List Rows → List Item → Prop
  | nil : Expected [] []
  | own {rows : Rows} {rest : List Rows} {items : List Item} : ¬ rows.own.IsConflicted →
      Expected rest items → Expected (rows :: rest) (ownItem lineEndings rows.own ++ items)
  | run {run rest : List Rows} {items : List Item} : run ≠ [] →
      (∀ rows ∈ run, rows.own.IsConflicted) → (∀ rows ∈ rest.head?, ¬ rows.own.IsConflicted) →
      Expected rest items → Expected (run ++ rest) (runItems lineEndings run ++ items)

end Expectation

/-- A text consists of lines: every row with its own ending, every marker with some ending, which may
be missing at the end of the text. -/
inductive IsLines : List Item → Text → Prop
  | nil : IsLines [] []
  | row {sLine ending text : Text} {items : List Item} : IsLines items text →
      IsLines (.row sLine ending :: items) (sLine ++ ending ++ text)
  | marker {m text : Text} {items : List Item} (eEol : EOL) : ownEol eEol ≠ [] →
      IsLines items text → IsLines (.marker m :: items) (m ++ ownEol eEol ++ text)
  | last (m : Text) : IsLines [.marker m] m

/-- The text that is saved consists of the expected lines. -/
def SavesLines (lineEndings : EOL) (rows : List Rows) : Prop :=
  ∃ file count items, SaveFile false lineEndings (rows.map (·.own)) (rows.map (·.left))
      (rows.map (·.right)) = some (file, count) ∧
    Expected lineEndings rows items ∧ IsLines items (save false file)

/-! ### What is written -/

/-- An item as it is written, without an ending for a marker. -/
def bare : Item → Text
  | .row sLine ending => sLine ++ ending
  | .marker text => text

section Written

variable {lineEndings : EOL}

/-- The text of some lines. -/
def writtenText (lineEndings : EOL) (lines : List CFileTextLine) : Text :=
  lines.flatMap fun l => l.sLine ++ encodedEol false lineEndings l.eEnding

@[simp] theorem writtenText_nil : writtenText lineEndings [] = [] := rfl

@[simp] theorem writtenText_append (ls ls' : List CFileTextLine) :
    writtenText lineEndings (ls ++ ls') = writtenText lineEndings ls ++ writtenText lineEndings ls' :=
  List.flatMap_append

theorem writtenText_marker (m : Text) : writtenText lineEndings [⟨m, .noEnding⟩] = m := by
  have hnone : encodedEol false lineEndings .noEnding = [] := rfl
  rw [writtenText, List.flatMap_singleton, hnone, List.append_nil]

/-- A row that fills a gap adds nothing. -/
theorem flatMap_rowItem {row : Row} (h : ProperRow lineEndings row) :
    (rowItem lineEndings row).flatMap bare = writtenText lineEndings [row.line] := by
  rw [writtenText, List.flatMap_singleton, rowItem]
  split_ifs with hend
  · exact List.flatMap_singleton _ _
  · obtain ⟨hline, -⟩ := h.resolve_left hend
    have hnone := not_not.mp hend
    rw [show row.line.sLine = [] from hline, show row.line.eEnding = row.ending from rfl, hnone]
    rfl

theorem flatMap_rowItems {run : List Rows} {view : Rows → Row}
    (h : ∀ rows ∈ run, ProperRow lineEndings (view rows)) :
    (run.flatMap fun rows => rowItem lineEndings (view rows)).flatMap bare =
      writtenText lineEndings (run.map fun rows => (view rows).line) := by
  induction run with
  | nil => rfl
  | cons rows run ih =>
    obtain ⟨hhead, htail⟩ := List.forall_mem_cons.mp h
    rw [List.flatMap_cons, List.flatMap_append, ih htail, flatMap_rowItem hhead, List.map_cons,
      ← writtenText_append, List.singleton_append]

/-- The rows of another view beside a run. -/
theorem linesOf_run (front run rest : List Rows) (view : Rows → Row) :
    linesOf ((front ++ (run ++ rest)).map view) front.length (front.length + run.length) =
      some (run.map fun rows => (view rows).line) := by
  rw [linesOf, if_pos (by simp only [List.length_map, List.length_append]; omega),
    Nat.add_sub_cancel_left, List.map_append, List.map_append,
    List.drop_left' (by rw [List.length_map]), List.take_left' (by rw [List.length_map]), List.map_map]
  rfl

/-- A run ends in front of the next row without a conflict. -/
theorem lastOfRun_run {front run rest : List Rows} (hne : run ≠ [])
    (hrun : ∀ rows ∈ run, rows.own.IsConflicted)
    (hrest : ∀ rows ∈ rest.head?, ¬ rows.own.IsConflicted) :
    lastOfRun ((front ++ (run ++ rest)).map (·.own)) front.length = front.length + run.length := by
  obtain ⟨rows, run, rfl⟩ := List.exists_cons_of_ne_nil hne
  obtain ⟨-, htail⟩ := List.forall_mem_cons.mp hrun
  have hdrop : ((front ++ (rows :: run ++ rest)).map (·.own)).drop (front.length + 1) =
      run.map (·.own) ++ rest.map (·.own) := by
    rw [List.cons_append, ← List.singleton_append, ← List.append_assoc, List.map_append,
      List.drop_left' (by simp), List.map_append]
  have hstop : (rest.map (·.own)).takeWhile (fun row => decide row.IsConflicted) = [] := by
    cases rest with
    | nil => rfl
    | cons next rest =>
      rw [List.map_cons, List.takeWhile_cons_of_neg]
      simpa using hrest next rfl
  have hgo : ∀ row ∈ run.map (·.own), decide row.IsConflicted = true := by
    intro row hrow
    obtain ⟨rows, hrows, rfl⟩ := List.mem_map.mp hrow
    exact decide_eq_true (htail rows hrows)
  rw [lastOfRun, hdrop, List.takeWhile_append_of_pos hgo, hstop, List.append_nil, List.length_map,
    List.length_cons]
  omega

/-- The loop writes the expected items, without line endings behind the markers. -/
theorem saveLoop_expected {rest : List Rows} {items : List Item}
    (h : Expected lineEndings rest items) (hproper : ∀ rows ∈ rest, ProperRow lineEndings rows.own ∧
      ProperRow lineEndings rows.left ∧ ProperRow lineEndings rows.right)
    (front : List Rows) {fuel : ℕ} (hfuel : rest.length ≤ fuel) (file : List CFileTextLine) :
    ∃ lines, saveLoop false ((front ++ rest).map (·.own)) ((front ++ rest).map (·.left))
        ((front ++ rest).map (·.right)) fuel front.length file = some (file ++ lines) ∧
      writtenText lineEndings lines = items.flatMap bare := by
  induction h generalizing front fuel file with
  | nil =>
    refine ⟨[], ?_, rfl⟩
    rw [List.append_nil, List.append_nil]
    cases fuel with
    | zero => rfl
    | succ fuel =>
      have hend : (front.map (·.own))[front.length]? = none := by simp
      rw [saveLoop, hend]
  | @own rows rest items hconflict _ ih =>
    obtain ⟨⟨hown, -⟩, hrest⟩ := List.forall_mem_cons.mp hproper
    cases fuel with
    | zero => exact absurd hfuel (by simp)
    | succ fuel =>
      have hrow : ((front ++ rows :: rest).map (·.own))[front.length]? = some rows.own := by simp
      have hlen : rest.length ≤ fuel := Nat.le_of_succ_le_succ hfuel
      have hnext := ih hrest (front ++ [rows]) hlen
      rw [List.append_assoc, List.singleton_append, List.length_append, List.length_singleton] at hnext
      rw [saveLoop, hrow]
      dsimp only
      rw [if_neg hconflict, ownItem]
      by_cases hempty : rows.own.state = .empty
      · obtain ⟨lines, hloop, htext⟩ := hnext file
        rw [if_pos hempty, if_pos (Or.inl hempty)]
        exact ⟨lines, hloop, htext⟩
      · by_cases hremoved : rows.own.state ∈ removedStates
        · obtain ⟨lines, hloop, htext⟩ := hnext file
          rw [if_neg hempty, if_pos ⟨hremoved, Bool.false_ne_true⟩, if_pos (Or.inr hremoved)]
          exact ⟨lines, hloop, htext⟩
        · obtain ⟨lines, hloop, htext⟩ := hnext (file ++ [rows.own.line])
          rw [if_neg hempty, if_neg fun h => hremoved h.1, if_neg (not_or.mpr ⟨hempty, hremoved⟩)]
          refine ⟨rows.own.line :: lines, ?_, ?_⟩
          · rw [hloop, List.append_assoc, List.singleton_append]
          · rw [← List.singleton_append, writtenText_append, htext, List.flatMap_append,
              flatMap_rowItem hown]
  | @run run rest items hne hrun hstop _ ih =>
    have hproper' := List.forall_mem_append.mp hproper
    obtain ⟨rows, more, hcons⟩ := List.exists_cons_of_ne_nil hne
    cases fuel with
    | zero =>
      rw [hcons] at hfuel
      exact absurd hfuel (by simp)
    | succ fuel =>
      have hrow : ((front ++ (run ++ rest)).map (·.own))[front.length]? = some rows.own := by
        rw [hcons]
        simp
      have hlen : rest.length ≤ fuel := by
        rw [hcons, List.length_append, List.length_cons] at hfuel
        omega
      have hconflict : rows.own.IsConflicted := hrun rows (by rw [hcons]; exact List.mem_cons_self)
      rw [saveLoop, hrow]
      dsimp only
      rw [if_pos hconflict, lastOfRun_run hne hrun hstop, linesOf_run, Option.bind_some, linesOf_run,
        Option.bind_some]
      have hnext := ih hproper'.2 (front ++ run) hlen
      rw [List.append_assoc, List.length_append] at hnext
      obtain ⟨lines, hloop, htext⟩ := hnext _
      refine ⟨[⟨mineMarker, .noEnding⟩] ++ run.map (fun rows => rows.right.line) ++
        [⟨separator, .noEnding⟩] ++ run.map (fun rows => rows.left.line) ++
          [⟨theirsMarker, .noEnding⟩] ++ lines, hloop.trans ?_, ?_⟩
      · simp only [List.append_assoc]
      · have hright := flatMap_rowItems fun rows hr => (hproper'.1 rows hr).2.2
        have hleft := flatMap_rowItems fun rows hr => (hproper'.1 rows hr).2.1
        simp only [runItems, List.flatMap_append, List.flatMap_singleton, hright, hleft,
          writtenText_append, writtenText_marker, htext, List.append_assoc]
        rfl

end Written

/-! ### Markers on lines of their own -/

/-- A marker is on a line of its own only when it has an ending, or is the last. -/
theorem IsLines.length_le {items : List Item} {text : Text} (h : IsLines items text) :
    (items.flatMap bare).length ≤ text.length ∧ ((items.flatMap bare).length = text.length →
      ∀ front m back, items = front ++ Item.marker m :: back → back = []) := by
  induction h with
  | nil => exact ⟨le_rfl, fun _ front m back heq => by simp at heq⟩
  | @row sLine ending text items _ ih =>
    rw [List.flatMap_cons, bare, List.length_append, @List.length_append _ (sLine ++ ending)]
    refine ⟨by omega, fun hlen front m back heq => ?_⟩
    cases front with
    | nil => exact nomatch heq
    | cons item front => exact ih.2 (by omega) front m back (List.cons.inj heq).2
  | @marker m text items eEol hend _ ih =>
    have hpos := List.length_pos_iff.mpr hend
    rw [List.flatMap_cons, bare, List.length_append, List.length_append, List.length_append]
    exact ⟨by omega, fun hlen => by omega⟩
  | last m =>
    rw [List.flatMap_singleton]
    refine ⟨le_rfl, fun _ front m' back heq => ?_⟩
    cases front with
    | nil => exact (List.cons.inj heq).2.symm
    | cons item front => exact absurd (List.cons.inj heq).2 (by simp)

theorem isLines_rows {items : List Item} (h : ∀ item ∈ items, ∃ sLine ending, item = .row sLine ending) :
    IsLines items (items.flatMap bare) := by
  induction items with
  | nil => exact .nil
  | cons item items ih =>
    obtain ⟨⟨sLine, ending, rfl⟩, hrest⟩ := List.forall_mem_cons.mp h
    exact .row (ih hrest)

variable {lineEndings : EOL} {rows : List Rows}

/-- A conflict is expected to bring a marker that is not the last item. -/
theorem Expected.marker {items : List Item} (h : Expected lineEndings rows items)
    (hconflict : ∃ r ∈ rows, r.own.IsConflicted) :
    ∃ front m back, items = front ++ Item.marker m :: back ∧ back ≠ [] := by
  induction h with
  | nil =>
    obtain ⟨r, hr, -⟩ := hconflict
    exact absurd hr List.not_mem_nil
  | @own r rest items hown _ ih =>
    obtain ⟨r', hr', hconflict⟩ := hconflict
    have hrest : r' ∈ rest := by
      rcases List.mem_cons.mp hr' with rfl | hr'
      · exact absurd hconflict hown
      · exact hr'
    obtain ⟨front, m, back, rfl, hback⟩ := ih ⟨r', hrest, hconflict⟩
    exact ⟨_, m, back, (List.append_assoc _ _ _).symm, hback⟩
  | run hne hrun hstop _ ih =>
    exact ⟨[], mineMarker, _, rfl, by simp⟩

/-- Without conflicts the rows are expected one by one. -/
theorem expected_own (h : ∀ r ∈ rows, ¬ r.own.IsConflicted) :
    Expected lineEndings rows (rows.flatMap fun r => ownItem lineEndings r.own) := by
  induction rows with
  | nil => exact .nil
  | cons r rows ih =>
    obtain ⟨hr, hrows⟩ := List.forall_mem_cons.mp h
    exact .own hr (ih hrows)

theorem ownItem_row {row : Row} {item : Item} (h : item ∈ ownItem lineEndings row) :
    ∃ sLine ending, item = .row sLine ending := by
  unfold ownItem rowItem at h
  split_ifs at h
  all_goals first
    | exact absurd h List.not_mem_nil
    | exact ⟨_, _, List.mem_singleton.mp h⟩

/-- What is saved of any rows. -/
theorem saveFile_expected {items : List Item} (h : Expected lineEndings rows items)
    (hproper : ∀ r ∈ rows, ProperRow lineEndings r.own ∧ ProperRow lineEndings r.left ∧
      ProperRow lineEndings r.right) :
    ∃ file count, SaveFile false lineEndings (rows.map (·.own)) (rows.map (·.left))
      (rows.map (·.right)) = some (file, count) ∧ save false file = items.flatMap bare := by
  obtain ⟨lines, hloop, htext⟩ := saveLoop_expected h hproper []
    (show rows.length ≤ (rows.map (·.own)).length by rw [List.length_map]) []
  exact ⟨⟨lines, false, lineEndings⟩, _, congrArg (Option.map _) hloop, htext⟩

theorem not_savesLines (hproper : ∀ r ∈ rows, ProperRow lineEndings r.own ∧
    ProperRow lineEndings r.left ∧ ProperRow lineEndings r.right)
    (hconflict : ∃ r ∈ rows, r.own.IsConflicted) : ¬ SavesLines lineEndings rows := by
  rintro ⟨file, count, items, hsave, hexpected, hlines⟩
  obtain ⟨file', count', hsave', htext⟩ := saveFile_expected hexpected hproper
  rw [hsave'] at hsave
  obtain ⟨rfl, -⟩ := Prod.mk.inj (Option.some.inj hsave)
  rw [htext] at hlines
  obtain ⟨front, m, back, hitems, hback⟩ := hexpected.marker hconflict
  exact hback (hlines.length_le.2 rfl front m back hitems)

/-- **The expected lines are saved, with every marker on a line of its own, iff no row conflicts.** -/
theorem savesLines_iff (hproper : ∀ r ∈ rows, ProperRow lineEndings r.own ∧
    ProperRow lineEndings r.left ∧ ProperRow lineEndings r.right) :
    SavesLines lineEndings rows ↔ ∀ r ∈ rows, ¬ r.own.IsConflicted := by
  constructor
  · intro h r hr hconflict
    exact not_savesLines hproper ⟨r, hr, hconflict⟩ h
  · intro h
    have hexpected := @expected_own lineEndings rows h
    obtain ⟨file, count, hsave, htext⟩ := saveFile_expected hexpected hproper
    refine ⟨file, count, _, hsave, hexpected, ?_⟩
    rw [htext]
    refine isLines_rows fun item hitem => ?_
    obtain ⟨r, -, hr⟩ := List.mem_flatMap.mp hitem
    exact ownItem_row hr

/-- A row, and one that fills a gap. -/
theorem savesLines_two :
    SavesLines .lf [⟨⟨[97], .normal, .lf⟩, ⟨[97], .normal, .lf⟩, ⟨[97], .normal, .lf⟩⟩,
        ⟨⟨[], .empty, .noEnding⟩, ⟨[98], .added, .crlf⟩, ⟨[], .empty, .noEnding⟩⟩] ↔
      ∀ r ∈ [(⟨⟨[97], .normal, .lf⟩, ⟨[97], .normal, .lf⟩, ⟨[97], .normal, .lf⟩⟩ : Rows),
        ⟨⟨[], .empty, .noEnding⟩, ⟨[98], .added, .crlf⟩, ⟨[], .empty, .noEnding⟩⟩],
        ¬ r.own.IsConflicted :=
  savesLines_iff fun r hr => by
    simp only [List.mem_cons, List.not_mem_nil, or_false] at hr
    rcases hr with rfl | rfl
    · exact ⟨Or.inl (by decide), Or.inl (by decide), Or.inl (by decide)⟩
    · exact ⟨Or.inr ⟨rfl, rfl⟩, Or.inl (by decide), Or.inr ⟨rfl, rfl⟩⟩

/-- One row in conflict is saved as `<<<<<<< .minem`, `=======t` and `>>>>>>> .theirs`. -/
theorem savesLines_conflict : ¬ ∀ (lineEndings : EOL) (rows : List Rows),
    (∀ r ∈ rows, ProperRow lineEndings r.own ∧ ProperRow lineEndings r.left ∧
      ProperRow lineEndings r.right) → SavesLines lineEndings rows := by
  intro h
  have hproper : ∀ r ∈ [(⟨⟨[98], .conflicted, .lf⟩, ⟨[116], .conflicted, .lf⟩,
      ⟨[109], .conflicted, .lf⟩⟩ : Rows)], ProperRow .lf r.own ∧ ProperRow .lf r.left ∧
        ProperRow .lf r.right := by
    intro r hr
    rw [List.mem_singleton.mp hr]
    exact ⟨Or.inl (by decide), Or.inl (by decide), Or.inl (by decide)⟩
  exact not_savesLines hproper ⟨_, List.mem_singleton_self _, Or.inl rfl⟩ (h .lf _ hproper)

end FileText

end TortoiseSvn.Merge
