import TortoiseSvn.Lib.BitDescent
import TortoiseSvn.Lib.Loop
import TortoiseSvn.Merge.ViewData

/-!
# Screen lines and view lines

`Screen2View` lists, for every line on the screen, the row of the view that it shows. The list is
rebuilt when the view has changed, and a row is searched in it by the bits of its place.

Main results: `findScreenLineForViewLine_spec`, `findScreenLine_getViewLine`. In a sorted list the
search finds the first line that does not stand before the row. A rebuilt list is sorted, and there the
line that is found shows the row.
-/

namespace TortoiseSvn.Merge

open Lib BitDescent

/-! ### The code -/

/-- Source: `BaseView.h` `CBaseView::TScreenLineInfo` -/
structure TScreenLineInfo where
  nViewLine : Int32
  nViewSubLine : Int32
  deriving DecidableEq

/-- What the views and the main window say when the lines are rebuilt. A view that is not good has
no counts; the lines that a view has cached are left out, they are counted again when they are
missing.
Source: `MainFrm.h` `CMainFrame`, `BaseView.cpp` `CBaseView::CountMultiLines` -/
structure ScreenSettings where
  m_bCollapsed : Bool
  m_bWrapLines : Bool
  left : Option (ℕ → ℕ)
  right : Option (ℕ → ℕ)
  bottom : Option (ℕ → ℕ)

/-- The rows that are to be shown, if they have changed, and the screen lines.
Source: `BaseView.h` `CBaseView::Screen2View` -/
structure Screen2View where
  m_pViewData : Option CViewData
  m_Screen2View : List TScreenLineInfo
  deriving DecidableEq

namespace Screen2View

/-- Source: `BaseView.cpp` `CBaseView::IsViewLineHidden` -/
def IsViewLineHidden (w : ScreenSettings) (row : Viewdata) : Bool :=
  w.m_bCollapsed && decide (row.hidestate ≠ .shown)

/-- The lines of a row: as many as it has in the view where it has most.
Source: `BaseView.cpp` `CBaseView::Screen2View::RebuildIfNecessary`, the body of the loop -/
def screenLines (w : ScreenSettings) (i : ℕ) (row : Viewdata) : List TScreenLineInfo :=
  if w.m_bWrapLines && !IsViewLineHidden w row then
    let count := fun view : Option (ℕ → ℕ) => (view.map fun lines => lines i).getD 0
    let nMaxLines := max (max (max 0 (count w.left)) (count w.right)) (count w.bottom)
    (List.range (nMaxLines - 1)).map (fun l => ⟨Int32.ofNat i, Int32.ofNat l⟩) ++
      [⟨Int32.ofNat i, Int32.ofNat (nMaxLines - 1)⟩]
  else [⟨Int32.ofNat i, -1⟩]

/-- The loop from row `i` on. A collapsed view leaves out the hidden rows.
Source: `BaseView.cpp` `CBaseView::Screen2View::RebuildIfNecessary`, the loops -/
def rebuildLoop (w : ScreenSettings) : ℕ → List Viewdata → List TScreenLineInfo
  | _, [] => []
  | i, row :: rest =>
    if w.m_bCollapsed && decide (row.hidestate = .hidden) then rebuildLoop w (i + 1) rest
    else screenLines w i row ++ rebuildLoop w (i + 1) rest

/-- Source: `BaseView.cpp` `CBaseView::Screen2View::RebuildIfNecessary` -/
def RebuildIfNecessary (w : ScreenSettings) (s : Screen2View) : Screen2View :=
  match s.m_pViewData with
  | none => s
  | some d => ⟨none, rebuildLoop w 0 d.data⟩

/-- Source: `BaseView.cpp` `CBaseView::Screen2View::size` -/
def size (lines : List TScreenLineInfo) : Int32 := Int32.ofNat lines.length

/-- Source: `BaseView.cpp` `CBaseView::Screen2View::GetViewLineForScreen` -/
def GetViewLineForScreen (w : ScreenSettings) (s : Screen2View) (screenLine : Int32) :
    Screen2View × Int32 :=
  let s := RebuildIfNecessary w s
  if size s.m_Screen2View ≤ screenLine ∨ screenLine < 0 then (s, 0)
  else (s, (s.m_Screen2View[screenLine.toNatClampNeg]?.map (·.nViewLine)).getD 0)

/-- `nPos < nScreenLineCount && m_Screen2View[nPos].nViewLine < viewLine`, the test of both loops.
An access outside the vector is a failure.
Source: `BaseView.cpp` `CBaseView::Screen2View::FindScreenLineForViewLine` -/
def precedes (lines : List TScreenLineInfo) (viewLine nPos : Int32) : Except Unit Bool :=
  if nPos < size lines then
    if nPos < 0 then .error ()
    else
      match lines[nPos.toNatClampNeg]? with
      | none => .error ()
      | some line => .ok (decide (line.nViewLine < viewLine))
  else .ok false

/-- Source: `BaseView.cpp` `CBaseView::Screen2View::FindScreenLineForViewLine`,
`GetMostSignificantBitValue` -/
def mostSignificantBitValue (nScreenLineCount : Int32) : Int32 :=
  let nTestBit := nScreenLineCount
  let nTestBit := nTestBit ||| nTestBit >>> 1
  let nTestBit := nTestBit ||| nTestBit >>> 2
  let nTestBit := nTestBit ||| nTestBit >>> 4
  let nTestBit := nTestBit ||| nTestBit >>> 8
  let nTestBit := nTestBit ||| nTestBit >>> 16
  nTestBit ^^^ nTestBit >>> 1

/-- The state is `nPos` and `nTestBit`.
Source: `BaseView.cpp` `CBaseView::Screen2View::FindScreenLineForViewLine`, the first loop -/
def bitRound (lines : List TScreenLineInfo) (viewLine : Int32) (st : Int32 × Int32) :
    Except Unit ((Int32 × Int32) ⊕ Int32) :=
  if st.2 = 0 then .ok (.inr st.1)
  else do
    let nTestPos := st.1 ||| st.2
    let before ← precedes lines viewLine nTestPos
    .ok (.inl (if before then nTestPos else st.1, st.2 >>> 1))

/-- Source: `BaseView.cpp` `CBaseView::Screen2View::FindScreenLineForViewLine`, the second loop -/
def linearRound (lines : List TScreenLineInfo) (viewLine nPos : Int32) :
    Except Unit (Int32 ⊕ Int32) := do
  let before ← precedes lines viewLine nPos
  .ok (if before then .inl (nPos + 1) else .inr nPos)

/-- The search in the lines as they are.
Source: `BaseView.cpp` `CBaseView::Screen2View::FindScreenLineForViewLine` -/
def Search (lines : List TScreenLineInfo) (viewLine r : Int32) : Prop :=
  ∃ nPos, (if 16 < size lines then
      Returns (bitRound lines viewLine) (0, mostSignificantBitValue (size lines)) nPos
    else nPos = 0) ∧
    Returns (linearRound lines viewLine) nPos r

/-- The state afterwards and the result.
Source: `BaseView.cpp` `CBaseView::Screen2View::FindScreenLineForViewLine` -/
def FindScreenLineForViewLine (w : ScreenSettings) (s : Screen2View) (viewLine : Int32)
    (s' : Screen2View) (r : Int32) : Prop :=
  s' = RebuildIfNecessary w s ∧ Search s'.m_Screen2View viewLine r

/-- The number of leading lines that stand before a row. -/
def leading (lines : List TScreenLineInfo) (viewLine : Int32) : ℕ :=
  (lines.takeWhile fun line => decide (line.nViewLine < viewLine)).length

/-- The lines do not go back in the view. -/
def Sorted (lines : List TScreenLineInfo) : Prop :=
  lines.Pairwise fun line next => line.nViewLine ≤ next.nViewLine

/-! ### Places that are not negative -/

section Places

variable {lines : List TScreenLineInfo} {viewLine : Int32} {i j n : ℕ}

theorem ofNat_lt_iff (hi : i < 2 ^ 31) (hj : j < 2 ^ 31) :
    Int32.ofNat i < Int32.ofNat j ↔ i < j := by
  rw [Int32.lt_iff_toInt_lt, Int32.toInt_ofNat_of_lt hi, Int32.toInt_ofNat_of_lt hj, Int.ofNat_lt]

theorem ofNat_le_iff (hi : i < 2 ^ 31) (hj : j < 2 ^ 31) :
    Int32.ofNat i ≤ Int32.ofNat j ↔ i ≤ j := by
  rw [Int32.le_iff_toInt_le, Int32.toInt_ofNat_of_lt hi, Int32.toInt_ofNat_of_lt hj, Int.ofNat_le]

/-- The line at a place stands before a row. -/
def StandsBefore (lines : List TScreenLineInfo) (viewLine : Int32) (i : ℕ) : Prop :=
  (lines[i]?.any fun line => decide (line.nViewLine < viewLine)) = true

instance : DecidablePred (StandsBefore lines viewLine) := fun _ =>
  inferInstanceAs (Decidable (_ = true))

/-- The test does not fail. -/
theorem precedes_ofNat (hlength : lines.length < 2 ^ 31) (hi : i < 2 ^ 31) :
    precedes lines viewLine (Int32.ofNat i) = .ok (decide (StandsBefore lines viewLine i)) := by
  have hneg : ¬ Int32.ofNat i < 0 := by
    rw [show (0 : Int32) = Int32.ofNat 0 from rfl, ofNat_lt_iff hi (by decide)]
    exact Nat.not_lt_zero i
  rw [precedes, size, Int32.toNatClampNeg_ofNat_of_lt hi, if_neg hneg]
  by_cases hlt : i < lines.length
  · rw [if_pos ((ofNat_lt_iff hi hlength).mpr hlt), List.getElem?_eq_getElem hlt]
    simp [StandsBefore, List.getElem?_eq_getElem hlt]
  · rw [if_neg (mt (ofNat_lt_iff hi hlength).mp hlt)]
    simp [StandsBefore, List.getElem?_eq_none (not_lt.mp hlt)]

/-- In sorted lines, those that stand before a row are the leading ones. -/
theorem standsBefore_iff (hsorted : Sorted lines) :
    StandsBefore lines viewLine i ↔ i < leading lines viewLine := by
  induction lines generalizing i with
  | nil => simp [StandsBefore, leading]
  | cons line rest ih =>
    obtain ⟨hfirst, hrest⟩ := List.pairwise_cons.mp hsorted
    by_cases hline : line.nViewLine < viewLine
    · have hleading : leading (line :: rest) viewLine = leading rest viewLine + 1 := by
        rw [leading, List.takeWhile_cons_of_pos (by simpa using hline)]
        rfl
      rw [hleading]
      cases i with
      | zero => simp [StandsBefore, hline]
      | succ i =>
        rw [Nat.add_lt_add_iff_right, ← ih hrest]
        rfl
    · have hleading : leading (line :: rest) viewLine = 0 := by
        rw [leading, List.takeWhile_cons_of_neg (by simpa using hline)]
        rfl
      rw [hleading]
      constructor
      · intro hbefore
        rw [StandsBefore, Option.any_eq_true] at hbefore
        obtain ⟨other, hother, hlt⟩ := hbefore
        rcases List.mem_cons.mp (List.mem_of_getElem? hother) with rfl | hmem
        · exact absurd (of_decide_eq_true hlt) hline
        · exact absurd (Int32.lt_of_le_of_lt (hfirst other hmem) (of_decide_eq_true hlt)) hline
      · exact fun h => absurd h (Nat.not_lt_zero i)

theorem leading_le_length (lines : List TScreenLineInfo) (viewLine : Int32) :
    leading lines viewLine ≤ lines.length := (List.takeWhile_sublist _).length_le

/-- The line at a place behind the last one does not stand before a row. -/
theorem not_standsBefore (h : lines.length ≤ i) : ¬ StandsBefore lines viewLine i := by
  rw [StandsBefore, List.getElem?_eq_none h]
  exact Bool.false_ne_true

end Places

/-! ### The two loops -/

section Loops

variable {lines : List TScreenLineInfo} {viewLine : Int32} {n : ℕ}

/-- The shifts leave the highest bit of the number of lines. -/
theorem mostSignificantBitValue_ofNat (hn : n ≠ 0) (hlt : n < 2 ^ 31) :
    mostSignificantBitValue (Int32.ofNat n) = Int32.ofNat (2 ^ n.log2) := by
  obtain ⟨m₂, h₂, hc₂, hm₂⟩ := (Covers.refl n).int32_double hlt (by decide)
  obtain ⟨m₄, h₄, hc₄, hm₄⟩ := hc₂.int32_double hm₂ (by decide)
  obtain ⟨m₈, h₈, hc₈, hm₈⟩ := hc₄.int32_double hm₄ (by decide)
  obtain ⟨m₁₆, h₁₆, hc₁₆, hm₁₆⟩ := hc₈.int32_double hm₈ (by decide)
  obtain ⟨m, h, hc, hm⟩ := hc₁₆.int32_double hm₁₆ (by decide)
  have hvalue : mostSignificantBitValue (Int32.ofNat n) =
      Int32.ofNat m ^^^ Int32.ofNat m >>> Int32.ofNat 1 := by
    rw [← h, ← h₁₆, ← h₈, ← h₄, ← h₂]
    rfl
  rw [hvalue, int32_ofNat_shiftRight hm (by decide), int32_ofNat_xor,
    hc.xor_half hn (hlt.trans (by decide))]

/-- The first loop decides about the bits below `2 ^ e`. -/
theorem bitRound_returns (hlength : lines.length < 2 ^ 31) {e pos : ℕ} (hdvd : 2 ^ e ∣ pos)
    (hpos : pos + 2 ^ e ≤ 2 ^ 31) :
    Returns (bitRound lines viewLine) (Int32.ofNat pos, Int32.ofNat (2 ^ e / 2))
      (Int32.ofNat (descend (StandsBefore lines viewLine) e pos)) := by
  induction e generalizing pos with
  | zero => exact Returns.leave rfl
  | succ e ih =>
    have hpow : 2 ^ (e + 1) = 2 ^ e + 2 ^ e := by rw [pow_succ]; omega
    have hbit : 0 < 2 ^ e := Nat.two_pow_pos e
    have hhalf : 2 ^ (e + 1) / 2 = 2 ^ e := by omega
    have htest : pos + 2 ^ e < 2 ^ 31 := by omega
    have hne : Int32.ofNat (2 ^ e) ≠ 0 := by
      intro heq
      have hclamp := Int32.toNatClampNeg_ofNat_of_lt (n := 2 ^ e) (by omega)
      rw [heq] at hclamp
      exact hbit.ne hclamp
    have hshift : Int32.ofNat (2 ^ e) >>> 1 = Int32.ofNat (2 ^ e / 2) :=
      (int32_ofNat_shiftRight (by omega) (by decide)).trans (by rw [Nat.shiftRight_eq_div_pow])
    have hnext := two_pow_dvd_next (p := StandsBefore lines viewLine) hdvd
    rw [descend, hhalf]
    rw [or_two_pow hdvd] at hnext ⊢
    generalize hsel : (if StandsBefore lines viewLine (pos + 2 ^ e) then pos + 2 ^ e else pos) =
      pos' at hnext ⊢
    refine Returns.round ?_ (ih hnext (by rw [← hsel]; split_ifs <;> omega))
    simp only [bitRound, if_neg hne, int32_ofNat_or, or_two_pow hdvd, precedes_ofNat hlength htest,
      hshift, ← hsel]
    by_cases h : StandsBefore lines viewLine (pos + 2 ^ e)
    · simp [h, bind, Except.bind]
    · simp [h, bind, Except.bind]

/-- The second loop goes on to the end of the leading lines. -/
theorem linearRound_returns (hlength : lines.length < 2 ^ 30) (hsorted : Sorted lines) {i : ℕ}
    (hi : i ≤ leading lines viewLine) : Returns (linearRound lines viewLine) (Int32.ofNat i)
      (Int32.ofNat (leading lines viewLine)) := by
  have hle := leading_le_length lines viewLine
  induction hd : leading lines viewLine - i generalizing i with
  | zero =>
    obtain rfl : i = leading lines viewLine := by omega
    have hstop : ¬ StandsBefore lines viewLine (leading lines viewLine) := by
      rw [standsBefore_iff hsorted]
      exact lt_irrefl _
    apply Returns.leave
    rw [linearRound, precedes_ofNat (by omega) (by omega), decide_eq_false hstop]
    rfl
  | succ d ih =>
    have hgo : StandsBefore lines viewLine i := (standsBefore_iff hsorted).mpr (by omega)
    have hnext : Int32.ofNat i + 1 = Int32.ofNat (i + 1) := (Int32.ofNat_add i 1).symm
    refine Returns.round ?_ (ih (i := i + 1) (by omega) (by omega))
    rw [linearRound, precedes_ofNat (by omega) (by omega), decide_eq_true hgo, ← hnext]
    rfl

/-- **The first loop stops at the last line that stands before a row**, or at the first line if
there is none. -/
theorem bitLoop_returns (hlength : lines.length < 2 ^ 30) (hsorted : Sorted lines)
    (hne : lines.length ≠ 0) :
    Returns (bitRound lines viewLine) (0, mostSignificantBitValue (size lines))
      (Int32.ofNat (leading lines viewLine - 1)) := by
  have hlog : 2 ^ lines.length.log2 ≤ lines.length := Nat.log2_self_le hne
  have hlt : lines.length < 2 ^ (lines.length.log2 + 1) := Nat.lt_log2_self
  have hpow : 2 ^ (lines.length.log2 + 1) = 2 ^ lines.length.log2 + 2 ^ lines.length.log2 := by
    rw [pow_succ]; omega
  have hhalf : 2 ^ lines.length.log2 = 2 ^ (lines.length.log2 + 1) / 2 := by omega
  have hbound : ¬ StandsBefore lines viewLine (0 + 2 ^ (lines.length.log2 + 1)) :=
    not_standsBefore (by omega)
  obtain ⟨hfound, hnext⟩ := descend_spec (dvd_zero _) (.inl rfl) hbound
  have hplace : descend (StandsBefore lines viewLine) (lines.length.log2 + 1) 0 =
      leading lines viewLine - 1 := by
    rw [standsBefore_iff hsorted] at hfound hnext
    omega
  have hpos : 0 + 2 ^ (lines.length.log2 + 1) ≤ 2 ^ 31 := by omega
  rw [size, mostSignificantBitValue_ofNat hne (by omega), hhalf, ← hplace]
  exact bitRound_returns (by omega) (dvd_zero _) hpos

theorem search_returns (hlength : lines.length < 2 ^ 30) (hsorted : Sorted lines) :
    Search lines viewLine (Int32.ofNat (leading lines viewLine)) := by
  by_cases hlong : 16 < size lines
  · refine ⟨_, ?_, linearRound_returns hlength hsorted (Nat.sub_le _ 1)⟩
    rw [if_pos hlong]
    refine bitLoop_returns hlength hsorted fun hzero => ?_
    rw [size, hzero] at hlong
    exact absurd hlong (by decide)
  · refine ⟨0, by rw [if_neg hlong], ?_⟩
    exact linearRound_returns hlength hsorted (Nat.zero_le _)

/-- A search has one result only. -/
theorem Search.unique {r r' : Int32} (h : Search lines viewLine r) (h' : Search lines viewLine r') :
    r = r' := by
  obtain ⟨nPos, hbits, hline⟩ := h
  obtain ⟨nPos', hbits', hline'⟩ := h'
  split_ifs at hbits hbits'
  · obtain rfl := hbits.unique hbits'
    exact hline.unique hline'
  · obtain rfl := hbits.trans hbits'.symm
    exact hline.unique hline'

end Loops

/-- **The search by bits is the linear search**: in sorted lines both end, and find as many lines as
stand before the row at the beginning.
Source: `BaseView.cpp` `CBaseView::Screen2View::FindScreenLineForViewLine` -/
theorem findScreenLineForViewLine_spec (w : ScreenSettings) (s : Screen2View) (viewLine : Int32)
    (hsorted : Sorted (RebuildIfNecessary w s).m_Screen2View)
    (hlength : (RebuildIfNecessary w s).m_Screen2View.length < 2 ^ 30) :
    ∃ r : Int32, r.toInt = leading (RebuildIfNecessary w s).m_Screen2View viewLine ∧
      (∀ s' r', FindScreenLineForViewLine w s viewLine s' r' ↔
        s' = RebuildIfNecessary w s ∧ r' = r) ∧
      ∀ r', Returns (linearRound (RebuildIfNecessary w s).m_Screen2View viewLine) 0 r' ↔ r' = r := by
  have hle := leading_le_length (RebuildIfNecessary w s).m_Screen2View viewLine
  refine ⟨_, Int32.toInt_ofNat_of_lt (by omega), fun s' r' => ?_, fun r' => ?_⟩
  · refine and_congr_right fun hs => ?_
    subst hs
    have hsearch : Search _ viewLine _ := search_returns hlength hsorted
    constructor
    · exact fun h => h.unique hsearch
    · rintro rfl
      exact hsearch
  · have hlinear : Returns (linearRound _ viewLine) 0 _ :=
      linearRound_returns hlength hsorted (Nat.zero_le _)
    constructor
    · exact fun h => h.unique hlinear
    · rintro rfl
      exact hlinear

/-- Nine lines of row 3 and nine lines of row 5. -/
def wrappedRows : Screen2View :=
  ⟨none, List.replicate 9 ⟨3, 0⟩ ++ List.replicate 9 ⟨5, 0⟩⟩

theorem findScreenLineForViewLine_spec_wrapped : ∃ r : Int32,
    r.toInt = leading wrappedRows.m_Screen2View 5 ∧
      (∀ s' r', FindScreenLineForViewLine ⟨false, true, none, none, none⟩ wrappedRows 5 s' r' ↔
        s' = wrappedRows ∧ r' = r) ∧
      ∀ r', Returns (linearRound wrappedRows.m_Screen2View 5) 0 r' ↔ r' = r := by
  have hsorted : Sorted wrappedRows.m_Screen2View := by
    rw [Sorted, wrappedRows]
    decide
  exact findScreenLineForViewLine_spec ⟨false, true, none, none, none⟩ wrappedRows 5 hsorted
    (by decide)

/-! ### The lines of all rows -/

section Rebuild

variable {w : ScreenSettings} {i j : ℕ} {row : Viewdata} {rows : List Viewdata}
  {line : TScreenLineInfo}

theorem mem_screenLines (h : line ∈ screenLines w i row) : line.nViewLine = Int32.ofNat i := by
  rw [screenLines] at h
  split_ifs at h
  · rcases List.mem_append.mp h with hmem | hmem
    · obtain ⟨l, -, rfl⟩ := List.mem_map.mp hmem
      rfl
    · rw [List.mem_singleton.mp hmem]
  · rw [List.mem_singleton.mp h]

theorem screenLines_ne_nil (w : ScreenSettings) (i : ℕ) (row : Viewdata) :
    screenLines w i row ≠ [] := by
  rw [screenLines]
  split_ifs
  · exact List.append_ne_nil_of_right_ne_nil _ (List.cons_ne_nil _ _)
  · exact List.cons_ne_nil _ _

theorem mem_rebuildLoop (h : line ∈ rebuildLoop w i rows) :
    ∃ j < rows.length, line.nViewLine = Int32.ofNat (i + j) := by
  induction rows generalizing i with
  | nil => exact absurd h List.not_mem_nil
  | cons row rest ih =>
    have hlater : line ∈ rebuildLoop w (i + 1) rest →
        ∃ j < (row :: rest).length, line.nViewLine = Int32.ofNat (i + j) := by
      intro hmem
      obtain ⟨j, hj, hline⟩ := ih hmem
      exact ⟨j + 1, Nat.succ_lt_succ hj, by rw [hline, Nat.add_right_comm, Nat.add_assoc]⟩
    rw [rebuildLoop] at h
    split_ifs at h
    · exact hlater h
    · rcases List.mem_append.mp h with hmem | hmem
      · exact ⟨0, Nat.succ_pos _, mem_screenLines hmem⟩
      · exact hlater hmem

/-- The lines of all rows are in their order. -/
theorem rebuildLoop_sorted (h : i + rows.length ≤ 2 ^ 31) : Sorted (rebuildLoop w i rows) := by
  induction rows generalizing i with
  | nil => exact List.Pairwise.nil
  | cons row rest ih =>
    rw [List.length_cons] at h
    have hrest := ih (i := i + 1) (by omega)
    rw [rebuildLoop]
    split_ifs
    · exact hrest
    · refine List.pairwise_append.mpr ⟨?_, hrest, ?_⟩
      · refine List.pairwise_of_forall_mem_list fun line hline next hnext => ?_
        rw [mem_screenLines hline, mem_screenLines hnext]
        exact Int32.le_refl _
      · intro line hline next hnext
        obtain ⟨j, hj, heq⟩ := mem_rebuildLoop hnext
        rw [mem_screenLines hline, heq, ofNat_le_iff (by omega) (by omega)]
        omega

/-- A row that is not left out has a line. -/
theorem exists_line (hrow : rows[j]? = some row)
    (hshown : ¬ (w.m_bCollapsed = true ∧ row.hidestate = .hidden)) :
    ∃ line ∈ rebuildLoop w i rows, line.nViewLine = Int32.ofNat (i + j) := by
  induction rows generalizing i j with
  | nil => exact absurd hrow (by simp)
  | cons first rest ih =>
    rw [rebuildLoop]
    cases j with
    | zero =>
      obtain rfl : first = row := by simpa using hrow
      rw [if_neg (by simpa using hshown)]
      obtain ⟨line, hline⟩ := List.exists_mem_of_ne_nil _ (screenLines_ne_nil w i first)
      exact ⟨line, List.mem_append_left _ hline, mem_screenLines hline⟩
    | succ j =>
      obtain ⟨line, hline, heq⟩ := ih (i := i + 1) (j := j) (by simpa using hrow)
      have hplace : i + 1 + j = i + (j + 1) := by omega
      rw [hplace] at heq
      refine ⟨line, ?_, heq⟩
      split_ifs
      · exact hline
      · exact List.mem_append_right _ hline

/-- **Rebuilding sorts the lines.** An `int` counts the rows. -/
theorem rebuildIfNecessary_sorted {s : Screen2View} (hsorted : Sorted s.m_Screen2View)
    (hcount : ∀ d, s.m_pViewData = some d → d.data.length < 2 ^ 31) :
    Sorted (RebuildIfNecessary w s).m_Screen2View := by
  rw [RebuildIfNecessary]
  cases hdata : s.m_pViewData with
  | none => exact hsorted
  | some d =>
    have hlt := hcount d hdata
    exact rebuildLoop_sorted (by omega)

/-- In sorted lines, the first one that does not stand before a row shows it, if one does. -/
theorem getElem?_leading {lines : List TScreenLineInfo} {viewLine : Int32} (hsorted : Sorted lines)
    (h : ∃ line ∈ lines, line.nViewLine = viewLine) :
    ∃ line, lines[leading lines viewLine]? = some line ∧ line.nViewLine = viewLine := by
  obtain ⟨shown, hmem, rfl⟩ := h
  obtain ⟨k, hk, hget⟩ := List.getElem_of_mem hmem
  have hnot : ¬ StandsBefore lines shown.nViewLine k := by
    simp [StandsBefore, List.getElem?_eq_getElem hk, hget]
  rw [standsBefore_iff hsorted, not_lt] at hnot
  have hlt : leading lines shown.nViewLine < lines.length := hnot.trans_lt hk
  have hfirst : ¬ StandsBefore lines shown.nViewLine (leading lines shown.nViewLine) := by
    rw [standsBefore_iff hsorted]
    exact lt_irrefl _
  refine ⟨_, List.getElem?_eq_getElem hlt, Int32.le_antisymm ?_ ?_⟩
  · rcases hnot.eq_or_lt with heq | hbefore
    · simp [heq, hget]
    · have hle := List.pairwise_iff_getElem.mp hsorted _ _ hlt hk hbefore
      rwa [hget] at hle
  · simpa [StandsBefore, List.getElem?_eq_getElem hlt] using hfirst

/-- The screen line that is found for a row which is not left out shows that row. -/
theorem getViewLineForScreen_find {d : CViewData} {lines : List TScreenLineInfo} {s' : Screen2View}
    {r : Int32} (hcount : d.data.length < 2 ^ 31)
    (hlength : (rebuildLoop w 0 d.data).length < 2 ^ 30)
    (hrow : d.data[j]? = some row) (hshown : ¬ (w.m_bCollapsed = true ∧ row.hidestate = .hidden))
    (h : FindScreenLineForViewLine w ⟨some d, lines⟩ (Int32.ofNat j) s' r) :
    (GetViewLineForScreen w s' r).2 = Int32.ofNat j := by
  have hsorted : Sorted (rebuildLoop w 0 d.data) := rebuildLoop_sorted (by omega)
  obtain ⟨rfl, hsearch⟩ := h
  change Search (rebuildLoop w 0 d.data) (Int32.ofNat j) r at hsearch
  obtain rfl := hsearch.unique (search_returns hlength hsorted)
  obtain ⟨line, hline, heq⟩ := exists_line (i := 0) hrow hshown
  rw [Nat.zero_add] at heq
  obtain ⟨first, hfirst, hview⟩ := getElem?_leading hsorted ⟨line, hline, heq⟩
  have hlt := (List.getElem?_eq_some_iff.mp hfirst).1
  have hin : ¬ (size (rebuildLoop w 0 d.data) ≤
      Int32.ofNat (leading (rebuildLoop w 0 d.data) (Int32.ofNat j)) ∨
      Int32.ofNat (leading (rebuildLoop w 0 d.data) (Int32.ofNat j)) < Int32.ofNat 0) := by
    rw [size, ofNat_le_iff (by omega) (by omega), ofNat_lt_iff (by omega) (by decide)]
    omega
  rw [GetViewLineForScreen]
  refine (congrArg Prod.snd (if_neg hin)).trans ?_
  change ((rebuildLoop w 0 d.data)[_]?.map _).getD 0 = _
  rw [Int32.toNatClampNeg_ofNat_of_lt (by omega), hfirst]
  exact hview

/-- **There and back**: for a row which is not left out, the search ends, and the screen line that it
finds shows that row. -/
theorem findScreenLine_getViewLine {d : CViewData} (lines : List TScreenLineInfo)
    (hcount : d.data.length < 2 ^ 31) (hlength : (rebuildLoop w 0 d.data).length < 2 ^ 30)
    (hrow : d.data[j]? = some row) (hshown : ¬ (w.m_bCollapsed = true ∧ row.hidestate = .hidden)) :
    ∃ s' r, FindScreenLineForViewLine w ⟨some d, lines⟩ (Int32.ofNat j) s' r ∧
      (GetViewLineForScreen w s' r).2 = Int32.ofNat j := by
  have hsearch : Search (rebuildLoop w 0 d.data) (Int32.ofNat j) _ :=
    search_returns hlength (rebuildLoop_sorted (by omega))
  have hfind : FindScreenLineForViewLine w ⟨some d, lines⟩ (Int32.ofNat j) _ _ := ⟨rfl, hsearch⟩
  exact ⟨_, _, hfind, getViewLineForScreen_find hcount hlength hrow hshown hfind⟩

/-- The second row of two. -/
theorem findScreenLine_getViewLine_two :
    ∃ s' r, FindScreenLineForViewLine ⟨true, false, none, none, none⟩
        ⟨some ⟨[{}, { hidestate := .shown }], 0⟩, []⟩ (Int32.ofNat 1) s' r ∧
      (GetViewLineForScreen ⟨true, false, none, none, none⟩ s' r).2 = Int32.ofNat 1 :=
  findScreenLine_getViewLine [] (by decide) (by decide) rfl (by decide)

end Rebuild

end Screen2View

end TortoiseSvn.Merge
