import TortoiseSvn.Merge.StripComments
import TortoiseSvn.Utils.WordWrap

/-!
# The screen lines of a wrapped row

`CountMultiLines` wraps a row of a view and cuts the result at its line feeds into the lines that are
drawn. The search for a line feed ends at a terminator.

Main result: `countMultiLines_spec`. The screen lines cover the row.
-/

namespace TortoiseSvn.Merge

namespace FileText

open CStringUtils (WordWrap wordWrap_spec)

theorem findChar_lt_length {s : Text} {ch : UInt16} {iStart : ℤ} (h : 0 ≤ findChar s ch iStart) :
    0 ≤ iStart ∧ iStart < s.length := by
  unfold findChar at h
  split_ifs at h with hrange
  · omega
  · omega

/-- Cut a text at its line feeds, from a position on.
Source: `BaseView.cpp` `CBaseView::CountMultiLines`, the loop -/
def subLines (multiline : Text) (pos : ℤ) : List Text :=
  let found := findChar multiline 10 pos
  if 0 ≤ found then
    (mid multiline pos).take (found - pos).toNat :: subLines multiline (found + 1)
  else [mid multiline pos]
termination_by (multiline.length - pos).toNat
decreasing_by
  rename_i h
  have hlt := findChar_lt_length h
  rcases findChar_cases multiline 10 pos with hnone | hle
  · omega
  · omega

/-- A character that is found stands behind characters that are others, and no terminators. -/
theorem wcschr_eq_some {ch : UInt16} {s : Text} {k : ℕ} (h : wcschr ch s = some k) :
    ∃ t, s = s.take k ++ ch :: t ∧ ch ∉ s.take k ∧ s.drop (k + 1) = t := by
  induction s generalizing k with
  | nil => exact nomatch h
  | cons c rest ih =>
    rw [wcschr] at h
    split_ifs at h with hch hnul
    · obtain rfl := Option.some.inj h
      exact ⟨rest, by rw [hch]; rfl, List.not_mem_nil, rfl⟩
    · obtain ⟨k, hk, rfl⟩ := Option.map_eq_some_iff.mp h
      obtain ⟨t, hsplit, hnot, hdrop⟩ := ih hk
      refine ⟨t, ?_, ?_, hdrop⟩
      · rw [List.take_succ_cons, List.cons_append, ← hsplit]
      · rw [List.take_succ_cons, List.mem_cons, not_or]
        exact ⟨Ne.symm hch, hnot⟩

/-- A character that is not found is not there, unless a terminator hides it. -/
theorem wcschr_eq_none {ch : UInt16} {s : Text} (h : wcschr ch s = none) (hnul : 0 ∉ s) : ch ∉ s := by
  induction s with
  | nil => exact List.not_mem_nil
  | cons c rest ih =>
    rw [List.mem_cons, not_or] at hnul
    rw [wcschr, if_neg (Ne.symm hnul.1)] at h
    split_ifs at h with hch
    rw [List.mem_cons, not_or]
    exact ⟨Ne.symm hch, ih (Option.map_eq_none_iff.mp h) hnul.2⟩

/-- The first line feed behind a position, with what is in front of it and behind it. -/
theorem subLines_cases (r : Text) (pos : ℕ) :
    (∃ k, 10 ∉ (r.drop pos).take k ∧ r.drop pos = (r.drop pos).take k ++ 10 :: r.drop (pos + k + 1) ∧
      pos + k < r.length ∧
      subLines r pos = (r.drop pos).take k :: subLines r ((pos + k + 1 : ℕ) : ℤ)) ∨
    (0 ∉ r.drop pos → 10 ∉ r.drop pos) ∧ subLines r pos = [r.drop pos] := by
  have hfind := findChar_natCast r 10 pos
  have hmid : mid r (pos : ℤ) = r.drop pos := by rw [mid, Int.toNat_natCast]
  cases hk : wcschr 10 (r.drop pos) with
  | none =>
    rw [hk, position] at hfind
    refine Or.inr ⟨wcschr_eq_none hk, ?_⟩
    rw [subLines, hfind, if_neg (by decide), hmid]
  | some k =>
    rw [hk, position] at hfind
    obtain ⟨t, hsplit, hnot, hdrop⟩ := wcschr_eq_some hk
    rw [List.drop_drop, ← Nat.add_assoc] at hdrop
    have hlength := congrArg List.length hsplit
    rw [List.length_append, List.length_cons, List.length_take, List.length_drop] at hlength
    refine Or.inl ⟨k, hnot, by rw [hdrop]; exact hsplit, by omega, ?_⟩
    have hcount : ((pos : ℤ) + k - pos).toNat = k := by omega
    rw [subLines, hfind, if_pos (by omega), hmid, hcount]
    congr 2

/-- Without the line feeds the screen lines are the text. -/
theorem flatten_subLines (r : Text) (pos : ℕ) :
    ((subLines r pos).flatten.filter fun c => c ≠ 10) = (r.drop pos).filter fun c => c ≠ 10 := by
  induction hn : r.length - pos using Nat.strong_induction_on generalizing pos with
  | _ n ih =>
    rcases subLines_cases r pos with ⟨k, -, hsplit, hlt, hlines⟩ | ⟨-, hlines⟩
    · rw [hlines, List.flatten_cons, List.filter_append, ih _ (by omega) (pos + k + 1) rfl]
      conv_rhs => rw [hsplit, List.filter_append]
      congr 1
    · rw [hlines, List.flatten_singleton]

/-- Without a terminator the screen lines are the pieces between the line feeds. -/
theorem subLines_eq_splitOn {r : Text} (hnul : 0 ∉ r) (pos : ℕ) :
    subLines r pos = (r.drop pos).splitOn 10 := by
  induction hn : r.length - pos using Nat.strong_induction_on generalizing pos with
  | _ n ih =>
    rcases subLines_cases r pos with ⟨k, hnot, hsplit, hlt, hlines⟩ | ⟨hnone, hlines⟩
    · rw [hlines, ih _ (by omega) (pos + k + 1) rfl]
      conv_rhs => rw [hsplit, List.splitOn_append_cons_self_of_not_mem hnot]
    · have hnot := hnone fun hmem => hnul (List.mem_of_mem_drop hmem)
      rw [hlines, List.splitOn_eq_singleton hnot]

/-- **Word wrapping is lossless**: for a row without line feeds the loop ends, deleting the line feeds
gives the row back, and without tabs no piece is longer than the limit. The screen lines cover the row's
characters exactly once; without a terminator in the row they are the pieces.
Source: `StringUtils.cpp` `CStringUtils::WordWrap`, `BaseView.cpp` `CBaseView::CountMultiLines` -/
theorem countMultiLines_spec (s : Text) (hfeed : 10 ∉ s) (limit tabSize : Int32)
    (hlimit : 1 ≤ limit.toInt) (htab : 1 ≤ tabSize.toInt) :
    ∃ r, WordWrap s limit true tabSize r ∧ (r.filter fun c => c ≠ 10) = s ∧
      (9 ∉ s → ∀ p ∈ r.splitOn 10, (p.length : ℤ) ≤ limit.toInt) ∧
      ((subLines r 0).flatten.filter fun c => c ≠ 10) = s ∧
      (0 ∉ s → subLines r 0 = r.splitOn 10 ∧ (subLines r 0).flatten = s) := by
  have htab' : tabSize ≠ 0 := by
    rintro rfl
    exact absurd htab (by decide)
  obtain ⟨r, hr, hflatten, hfilter, hshort⟩ := wordWrap_spec hfeed limit htab'
  have hlines := flatten_subLines r 0
  rw [List.drop_zero, hfilter] at hlines
  refine ⟨r, hr, hfilter, fun hnotab => hshort hnotab hlimit, hlines, ?_⟩
  intro hnul
  have hnul' : 0 ∉ r := by
    intro hmem
    rw [← hfilter] at hnul
    exact hnul (List.mem_filter.mpr ⟨hmem, by decide⟩)
  have hsplit := subLines_eq_splitOn hnul' 0
  rw [List.drop_zero] at hsplit
  exact ⟨hsplit, by rw [← hflatten, ← hsplit]; rfl⟩

theorem countMultiLines_spec_words :
    ∃ r, WordWrap [97, 98, 32, 99, 100] 4 true 4 r ∧
      (r.filter fun c => c ≠ 10) = [97, 98, 32, 99, 100] ∧
      (9 ∉ ([97, 98, 32, 99, 100] : Text) →
        ∀ p ∈ r.splitOn 10, (p.length : ℤ) ≤ (4 : Int32).toInt) ∧
      ((subLines r 0).flatten.filter fun c => c ≠ 10) = [97, 98, 32, 99, 100] ∧
      (0 ∉ ([97, 98, 32, 99, 100] : Text) →
        subLines r 0 = r.splitOn 10 ∧ (subLines r 0).flatten = [97, 98, 32, 99, 100]) :=
  countMultiLines_spec [97, 98, 32, 99, 100] (by decide) 4 4 (by decide) (by decide)

end FileText

end TortoiseSvn.Merge
