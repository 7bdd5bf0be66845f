import Mathlib.Data.List.Sort
import TortoiseSvn.Svn.RevRanges

/-!
# Ranges from single revisions

`AddRevisions` sorts revisions and appends one range for each run of consecutive ones. While no run
has begun, `-1` stands for its first and for its last revision. So revision 0 continues a run that
never began, and a revision that is given twice ends the run and begins a new one with itself.

Main result: `addRevisions_iff`. The appended ranges are those of the revisions iff revision 0 is
given never or twice and every other revision at most once.
-/

namespace TortoiseSvn.Svn

namespace SVNRevRangeArray

open SVNRev

/-- The run that is read, and the ranges of the array.
Source: `SVNRev.cpp` `SVNRevRangeArray::AddRevisions`, the locals -/
structure RunState where
  startRev : ℤ
  lastRev : ℤ
  ranges : SVNRevRangeArray

/-- Source: `SVNRev.cpp` `SVNRevRangeArray::AddRevisions`, the loop -/
def RunState.step (s : RunState) (rev : ℤ) : RunState :=
  if rev = s.lastRev + 1 then { s with lastRev := s.lastRev + 1 }
  else
    { startRev := rev
      lastRev := rev
      ranges := if s.startRev ≠ -1 then s.ranges ++ [⟨create s.startRev, create s.lastRev⟩]
        else s.ranges }

/-- The array behind the loop gets the last run.
Source: `SVNRev.cpp` `SVNRevRangeArray::AddRevisions` -/
def RunState.finish (s : RunState) : SVNRevRangeArray :=
  s.ranges ++ [⟨create s.startRev, create s.lastRev⟩]

/-- Source: `SVNRev.cpp` `SVNRevRangeArray::AddRevisions` -/
def addRevisions (ranges : SVNRevRangeArray) (revisions : List ℤ) : SVNRevRangeArray :=
  if revisions = [] then ranges
  else ((revisions.insertionSort (· ≤ ·)).foldl RunState.step ⟨-1, -1, ranges⟩).finish

/-- Ranges of revision numbers in ascending order, none of which overlaps or touches another. -/
structure Tidy (ranges : SVNRevRangeArray) : Prop where
  valid : ∀ range ∈ ranges, ∃ a b : ℤ, 0 ≤ a ∧ a ≤ b ∧ range = ⟨number a, number b⟩
  apart : ranges.Pairwise fun x y => x.stop.toLong + 1 < y.start.toLong

/-! ### Runs of consecutive revisions -/

/-- The runs of sorted revisions behind a run that has begun. -/
def runsFrom (start last : ℤ) : List ℤ → List (ℤ × ℤ)
  | [] => [(start, last)]
  | rev :: rest =>
    if rev = last + 1 then runsFrom start (last + 1) rest
    else (start, last) :: runsFrom rev rev rest

/-- The ranges of some runs. -/
def rangesOf (runs : List (ℤ × ℤ)) : SVNRevRangeArray :=
  runs.map fun run => ⟨number run.1, number run.2⟩

/-- Once a run has begun, the loop appends the runs. -/
theorem finish_foldl {start last : ℤ} {rest : List ℤ} (hstart : 0 ≤ start) (hlast : 0 ≤ last)
    (hrest : ∀ r ∈ rest, 0 ≤ r) (ranges : SVNRevRangeArray) :
    (rest.foldl RunState.step ⟨start, last, ranges⟩).finish =
      ranges ++ rangesOf (runsFrom start last rest) := by
  induction rest generalizing start last ranges with
  | nil =>
    simp [RunState.finish, runsFrom, rangesOf, create_of_nonneg hstart, create_of_nonneg hlast]
  | cons rev rest ih =>
    obtain ⟨hrev, hrest⟩ := List.forall_mem_cons.mp hrest
    have hne : start ≠ -1 := by omega
    rw [List.foldl_cons, RunState.step, runsFrom]
    by_cases hnext : rev = last + 1
    · simp only [if_pos hnext]
      exact ih hstart (by omega) hrest ranges
    · simp only [if_neg hnext]
      rw [if_pos hne, ih hrev hrev hrest, create_of_nonneg hstart, create_of_nonneg hlast]
      simp [rangesOf]

theorem covered_rangesOf {runs : List (ℤ × ℤ)} (h : ∀ run ∈ runs, run.1 ≤ run.2) {r : ℤ} :
    r ∈ covered (rangesOf runs) ↔ ∃ run ∈ runs, run.1 ≤ r ∧ r ≤ run.2 := by
  have hbetween : ∀ run ∈ runs, r ∈ between ⟨number run.1, number run.2⟩ ↔
      run.1 ≤ r ∧ r ≤ run.2 := by
    intro run hrun
    rw [between_number, min_eq_left (h run hrun), max_eq_right (h run hrun), Set.mem_Icc]
  constructor
  · rintro ⟨range, hrange, hr⟩
    obtain ⟨run, hrun, rfl⟩ := List.mem_map.mp hrange
    exact ⟨run, hrun, (hbetween run hrun).mp hr⟩
  · rintro ⟨run, hrun, hr⟩
    exact ⟨_, List.mem_map_of_mem hrun, (hbetween run hrun).mpr hr⟩

/-- The runs begin and end in order. -/
theorem runsFrom_le {start last : ℤ} {rest : List ℤ} (hle : start ≤ last) :
    ∀ run ∈ runsFrom start last rest, run.1 ≤ run.2 := by
  induction rest generalizing start last with
  | nil =>
    intro run hrun
    rw [List.mem_singleton.mp hrun]
    exact hle
  | cons rev rest ih =>
    rw [runsFrom]
    split
    · exact ih (by omega)
    · exact List.forall_mem_cons.mpr ⟨hle, ih le_rfl⟩

/-- No run begins before the first one, which begins with `start`. -/
theorem start_le_of_mem {start last : ℤ} {rest : List ℤ} (hle : start ≤ last)
    (hsorted : (last :: rest).Pairwise (· ≤ ·)) :
    ∀ run ∈ runsFrom start last rest, start ≤ run.1 := by
  induction rest generalizing start last with
  | nil =>
    intro run hrun
    rw [List.mem_singleton.mp hrun]
  | cons rev rest ih =>
    obtain ⟨hlast, hrest⟩ := List.pairwise_cons.mp hsorted
    have hrev := hlast rev List.mem_cons_self
    rw [runsFrom]
    split
    · rename_i hnext
      exact ih (by omega) (hnext ▸ hrest)
    · refine List.forall_mem_cons.mpr ⟨le_rfl, fun run hrun => ?_⟩
      exact hle.trans (hrev.trans (ih le_rfl hrest run hrun))

/-- The runs hold exactly the revisions. -/
theorem mem_runsFrom {start last : ℤ} {rest : List ℤ} (hle : start ≤ last) {r : ℤ} :
    (∃ run ∈ runsFrom start last rest, run.1 ≤ r ∧ r ≤ run.2) ↔
      (start ≤ r ∧ r ≤ last) ∨ r ∈ rest := by
  induction rest generalizing start last with
  | nil => simp [runsFrom]
  | cons rev rest ih =>
    rw [runsFrom, List.mem_cons]
    by_cases hnext : rev = last + 1
    · rw [if_pos hnext, ih (by omega), ← or_assoc]
      refine or_congr_left ?_
      omega
    · rw [if_neg hnext, List.exists_mem_cons_iff, ih le_rfl]
      refine or_congr_right (or_congr_left ?_)
      omega

/-- A run begins with `start`. -/
theorem exists_start (start last : ℤ) (rest : List ℤ) :
    ∃ stop runs, runsFrom start last rest = (start, stop) :: runs := by
  induction rest generalizing last with
  | nil => exact ⟨last, [], rfl⟩
  | cons rev rest ih =>
    rw [runsFrom]
    split
    · exact ih (last + 1)
    · exact ⟨last, _, rfl⟩

/-- The runs are apart iff no revision is given twice. -/
theorem runsFrom_apart_iff {start last : ℤ} {rest : List ℤ} (hle : start ≤ last)
    (hsorted : (last :: rest).Pairwise (· ≤ ·)) :
    (runsFrom start last rest).Pairwise (fun x y => x.2 + 1 < y.1) ↔
      (last :: rest).Pairwise (· < ·) := by
  induction rest generalizing start last with
  | nil => simp [runsFrom]
  | cons rev rest ih =>
    obtain ⟨hlast, hrest⟩ := List.pairwise_cons.mp hsorted
    have hrev := hlast rev List.mem_cons_self
    have hstrict : (last :: rev :: rest).Pairwise (· < ·) ↔
        last < rev ∧ (rev :: rest).Pairwise (· < ·) := by
      rw [List.pairwise_cons]
      refine ⟨fun h => ⟨h.1 rev List.mem_cons_self, h.2⟩, fun h => ⟨fun r hr => ?_, h.2⟩⟩
      rcases List.mem_cons.mp hr with rfl | hr
      · exact h.1
      · exact h.1.trans_le ((List.pairwise_cons.mp hrest).1 r hr)
    rw [hstrict, runsFrom]
    by_cases hnext : rev = last + 1
    · rw [if_pos hnext, ih (by omega) (hnext ▸ hrest), ← hnext]
      exact (and_iff_right (by omega)).symm
    · rw [if_neg hnext, List.pairwise_cons, ih le_rfl hrest]
      refine and_congr_left fun _ => ⟨fun h => ?_, fun h run hrun => ?_⟩
      · -- the run behind begins with `rev`
        obtain ⟨stop, runs, hruns⟩ := exists_start rev rev rest
        have hhead : last + 1 < rev := h (rev, stop) (hruns ▸ List.mem_cons_self)
        omega
      · have hstart := start_le_of_mem le_rfl hrest run hrun
        show last + 1 < run.1
        omega

theorem tidy_rangesOf_iff {start last : ℤ} {rest : List ℤ} (hstart : 0 ≤ start) (hle : start ≤ last)
    (hsorted : (last :: rest).Pairwise (· ≤ ·)) :
    Tidy (rangesOf (runsFrom start last rest)) ↔ (last :: rest).Pairwise (· < ·) := by
  rw [← runsFrom_apart_iff hle hsorted]
  constructor
  · intro h
    exact List.pairwise_map.mp h.apart
  · intro h
    refine ⟨fun range hrange => ?_, List.pairwise_map.mpr h⟩
    obtain ⟨run, hrun, rfl⟩ := List.mem_map.mp hrange
    exact ⟨run.1, run.2, hstart.trans (start_le_of_mem hle hsorted run hrun),
      runsFrom_le hle run hrun, rfl⟩

/-! ### Revision 0 -/

/-- The appended ranges are those of the revisions. -/
def AppendsRanges (ranges : SVNRevRangeArray) (revisions : List ℤ) : Prop :=
  ∃ new, addRevisions ranges revisions = ranges ++ new ∧ Tidy new ∧
    covered new = {r | r ∈ revisions}

/-- Revision 0 is given never or twice, and every other one at most once. -/
def GivenProperly (revisions : List ℤ) : Prop :=
  (∀ r ∈ revisions, r ≠ 0 → revisions.count r = 1) ∧
    (revisions.count 0 = 0 ∨ revisions.count 0 = 2)

/-- A run that never began is lost, or has no revision number for its start. -/
theorem lost_zero {last : ℤ} {rest : List ℤ} (hlast : 0 ≤ last) (hpos : ∀ r ∈ rest, 0 < r)
    (hsorted : rest.Pairwise (· ≤ ·)) {ranges new : SVNRevRangeArray}
    (hnew : (rest.foldl RunState.step ⟨-1, last, ranges⟩).finish = ranges ++ new) :
    ¬ (Tidy new ∧ 0 ∈ covered new) := by
  induction rest generalizing last with
  | nil =>
    obtain rfl : [⟨create (-1), create last⟩] = new := List.append_cancel_left hnew
    rintro ⟨htidy, -⟩
    obtain ⟨a, b, -, -, hab⟩ := htidy.valid _ List.mem_cons_self
    exact absurd (congrArg SVNRevRange.start hab) (by simp [create])
  | cons rev rest ih =>
    obtain ⟨hrev, hpos⟩ := List.forall_mem_cons.mp hpos
    rw [List.foldl_cons, RunState.step] at hnew
    by_cases hnext : rev = last + 1
    · simp only [if_pos hnext] at hnew
      exact ih (by omega) hpos hsorted.of_cons hnew
    · simp only [if_neg hnext, ne_eq, not_true_eq_false, if_false] at hnew
      rw [finish_foldl hrev.le hrev.le fun r hr => (hpos r hr).le] at hnew
      obtain rfl := List.append_cancel_left hnew
      rintro ⟨-, hzero⟩
      rw [covered_rangesOf (runsFrom_le le_rfl)] at hzero
      obtain ⟨run, hrun, hle, -⟩ := hzero
      have hstart := start_le_of_mem le_rfl hsorted run hrun
      omega

/-- The ranges of a run that has begun. -/
theorem appends_iff_of_begun {start : ℤ} {rest : List ℤ} (hstart : 0 ≤ start)
    (hrest : ∀ r ∈ rest, 0 ≤ r) (hsorted : (start :: rest).Pairwise (· ≤ ·))
    {revisions : Set ℤ} (hrevisions : ∀ r, r ∈ revisions ↔ r ∈ start :: rest)
    (ranges : SVNRevRangeArray) :
    (∃ new, (rest.foldl RunState.step ⟨start, start, ranges⟩).finish = ranges ++ new ∧ Tidy new ∧
      covered new = revisions) ↔ (start :: rest).Pairwise (· < ·) := by
  rw [finish_foldl hstart hstart hrest]
  have htidy := tidy_rangesOf_iff hstart le_rfl hsorted
  have hcovered : covered (rangesOf (runsFrom start start rest)) = revisions := by
    ext r
    rw [covered_rangesOf (runsFrom_le le_rfl), mem_runsFrom le_rfl, hrevisions, List.mem_cons]
    refine or_congr_left ?_
    omega
  constructor
  · rintro ⟨new, hnew, hnewTidy, -⟩
    obtain rfl := List.append_cancel_left hnew
    exact htidy.mp hnewTidy
  · intro h
    exact ⟨_, rfl, htidy.mpr h, hcovered⟩

theorem pairwise_lt_iff_nodup {l : List ℤ} (h : l.Pairwise (· ≤ ·)) :
    l.Pairwise (· < ·) ↔ l.Nodup := by
  constructor
  · exact fun hlt => hlt.imp fun hab => ne_of_lt hab
  · intro hnodup
    exact h.imp₂ (fun a b hle hne => lt_of_le_of_ne hle hne) hnodup

theorem nodup_iff_count {l : List ℤ} : l.Nodup ↔ ∀ r ∈ l, l.count r = 1 :=
  ⟨fun h _ hr => List.count_eq_one_of_mem h hr, fun h =>
    List.nodup_iff_count_le_one.mpr fun r => by
      by_cases hr : r ∈ l
      · exact (h r hr).le
      · rw [List.count_eq_zero_of_not_mem hr]
        exact Nat.zero_le 1⟩

/-- **`AddRevisions` appends the ranges of the revisions iff revision 0 is given never or twice and
every other one at most once.** -/
theorem addRevisions_iff (ranges : SVNRevRangeArray) {revisions : List ℤ} (hne : revisions ≠ [])
    (hnonneg : ∀ r ∈ revisions, 0 ≤ r) :
    AppendsRanges ranges revisions ↔ GivenProperly revisions := by
  have hperm := List.perm_insertionSort (· ≤ ·) revisions
  have hsorted := List.pairwise_insertionSort (· ≤ ·) revisions
  unfold AppendsRanges addRevisions
  rw [if_neg hne]
  generalize revisions.insertionSort (· ≤ ·) = sorted at hperm hsorted
  -- everything that is said of the revisions is said of their sorted list
  have hmem : ∀ r, r ∈ {r | r ∈ revisions} ↔ r ∈ sorted := fun r => hperm.mem_iff.symm
  have hproper : GivenProperly revisions ↔ GivenProperly sorted := by
    unfold GivenProperly
    rw [hperm.count_eq 0]
    refine and_congr_left fun _ => forall_congr' fun r => ?_
    rw [hperm.mem_iff, hperm.count_eq r]
  have hpos : ∀ r ∈ sorted, 0 ≤ r := fun r hr => hnonneg r (hperm.mem_iff.mp hr)
  rw [hproper]
  rcases sorted with _ | ⟨first, rest⟩
  · exact absurd hperm.symm.eq_nil hne
  obtain ⟨hfirst, hrest⟩ := List.forall_mem_cons.mp hpos
  rw [List.foldl_cons, RunState.step]
  by_cases hzero : first = 0
  · subst hzero
    have hstep : (if (0 : ℤ) = -1 + 1 then (⟨-1, -1 + 1, ranges⟩ : RunState)
        else ⟨0, 0, if (-1 : ℤ) ≠ -1 then ranges ++ [⟨create (-1), create (-1)⟩] else ranges⟩) =
        ⟨-1, 0, ranges⟩ := if_pos (by norm_num)
    rw [hstep]
    by_cases hagain : 0 ∈ rest
    · -- the second 0 begins a run
      obtain ⟨rest, rfl⟩ : ∃ rest', rest = 0 :: rest' := by
        rcases rest with _ | ⟨second, rest⟩
        · exact absurd hagain List.not_mem_nil
        · have hsecond := hrest second List.mem_cons_self
          have hle : second ≤ 0 := by
            rcases List.mem_cons.mp hagain with h0 | h0
            · exact h0.ge
            · exact (List.pairwise_cons.mp hsorted.of_cons).1 0 h0
          exact ⟨rest, by rw [le_antisymm hle hsecond]⟩
      have hbegin : RunState.step ⟨-1, 0, ranges⟩ 0 = ⟨0, 0, ranges⟩ := rfl
      have hmem' : ∀ r, r ∈ {r | r ∈ revisions} ↔ r ∈ 0 :: rest := fun r => by
        rw [hmem r, List.mem_cons, or_iff_right_of_imp]
        rintro rfl
        exact List.mem_cons_self
      rw [List.foldl_cons, hbegin, appends_iff_of_begun le_rfl
        (fun r hr => hrest r (List.mem_cons_of_mem _ hr)) hsorted.of_cons hmem',
        pairwise_lt_iff_nodup hsorted.of_cons, nodup_iff_count]
      constructor
      · intro h
        refine ⟨fun r hr hr0 => ?_, .inr ?_⟩
        · rw [List.count_cons_of_ne (Ne.symm hr0)]
          exact h r ((List.mem_cons.mp hr).resolve_left hr0)
        · rw [List.count_cons_self, h 0 List.mem_cons_self]
      · rintro ⟨hothers, htwice⟩ r hr
        by_cases hr0 : r = 0
        · subst hr0
          rw [List.count_cons_self, List.count_cons_self] at htwice
          rw [List.count_cons_self]
          omega
        · have hone := hothers r (List.mem_cons_of_mem _ hr) hr0
          rwa [List.count_cons_of_ne (Ne.symm hr0)] at hone
    · -- the only 0 is lost
      have hpos' : ∀ r ∈ rest, 0 < r := fun r hr =>
        lt_of_le_of_ne (hrest r hr) fun h0 => hagain (h0 ▸ hr)
      refine iff_of_false ?_ ?_
      · rintro ⟨new, hnew, htidy, hcovered⟩
        refine lost_zero le_rfl hpos' hsorted.of_cons hnew ⟨htidy, ?_⟩
        rw [hcovered]
        exact (hmem 0).mpr List.mem_cons_self
      · rintro ⟨-, htwice⟩
        rw [List.count_cons_self, List.count_eq_zero_of_not_mem hagain] at htwice
        omega
  · have hcount : (first :: rest).count 0 = 0 := by
      refine List.count_eq_zero.mpr fun hmem0 => ?_
      rcases List.mem_cons.mp hmem0 with h0 | h0
      · exact hzero h0.symm
      · have := (List.pairwise_cons.mp hsorted).1 0 h0
        omega
    have hbegin : first ≠ -1 + 1 := by omega
    simp only [if_neg hbegin, ne_eq, not_true_eq_false, if_false]
    rw [appends_iff_of_begun hfirst hrest hsorted hmem, pairwise_lt_iff_nodup hsorted,
      nodup_iff_count]
    refine ⟨fun h => ⟨fun r hr _ => h r hr, .inl hcount⟩, fun h r hr => h.1 r hr ?_⟩
    rintro rfl
    exact List.count_eq_zero.mp hcount hr

theorem addRevisions_gaps : AppendsRanges [] [9, 0, 4, 3, 0] :=
  (addRevisions_iff [] (by simp) (by simp)).mpr ⟨by decide, .inr (by decide)⟩

/-- Revision 0 alone gives a range from `HEAD` to 0. -/
theorem addRevisions_zero : ¬ ∀ (ranges : SVNRevRangeArray) (revisions : List ℤ),
    revisions ≠ [] → (∀ r ∈ revisions, 0 ≤ r) → AppendsRanges ranges revisions := by
  intro h
  obtain ⟨new, hnew, htidy, -⟩ := h [] [0] (by simp) (by simp)
  have hrange : addRevisions [] [0] = [⟨head, number 0⟩] := by decide
  rw [hrange, List.nil_append] at hnew
  subst hnew
  obtain ⟨a, b, -, -, hab⟩ := htidy.valid _ List.mem_cons_self
  exact absurd (congrArg SVNRevRange.start hab) (by simp)

end SVNRevRangeArray

end TortoiseSvn.Svn
