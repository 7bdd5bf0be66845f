import Mathlib.Tactic

/-!
# Lists of revision ranges

`SVNRevRangeArray` collects revisions in ranges that may run in either direction. `AddRevRange`
hands the revisions of a range to `AddRevision` one by one, which extends the first range that the
revision lies next to. When that range runs backwards, the extended range is built from the wrong
end, so that all but one of its former revisions are given up.

Main result: `covered_run_iff`. The stored ranges cover exactly what was added, after every step of
a run, iff no step gives up a revision that is in no other range.
-/

namespace TortoiseSvn.Svn

/-- A revision. Source: `SVNRev.h` `SVNRev` -/
inductive SVNRev where
  | unspecified
  | number (value : ℤ)
  | date
  | committed
  | previous
  | base
  | working
  | head
  deriving DecidableEq, Repr

namespace SVNRev

/-- Source: `SVNRev.cpp` `SVNRev::Create (svn_revnum_t)` -/
def create (nRev : ℤ) : SVNRev :=
  if nRev = -1 then head
  else if nRev = -2 then base
  else if nRev = -3 then working
  else if nRev = -5 then unspecified
  else number nRev

/-- Source: `SVNRev.cpp` `SVNRev::operator LONG` -/
def toLong : SVNRev → ℤ
  | head => -1
  | base => -2
  | working => -3
  | date => -4
  | number value => value
  | unspecified => -5
  | committed | previous => -1

/-- Source: `SVNRev.h` `SVNRev::IsNumber` -/
def isNumber : SVNRev → Bool
  | number _ => true
  | _ => false

theorem create_of_nonneg {n : ℤ} (h : 0 ≤ n) : create n = number n := by
  rw [create, if_neg (by omega), if_neg (by omega), if_neg (by omega), if_neg (by omega)]

end SVNRev

/-- Source: `SVNRev.h` `SVNRevRange` -/
structure SVNRevRange where
  start : SVNRev
  stop : SVNRev
  deriving DecidableEq, Repr

/-- Source: `SVNRev.h` `SVNRevRangeArray` -/
abbrev SVNRevRangeArray := List SVNRevRange

namespace SVNRevRangeArray

open SVNRev

/-! ### Adding revisions -/

/-- The range a stored one is replaced by when a revision lies in it or next to it.
Source: `SVNRev.cpp` `SVNRevRangeArray::AddRevision`, the loop -/
def extend (nRev : ℤ) (reverse : Bool) (range : SVNRevRange) : Option SVNRevRange :=
  let first := range.start.toLong
  let last := range.stop.toLong
  let start := min first last
  let stop := max first last
  let reversed := if last < first then true else if first = last then reverse else false
  if start ≤ nRev ∧ nRev ≤ stop then some range
  else if start = nRev + 1 then
    some (if reversed then ⟨create start, create nRev⟩ else ⟨create nRev, create stop⟩)
  else if stop = nRev - 1 then
    some (if reversed then ⟨create nRev, create stop⟩ else ⟨create start, create nRev⟩)
  else none

/-- Source: `SVNRev.cpp` `SVNRevRangeArray::AddRevision` -/
def addRevision (revision : SVNRev) (reverse : Bool) : SVNRevRangeArray → SVNRevRangeArray
  | [] => [⟨revision, revision⟩]
  | range :: ranges =>
    match extend revision.toLong reverse range with
    | some range => range :: ranges
    | none => range :: addRevision revision reverse ranges

/-- The revisions from `first` on, up to `last`. -/
def ascending (first last : ℤ) : List ℤ :=
  (List.range (last + 1 - first).toNat).map fun i : ℕ => first + i

/-- The revisions from `first` on, down to `last`. -/
def descending (first last : ℤ) : List ℤ :=
  (List.range (first + 1 - last).toNat).map fun i : ℕ => first - i

/-- Source: `SVNRev.cpp` `SVNRevRangeArray::AddRevRange` -/
def addRevRange (ranges : SVNRevRangeArray) (range : SVNRevRange) : SVNRevRangeArray :=
  if ¬ range.start.isNumber ∨ ¬ range.stop.isNumber then ranges ++ [range]
  else
    let ranges := (ascending range.start.toLong range.stop.toLong).foldl
      (fun ranges r => ranges.addRevision (create r) false) ranges
    (descending range.start.toLong range.stop.toLong).foldl
      (fun ranges r => ranges.addRevision (create r) true) ranges

/-- A call that adds revision numbers. Numbers are below the largest `svn_revnum_t`. -/
inductive Call where
  | addRevRange (start stop : ℕ)
  | addRevision (rev : ℕ) (reverse : Bool)

/-- The array behind a call. -/
def call (ranges : SVNRevRangeArray) : Call → SVNRevRangeArray
  | .addRevRange start stop => ranges.addRevRange ⟨number start, number stop⟩
  | .addRevision rev reverse => ranges.addRevision (number rev) reverse

/-- The array behind a sequence of calls on an empty one. -/
def run (calls : List Call) : SVNRevRangeArray := calls.foldl call []

/-! ### What is stored and what was added -/

/-- The revisions between the ends of a range. -/
def between (range : SVNRevRange) : Set ℤ :=
  Set.Icc (min range.start.toLong range.stop.toLong) (max range.start.toLong range.stop.toLong)

/-- The revisions in some ranges. -/
def covered (ranges : SVNRevRangeArray) : Set ℤ := {r | ∃ range ∈ ranges, r ∈ between range}

/-- The revisions a call adds. -/
def Call.revisions : Call → Set ℤ
  | .addRevRange start stop => Set.Icc (min start stop : ℕ) (max start stop : ℕ)
  | .addRevision rev _ => {(rev : ℤ)}

/-- The revisions that a sequence of calls adds. -/
def added (calls : List Call) : Set ℤ := {r | ∃ call ∈ calls, r ∈ call.revisions}

/-- The `AddRevision` calls that a call is made of. -/
def Call.steps : Call → List (ℤ × Bool)
  | .addRevRange start stop =>
    (ascending start stop).map (·, false) ++ (descending start stop).map (·, true)
  | .addRevision rev reverse => [((rev : ℤ), reverse)]

/-- The array behind single steps. -/
def addAll (steps : List (ℤ × Bool)) : SVNRevRangeArray :=
  steps.foldl (fun ranges s => ranges.addRevision (create s.1) s.2) []

/-- A revision is neither in a range nor next to it. -/
def Apart (nRev : ℤ) (range : SVNRevRange) : Prop :=
  ∀ r ∈ between range, nRev ≠ r ∧ nRev + 1 ≠ r ∧ nRev - 1 ≠ r

/-- To add a revision extends a range that runs backwards, and the revisions this gives up, all but
the one next to the new revision, are not all in other ranges. -/
def GivesUp (ranges : SVNRevRangeArray) (nRev : ℤ) : Prop :=
  ∃ front first last back, ranges = front ++ ⟨number first, number last⟩ :: back ∧
    (∀ range ∈ front, Apart nRev range) ∧ last < first ∧
    (last = nRev + 1 ∧ ¬ Set.Ioc last first ⊆ covered (front ++ back) ∨
      first = nRev - 1 ∧ ¬ Set.Ico last first ⊆ covered (front ++ back))

/-- No step of some calls gives up a revision. -/
def LosesNothing (calls : List Call) : Prop :=
  ∀ done s rest, calls.flatMap Call.steps = done ++ s :: rest → ¬ GivesUp (addAll done) s.1

/-! ### One range -/

/-- A range of revision numbers. -/
def Numbered (range : SVNRevRange) : Prop :=
  ∃ a b : ℤ, 0 ≤ a ∧ 0 ≤ b ∧ range = ⟨number a, number b⟩

theorem between_number (a b : ℤ) : between ⟨number a, number b⟩ = Set.Icc (min a b) (max a b) := rfl

/-- How a range is extended by a revision next to it: to a range of both, or to one of the new
revision and its neighbour. -/
inductive Extension (nRev : ℤ) : SVNRevRange → SVNRevRange → Prop
  | whole {a b c d : ℤ} : 0 ≤ c → 0 ≤ d →
      between ⟨number c, number d⟩ = insert nRev (between ⟨number a, number b⟩) →
      Extension nRev ⟨number a, number b⟩ ⟨number c, number d⟩
  | low {a b : ℤ} : b < a → b = nRev + 1 →
      Extension nRev ⟨number a, number b⟩ ⟨number b, number nRev⟩
  | high {a b : ℤ} : b < a → a = nRev - 1 →
      Extension nRev ⟨number a, number b⟩ ⟨number nRev, number a⟩

theorem extend_number {n a b : ℤ} (hn : 0 ≤ n) (ha : 0 ≤ a) (hb : 0 ≤ b) (reverse : Bool) :
    extend n reverse ⟨number a, number b⟩ =
      if min a b ≤ n ∧ n ≤ max a b then some ⟨number a, number b⟩
      else if min a b = n + 1 then
        some (if b < a ∨ a = b ∧ reverse then ⟨number (min a b), number n⟩
          else ⟨number n, number (max a b)⟩)
      else if max a b = n - 1 then
        some (if b < a ∨ a = b ∧ reverse then ⟨number n, number (max a b)⟩
          else ⟨number (min a b), number n⟩)
      else none := by
  have hreversed : (if b < a then true else if a = b then reverse else false) = true ↔
      b < a ∨ a = b ∧ reverse = true := by
    split_ifs with h₁ h₂
    · simp [h₁]
    · simp [h₂]
    · simp [h₁, h₂]
  have hmin : 0 ≤ min a b := le_min ha hb
  have hmax : 0 ≤ max a b := ha.trans (le_max_left a b)
  show (if min a b ≤ n ∧ n ≤ max a b then some (⟨number a, number b⟩ : SVNRevRange)
    else if min a b = n + 1 then
      some (if (if b < a then true else if a = b then reverse else false) = true then
        ⟨create (min a b), create n⟩ else ⟨create n, create (max a b)⟩)
    else if max a b = n - 1 then
      some (if (if b < a then true else if a = b then reverse else false) = true then
        ⟨create n, create (max a b)⟩ else ⟨create (min a b), create n⟩)
    else none) = _
  simp only [hreversed, create_of_nonneg hn, create_of_nonneg hmin, create_of_nonneg hmax]

/-- What a range does with a revision. -/
theorem extend_spec {n a b : ℤ} (hn : 0 ≤ n) (ha : 0 ≤ a) (hb : 0 ≤ b) (reverse : Bool) :
    (extend n reverse ⟨number a, number b⟩ = none ∧ Apart n ⟨number a, number b⟩) ∨
      ∃ range', extend n reverse ⟨number a, number b⟩ = some range' ∧
        Extension n ⟨number a, number b⟩ range' := by
  rw [extend_number hn ha hb]
  by_cases hin : min a b ≤ n ∧ n ≤ max a b
  · rw [if_pos hin]
    have hmem : n ∈ between ⟨number a, number b⟩ := hin
    exact .inr ⟨_, rfl, .whole ha hb (Set.insert_eq_of_mem hmem).symm⟩
  rw [if_neg hin]
  by_cases hlow : min a b = n + 1
  · rw [if_pos hlow]
    refine .inr ⟨_, rfl, ?_⟩
    by_cases hba : b < a
    · rw [if_pos (.inl hba), min_eq_right hba.le]
      exact .low hba (by rwa [min_eq_right hba.le] at hlow)
    · rw [not_lt] at hba
      rw [min_eq_left hba, max_eq_right hba] at *
      split_ifs with hr
      · refine .whole ha hn ?_
        ext r
        simp only [between_number, Set.mem_insert_iff, Set.mem_Icc]
        omega
      · refine .whole hn hb ?_
        ext r
        simp only [between_number, Set.mem_insert_iff, Set.mem_Icc]
        omega
  rw [if_neg hlow]
  by_cases hhigh : max a b = n - 1
  · rw [if_pos hhigh]
    refine .inr ⟨_, rfl, ?_⟩
    by_cases hba : b < a
    · rw [if_pos (.inl hba), max_eq_left hba.le]
      exact .high hba (by rwa [max_eq_left hba.le] at hhigh)
    · rw [not_lt] at hba
      rw [min_eq_left hba, max_eq_right hba] at *
      split_ifs with hr
      · refine .whole hn hb ?_
        ext r
        simp only [between_number, Set.mem_insert_iff, Set.mem_Icc]
        omega
      · refine .whole ha hn ?_
        ext r
        simp only [between_number, Set.mem_insert_iff, Set.mem_Icc]
        omega
  rw [if_neg hhigh]
  refine .inl ⟨rfl, fun r hr => ?_⟩
  rw [between_number, Set.mem_Icc] at hr
  omega

/-- A revision in a range or next to it does not leave the range alone. -/
theorem extend_of_apart {n : ℤ} (hn : 0 ≤ n) {range : SVNRevRange} (hr : Numbered range)
    (h : Apart n range) (reverse : Bool) : extend n reverse range = none := by
  obtain ⟨a, b, ha, hb, rfl⟩ := hr
  rw [extend_number hn ha hb]
  have hmem : ∀ r, r ∈ between ⟨number a, number b⟩ ↔ min a b ≤ r ∧ r ≤ max a b := fun r => Iff.rfl
  have hmin := h (min a b) ((hmem _).mpr ⟨le_rfl, min_le_max⟩)
  have hmax := h (max a b) ((hmem _).mpr ⟨min_le_max, le_rfl⟩)
  rw [if_neg fun hin => (h n ((hmem n).mpr hin)).1 rfl, if_neg (by omega), if_neg (by omega)]

/-! ### One step -/

theorem addRevision_of_extend {n : ℤ} {reverse : Bool} {front back : SVNRevRangeArray}
    {range range' : SVNRevRange} (hfront : ∀ x ∈ front, extend n reverse x = none)
    (hrange : extend n reverse range = some range') :
    addRevision (number n) reverse (front ++ range :: back) = front ++ range' :: back := by
  induction front with
  | nil => simp [addRevision, toLong, hrange]
  | cons x front ih =>
    obtain ⟨hx, hfront⟩ := List.forall_mem_cons.mp hfront
    simp [addRevision, toLong, hx, ih hfront]

theorem addRevision_of_none {n : ℤ} {reverse : Bool} {ranges : SVNRevRangeArray}
    (h : ∀ x ∈ ranges, extend n reverse x = none) :
    addRevision (number n) reverse ranges = ranges ++ [⟨number n, number n⟩] := by
  induction ranges with
  | nil => rfl
  | cons x ranges ih =>
    obtain ⟨hx, h⟩ := List.forall_mem_cons.mp h
    simp [addRevision, toLong, hx, ih h]

/-- A revision meets no range, or a first one that it extends. -/
theorem exists_first {n : ℤ} (hn : 0 ≤ n) (reverse : Bool) {ranges : SVNRevRangeArray}
    (h : ∀ range ∈ ranges, Numbered range) :
    (∀ x ∈ ranges, extend n reverse x = none) ∨
      ∃ front a b range' back, ranges = front ++ ⟨number a, number b⟩ :: back ∧
        (∀ x ∈ front, extend n reverse x = none ∧ Apart n x) ∧
        extend n reverse ⟨number a, number b⟩ = some range' ∧
        Extension n ⟨number a, number b⟩ range' := by
  induction ranges with
  | nil => exact .inl fun x hx => absurd hx List.not_mem_nil
  | cons x ranges ih =>
    obtain ⟨⟨a, b, ha, hb, rfl⟩, hrest⟩ := List.forall_mem_cons.mp h
    rcases extend_spec hn ha hb reverse with ⟨hx, hapart⟩ | ⟨range', hx, hext⟩
    · rcases ih hrest with hnone | ⟨front, c, d, range', back, rfl, hfront, hrange, hext⟩
      · exact .inl (List.forall_mem_cons.mpr ⟨hx, hnone⟩)
      · exact .inr ⟨⟨number a, number b⟩ :: front, c, d, range', back, rfl,
          List.forall_mem_cons.mpr ⟨⟨hx, hapart⟩, hfront⟩, hrange, hext⟩
    · exact .inr ⟨[], a, b, range', ranges, rfl, by simp, hx, hext⟩

theorem covered_append (l₁ l₂ : SVNRevRangeArray) : covered (l₁ ++ l₂) = covered l₁ ∪ covered l₂ := by
  ext r
  simp only [covered, List.mem_append, Set.mem_ofPred_eq, Set.mem_union, or_and_right, exists_or]

theorem covered_cons (range : SVNRevRange) (l : SVNRevRangeArray) :
    covered (range :: l) = between range ∪ covered l := by
  ext r
  simp [covered]

/-- The revisions around one range. -/
theorem covered_around (front back : SVNRevRangeArray) (range : SVNRevRange) :
    covered (front ++ range :: back) = between range ∪ covered (front ++ back) := by
  rw [covered_append, covered_cons, covered_append, Set.union_left_comm]

/-- The ranges stay ranges of revision numbers. -/
theorem addRevision_numbered {n : ℤ} (hn : 0 ≤ n) (reverse : Bool) {ranges : SVNRevRangeArray}
    (h : ∀ range ∈ ranges, Numbered range) :
    ∀ range ∈ addRevision (number n) reverse ranges, Numbered range := by
  rcases exists_first hn reverse h with hnone | ⟨front, a, b, range', back, rfl, hfront, hrange, hext⟩
  · rw [addRevision_of_none hnone]
    intro range hr
    rcases List.mem_append.mp hr with hr | hr
    · exact h range hr
    · obtain rfl := List.mem_singleton.mp hr
      exact ⟨n, n, hn, hn, rfl⟩
  · rw [addRevision_of_extend (fun x hx => (hfront x hx).1) hrange]
    obtain ⟨a', b', ha, hb, hab⟩ := h ⟨number a, number b⟩ (by simp)
    have hnum : Numbered range' := by
      simp only [SVNRevRange.mk.injEq, number.injEq] at hab
      obtain ⟨rfl, rfl⟩ := hab
      rcases hext with ⟨hc, hd, -⟩ | ⟨-, -⟩ | ⟨-, -⟩
      · exact ⟨_, _, hc, hd, rfl⟩
      · exact ⟨_, _, hb, hn, rfl⟩
      · exact ⟨_, _, hn, ha, rfl⟩
    intro range hr
    rcases List.mem_append.mp hr with hr | hr
    · exact h range (List.mem_append_left _ hr)
    · rcases List.mem_cons.mp hr with rfl | hr
      · exact hnum
      · exact h range (List.mem_append_right _ (List.mem_cons_of_mem _ hr))

/-- What is given up by one set may be held by another. -/
theorem union_eq_insert_union {n : ℤ} {s s' lost rest : Set ℤ} (h₁ : s' ⊆ insert n s)
    (h₂ : insert n s ⊆ s' ∪ lost) (hlost : lost ⊆ rest) : s' ∪ rest = insert n (s ∪ rest) := by
  apply Set.Subset.antisymm
  · rintro r (hr | hr)
    · exact (h₁ hr).imp id .inl
    · exact .inr (.inr hr)
  · rintro r (rfl | hr | hr)
    · exact (h₂ (Set.mem_insert _ _)).imp id fun h => hlost h
    · exact (h₂ (.inr hr)).imp id fun h => hlost h
    · exact .inr hr

/-- **A step adds its revision and nothing is lost iff it does not give up revisions.** -/
theorem covered_addRevision_iff {n : ℤ} (hn : 0 ≤ n) (reverse : Bool) {ranges : SVNRevRangeArray}
    (h : ∀ range ∈ ranges, Numbered range) :
    covered (addRevision (number n) reverse ranges) = insert n (covered ranges) ↔
      ¬ GivesUp ranges n := by
  constructor
  · rintro heq ⟨front, a, b, back, rfl, hfront, hba, hlost⟩
    obtain ⟨a', b', ha, hb, hab⟩ := h ⟨number a, number b⟩ (by simp)
    simp only [SVNRevRange.mk.injEq, number.injEq] at hab
    obtain ⟨rfl, rfl⟩ := hab
    have hnone : ∀ x ∈ front, extend n reverse x = none := fun x hx =>
      extend_of_apart hn (h x (List.mem_append_left _ hx)) (hfront x hx) reverse
    -- the range that is left holds two revisions only
    have hleft : ∃ range', extend n reverse ⟨number a, number b⟩ = some range' ∧
        Extension n ⟨number a, number b⟩ range' ∧
        ∃ r ∈ between ⟨number a, number b⟩, r ∉ between range' ∧ r ∉ covered (front ++ back) := by
      rcases hlost with ⟨hb', hlost⟩ | ⟨ha', hlost⟩
      · obtain ⟨r, hr, hnot⟩ := Set.not_subset.mp hlost
        refine ⟨_, ?_, .low hba hb', r, ?_, ?_, hnot⟩
        · rw [extend_number hn ha hb, min_eq_right hba.le, max_eq_left hba.le, if_neg (by omega),
            if_pos hb', if_pos (.inl hba)]
        · rw [between_number, min_eq_right hba.le, max_eq_left hba.le]
          exact ⟨hr.1.le, hr.2⟩
        · rw [between_number, Set.mem_Icc]
          have := hr.1
          omega
      · obtain ⟨r, hr, hnot⟩ := Set.not_subset.mp hlost
        refine ⟨_, ?_, .high hba ha', r, ?_, ?_, hnot⟩
        · rw [extend_number hn ha hb, min_eq_right hba.le, max_eq_left hba.le, if_neg (by omega),
            if_neg (by omega), if_pos ha', if_pos (.inl hba)]
        · rw [between_number, min_eq_right hba.le, max_eq_left hba.le]
          exact ⟨hr.1, hr.2.le⟩
        · rw [between_number, Set.mem_Icc]
          have := hr.2
          omega
    obtain ⟨range', hrange, -, r, hr, hr', hnot⟩ := hleft
    rw [addRevision_of_extend hnone hrange, covered_around, covered_around] at heq
    have hmem : r ∈ between range' ∪ covered (front ++ back) := heq ▸ .inr (.inl hr)
    exact hmem.elim hr' hnot
  · intro hkeep
    rcases exists_first hn reverse h with hnone | ⟨front, a, b, range', back, rfl, hfront, hrange, hext⟩
    · rw [addRevision_of_none hnone, covered_append, covered_cons, between_number]
      ext r
      simp [covered]
    · rw [addRevision_of_extend (fun x hx => (hfront x hx).1) hrange, covered_around, covered_around]
      rcases hext with ⟨-, -, hbetween⟩ | ⟨hba, hb⟩ | ⟨hba, ha⟩
      · rw [hbetween, Set.insert_union]
      · have hsub : Set.Ioc b a ⊆ covered (front ++ back) := by
          by_contra hlost
          exact hkeep ⟨front, a, b, back, rfl, fun x hx => (hfront x hx).2, hba, .inl ⟨hb, hlost⟩⟩
        refine union_eq_insert_union (fun r hr => ?_) (fun r hr => ?_) hsub
        · rw [between_number, Set.mem_Icc] at hr
          rw [Set.mem_insert_iff, between_number, Set.mem_Icc]
          omega
        · rw [Set.mem_insert_iff, between_number, Set.mem_Icc] at hr
          rw [between_number, Set.mem_union, Set.mem_Icc, Set.mem_Ioc]
          omega
      · have hsub : Set.Ico b a ⊆ covered (front ++ back) := by
          by_contra hlost
          exact hkeep ⟨front, a, b, back, rfl, fun x hx => (hfront x hx).2, hba, .inr ⟨ha, hlost⟩⟩
        refine union_eq_insert_union (fun r hr => ?_) (fun r hr => ?_) hsub
        · rw [between_number, Set.mem_Icc] at hr
          rw [Set.mem_insert_iff, between_number, Set.mem_Icc]
          omega
        · rw [Set.mem_insert_iff, between_number, Set.mem_Icc] at hr
          rw [between_number, Set.mem_union, Set.mem_Icc, Set.mem_Ico]
          omega

/-! ### Runs -/

theorem mem_ascending {first last r : ℤ} : r ∈ ascending first last ↔ first ≤ r ∧ r ≤ last := by
  simp only [ascending, List.mem_map, List.mem_range]
  constructor
  · rintro ⟨i, hi, rfl⟩
    omega
  · rintro ⟨h₁, h₂⟩
    exact ⟨(r - first).toNat, by omega, by omega⟩

theorem mem_descending {first last r : ℤ} : r ∈ descending first last ↔ last ≤ r ∧ r ≤ first := by
  simp only [descending, List.mem_map, List.mem_range]
  constructor
  · rintro ⟨i, hi, rfl⟩
    omega
  · rintro ⟨h₁, h₂⟩
    exact ⟨(first - r).toNat, by omega, by omega⟩

/-- A call takes the steps that it is made of. -/
theorem call_eq (ranges : SVNRevRangeArray) (c : Call) : ranges.call c =
    c.steps.foldl (fun ranges s => ranges.addRevision (create s.1) s.2) ranges := by
  cases c with
  | addRevRange start stop =>
    simp [call, addRevRange, Call.steps, isNumber, toLong, List.foldl_map]
  | addRevision rev reverse =>
    simp [call, Call.steps, create_of_nonneg]

theorem run_eq (calls : List Call) : run calls = addAll (calls.flatMap Call.steps) := by
  rw [run, addAll, List.foldl_flatMap]
  exact List.foldl_ext _ _ _ fun ranges c _ => call_eq ranges c

/-- The steps of a call add its revisions. -/
theorem mem_revisions {c : Call} {r : ℤ} : r ∈ c.revisions ↔ r ∈ c.steps.map Prod.fst := by
  cases c with
  | addRevRange start stop =>
    simp only [Call.revisions, Call.steps, List.map_append, List.map_map, List.mem_append,
      Set.mem_Icc, Function.comp_def, List.map_id', mem_ascending, mem_descending]
    omega
  | addRevision rev reverse => simp [Call.revisions, Call.steps]

theorem mem_added {calls : List Call} {r : ℤ} :
    r ∈ added calls ↔ r ∈ (calls.flatMap Call.steps).map Prod.fst := by
  simp only [added, Set.mem_ofPred_eq, mem_revisions, List.map_flatMap, List.mem_flatMap]

theorem steps_nonneg {calls : List Call} : ∀ s ∈ calls.flatMap Call.steps, 0 ≤ s.1 := by
  intro s hs
  obtain ⟨c, -, hs⟩ := List.mem_flatMap.mp hs
  have hr := mem_revisions.mpr (List.mem_map_of_mem hs)
  cases c with
  | addRevRange start stop =>
    exact (Int.natCast_nonneg _).trans (Set.mem_Icc.mp hr).1
  | addRevision rev reverse =>
    rw [Set.mem_singleton_iff.mp hr]
    exact Int.natCast_nonneg _

theorem addAll_concat (done : List (ℤ × Bool)) {s : ℤ × Bool} (hs : 0 ≤ s.1) :
    addAll (done ++ [s]) = (addAll done).addRevision (number s.1) s.2 := by
  rw [addAll, List.foldl_append, List.foldl_cons, List.foldl_nil, create_of_nonneg hs]
  rfl

theorem addAll_numbered {done : List (ℤ × Bool)} (h : ∀ s ∈ done, 0 ≤ s.1) :
    ∀ range ∈ addAll done, Numbered range := by
  induction done using List.reverseRecOn with
  | nil => exact fun range hr => absurd hr List.not_mem_nil
  | append_singleton done s ih =>
    have hs := h s (by simp)
    rw [addAll_concat done hs]
    exact addRevision_numbered hs s.2 (ih fun t ht => h t (List.mem_append_left _ ht))

/-- The stored ranges cover the revisions of some steps. -/
def Exact (done : List (ℤ × Bool)) : Prop := ∀ r, r ∈ covered (addAll done) ↔ r ∈ done.map Prod.fst

/-- One step of a run. -/
theorem exact_concat_iff {done : List (ℤ × Bool)} {s : ℤ × Bool} (h : ∀ t ∈ done ++ [s], 0 ≤ t.1)
    (hdone : Exact done) : Exact (done ++ [s]) ↔ ¬ GivesUp (addAll done) s.1 := by
  have hs := h s (by simp)
  have hnum := addAll_numbered fun t ht => h t (List.mem_append_left _ ht)
  rw [← covered_addRevision_iff hs s.2 hnum, ← addAll_concat done hs, Set.ext_iff]
  refine forall_congr' fun r => ?_
  rw [Set.mem_insert_iff, hdone r, List.map_append, List.mem_append, List.map_singleton,
    List.mem_singleton, or_comm]

/-- Along some steps every state is exact iff none of them gives up revisions. -/
theorem exact_run_iff {steps : List (ℤ × Bool)} (h : ∀ s ∈ steps, 0 ≤ s.1) :
    (∀ done rest, steps = done ++ rest → Exact done) ↔
      ∀ done s rest, steps = done ++ s :: rest → ¬ GivesUp (addAll done) s.1 := by
  constructor
  · rintro hall done s rest rfl
    have h' : ∀ t ∈ done ++ [s], 0 ≤ t.1 := fun t ht => h t (by
      rw [List.append_cons]
      exact List.mem_append_left _ ht)
    exact (exact_concat_iff h' (hall done _ rfl)).mp (hall (done ++ [s]) rest (by simp))
  · intro hkeep done
    induction done using List.reverseRecOn with
    | nil => exact fun rest _ r => by simp [covered, addAll]
    | append_singleton done s ih =>
      rintro rest rfl
      have h' : ∀ t ∈ done ++ [s], 0 ≤ t.1 := fun t ht => h t (List.mem_append_left _ ht)
      refine (exact_concat_iff h' (ih (s :: rest) (by simp))).mpr (hkeep done s rest (by simp))

/-- **Every state of a run covers exactly the revisions that were added so far iff no step gives up
a revision; then so does the state behind every call.** -/
theorem covered_run_iff (calls : List Call) :
    ((∀ done rest, calls.flatMap Call.steps = done ++ rest → Exact done) ↔ LosesNothing calls) ∧
      (LosesNothing calls → ∀ done rest, calls = done ++ rest →
        covered (run done) = added done) := by
  have hiff := exact_run_iff (@steps_nonneg calls)
  refine ⟨hiff, ?_⟩
  rintro hkeep done rest rfl
  have hexact := hiff.mpr hkeep (done.flatMap Call.steps) (rest.flatMap Call.steps) (by simp)
  ext r
  rw [run_eq, hexact r, mem_added]

/-- A range of three revisions, added downwards, keeps the last two only. -/
theorem run_loses : ¬ ∀ calls : List Call, covered (run calls) = added calls := by
  intro h
  have hrun : run [.addRevRange 25 23] = [⟨number 24, number 23⟩] := by decide
  have hmem : (25 : ℤ) ∈ added [.addRevRange 25 23] := by
    simp [added, Call.revisions]
  rw [← h, hrun] at hmem
  obtain ⟨range, hrange, hr⟩ := hmem
  obtain rfl := List.mem_singleton.mp hrange
  rw [between_number, Set.mem_Icc] at hr
  omega

end SVNRevRangeArray

end TortoiseSvn.Svn
