import TortoiseSvn.Merge.MovedBlocks

/-!
# Sticking hunks together

Cutting a modified hunk gives modified hunks that follow one another. `StickAndSkip` takes modified
hunks that follow one another for one hunk, with the sum of their lengths.

Main results: `sticked_cut`, `Consecutive.cut` and `sticked_of_alternating`.
-/

namespace TortoiseSvn.Merge

/-! ### Partitions -/

/-- The hunks follow one another from line `o` of the base and line `m` of your file, up to `o'` and
`m'`. -/
def Consecutive : ℕ → ℕ → List SvnDiffNode → ℕ → ℕ → Prop
  | o, m, [], o', m' => o = o' ∧ m = m'
  | o, m, h :: rest, o', m' => h.originalStart = o ∧ h.modifiedStart = m ∧
      Consecutive (o + h.original) (m + h.modified) rest o' m'

theorem consecutive_append {o m o' m' : ℕ} {front back : List SvnDiffNode} :
    Consecutive o m (front ++ back) o' m' ↔
      ∃ o₁ m₁, Consecutive o m front o₁ m₁ ∧ Consecutive o₁ m₁ back o' m' := by
  induction front generalizing o m with
  | nil =>
    constructor
    · intro h
      exact ⟨o, m, ⟨rfl, rfl⟩, h⟩
    · rintro ⟨o₁, m₁, ⟨rfl, rfl⟩, h⟩
      exact h
  | cons h front ih =>
    rw [List.cons_append, Consecutive, ih]
    constructor
    · rintro ⟨ho, hm, o₁, m₁, hfront, hback⟩
      exact ⟨o₁, m₁, ⟨ho, hm, hfront⟩, hback⟩
    · rintro ⟨o₁, m₁, ⟨ho, hm, hfront⟩, hback⟩
      exact ⟨ho, hm, o₁, m₁, hfront, hback⟩

/-! ### Sticking together -/

/-- The lengths and what is behind the modified hunks.
Source: `DiffData.cpp` `StickAndSkip`, the loop -/
def stick : ℕ → ℕ → List SvnDiffNode → ℕ × ℕ × List SvnDiffNode
  | original, modified, [] => (original, modified, [])
  | original, modified, nextdiff :: rest =>
    if nextdiff.type = .diffModified then
      stick (original + nextdiff.original) (modified + nextdiff.modified) rest
    else (original, modified, nextdiff :: rest)

/-- The lengths of a hunk and of the modified hunks behind it, and what is behind them.
Source: `DiffData.cpp` `CDiffData::StickAndSkip` -/
def stickAndSkip (viewMovedBlocks : Bool) (tempdiff : SvnDiffNode) (next : List SvnDiffNode) :
    ℕ × ℕ × List SvnDiffNode :=
  if viewMovedBlocks ∧ tempdiff.type = .diffModified then
    stick tempdiff.original tempdiff.modified next
  else (tempdiff.original, tempdiff.modified, next)

theorem stick_length_le (original modified : ℕ) (hunks : List SvnDiffNode) :
    (stick original modified hunks).2.2.length ≤ hunks.length := by
  induction hunks generalizing original modified with
  | nil => exact le_rfl
  | cons h rest ih =>
    rw [stick]
    split
    · exact (ih _ _).trans (Nat.le_succ _)
    · exact le_rfl

theorem stickAndSkip_length_le (viewMovedBlocks : Bool) (tempdiff : SvnDiffNode)
    (next : List SvnDiffNode) :
    (stickAndSkip viewMovedBlocks tempdiff next).2.2.length ≤ next.length := by
  unfold stickAndSkip
  split
  · exact stick_length_le _ _ _
  · exact le_rfl

/-- The types and lengths that the loops over the hunks see.
Source: `DiffData.cpp` `DoTwoWayDiff`, `while (tempdiff)` -/
def sticked (viewMovedBlocks : Bool) : List SvnDiffNode → List (DiffType × ℕ × ℕ)
  | [] => []
  | tempdiff :: next =>
    let r := stickAndSkip viewMovedBlocks tempdiff next
    (tempdiff.type, r.1, r.2.1) :: sticked viewMovedBlocks r.2.2
termination_by hunks => hunks.length
decreasing_by exact Nat.lt_succ_of_le (stickAndSkip_length_le _ _ _)

/-- A hunk in front of others. -/
def glue (type : DiffType) (original modified : ℕ) :
    List (DiffType × ℕ × ℕ) → List (DiffType × ℕ × ℕ)
  | (type', original', modified') :: rest =>
    if type = .diffModified ∧ type' = .diffModified then
      (.diffModified, original + original', modified + modified') :: rest
    else (type, original, modified) :: (type', original', modified') :: rest
  | [] => [(type, original, modified)]

section Sticked

variable {h : SvnDiffNode} {hunks hunks' rest : List SvnDiffNode}

/-- Modified hunks that stick to a modified hunk in front. -/
theorem glue_stick (original modified original' modified' : ℕ) (hunks : List SvnDiffNode) :
    glue .diffModified original modified
        ((.diffModified, (stick original' modified' hunks).1, (stick original' modified' hunks).2.1) ::
          sticked true (stick original' modified' hunks).2.2) =
      (.diffModified, (stick (original + original') (modified + modified') hunks).1,
          (stick (original + original') (modified + modified') hunks).2.1) ::
        sticked true (stick (original + original') (modified + modified') hunks).2.2 := by
  induction hunks generalizing original' modified' with
  | nil => rfl
  | cons h rest ih =>
    rw [stick, stick]
    split
    · rw [ih, Nat.add_assoc, Nat.add_assoc]
    · rfl

/-- The hunks that the loops see, hunk by hunk. -/
theorem sticked_cons (h : SvnDiffNode) (rest : List SvnDiffNode) :
    sticked true (h :: rest) = glue h.type h.original h.modified (sticked true rest) := by
  rw [sticked]
  by_cases htype : h.type = .diffModified
  · rw [htype, stickAndSkip, if_pos ⟨rfl, htype⟩]
    cases rest with
    | nil =>
      rw [sticked, stick]
      simp [sticked, glue]
    | cons h' rest =>
      rw [stick, sticked, stickAndSkip]
      by_cases htype' : h'.type = .diffModified
      · rw [if_pos htype', if_pos ⟨rfl, htype'⟩, htype']
        exact (glue_stick _ _ _ _ rest).symm
      · rw [if_neg htype', if_neg fun hand => htype' hand.2]
        dsimp only
        rw [glue, if_neg fun hand => htype' hand.2, sticked, stickAndSkip,
          if_neg fun hand => htype' hand.2]
  · rw [stickAndSkip, if_neg fun hand => htype hand.2]
    dsimp only
    rcases sticked true rest with _ | ⟨⟨type', original', modified'⟩, more⟩
    · rfl
    · rw [glue, if_neg fun hand => htype hand.1]

/-- When no two modified hunks follow one another, nothing sticks together. -/
theorem sticked_of_alternating (h : hunks.IsChain fun a b => a.type ≠ b.type) :
    sticked true hunks = hunks.map fun h => (h.type, h.original, h.modified) := by
  induction hunks with
  | nil => rw [sticked, List.map_nil]
  | cons a rest ih =>
    rw [sticked_cons, ih h.tail, List.map_cons]
    cases rest with
    | nil => rfl
    | cons b rest =>
      rw [List.map_cons, glue, if_neg fun hand => ?_]
      exact h.rel (hand.1.trans hand.2.symm)

end Sticked

/-! ### Cutting -/

/-- Modified hunks into which a modified hunk is cut: the first one keeps its address and where it
begins, the others are new, and together they have the lines of the hunk. -/
structure Cut (h : SvnDiffNode) (free free' : ℕ) (first : SvnDiffNode) (more : List SvnDiffNode) :
    Prop where
  type : h.type = .diffModified
  free_le : free ≤ free'
  address : first.address = h.address
  original_le : first.original ≤ h.original
  modified_le : first.modified ≤ h.modified
  types : ∀ t ∈ first :: more, t.type = .diffModified
  news : ∀ t ∈ more, free ≤ t.address ∧ t.address < free'
  distinct : (more.map fun t => t.address).Nodup
  consecutive : Consecutive h.originalStart h.modifiedStart (first :: more)
    (h.originalStart + h.original) (h.modifiedStart + h.modified)

section Cut

variable {h first : SvnDiffNode} {more rest : List SvnDiffNode} {free free' o m o' m' : ℕ}

/-- A cut into two pieces. -/
theorem Cut.pair {second : SvnDiffNode} (htype : h.type = .diffModified)
    (haddress : first.address = h.address) (hfirst : first.type = .diffModified)
    (hsecond : second.type = .diffModified) (hnew : second.address = free)
    (ho : first.originalStart = h.originalStart) (hm : first.modifiedStart = h.modifiedStart)
    (ho' : second.originalStart = h.originalStart + first.original)
    (hm' : second.modifiedStart = h.modifiedStart + first.modified)
    (horiginal : first.original + second.original = h.original)
    (hmodified : first.modified + second.modified = h.modified) :
    Cut h free (free + 1) first [second] := by
  refine ⟨htype, Nat.le_succ free, haddress, by omega, by omega, fun t ht => ?_, fun t ht => ?_,
    List.nodup_singleton _, ho, hm, ho', hm', by omega, by omega⟩
  · rcases List.mem_cons.mp ht with rfl | ht
    · exact hfirst
    · exact List.mem_singleton.mp ht ▸ hsecond
  · rw [List.mem_singleton.mp ht, hnew]
    exact ⟨le_rfl, Nat.lt_succ_self free⟩

/-- Modified hunks that follow one another stick together. -/
theorem sticked_append_cons (hfirst : first.type = .diffModified)
    (hmore : ∀ t ∈ more, t.type = .diffModified) (hcons : Consecutive o m (first :: more) o' m')
    (rest : List SvnDiffNode) : sticked true (first :: (more ++ rest)) =
      glue .diffModified (o' - o) (m' - m) (sticked true rest) ∧ o ≤ o' ∧ m ≤ m' := by
  induction more generalizing first o m with
  | nil =>
    obtain ⟨-, -, rfl, rfl⟩ := hcons
    rw [List.nil_append, sticked_cons, hfirst]
    refine ⟨?_, Nat.le_add_right _ _, Nat.le_add_right _ _⟩
    rw [Nat.add_sub_cancel_left, Nat.add_sub_cancel_left]
  | cons t more ih =>
    obtain ⟨-, -, htail⟩ := hcons
    obtain ⟨hsticked, ho, hm⟩ := ih (hmore t List.mem_cons_self)
      (fun t ht => hmore t (List.mem_cons_of_mem _ ht)) htail
    rw [List.cons_append, sticked_cons, hsticked, hfirst]
    refine ⟨?_, (Nat.le_add_right _ _).trans ho, (Nat.le_add_right _ _).trans hm⟩
    have hoeq : first.original + (o' - (o + first.original)) = o' - o := by omega
    have hmeq : first.modified + (m' - (m + first.modified)) = m' - m := by omega
    rcases sticked true rest with _ | ⟨⟨type, original, modified⟩, tail⟩
    · rw [glue, glue, if_pos ⟨rfl, rfl⟩, hoeq, hmeq, glue]
    · rw [glue, glue]
      by_cases htype : type = .diffModified
      · rw [if_pos ⟨rfl, htype⟩, if_pos ⟨rfl, htype⟩, glue, if_pos ⟨rfl, rfl⟩, ← Nat.add_assoc,
          ← Nat.add_assoc, hoeq, hmeq]
      · rw [if_neg fun hand => htype hand.2, if_neg fun hand => htype hand.2, glue,
          if_pos ⟨rfl, rfl⟩, hoeq, hmeq]

/-- **Cutting a hunk does not change what the loops see.** -/
theorem sticked_cut (hcut : Cut h free free' first more) (rest : List SvnDiffNode) :
    sticked true (first :: (more ++ rest)) = sticked true (h :: rest) := by
  obtain ⟨hsticked, -, -⟩ := sticked_append_cons (hcut.types first List.mem_cons_self)
    (fun t ht => hcut.types t (List.mem_cons_of_mem _ ht)) hcut.consecutive rest
  rw [hsticked, sticked_cons, hcut.type, Nat.add_sub_cancel_left, Nat.add_sub_cancel_left]

/-- Cutting a hunk gives a partition again. -/
theorem Consecutive.cut (hcut : Cut h free free' first more)
    (hcons : Consecutive o m (h :: rest) o' m') :
    Consecutive o m (first :: (more ++ rest)) o' m' := by
  obtain ⟨rfl, rfl, hrest⟩ := hcons
  rw [← List.cons_append, consecutive_append]
  exact ⟨_, _, hcut.consecutive, hrest⟩

end Cut

end TortoiseSvn.Merge
