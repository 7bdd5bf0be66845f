import TortoiseSvn.LogCache.PathDictionary

/-!
# The paths above a path

A path of a dictionary lies above another one when it is that path or one of its parents.

Main results: `isSameOrParentOf_spec` and `commonRoot_spec`. In a tree, the comparison of indices
stands in for the search among all parents.
-/

namespace TortoiseSvn.LogCache

namespace CPathDictionary

/-- Path `a` is path `i` or one of its parents. -/
inductive Above (d : CPathDictionary) : ℕ → ℕ → Prop
  | refl (i : ℕ) : Above d i i
  | parent {a i j : ℕ} {p : Index × Index} : d.paths[i]? = some p → p.1 = (j : Index) →
      Above d a j → Above d a i

variable {d : CPathDictionary}

/-- Nothing lies above the root. -/
theorem Tree.above_root (h : d.Tree) {a : ℕ} : d.Above a 0 ↔ a = 0 := by
  constructor
  · rintro (_ | ⟨hp, hj, -⟩)
    · rfl
    · obtain ⟨element, hroot⟩ := h.root
      rw [hroot] at hp
      obtain rfl := Option.some.inj hp
      exact absurd hj.symm (WithTop.natCast_ne_top _)
  · rintro rfl
    exact .refl 0

/-- What lies above a path is the path or lies above its parent. -/
theorem above_iff {a i j : ℕ} (hj : d.getParent (i : Index) = .ok (j : Index)) :
    d.Above a i ↔ a = i ∨ d.Above a j := by
  have hentry : ∃ p, d.paths[i]? = some p ∧ p.1 = (j : Index) := by
    rw [getParent, show d.entry (i : Index) = checked d.paths[i]? from rfl] at hj
    rcases hp : d.paths[i]? with _ | p
    · simp [hp, checked, Except.map] at hj
    · rw [hp] at hj
      exact ⟨p, rfl, Except.ok.inj hj⟩
  obtain ⟨p, hp, hpj⟩ := hentry
  constructor
  · rintro (_ | ⟨hq, hk, hak⟩)
    · exact .inl rfl
    · obtain rfl := Option.some.inj (hp.symm.trans hq)
      rw [hpj] at hk
      obtain rfl := Nat.cast_injective (R := Index) hk
      exact .inr hak
  · rintro (rfl | h)
    · exact .refl a
    · exact .parent hp hpj h

/-- A path has no larger index than what lies below it. -/
theorem Tree.le_of_above (h : d.Tree) {a i : ℕ} (ha : d.Above a i) : a ≤ i := by
  induction ha with
  | refl => exact le_rfl
  | @parent i j p hp hj _ ih =>
    rcases Nat.eq_zero_or_pos i with rfl | hpos
    · obtain ⟨element, hroot⟩ := h.root
      rw [hroot] at hp
      obtain rfl := Option.some.inj hp
      exact absurd hj.symm (WithTop.natCast_ne_top _)
    · obtain ⟨k, hk, hlt⟩ := h.parent i p hpos hp
      obtain rfl := Nat.cast_injective (R := Index) (hj.symm.trans hk)
      exact ih.trans hlt.le

theorem Above.trans {a b i : ℕ} (hab : d.Above a b) (hbi : d.Above b i) : d.Above a i := by
  induction hbi with
  | refl => exact hab
  | parent hp hj _ ih => exact .parent hp hj ih

theorem Tree.root_above (h : d.Tree) {i : ℕ} (hi : i < d.size) : d.Above 0 i := by
  induction i using Nat.strong_induction_on with
  | _ i ih =>
    rcases Nat.eq_zero_or_pos i with rfl | hpos
    · exact .refl 0
    · obtain ⟨j, hj, hlt⟩ := h.getParent hi hpos
      exact (above_iff hj).mpr (.inr (ih j hlt (hlt.trans hi)))

/-- Of two paths above a third one, the one with the smaller index lies above the other one. -/
theorem Tree.above_of_le (h : d.Tree) {a b i : ℕ} (ha : d.Above a i) (hb : d.Above b i)
    (hle : a ≤ b) : d.Above a b := by
  induction ha with
  | refl =>
    obtain rfl := le_antisymm hle (h.le_of_above hb)
    exact .refl _
  | @parent i j p hp hj haj ih =>
    have hparent : d.getParent (i : Index) = .ok (j : Index) := by
      rw [CPathDictionary.getParent, entry_coe hp, ← hj]
      rfl
    rcases (above_iff hparent).mp hb with rfl | hb
    · exact .parent hp hj haj
    · exact ih hb

/-! ### Walks that end -/

/-- A walk that is longer than the dictionary has paths never ends.
Source: `PathDictionary.cpp` `CDictionaryBasedPath::IsSameOrParentOf` -/
def isSameOrParentOf (d : CPathDictionary) (lhsIndex rhsIndex : Index) : Except Fault Bool :=
  if lhsIndex = (0 : ℕ) then .ok true
  else (Lib.loop (d.parentOfBody lhsIndex) (d.size + 1) rhsIndex).getD (.error .undefined)

/-- Source: `PathDictionary.cpp` `CDictionaryBasedPath::GetCommonRoot` -/
def commonRoot (d : CPathDictionary) (lhsIndex rhsIndex : Index) : Except Fault Index :=
  (Lib.loop d.commonRootBody (2 * d.size + 1) (lhsIndex, rhsIndex)).getD (.error .undefined)

/-- Source: `PathDictionary.h` `CDictionaryBasedPath::Intersects` -/
def intersects (d : CPathDictionary) (lhsIndex rhsIndex : Index) : Except Fault Bool :=
  if lhsIndex < rhsIndex then d.isSameOrParentOf lhsIndex rhsIndex
  else d.isSameOrParentOf rhsIndex lhsIndex

theorem parentOf_loop (h : d.Tree) {i : ℕ} (hpos : 0 < i) {k fuel : ℕ} (hk : k < d.size)
    (hfuel : k < fuel) : ∃ b, Lib.loop (d.parentOfBody (i : Index)) fuel (k : Index) = some (.ok b) ∧
      (b = true ↔ d.Above i k) := by
  induction fuel generalizing k with
  | zero => exact absurd hfuel (Nat.not_lt_zero k)
  | succ fuel ih =>
    rw [Lib.loop]
    rcases Nat.lt_trichotomy i k with hlt | rfl | hgt
    · obtain ⟨p, hp, hpk⟩ := h.getParent hk (hpos.trans hlt)
      have hbody : d.parentOfBody (i : Index) (k : Index) = .ok (.inl (p : Index)) := by
        simp [parentOfBody, hp, hlt.le, hlt.ne, bind, Except.bind, pure, Except.pure]
      obtain ⟨b, hb, hiff⟩ := ih (hpk.trans hk) (by omega)
      refine ⟨b, by rw [hbody]; exact hb, ?_⟩
      rw [hiff, above_iff hp]
      exact ⟨.inr, fun ha => ha.resolve_left hlt.ne⟩
    · refine ⟨true, ?_, iff_of_true rfl (.refl i)⟩
      rw [show d.parentOfBody (i : Index) (i : Index) = .ok (.inr true) by simp [parentOfBody]]
    · refine ⟨false, ?_, iff_of_false Bool.false_ne_true fun ha => ?_⟩
      · rw [show d.parentOfBody (i : Index) (k : Index) = .ok (.inr false) by
          simp [parentOfBody, Nat.not_le.mpr hgt]]
      · exact absurd (h.le_of_above ha) (Nat.not_le.mpr hgt)

/-- In a tree, the search tells whether a path lies above another one. -/
theorem isSameOrParentOf_spec (h : d.Tree) (i : ℕ) {j : ℕ} (hj : j < d.size) :
    ∃ b, d.isSameOrParentOf (i : Index) (j : Index) = .ok b ∧ (b = true ↔ d.Above i j) := by
  unfold isSameOrParentOf
  rcases Nat.eq_zero_or_pos i with rfl | hpos
  · exact ⟨true, if_pos rfl, iff_of_true rfl (h.root_above hj)⟩
  · obtain ⟨b, hb, hiff⟩ := parentOf_loop h hpos hj (Nat.lt_succ_of_lt hj)
    have hne : (i : Index) ≠ ((0 : ℕ) : Index) := fun he =>
      hpos.ne' (Nat.cast_injective (R := Index) he)
    exact ⟨b, by rw [if_neg hne, hb]; rfl, hiff⟩

/-- In a tree, two paths intersect if one of them lies above the other one. -/
theorem intersects_spec (h : d.Tree) {i j : ℕ} (hi : i < d.size) (hj : j < d.size) :
    ∃ b, d.intersects (i : Index) (j : Index) = .ok b ∧
      (b = true ↔ d.Above i j ∨ d.Above j i) := by
  unfold intersects
  by_cases hlt : i < j
  · obtain ⟨b, hb, hiff⟩ := isSameOrParentOf_spec h i hj
    refine ⟨b, by rw [if_pos (by exact_mod_cast hlt), hb], hiff.trans ⟨.inl, fun ha => ?_⟩⟩
    exact ha.resolve_right fun hji => absurd (h.le_of_above hji) (Nat.not_le.mpr hlt)
  · obtain ⟨b, hb, hiff⟩ := isSameOrParentOf_spec h j hi
    refine ⟨b, by rw [if_neg (by exact_mod_cast hlt), hb], hiff.trans ⟨.inr, fun ha => ?_⟩⟩
    rcases ha with hij | hji
    · obtain rfl := le_antisymm (h.le_of_above hij) (not_lt.mp hlt)
      exact .refl i
    · exact hji

theorem commonRoot_loop (h : d.Tree) {i j fuel : ℕ} (hi : i < d.size) (hj : j < d.size)
    (hfuel : i + j < fuel) : ∃ r : ℕ, r < d.size ∧
      Lib.loop d.commonRootBody fuel ((i : Index), (j : Index)) = some (.ok (r : Index)) ∧
      ∀ a, d.Above a r ↔ d.Above a i ∧ d.Above a j := by
  induction fuel generalizing i j with
  | zero => exact absurd hfuel (Nat.not_lt_zero _)
  | succ fuel ih =>
    rw [Lib.loop]
    rcases Nat.lt_trichotomy i j with hlt | rfl | hgt
    · obtain ⟨p, hp, hpj⟩ := h.getParent hj (Nat.zero_lt_of_lt hlt)
      have hbody : d.commonRootBody ((i : Index), (j : Index)) = .ok (.inl ((i : Index), (p : Index))) := by
        simp [commonRootBody, hp, hlt, hlt.ne, bind, Except.bind, pure, Except.pure]
      obtain ⟨r, hr, hloop, habove⟩ := ih hi (hpj.trans hj) (by omega)
      refine ⟨r, hr, by rw [hbody]; exact hloop, fun a => ?_⟩
      rw [habove, above_iff hp]
      refine and_congr_right fun hai => ⟨.inr, fun ha => ha.resolve_left ?_⟩
      rintro rfl
      exact absurd (h.le_of_above hai) (Nat.not_le.mpr hlt)
    · refine ⟨i, hi, ?_, fun a => (and_self_iff).symm⟩
      rw [show d.commonRootBody ((i : Index), (i : Index)) = .ok (.inr (i : Index)) by
        simp [commonRootBody]]
    · obtain ⟨p, hp, hpi⟩ := h.getParent hi (Nat.zero_lt_of_lt hgt)
      have hbody : d.commonRootBody ((i : Index), (j : Index)) = .ok (.inl ((p : Index), (j : Index))) := by
        simp [commonRootBody, hp, hgt.not_gt, hgt.ne', bind, Except.bind, pure, Except.pure]
      obtain ⟨r, hr, hloop, habove⟩ := ih (hpi.trans hi) hj (by omega)
      refine ⟨r, hr, by rw [hbody]; exact hloop, fun a => ?_⟩
      rw [habove, above_iff hp]
      refine and_congr_left fun haj => ⟨.inr, fun ha => ha.resolve_left ?_⟩
      rintro rfl
      exact absurd (h.le_of_above haj) (Nat.not_le.mpr hgt)

/-- In a tree, what lies above the common root of two paths lies above both of them. -/
theorem commonRoot_spec (h : d.Tree) {i j : ℕ} (hi : i < d.size) (hj : j < d.size) :
    ∃ r : ℕ, r < d.size ∧ d.commonRoot (i : Index) (j : Index) = .ok (r : Index) ∧
      ∀ a, d.Above a r ↔ d.Above a i ∧ d.Above a j := by
  obtain ⟨r, hr, hloop, habove⟩ := @commonRoot_loop d h i j (2 * d.size + 1) hi hj (by omega)
  exact ⟨r, hr, by rw [commonRoot, hloop]; rfl, habove⟩

end CPathDictionary

end TortoiseSvn.LogCache
