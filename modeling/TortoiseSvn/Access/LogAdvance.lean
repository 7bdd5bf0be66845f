import TortoiseSvn.Access.LogIteratorBase
import TortoiseSvn.Lib.Descent

/-!
# Advancing a log iterator

`InternalAdvance` goes to the next revision that mentions the path or whose data is missing. Missing
data is jumped over where a skip range says that there is none to be had.

Main result: `internalAdvance_eq_plainWalk`. The jumps lead to where a walk of single steps ends.
-/

namespace TortoiseSvn.LogCache

open TortoiseSvn.Lib CRevisionInfoContainer

namespace CLogIteratorBase

/-- Do we have data for that revision?
Source: `LogIteratorBase.h` `CLogIteratorBase::InternalDataIsMissing` -/
def internalDataIsMissing (it : CLogIteratorBase) : Except Fault Bool :=
  match it.revisionIndices.get it.revision with
  | ⊤ => .ok true
  | (index : ℕ) => do
    let flags ← it.revisionInfo.getPresenceFlags index
    return flags &&& HAS_CHANGEDPATHS = 0

/-- The iterator at another revision. -/
def moved (it : CLogIteratorBase) (revision : ℕ) : CLogIteratorBase :=
  { it with revision := revision }

/-- Source: `LogIteratorBase.cpp` `CLogIteratorBase::ToNextRevision` -/
def toNextRevision (it : CLogIteratorBase) : CLogIteratorBase := it.moved (subU it.revision 1)

/-- The calls of the lookup are nested no deeper than `fuel`.
Source: `LogIteratorBase.cpp` `CLogIteratorBase::SkipNARevisions` -/
def skipNARevisions (fuel : ℕ) (it : CLogIteratorBase) : Option (Except Fault ℕ) :=
  CSkipRevisionInfo.getPreviousRevision it.revisionInfo.paths it.skipRevisionInfo fuel
    it.path.index it.revision

/-- Skip ranges of missing data.
Source: `LogIteratorBase.cpp` `CLogIteratorBase::AdvanceOneStep`, the loop -/
def skipMissing : ℕ → CLogIteratorBase → Option (Except Fault CLogIteratorBase)
  | 0, _ => none
  | fuel + 1, it =>
    andThen (some it.internalDataIsMissing) fun missing =>
      if missing then
        andThen (it.skipNARevisions fuel) fun nextRevision =>
          if nextRevision ≠ noRevision then skipMissing fuel (it.moved nextRevision)
          else some (.ok it)
      else some (.ok it)

/-- Source: `LogIteratorBase.cpp` `CLogIteratorBase::AdvanceOneStep` -/
def advanceOneStep (fuel : ℕ) (it : CLogIteratorBase) : Option (Except Fault CLogIteratorBase) :=
  skipMissing fuel it.toNextRevision

/-- The rounds of `InternalAdvance`, no more than `fuel`.
Source: `LogIteratorBase.cpp` `CLogIteratorBase::InternalAdvance` -/
def internalAdvance (last : ℕ) :
    ℕ → CLogIteratorBase → Option (Except Fault CLogIteratorBase)
  | 0, _ => none
  | fuel + 1, it =>
    andThen (it.advanceOneStep fuel) fun it =>
      if it.revision > last then
        andThen (some it.internalDataIsMissing) fun missing =>
          if missing then some (.ok it)
          else andThen (some it.pathInRevision) fun found =>
            if found then some (.ok it) else internalAdvance last fuel it
      else some (.ok it)

/-- `InternalAdvance` stops in the given state.
Source: `LogIteratorBase.cpp` `CLogIteratorBase::InternalAdvance` -/
def InternalAdvance (it : CLogIteratorBase) (last : ℕ) (it' : CLogIteratorBase) : Prop :=
  ∃ fuel, internalAdvance last fuel it = some (.ok it')

/-! ### The plain walk -/

/-- The revisions in skip ranges of the cached base of the path or of one of its parents. -/
def skips (it : CLogIteratorBase) : Set ℕ :=
  {r | ∃ b : ℕ, it.path.index = (b : Index) ∧
    r ∈ CSkipRevisionInfo.skipped it.revisionInfo.paths it.skipRevisionInfo b}

/-- The revision has data about its changes. -/
def Cached (it : CLogIteratorBase) (revision : ℕ) : Prop :=
  (it.moved revision).internalDataIsMissing = .ok false

/-- The revision has no data about its changes. -/
def Uncached (it : CLogIteratorBase) (revision : ℕ) : Prop :=
  (it.moved revision).internalDataIsMissing = .ok true

/-- The revision mentions the path. -/
def Mentioned (it : CLogIteratorBase) (revision : ℕ) : Prop :=
  (it.moved revision).pathInRevision = .ok true

/-- Walk down in single steps, from the first revision to the second one. An uncached revision in a
skip range starts to step over everything in skip ranges, which is what `stepping` says. -/
inductive PlainWalk (it : CLogIteratorBase) (last : ℕ) : (stepping : Bool) → ℕ → ℕ → Prop
  | skip {stepping : Bool} {r r' : ℕ} : r + 1 ∈ it.skips →
      stepping = true ∨ it.Uncached (r + 1) → PlainWalk it last true r r' → PlainWalk it last stepping (r + 1) r'
  | uncached {stepping : Bool} {r : ℕ} : r ∉ it.skips → it.Uncached r → PlainWalk it last stepping r r
  | limit {stepping : Bool} {r : ℕ} : r ∉ it.skips ∨ stepping = false → it.Cached r → r ≤ last →
      PlainWalk it last stepping r r
  | found {stepping : Bool} {r : ℕ} : r ∉ it.skips ∨ stepping = false → it.Cached r → it.Mentioned r →
      PlainWalk it last stepping r r
  | pass {stepping : Bool} {r r' : ℕ} : r + 1 ∉ it.skips ∨ stepping = false → it.Cached (r + 1) →
      last < r + 1 → ¬ it.Mentioned (r + 1) → PlainWalk it last false r r' →
      PlainWalk it last stepping (r + 1) r'

/-! ### Fuel -/

theorem andThen_mono {ε α β : Type} {x x' : Option (Except ε α)}
    {f f' : α → Option (Except ε β)} {r : Except ε β} (hx : ∀ a, x = some a → x' = some a)
    (hf : ∀ a r, f a = some r → f' a = some r) (h : andThen x f = some r) :
    andThen x' f' = some r := by
  cases x with
  | none => exact nomatch h
  | some a =>
    rw [hx a rfl]
    cases a with
    | error e => exact h
    | ok a => exact hf a r h

theorem skipMissing_succ {n : ℕ} {it : CLogIteratorBase} {r : Except Fault CLogIteratorBase}
    (h : skipMissing n it = some r) : skipMissing (n + 1) it = some r := by
  induction n generalizing it r with
  | zero => exact nomatch h
  | succ n ih =>
    rw [skipMissing] at h ⊢
    refine andThen_mono (fun _ ha => ha) (fun missing r h => ?_) h
    split at h
    · rename_i hmissing
      rw [if_pos hmissing]
      refine andThen_mono (fun a ha => ?_) (fun next r h => ?_) h
      · exact CSkipRevisionInfo.getPreviousRevision_mono (Nat.le_succ n) ha
      · split at h
        · rename_i hnext
          rw [if_pos hnext]
          exact ih h
        · rename_i hnext
          rwa [if_neg hnext]
    · rename_i hmissing
      rwa [if_neg hmissing]

theorem internalAdvance_succ {last n : ℕ} {it : CLogIteratorBase}
    {r : Except Fault CLogIteratorBase} (h : internalAdvance last n it = some r) :
    internalAdvance last (n + 1) it = some r := by
  induction n generalizing it r with
  | zero => exact nomatch h
  | succ n ih =>
    rw [internalAdvance] at h ⊢
    refine andThen_mono (fun _ ha => skipMissing_succ ha) (fun it r h => ?_) h
    split at h
    · rename_i hgt
      rw [if_pos hgt]
      refine andThen_mono (fun _ ha => ha) (fun missing r h => ?_) h
      split at h
      · rename_i hmissing
        rwa [if_pos hmissing]
      · rename_i hmissing
        rw [if_neg hmissing]
        refine andThen_mono (fun _ ha => ha) (fun found r h => ?_) h
        split at h
        · rename_i hfound
          rwa [if_pos hfound]
        · rename_i hfound
          rw [if_neg hfound]
          exact ih h
    · rename_i hgt
      rwa [if_neg hgt]

theorem internalAdvance_mono {last m n : ℕ} (hmn : m ≤ n) {it : CLogIteratorBase}
    {r : Except Fault CLogIteratorBase} (h : internalAdvance last m it = some r) :
    internalAdvance last n it = some r := by
  induction hmn with
  | refl => exact h
  | step _ ih => exact internalAdvance_succ ih

/-- `InternalAdvance` stops in one state only. -/
theorem InternalAdvance.unique {it it₁ it₂ : CLogIteratorBase} {last : ℕ}
    (h₁ : it.InternalAdvance last it₁) (h₂ : it.InternalAdvance last it₂) : it₁ = it₂ := by
  obtain ⟨m, hm⟩ := h₁
  obtain ⟨n, hn⟩ := h₂
  have hm' := internalAdvance_mono (le_max_left m n) hm
  rw [internalAdvance_mono (le_max_right m n) hn] at hm'
  exact (Except.ok.inj (Option.some.inj hm')).symm

/-! ### One step -/

/-- The data of a cached log, and where an iterator may be in it: the container is well-formed and
has the revisions that the index knows of, and skip ranges are regular. -/
structure Consistent (it : CLogIteratorBase) : Prop where
  container : ∃ revs, it.revisionInfo.Tracks revs
  indices : ∀ (r index : ℕ), it.revisionIndices.get r = (index : Index) →
    index < it.revisionInfo.size
  ranges : ∀ p ∈ it.skipRevisionInfo.data, p.ranges.Regular
  path : ∀ b : ℕ, it.path.index = (b : Index) → b < it.revisionInfo.paths.size

section Step

variable {it : CLogIteratorBase}

theorem Consistent.moved (h : it.Consistent) (r : ℕ) : (it.moved r).Consistent :=
  ⟨h.container, h.indices, h.ranges, h.path⟩

/-- A revision is cached or not. -/
theorem Consistent.cached_or (h : it.Consistent) (r : ℕ) : it.Cached r ∨ it.Uncached r := by
  obtain ⟨revs, ht⟩ := h.container
  unfold Cached Uncached internalDataIsMissing
  rcases Index.cases ((it.moved r).revisionIndices.get (it.moved r).revision) with hget | ⟨i, hget⟩
  · rw [hget]
    exact .inr rfl
  · rw [hget]
    have hlt : i < it.revisionInfo.presenceFlags.length := by
      rw [ht.flags, ← ht.size]
      exact h.indices r i hget
    have hflags : (it.moved r).revisionInfo.getPresenceFlags i =
        .ok it.revisionInfo.presenceFlags[i] := by
      show checked it.revisionInfo.presenceFlags[i]? = _
      rw [List.getElem?_eq_getElem hlt]
      rfl
    simp only [Nat.cast_id, hflags, bind, Except.bind, pure, Except.pure, Except.ok.injEq]
    cases decide (it.revisionInfo.presenceFlags[i] &&& HAS_CHANGEDPATHS = 0) with
    | true => exact .inr rfl
    | false => exact .inl rfl

theorem Cached.not_uncached {r : ℕ} (h : it.Cached r) : ¬ it.Uncached r := fun h' =>
  Bool.false_ne_true (Except.ok.inj (h.symm.trans h'))

/-- The lookup of skip ranges finds the first revision below that is in none. -/
theorem Consistent.skipNARevisions (h : it.Consistent) {r : ℕ} (hr : r < 2 ^ 32) :
    ∃ next, CSkipRevisionInfo.PreviousGap it.skips r next ∧
      ∃ fuel, ∀ n, fuel ≤ n → CLogIteratorBase.skipNARevisions n (it.moved r) =
        some (.ok next) := by
  obtain ⟨revs, ht⟩ := h.container
  have hlookup : ∃ next, CSkipRevisionInfo.GetPreviousRevision it.revisionInfo.paths
      it.skipRevisionInfo it.path.index r next ∧
      CSkipRevisionInfo.PreviousGap it.skips r next := by
    rcases Index.cases it.path.index with htop | ⟨b, hb⟩
    · have hempty : it.skips = ∅ := by
        refine Set.eq_empty_iff_forall_notMem.mpr ?_
        rintro x ⟨b, hb, -⟩
        exact WithTop.natCast_ne_top b (hb.symm.trans htop)
      rw [htop, hempty]
      exact CSkipRevisionInfo.previousGap_top
    · have hskips : it.skips = CSkipRevisionInfo.skipped it.revisionInfo.paths
          it.skipRevisionInfo b := by
        ext x
        constructor
        · rintro ⟨b', hb', hx⟩
          obtain rfl := Nat.cast_injective (R := Index) (hb.symm.trans hb')
          exact hx
        · exact fun hx => ⟨b, hb, hx⟩
      rw [hb, hskips]
      exact CSkipRevisionInfo.exists_previousGap ht.changes.built.tree h.ranges (h.path b hb) hr
  obtain ⟨next, ⟨fuel, hfuel⟩, hgap⟩ := hlookup
  exact ⟨next, hgap, fuel, fun n hn => CSkipRevisionInfo.getPreviousRevision_mono hn hfuel⟩

/-- At a cached revision the test of the path gives an answer. -/
theorem Consistent.pathInRevision (h : it.Consistent) {r : ℕ} (hr : it.Cached r) :
    ∃ found, (it.moved r).pathInRevision = .ok found := by
  obtain ⟨revs, ht⟩ := h.container
  cases hroot : it.path.isRoot with
  | true =>
    refine ⟨true, ?_⟩
    rw [CLogIteratorBase.pathInRevision]
    exact if_pos hroot
  | false =>
    rcases Index.cases it.path.index with htop | ⟨b, hb⟩
    · refine ⟨false, ?_⟩
      rw [CLogIteratorBase.pathInRevision]
      show (if it.path.isRoot = true then _ else if ¬ it.path.isValid = true then _ else _) = _
      rw [hroot, if_neg Bool.false_ne_true, if_pos]
      rw [CDictionaryBasedTempPath.isValid, htop]
      decide
    · rcases Index.cases (it.revisionIndices.get r) with hget | ⟨i, hget⟩
      · -- a revision without an index is not cached
        unfold Cached internalDataIsMissing at hr
        rw [show (it.moved r).revisionIndices.get (it.moved r).revision = ⊤ from hget] at hr
        cases hr
      · obtain ⟨found, -, hfound, -⟩ := @pathInRevision_eq (it.moved r) revs ht i hget
          (h.indices r i hget) b hb (h.path b hb) hroot
        exact ⟨found, hfound⟩

end Step

/-! ### The walk -/

section Walk

variable {it : CLogIteratorBase} {last r r' s : ℕ} {stepping : Bool}

/-- What is stepped over goes on wherever one begins. -/
theorem PlainWalk.stepOver {k : ℕ} (hk : ∀ x, s < x → x ≤ s + k → x ∈ it.skips)
    (h : PlainWalk it last true s r') : PlainWalk it last true (s + k) r' := by
  induction k with
  | zero => exact h
  | succ k ih =>
    have hprev : PlainWalk it last true (s + k) r' :=
      ih fun x hx hle => hk x hx (Nat.le_succ_of_le hle)
    exact .skip (hk _ (Nat.lt_succ_of_le (Nat.le_add_right s k)) le_rfl) (.inl rfl) hprev

/-- Outside the skip ranges, the walk goes on in the same way if it was stepping over some. -/
theorem PlainWalk.land (hs : s ∉ it.skips) (h : PlainWalk it last false s r') :
    PlainWalk it last true s r' := by
  cases h with
  | skip hskip => exact absurd hskip hs
  | uncached hskip huncached => exact .uncached hskip huncached
  | limit _ hcached hle => exact .limit (.inl hs) hcached hle
  | found _ hcached hfound => exact .found (.inl hs) hcached hfound
  | pass _ hcached hlt hnot hwalk => exact .pass (.inl hs) hcached hlt hnot hwalk

/-- A cached revision that is tested is not stepped over. -/
theorem Cached.not_skip (hcached : it.Cached r) (htest : r ∉ it.skips ∨ stepping = false)
    (hskip : r ∈ it.skips) : ¬ (stepping = true ∨ it.Uncached r) := by
  have hfalse := htest.resolve_left (not_not.mpr hskip)
  rintro (htrue | huncached)
  · exact Bool.false_ne_true (hfalse.symm.trans htrue)
  · exact hcached.not_uncached huncached

/-- The plain walk ends at one revision only. -/
theorem PlainWalk.unique {r₁ r₂ : ℕ} (h₁ : PlainWalk it last stepping r r₁)
    (h₂ : PlainWalk it last stepping r r₂) : r₁ = r₂ := by
  induction h₁ with
  | skip hskip hover _ ih =>
    cases h₂ with
    | skip _ _ hwalk => exact ih hwalk
    | uncached hnot => exact absurd hskip hnot
    | limit htest hcached => exact absurd hover (hcached.not_skip htest hskip)
    | found htest hcached => exact absurd hover (hcached.not_skip htest hskip)
    | pass htest hcached => exact absurd hover (hcached.not_skip htest hskip)
  | uncached hnot huncached =>
    cases h₂ with
    | skip hskip => exact absurd hskip hnot
    | uncached => rfl
    | limit => rfl
    | found => rfl
    | pass _ hcached => exact absurd huncached hcached.not_uncached
  | limit htest hcached hle =>
    cases h₂ with
    | skip hskip hover => exact absurd hover (hcached.not_skip htest hskip)
    | uncached => rfl
    | limit => rfl
    | found => rfl
    | pass _ _ hlt => exact absurd hle (Nat.not_le.mpr hlt)
  | found htest hcached hfound =>
    cases h₂ with
    | skip hskip hover => exact absurd hover (hcached.not_skip htest hskip)
    | uncached => rfl
    | limit => rfl
    | found => rfl
    | pass _ _ _ hnot => exact absurd hfound hnot
  | pass htest hcached hlt hnot _ ih =>
    cases h₂ with
    | skip hskip hover => exact absurd hover (hcached.not_skip htest hskip)
    | uncached _ huncached => exact absurd huncached hcached.not_uncached
    | limit _ _ hle => exact absurd hle (Nat.not_le.mpr hlt)
    | found _ _ hfound => exact absurd hfound hnot
    | pass _ _ _ _ hwalk => exact ih hwalk

/-- Skipping missing data ends at a revision that is cached or in no skip range, all revisions
above being in skip ranges. -/
theorem Consistent.skipMissing (h : it.Consistent) (hr : r < 2 ^ 32) :
    ∃ s ≤ r, (∀ x, s < x → x ≤ r → x ∈ it.skips) ∧
      (∃ fuel, ∀ n, fuel ≤ n → CLogIteratorBase.skipMissing n (it.moved r) =
        some (.ok (it.moved s))) ∧
      (it.Cached s ∨ it.Uncached s ∧ s ∉ it.skips) ∧
      ∀ r', PlainWalk it last false s r' → PlainWalk it last false r r' := by
  have hstay : ∀ s, it.Cached s ∨ it.Uncached s ∧ s ∉ it.skips → s < 2 ^ 32 →
      ∃ fuel, ∀ n, fuel ≤ n → CLogIteratorBase.skipMissing n (it.moved s) =
        some (.ok (it.moved s)) := by
    rintro s (hcached | ⟨huncached, hnot⟩) hs
    · refine ⟨1, fun n hn => ?_⟩
      obtain ⟨n, rfl⟩ := Nat.exists_eq_add_of_le' hn
      rw [CLogIteratorBase.skipMissing, show (it.moved s).internalDataIsMissing = _ from hcached]
      rfl
    · obtain ⟨next, hgap, fuel, hfuel⟩ := h.skipNARevisions hs
      obtain rfl : next = noRevision := by
        rcases hgap with ⟨hno, -⟩ | ⟨hlt, hsub, -⟩
        · exact hno
        · exact absurd (hsub ⟨hlt, le_rfl⟩) hnot
      refine ⟨fuel + 1, fun n hn => ?_⟩
      obtain ⟨n, rfl⟩ := Nat.exists_eq_add_of_le' (Nat.le_of_add_left_le hn)
      rw [CLogIteratorBase.skipMissing, show (it.moved s).internalDataIsMissing = _ from huncached,
        hfuel n (Nat.le_of_succ_le_succ hn)]
      rfl
  rcases h.cached_or r with hcached | huncached
  · exact ⟨r, le_rfl, fun x hx hle => absurd hx (Nat.not_lt.mpr hle), hstay r (.inl hcached) hr,
      .inl hcached, fun _ hwalk => hwalk⟩
  obtain ⟨next, hgap, fuel, hfuel⟩ := h.skipNARevisions hr
  rcases hgap with ⟨rfl, hnot⟩ | ⟨hlt, hsub, hnot⟩
  · exact ⟨r, le_rfl, fun x hx hle => absurd hx (Nat.not_lt.mpr hle),
      hstay r (.inr ⟨huncached, hnot⟩) hr, .inr ⟨huncached, hnot⟩, fun _ hwalk => hwalk⟩
  · have hend : it.Cached next ∨ it.Uncached next ∧ next ∉ it.skips :=
      (h.cached_or next).imp_right fun hu => ⟨hu, hnot⟩
    obtain ⟨fuel', hfuel'⟩ := hstay next hend (hlt.trans hr)
    refine ⟨next, hlt.le, fun x hx hle => hsub ⟨hx, hle⟩, ⟨max fuel fuel' + 1, fun n hn => ?_⟩, hend,
      fun r' hwalk => ?_⟩
    · obtain ⟨n, rfl⟩ := Nat.exists_eq_add_of_le' (Nat.le_of_add_left_le hn)
      have hmax := Nat.le_of_succ_le_succ hn
      have hne : next ≠ noRevision := by
        unfold noRevision
        omega
      rw [CLogIteratorBase.skipMissing, show (it.moved r).internalDataIsMissing = _ from huncached,
        hfuel n ((le_max_left _ _).trans hmax)]
      show (if next ≠ noRevision then _ else _) = _
      rw [if_pos hne]
      exact hfuel' n ((le_max_right _ _).trans hmax)
    · -- the jump, step by step
      obtain ⟨k, rfl⟩ := Nat.exists_eq_add_of_lt hlt
      have hover : PlainWalk it last true (next + k) r' :=
        hwalk.land hnot |>.stepOver fun x hx hle => hsub ⟨hx, Nat.le_succ_of_le hle⟩
      exact .skip (hsub ⟨hlt, le_rfl⟩) (.inr huncached) hover

/-- The rounds that begin with a step to `r`. -/
theorem Consistent.internalAdvance (h : it.Consistent) (hr : r < 2 ^ 32) :
    ∃ r', (∀ q, subU q 1 = r → (it.moved q).InternalAdvance last (it.moved r')) ∧
      PlainWalk it last false r r' ∧
      ∀ x, r' < x → x ≤ r → x ∉ it.skips → it.Cached x → ¬ it.Mentioned x := by
  induction r using Nat.strong_induction_on with
  | _ r ih =>
    obtain ⟨s, hsr, hover, ⟨fuel, hfuel⟩, hend, hwalk⟩ := @Consistent.skipMissing it last r h hr
    have hround : ∀ q, subU q 1 = r → ∀ n, fuel ≤ n →
        CLogIteratorBase.internalAdvance last (n + 1) (it.moved q) =
          if s > last then
            andThen (some (it.moved s).internalDataIsMissing) fun missing =>
              if missing then some (.ok (it.moved s))
              else andThen (some (it.moved s).pathInRevision) fun found =>
                if found then some (.ok (it.moved s))
                else CLogIteratorBase.internalAdvance last n (it.moved s)
          else some (.ok (it.moved s)) := by
      rintro q rfl n hn
      rw [CLogIteratorBase.internalAdvance, advanceOneStep,
        show (it.moved q).toNextRevision = it.moved (subU q 1) from rfl, hfuel n hn]
      rfl
    -- the iterator stops at `s`
    have hstop : PlainWalk it last false s s →
        (∀ q, subU q 1 = r → (it.moved q).InternalAdvance last (it.moved s)) →
        ∃ r', (∀ q, subU q 1 = r → (it.moved q).InternalAdvance last (it.moved r')) ∧
          PlainWalk it last false r r' ∧
          ∀ x, r' < x → x ≤ r → x ∉ it.skips → it.Cached x → ¬ it.Mentioned x :=
      fun hplain hadv => ⟨s, hadv, hwalk s hplain,
        fun x hx hle hnot => absurd (hover x hx hle) hnot⟩
    rcases Nat.lt_or_ge last s with hlast | hlast
    · rcases hend with hcached | ⟨huncached, hnot⟩
      · obtain ⟨found, hfound⟩ := h.pathInRevision hcached
        cases found with
        | true =>
          refine hstop (.found (.inr rfl) hcached hfound) fun q hq => ⟨fuel + 1, ?_⟩
          rw [hround q hq fuel le_rfl, if_pos hlast, show (it.moved s).internalDataIsMissing = _
            from hcached, hfound]
          rfl
        | false =>
          obtain ⟨k, rfl⟩ : ∃ k, s = k + 1 := Nat.exists_eq_add_one.mpr (Nat.zero_lt_of_lt hlast)
          obtain ⟨r', hadv, hplain, hpassed⟩ := ih k hsr ((Nat.lt_of_succ_le hsr).trans hr)
          have hnot : ¬ it.Mentioned (k + 1) := fun hm =>
            Bool.false_ne_true (Except.ok.inj (hfound.symm.trans hm))
          obtain ⟨m, hm⟩ := hadv (k + 1) (subU_of_le (Nat.le_add_left 1 k) (by omega))
          refine ⟨r', fun q hq => ⟨max fuel m + 1, ?_⟩,
            hwalk r' (.pass (.inr rfl) hcached hlast hnot hplain), fun x hx hle hskip hx' => ?_⟩
          · rw [hround q hq _ (le_max_left _ _), if_pos hlast,
              show (it.moved (k + 1)).internalDataIsMissing = _ from hcached, hfound]
            exact internalAdvance_mono (le_max_right _ _) hm
          · rcases Nat.lt_trichotomy x (k + 1) with hlt | rfl | hgt
            · exact hpassed x hx (Nat.lt_succ_iff.mp hlt) hskip hx'
            · exact hnot
            · exact absurd (hover x hgt hle) hskip
      · refine hstop (.uncached hnot huncached) fun q hq => ⟨fuel + 1, ?_⟩
        rw [hround q hq fuel le_rfl, if_pos hlast, show (it.moved s).internalDataIsMissing = _
          from huncached]
        rfl
    · refine hstop ?_ fun q hq => ⟨fuel + 1, ?_⟩
      · rcases hend with hcached | ⟨huncached, hnot⟩
        · exact .limit (.inr rfl) hcached hlast
        · exact .uncached hnot huncached
      · rw [hround q hq fuel le_rfl, if_neg (Nat.not_lt.mpr hlast)]

end Walk

/-- **Jumping over skip ranges leads to where the plain walk ends**, and passes over no cached
revision that mentions the path without being in a skip range itself. -/
theorem internalAdvance_eq_plainWalk {it : CLogIteratorBase} (h : it.Consistent) (last : ℕ) :
    ∃ r, (∀ it', it.InternalAdvance last it' ↔ it' = it.moved r) ∧
      (∀ r', PlainWalk it last false (subU it.revision 1) r' ↔ r' = r) ∧
      ∀ x, r < x → x ≤ subU it.revision 1 → x ∉ it.skips → it.Cached x → ¬ it.Mentioned x := by
  obtain ⟨r, hadv, hwalk, hpassed⟩ := @Consistent.internalAdvance it last _ h
    (subU_lt it.revision 1)
  have hadv : it.InternalAdvance last (it.moved r) := hadv it.revision rfl
  refine ⟨r, fun it' => ⟨fun h => h.unique hadv, ?_⟩, fun r' => ⟨fun h => h.unique hwalk, ?_⟩,
    hpassed⟩
  · rintro rfl
    exact hadv
  · rintro rfl
    exact hwalk

/-- At revision 5, following the path that was added in revision 1; 2 to 4 are not available. -/
def behindGap (c : CRevisionInfoContainer) : CLogIteratorBase where
  revisionInfo := c
  revisionIndices := ⟨1, [(0 : ℕ)]⟩
  skipRevisionInfo := ⟨[⟨.ofList [(2, 3)], 0⟩]⟩
  revision := 5
  path := ⟨(1 : ℕ), []⟩

theorem behindGap_consistent {c : CRevisionInfoContainer} {revs : List (List SPerChangeInfo)}
    (h : c.Tracks revs) (hsize : c.size = 1) (hpaths : c.paths.size = 2) :
    (behindGap c).Consistent where
  container := ⟨revs, h⟩
  indices := fun r index hget => by
    have hentry : ([((0 : ℕ) : Index)].getD (subU r 1) ⊤) = (index : Index) := hget
    rcases Nat.eq_zero_or_pos (subU r 1) with hzero | hpos
    · rw [hzero] at hentry
      obtain rfl := Nat.cast_injective (R := Index) hentry
      show 0 < c.size
      rw [hsize]
      exact Nat.one_pos
    · rw [List.getD_eq_getElem?_getD, List.getElem?_eq_none hpos] at hentry
      exact absurd hentry.symm (WithTop.natCast_ne_top index)
  ranges := fun p hp => by
    obtain rfl := List.mem_singleton.mp hp
    exact ⟨by decide, by decide, by decide⟩
  path := fun b hb => by
    obtain rfl := Nat.cast_injective (R := Index) hb
    show 1 < c.paths.size
    rw [hpaths]
    exact Nat.one_lt_two

/-- The jump over revisions 2 to 4. -/
theorem internalAdvance_eq_plainWalk_behindGap : ∃ c, oneChange = .ok c ∧
    PlainWalk (behindGap c) 0 false 4 1 := by
  have hrun : (do
      let c ← oneChange
      let it ← (internalAdvance 0 30 (behindGap c)).getD (.error .undefined)
      pure (c.size, c.paths.size, it.revision)) = (.ok (1, 2, 1) : Except Fault _) := by
    decide +kernel
  simp only [bind_eq_ok] at hrun
  obtain ⟨c, hc, it, hit, hsizes⟩ := hrun
  simp only [pure, Except.pure, Except.ok.injEq, Prod.mk.injEq] at hsizes
  obtain ⟨hsize, hpaths, hrevision⟩ := hsizes
  obtain ⟨⟨c₁, i₁⟩, hc₁, hc'⟩ := bind_eq_ok.mp hc
  have hreached : Reached (fun _ => false) (fun _ => 0) c :=
    (Reached.init.insert hc₁).addChange hc'
  obtain ⟨revs, ht⟩ := hreached.tracks
  obtain ⟨r, hadv, hwalk, -⟩ := internalAdvance_eq_plainWalk
    (behindGap_consistent ht hsize hpaths) 0
  have hstop : (behindGap c).InternalAdvance 0 it := by
    refine ⟨30, ?_⟩
    cases hrounds : internalAdvance 0 30 (behindGap c) with
    | none =>
      rw [hrounds] at hit
      exact nomatch hit
    | some result =>
      rw [hrounds] at hit
      exact congrArg some hit
  obtain rfl := (hadv it).mp hstop
  obtain rfl : r = 1 := hrevision
  have hfour : subU 5 1 = 4 := by decide
  have hplain := (hwalk 1).mpr rfl
  rw [show subU (behindGap c).revision 1 = 4 from hfour] at hplain
  exact ⟨c, hc, hplain⟩

end CLogIteratorBase

end TortoiseSvn.LogCache
