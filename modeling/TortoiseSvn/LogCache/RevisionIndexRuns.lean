import TortoiseSvn.LogCache.RevisionIndex
import TortoiseSvn.LogCache.Columns

/-!
# Filling the revision index

`SetRevisionIndex` stores an index for a revision. The array of indices grows at either end, by at
least its own size, and is padded with `NO_INDEX`. `entry` reads it as a map from all revisions to
indices: growing does not change that map, and writing changes it for one revision.

Main result: `setRevisionIndices_spec`. The index is a finite map, whatever the order in which it is
filled; but the search for a missing revision does not go beyond the end of the array.
-/

namespace TortoiseSvn.LogCache

namespace CRevisionIndex

/-- Source: `RevisionIndex.cpp` `CRevisionIndex::CRevisionIndex` -/
def init : CRevisionIndex := ⟨0, []⟩

/-- The end of the range of possibly available revisions.
Source: `RevisionIndex.h` `CRevisionIndex::GetLastRevision` -/
def getLastRevision (m : CRevisionIndex) : ℕ := addU m.firstRevision m.indices.length

/-- Source: `RevisionIndex.cpp` `CRevisionIndex::GetFirstCachedRevision` -/
def getFirstCachedRevision (m : CRevisionIndex) : ℕ :=
  match m.indices.findIdx? (· ≠ ⊤) with
  | some i => addU m.firstRevision i
  | none => noRevision

/-- The entries are read from the last to the first one.
Source: `RevisionIndex.cpp` `CRevisionIndex::GetLastCachedRevision` -/
def getLastCachedRevision (m : CRevisionIndex) : ℕ :=
  match m.indices.reverse.findIdx? (· ≠ ⊤) with
  | some i => addU m.firstRevision (m.indices.length - i)
  | none => noRevision

/-- Source: `RevisionIndex.cpp` `CRevisionIndex::GetFirstMissingRevision` -/
def getFirstMissingRevision (m : CRevisionIndex) (start : ℕ) : ℕ :=
  -- empty cache?
  if m.indices = [] then start
  -- do we know the beginning of the history?
  else if start < m.firstRevision then start
  else
    -- find first gap
    let first := start - m.firstRevision
    match (m.indices.drop first).findIdx? (· = ⊤) with
    | some i => addU m.firstRevision (first + i)
    -- first gap is last entry+1
    | none => addU m.firstRevision m.indices.length

/-- Make sure that there is an entry for a revision.
Source: `RevisionIndex.cpp` `CRevisionIndex::SetRevisionIndex` -/
def grow (m : CRevisionIndex) (revision : ℕ) : CRevisionIndex :=
  let size := m.indices.length % 2 ^ 32
  if revision < m.firstRevision then
    let newFirstRevision :=
      if m.firstRevision < size then 0 else min (m.firstRevision - size) revision
    ⟨newFirstRevision, List.replicate (m.firstRevision - newFirstRevision) ⊤ ++ m.indices⟩
  else if size ≤ subU revision m.firstRevision then
    let toAdd := max size (subU (subU (addU revision 1) m.firstRevision) size)
    ⟨m.firstRevision, m.indices ++ List.replicate toAdd ⊤⟩
  else m

/-- Source: `RevisionIndex.cpp` `CRevisionIndex::SetRevisionIndex` -/
def setRevisionIndex (m : CRevisionIndex) (revision : ℕ) (index : Index) :
    Except Fault CRevisionIndex :=
  if m.get revision ≠ ⊤ ∨ index = ⊤ then .error .assertion
  else if revision = noRevision then .error (.containerException "Invalid revision")
  else if m.indices = [] then .ok ⟨revision, m.indices ++ [index]⟩
  else if revision = m.getLastRevision then .ok ⟨m.firstRevision, m.indices ++ [index]⟩
  else
    let m := m.grow revision
    let bucket := subU revision m.firstRevision
    if bucket < m.indices.length then .ok ⟨m.firstRevision, m.indices.set bucket index⟩
    else .error .undefined

/-- The calls of `SetRevisionIndex`, one after the other, on a new index. -/
def setRevisionIndices (calls : List (ℕ × Index)) : Except Fault CRevisionIndex :=
  calls.foldlM (fun m call => m.setRevisionIndex call.1 call.2) init

/-! ### The map -/

/-- The index of a revision, for all revisions. -/
def entry (m : CRevisionIndex) (revision : ℕ) : Index :=
  if revision < m.firstRevision then ⊤ else m.indices.getD (revision - m.firstRevision) ⊤

/-- The end of the array is a revision. -/
def Fits (m : CRevisionIndex) : Prop := m.firstRevision + m.indices.length < 2 ^ 32

section Entry

variable {m : CRevisionIndex} {first revision : ℕ} {indices : List Index} {index : Index}

theorem entry_of_lt (h : revision < m.firstRevision) : m.entry revision = ⊤ := if_pos h

theorem entry_of_le (h : m.firstRevision ≤ revision) :
    m.entry revision = m.indices.getD (revision - m.firstRevision) ⊤ :=
  if_neg (not_lt.mpr h)

theorem entry_add (i : ℕ) : m.entry (m.firstRevision + i) = m.indices.getD i ⊤ := by
  rw [entry_of_le (Nat.le_add_right _ _), Nat.add_sub_cancel_left]

theorem entry_getElem? {i : ℕ} (h : m.indices[i]? = some index) :
    m.entry (m.firstRevision + i) = index := by
  rw [entry_add, List.getD_eq_getElem?_getD, h, Option.getD_some]

theorem entry_of_end_le (h : m.firstRevision + m.indices.length ≤ revision) :
    m.entry revision = ⊤ := by
  rw [entry_of_le (le_trans (Nat.le_add_right _ _) h), List.getD_eq_getElem?_getD,
    List.getElem?_eq_none (Nat.le_sub_of_add_le' h), Option.getD_none]

/-- An entry is in the range of the array. -/
theorem range_of_entry (h : m.entry revision ≠ ⊤) :
    ∃ i < m.indices.length, revision = m.firstRevision + i := by
  have hle : m.firstRevision ≤ revision := not_lt.mp fun hlt => h (entry_of_lt hlt)
  have hlt : revision < m.firstRevision + m.indices.length :=
    not_le.mp fun hle => h (entry_of_end_le hle)
  refine ⟨revision - m.firstRevision, ?_, ?_⟩ <;> omega

/-- A revision below the first one wraps around to one that is beyond the end. -/
theorem get_eq_entry (hm : m.Fits) (h : revision < 2 ^ 32) : m.get revision = m.entry revision := by
  unfold get
  rcases lt_or_ge revision m.firstRevision with hlt | hle
  · have hbeyond : m.indices.length ≤ subU revision m.firstRevision := by
      unfold Fits at hm
      unfold subU
      omega
    rw [entry_of_lt hlt, List.getD_eq_getElem?_getD, List.getElem?_eq_none hbeyond,
      Option.getD_none]
  · rw [entry_of_le hle, subU_of_le hle h]

/-! ### Growing and writing -/

theorem entry_upper (first : ℕ) (indices : List Index) (n : ℕ) :
    entry ⟨first, indices ++ List.replicate n ⊤⟩ = entry ⟨first, indices⟩ := by
  funext revision
  unfold entry
  dsimp only
  split
  · rfl
  · rw [List.getD_eq_getElem?_getD, List.getD_eq_getElem?_getD, List.getElem?_append]
    split
    · rfl
    · rename_i hlt
      rw [List.getElem?_eq_none (not_lt.mp hlt), List.getElem?_replicate]
      split <;> rfl

theorem entry_lower {newFirst : ℕ} (h : newFirst ≤ first) :
    entry ⟨newFirst, List.replicate (first - newFirst) ⊤ ++ indices⟩ = entry ⟨first, indices⟩ := by
  funext revision
  unfold entry
  dsimp only
  by_cases hnew : revision < newFirst
  · rw [if_pos hnew, if_pos (hnew.trans_le h)]
  rw [if_neg hnew, List.getD_eq_getElem?_getD, List.getElem?_append, List.length_replicate]
  by_cases hold : revision < first
  · rw [if_pos hold, if_pos (by omega), List.getElem?_replicate]
    split <;> rfl
  · rw [if_neg hold, if_neg (by omega), List.getD_eq_getElem?_getD]
    congr 2
    omega

theorem entry_set {bucket : ℕ} (h : bucket < m.indices.length) :
    entry ⟨m.firstRevision, m.indices.set bucket index⟩ =
      Function.update m.entry (m.firstRevision + bucket) index := by
  funext revision
  rcases eq_or_ne revision (m.firstRevision + bucket) with rfl | hne
  · rw [Function.update_self]
    refine entry_getElem? (m := ⟨m.firstRevision, m.indices.set bucket index⟩) ?_
    exact List.getElem?_set_self h
  · rw [Function.update_of_ne hne]
    unfold entry
    dsimp only
    split
    · rfl
    · rw [List.getD_eq_getElem?_getD, List.getD_eq_getElem?_getD, List.getElem?_set_ne (by omega)]

/-- A new entry at the end is a padded one that is written. -/
theorem entry_push (first : ℕ) (indices : List Index) (index : Index) :
    entry ⟨first, indices ++ [index]⟩ =
      Function.update (entry ⟨first, indices⟩) (first + indices.length) index := by
  have hset := @entry_set ⟨first, indices ++ List.replicate 1 ⊤⟩ index indices.length
    (by rw [List.length_append, List.length_replicate]; exact Nat.lt_succ_self _)
  rw [entry_upper] at hset
  rw [← hset]
  dsimp only
  rw [List.set_append_right _ _ le_rfl, Nat.sub_self]
  rfl

/-- Growing makes room for a revision and keeps the map. -/
theorem grow_spec (hm : m.Fits) (hrevision : revision < 2 ^ 31) :
    (m.grow revision).Fits ∧ (m.grow revision).entry = m.entry ∧
      (m.grow revision).firstRevision ≤ revision ∧
      (m.indices ≠ [] → revision - (m.grow revision).firstRevision < (m.grow revision).indices.length) := by
  unfold Fits at hm
  have hsize : m.indices.length % 2 ^ 32 = m.indices.length := Nat.mod_eq_of_lt (by omega)
  unfold grow
  dsimp only
  rw [hsize]
  split
  case isTrue hlower =>
    -- the end of the array stays where it is
    set newFirst := if m.firstRevision < m.indices.length then 0
      else min (m.firstRevision - m.indices.length) revision with hnew
    have hle : newFirst ≤ revision := by
      rw [hnew]
      split
      · exact Nat.zero_le _
      · exact min_le_right _ _
    refine ⟨?_, entry_lower (hle.trans hlower.le), hle, fun hne => ?_⟩
    · unfold Fits
      rw [List.length_append, List.length_replicate]
      dsimp only
      omega
    · have hpos := List.length_pos_iff.mpr hne
      rw [List.length_append, List.length_replicate]
      dsimp only
      omega
  case isFalse hlower =>
    have hle := not_lt.mp hlower
    have hsub : subU revision m.firstRevision = revision - m.firstRevision :=
      subU_of_le hle (by omega)
    rw [hsub]
    split
    case isTrue hupper =>
      have hadd : subU (subU (addU revision 1) m.firstRevision) m.indices.length =
          revision + 1 - m.firstRevision - m.indices.length := by
        have hnext : addU revision 1 = revision + 1 := addU_of_lt (by omega)
        have hroom : subU (revision + 1) m.firstRevision = revision + 1 - m.firstRevision :=
          subU_of_le (by omega) (by omega)
        rw [hnext, hroom, subU_of_le (by omega) (by omega)]
      rw [hadd]
      refine ⟨?_, entry_upper _ _ _, hle, fun _ => ?_⟩
      · unfold Fits
        rw [List.length_append, List.length_replicate]
        dsimp only
        omega
      · rw [List.length_append, List.length_replicate]
        dsimp only
        omega
    case isFalse hinside =>
      exact ⟨hm, rfl, hle, fun _ => not_le.mp hinside⟩

/-- **`SetRevisionIndex` sets the index of one revision** and changes no other. -/
theorem setRevisionIndex_spec (hm : m.Fits) (hrevision : revision < 2 ^ 31)
    (hindex : index ≠ ⊤) (hnew : m.entry revision = ⊤) :
    ∃ m', m.setRevisionIndex revision index = .ok m' ∧ m'.Fits ∧
      m'.entry = Function.update m.entry revision index := by
  have hassert : ¬ (m.get revision ≠ ⊤ ∨ index = ⊤) := by
    rw [get_eq_entry hm (by omega), hnew]
    exact not_or.mpr ⟨not_not.mpr rfl, hindex⟩
  have hvalid : revision ≠ noRevision := by
    unfold noRevision
    omega
  unfold setRevisionIndex
  rw [if_neg hassert, if_neg hvalid]
  by_cases hnil : m.indices = []
  · rw [if_pos hnil]
    refine ⟨_, rfl, ?_, ?_⟩
    · unfold Fits
      rw [hnil]
      dsimp only [List.nil_append, List.length_singleton]
      omega
    · have hempty : m.entry = entry ⟨revision, []⟩ := by
        funext r
        unfold entry
        rw [hnil]
        simp
      rw [hnil, hempty]
      exact entry_push revision [] index
  rw [if_neg hnil]
  have hlast : m.getLastRevision = m.firstRevision + m.indices.length := addU_of_lt hm
  rw [hlast]
  by_cases hend : revision = m.firstRevision + m.indices.length
  · rw [if_pos hend]
    refine ⟨_, rfl, ?_, ?_⟩
    · unfold Fits
      rw [List.length_append, List.length_singleton]
      dsimp only
      omega
    · rw [hend]
      exact entry_push _ _ _
  · rw [if_neg hend]
    obtain ⟨hfits, hentry, hle, hroom⟩ := grow_spec hm hrevision
    have hsub : subU revision (m.grow revision).firstRevision =
        revision - (m.grow revision).firstRevision := subU_of_le hle (by omega)
    dsimp only
    rw [hsub, if_pos (hroom hnil)]
    refine ⟨_, rfl, ?_, ?_⟩
    · unfold Fits at hfits ⊢
      rw [List.length_set]
      exact hfits
    · rw [entry_set (hroom hnil), hentry, Nat.add_sub_cancel' hle]

end Entry

/-! ### The searches -/

section Searches

variable {m : CRevisionIndex}

/-- The first revision with an entry is the smallest one. -/
theorem getFirstCachedRevision_isLeast (hm : m.Fits) (h : ∃ revision, m.entry revision ≠ ⊤) :
    IsLeast {revision | m.entry revision ≠ ⊤} m.getFirstCachedRevision := by
  obtain ⟨revision, hrevision⟩ := h
  unfold getFirstCachedRevision
  cases hfind : m.indices.findIdx? (· ≠ ⊤) with
  | none =>
    obtain ⟨i, hi, rfl⟩ := range_of_entry hrevision
    have htop := List.findIdx?_eq_none_iff.mp hfind m.indices[i] (List.getElem_mem hi)
    rw [entry_getElem? (List.getElem?_eq_getElem hi)] at hrevision
    exact absurd (decide_eq_true hrevision) (Bool.eq_false_iff.mp htop)
  | some i =>
    obtain ⟨hi, hfound, hbefore⟩ := List.findIdx?_eq_some_iff_getElem.mp hfind
    have hadd : addU m.firstRevision i = m.firstRevision + i :=
      addU_of_lt (lt_trans (Nat.add_lt_add_left hi _) hm)
    dsimp only
    rw [hadd]
    constructor
    · show m.entry (m.firstRevision + i) ≠ ⊤
      rw [entry_getElem? (List.getElem?_eq_getElem hi)]
      exact of_decide_eq_true hfound
    · intro r hr
      obtain ⟨j, hj, rfl⟩ := range_of_entry hr
      refine Nat.add_le_add_left (not_lt.mp fun hji => ?_) _
      have hr' : m.entry (m.firstRevision + j) ≠ ⊤ := hr
      rw [entry_getElem? (List.getElem?_eq_getElem hj)] at hr'
      exact hbefore j hji (decide_eq_true hr')

/-- The last revision with an entry is the one before the one that is found. -/
theorem getLastCachedRevision_isGreatest (hm : m.Fits) (h : ∃ revision, m.entry revision ≠ ⊤) :
    ∃ revision, IsGreatest {revision | m.entry revision ≠ ⊤} revision ∧
      m.getLastCachedRevision = revision + 1 := by
  obtain ⟨revision, hrevision⟩ := h
  unfold getLastCachedRevision
  have hentry : ∀ j (hj : j < m.indices.length), m.indices.reverse[j]? =
      some (m.entry (m.firstRevision + (m.indices.length - 1 - j))) := by
    intro j hj
    have hj' : m.indices.length - 1 - j < m.indices.length := by omega
    rw [List.getElem?_reverse hj, entry_getElem? (List.getElem?_eq_getElem hj'),
      List.getElem?_eq_getElem hj']
  cases hfind : m.indices.reverse.findIdx? (· ≠ ⊤) with
  | none =>
    obtain ⟨i, hi, rfl⟩ := range_of_entry hrevision
    have htop := List.findIdx?_eq_none_iff.mp hfind m.indices[i]
      (List.mem_reverse.mpr (List.getElem_mem hi))
    rw [entry_getElem? (List.getElem?_eq_getElem hi)] at hrevision
    exact absurd (decide_eq_true hrevision) (Bool.eq_false_iff.mp htop)
  | some i =>
    obtain ⟨hi, hfound, hbefore⟩ := List.findIdx?_eq_some_iff_getElem.mp hfind
    have hi' : i < m.indices.length := by rwa [List.length_reverse] at hi
    have hget : ∀ j (hj : j < m.indices.reverse.length), m.indices.reverse[j] =
        m.entry (m.firstRevision + (m.indices.length - 1 - j)) := by
      intro j hj
      have hsome := hentry j (by rwa [List.length_reverse] at hj)
      rwa [List.getElem?_eq_getElem hj, Option.some.injEq] at hsome
    unfold Fits at hm
    have hadd : addU m.firstRevision (m.indices.length - i) =
        m.firstRevision + (m.indices.length - i) := addU_of_lt (by omega)
    refine ⟨m.firstRevision + (m.indices.length - 1 - i), ⟨?_, ?_⟩, ?_⟩
    · show m.entry _ ≠ ⊤
      rw [← hget i hi]
      exact of_decide_eq_true hfound
    · intro r hr
      obtain ⟨j, hj, rfl⟩ := range_of_entry hr
      refine Nat.add_le_add_left (not_lt.mp fun hij => ?_) _
      have hj' : m.indices.length - 1 - j < m.indices.reverse.length := by
        rw [List.length_reverse]
        omega
      have hback : m.indices.length - 1 - (m.indices.length - 1 - j) = j := by omega
      refine hbefore (m.indices.length - 1 - j) (by omega) (decide_eq_true ?_)
      rw [hget _ hj', hback]
      exact hr
    · dsimp only
      rw [hadd]
      omega

/-- The search for a missing revision finds the first one, unless it starts beyond the end. -/
theorem getFirstMissingRevision_isLeast_iff (hm : m.Fits) {start : ℕ} :
    IsLeast {revision | start ≤ revision ∧ m.entry revision = ⊤} (m.getFirstMissingRevision start) ↔
      m.indices = [] ∨ start ≤ m.getLastRevision := by
  have hlast : m.getLastRevision = m.firstRevision + m.indices.length := addU_of_lt hm
  have hstart : m.entry start = ⊤ →
      IsLeast {revision | start ≤ revision ∧ m.entry revision = ⊤} start :=
    fun htop => ⟨⟨le_rfl, htop⟩, fun _ hr => hr.1⟩
  unfold getFirstMissingRevision
  by_cases hnil : m.indices = []
  · rw [if_pos hnil]
    refine iff_of_true (hstart (not_not.mp fun hentry => ?_)) (.inl hnil)
    obtain ⟨i, hi, -⟩ := range_of_entry hentry
    rw [hnil] at hi
    exact absurd hi (Nat.not_lt_zero i)
  rw [if_neg hnil, or_iff_right hnil, hlast]
  by_cases hbefore : start < m.firstRevision
  · rw [if_pos hbefore]
    exact iff_of_true (hstart (entry_of_lt hbefore)) (hbefore.le.trans (Nat.le_add_right _ _))
  rw [if_neg hbefore]
  obtain ⟨first, rfl⟩ := Nat.exists_eq_add_of_le (not_lt.mp hbefore)
  dsimp only
  rw [Nat.add_sub_cancel_left]
  cases hfind : (m.indices.drop first).findIdx? (· = ⊤) with
  | none =>
    have hgap : ∀ j, first ≤ j → j < m.indices.length → m.entry (m.firstRevision + j) ≠ ⊤ := by
      intro j hfirst hj
      rw [entry_getElem? (List.getElem?_eq_getElem hj)]
      refine of_decide_eq_false (List.findIdx?_eq_none_iff.mp hfind _ ?_)
      exact List.mem_drop_iff_getElem.mpr ⟨j - first, by omega, by congr 1; omega⟩
    have hend : addU m.firstRevision m.indices.length = m.firstRevision + m.indices.length := hlast
    dsimp only
    rw [hend]
    refine ⟨fun h => h.1.1, fun hle => ⟨⟨hle, entry_of_end_le le_rfl⟩, ?_⟩⟩
    rintro r ⟨hr, htop⟩
    refine not_lt.mp fun hlt => ?_
    obtain ⟨j, rfl⟩ := Nat.exists_eq_add_of_le ((Nat.le_add_right _ first).trans hr)
    exact hgap j (Nat.le_of_add_le_add_left hr) (Nat.lt_of_add_lt_add_left hlt) htop
  | some i =>
    obtain ⟨hi, hfound, hgap⟩ := List.findIdx?_eq_some_iff_getElem.mp hfind
    rw [List.length_drop] at hi
    unfold Fits at hm
    have hadd : addU m.firstRevision (first + i) = m.firstRevision + (first + i) :=
      addU_of_lt (by omega)
    dsimp only
    rw [hadd]
    refine iff_of_true ⟨⟨by omega, ?_⟩, ?_⟩ (by omega)
    · have hlt : first + i < m.indices.length := by omega
      rw [entry_getElem? (List.getElem?_eq_getElem hlt)]
      rw [List.getElem_drop] at hfound
      exact of_decide_eq_true hfound
    · rintro r ⟨hr, htop⟩
      refine not_lt.mp fun hlt => ?_
      obtain ⟨j, rfl⟩ := Nat.exists_eq_add_of_le hr
      have hj : first + j < m.indices.length := by omega
      rw [Nat.add_assoc, entry_getElem? (List.getElem?_eq_getElem hj)] at htop
      refine hgap j (by omega) ?_
      rw [List.getElem_drop]
      exact decide_eq_true htop

end Searches

/-! ### Runs -/

/-- The revisions of some calls. -/
def revisions (calls : List (ℕ × Index)) : List ℕ := calls.map Prod.fst

/-- Calls with distinct revisions that are not too large, and with an index each. -/
structure Proper (calls : List (ℕ × Index)) : Prop where
  nodup : (revisions calls).Nodup
  revision_lt : ∀ call ∈ calls, call.1 < noRevision - 2 ^ 31
  index_ne : ∀ call ∈ calls, call.2 ≠ ⊤

/-- The index after some calls. -/
structure Holds (m : CRevisionIndex) (calls : List (ℕ × Index)) : Prop where
  fits : m.Fits
  cached : ∀ call ∈ calls, m.entry call.1 = call.2
  other : ∀ revision, revision ∉ revisions calls → m.entry revision = ⊤

/-- The answers of the index are those of the finite map of the calls. -/
structure Answers (m : CRevisionIndex) (calls : List (ℕ × Index)) : Prop where
  get_cached : ∀ call ∈ calls, m.get call.1 = call.2
  get_other : ∀ revision < 2 ^ 32, revision ∉ revisions calls → m.get revision = ⊤
  first : calls ≠ [] → IsLeast {revision | revision ∈ revisions calls} m.getFirstCachedRevision
  last : calls ≠ [] → ∃ revision, IsGreatest {revision | revision ∈ revisions calls} revision ∧
    m.getLastCachedRevision = revision + 1

/-- The search for a missing revision finds the first one. -/
def FindsMissing (m : CRevisionIndex) (calls : List (ℕ × Index)) (start : ℕ) : Prop :=
  IsLeast {revision | start ≤ revision ∧ revision ∉ revisions calls}
    (m.getFirstMissingRevision start)

section Runs

variable {m : CRevisionIndex} {calls done : List (ℕ × Index)}

theorem Holds.init : Holds init [] where
  fits := by
    unfold Fits
    decide
  cached := fun _ h => absurd h List.not_mem_nil
  other := fun _ _ => by
    unfold entry
    split <;> rfl

/-- The revisions with an entry are those of the calls. -/
theorem Holds.entry_ne_iff (h : Holds m calls) (hcalls : Proper calls) (revision : ℕ) :
    m.entry revision ≠ ⊤ ↔ revision ∈ revisions calls := by
  refine ⟨fun hentry => not_not.mp fun hnot => hentry (h.other revision hnot), fun hmem => ?_⟩
  obtain ⟨call, hcall, rfl⟩ := List.mem_map.mp hmem
  rw [h.cached call hcall]
  exact hcalls.index_ne call hcall

/-- A step: one more call. -/
theorem Holds.setRevisionIndex (h : Holds m done) {call : ℕ × Index}
    (hcalls : Proper (done ++ [call])) :
    ∃ m', m.setRevisionIndex call.1 call.2 = .ok m' ∧ Holds m' (done ++ [call]) := by
  have hmem : call ∈ done ++ [call] := List.mem_append_right _ (List.mem_singleton_self _)
  have hnodup := hcalls.nodup
  rw [revisions, List.map_append, List.map_singleton] at hnodup
  have hnew : call.1 ∉ revisions done := fun hold =>
    (List.nodup_append.mp hnodup).2.2 _ hold _ (List.mem_singleton_self _) rfl
  obtain ⟨m', hset, hfits, hentry⟩ := setRevisionIndex_spec h.fits
    ((hcalls.revision_lt call hmem).trans (by decide))
    (hcalls.index_ne call hmem) (h.other _ hnew)
  refine ⟨m', hset, hfits, fun c hc => ?_, fun r hr => ?_⟩
  · rw [hentry]
    rcases List.mem_append.mp hc with hc | hc
    · have hne : c.1 ≠ call.1 := fun he => hnew (he ▸ List.mem_map_of_mem hc)
      rw [Function.update_of_ne hne]
      exact h.cached c hc
    · rw [List.mem_singleton.mp hc, Function.update_self]
  · rw [revisions, List.map_append, List.mem_append, not_or, List.map_singleton,
      List.mem_singleton] at hr
    rw [hentry, Function.update_of_ne hr.2]
    exact h.other r hr.1

/-- A run, from any index that holds the calls so far. -/
theorem Holds.foldlM (h : Holds m done) (hcalls : Proper (done ++ calls)) :
    ∃ m', calls.foldlM (fun m call => m.setRevisionIndex call.1 call.2) m = .ok m' ∧
      Holds m' (done ++ calls) := by
  induction calls generalizing m done with
  | nil => exact ⟨m, rfl, by rwa [List.append_nil]⟩
  | cons call calls ih =>
    have hsplit : done ++ call :: calls = done ++ [call] ++ calls := by
      rw [List.append_assoc, List.singleton_append]
    rw [hsplit] at hcalls ⊢
    have hfront : Proper (done ++ [call]) := by
      refine ⟨?_, fun c hc => hcalls.revision_lt c (List.mem_append_left _ hc), fun c hc =>
        hcalls.index_ne c (List.mem_append_left _ hc)⟩
      have hnodup := hcalls.nodup
      rw [revisions, List.map_append] at hnodup
      exact hnodup.of_append_left
    obtain ⟨m₁, hset, h₁⟩ := h.setRevisionIndex hfront
    obtain ⟨m', hrun, h'⟩ := ih h₁ hcalls
    refine ⟨m', ?_, h'⟩
    rw [List.foldlM_cons, hset]
    exact hrun

theorem Holds.answers (h : Holds m calls) (hcalls : Proper calls) : Answers m calls := by
  have hset : {revision | m.entry revision ≠ ⊤} = {revision | revision ∈ revisions calls} :=
    Set.ext (h.entry_ne_iff hcalls)
  have hexists : calls ≠ [] → ∃ revision, m.entry revision ≠ ⊤ := by
    intro hne
    obtain ⟨call, hcall⟩ := List.exists_mem_of_ne_nil calls hne
    exact ⟨call.1, (h.entry_ne_iff hcalls _).mpr (List.mem_map_of_mem hcall)⟩
  refine ⟨fun call hcall => ?_, fun revision hlt hnot => ?_, fun hne => ?_, fun hne => ?_⟩
  · have hlt := hcalls.revision_lt call hcall
    unfold noRevision at hlt
    rw [get_eq_entry h.fits (by omega), h.cached call hcall]
  · rw [get_eq_entry h.fits hlt, h.other revision hnot]
  · rw [← hset]
    exact getFirstCachedRevision_isLeast h.fits (hexists hne)
  · rw [← hset]
    exact getLastCachedRevision_isGreatest h.fits (hexists hne)

end Runs

/-- **The revision index is a finite map**, whatever the order in which it is filled. A missing
revision is found iff the index is empty or the search starts in its range or at its end. -/
theorem setRevisionIndices_spec {calls : List (ℕ × Index)} (hcalls : Proper calls) :
    ∃ m, setRevisionIndices calls = .ok m ∧ Answers m calls ∧
      ∀ start, FindsMissing m calls start ↔ m.indices = [] ∨ start ≤ m.getLastRevision := by
  obtain ⟨m, hrun, hholds⟩ := @Holds.foldlM init calls [] .init hcalls
  rw [List.nil_append] at hholds
  refine ⟨m, hrun, hholds.answers hcalls, fun start => ?_⟩
  have hset : {revision | start ≤ revision ∧ revision ∉ revisions calls} =
      {revision | start ≤ revision ∧ m.entry revision = ⊤} := by
    ext revision
    rw [Set.mem_ofPred_eq, Set.mem_ofPred_eq, ← hholds.entry_ne_iff hcalls, not_not]
  rw [FindsMissing, hset]
  exact getFirstMissingRevision_isLeast_iff hholds.fits

/-- Three revisions: the array grows at its lower end by one, and then at its upper end by two. -/
theorem setRevisionIndices_spec_three : ∃ m, setRevisionIndices [(5, (0 : ℕ)), (4, (1 : ℕ)),
    (7, (2 : ℕ))] = .ok m ∧ Answers m [(5, (0 : ℕ)), (4, (1 : ℕ)), (7, (2 : ℕ))] ∧
      ∀ start, FindsMissing m [(5, (0 : ℕ)), (4, (1 : ℕ)), (7, (2 : ℕ))] start ↔
        m.indices = [] ∨ start ≤ m.getLastRevision :=
  setRevisionIndices_spec ⟨by decide, by decide, by decide⟩

/-- With revision 5 only, the first missing revision from 7 on would be 6. -/
theorem getFirstMissingRevision_before_start : ¬ ∀ calls, Proper calls → ∀ start < 2 ^ 32,
    ∃ m, setRevisionIndices calls = .ok m ∧ Answers m calls ∧ FindsMissing m calls start := by
  intro h
  obtain ⟨m, hrun, -, hfinds⟩ := h [(5, (0 : ℕ))] ⟨by decide, by decide, by decide⟩ 7 (by decide)
  have hm : setRevisionIndices [(5, (0 : ℕ))] = .ok ⟨5, [(0 : ℕ)]⟩ := by decide
  obtain rfl := Except.ok.inj (hm.symm.trans hrun)
  have hle : 7 ≤ getFirstMissingRevision ⟨5, [(0 : ℕ)]⟩ 7 := hfinds.1.1
  exact absurd hle (by decide)

end CRevisionIndex

end TortoiseSvn.LogCache
