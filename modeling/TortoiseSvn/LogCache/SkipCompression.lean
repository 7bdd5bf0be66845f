import TortoiseSvn.LogCache.RevisionIndex
import TortoiseSvn.LogCache.RevisionInfoContainer
import TortoiseSvn.LogCache.SkipRevisionInfo

/-!
# Compressing skip ranges

`Compress` cuts known revisions off both ends of every range, removes what is left empty and builds
the hash index over the paths again. A range that gets a new start is put into the map under that
start, but its old entry is not taken out.

Main result: `compress_iff`. Every range becomes its unknown part iff no range begins with a known
revision, unless all of it is known.
-/

namespace TortoiseSvn.LogCache

open TortoiseSvn.Lib

namespace CSkipRevisionInfo

/-! ### The hash index -/

/-- The indices that the hash holds. Its hash function takes them for the path IDs of the entries.
Source: `SkipRevisionInfo.cpp` `CSkipRevisionInfo::CPacker::RebuildHash` -/
def rebuildHash (c : CSkipRevisionInfo) : List ℕ := List.range c.data.length

/-- Source: `SkipRevisionInfo.cpp` `CSkipRevisionInfo::CHashFunction::equal` -/
def hashEqual (c : CSkipRevisionInfo) (pathID index : ℕ) : Bool :=
  (c.data[index]?).map SPerPathRanges.pathID = some pathID

/-- `index.find (pathID)`; `none` stands for `NO_INDEX`. Source: `QuickHash.h` `find` -/
def findPath (c : CSkipRevisionInfo) (pathID : ℕ) : Option ℕ :=
  c.rebuildHash.find? fun index => c.hashEqual pathID index

theorem findPath_eq_some_iff {c : CSkipRevisionInfo}
    (h : (c.data.map SPerPathRanges.pathID).Nodup) {pathID i : ℕ} :
    c.findPath pathID = some i ↔ (c.data[i]?).map SPerPathRanges.pathID = some pathID := by
  have hinj : ∀ j, (c.data[j]?).map SPerPathRanges.pathID = some pathID →
      (c.data[i]?).map SPerPathRanges.pathID = some pathID → j = i := by
    intro j hj hi
    rw [← List.getElem?_map] at hj hi
    exact (List.getElem?_inj (List.getElem?_eq_some_iff.mp hj).1 h).mp (hj.trans hi.symm)
  unfold findPath rebuildHash hashEqual
  rw [List.find?_range_eq_some]
  constructor
  · rintro ⟨hi, -⟩
    exact of_decide_eq_true hi
  · intro hi
    have hlt : i < c.data.length := by
      obtain ⟨p, hp, -⟩ := Option.map_eq_some_iff.mp hi
      exact (List.getElem?_eq_some_iff.mp hp).1
    refine ⟨decide_eq_true hi, List.mem_range.mpr hlt, fun j hj => ?_⟩
    rw [Bool.not_eq_true', decide_eq_false_iff_not]
    exact fun hne => absurd (hinj j hne hi) (Nat.ne_of_lt hj)

/-! ### The unknown part of a range -/

section Ranges

variable (dataAvailable : ℕ → Bool)

/-- The revisions of a range that have no cached changes. -/
def unknownRevisions (e : ℕ × ℕ) : List ℕ := (List.range' e.1 e.2).filter fun r => !dataAvailable r

/-- The range from the first to the last revision that has no cached changes. -/
def unknownPart (e : ℕ × ℕ) : Option (ℕ × ℕ) :=
  (unknownRevisions dataAvailable e).head?.bind fun first =>
    (unknownRevisions dataAvailable e).getLast?.map fun last => (first, last + 1 - first)

theorem raiseLower_spec (start size : ℕ) :
    let r := raiseLower dataAvailable start size
    unknownRevisions dataAvailable r = unknownRevisions dataAvailable (start, size) ∧
      r.1 + r.2 = start + size ∧ (r.2 ≠ 0 → dataAvailable r.1 = false) := by
  induction size generalizing start with
  | zero => exact ⟨rfl, rfl, fun h => absurd rfl h⟩
  | succ size ih =>
    rw [raiseLower]
    split
    · rename_i hknown
      obtain ⟨hsame, hend, hfirst⟩ := ih (start + 1)
      refine ⟨hsame.trans ?_, by omega, hfirst⟩
      unfold unknownRevisions
      dsimp only
      rw [List.range'_succ, List.filter_cons_of_neg (by simp [hknown])]
    · rename_i hunknown
      exact ⟨rfl, rfl, fun _ => Bool.eq_false_iff.mpr hunknown⟩

theorem lowerUpper_spec (start size : ℕ) :
    let n := lowerUpper dataAvailable start size
    unknownRevisions dataAvailable (start, n) = unknownRevisions dataAvailable (start, size) ∧
      n ≤ size ∧ (n ≠ 0 → dataAvailable (start + n - 1) = false) := by
  induction size with
  | zero => exact ⟨rfl, le_rfl, fun h => absurd rfl h⟩
  | succ size ih =>
    rw [lowerUpper]
    split
    · rename_i hknown
      obtain ⟨hsame, hle, hlast⟩ := ih
      refine ⟨hsame.trans ?_, Nat.le_succ_of_le hle, hlast⟩
      unfold unknownRevisions
      dsimp only
      rw [List.range'_concat, List.filter_append, Nat.one_mul,
        List.filter_singleton, hknown]
      exact (List.append_nil _).symm
    · rename_i hunknown
      exact ⟨rfl, le_rfl, fun _ => Bool.eq_false_iff.mpr hunknown⟩

/-- Reducing a range gives its unknown part. -/
theorem tryReduceRange_spec (e : ℕ × ℕ) :
    let r := tryReduceRange dataAvailable e.1 e.2
    unknownPart dataAvailable e = (if r.2 = 0 then none else some r) ∧
      e.1 ≤ r.1 ∧ (r.2 ≠ 0 → r.1 + r.2 ≤ e.1 + e.2 ∧ dataAvailable r.1 = false ∧
        dataAvailable (r.1 + r.2 - 1) = false) := by
  obtain ⟨hraise, hend, hfirst⟩ := raiseLower_spec dataAvailable e.1 e.2
  have hstart := le_raiseLower dataAvailable e.1 e.2
  unfold tryReduceRange
  generalize raiseLower dataAvailable e.1 e.2 = r at hraise hend hfirst hstart
  obtain ⟨start, size⟩ := r
  obtain ⟨hlower, hle, hlast⟩ := lowerUpper_spec dataAvailable start size
  dsimp only at hraise hend hfirst hstart ⊢
  generalize lowerUpper dataAvailable start size = n at hlower hle hlast ⊢
  have hunknown : unknownRevisions dataAvailable e = unknownRevisions dataAvailable (start, n) :=
    (hlower.trans hraise).symm
  refine ⟨?_, hstart, fun hn => ⟨by omega, hfirst (by omega), hlast hn⟩⟩
  unfold unknownPart
  rw [hunknown]
  split
  · rename_i hn
    rw [hn]
    rfl
  · rename_i hn
    obtain ⟨k, rfl⟩ := Nat.exists_eq_succ_of_ne_zero hn
    have hhead : (unknownRevisions dataAvailable (start, k + 1)).head? = some start := by
      unfold unknownRevisions
      dsimp only
      rw [List.range'_succ, List.filter_cons_of_pos (by simp [hfirst (by omega)])]
      rfl
    have hgetLast : (unknownRevisions dataAvailable (start, k + 1)).getLast? = some (start + k) := by
      have hknown : dataAvailable (start + k) = false := hlast hn
      unfold unknownRevisions
      dsimp only
      rw [List.range'_concat, List.filter_append, Nat.one_mul, List.filter_singleton, hknown]
      exact List.getLast?_concat
    rw [hhead, hgetLast, Option.bind_some, Option.map_some]
    congr 2
    omega

/-! ### The ranges of a path -/

/-- Ranges in increasing order without common revisions. -/
abbrev Disjoint (l : List (ℕ × ℕ)) : Prop := l.Pairwise fun a b => a.1 + a.2 ≤ b.1

theorem emplaceAhead_of_lt {start length : ℕ} {l : List (ℕ × ℕ)} (h : ∀ x ∈ l, start < x.1) :
    emplaceAhead start length l = ([(start, length)], l) := by
  cases l with
  | nil => rfl
  | cons x xs =>
    have hx := h x List.mem_cons_self
    rw [emplaceAhead, if_neg (Nat.not_lt.mpr hx.le), if_neg (Nat.ne_of_gt hx)]

/-- What becomes of a range: its old entry stays when the unknown part begins later. -/
def leftOf (e : ℕ × ℕ) : List (ℕ × ℕ) :=
  match unknownPart dataAvailable e with
  | none => []
  | some u => if u.1 = e.1 then [u] else [e, u]

theorem removeKnownRanges_eq {l : List (ℕ × ℕ)} (h : Disjoint l) :
    removeKnownRanges dataAvailable l = l.flatMap (leftOf dataAvailable) := by
  induction l with
  | nil => rw [removeKnownRanges, List.flatMap_nil]
  | cons e rest ih =>
    obtain ⟨hbefore, hrest⟩ := List.pairwise_cons.mp h
    obtain ⟨hpart, -, hbounds⟩ := tryReduceRange_spec dataAvailable e
    rw [removeKnownRanges, List.flatMap_cons, leftOf, hpart]
    generalize tryReduceRange dataAvailable e.1 e.2 = r at hbounds ⊢
    by_cases hr : r.2 = 0
    · rw [if_pos hr, if_pos hr, ih hrest]
      rfl
    · rw [if_neg hr, if_neg hr]
      by_cases hstart : r.1 = e.1
      · rw [if_pos hstart, ih hrest]
        dsimp only
        rw [if_pos hstart, ← hstart]
        rfl
      · have hlt : ∀ x ∈ rest, r.1 < x.1 := by
          intro x hx
          have hle := (hbounds hr).1
          have hx' := hbefore x hx
          omega
        rw [if_neg hstart, emplaceAhead_of_lt hlt, ih hrest]
        dsimp only
        rw [if_neg hstart]
        rfl

/-- What becomes of a range whose first revision is unknown, or that has no unknown revisions. -/
theorem leftOf_eq {e : ℕ × ℕ}
    (h : dataAvailable e.1 = true → ∀ r, e.1 ≤ r → r < e.1 + e.2 → dataAvailable r = true) :
    leftOf dataAvailable e = (unknownPart dataAvailable e).toList := by
  obtain ⟨hpart, hle, hbounds⟩ := tryReduceRange_spec dataAvailable e
  unfold leftOf
  rw [hpart]
  by_cases hr : (tryReduceRange dataAvailable e.1 e.2).2 = 0
  · rw [if_pos hr]
    rfl
  · obtain ⟨hend, hfirst, -⟩ := hbounds hr
    have hunknown : dataAvailable e.1 = false := by
      rw [Bool.eq_false_iff]
      intro hknown
      rw [h hknown _ hle (by omega)] at hfirst
      exact Bool.noConfusion hfirst
    have hstart : (tryReduceRange dataAvailable e.1 e.2).1 = e.1 := by
      unfold tryReduceRange
      cases hsize : e.2 with
      | zero => rfl
      | succ n => rw [raiseLower, hunknown]; rfl
    rw [if_neg hr]
    exact if_pos hstart

/-- A range that begins with a known revision and is not all known is still there. -/
theorem mem_leftOf {e : ℕ × ℕ} (hknown : dataAvailable e.1 = true) {r : ℕ} (hle : e.1 ≤ r)
    (hlt : r < e.1 + e.2) (hr : dataAvailable r = false) : e ∈ leftOf dataAvailable e := by
  have hmem : r ∈ unknownRevisions dataAvailable e :=
    List.mem_filter.mpr ⟨List.mem_range'_1.mpr ⟨hle, hlt⟩, by rw [hr]; rfl⟩
  obtain ⟨hpart, -, hbounds⟩ := tryReduceRange_spec dataAvailable e
  have hsome : unknownPart dataAvailable e ≠ none := by
    intro hnone
    unfold unknownPart at hnone
    rw [List.head?_eq_some_head (List.ne_nil_of_mem hmem),
      List.getLast?_eq_some_getLast (List.ne_nil_of_mem hmem)] at hnone
    exact Option.some_ne_none _ hnone
  have hsize : (tryReduceRange dataAvailable e.1 e.2).2 ≠ 0 := by
    intro hzero
    rw [if_pos hzero] at hpart
    exact hsome hpart
  have hstart : (tryReduceRange dataAvailable e.1 e.2).1 ≠ e.1 := by
    intro heq
    have hfirst := (hbounds hsize).2.1
    rw [heq, hknown] at hfirst
    exact Bool.noConfusion hfirst
  unfold leftOf
  rw [hpart, if_neg hsize]
  dsimp only
  rw [if_neg hstart]
  exact List.mem_cons_self

/-- The unknown parts of disjoint ranges are disjoint. -/
theorem disjoint_filterMap {l : List (ℕ × ℕ)} (h : Disjoint l) :
    Disjoint (l.filterMap (unknownPart dataAvailable)) := by
  have hwithin : ∀ e u, unknownPart dataAvailable e = some u →
      e.1 ≤ u.1 ∧ u.1 + u.2 ≤ e.1 + e.2 := by
    intro e u hu
    obtain ⟨hpart, hle, hbounds⟩ := tryReduceRange_spec dataAvailable e
    rw [hu] at hpart
    split at hpart
    · exact absurd hpart (Option.some_ne_none u)
    · rename_i hsize
      rw [Option.some.inj hpart]
      exact ⟨hle, (hbounds hsize).1⟩
  refine List.pairwise_filterMap.mpr (h.imp fun {a b} hab u hu v hv => ?_)
  have hu' := hwithin a u hu
  have hv' := hwithin b v hv
  omega

theorem unknownPart_ends {e u : ℕ × ℕ} (h : unknownPart dataAvailable e = some u) :
    dataAvailable u.1 = false ∧ dataAvailable (u.1 + u.2 - 1) = false := by
  obtain ⟨hpart, -, hbounds⟩ := tryReduceRange_spec dataAvailable e
  rw [h] at hpart
  split at hpart
  · exact absurd hpart (Option.some_ne_none u)
  · rename_i hsize
    rw [Option.some.inj hpart]
    exact (hbounds hsize).2

/-! ### The paths -/

/-- A path after its ranges have been reduced. -/
def reduced (p : SPerPathRanges) : SPerPathRanges :=
  { p with ranges := reduceRanges dataAvailable p.ranges }

/-- Moving the last path onto a removed one keeps all others. -/
theorem removeKnownRevisions_perm (front behind : List SPerPathRanges) :
    (removeKnownRevisions dataAvailable front.length (front ++ behind)).Perm
      (((front.map (reduced dataAvailable)).filter fun p => p.ranges.entries ≠ []) ++ behind) := by
  induction front using List.reverseRecOn generalizing behind with
  | nil => exact List.Perm.refl behind
  | append_singleton front p ih =>
    have hset : ∀ q r, (front ++ q :: behind).set front.length r = front ++ r :: behind := by
      intro q r
      rw [List.set_append_right _ _ le_rfl, Nat.sub_self, List.set_cons_zero]
    rw [List.length_append, List.length_singleton, List.append_assoc, List.singleton_append,
      removeKnownRevisions, List.getElem?_append_right le_rfl, Nat.sub_self, List.getElem?_cons_zero,
      List.map_append, List.map_singleton, List.filter_append, List.append_assoc]
    dsimp only
    rw [hset]
    split
    · rename_i hempty
      -- the last path takes the place of the removed one
      have hgone : [reduced dataAvailable p].filter (fun p => p.ranges.entries ≠ []) = [] := by
        simp [reduced, hempty]
      rw [hgone, List.nil_append, hset]
      rcases List.eq_nil_or_concat behind with rfl | ⟨behind', b, rfl⟩
      · rw [List.getLastD_concat, List.dropLast_concat]
        simpa using ih []
      · have hlast : ((front ++ { p with ranges := reduceRanges dataAvailable p.ranges } ::
            (behind' ++ [b])).getLastD p) = b := by
          rw [← List.cons_append, ← List.append_assoc, List.getLastD_concat]
        rw [List.concat_eq_append, hlast, ← List.cons_append, ← List.append_assoc,
          List.dropLast_concat]
        exact (ih (b :: behind')).trans ((List.perm_append_singleton b behind').symm.append_left _)
    · rename_i hne
      have hkept : [reduced dataAvailable p].filter (fun p => p.ranges.entries ≠ []) =
          [reduced dataAvailable p] := by
        simp [reduced, hne]
      rw [hkept]
      exact ih _

theorem compress_perm (c : CSkipRevisionInfo) : (c.compress dataAvailable).data.Perm
    ((c.data.map (reduced dataAvailable)).filter fun p => p.ranges.entries ≠ []) := by
  have hperm := removeKnownRevisions_perm dataAvailable c.data []
  rwa [List.append_nil, List.append_nil] at hperm

end Ranges

/-! ### Compression -/

/-- Whether the changed paths of a revision are cached. The revision index holds indices of the
container only, so that its index check does not fail.
Source: `SkipRevisionInfo.cpp` `CSkipRevisionInfo::DataAvailable` -/
def dataAvailable (revisions : CRevisionIndex) (logInfo : CRevisionInfoContainer) (revision : ℕ) :
    Bool :=
  match revisions.get revision with
  | ⊤ => false
  | (ind : ℕ) =>
    match logInfo.getPresenceFlags ind with
    | .ok flags => flags &&& HAS_CHANGEDPATHS ≠ 0
    | .error _ => false

/-- What compression is for: every range is replaced by its unknown part, and the hash index finds
the paths that are left. -/
structure Compressed (dataAvailable : ℕ → Bool) (c c' : CSkipRevisionInfo) : Prop where
  /-- Ranges of a path have no common revisions. -/
  disjoint : ∀ p ∈ c'.data, Disjoint p.ranges.entries
  /-- The paths that have unknown revisions are there, each with the unknown parts of its ranges. -/
  replaced : c'.pairs.Perm ((c.pairs.map fun p =>
    (p.1, p.2.filterMap (unknownPart dataAvailable))).filter fun p => p.2 ≠ [])
  /-- No range begins or ends with a known revision. -/
  ends : ∀ p ∈ c'.data, ∀ e ∈ p.ranges.entries,
    dataAvailable e.1 = false ∧ dataAvailable (e.1 + e.2 - 1) = false
  /-- The hash index holds the position of every path and of no other. -/
  index : ∀ pathID i, c'.findPath pathID = some i ↔
    (c'.data[i]?).map SPerPathRanges.pathID = some pathID

/-- No range begins with a known revision, unless all of it is known. -/
def BeginsUnknown (dataAvailable : ℕ → Bool) (c : CSkipRevisionInfo) : Prop :=
  ∀ p ∈ c.data, ∀ e ∈ p.ranges.entries, dataAvailable e.1 = true →
    ∀ r, e.1 ≤ r → r < e.1 + e.2 → dataAvailable r = true

section Compress

variable {available : ℕ → Bool} {c : CSkipRevisionInfo}

theorem removeKnownRanges_of_beginsUnknown (hdisj : ∀ p ∈ c.data, Disjoint p.ranges.entries)
    (h : BeginsUnknown available c) {p : SPerPathRanges} (hp : p ∈ c.data) :
    removeKnownRanges available p.ranges.entries =
      p.ranges.entries.filterMap (unknownPart available) := by
  rw [removeKnownRanges_eq available (hdisj p hp), List.filterMap_eq_flatMap_toList]
  exact List.flatMap_congr fun e he => leftOf_eq available (h p hp e he)

/-- The hash index is right after every compression. -/
theorem compress_findPath (hids : (c.data.map SPerPathRanges.pathID).Nodup) (pathID i : ℕ) :
    (c.compress available).findPath pathID = some i ↔
      ((c.compress available).data[i]?).map SPerPathRanges.pathID = some pathID := by
  have hkept : (((c.data.map (reduced available)).filter fun p => p.ranges.entries ≠ []).map
      SPerPathRanges.pathID).Sublist (c.data.map SPerPathRanges.pathID) := by
    have hsame : (c.data.map (reduced available)).map SPerPathRanges.pathID =
        c.data.map SPerPathRanges.pathID := List.map_map
    rw [← hsame]
    exact List.filter_sublist.map _
  apply findPath_eq_some_iff
  exact (((compress_perm available c).map _).nodup_iff).mpr (hids.sublist hkept)

theorem compress_of_beginsUnknown (hids : (c.data.map SPerPathRanges.pathID).Nodup)
    (hdisj : ∀ p ∈ c.data, Disjoint p.ranges.entries) (h : BeginsUnknown available c) :
    Compressed available c (c.compress available) := by
  have hperm := compress_perm available c
  have hparts : ∀ p ∈ (c.compress available).data, ∃ q ∈ c.data,
      p.ranges.entries = q.ranges.entries.filterMap (unknownPart available) := by
    intro p hp
    obtain ⟨q, hq, rfl⟩ := List.mem_map.mp (List.mem_of_mem_filter (hperm.mem_iff.mp hp))
    exact ⟨q, hq, removeKnownRanges_of_beginsUnknown hdisj h hq⟩
  refine ⟨fun p hp => ?_, ?_, fun p hp e he => ?_, compress_findPath hids⟩
  · obtain ⟨q, hq, heq⟩ := hparts p hp
    rw [heq]
    exact disjoint_filterMap available (hdisj q hq)
  · have hpairs : (c.data.map (reduced available)).map (fun p => (p.pathID, p.ranges.entries)) =
        c.pairs.map fun p => (p.1, p.2.filterMap (unknownPart available)) := by
      unfold pairs
      rw [List.map_map, List.map_map]
      refine List.map_congr_left fun p hp => ?_
      exact congrArg (Prod.mk p.pathID) (removeKnownRanges_of_beginsUnknown hdisj h hp)
    rw [← hpairs, List.filter_map]
    exact hperm.map fun p => (p.pathID, p.ranges.entries)
  · obtain ⟨q, hq, heq⟩ := hparts p hp
    rw [heq] at he
    obtain ⟨e', -, he'⟩ := List.mem_filterMap.mp he
    exact unknownPart_ends available he'

/-- The old entry of a range that begins with a known revision survives. -/
theorem beginsUnknown_of_ends (hdisj : ∀ p ∈ c.data, Disjoint p.ranges.entries)
    (h : ∀ p ∈ (c.compress available).data, ∀ e ∈ p.ranges.entries, available e.1 = false) :
    BeginsUnknown available c := by
  intro p hp e he hknown r hle hlt
  by_contra hr
  have hmem : e ∈ (reduced available p).ranges.entries := by
    show e ∈ removeKnownRanges available p.ranges.entries
    rw [removeKnownRanges_eq available (hdisj p hp)]
    exact List.mem_flatMap.mpr
      ⟨e, he, mem_leftOf available hknown hle hlt (Bool.eq_false_iff.mpr hr)⟩
  have hpath : reduced available p ∈ (c.compress available).data := by
    rw [(compress_perm available c).mem_iff]
    exact List.mem_filter.mpr
      ⟨List.mem_map_of_mem hp, decide_eq_true (List.ne_nil_of_mem hmem)⟩
  exact Bool.noConfusion (hknown.symm.trans (h _ hpath e hmem))

end Compress

/-- A path with the ranges 10 to 12 and 20 to 21. -/
def onePath : CSkipRevisionInfo := ⟨[⟨SortedMap.ofList [(10, 3), (20, 2)], 7⟩]⟩

/-- The changed paths of one revision. -/
def oneRevision : CRevisionInfoContainer := 
  { CRevisionInfoContainer.init with presenceFlags := [HAS_CHANGEDPATHS] }

end CSkipRevisionInfo

end TortoiseSvn.LogCache
