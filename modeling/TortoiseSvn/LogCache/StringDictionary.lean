import TortoiseSvn.Lib.Pool
import TortoiseSvn.Lib.Segments
import TortoiseSvn.Streams.InStream

/-!
# The string dictionary

`CStringDictionary` keeps its strings back to back in one buffer, each with a terminator, and
their offsets in a table with one more entry for the end. The hash index finds the index of a
string.

`pack` builds the dictionary of a list of strings, and every operation on a packed dictionary is
the operation of a pool of unique strings (`find_pack`, `autoInsert_pack`, `merge_pack`). A
dictionary that was read from a stream has ordered offsets (`load_ok`).
-/

namespace TortoiseSvn.LogCache

open TortoiseSvn.Lib

/-- Source: `StringDictonary.h` `CStringDictionary` -/
@[ext] structure CStringDictionary where
  /-- The string data. -/
  packedStrings : List UInt8
  /-- Where each string begins, and the end of the data. -/
  offsets : List ℕ
  deriving DecidableEq

namespace CStringDictionary

/-- The empty string stands at index 0.
Source: `StringDictonary.cpp` `CStringDictionary::Initialize` -/
def init : CStringDictionary := ⟨[0], [0, 1]⟩

/-- Source: `StringDictonary.h` `CStringDictionary::size` -/
def size (d : CStringDictionary) : ℕ := d.offsets.length - 1

/-- `offsets[index]`. -/
def offset (d : CStringDictionary) (index : ℕ) : ℕ := d.offsets.getD index 0

/-- The C string at an index.
Source: `StringDictonary.cpp` `CStringDictionary::operator[]` -/
def get (d : CStringDictionary) (index : ℕ) : List UInt8 :=
  (d.packedStrings.drop (d.offset index)).takeWhile (· ≠ 0)

/-- Source: `StringDictonary.cpp` `CStringDictionary::GetLength` -/
def getLength (d : CStringDictionary) (index : ℕ) : ℕ :=
  d.offset (index + 1) - d.offset index - 1

/-- The characters that are copied.
Source: `StringDictonary.cpp` `CStringDictionary::CopyTo` -/
def copyTo (d : CStringDictionary) (index : ℕ) : List UInt8 :=
  (d.packedStrings.drop (d.offset index)).take (d.getLength index)

/-- The index of an equal string. Source: `StringDictonary.cpp` `CStringDictionary::Find` -/
def find (d : CStringDictionary) (string : List UInt8) : Option ℕ :=
  (List.range d.size).find? fun i => d.get i = string

/-- Offsets are counted in 32 bits; the exception of a buffer of that size is left out.
Source: `StringDictonary.cpp` `CStringDictionary::Insert` -/
def insert (d : CStringDictionary) (string : List UInt8) : CStringDictionary × ℕ :=
  let packedStrings := d.packedStrings ++ string ++ [0]
  (⟨packedStrings, d.offsets ++ [packedStrings.length]⟩, d.size)

/-- Source: `StringDictonary.cpp` `CStringDictionary::AutoInsert` -/
def autoInsert (d : CStringDictionary) (string : List UInt8) : CStringDictionary × ℕ :=
  match d.find string with
  | some index => (d, index)
  | none => d.insert string

/-- Source: `StringDictonary.cpp` `CStringDictionary::Clear` -/
def clear (_ : CStringDictionary) : CStringDictionary := init

/-- The loop of `Merge` over the indices of the source; the result maps the i-th of them.
Source: `StringDictonary.cpp` `CStringDictionary::Merge` -/
def mergeLoop (source : CStringDictionary) : List ℕ → CStringDictionary → CStringDictionary × List ℕ
  | [], d => (d, [])
  | i :: is, d =>
    let (d, index) := d.autoInsert (source.get i)
    let (d, indices) := mergeLoop source is d
    (d, index :: indices)

/-- Source: `StringDictonary.cpp` `CStringDictionary::Merge` -/
def merge (d source : CStringDictionary) : CStringDictionary × List ℕ :=
  mergeLoop source (List.range source.size) d

/-! ### Dictionaries of a list of strings -/

/-- The strings with their terminators, as they stand in the buffer. -/
def terminated (ws : List (List UInt8)) : List (List UInt8) := ws.map (· ++ [0])

/-- The dictionary that holds the strings `ws`. -/
def pack (ws : List (List UInt8)) : CStringDictionary :=
  ⟨(terminated ws).flatten, offsetsFrom 0 (terminated ws)⟩

/-- No string holds a terminator. -/
abbrev NulFree (ws : List (List UInt8)) : Prop := ∀ w ∈ ws, (0 : UInt8) ∉ w

theorem init_eq_pack : init = pack [[]] := rfl

@[simp] theorem terminated_length (ws : List (List UInt8)) :
    (terminated ws).length = ws.length := by
  simp [terminated]

theorem terminated_getElem? {ws : List (List UInt8)} {i : ℕ} {w : List UInt8} (h : ws[i]? = some w) :
    (terminated ws)[i]? = some (w ++ [0]) := by
  simp [terminated, h]

@[simp] theorem pack_size (ws : List (List UInt8)) : (pack ws).size = ws.length := by
  simp [pack, size]

theorem offset_pack (ws : List (List UInt8)) {i : ℕ} (hi : i ≤ ws.length) :
    (pack ws).offset i = offsetOf (terminated ws) i := by
  rw [offset, List.getD_eq_getElem?_getD, pack, offsetsFrom_getElem? (by simpa using hi)]
  simp

theorem drop_offset_pack (ws : List (List UInt8)) {i : ℕ} {w : List UInt8} (h : ws[i]? = some w) :
    (pack ws).packedStrings.drop ((pack ws).offset i) =
      w ++ 0 :: (terminated (ws.drop (i + 1))).flatten := by
  obtain ⟨hi, rfl⟩ := List.getElem?_eq_some_iff.mp h
  rw [offset_pack ws hi.le]
  unfold pack terminated
  rw [drop_offsetOf, ← List.map_drop, List.drop_eq_getElem_cons hi, List.map_cons,
    List.flatten_cons, List.append_assoc, List.singleton_append]

theorem get_pack {ws : List (List UInt8)} (hws : NulFree ws) {i : ℕ} {w : List UInt8}
    (h : ws[i]? = some w) : (pack ws).get i = w := by
  have hw : (0 : UInt8) ∉ w := hws w (List.mem_of_getElem? h)
  rw [get, drop_offset_pack ws h, List.takeWhile_append_of_pos]
  · simp
  · intro c hc
    have hc0 : c ≠ 0 := fun h0 => hw (by rwa [← h0])
    simpa using hc0

theorem getLength_pack {ws : List (List UInt8)} {i : ℕ} {w : List UInt8} (h : ws[i]? = some w) :
    (pack ws).getLength i = w.length := by
  have hi := (List.getElem?_eq_some_iff.mp h).1
  rw [getLength, offset_pack ws hi, offset_pack ws hi.le, offsetOf_succ (terminated_getElem? h),
    List.length_append, List.length_singleton]
  omega

theorem copyTo_pack {ws : List (List UInt8)} {i : ℕ} {w : List UInt8} (h : ws[i]? = some w) :
    (pack ws).copyTo i = w := by
  rw [copyTo, drop_offset_pack ws h, getLength_pack h, List.take_left]

theorem find_pack {ws : List (List UInt8)} (hws : NulFree ws) (s : List UInt8) :
    (pack ws).find s = Pool.find ws s := by
  have hget : ∀ i, i < ws.length → ∀ w, (pack ws).get i = w ↔ ws[i]? = some w := fun i hi w => by
    rw [List.getElem?_eq_getElem hi, get_pack hws (List.getElem?_eq_getElem hi), Option.some_inj]
  rw [find, pack_size]
  rcases hx : Pool.find ws s with _ | i
  · rw [List.find?_eq_none]
    intro i hi
    have hi' := List.mem_range.mp hi
    simpa [hget i hi'] using fun heq => Pool.find_eq_none.mp hx (List.mem_of_getElem? heq)
  · obtain ⟨hs, hlt⟩ := Pool.find_eq_some_iff.mp hx
    have hi := (List.getElem?_eq_some_iff.mp hs).1
    rw [List.find?_range_eq_some]
    refine ⟨by simpa [hget i hi] using hs, by simpa using hi, fun j hj => ?_⟩
    simpa [hget j (hj.trans hi)] using hlt j hj

theorem insert_pack (ws : List (List UInt8)) (s : List UInt8) :
    (pack ws).insert s = (pack (ws ++ [s]), ws.length) := by
  have hconcat : terminated (ws ++ [s]) = terminated ws ++ [s ++ [0]] := by simp [terminated]
  rw [insert, pack_size, pack, pack, hconcat, offsetsFrom_concat]
  simp

theorem autoInsert_pack {ws : List (List UInt8)} (hws : NulFree ws) (s : List UInt8) :
    (pack ws).autoInsert s = (pack (Pool.autoInsert ws s).1, (Pool.autoInsert ws s).2) := by
  rw [autoInsert, find_pack hws, Pool.autoInsert]
  rcases Pool.find ws s with _ | i
  · exact insert_pack ws s
  · rfl

theorem NulFree.autoInsert {ws : List (List UInt8)} (hws : NulFree ws) {s : List UInt8}
    (hs : (0 : UInt8) ∉ s) : NulFree (Pool.autoInsert ws s).1 := by
  intro w hw
  rcases Pool.mem_autoInsert.mp hw with hw | rfl
  · exact hws w hw
  · exact hs

theorem mergeLoop_pack {ws src : List (List UInt8)} (hws : NulFree ws) (hsrc : NulFree src)
    (is : List ℕ) (his : ∀ i ∈ is, i < src.length) :
    mergeLoop (pack src) is (pack ws) =
      (pack (Pool.merge ws (is.map fun i => src.getD i [])).1,
        (Pool.merge ws (is.map fun i => src.getD i [])).2) := by
  induction is generalizing ws with
  | nil => rfl
  | cons i is ih =>
    have hi : i < src.length := his i List.mem_cons_self
    have hget : (pack src).get i = src.getD i [] := by
      rw [get_pack hsrc (List.getElem?_eq_getElem hi), List.getD_eq_getElem?_getD,
        List.getElem?_eq_getElem hi, Option.getD_some]
    have hfree : (0 : UInt8) ∉ src.getD i [] := by
      rw [List.getD_eq_getElem?_getD, List.getElem?_eq_getElem hi, Option.getD_some]
      exact hsrc _ (List.getElem_mem hi)
    rw [mergeLoop, hget, autoInsert_pack hws]
    simp only [ih (hws.autoInsert hfree) fun j hj => his j (List.mem_cons_of_mem _ hj),
      List.map_cons, Pool.merge]

theorem merge_pack {ws src : List (List UInt8)} (hws : NulFree ws) (hsrc : NulFree src) :
    (pack ws).merge (pack src) = (pack (Pool.merge ws src).1, (Pool.merge ws src).2) := by
  have hmap : (List.range src.length).map (fun i => src.getD i []) = src := by
    refine List.ext_getElem (by simp) fun i h1 h2 => ?_
    simp [List.getD_eq_getElem?_getD, h2]
  rw [merge, pack_size, mergeLoop_pack hws hsrc _ (fun i hi => List.mem_range.mp hi), hmap]

/-! ### Dictionaries that grow -/

/-- A dictionary of unique strings. -/
def Unique (d : CStringDictionary) : Prop := ∃ ws, d = pack ws ∧ NulFree ws ∧ ws.Nodup

/-- All strings are still at their indices. -/
structure Extends (d d' : CStringDictionary) : Prop where
  size : d.size ≤ d'.size
  get : ∀ i < d.size, d'.get i = d.get i

theorem Unique.init : init.Unique := by
  refine ⟨[[]], init_eq_pack, fun w hw => ?_, List.nodup_singleton _⟩
  rw [List.mem_singleton.mp hw]
  exact List.not_mem_nil

theorem Extends.refl (d : CStringDictionary) : d.Extends d := ⟨le_rfl, fun _ _ => rfl⟩

theorem Extends.trans {d d' d'' : CStringDictionary} (h : d.Extends d') (h' : d'.Extends d'') :
    d.Extends d'' :=
  ⟨h.size.trans h'.size, fun i hi => (h'.get i (hi.trans_le h.size)).trans (h.get i hi)⟩

theorem extends_pack {ws ws' : List (List UInt8)} (hws : NulFree ws) (hws' : NulFree ws')
    (h : ws <+: ws') : (pack ws).Extends (pack ws') := by
  obtain ⟨rest, rfl⟩ := h
  refine ⟨by simp, fun i hi => ?_⟩
  rw [pack_size] at hi
  rw [get_pack hws (List.getElem?_eq_getElem hi), get_pack hws']
  rw [List.getElem?_append_left hi, List.getElem?_eq_getElem hi]

/-- Equal strings have one index. -/
theorem Unique.get_inj {d : CStringDictionary} (h : d.Unique) {i j : ℕ} (hi : i < d.size)
    (hj : j < d.size) (heq : d.get i = d.get j) : i = j := by
  obtain ⟨ws, rfl, hnul, hnodup⟩ := h
  rw [pack_size] at hi hj
  rw [get_pack hnul (List.getElem?_eq_getElem hi), get_pack hnul (List.getElem?_eq_getElem hj)] at heq
  exact (hnodup.getElem_inj_iff).mp heq

theorem Unique.nulFree_get {d : CStringDictionary} (h : d.Unique) {i : ℕ} (hi : i < d.size) :
    (0 : UInt8) ∉ d.get i := by
  obtain ⟨ws, rfl, hnul, -⟩ := h
  rw [pack_size] at hi
  rw [get_pack hnul (List.getElem?_eq_getElem hi)]
  exact hnul _ (List.getElem_mem hi)

theorem Unique.find {d : CStringDictionary} (h : d.Unique) {s : List UInt8} {i : ℕ}
    (hfind : d.find s = some i) : i < d.size ∧ d.get i = s := by
  obtain ⟨ws, rfl, hnul, -⟩ := h
  rw [find_pack hnul] at hfind
  have hget := Pool.getElem?_of_find hfind
  rw [pack_size]
  exact ⟨(List.getElem?_eq_some_iff.mp hget).1, get_pack hnul hget⟩

theorem Unique.autoInsert {d : CStringDictionary} (h : d.Unique) {s : List UInt8}
    (hs : (0 : UInt8) ∉ s) : (d.autoInsert s).1.Unique ∧ d.Extends (d.autoInsert s).1 ∧
      (d.autoInsert s).2 < (d.autoInsert s).1.size ∧
      (d.autoInsert s).1.get (d.autoInsert s).2 = s := by
  obtain ⟨ws, rfl, hnul, hnodup⟩ := h
  have hnul' := hnul.autoInsert hs
  have hget := Pool.autoInsert_getElem? ws s
  rw [autoInsert_pack hnul, pack_size]
  exact ⟨⟨_, rfl, hnul', Pool.autoInsert_nodup hnodup s⟩,
    extends_pack hnul hnul' (Pool.prefix_autoInsert ws s),
    (List.getElem?_eq_some_iff.mp hget).1, get_pack hnul' hget⟩

/-- Every string of the source gets an index in the merged dictionary. -/
theorem Unique.merge {d source : CStringDictionary} (h : d.Unique) (hs : source.Unique) :
    (d.merge source).1.Unique ∧ d.Extends (d.merge source).1 ∧
      ∀ i < source.size, ∃ j, (d.merge source).2[i]? = some j ∧ j < (d.merge source).1.size ∧
        (d.merge source).1.get j = source.get i := by
  obtain ⟨ws, rfl, hnul, hnodup⟩ := h
  obtain ⟨src, rfl, hnul', -⟩ := hs
  have hmerged : NulFree (Pool.merge ws src).1 := by
    intro w hw
    rcases Pool.mem_merge.mp hw with hw | hw
    · exact hnul w hw
    · exact hnul' w hw
  rw [merge_pack hnul hnul']
  refine ⟨⟨_, rfl, hmerged, Pool.merge_nodup hnodup src⟩,
    extends_pack hnul hmerged (Pool.prefix_merge ws src), fun i hi => ?_⟩
  rw [pack_size] at hi
  have hlt : i < (Pool.merge ws src).2.length := by
    rw [Pool.merge_length]
    exact hi
  have hj := List.getElem?_eq_getElem hlt
  have hget := Pool.merge_getElem? ws src hj
  rw [List.getElem?_eq_getElem hi] at hget
  refine ⟨_, hj, ?_, ?_⟩
  · rw [pack_size]
    exact (List.getElem?_eq_some_iff.mp hget).1
  · rw [get_pack hmerged hget, get_pack hnul' (List.getElem?_eq_getElem hi)]

/-! ### Reading -/

/-- `sizeof (size_t)` of the 64-bit build: the buffer is kept that much larger than its content. -/
def chunkSize : ℕ := 8

/-- The loop over the strings: the offsets written so far, and whether every string had its
terminator. Source: `StringDictonary.cpp` `CStringDictionary::RebuildIndexes` -/
def rebuildOffsets (packedStrings : List UInt8) : ℕ → ℕ → List ℕ × Except Fault Unit
  | 0, _ => ([], .ok ())
  | n + 1, offset =>
    let len := ((packedStrings.drop offset).takeWhile (· ≠ 0)).length
    if packedStrings.length < offset + (len + 1) then
      ([offset], .error (.containerException "missing nul terminator in string dictionary"))
    else
      let rest := rebuildOffsets packedStrings n (offset + (len + 1))
      (offset :: rest.1, rest.2)

/-- With an empty table, the loop bound `offsets.size()-1` wraps.
Source: `StringDictonary.cpp` `CStringDictionary::RebuildIndexes` -/
def rebuildIndexes : LoadM CStringDictionary Unit := fun d =>
  if d.offsets = [] then (.error .undefined, d)
  else
    let rest := rebuildOffsets d.packedStrings d.size 0
    match rest.2 with
    | .error e => (.error e, ⟨d.packedStrings, rest.1 ++ d.offsets.drop rest.1.length⟩)
    | .ok _ => (.ok (), ⟨d.packedStrings, rest.1 ++ [d.packedStrings.length]⟩)

/-- The stored offsets are not read, only their number is.
Source: `StringDictonary.cpp` `operator>>` -/
def load (s : InStream) : LoadM CStringDictionary Unit := do
  let packedStringStream ← Trial.lift (s.getSubStreamAs 1 .blob)
  Trial.require (packedStringStream.content.length < noIndex)
    (.containerException "data stream to large")
  Trial.modify fun d => { d with packedStrings := packedStringStream.content }
  let offsetsStream ← Trial.lift (s.getSubStreamAs 2 .diffDWORD)
  let (offsetCount, _) ← Trial.lift (CPackedDWORDInStream.getSizeValue ⟨offsetsStream.content, 0, 0⟩)
  Trial.modify fun d => { d with offsets := resize offsetCount 0 d.offsets }
  rebuildIndexes

/-- Every string of the table lies inside the buffer. -/
structure Ordered (d : CStringDictionary) : Prop where
  nonempty : d.offsets ≠ []
  lt : ∀ i < d.size, d.offset i < d.offset (i + 1)
  le : ∀ i ≤ d.size, d.offset i ≤ d.packedStrings.length

theorem Unique.ordered {d : CStringDictionary} (h : d.Unique) : d.Ordered := by
  obtain ⟨ws, rfl, -, -⟩ := h
  refine ⟨?_, fun i hi => ?_, fun i hi => ?_⟩
  · apply List.ne_nil_of_length_pos
    rw [pack, offsetsFrom_length]
    exact Nat.succ_pos _
  · rw [pack_size] at hi
    have hstep := offsetOf_succ (terminated_getElem? (List.getElem?_eq_getElem hi))
    rw [offset_pack ws hi.le, offset_pack ws hi, hstep, List.length_append, List.length_singleton]
    omega
  · rw [pack_size] at hi
    rw [offset_pack ws hi]
    exact offsetOf_le _ _

/-- Without terminators in the strings, all characters are copied. -/
theorem Unique.copyTo {d : CStringDictionary} (h : d.Unique) {i : ℕ} (hi : i < d.size) :
    d.copyTo i = d.get i := by
  obtain ⟨ws, rfl, hnul, -⟩ := h
  rw [pack_size] at hi
  rw [copyTo_pack (List.getElem?_eq_getElem hi), get_pack hnul (List.getElem?_eq_getElem hi)]

theorem rebuildOffsets_ok {packed : List UInt8} {n start : ℕ} {os : List ℕ}
    (h : rebuildOffsets packed n start = (os, .ok ())) (hstart : start ≤ packed.length) :
    os.length = n ∧ (os ++ [packed.length]).Pairwise (· < ·) ∧
      ∀ x ∈ os ++ [packed.length], start ≤ x ∧ x ≤ packed.length := by
  induction n generalizing start os with
  | zero =>
    obtain ⟨rfl, -⟩ := Prod.mk.inj h
    simp [hstart]
  | succ n ih =>
    rw [rebuildOffsets] at h
    dsimp only at h
    split at h
    · simp at h
    · rename_i hle
      obtain ⟨rfl, hrest⟩ := Prod.mk.inj h
      obtain ⟨hlen, hpair, hmem⟩ := ih (Prod.ext rfl hrest) (by omega)
      refine ⟨by rw [List.length_cons, hlen], List.pairwise_cons.mpr ⟨fun x hx => ?_, hpair⟩, fun x hx => ?_⟩
      · have := (hmem x hx).1
        omega
      · rcases List.mem_cons.mp hx with rfl | hx
        · exact ⟨le_rfl, hstart⟩
        · have := hmem x hx
          omega

theorem Ordered.of_pairwise {d : CStringDictionary} (hne : d.offsets ≠ [])
    (hpair : d.offsets.Pairwise (· < ·)) (hle : ∀ x ∈ d.offsets, x ≤ d.packedStrings.length) :
    d.Ordered := by
  have hpos : 0 < d.offsets.length := List.length_pos_iff.mpr hne
  have hget : ∀ i (hi : i < d.offsets.length), d.offset i = d.offsets.get ⟨i, hi⟩ := by
    intro i hi
    rw [offset, List.getD_eq_getElem?_getD, List.getElem?_eq_getElem hi]
    rfl
  refine ⟨hne, fun i hi => ?_, fun i hi => ?_⟩
  · have hi' : i + 1 < d.offsets.length := by
      unfold size at hi
      omega
    rw [hget i (by omega), hget (i + 1) hi']
    exact List.pairwise_iff_getElem.mp hpair _ _ _ _ (Nat.lt_succ_self i)
  · have hi' : i < d.offsets.length := by
      unfold size at hi
      omega
    rw [hget i hi']
    exact hle _ (List.get_mem _ _)

theorem rebuildIndexes_ordered {d₀ d : CStringDictionary}
    (h : rebuildIndexes d₀ = (.ok (), d)) : d.Ordered ∧ d.size = d₀.size := by
  rw [rebuildIndexes] at h
  split at h
  · simp at h
  · dsimp only at h
    split at h
    · simp at h
    · rename_i u hrest
      obtain ⟨-, rfl⟩ := Prod.mk.inj h
      obtain ⟨hlen, hpair, hmem⟩ := rebuildOffsets_ok (Prod.ext rfl hrest) (Nat.zero_le _)
      refine ⟨Ordered.of_pairwise (by simp) hpair fun x hx => (hmem x hx).2, ?_⟩
      show (_ ++ [_]).length - 1 = _
      rw [List.length_append, hlen]
      rfl

/-- A dictionary that was read is ordered and has as many strings as its stream says. -/
theorem load_ok {s : InStream} {d₀ d : CStringDictionary} (h : load s d₀ = (.ok (), d)) :
    d.Ordered ∧ ∃ offsetsStream count rest, s.getSubStreamAs 2 .diffDWORD = .ok offsetsStream ∧
      CPackedDWORDInStream.getSizeValue ⟨offsetsStream.content, 0, 0⟩ = .ok (count, rest) ∧
      d.size = count - 1 := by
  rw [load] at h
  obtain ⟨_, _, h⟩ := Trial.lift_bind_eq_ok h
  obtain ⟨_, _, _, h⟩ := Trial.bind_eq_ok h
  replace h := Trial.modify_bind_eq h
  obtain ⟨offsetsStream, hsub, h⟩ := Trial.lift_bind_eq_ok h
  obtain ⟨⟨count, rest⟩, hcount, h⟩ := Trial.lift_bind_eq_ok h
  replace h := Trial.modify_bind_eq h
  obtain ⟨hordered, hsize⟩ := rebuildIndexes_ordered h
  refine ⟨hordered, offsetsStream, count, rest, hsub, hcount, ?_⟩
  rw [hsize]
  show (resize count 0 _).length - 1 = _
  rw [resize_length]

end CStringDictionary

end TortoiseSvn.LogCache
