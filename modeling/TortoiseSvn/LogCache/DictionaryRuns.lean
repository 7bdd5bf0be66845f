import TortoiseSvn.LogCache.Columns
import TortoiseSvn.LogCache.IndexPairDictionary
import TortoiseSvn.LogCache.StringDictionary
import TortoiseSvn.Streams.PackedVectors

/-!
# Runs of the dictionaries

A dictionary keeps its values in a table and the indices of the table in a hash. The hash knows no
values: `find` looks the value of a bucket up in the table. So the hash must hold each index of the
table once, whatever an operation does to the table.

Main result: `dictionaries_lawful`. Whatever a run did, values are unique, they are found where they
are, they stay there unless the dictionary is reordered, and the streams give them back. Only a pair
dictionary can lose values in a stream, and the condition for this is exact.
-/

namespace TortoiseSvn.LogCache

open TortoiseSvn.Lib

theorem InStream.content_leaf (type : StreamType) (content : List UInt8) :
    (InStream.leaf type content).content = content := rfl

/-- A computation for each position of a list, when it only depends on the entry there. -/
theorem mapM_range_eq_ok {α β : Type} {f : ℕ → Except Fault β} {g : α → β} {l : List α}
    (h : ∀ k a, l[k]? = some a → f k = .ok (g a)) :
    (List.range l.length).mapM f = .ok (l.map g) := by
  induction l using List.reverseRecOn with
  | nil => rfl
  | append_singleton l a ih =>
    have hlast : f l.length = .ok (g a) := h _ _ List.getElem?_concat_length
    have hfront : (List.range l.length).mapM f = .ok (l.map g) := by
      refine ih fun k b hk => h k b ?_
      rwa [List.getElem?_append_left (List.getElem?_eq_some_iff.mp hk).1]
    rw [List.length_append, List.length_singleton, List.range_succ, List.mapM_append, hfront,
      List.mapM_cons, hlast, List.map_append]
    rfl

namespace CStringDictionary

/-! ### Reordering -/

/-- The data that string `i` gets.
Source: `StringDictonary.cpp` `CStringDictionary::Reorder`, the loop -/
def reordered (d : CStringDictionary) (sourceIndices : List ℕ) (i : ℕ) :
    Except Fault (List UInt8) := do
  let sourceIndex ← checked sourceIndices[i]?
  let sourceOffset ← checked d.offsets[sourceIndex]?
  let sourceEnd ← checked d.offsets[sourceIndex + 1]?
  slice d.packedStrings sourceOffset sourceEnd

/-- The new buffer has the size of the old one. The offsets are rebuilt from the terminators.
Source: `StringDictonary.cpp` `CStringDictionary::Reorder` -/
def reorder (d : CStringDictionary) (sourceIndices : List ℕ) : Except Fault CStringDictionary := do
  let strings ← (List.range d.size).mapM (d.reordered sourceIndices)
  let target := strings.flatten
  if d.packedStrings.length < target.length then .error .undefined
  else
    let rest := List.replicate (d.packedStrings.length - target.length) 0
    let r := rebuildIndexes ⟨target ++ rest, d.offsets⟩
    r.1.map fun _ => r.2

/-- The loop finds the beginnings of strings that lie back to back. -/
theorem rebuildOffsets_terminated {ws : List (List UInt8)} (hws : NulFree ws)
    (front : List (List UInt8)) :
    rebuildOffsets (front ++ terminated ws).flatten ws.length front.flatten.length =
      ((offsetsFrom front.flatten.length (terminated ws)).dropLast, .ok ()) := by
  induction ws generalizing front with
  | nil => rfl
  | cons w ws ih =>
    obtain ⟨hw, hws⟩ := List.forall_mem_cons.mp hws
    have hsplit : (front ++ terminated (w :: ws)).flatten =
        front.flatten ++ (w ++ 0 :: (terminated ws).flatten) := by
      simp [terminated]
    have hlen : ((w ++ 0 :: (terminated ws).flatten).takeWhile (· ≠ 0)).length = w.length := by
      rw [List.takeWhile_append_of_pos]
      · simp
      · intro c hc
        have hne : c ≠ 0 := fun h => hw (h ▸ hc)
        simpa using hne
    have hnext := ih hws (front ++ [w ++ [0]])
    have hfront : (front ++ [w ++ [0]]).flatten.length = front.flatten.length + (w.length + 1) := by
      simp
    have hsame : (front ++ [w ++ [0]] ++ terminated ws).flatten =
        (front ++ terminated (w :: ws)).flatten := by
      simp [terminated]
    rw [hsame, hfront] at hnext
    have hinside : ¬ (front ++ terminated (w :: ws)).flatten.length <
        front.flatten.length + (w.length + 1) := by
      rw [hsplit]
      simp
    rw [List.length_cons, rebuildOffsets]
    dsimp only
    rw [hsplit, List.drop_left, hlen, ← hsplit, if_neg hinside, hnext]
    have hshift : offsetsFrom front.flatten.length (terminated (w :: ws)) =
        front.flatten.length :: offsetsFrom (front.flatten.length + (w.length + 1))
          (terminated ws) := by
      simp [terminated, offsetsFrom]
    rw [hshift, List.dropLast_cons_of_ne_nil]
    rw [offsetsFrom_eq_cons]
    exact List.cons_ne_nil _ _

/-- Only the number of the old offsets matters. -/
theorem rebuildIndexes_terminated {ws : List (List UInt8)} (hws : NulFree ws) {offsets : List ℕ}
    (hlen : offsets.length = ws.length + 1) :
    rebuildIndexes ⟨(terminated ws).flatten, offsets⟩ = (.ok (), pack ws) := by
  have hne : offsets ≠ [] := by
    rintro rfl
    exact nomatch hlen
  have hrun : rebuildOffsets (terminated ws).flatten ws.length 0 =
      ((offsetsFrom 0 (terminated ws)).dropLast, .ok ()) := rebuildOffsets_terminated hws []
  obtain ⟨front, hfront⟩ := offsetsFrom_eq_concat (terminated ws)
  have hsize : size ⟨(terminated ws).flatten, offsets⟩ = ws.length := by
    rw [size, hlen, Nat.add_sub_cancel]
  rw [rebuildIndexes, if_neg hne, hsize, hrun]
  dsimp only
  rw [pack, hfront, List.dropLast_concat]

theorem reordered_pack {ws : List (List UInt8)} {is : List ℕ} {k i : ℕ} {w : List UInt8}
    (hk : is[k]? = some i) (hw : ws[i]? = some w) : (pack ws).reordered is k = .ok (w ++ [0]) := by
  have hi : i < (terminated ws).length := by
    rw [terminated_length]
    exact (List.getElem?_eq_some_iff.mp hw).1
  have hfirst : (pack ws).offsets[i]? = some (offsetOf (terminated ws) i) := by
    rw [pack, offsetsFrom_getElem? hi.le, Nat.zero_add]
  have hlast : (pack ws).offsets[i + 1]? = some (offsetOf (terminated ws) (i + 1)) := by
    rw [pack, offsetsFrom_getElem? hi, Nat.zero_add]
  have hpiece := segment_flatten (terminated_getElem? hw) []
  rw [List.append_nil] at hpiece
  have hslice : slice (pack ws).packedStrings (offsetOf (terminated ws) i)
      (offsetOf (terminated ws) (i + 1)) = .ok (w ++ [0]) := by
    rw [pack, slice_eq (offsetOf_mono _ (Nat.le_succ _)) (offsetOf_le _ _), hpiece]
  simp only [reordered, hk, hfirst, hlast, checked, bind, Except.bind]
  exact hslice

/-- The strings of a permutation, whatever stands at an index that does not exist. -/
theorem reorder_pack {ws : List (List UInt8)} (hws : NulFree ws) {is : List ℕ}
    (his : is.Perm (List.range ws.length)) :
    (pack ws).reorder is = .ok (pack (is.map fun i => ws.getD i [])) := by
  have hlt : ∀ i ∈ is, i < ws.length := fun i hi => List.mem_range.mp (his.mem_iff.mp hi)
  have hlen : is.length = ws.length := his.length_eq.trans List.length_range
  have hget : ∀ i ∈ is, ws[i]? = some (ws.getD i []) := by
    intro i hi
    rw [List.getD_eq_getElem?_getD, List.getElem?_eq_getElem (hlt i hi)]
    rfl
  -- the strings that are copied are those of the dictionary, in another order
  have hperm : (is.map fun i => ws.getD i []).Perm ws := by
    have hid : (List.range ws.length).map (fun i => ws.getD i []) = ws := by
      refine List.ext_getElem (by simp) fun i h₁ h₂ => ?_
      simp [List.getD_eq_getElem?_getD, h₂]
    exact (his.map _).trans (.of_eq hid)
  have hfree : NulFree (is.map fun i => ws.getD i []) := fun w hw => hws w (hperm.mem_iff.mp hw)
  have hpieces : (List.range is.length).mapM ((pack ws).reordered is) =
      .ok (terminated (is.map fun i => ws.getD i [])) := by
    rw [terminated, List.map_map]
    exact mapM_range_eq_ok fun k i hk => reordered_pack hk (hget i (List.mem_of_getElem? hk))
  have hsame : (pack ws).packedStrings.length =
      (terminated (is.map fun i => ws.getD i [])).flatten.length :=
    ((hperm.map _).flatten).length_eq.symm
  have hoffsets : (pack ws).offsets.length = (is.map fun i => ws.getD i []).length + 1 := by
    rw [pack, offsetsFrom_length, terminated_length, List.length_map, hlen]
  simp only [reorder, pack_size, ← hlen, hpieces, bind, Except.bind, if_neg (Nat.not_lt.mpr hsame.ge)]
  rw [hsame, Nat.sub_self, List.replicate_zero, List.append_nil,
    rebuildIndexes_terminated hfree hoffsets]
  rfl

/-- The strings in another order. -/
theorem Unique.reorder {d : CStringDictionary} (h : d.Unique) {is : List ℕ}
    (his : is.Perm (List.range d.size)) : ∃ d', d.reorder is = .ok d' ∧ d'.Unique ∧
      d'.size = d.size ∧ ∀ (k i : ℕ), is[k]? = some i → d'.get k = d.get i := by
  obtain ⟨ws, rfl, hfree, hnodup⟩ := h
  rw [pack_size] at his
  have hget : ∀ i ∈ is, ws[i]? = some (ws.getD i []) := by
    intro i hi
    rw [List.getD_eq_getElem?_getD,
      List.getElem?_eq_getElem (List.mem_range.mp (his.mem_iff.mp hi))]
    rfl
  have hfree' : NulFree (is.map fun i => ws.getD i []) := by
    intro w hw
    obtain ⟨i, hi, rfl⟩ := List.mem_map.mp hw
    exact hfree _ (List.mem_of_getElem? (hget i hi))
  have hnodup' : (is.map fun i => ws.getD i []).Nodup := by
    refine List.Nodup.map_on (fun i hi j hj heq => ?_) (his.nodup_iff.mpr List.nodup_range)
    have hij : ws[i]? = ws[j]? := by rw [hget i hi, hget j hj, heq]
    exact (List.getElem?_inj (List.mem_range.mp (his.mem_iff.mp hi)) hnodup).mp hij
  refine ⟨_, reorder_pack hfree his, ⟨_, rfl, hfree', hnodup'⟩, ?_, fun k i hk => ?_⟩
  · rw [pack_size, pack_size, List.length_map, his.length_eq, List.length_range]
  · have hk' : (is.map fun i => ws.getD i [])[k]? = some (ws.getD i []) := by
      rw [List.getElem?_map, hk]
      rfl
    rw [get_pack hfree' hk', get_pack hfree (hget i (List.mem_of_getElem? hk))]

/-! ### Writing and reading -/

/-- Source: `StringDictonary.cpp` `operator<<` -/
def save (d : CStringDictionary) : InStream :=
  .compose [(1, .leaf .blob d.packedStrings),
    (2, .leaf .diffDWORD (({} : CDiffOutStream).addSizeValue d.offsets.length).base.flushData)]

/-- Every string takes a byte at least. -/
theorem length_le_packedStrings (ws : List (List UInt8)) :
    ws.length ≤ (pack ws).packedStrings.length := by
  rw [pack, List.length_flatten, terminated, List.map_map]
  refine le_trans (le_of_eq ?_) (List.length_le_sum_of_one_le _ ?_)
  · rw [List.length_map]
  · intro n hn
    obtain ⟨w, -, rfl⟩ := List.mem_map.mp hn
    simp

/-- Whatever the reading dictionary held before. -/
theorem load_save_pack {ws : List (List UInt8)} (hws : NulFree ws)
    (hlt : (pack ws).packedStrings.length < noIndex) (d₀ : CStringDictionary) :
    load (pack ws).save d₀ = (.ok (), pack ws) := by
  have hlen : (pack ws).offsets.length = ws.length + 1 := by
    rw [pack, offsetsFrom_length, terminated_length]
  have hcount := length_le_packedStrings ws
  have hsize : CPackedDWORDInStream.getSizeValue
      ⟨(({} : CDiffOutStream).addSizeValue (pack ws).offsets.length).base.flushData, 0, 0⟩ =
      .ok (ws.length + 1, ⟨[], 0, 0⟩) := by
    have hmod : (pack ws).offsets.length % 2 ^ 32 = ws.length + 1 := by
      rw [hlen, Nat.mod_eq_of_lt]
      unfold noIndex at hlt
      omega
    have hlt' : ws.length + 1 < 2 ^ 32 := hmod ▸ Nat.mod_lt _ (by norm_num)
    have hget := internalGetValue_internalAdd hlt' []
    rw [List.append_nil] at hget
    show CPackedDWORDInStream.getSizeValue ⟨internalAdd ((pack ws).offsets.length % 2 ^ 32), 0, 0⟩ = _
    rw [hmod, CPackedDWORDInStream.getSizeValue, hget]
    rfl
  have hblob : (pack ws).save.getSubStreamAs 1 .blob = .ok (.leaf .blob (pack ws).packedStrings) :=
    rfl
  have hoffsets : (pack ws).save.getSubStreamAs 2 .diffDWORD = .ok (.leaf .diffDWORD
      (({} : CDiffOutStream).addSizeValue (pack ws).offsets.length).base.flushData) := rfl
  rw [load, hblob, Trial.bind_run_ok (Trial.lift_run _ _), InStream.content_leaf,
    Trial.bind_run_ok ((Trial.require_run _ _ _).trans (by rw [if_pos hlt])),
    Trial.bind_run_ok (Trial.modify_run _ _), hoffsets, Trial.bind_run_ok (Trial.lift_run _ _),
    InStream.content_leaf, hsize, Trial.bind_run_ok (Trial.lift_run _ _)]
  exact rebuildIndexes_terminated hws (by rw [resize_length])

end CStringDictionary

/-! ### Strings with their hash -/

/-- A string dictionary together with its hash, of which only the indices that it holds are known.
Source: `StringDictonary.h` `CStringDictionary` -/
structure HashedStrings extends CStringDictionary where
  /-- The indices in the buckets. -/
  hashIndex : List ℕ

namespace HashedStrings

/-- Source: `StringDictonary.cpp` `CStringDictionary::Initialize` -/
def init : HashedStrings := ⟨.init, [0]⟩

/-- The strings at the indices in the hash are compared, not those of the table.
Source: `StringDictonary.cpp` `CStringDictionary::Find`, `CHashFunction::equal` -/
def find (d : HashedStrings) (string : List UInt8) : Option ℕ :=
  d.hashIndex.find? fun index => d.get index = string

/-- Source: `StringDictonary.cpp` `CStringDictionary::Insert` -/
def insert (d : HashedStrings) (string : List UInt8) : HashedStrings × ℕ :=
  let r := d.toCStringDictionary.insert string
  (⟨r.1, d.hashIndex ++ [r.2]⟩, r.2)

/-- Source: `StringDictonary.cpp` `CStringDictionary::AutoInsert` -/
def autoInsert (d : HashedStrings) (string : List UInt8) : HashedStrings × ℕ :=
  match d.find string with
  | some index => (d, index)
  | none => d.insert string

/-- The loop of `Merge` over the indices of the source.
Source: `StringDictonary.cpp` `CStringDictionary::Merge` -/
def mergeLoop (source : HashedStrings) : List ℕ → HashedStrings → HashedStrings × List ℕ
  | [], d => (d, [])
  | i :: is, d =>
    let (d, index) := d.autoInsert (source.get i)
    let (d, indices) := mergeLoop source is d
    (d, index :: indices)

/-- The mapping is a list: source index `i` is mapped to its entry `i`.
Source: `StringDictonary.cpp` `CStringDictionary::Merge` -/
def merge (d source : HashedStrings) : HashedStrings × List ℕ :=
  mergeLoop source (List.range source.size) d

/-- All strings of the table are hashed anew.
Source: `StringDictonary.cpp` `CStringDictionary::Reorder`, `RebuildIndexes` -/
def reorder (d : HashedStrings) (sourceIndices : List ℕ) : Except Fault HashedStrings := do
  let r ← d.toCStringDictionary.reorder sourceIndices
  return ⟨r, List.range r.size⟩

/-- Source: `StringDictonary.cpp` `operator<<` -/
def save (d : HashedStrings) : InStream := d.toCStringDictionary.save

/-- Source: `StringDictonary.cpp` `operator>>` -/
def load (s : InStream) : LoadM HashedStrings Unit := do
  Trial.zoom toCStringDictionary (fun d r => { d with toCStringDictionary := r })
    (CStringDictionary.load s)
  Trial.modify fun d => { d with hashIndex := List.range d.size }

/-- The strings are unique, and the hash holds their indices. -/
structure Sound (d : HashedStrings) : Prop where
  unique : d.Unique
  hashed : d.hashIndex = List.range d.size

theorem init_sound : init.Sound := ⟨.init, rfl⟩

variable {d source : HashedStrings}

/-- Looking into the hash is looking into the table. -/
theorem Sound.find_eq (h : d.Sound) (string : List UInt8) :
    d.find string = d.toCStringDictionary.find string := by
  rw [find, h.hashed]
  rfl

/-- The hash follows the table. -/
theorem Sound.autoInsert_eq (h : d.Sound) (string : List UInt8) :
    (d.autoInsert string).1.toCStringDictionary = (d.toCStringDictionary.autoInsert string).1 ∧
      (d.autoInsert string).2 = (d.toCStringDictionary.autoInsert string).2 ∧
      (d.autoInsert string).1.hashIndex = List.range (d.autoInsert string).1.size := by
  rw [autoInsert, CStringDictionary.autoInsert, h.find_eq]
  cases d.toCStringDictionary.find string with
  | some index => exact ⟨rfl, rfl, h.hashed⟩
  | none =>
    refine ⟨rfl, rfl, ?_⟩
    show d.hashIndex ++ [d.size] = List.range ((d.offsets ++ [_]).length - 1)
    obtain ⟨ws, hws, -, -⟩ := h.unique
    have hlen : d.offsets.length = d.size + 1 := by
      rw [CStringDictionary.size, hws, CStringDictionary.pack, offsetsFrom_length,
        Nat.add_sub_cancel]
    rw [h.hashed, List.length_append, List.length_singleton, Nat.add_sub_cancel, hlen,
      List.range_succ]

theorem Sound.autoInsert (h : d.Sound) {string : List UInt8} (hs : (0 : UInt8) ∉ string) :
    (d.autoInsert string).1.Sound := by
  obtain ⟨hd, -, hhash⟩ := h.autoInsert_eq string
  exact ⟨hd ▸ (h.unique.autoInsert hs).1, hhash⟩

theorem Sound.mergeLoop_eq (h : d.Sound) (hs : source.Sound) {is : List ℕ}
    (his : ∀ i ∈ is, i < source.size) :
    (mergeLoop source is d).1.Sound ∧ (mergeLoop source is d).1.toCStringDictionary =
        (CStringDictionary.mergeLoop source.toCStringDictionary is d.toCStringDictionary).1 ∧
      (mergeLoop source is d).2 =
        (CStringDictionary.mergeLoop source.toCStringDictionary is d.toCStringDictionary).2 := by
  induction is generalizing d with
  | nil => exact ⟨h, rfl, rfl⟩
  | cons i is ih =>
    obtain ⟨hi, his⟩ := List.forall_mem_cons.mp his
    obtain ⟨hd, hindex, -⟩ := h.autoInsert_eq (source.get i)
    obtain ⟨hsound, hdict, hmap⟩ := ih (h.autoInsert (hs.unique.nulFree_get hi)) his
    rw [hd] at hdict hmap
    exact ⟨hsound, hdict, congrArg₂ List.cons hindex hmap⟩

theorem Sound.merge_eq (h : d.Sound) (hs : source.Sound) : (d.merge source).1.Sound ∧
    (d.merge source).1.toCStringDictionary =
      (d.toCStringDictionary.merge source.toCStringDictionary).1 ∧
    (d.merge source).2 = (d.toCStringDictionary.merge source.toCStringDictionary).2 :=
  h.mergeLoop_eq hs fun _ hi => List.mem_range.mp hi

theorem Sound.reorder (h : d.Sound) {is : List ℕ} (his : is.Perm (List.range d.size)) :
    ∃ d', d.reorder is = .ok d' ∧ d'.Sound ∧ d'.size = d.size ∧
      ∀ (k i : ℕ), is[k]? = some i → d'.get k = d.get i := by
  obtain ⟨r, hrun, hunique, hsize, hget⟩ := h.unique.reorder his
  refine ⟨⟨r, List.range r.size⟩, ?_, ⟨hunique, rfl⟩, hsize, hget⟩
  rw [HashedStrings.reorder, hrun]
  rfl

theorem Sound.load_save (h : d.Sound) (hlt : d.packedStrings.length < noIndex)
    (d₀ : HashedStrings) : load d.save d₀ = (.ok (), d) := by
  obtain ⟨ws, hws, hfree, -⟩ := h.unique
  have hrun : CStringDictionary.load d.save d₀.toCStringDictionary =
      (.ok (), d.toCStringDictionary) := by
    rw [hws] at hlt
    rw [save, hws]
    exact CStringDictionary.load_save_pack hfree hlt _
  rw [load, Trial.bind_run, Trial.zoom_run, hrun]
  show (Except.ok (), (⟨d.toCStringDictionary, List.range d.size⟩ : HashedStrings)) = _
  rw [← h.hashed]

/-! ### Runs -/

/-- The dictionaries that operations build from a new one. -/
inductive Run : HashedStrings → Prop
  | init : Run .init
  | autoInsert {d : HashedStrings} {string : List UInt8} :
    Run d → (0 : UInt8) ∉ string → Run (d.autoInsert string).1
  | merge {d source : HashedStrings} : Run d → Run source → Run (d.merge source).1
  | reorder {d d' : HashedStrings} {is : List ℕ} : Run d → is.Perm (List.range d.size) →
    is.head? = some 0 → d.reorder is = .ok d' → Run d'

theorem Run.sound (h : Run d) : d.Sound := by
  induction h with
  | init => exact init_sound
  | autoInsert _ hs ih => exact ih.autoInsert hs
  | merge _ _ ih ih' => exact (ih.merge_eq ih').1
  | reorder _ his _ hrun ih =>
    obtain ⟨d', hd', hsound, -⟩ := ih.reorder his
    obtain rfl := Except.ok.inj (hrun.symm.trans hd')
    exact hsound

theorem Sound.find_get (h : d.Sound) {i : ℕ} (hi : i < d.size) : d.find (d.get i) = some i := by
  rw [h.find_eq]
  obtain ⟨ws, hws, hfree, hnodup⟩ := h.unique
  rw [hws, CStringDictionary.pack_size] at hi
  have hget := List.getElem?_eq_getElem hi
  rw [hws, CStringDictionary.find_pack hfree, CStringDictionary.get_pack hfree hget]
  exact Pool.find_of_getElem? hnodup hget

/-- What a string dictionary promises. -/
structure Lawful (d : HashedStrings) : Prop where
  distinct : ∀ i < d.size, ∀ j < d.size, d.get i = d.get j → i = j
  find : ∀ i < d.size, d.find (d.get i) = some i
  absent : ∀ string, (∀ i < d.size, d.get i ≠ string) → d.find string = none
  autoInsert : ∀ string, (0 : UInt8) ∉ string →
    (∀ i < d.size, (d.autoInsert string).1.get i = d.get i) ∧
    (d.autoInsert string).2 < (d.autoInsert string).1.size ∧
    (d.autoInsert string).1.get (d.autoInsert string).2 = string
  merge : ∀ source, Run source → (∀ i < d.size, (d.merge source).1.get i = d.get i) ∧
    ∀ i < source.size, ∃ j, (d.merge source).2[i]? = some j ∧ j < (d.merge source).1.size ∧
      (d.merge source).1.get j = source.get i
  reorder : ∀ is : List ℕ, is.Perm (List.range d.size) → is.head? = some 0 →
    ∃ d', d.reorder is = .ok d' ∧ d'.size = d.size ∧
      ∀ (k i : ℕ), is[k]? = some i → d'.get k = d.get i
  stored : d.packedStrings.length < noIndex → ∀ d₀ : HashedStrings, ∃ d',
    load d.save d₀ = (.ok (), d') ∧ d'.size = d.size ∧ ∀ i < d.size, d'.get i = d.get i

theorem Run.lawful (h : Run d) : d.Lawful := by
  have hd := h.sound
  refine ⟨fun i hi j hj => hd.unique.get_inj hi hj, fun i hi => hd.find_get hi, ?_, ?_, ?_, ?_, ?_⟩
  · intro string hne
    rw [hd.find_eq]
    cases hfind : d.toCStringDictionary.find string with
    | none => rfl
    | some i =>
      obtain ⟨hi, hget⟩ := hd.unique.find hfind
      exact absurd hget (hne i hi)
  · intro string hs
    obtain ⟨hdict, hindex, -⟩ := hd.autoInsert_eq string
    obtain ⟨-, hext, hlt, hget⟩ := hd.unique.autoInsert hs
    rw [hdict, hindex]
    exact ⟨hext.get, hlt, hget⟩
  · intro source hsource
    obtain ⟨-, hdict, hmap⟩ := hd.merge_eq hsource.sound
    obtain ⟨-, hext, hget⟩ := hd.unique.merge hsource.sound.unique
    rw [hdict, hmap]
    exact ⟨hext.get, hget⟩
  · intro is his _
    obtain ⟨d', hrun, -, hsize, hget⟩ := hd.reorder his
    exact ⟨d', hrun, hsize, hget⟩
  · intro hlt d₀
    exact ⟨d, hd.load_save hlt d₀, rfl, fun _ _ => rfl⟩

end HashedStrings

/-! ### Pairs in streams -/

/-- Filling a vector with as many values as there are. -/
theorem readInto_eq {α σ : Type} {get : σ → Except Fault (ℕ × σ)} (put : α → ℕ → α) {l : List α}
    {s s' : σ} {vs : List ℕ} (h : readValues get l.length s = .ok (vs, s')) :
    readInto get put l s = (List.zipWith put l vs, .ok s') := by
  induction l generalizing s vs with
  | nil =>
    obtain ⟨rfl, rfl⟩ := Prod.mk.inj (Except.ok.inj h)
    rfl
  | cons a l ih =>
    obtain ⟨⟨v, t⟩, hget, h⟩ := bind_eq_ok.mp h
    obtain ⟨⟨us, t'⟩, hread, h⟩ := bind_eq_ok.mp h
    obtain ⟨rfl, rfl⟩ := Prod.mk.inj (Except.ok.inj h)
    rw [readInto, hget]
    show (put a v :: (readInto get put l t).1, (readInto get put l t).2) = _
    rw [ih hread]
    rfl

/-- The numbers that a differential integer stream gives back: no difference is `-0x80000000`, and
none that is written is an isolated `0xffffffff`. -/
def Storable (vs : List ℕ) : Prop :=
  2 ^ 31 ∉ diffs 0 vs ∧ ¬ HasIsolated (Codec.diffInteger.packed vs)

theorem readValues_diffInteger_iff {vs : List ℕ} (hlen : vs.length < 2 ^ 32)
    (hvs : ∀ v ∈ vs, v < 2 ^ 32) :
    (∃ s', readValues CDiffIntegerInStream.getValue vs.length
      ⟨⟨CDiffIntegerOutStream.write vs, 0, 0⟩, 0⟩ = .ok (vs, s')) ↔ Storable vs := by
  have hpacked : Codec.diffInteger.packed vs = (diffs 0 vs).map foldSign := rfl
  have hdel := ((Codec.delivers_packed .diffInteger hvs hlen).map_unfoldSign).sums 0
  have hlt := @Codec.valuesOf_packed_lt .diffInteger _ hvs hlen
  have hunfold : ∀ v ∈ (valuesOf (encode (Codec.diffInteger.packed vs))).map unfoldSign,
      v < 2 ^ 32 := by
    intro v hv
    obtain ⟨w, hw, rfl⟩ := List.mem_map.mp hv
    exact unfoldSign_lt (hlt w hw)
  rw [CDiffIntegerInStream.getValue]
  refine (hdel.readValues_iff vs).trans ?_
  rw [prefix_sums hvs hunfold, prefix_map_unfoldSign (diffs_lt 0 vs) hlt, ← hpacked]
  refine and_congr_right fun hne => Codec.prefix_seen_iff merging_plainSign (Codec.packed_lt hvs) ?_
  intro v hv
  obtain ⟨d, hd, rfl⟩ := List.mem_map.mp (hpacked ▸ hv)
  exact if_neg fun h1 => hne ((foldSign_eq_one (diffs_lt 0 vs d hd)).mp h1 ▸ hd)

/-- Reading a size and so many values is reading one more value. -/
theorem readValues_cons {σ : Type} {get : σ → Except Fault (ℕ × σ)} {n v : ℕ} {s s' : σ}
    {vs : List ℕ} : readValues get (n + 1) s = .ok (v :: vs, s') ↔
      ∃ t, get s = .ok (v, t) ∧ readValues get n t = .ok (vs, s') := by
  constructor
  · intro h
    obtain ⟨⟨v', t⟩, hget, h⟩ := bind_eq_ok.mp h
    obtain ⟨⟨vs', t'⟩, hread, h⟩ := bind_eq_ok.mp h
    obtain ⟨heq, rfl⟩ := Prod.mk.inj (Except.ok.inj h)
    obtain ⟨rfl, rfl⟩ := List.cons.inj heq
    exact ⟨t, hget, hread⟩
  · rintro ⟨t, hget, hread⟩
    rw [readValues, hget]
    show (readValues get n t >>= _) = _
    rw [hread]
    rfl

/-- Columns that are read back give the pairs back, whatever the reader held before; `toRaw` is the
`index_t` that stands for an element. -/
theorem CIndexPairDictionary.load_of_readValues {κ : Type} {toRaw : κ → ℕ} {ofRaw : ℕ → κ}
    {pairs : List (κ × κ)} {s : InStream} {bytes₁ bytes₂ : List UInt8} {t t' : CDiffInStream}
    (hsub₁ : s.getSubStreamAs 1 .diffInteger = .ok (.leaf .diffInteger bytes₁))
    (hfirsts : readValues CDiffIntegerInStream.getValue (pairs.length + 1) ⟨⟨bytes₁, 0, 0⟩, 0⟩ =
      .ok (pairs.length :: pairs.map fun p => toRaw p.1, t))
    (hsub₂ : s.getSubStreamAs 2 .diffInteger = .ok (.leaf .diffInteger bytes₂))
    (hseconds : readValues CDiffIntegerInStream.getValue pairs.length ⟨⟨bytes₂, 0, 0⟩, 0⟩ =
      .ok (pairs.map fun p => toRaw p.2, t'))
    (hraw : ∀ p ∈ pairs, ofRaw (toRaw p.1) = p.1 ∧ ofRaw (toRaw p.2) = p.2) (l₀ : List (κ × κ)) :
    load ofRaw s l₀ = (.ok (), pairs) := by
  obtain ⟨t₀, hcount, hfirsts⟩ := readValues_cons.mp hfirsts
  have hlen := resize_length pairs.length (ofRaw 0, ofRaw 0) l₀
  have hfill := readInto_eq (fun (p : κ × κ) v => (ofRaw v, p.2)) (hlen.symm ▸ hfirsts)
  have hlen' : (List.zipWith (fun (p : κ × κ) v => (ofRaw v, p.2))
      (resize pairs.length (ofRaw 0, ofRaw 0) l₀) (pairs.map fun p => toRaw p.1)).length =
      pairs.length := by
    rw [List.length_zipWith, hlen, List.length_map, min_self]
  have hfill' := readInto_eq (fun (p : κ × κ) v => (p.1, ofRaw v)) (hlen'.symm ▸ hseconds)
  have hzip : ((pairs.map fun p => toRaw p.1).zip (pairs.map fun p => toRaw p.2)).map
      (fun p => (ofRaw p.1, ofRaw p.2)) = pairs := by
    rw [List.zip_map', List.map_map]
    conv_rhs => rw [← List.map_id pairs]
    apply List.map_congr_left
    intro p hp
    exact Prod.ext (hraw p hp).1 (hraw p hp).2
  rw [zipWith_fst ofRaw _ _ _ (by rw [hlen, List.length_map]) (by rw [hlen, List.length_map]), hzip]
    at hfill'
  rw [load, hsub₁]
  refine (Trial.bind_run_ok (Trial.lift_run _ _) _).trans ?_
  refine (Trial.bind_run_ok ((Trial.lift_run _ _).trans (congrArg (·, _) hcount)) _).trans ?_
  refine (Trial.bind_run_ok (Trial.modify_run _ _) _).trans ?_
  refine (Trial.bind_run_ok (Prod.ext (congrArg Prod.snd hfill) (congrArg Prod.fst hfill)) _).trans ?_
  rw [hsub₂]
  refine (Trial.bind_run_ok (Trial.lift_run _ _) _).trans ?_
  refine (Trial.bind_run_ok (Prod.ext (congrArg Prod.snd hfill') (congrArg Prod.fst hfill')) _).trans ?_
  rfl

/-! ### Pairs with their hash -/

/-- A pair dictionary together with its hash.
Source: `IndexPairDictionary.h` `CIndexPairDictionary` -/
structure HashedPairs where
  data : List (ℕ × ℕ)
  /-- The indices in the buckets. -/
  hashIndex : List ℕ

namespace HashedPairs

/-- Source: `IndexPairDictionary.cpp` `CIndexPairDictionary::CIndexPairDictionary` -/
def init : HashedPairs := ⟨[], []⟩

/-- Source: `IndexPairDictionary.cpp` `CIndexPairDictionary::Find` -/
def find (d : HashedPairs) (value : ℕ × ℕ) : Option ℕ :=
  d.hashIndex.find? fun index => d.data[index]? = some value

/-- Source: `IndexPairDictionary.cpp` `CIndexPairDictionary::Insert` -/
def insert (d : HashedPairs) (value : ℕ × ℕ) : HashedPairs × ℕ :=
  (⟨d.data ++ [value], d.hashIndex ++ [d.data.length]⟩, d.data.length)

/-- Source: `IndexPairDictionary.cpp` `CIndexPairDictionary::AutoInsert` -/
def autoInsert (d : HashedPairs) (value : ℕ × ℕ) : HashedPairs × ℕ :=
  match d.find value with
  | some index => (d, index)
  | none => d.insert value

/-- Source: `IndexPairDictionary.cpp` `operator<<` -/
def save (d : HashedPairs) : InStream :=
  .compose [
    (1, .leaf .diffInteger
      (CDiffIntegerOutStream.write (d.data.length % 2 ^ 32 :: d.data.map Prod.fst))),
    (2, .leaf .diffInteger (CDiffIntegerOutStream.write (d.data.map Prod.snd)))]

/-- Source: `IndexPairDictionary.cpp` `operator>>` -/
def load (s : InStream) : LoadM HashedPairs Unit := do
  Trial.zoom data (fun d l => { d with data := l }) (CIndexPairDictionary.load id s)
  Trial.modify fun d => { d with hashIndex := List.range d.data.length }

/-- The pairs are unique, and the hash holds their indices. An `index_t` has 32 bits. -/
structure Sound (d : HashedPairs) : Prop where
  unique : d.data.Nodup
  hashed : d.hashIndex = List.range d.data.length
  bounded : ∀ p ∈ d.data, p.1 < 2 ^ 32 ∧ p.2 < 2 ^ 32

theorem init_sound : init.Sound := ⟨List.nodup_nil, rfl, fun _ h => absurd h List.not_mem_nil⟩

variable {d : HashedPairs}

/-- Looking into the hash is looking into the table. -/
theorem Sound.find_eq (h : d.Sound) (value : ℕ × ℕ) : d.find value = Pool.find d.data value := by
  rw [find, h.hashed]
  cases hfind : Pool.find d.data value with
  | none =>
    rw [List.find?_eq_none]
    intro i _ hi
    exact Pool.find_eq_none.mp hfind (List.mem_of_getElem? (of_decide_eq_true hi))
  | some i =>
    obtain ⟨hget, hlt⟩ := Pool.find_eq_some_iff.mp hfind
    rw [List.find?_range_eq_some]
    refine ⟨decide_eq_true hget, ?_, fun j hj => ?_⟩
    · exact List.mem_range.mpr (List.getElem?_eq_some_iff.mp hget).1
    · rw [decide_eq_false (hlt j hj)]
      rfl

theorem Sound.autoInsert_eq (h : d.Sound) (value : ℕ × ℕ) :
    (d.autoInsert value).1.data = (Pool.autoInsert d.data value).1 ∧
      (d.autoInsert value).2 = (Pool.autoInsert d.data value).2 ∧
      (d.autoInsert value).1.hashIndex = List.range (d.autoInsert value).1.data.length := by
  rw [autoInsert, Pool.autoInsert, h.find_eq]
  cases Pool.find d.data value with
  | some index => exact ⟨rfl, rfl, h.hashed⟩
  | none =>
    refine ⟨rfl, rfl, ?_⟩
    show d.hashIndex ++ [d.data.length] = List.range (d.data ++ [value]).length
    rw [h.hashed, List.length_append, List.length_singleton, List.range_succ]

theorem Sound.autoInsert (h : d.Sound) {value : ℕ × ℕ} (hfirst : value.1 < 2 ^ 32)
    (hsecond : value.2 < 2 ^ 32) : (d.autoInsert value).1.Sound := by
  obtain ⟨hdata, -, hhash⟩ := h.autoInsert_eq value
  refine ⟨hdata ▸ Pool.autoInsert_nodup h.unique value, hhash, ?_⟩
  rw [hdata]
  intro p hp
  rcases Pool.mem_autoInsert.mp hp with hp | rfl
  · exact h.bounded p hp
  · exact ⟨hfirst, hsecond⟩

/-- Both columns, the first one with the size in front. -/
def StorablePairs (data : List (ℕ × ℕ)) : Prop :=
  Storable (data.length :: data.map Prod.fst) ∧ Storable (data.map Prod.snd)

/-- Whatever the reading dictionary held before. -/
theorem Sound.load_save_iff (h : d.Sound) (hlt : d.data.length < noIndex) (d₀ : HashedPairs) :
    (∃ d', load d.save d₀ = (.ok (), d') ∧ d'.data = d.data) ↔ StorablePairs d.data := by
  have hsize : d.data.length < 2 ^ 32 := hlt.trans (by decide)
  have hsizes : ∀ v ∈ d.data.length :: d.data.map Prod.fst, v < 2 ^ 32 := by
    refine List.forall_mem_cons.mpr ⟨hsize, fun v hv => ?_⟩
    obtain ⟨p, hp, rfl⟩ := List.mem_map.mp hv
    exact (h.bounded p hp).1
  have hseconds : ∀ v ∈ d.data.map Prod.snd, v < 2 ^ 32 := by
    intro v hv
    obtain ⟨p, hp, rfl⟩ := List.mem_map.mp hv
    exact (h.bounded p hp).2
  have hfirst := readValues_diffInteger_iff (by
    rw [List.length_cons, List.length_map]
    exact Nat.succ_lt_succ hlt) hsizes
  have hsecond := readValues_diffInteger_iff (by rwa [List.length_map]) hseconds
  rw [List.length_cons, List.length_map] at hfirst
  rw [List.length_map] at hsecond
  have hsave : d.save = .compose [
      (1, .leaf .diffInteger (CDiffIntegerOutStream.write (d.data.length :: d.data.map Prod.fst))),
      (2, .leaf .diffInteger (CDiffIntegerOutStream.write (d.data.map Prod.snd)))] := by
    rw [save, Nat.mod_eq_of_lt hsize]
  rw [StorablePairs, ← hfirst, ← hsecond]
  constructor
  · rintro ⟨d', hload, hdata⟩
    obtain ⟨_, data, hread, hd'⟩ := Trial.zoom_bind_eq_ok hload
    obtain ⟨-, rfl⟩ := Prod.mk.inj hd'
    obtain rfl : data = d.data := hdata
    obtain ⟨ps, hps, hmap⟩ := CIndexPairDictionary.load_ok hread
    have hid : ps = d.data := by
      rw [hmap]
      exact (List.map_id ps).symm
    rw [hsave] at hps
    obtain ⟨firstStream, hf, hps⟩ := bind_eq_ok.mp hps
    obtain rfl := Except.ok.inj hf
    obtain ⟨⟨count, t₀⟩, hcount, hps⟩ := bind_eq_ok.mp hps
    obtain ⟨⟨firsts, t⟩, hfirsts, hps⟩ := bind_eq_ok.mp hps
    obtain ⟨secondStream, hs, hps⟩ := bind_eq_ok.mp hps
    obtain rfl := Except.ok.inj hs
    obtain ⟨⟨seconds, t'⟩, hseconds', hps⟩ := bind_eq_ok.mp hps
    obtain rfl := Except.ok.inj hps
    have hlen := readValues_length hfirsts
    have hlen' := readValues_length hseconds'
    have hmapFst : firsts = d.data.map Prod.fst := by
      rw [← hid, List.map_fst_zip (hlen.trans hlen'.symm).le]
    have hmapSnd : seconds = d.data.map Prod.snd := by
      rw [← hid, List.map_snd_zip (hlen.trans hlen'.symm).ge]
    have hn : count = d.data.length := by
      rw [← hlen, hmapFst, List.length_map]
    rw [hmapFst, hn] at hfirsts
    rw [hmapSnd, hn] at hseconds'
    rw [hn] at hcount
    exact ⟨⟨t, readValues_cons.mpr ⟨t₀, hcount, hfirsts⟩⟩, t', hseconds'⟩
  · rintro ⟨⟨t, ht⟩, t', ht'⟩
    have hread : CIndexPairDictionary.load id d.save d₀.data = (.ok (), d.data) := by
      rw [hsave]
      exact @CIndexPairDictionary.load_of_readValues ℕ id id d.data _ _ _ t t' rfl ht rfl ht'
        (fun p _ => ⟨rfl, rfl⟩) d₀.data
    refine ⟨⟨d.data, List.range d.data.length⟩, ?_, rfl⟩
    rw [load, Trial.bind_run, Trial.zoom_run, hread]
    rfl

/-- The dictionaries that operations build from a new one. -/
inductive Run : HashedPairs → Prop
  | init : Run .init
  | autoInsert {d : HashedPairs} {value : ℕ × ℕ} : Run d → value.1 < 2 ^ 32 → value.2 < 2 ^ 32 →
    Run (d.autoInsert value).1

theorem Run.sound (h : Run d) : d.Sound := by
  induction h with
  | init => exact init_sound
  | autoInsert _ hfirst hsecond ih => exact ih.autoInsert hfirst hsecond

/-- What a pair dictionary promises, and when a stream gives its pairs back. -/
structure Lawful (d : HashedPairs) : Prop where
  distinct : ∀ i < d.data.length, ∀ j < d.data.length, d.data[i]? = d.data[j]? → i = j
  find : ∀ i value, d.data[i]? = some value → d.find value = some i
  absent : ∀ value, (∀ i : ℕ, d.data[i]? ≠ some value) → d.find value = none
  autoInsert : ∀ value, (∀ i < d.data.length, (d.autoInsert value).1.data[i]? = d.data[i]?) ∧
    (d.autoInsert value).1.data[(d.autoInsert value).2]? = some value
  stored_iff : d.data.length < noIndex → ∀ d₀ : HashedPairs,
    (∃ d', load d.save d₀ = (.ok (), d') ∧ d'.data = d.data) ↔ StorablePairs d.data

theorem Run.lawful (h : Run d) : d.Lawful := by
  have hd := h.sound
  refine ⟨fun i hi j _ heq => (List.getElem?_inj hi hd.unique).mp heq, ?_, ?_, ?_,
    fun hlt d₀ => hd.load_save_iff hlt d₀⟩
  · intro i value hi
    rw [hd.find_eq]
    exact Pool.find_of_getElem? hd.unique hi
  · intro value hne
    rw [hd.find_eq, Pool.find_eq_none]
    intro hmem
    obtain ⟨i, hi⟩ := List.getElem?_of_mem hmem
    exact hne i hi
  · intro value
    obtain ⟨hdata, hindex, -⟩ := hd.autoInsert_eq value
    obtain ⟨rest, hrest⟩ := Pool.prefix_autoInsert d.data value
    rw [hdata, hindex]
    refine ⟨fun i hi => ?_, Pool.autoInsert_getElem? _ _⟩
    rw [← hrest, List.getElem?_append_left hi]

end HashedPairs

/-- **The dictionaries keep their promises on every run**, but for pairs whose columns are not
storable: the streams lose those. -/
theorem dictionaries_lawful (strings : HashedStrings) (pairs : HashedPairs) :
    (strings.Run → strings.Lawful) ∧ (pairs.Run → pairs.Lawful) :=
  ⟨fun h => h.lawful, fun h => h.lawful⟩

/-- A string and a pair in new dictionaries. -/
theorem dictionaries_lawful_single : (HashedStrings.init.autoInsert [97]).1.Lawful ∧
    (HashedPairs.init.autoInsert (1, 2)).1.Lawful := by
  obtain ⟨hstrings, hpairs⟩ := dictionaries_lawful (HashedStrings.init.autoInsert [97]).1
    (HashedPairs.init.autoInsert (1, 2)).1
  exact ⟨hstrings (.autoInsert .init (by decide)),
    hpairs (.autoInsert .init (by decide) (by decide))⟩

/-- The pair `(0x80000001, 0)` is not read back. Its first element differs from the size of the
dictionary by `0x80000000`. -/
theorem pair_lost : ¬ ∀ d : HashedPairs, d.Run → d.data.length < noIndex → ∀ d₀ : HashedPairs,
    ∃ d', HashedPairs.load d.save d₀ = (.ok (), d') ∧ d'.data = d.data := by
  intro h
  obtain ⟨d', hload, hdata⟩ := h (HashedPairs.init.autoInsert (2147483649, 0)).1
    (.autoInsert .init (by decide) (by decide)) (by decide) .init
  have hrun : (HashedPairs.load (HashedPairs.init.autoInsert (2147483649, 0)).1.save .init).2.data =
      [(1, 0)] := by decide +kernel
  rw [hload] at hrun
  exact absurd (hrun.symm.trans hdata) (by decide)

end TortoiseSvn.LogCache
