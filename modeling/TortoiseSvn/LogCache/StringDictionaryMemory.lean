import TortoiseSvn.Lib.Buffer
import TortoiseSvn.LogCache.QuickHash
import TortoiseSvn.LogCache.StringDictionary

/-!
# The memory of the string dictionary

Readers may use a string dictionary while strings are inserted, as long as nothing moves in memory.
`canInsertThreadSafely` foresees that for the offsets and for the hash index. But an insertion leaves
some bytes free behind the strings, and moves them when there are too few, which the test does not
take into account.

Main result: `keeps_iff`.
-/

namespace TortoiseSvn.LogCache

open TortoiseSvn.Lib

namespace CStringDictionary

/-! ### The dictionary in memory -/

/-- A character is a signed value. -/
def signExtended (c : UInt8) : ℕ := if c < 128 then c.toNat else 2 ^ 64 - 256 + c.toNat

/-- Source: `StringDictonary.cpp` `CStringDictionary::CHashFunction::operator()` -/
def hash (value : List UInt8) : ℕ :=
  value.foldl (fun result c => result * 33 % 2 ^ 64 ^^^ signExtended c) 0

/-- Source: `StringDictonary.h` `CStringDictionary::CHashFunction` -/
def hashFunction (d : CStringDictionary) : HashFunction (List UInt8) where
  hash := hash
  value index := d.get index
  equal value index := value = d.get index

/-- Source: `StringDictonary.h` `CStringDictionary` -/
structure InMemory where
  packedStrings : Buffer UInt8
  offsets : Buffer ℕ
  hashIndex : QuickHash

/-- `sizeof (size_t)`. -/
def sizeOfSizeT : ℕ := 8

/-- Subtraction of two `size_t` values. -/
def subSize (a b : ℕ) : ℕ := (a + (2 ^ 64 - b % 2 ^ 64)) % 2 ^ 64

/-- Room behind the strings, so that they can be copied word by word.
Source: `StringDictonary.cpp` `CStringDictionary::Insert` -/
def ensureSlack (g : Growth) (packedStrings : Buffer UInt8) : Buffer UInt8 :=
  if packedStrings.capacity < packedStrings.size + sizeOfSizeT then
    if noIndex / 2 - sizeOfSizeT < packedStrings.size then packedStrings.reserve g noIndex
    else packedStrings.reserve g (packedStrings.size * 2 + sizeOfSizeT)
  else packedStrings

/-- A string and its terminator behind all others.
Source: `StringDictonary.cpp` `CStringDictionary::Insert` -/
def pushString (g : Growth) (packedStrings : Buffer UInt8) (string : List UInt8) : Buffer UInt8 :=
  ensureSlack g (packedStrings.append g (string ++ [0]))

/-- The string is too long, or the buffer would overflow.
Source: `StringDictonary.cpp` `CStringDictionary::Insert` -/
def refuses (size : ℕ) (string : List UInt8) : Bool :=
  noIndex ≤ string.length ∨ subSize noIndex (string.length + 1 + sizeOfSizeT) ≤ size

namespace InMemory

/-- The strings, wherever they are. -/
def contents (d : InMemory) : CStringDictionary := ⟨d.packedStrings.elements, d.offsets.elements⟩

variable (g : Growth)

/-- Source: `StringDictonary.cpp` `CStringDictionary::Initialize` -/
def initializeStrings (d : InMemory) : Except Fault InMemory := do
  let packedStrings := (d.packedStrings.reserve g (sizeOfSizeT + 1)).append g [0]
  let offsets := (d.offsets.append g [0]).append g [1]
  let hashIndex ← d.hashIndex.insert (hashFunction ⟨packedStrings.elements, offsets.elements⟩) [] 0
  pure ⟨packedStrings, offsets, hashIndex⟩

/-- Source: `StringDictonary.cpp` `CStringDictionary::CStringDictionary` -/
def init : Except Fault InMemory := initializeStrings g ⟨.empty, .empty, .init⟩

/-- Source: `StringDictonary.cpp` `CStringDictionary::Clear` -/
def clear (d : InMemory) : Except Fault InMemory :=
  initializeStrings g ⟨d.packedStrings.clear, d.offsets.clear, d.hashIndex.clear⟩

/-- Source: `StringDictonary.cpp` `CStringDictionary::Reserve` -/
def reserve (d : InMemory) (stringCount charCount : ℕ) : Except Fault InMemory := do
  let hashIndex ← d.hashIndex.reserve (hashFunction d.contents) stringCount
  pure ⟨d.packedStrings.reserve g (charCount + sizeOfSizeT), d.offsets.reserve g stringCount,
    hashIndex⟩

/-- The string must not be there yet.
Source: `StringDictonary.cpp` `CStringDictionary::Insert` -/
def insert (d : InMemory) (string : List UInt8) : Except Fault (InMemory × ℕ) :=
  if noIndex ≤ string.length then .error .assertion
  else if refuses d.packedStrings.size string then
    .error (.containerException "dictionary overflow")
  else do
    let packedStrings := pushString g d.packedStrings string
    let result := subU d.offsets.size 1
    let hashIndex ← d.hashIndex.insert
      (hashFunction ⟨packedStrings.elements, d.offsets.elements⟩) string result
    pure (⟨packedStrings, d.offsets.append g [packedStrings.size % 2 ^ 32], hashIndex⟩, result)

/-- Sums of sizes are far below `2 ^ 64`.
Source: `StringDictonary.cpp` `CStringDictionary::CanInsertThreadSafely` -/
def canInsertThreadSafely (d : InMemory) (elements chars : ℕ) : Bool :=
  d.packedStrings.size + chars ≤ d.packedStrings.capacity ∧
    d.offsets.size + elements ≤ d.offsets.capacity ∧ ¬ d.hashIndex.mayCauseGrowth elements

/-- Some insertions in a row, up to the first one that throws an exception. -/
def insertAll (d : InMemory) : List (List UInt8) → InMemory
  | [] => d
  | string :: strings =>
    match d.insert g string with
    | .ok (d, _) => insertAll d strings
    | .error _ => d

/-- Nothing has moved in memory. -/
structure Keeps (d d' : InMemory) : Prop where
  packedStrings : d'.packedStrings.block = d.packedStrings.block
  offsets : d'.offsets.block = d.offsets.block
  hashIndex : d'.hashIndex.block = d.hashIndex.block

end InMemory

/-- The lengths of some strings with their terminators. -/
def totalLength (strings : List (List UInt8)) : ℕ := (strings.map fun s => s.length + 1).sum

/-- The strings that are inserted before the first exception. -/
def accepted : ℕ → List (List UInt8) → List (List UInt8)
  | _, [] => []
  | size, string :: strings =>
    if refuses size string then []
    else string :: accepted (size + (string.length + 1)) strings

/-- The capacity that is needed for strings of some total size. -/
def neededCapacity (size : ℕ) : ℕ := max size (min (size + sizeOfSizeT) noIndex)

/-! ### Storing a string -/

section Storing

variable {g : Growth} {b : Buffer UInt8} {string : List UInt8}

theorem neededCapacity_mono {m n : ℕ} (h : m ≤ n) : neededCapacity m ≤ neededCapacity n :=
  max_le_max h (min_le_min_right _ (Nat.add_le_add_right h _))

@[simp] theorem ensureSlack_size (b : Buffer UInt8) : (ensureSlack g b).size = b.size := by
  unfold ensureSlack
  split
  · split <;> exact Buffer.reserve_size g
  · rfl

@[simp] theorem pushString_size : (pushString g b string).size = b.size + (string.length + 1) := by
  rw [pushString, ensureSlack_size, Buffer.append_size, List.length_append, List.length_singleton]

@[simp] theorem ensureSlack_elements (b : Buffer UInt8) : (ensureSlack g b).elements = b.elements := by
  unfold ensureSlack
  split
  · split <;> exact Buffer.reserve_elements g
  · rfl

theorem block_le_ensureSlack (b : Buffer UInt8) : b.block ≤ (ensureSlack g b).block := by
  unfold ensureSlack
  split
  · split <;> exact b.block_le_reserve g _
  · exact le_rfl

theorem block_le_pushString (b : Buffer UInt8) (string : List UInt8) :
    b.block ≤ (pushString g b string).block :=
  (b.block_le_append g _).trans (block_le_ensureSlack _)

/-- There are enough free bytes behind the strings. -/
theorem ensureSlack_of_le (h : min (b.size + sizeOfSizeT) noIndex ≤ b.capacity) :
    ensureSlack g b = b := by
  unfold ensureSlack
  split
  · rename_i hlt
    have hle : noIndex ≤ b.capacity := (min_le_iff.mp h).resolve_left (not_le.mpr hlt)
    rw [if_pos (by unfold noIndex sizeOfSizeT at *; omega), Buffer.reserve_of_le g hle]
  · rfl

/-- There are too few free bytes behind the strings. -/
theorem block_ensureSlack_of_lt (h : b.capacity < min (b.size + sizeOfSizeT) noIndex) :
    b.block < (ensureSlack g b).block := by
  obtain ⟨hslack, hmax⟩ := lt_min_iff.mp h
  unfold ensureSlack
  rw [if_pos hslack]
  split
  · exact (Nat.lt_succ_self _).trans_eq (Buffer.block_reserve_of_lt g hmax).symm
  · have htwice : b.capacity < b.size * 2 + sizeOfSizeT := by omega
    exact (Nat.lt_succ_self _).trans_eq (Buffer.block_reserve_of_lt g htwice).symm

theorem stays_pushString (h : neededCapacity (b.size + (string.length + 1)) ≤ b.capacity) :
    b.Stays (pushString g b string) := by
  obtain ⟨hsize, hslack⟩ := max_le_iff.mp h
  have hlength : (string ++ [0]).length = string.length + 1 := List.length_append
  have hstays := Buffer.stays_append g (hlength.symm ▸ hsize)
  unfold pushString
  rw [ensureSlack_of_le]
  · exact hstays
  · rw [Buffer.append_size, hlength, hstays.capacity]
    exact hslack

theorem block_pushString_of_lt (h : b.capacity < neededCapacity (b.size + (string.length + 1))) :
    b.block < (pushString g b string).block := by
  have hlength : (string ++ [0]).length = string.length + 1 := List.length_append
  unfold pushString
  rcases le_or_gt (b.size + (string.length + 1)) b.capacity with hsize | hsize
  · have hstays := Buffer.stays_append g (hlength.symm ▸ hsize)
    rw [← hstays.block]
    refine block_ensureSlack_of_lt ?_
    rw [Buffer.append_size, hlength, hstays.capacity]
    exact (lt_max_iff.mp h).resolve_left (not_lt.mpr hsize)
  · have hmoved := Buffer.block_append_of_lt g (hlength.symm ▸ hsize)
    exact (Nat.lt_succ_self _).trans_le (hmoved.ge.trans (block_le_ensureSlack _))

end Storing

/-! ### Inserting strings -/

theorem totalLength_cons (string : List UInt8) (strings : List (List UInt8)) :
    totalLength (string :: strings) = string.length + 1 + totalLength strings := rfl

theorem totalLength_accepted_le (size : ℕ) (strings : List (List UInt8)) :
    totalLength (accepted size strings) ≤ totalLength strings := by
  induction strings generalizing size with
  | nil => exact le_rfl
  | cons string strings ih =>
    rw [accepted]
    split
    · exact Nat.zero_le _
    · rw [totalLength_cons, totalLength_cons]
      exact Nat.add_le_add_left (ih _) _

namespace InMemory

section Inserting

variable {g : Growth} {d d' : InMemory} {string : List UInt8} {strings : List (List UInt8)}

theorem insert_of_refuses (h : refuses d.packedStrings.size string = true) :
    ∃ e, d.insert g string = .error e := by
  unfold insert
  split
  · exact ⟨_, rfl⟩
  · exact ⟨_, rfl⟩

/-- An insertion that does not make the hash index grow. -/
theorem insert_of_not_shouldGrow (hv : d.hashIndex.Valid) (hgrow : d.hashIndex.shouldGrow = false)
    (h : refuses d.packedStrings.size string = false) :
    ∃ hashIndex, d.insert g string = .ok (⟨pushString g d.packedStrings string,
        d.offsets.append g [(pushString g d.packedStrings string).size % 2 ^ 32], hashIndex⟩,
        subU d.offsets.size 1) ∧
      hashIndex.Valid ∧ d.hashIndex.Stays hashIndex ∧
      hashIndex.grower.size = d.hashIndex.grower.size + 1 ∧
      hashIndex.grower.collisions ≤ d.hashIndex.grower.collisions + 1 := by
  obtain ⟨hashIndex, hrun, hvalid, hstays, hsize, hcollisions, -⟩ := hv.insert_of_not_shouldGrow
    (hashFunction ⟨(pushString g d.packedStrings string).elements, d.offsets.elements⟩) string hgrow
    (subU d.offsets.size 1)
  refine ⟨hashIndex, ?_, hvalid, hstays, hsize, hcollisions⟩
  have hshort : ¬ noIndex ≤ string.length := fun hlong =>
    of_decide_eq_false h (.inl hlong)
  rw [insert, if_neg hshort, if_neg (Bool.eq_false_iff.mp h)]
  dsimp only
  rw [hrun]
  rfl

/-- Some insertions, when there is room for the offsets and in the hash index. -/
theorem insertAll_spec (hv : d.hashIndex.Valid)
    (hhash : d.hashIndex.grower.size + d.hashIndex.grower.collisions + 2 * strings.length <
      d.hashIndex.grower.capacity)
    (hoffsets : d.offsets.size + strings.length ≤ d.offsets.capacity) :
    (d.insertAll g strings).offsets.block = d.offsets.block ∧
      (d.insertAll g strings).hashIndex.block = d.hashIndex.block ∧
      d.packedStrings.block ≤ (d.insertAll g strings).packedStrings.block ∧
      ((d.insertAll g strings).packedStrings.block = d.packedStrings.block ↔
        accepted d.packedStrings.size strings = [] ∨
          neededCapacity (d.packedStrings.size + totalLength (accepted d.packedStrings.size strings)) ≤
            d.packedStrings.capacity) := by
  induction strings generalizing d with
  | nil => exact ⟨rfl, rfl, le_rfl, iff_of_true rfl (.inl rfl)⟩
  | cons string strings ih =>
    rw [insertAll, accepted]
    cases hrefuses : refuses d.packedStrings.size string with
    | true =>
      obtain ⟨e, he⟩ := insert_of_refuses (g := g) hrefuses
      rw [he, if_pos rfl]
      exact ⟨rfl, rfl, le_rfl, iff_of_true rfl (.inl rfl)⟩
    | false =>
      rw [List.length_cons] at hhash hoffsets
      obtain ⟨hashIndex, hinsert, hv₁, hstays, hsize, hcollisions⟩ :=
        @insert_of_not_shouldGrow g d string hv (decide_eq_false (by omega)) hrefuses
      have hoffset : d.offsets.Stays
          (d.offsets.append g [(pushString g d.packedStrings string).size % 2 ^ 32]) := by
        refine Buffer.stays_append g ?_
        rw [List.length_singleton]
        omega
      have hhash₁ : hashIndex.grower.size + hashIndex.grower.collisions + 2 * strings.length <
          hashIndex.grower.capacity := by
        rw [hsize, hstays.capacity]
        omega
      have hoffsets₁ : (d.offsets.append g
          [(pushString g d.packedStrings string).size % 2 ^ 32]).size + strings.length ≤
            (d.offsets.append g [(pushString g d.packedStrings string).size % 2 ^ 32]).capacity := by
        rw [hoffset.capacity, Buffer.append_size, List.length_singleton]
        omega
      rw [hinsert, if_neg Bool.false_ne_true]
      dsimp only
      obtain ⟨hoff, hhash', hle, hiff⟩ := @ih ⟨pushString g d.packedStrings string,
        d.offsets.append g [(pushString g d.packedStrings string).size % 2 ^ 32], hashIndex⟩ hv₁ hhash₁
        hoffsets₁
      refine ⟨hoff.trans hoffset.block, hhash'.trans hstays.block,
        (block_le_pushString _ _).trans hle, ?_⟩
      dsimp only at hle hiff
      rw [pushString_size] at hle hiff ⊢
      rw [or_iff_right (List.cons_ne_nil _ _), totalLength_cons,
        ← Nat.add_assoc d.packedStrings.size (string.length + 1)]
      rcases le_or_gt (neededCapacity (d.packedStrings.size + (string.length + 1)))
        d.packedStrings.capacity with hfits | hmoves
      · have hkeeps : d.packedStrings.Stays (pushString g d.packedStrings string) :=
          stays_pushString hfits
        rw [hkeeps.block, hkeeps.capacity] at hiff
        rw [hiff]
        refine or_iff_right_of_imp fun hnil => ?_
        rwa [hnil]
      · have hmoved : d.packedStrings.block < (pushString g d.packedStrings string).block :=
          block_pushString_of_lt hmoves
        exact iff_of_false (hmoved.trans_le hle).ne' (not_le.mpr (hmoves.trans_le
          (neededCapacity_mono (Nat.le_add_right _ _))))

/-- An insertion is the one of the strings alone, as long as sizes fit into an index. -/
theorem insert_contents {result : ℕ} (h : d.insert g string = .ok (d', result))
    (hsize : d.packedStrings.size + (string.length + 1) < 2 ^ 32) (hpos : 1 ≤ d.offsets.size)
    (hcount : d.offsets.size < 2 ^ 32) :
    (d'.contents, result) = d.contents.insert string := by
  have hpushed : (pushString g d.packedStrings string).elements =
      d.packedStrings.elements ++ string ++ [0] := by
    rw [pushString, ensureSlack_elements, Buffer.append_elements, List.append_assoc]
  unfold InMemory.insert at h
  split at h
  · exact nomatch h
  split at h
  · exact nomatch h
  obtain ⟨hashIndex, -, h⟩ := bind_eq_ok.mp h
  obtain ⟨rfl, rfl⟩ := Prod.mk.inj (Except.ok.inj h)
  have hindex : subU d.offsets.size 1 = d.offsets.elements.length - 1 := subU_of_le hpos hcount
  rw [contents, Buffer.append_elements, pushString_size, hpushed, Nat.mod_eq_of_lt hsize, hindex]
  simp only [CStringDictionary.insert, contents, CStringDictionary.size, Buffer.size,
    List.length_append, List.length_singleton, Nat.add_assoc]

/-- The states of a dictionary. -/
inductive Reached (g : Growth) : InMemory → Prop
  | init {d : InMemory} : init g = .ok d → Reached g d
  | insert {d d' : InMemory} {string : List UInt8} {result : ℕ} :
      Reached g d → d.insert g string = .ok (d', result) → Reached g d'
  | reserve {d d' : InMemory} {stringCount charCount : ℕ} :
      Reached g d → d.reserve g stringCount charCount = .ok d' → Reached g d'
  | clear {d d' : InMemory} : Reached g d → d.clear g = .ok d' → Reached g d'

theorem initializeStrings_valid (hv : d.hashIndex.Valid) (h : initializeStrings g d = .ok d') :
    d'.hashIndex.Valid := by
  obtain ⟨hashIndex, hinsert, hd⟩ := bind_eq_ok.mp h
  obtain rfl := Except.ok.inj hd
  exact hv.of_insert hinsert

/-- The hash index always has an empty bucket. -/
theorem Reached.valid (h : Reached g d) : d.hashIndex.Valid := by
  induction h with
  | init hd => exact initializeStrings_valid QuickHash.init_valid hd
  | insert _ hd ih =>
    unfold InMemory.insert at hd
    split at hd
    · exact nomatch hd
    split at hd
    · exact nomatch hd
    obtain ⟨hashIndex, hinsert, hd⟩ := bind_eq_ok.mp hd
    obtain rfl := congrArg Prod.fst (Except.ok.inj hd)
    exact ih.of_insert hinsert
  | reserve _ hd ih =>
    obtain ⟨hashIndex, hreserve, hd⟩ := bind_eq_ok.mp hd
    obtain rfl := Except.ok.inj hd
    exact ih.of_reserve hreserve
  | clear _ hd ih => exact initializeStrings_valid ih.clear hd

end Inserting

/-! ### A dictionary with little room -/

/-- Room for ten strings, but only for nine characters. -/
def reserved : Except Fault InMemory := do
  let d ← init .tight
  d.reserve .tight 10 9

theorem reserved_spec : ∃ d, reserved = .ok d ∧ Reached .tight d ∧
    d.canInsertThreadSafely 1 16 = true ∧ d.packedStrings.size = 1 ∧ d.packedStrings.capacity = 17 := by
  have hrun : (do
      let d ← reserved
      pure (d.canInsertThreadSafely 1 16, d.packedStrings.size, d.packedStrings.capacity)) =
        (.ok (true, 1, 17) : Except Fault _) := by
    decide +kernel
  obtain ⟨d, hd, hvalues⟩ := bind_eq_ok.mp hrun
  simp only [pure, Except.pure, Except.ok.injEq, Prod.mk.injEq] at hvalues
  obtain ⟨d₀, hinit, hreserve⟩ := bind_eq_ok.mp hd
  exact ⟨d, hd, .reserve (.init hinit) hreserve, hvalues⟩

section Safety

variable {g : Growth} {d : InMemory} {strings : List (List UInt8)}

/-- **Whether the strings move in memory, although the test says that they can be inserted safely.**
The offsets and the hash index never do. -/
theorem keeps_iff (hv : d.hashIndex.Valid) {elements chars : ℕ}
    (hcan : d.canInsertThreadSafely elements chars = true) (hcount : strings.length ≤ elements)
    (hchars : totalLength strings ≤ chars) :
    d.Keeps (d.insertAll g strings) ↔ accepted d.packedStrings.size strings = [] ∨
      min (d.packedStrings.size + totalLength (accepted d.packedStrings.size strings) + sizeOfSizeT)
        noIndex ≤ d.packedStrings.capacity := by
  obtain ⟨hpacked, hoffsets, hgrowth⟩ := of_decide_eq_true hcan
  have hhash : d.hashIndex.grower.size + d.hashIndex.grower.collisions + 2 * strings.length <
      d.hashIndex.grower.capacity := by
    have hroom := not_le.mp fun h => hgrowth (decide_eq_true h)
    omega
  obtain ⟨hoff, hhash', -, hiff⟩ :=
    @insertAll_spec g d strings hv hhash (le_trans (Nat.add_le_add_left hcount _) hoffsets)
  have hkeeps : d.Keeps (d.insertAll g strings) ↔
      (d.insertAll g strings).packedStrings.block = d.packedStrings.block :=
    ⟨Keeps.packedStrings, fun h => ⟨h, hoff, hhash'⟩⟩
  rw [hkeeps, hiff, neededCapacity, max_le_iff, and_iff_right]
  have htotal := totalLength_accepted_le d.packedStrings.size strings
  omega

/-- There is enough room for one short string. -/
theorem keeps_iff_reserved : ∃ d, reserved = .ok d ∧
    (d.Keeps (d.insertAll .tight [[97]]) ↔ accepted d.packedStrings.size [[97]] = [] ∨
      min (d.packedStrings.size + totalLength (accepted d.packedStrings.size [[97]]) + sizeOfSizeT)
        noIndex ≤ d.packedStrings.capacity) := by
  obtain ⟨d, hd, hreached, hcan, -⟩ := reserved_spec
  exact ⟨d, hd, keeps_iff hreached.valid hcan (by decide) (by decide)⟩

/-- A string of 15 characters fits, but leaves no free bytes behind it. -/
theorem canInsertThreadSafely_forgets_slack : ¬ ∀ (g : Growth) (d : InMemory), Reached g d →
    ∀ (elements chars : ℕ) (strings : List (List UInt8)),
      d.canInsertThreadSafely elements chars = true → strings.length ≤ elements →
      totalLength strings ≤ chars → d.Keeps (d.insertAll g strings) := by
  intro h
  obtain ⟨d, -, hreached, hcan, hsize, hcapacity⟩ := reserved_spec
  have hkeeps := h .tight d hreached 1 16 [List.replicate 15 97] hcan (by decide) (by decide)
  have hhash : d.hashIndex.grower.size + d.hashIndex.grower.collisions + 2 * 1 <
      d.hashIndex.grower.capacity := not_le.mp fun hle =>
    (of_decide_eq_true hcan).2.2 (decide_eq_true hle)
  obtain ⟨-, -, -, hiff⟩ := @insertAll_spec .tight d [List.replicate 15 97] hreached.valid hhash
    (of_decide_eq_true hcan).2.1
  have hfits := hiff.mp hkeeps.packedStrings
  rw [hsize, hcapacity] at hfits
  exact absurd hfits (by decide)

end Safety

end InMemory

end CStringDictionary

end TortoiseSvn.LogCache
