import Mathlib.Logic.Relation
import TortoiseSvn.Streams.CacheFile

/-!
# Opening a cache file

The reader checks the numbers that it takes from a cache file, but not all of them. Three things are
left unchecked: a sub-stream may be the stream itself or one that is being opened already, the size
of a directory is taken to be a third of what it is, and the decoder of the data trusts its source.

Main result: `openRootStream_iff`, exactly when the opening of a file ends with an exception or with
a tree of streams that lie in the file.
-/

namespace TortoiseSvn.LogCache

open TortoiseSvn.Lib

/-- The outcome is an exception of the reader or a value. -/
def Handled {α : Type} (r : Except Fault α) : Prop :=
  (∃ text, r = .error (.streamException text)) ∨ ∃ a, r = .ok a

/-! ### The list of streams -/

section File

variable (file : List UInt8)

/-- The number at an offset. -/
def dword (offset : ℕ) : ℕ := leNat ((file.drop offset).take 4)

/-- The last number of the file. -/
def streamCountOf : ℕ := dword file (file.length - 4)

/-- The ends of streams whose sizes stand at an offset. -/
def endsFrom : ℕ → ℕ → ℕ → List ℕ
  | 0, _, _ => []
  | count + 1, offset, start =>
    (start + dword file offset) :: endsFrom count (offset + 4) (start + dword file offset)

/-- The end of the contents of all streams. -/
def contentEndOf : ℕ := file.length - (streamCountOf file + 1) * 4

/-- The file and the places of its streams. -/
def streamsOf : CCacheFileInBuffer :=
  ⟨file, 8 :: endsFrom file (streamCountOf file) (contentEndOf file) 8⟩

/-- The file passes the checks in front of the sizes of its streams. -/
structure Listed : Prop where
  size : 12 ≤ file.length
  creator : oldestLogCacheFileVersion ≤ dword file 0
  required : dword file 4 ≤ newestLogCacheFileVersion
  checked : (3 + streamCountOf file) % 2 ^ 32 * 4 ≤ file.length

/-- The sizes of the streams lie in the file. -/
structure ListInside : Prop where
  count : streamCountOf file + 1 < 2 ^ 32
  room : (streamCountOf file + 1) * 4 ≤ file.length

/-- The file has streams that fill it. -/
structure HasStreams : Prop extends Listed file, ListInside file where
  filled : (streamsOf file).streamContents.getLast? = some (contentEndOf file)

variable {file}

theorem dword_lt (offset : ℕ) : dword file offset < 2 ^ 32 := by
  have hlen : ((file.drop offset).take 4).length ≤ 4 := List.length_take_le _ _
  calc dword file offset < 256 ^ ((file.drop offset).take 4).length := leNat_lt _
    _ ≤ 256 ^ 4 := Nat.pow_le_pow_right (by norm_num) hlen
    _ = 2 ^ 32 := by norm_num

theorem getDWORD_of_le {offset : ℕ} (h : offset + 4 ≤ file.length) :
    getDWORD file offset = .ok (dword file offset) := if_pos h

theorem readSizes_eq {count offset : ℕ} (start : ℕ) (h : offset + 4 * count ≤ file.length) :
    CCacheFileInBuffer.readSizes file count offset start =
      .ok (endsFrom file count offset start) := by
  induction count generalizing offset start with
  | zero => rfl
  | succ count ih =>
    rw [CCacheFileInBuffer.readSizes, getDWORD_of_le (by omega)]
    simp only [bind, Except.bind]
    rw [ih _ (by omega)]
    rfl

/-- What becomes of the list of streams. -/
theorem readStreamOffsets_cases (file : List UInt8) :
    (¬ Listed file ∧ ∃ text,
      CCacheFileInBuffer.readStreamOffsets file = .error (.streamException text)) ∨
    (Listed file ∧ ¬ ListInside file ∧
      CCacheFileInBuffer.readStreamOffsets file = .error .undefined) ∨
    (Listed file ∧ ListInside file ∧ ¬ HasStreams file ∧ ∃ text,
      CCacheFileInBuffer.readStreamOffsets file = .error (.streamException text)) ∨
    (HasStreams file ∧ CCacheFileInBuffer.readStreamOffsets file = .ok (streamsOf file)) := by
  unfold CCacheFileInBuffer.readStreamOffsets
  by_cases hsize : file.length < 12
  · rw [if_pos hsize]
    exact .inl ⟨fun h => absurd h.size (by omega), _, rfl⟩
  rw [if_neg hsize]
  simp only [bind, Except.bind, pure, Except.pure]
  rw [getDWORD_of_le (by omega), getDWORD_of_le (by omega)]
  dsimp only
  by_cases hcreator : dword file 0 < oldestLogCacheFileVersion
  · rw [if_pos hcreator]
    exact .inl ⟨fun h => absurd h.creator (by omega), _, rfl⟩
  rw [if_neg hcreator]
  by_cases hrequired : newestLogCacheFileVersion < dword file 4
  · rw [if_pos hrequired]
    exact .inl ⟨fun h => absurd h.required (by omega), _, rfl⟩
  rw [if_neg hrequired, getDWORD_of_le (by omega)]
  dsimp only
  rw [← streamCountOf]
  by_cases hroom : file.length < (3 + streamCountOf file) % 2 ^ 32 * 4
  · rw [if_pos hroom]
    exact .inl ⟨fun h => absurd h.checked (by omega), _, rfl⟩
  rw [if_neg hroom]
  have hlisted : Listed file := ⟨by omega, by omega, by omega, by omega⟩
  have hlt : streamCountOf file < 2 ^ 32 := dword_lt _
  by_cases hinside : ListInside file
  · have hcount : (streamCountOf file + 1) % 2 ^ 32 = streamCountOf file + 1 :=
      Nat.mod_eq_of_lt hinside.count
    have hend : file.length - (streamCountOf file + 1) * 4 = contentEndOf file := rfl
    have hinsideRoom := hinside.room
    rw [hcount, if_neg (by omega)]
    rw [hend, readSizes_eq 8 (by unfold contentEndOf; omega)]
    dsimp only
    have hsame : 8 :: endsFrom file (streamCountOf file) (contentEndOf file) 8 =
        (streamsOf file).streamContents := rfl
    rw [hsame]
    by_cases hfilled : (streamsOf file).streamContents.getLast? = some (contentEndOf file)
    · rw [if_neg (not_not.mpr hfilled)]
      exact .inr (.inr (.inr ⟨⟨hlisted, hinside, hfilled⟩, rfl⟩))
    · rw [if_pos hfilled]
      exact .inr (.inr (.inl ⟨hlisted, hinside, fun h => hfilled h.filled, _, rfl⟩))
  · refine .inr (.inl ⟨hlisted, hinside, ?_⟩)
    by_cases hfront : file.length < (streamCountOf file + 1) % 2 ^ 32 * 4
    · rw [if_pos hfront]
      rfl
    · -- all ones: the sizes begin at the end of the file
      have hones : streamCountOf file = 2 ^ 32 - 1 := by
        by_contra hne
        have hcount : streamCountOf file + 1 < 2 ^ 32 := by omega
        rw [Nat.mod_eq_of_lt hcount] at hfront
        exact hinside ⟨hcount, by omega⟩
      rw [if_neg hfront, hones]
      simp [CCacheFileInBuffer.readSizes, getDWORD, bind, Except.bind]

/-! ### The streams of a file -/

/-- The places of the streams are in order and in the file. -/
structure CCacheFileInBuffer.Mapped (b : CCacheFileInBuffer) : Prop where
  ordered : b.streamContents.Pairwise (· ≤ ·)
  inside : ∀ x ∈ b.streamContents, x ≤ b.file.length
  count : b.streamContents.length < 2 ^ 32

theorem endsFrom_length (count offset start : ℕ) :
    (endsFrom file count offset start).length = count := by
  induction count generalizing offset start with
  | zero => rfl
  | succ count ih => rw [endsFrom, List.length_cons, ih]

theorem le_of_mem_endsFrom {count offset start x : ℕ}
    (h : x ∈ endsFrom file count offset start) : start ≤ x := by
  induction count generalizing offset start with
  | zero => exact absurd h List.not_mem_nil
  | succ count ih =>
    rcases List.mem_cons.mp h with rfl | h
    · exact Nat.le_add_right _ _
    · exact (Nat.le_add_right _ _).trans (ih h)

theorem pairwise_cons_endsFrom (count offset start : ℕ) :
    (start :: endsFrom file count offset start).Pairwise (· ≤ ·) := by
  induction count generalizing offset start with
  | zero => exact List.pairwise_singleton _ _
  | succ count ih =>
    exact List.pairwise_cons.mpr ⟨fun x hx => le_of_mem_endsFrom hx, ih _ _⟩

theorem HasStreams.mapped (h : HasStreams file) : (streamsOf file).Mapped where
  ordered := pairwise_cons_endsFrom _ _ _
  inside := by
    intro x hx
    have hle : x ≤ contentEndOf file := by
      obtain ⟨front, hfront⟩ := List.getLast?_eq_some_iff.mp h.filled
      have hordered := @pairwise_cons_endsFrom file (streamCountOf file)
        (contentEndOf file) 8
      change (streamsOf file).streamContents.Pairwise (· ≤ ·) at hordered
      rw [hfront] at hx hordered
      rcases List.mem_append.mp hx with hx | hx
      · exact (List.pairwise_append.mp hordered).2.2 x hx _ (List.mem_singleton_self _)
      · exact (List.mem_singleton.mp hx).le
    exact hle.trans (Nat.sub_le _ _)
  count := by
    have := h.count
    change (8 :: endsFrom file _ _ 8).length < 2 ^ 32
    rw [List.length_cons, endsFrom_length]
    omega

end File

/-! ### The descent into the sub-streams -/

/-- The indexes of the entries of a directory that are reached, and why no more are. -/
def scan (file : List UInt8) : ℕ → ℕ → List ℕ × Option Fault
  | 0, _ => ([], none)
  | count + 1, source =>
    match readEntry file source with
    | .error e => ([], some e)
    | .ok (index, _, _) =>
      (index :: (scan file count (source + 12)).1, (scan file count (source + 12)).2)

/-- What the rest of a directory leads to, calls having succeeded. -/
def resultOf (e : Option Fault) : Except Fault Unit :=
  match e with
  | none => .ok ()
  | some e => .error e

namespace CCacheFileInBuffer

/-- The streams that a stream opens. -/
def descent (b : CCacheFileInBuffer) : Descent ℕ Fault where
  calls := fun index =>
    match b.readDirectory index with
    | .error _ => []
    | .ok (first, _, count, _) => (scan b.file count (first + 4)).1
  stop := fun index =>
    match b.readDirectory index with
    | .error e => some e
    | .ok (first, _, count, _) => (scan b.file count (first + 4)).2

end CCacheFileInBuffer

section SubStreams

variable {b : CCacheFileInBuffer}

theorem outcome_readEntries {file : List UInt8}
    {createStream : StreamType → ℕ → Option (Except Fault CHierachicalInStream)}
    {call : ℕ → Option (Except Fault Unit)}
    (hcreate : ∀ type index, outcome (createStream type index) = call index) (count source : ℕ)
    (subStreams : List (ℕ × CHierachicalInStream)) :
    outcome (readEntries file createStream count source subStreams) =
      andThen (Descent.sequence call (scan file count source).1) fun _ =>
        some (resultOf (scan file count source).2) := by
  induction count generalizing source subStreams with
  | zero => rfl
  | succ count ih =>
    rw [readEntries, scan, outcome_andThen]
    cases readEntry file source with
    | error e => rfl
    | ok entry =>
      obtain ⟨index, id, type⟩ := entry
      rw [andThen_ok]
      dsimp only
      rw [outcome_andThen, Descent.sequence, ← hcreate type index]
      rcases createStream type index with _ | e | subStream
      · rfl
      · rfl
      · exact ih _ _

theorem descent_of_error {index : ℕ} {e : Fault} (h : b.readDirectory index = .error e) :
    b.descent.calls index = [] ∧ b.descent.stop index = some e := by
  unfold CCacheFileInBuffer.descent
  simp only [h, and_self]

theorem descent_of_ok {index first last count size : ℕ}
    (h : b.readDirectory index = .ok (first, last, count, size)) :
    b.descent.calls index = (scan b.file count (first + 4)).1 ∧
      b.descent.stop index = (scan b.file count (first + 4)).2 := by
  unfold CCacheFileInBuffer.descent
  simp only [h, and_self]

/-- Opening a stream is a descent. -/
theorem outcome_readSubStreams (fuel : ℕ) (type : StreamType) (index : ℕ) :
    outcome (b.readSubStreams fuel type index) = b.descent.run fuel index := by
  induction fuel generalizing type index with
  | zero => rfl
  | succ fuel ih =>
    rw [CCacheFileInBuffer.readSubStreams, Descent.run, outcome_andThen, Descent.leave]
    cases hdir : b.readDirectory index with
    | error e =>
      obtain ⟨hcalls, hstop⟩ := descent_of_error hdir
      rw [hcalls, hstop]
      rfl
    | ok dir =>
      obtain ⟨first, last, count, size⟩ := dir
      obtain ⟨hcalls, hstop⟩ := descent_of_ok hdir
      rw [hcalls, hstop, andThen_ok]
      dsimp only
      rw [outcome_andThen]
      change (andThen (readEntries _ _ _ _ _) fun _ => some (.ok ())) = _
      rw [andThen_eq_outcome _ fun _ => some (.ok ()), outcome_readEntries ih]
      rcases Descent.sequence (b.descent.run fuel) (scan b.file count (first + 4)).1 with _ | e | a
      · rfl
      · rfl
      · cases (scan b.file count (first + 4)).2 <;> rfl

theorem getFactory_cases (type : ℕ) :
    (∃ t, getFactory type = .ok t) ∨ ∃ text, getFactory type = .error (.streamException text) := by
  unfold getFactory
  split
  all_goals first
    | exact .inl ⟨_, rfl⟩
    | exact .inr ⟨_, rfl⟩

/-- An entry of a directory is read, has no class, or is not in the file. -/
theorem readEntry_cases (file : List UInt8) (source : ℕ) :
    (file.length < source + 12 ∧ readEntry file source = .error .undefined) ∨
    (source + 12 ≤ file.length ∧
      ((∃ type, getFactory (dword file (source + 8)) = .ok type ∧
        readEntry file source = .ok (dword file source, dword file (source + 4), type)) ∨
      ((¬ ∃ type, getFactory (dword file (source + 8)) = .ok type) ∧
        ∃ text, readEntry file source = .error (.streamException text)))) := by
  unfold readEntry
  simp only [bind, Except.bind]
  by_cases h₁ : source + 4 ≤ file.length
  · rw [getDWORD_of_le h₁]
    dsimp only
    by_cases h₂ : source + 4 + 4 ≤ file.length
    · rw [getDWORD_of_le h₂]
      dsimp only
      by_cases h₃ : source + 8 + 4 ≤ file.length
      · rw [getDWORD_of_le h₃]
        refine .inr ⟨by omega, ?_⟩
        rcases getFactory_cases (dword file (source + 8)) with ⟨type, hf⟩ | ⟨text, hf⟩
        · exact .inl ⟨type, hf, by simp only [hf]; rfl⟩
        · refine .inr ⟨?_, text, by simp only [hf]⟩
          rintro ⟨type, hf'⟩
          rw [hf] at hf'
          exact nomatch hf'
      · rw [getDWORD, if_neg h₃]
        exact .inl ⟨by omega, rfl⟩
    · rw [getDWORD, if_neg h₂]
      exact .inl ⟨by omega, rfl⟩
  · rw [getDWORD, if_neg h₁]
    exact .inl ⟨by omega, rfl⟩

/-- An entry of a directory is behind the end of the file, and all in front of it have a class. -/
def Overruns (file : List UInt8) (count source : ℕ) : Prop :=
  ∃ k < count, file.length < source + 12 * k + 12 ∧
    ∀ j < k, ∃ type, getFactory (dword file (source + 12 * j + 8)) = .ok type

/-- The entries that are reached lie in the file, except if one overruns it. -/
theorem scan_cases (file : List UInt8) (count source : ℕ) :
    (Overruns file count source ∧ (scan file count source).2 = some .undefined) ∨
    (¬ Overruns file count source ∧ ((scan file count source).2 = none ∨
      ∃ text, (scan file count source).2 = some (.streamException text))) := by
  induction count generalizing source with
  | zero => exact .inr ⟨fun ⟨k, hk, _⟩ => absurd hk (Nat.not_lt_zero k), .inl rfl⟩
  | succ count ih =>
    rcases readEntry_cases file source with ⟨hlt, hread⟩ | ⟨hle, ⟨type, hf, hread⟩ | ⟨hf, text, hread⟩⟩
    · refine .inl ⟨⟨0, Nat.succ_pos _, by omega, fun j hj => absurd hj (Nat.not_lt_zero j)⟩, ?_⟩
      rw [scan, hread]
    · -- the same holds of the rest
      have hscan : (scan file (count + 1) source).2 = (scan file count (source + 12)).2 := by
        rw [scan, hread]
      have hiff : Overruns file (count + 1) source ↔ Overruns file count (source + 12) := by
        constructor
        · rintro ⟨k, hk, hlt, hknown⟩
          cases k with
          | zero => omega
          | succ k =>
            refine ⟨k, by omega, by omega, fun j hj => ?_⟩
            have := hknown (j + 1) (by omega)
            rwa [show source + 12 * (j + 1) + 8 = source + 12 + 12 * j + 8 by ring] at this
        · rintro ⟨k, hk, hlt, hknown⟩
          refine ⟨k + 1, by omega, by omega, fun j hj => ?_⟩
          cases j with
          | zero => exact ⟨type, hf⟩
          | succ j =>
            rw [show source + 12 * (j + 1) + 8 = source + 12 + 12 * j + 8 by ring]
            exact hknown j (by omega)
      rw [hscan, hiff]
      exact ih (source + 12)
    · refine .inr ⟨?_, .inr ⟨text, by rw [scan, hread]⟩⟩
      rintro ⟨k, hk, hlt, hknown⟩
      cases k with
      | zero => omega
      | succ k => exact hf (by simpa using hknown 0 (Nat.succ_pos k))

/-- A directory that is accepted: the stream lies in the file, and its data behind what the
directory is taken to be. -/
structure Directory (b : CCacheFileInBuffer) (index first last count size : ℕ) : Prop where
  index_lt : index < b.streamContents.length
  count_eq : count = dword b.file first
  header : first + 4 ≤ last
  data : first + size ≤ last
  inside : last ≤ b.file.length

theorem readDirectory_cases (h : b.Mapped) (index : ℕ) :
    (∃ text, b.readDirectory index = .error (.streamException text)) ∨
    ∃ first last count size, b.readDirectory index = .ok (first, last, count, size) ∧
      Directory b index first last count size := by
  unfold CCacheFileInBuffer.readDirectory CCacheFileInBuffer.getStreamBuffer
  simp only [bind, Except.bind]
  by_cases hindex : 2 ^ 31 ≤ index ∨ b.streamContents.length - 1 ≤ index
  · rw [if_pos hindex]
    exact .inl ⟨_, rfl⟩
  rw [if_neg hindex]
  have h₀ : index < b.streamContents.length := by omega
  have h₁ : index + 1 < b.streamContents.length := by omega
  have hle : b.streamContents[index] ≤ b.streamContents[index + 1] :=
    List.pairwise_iff_getElem.mp h.ordered index (index + 1) h₀ h₁ (Nat.lt_succ_self index)
  have hinside := h.inside _ (List.getElem_mem h₁)
  rw [List.getElem?_eq_getElem h₀, List.getElem?_eq_getElem h₁]
  generalize b.streamContents[index] = first at hle
  generalize b.streamContents[index + 1] = last at hle hinside
  simp only [pure, Except.pure, checked]
  by_cases hshort : last - first < 4
  · rw [if_pos hshort]
    exact .inl ⟨_, rfl⟩
  rw [if_neg hshort, getDWORD_of_le (by omega)]
  dsimp only
  by_cases hsize : last - first < (dword b.file first + 1) % 2 ^ 32 * 4
  · rw [if_pos hsize]
    exact .inl ⟨_, rfl⟩
  · rw [if_neg hsize]
    exact .inr ⟨_, _, _, _, rfl, h₀, rfl, by omega, by omega, hinside⟩

theorem directory_of_read (h : b.Mapped) {index first last count size : ℕ}
    (hdir : b.readDirectory index = .ok (first, last, count, size)) :
    Directory b index first last count size := by
  rcases readDirectory_cases h index with ⟨text, hbad⟩ | ⟨first', last', count', size', hdir', hd⟩
  · rw [hdir] at hbad
    exact nomatch hbad
  · obtain ⟨rfl, rfl, rfl, rfl⟩ : first = first' ∧ last = last' ∧ count = count' ∧
        size = size' := by
      rw [hdir] at hdir'
      simpa using hdir'
    exact hd

/-- Only streams of the file have sub-streams. -/
theorem mem_of_calls_ne_nil (h : b.Mapped) {index : ℕ} (hne : b.descent.calls index ≠ []) :
    index ∈ Finset.range b.streamContents.length := by
  rcases readDirectory_cases h index with ⟨text, hdir⟩ | ⟨first, last, count, size, -, hd⟩
  · exact absurd (descent_of_error hdir).1 hne
  · exact Finset.mem_range.mpr hd.index_lt

/-- A stream whose directory overruns the file. -/
def Overrun (b : CCacheFileInBuffer) (index : ℕ) : Prop :=
  ∃ first last count size, b.readDirectory index = .ok (first, last, count, size) ∧
    Overruns b.file count (first + 4)

theorem stop_cases (h : b.Mapped) (index : ℕ) :
    (Overrun b index ∧ b.descent.stop index = some .undefined) ∨
    (¬ Overrun b index ∧ (b.descent.stop index = none ∨
      ∃ text, b.descent.stop index = some (.streamException text))) := by
  rcases readDirectory_cases h index with ⟨text, hdir⟩ | ⟨first, last, count, size, hdir, -⟩
  · refine .inr ⟨?_, .inr ⟨text, (descent_of_error hdir).2⟩⟩
    rintro ⟨first, last, count, size, hok, -⟩
    rw [hdir] at hok
    exact nomatch hok
  · have hiff : Overrun b index ↔ Overruns b.file count (first + 4) := by
      constructor
      · rintro ⟨first', last', count', size', hok, ho⟩
        rw [hdir] at hok
        injection hok with hok
        injection hok with h₁ hok
        injection hok with h₂ hok
        injection hok with h₃ h₄
        subst h₁ h₃
        exact ho
      · exact fun ho => ⟨first, last, count, size, hdir, ho⟩
    rw [hiff, (descent_of_ok hdir).2]
    exact scan_cases b.file count (first + 4)

/-- The data of a stream and of all its sub-streams lies in the file. -/
inductive CHierachicalInStream.Within (size : ℕ) : CHierachicalInStream → Prop
  | node {type : StreamType} {first last : ℕ} {subStreams : List (ℕ × CHierachicalInStream)} :
      first ≤ last → last ≤ size → (∀ s ∈ subStreams, Within size s.2) →
        Within size (.node type first last subStreams)

theorem mem_emplace {α : Type} {subStreams : List (ℕ × α)} {id : ℕ} {subStream : α} {s : ℕ × α}
    (h : s ∈ emplace subStreams id subStream) : s ∈ subStreams ∨ s.2 = subStream := by
  unfold emplace at h
  split at h
  · exact .inl h
  · rcases List.mem_append.mp h with h | h
    · exact .inl h
    · exact .inr (by rw [List.mem_singleton.mp h])

theorem readEntries_forall {file : List UInt8} {P : CHierachicalInStream → Prop}
    {createStream : StreamType → ℕ → Option (Except Fault CHierachicalInStream)}
    (hcreate : ∀ type index s, createStream type index = some (.ok s) → P s) {count source : ℕ}
    {subStreams result : List (ℕ × CHierachicalInStream)} (hsub : ∀ s ∈ subStreams, P s.2)
    (h : readEntries file createStream count source subStreams = some (.ok result)) :
    ∀ s ∈ result, P s.2 := by
  induction count generalizing source subStreams with
  | zero =>
    obtain rfl : subStreams = result := by simpa [readEntries] using h
    exact hsub
  | succ count ih =>
    rw [readEntries] at h
    cases hread : readEntry file source with
    | error e =>
      rw [hread] at h
      exact nomatch h
    | ok entry =>
      obtain ⟨index, id, type⟩ := entry
      rw [hread, andThen_ok] at h
      dsimp only at h
      rcases hs : createStream type index with _ | e | subStream
      · rw [hs] at h
        exact nomatch h
      · rw [hs] at h
        exact nomatch h
      · rw [hs, andThen_ok] at h
        refine ih (fun s hmem => ?_) h
        rcases mem_emplace hmem with hmem | hmem
        · exact hsub s hmem
        · exact hmem ▸ hcreate type index subStream hs

/-- All streams that are opened lie in the file. -/
theorem readSubStreams_within (h : b.Mapped) {fuel index : ℕ} {type : StreamType}
    {s : CHierachicalInStream} (hs : b.readSubStreams fuel type index = some (.ok s)) :
    s.Within b.file.length := by
  induction fuel generalizing type index s with
  | zero => exact nomatch hs
  | succ fuel ih =>
    rw [CCacheFileInBuffer.readSubStreams] at hs
    rcases readDirectory_cases h index with ⟨text, hdir⟩ | ⟨first, last, count, size, hdir, hd⟩
    · rw [hdir] at hs
      exact nomatch hs
    · rw [hdir, andThen_ok] at hs
      dsimp only at hs
      rcases hentries : readEntries b.file (b.readSubStreams fuel) count (first + 4) [] with
        _ | e | subStreams
      · rw [hentries] at hs
        exact nomatch hs
      · rw [hentries] at hs
        exact nomatch hs
      · rw [hentries, andThen_ok] at hs
        obtain rfl : CHierachicalInStream.node type (first + size) last subStreams = s := by
          simpa using hs
        exact .node hd.data hd.inside
          (readEntries_forall (fun type index s => ih) (fun s hs => absurd hs List.not_mem_nil)
            hentries)

theorem readEntries_mono {file : List UInt8}
    {f g : StreamType → ℕ → Option (Except Fault CHierachicalInStream)}
    (hfg : ∀ type index r, f type index = some r → g type index = some r) {count source : ℕ}
    {subStreams : List (ℕ × CHierachicalInStream)}
    {r : Except Fault (List (ℕ × CHierachicalInStream))}
    (h : readEntries file f count source subStreams = some r) :
    readEntries file g count source subStreams = some r := by
  induction count generalizing source subStreams with
  | zero => exact h
  | succ count ih =>
    rw [readEntries] at h ⊢
    cases hread : readEntry file source with
    | error e =>
      rw [hread] at h
      exact h
    | ok entry =>
      obtain ⟨index, id, type⟩ := entry
      rw [hread, andThen_ok] at h
      rw [andThen_ok]
      dsimp only at h ⊢
      cases hf : f type index with
      | none =>
        rw [hf] at h
        exact nomatch h
      | some r' =>
        rw [hf] at h
        rw [hfg type index r' hf]
        cases r' with
        | error e => exact h
        | ok s => exact ih h

theorem readSubStreams_succ {fuel index : ℕ} {type : StreamType}
    {r : Except Fault CHierachicalInStream} (h : b.readSubStreams fuel type index = some r) :
    b.readSubStreams (fuel + 1) type index = some r := by
  induction fuel generalizing type index r with
  | zero => exact nomatch h
  | succ fuel ih =>
    rw [CCacheFileInBuffer.readSubStreams] at h ⊢
    cases hdir : b.readDirectory index with
    | error e =>
      rw [hdir] at h
      exact h
    | ok dir =>
      obtain ⟨first, last, count, size⟩ := dir
      rw [hdir, andThen_ok] at h
      rw [andThen_ok]
      dsimp only at h ⊢
      cases hentries : readEntries b.file (b.readSubStreams fuel) count (first + 4) [] with
      | none =>
        rw [hentries] at h
        exact nomatch h
      | some r' =>
        rw [readEntries_mono (fun type index r => ih) hentries]
        rw [hentries] at h
        exact h

theorem readSubStreams_mono {n m index : ℕ} {type : StreamType}
    {r : Except Fault CHierachicalInStream} (hnm : n ≤ m)
    (h : b.readSubStreams n type index = some r) : b.readSubStreams m type index = some r := by
  induction hnm with
  | refl => exact h
  | step _ ih => exact readSubStreams_succ ih

/-- The data of a stream begins behind what its directory is taken to be. -/
theorem readSubStreams_node {fuel index : ℕ} {type : StreamType} {s : CHierachicalInStream}
    (h : b.readSubStreams fuel type index = some (.ok s)) :
    ∃ first last count size subStreams, b.readDirectory index = .ok (first, last, count, size) ∧
      s = .node type (first + size) last subStreams := by
  cases fuel with
  | zero => exact nomatch h
  | succ fuel =>
    rw [CCacheFileInBuffer.readSubStreams] at h
    cases hdir : b.readDirectory index with
    | error e =>
      rw [hdir] at h
      exact nomatch h
    | ok dir =>
      obtain ⟨first, last, count, size⟩ := dir
      rw [hdir, andThen_ok] at h
      dsimp only at h
      rcases hentries : readEntries b.file (b.readSubStreams fuel) count (first + 4) [] with
        _ | e | subStreams
      · rw [hentries] at h
        exact nomatch h
      · rw [hentries] at h
        exact nomatch h
      · rw [hentries, andThen_ok] at h
        exact ⟨first, last, count, size, subStreams, rfl, by simpa using h.symm⟩

/-- A stream is opened with all its sub-streams, or refused, iff no stream is opened inside itself
and no directory on the way overruns the file. -/
theorem readSubStreams_handled_iff (h : b.Mapped) (type : StreamType) (index : ℕ) :
    (∃ fuel r, b.readSubStreams fuel type index = some r ∧ Handled r) ↔
      (∀ stack, b.descent.Entered index stack → stack.Nodup) ∧
      ∀ v stack, b.descent.Entered index (v :: stack) →
        (∀ c ∈ b.descent.calls v, b.descent.Fine c) → ¬ Overrun b v := by
  rw [← Descent.run_ends_iff fun v => mem_of_calls_ne_nil h]
  constructor
  · rintro ⟨fuel, r, hr, hhandled⟩
    have hrun : b.descent.run fuel index = some (r.map fun _ => ()) := by
      rw [← outcome_readSubStreams fuel type index, hr]
      rfl
    refine ⟨⟨fuel, _, hrun⟩, fun v stack hv hfine hover => ?_⟩
    rcases stop_cases h v with ⟨-, hstop⟩ | ⟨hnot, -⟩
    · obtain ⟨n, hn⟩ := Descent.run_error_iff.mpr ⟨v, stack, hv, hfine, hstop⟩
      have hundefined := Descent.run_unique hrun hn
      rcases hhandled with ⟨text, rfl⟩ | ⟨s, rfl⟩
      · injection hundefined with hundefined
        exact nomatch hundefined
      · exact nomatch hundefined
    · exact hnot hover
  · rintro ⟨⟨fuel, o, ho⟩, hover⟩
    have hrun := ho
    rw [← outcome_readSubStreams fuel type index] at ho
    obtain ⟨r, hr, rfl⟩ := outcome_eq_some ho
    refine ⟨fuel, r, hr, ?_⟩
    cases r with
    | ok s => exact .inr ⟨s, rfl⟩
    | error e =>
      obtain ⟨v, stack, hv, hfine, hstop⟩ := Descent.run_error_iff.mp ⟨fuel, hrun⟩
      rcases stop_cases h v with ⟨hbad, -⟩ | ⟨-, hnone | ⟨text, htext⟩⟩
      · exact absurd hbad (hover v stack hv hfine)
      · rw [hstop] at hnone
        exact nomatch hnone
      · rw [hstop] at htext
        exact .inl ⟨text, by rw [Option.some.inj htext]⟩

end SubStreams

/-! ### The blocks of a stream -/

/-- What the decoder knows in front of a block: its table, what can be read, how much of it belongs
to the stream, and how many bytes it has yet to decode. -/
structure BlockState where
  decoder : CHuffmanDecoder
  bytes : List UInt8
  remaining : ℕ
  room : ℕ

/-- The block behind a block that can be decoded. -/
inductive NextBlock : BlockState → BlockState → Prop
  | empty {s : BlockState} : 0 < s.room → CHuffmanDecoder.EmptyBlock s.bytes s.remaining →
      NextBlock s ⟨s.decoder, s.bytes.drop 8, s.remaining - 8, s.room⟩
  | plain {s : BlockState} : CHuffmanDecoder.PlainBlock s.bytes s.remaining s.room →
      NextBlock s ⟨s.decoder, s.bytes.drop (9 + CHuffmanDecoder.decodedSizeOf s.bytes),
        s.remaining - (9 + CHuffmanDecoder.decodedSizeOf s.bytes),
        s.room - CHuffmanDecoder.decodedSizeOf s.bytes⟩
  | coded {s : BlockState} : CHuffmanDecoder.CodedBlock s.bytes s.remaining s.room →
      NextBlock s ⟨s.decoder.withTable (s.bytes.drop 8),
        s.bytes.drop (CHuffmanDecoder.encodedSizeOf s.bytes),
        s.remaining - CHuffmanDecoder.encodedSizeOf s.bytes,
        s.room - CHuffmanDecoder.decodedSizeOf s.bytes⟩

/-- The decoder stays in what can be read. -/
def BlockState.Safe (s : BlockState) : Prop :=
  CHuffmanDecoder.CodedBlock s.bytes s.remaining s.room →
    (s.decoder.withTable (s.bytes.drop 8)).InBounds
      (s.bytes.drop (CHuffmanDecoder.headerLen s.bytes)) (CHuffmanDecoder.decodedSizeOf s.bytes)

/-- All blocks from one on are decoded inside of what can be read. -/
def BlocksSafe (s : BlockState) : Prop := ∀ s', Relation.ReflTransGen NextBlock s s' → s'.Safe

section Blocks

open CHuffmanDecoder

variable {s s' : BlockState}

theorem blocksSafe_iff : BlocksSafe s ↔ s.Safe ∧ ∀ s', NextBlock s s' → BlocksSafe s' := by
  constructor
  · exact fun h => ⟨h s .refl, fun s' hs t ht => h t (.head hs ht)⟩
  · rintro ⟨hs, hnext⟩ t ht
    rcases ht.cases_head with rfl | ⟨s', hstep, ht⟩
    · exact hs
    · exact hnext s' hstep t ht

theorem blocksSafe_iff_of_next (hsafe : s.Safe) (hnext : NextBlock s s')
    (hunique : ∀ t, NextBlock s t → t = s') : BlocksSafe s ↔ BlocksSafe s' := by
  rw [blocksSafe_iff]
  exact ⟨fun h => h.2 s' hnext, fun h => ⟨hsafe, fun t ht => hunique t ht ▸ h⟩⟩

/-- A stream whose data is decoded to its end, or is refused, is one whose blocks are all decoded
inside of what can be read. -/
theorem decodeBlocks_handled_iff (h : s.remaining ≤ s.bytes.length) (data : List UInt8) :
    (∃ fuel r, loop decodeBlocks fuel (s.decoder, ⟨s.bytes, s.remaining⟩, ⟨data, s.room⟩) = some r ∧
      Handled r) ↔ BlocksSafe s := by
  induction hn : s.remaining using Nat.strong_induction_on generalizing s data with
  | _ n ih =>
    subst hn
    by_cases hroom : s.room = 0
    · rw [loop_iff_of_exit Handled (r := .ok data) (by simp [loop, decodeBlocks, hroom])]
      refine iff_of_true (.inr ⟨data, rfl⟩) (blocksSafe_iff.mpr ⟨fun hc => ?_, fun s' hs => ?_⟩)
      · exact absurd (Nat.le_zero.mp (hroom ▸ hc.fits)) hc.nonempty
      · cases hs with
        | empty hpos _ => omega
        | plain hb => exact absurd (Nat.le_zero.mp (hroom ▸ hb.fits)) hb.nonempty
        | coded hb => exact absurd (Nat.le_zero.mp (hroom ▸ hb.fits)) hb.nonempty
    have hbody : ∀ r, s.decoder.decode ⟨s.bytes, s.remaining⟩ ⟨data, s.room⟩ = r →
        decodeBlocks (s.decoder, ⟨s.bytes, s.remaining⟩, ⟨data, s.room⟩) = r.map .inl := by
      rintro _ rfl
      exact if_neg hroom
    by_cases he : EmptyBlock s.bytes s.remaining
    · have hcomplete := he.complete
      rw [loop_iff_of_round Handled (hbody _ (decode_empty h he)),
        blocksSafe_iff_of_next (fun hc => absurd he.empty hc.nonempty)
          (.empty (Nat.pos_of_ne_zero hroom) he)]
      · exact ih (s.remaining - 8) (by omega)
          (s := ⟨s.decoder, s.bytes.drop 8, s.remaining - 8, s.room⟩)
          (by simp only [List.length_drop]; omega) data rfl
      · intro t ht
        cases ht with
        | empty => rfl
        | plain hb => exact absurd he.empty hb.nonempty
        | coded hb => exact absurd he.empty hb.nonempty
    by_cases hp : PlainBlock s.bytes s.remaining s.room
    · have hcomplete := hp.complete
      rw [loop_iff_of_round Handled (hbody _ (decode_plain h hp)),
        blocksSafe_iff_of_next (fun hc => absurd hp.plain hc.not_plain) (.plain hp)]
      · exact ih _ (by omega) (s := ⟨s.decoder, s.bytes.drop (9 + decodedSizeOf s.bytes),
          s.remaining - (9 + decodedSizeOf s.bytes), s.room - decodedSizeOf s.bytes⟩)
          (by simp only [List.length_drop]; omega) _ rfl
      · intro t ht
        cases ht with
        | empty _ hb => exact absurd hb he
        | plain => rfl
        | coded hb => exact absurd hp.plain hb.not_plain
    by_cases hc : CodedBlock s.bytes s.remaining s.room
    · have hdecode : s.decoder.decode ⟨s.bytes, s.remaining⟩ ⟨data, s.room⟩ = _ := decode_coded h hc
      obtain ⟨hin, hout⟩ := writeDecodedStream_spec (s.decoder.withTable (s.bytes.drop 8))
        (s.bytes.drop (headerLen s.bytes)) (decodedSizeOf s.bytes)
      by_cases hb : (s.decoder.withTable (s.bytes.drop 8)).InBounds
          (s.bytes.drop (headerLen s.bytes)) (decodedSizeOf s.bytes)
      · have hcomplete := hc.complete
        have hheader := hc.header
        have hhead := headerLen_pos s.bytes
        rw [hin hb] at hdecode
        rw [loop_iff_of_round Handled (hbody _ hdecode),
          blocksSafe_iff_of_next (fun _ => hb) (.coded hc)]
        · exact ih _ (by omega) (s := ⟨s.decoder.withTable (s.bytes.drop 8),
            s.bytes.drop (encodedSizeOf s.bytes), s.remaining - encodedSizeOf s.bytes,
            s.room - decodedSizeOf s.bytes⟩) (by simp only [List.length_drop]; omega) _ rfl
        · intro t ht
          cases ht with
          | empty _ hb => exact absurd hb he
          | plain hb => exact absurd hb hp
          | coded => rfl
      · rw [hout hb] at hdecode
        have hloop : loop decodeBlocks 1 (s.decoder, ⟨s.bytes, s.remaining⟩, ⟨data, s.room⟩) =
            some (.error .undefined) := by
          rw [loop, hbody _ hdecode]
          rfl
        rw [loop_iff_of_exit Handled hloop]
        refine iff_of_false ?_ fun hsafe => hb (hsafe s .refl hc)
        rintro (⟨text, h⟩ | ⟨a, h⟩)
        · injection h with h
          exact nomatch h
        · exact nomatch h
    · obtain ⟨text, hdecode⟩ : ∃ text, s.decoder.decode ⟨s.bytes, s.remaining⟩ ⟨data, s.room⟩ =
        .error (.streamException text) := decode_refused h he hp hc
      have hloop : loop decodeBlocks 1 (s.decoder, ⟨s.bytes, s.remaining⟩, ⟨data, s.room⟩) =
          some (.error (.streamException text)) := by
        rw [loop, hbody _ hdecode]
        rfl
      rw [loop_iff_of_exit Handled hloop]
      refine iff_of_true (.inl ⟨text, rfl⟩)
        (blocksSafe_iff.mpr ⟨fun hb => absurd hb hc, fun s' hs => ?_⟩)
      cases hs with
      | empty _ hb => exact absurd hb he
      | plain hb => exact absurd hb hp
      | coded hb => exact absurd hb hc

end Blocks

/-! ### The root -/

/-- The opening of the file ends with an exception, or with a tree of streams that lie in it. -/
def Opens (file : List UInt8) : Prop :=
  ∃ fuel r, openRootStream fuel file = some r ∧ ((∃ text, r = .error (.streamException text)) ∨
    ∃ root content, r = .ok (root, content) ∧ root.Within file.length)

/-- The numbers in the file that are not checked are right as far as they are used. -/
structure Openable (file : List UInt8) : Prop where
  /-- The number of streams does not wrap, and their sizes are in the file. -/
  list : Listed file → ListInside file
  /-- No stream is opened while it is being opened. -/
  nesting : HasStreams file → ∀ stack,
    (streamsOf file).descent.Entered (streamsOf file).getLastStream stack → stack.Nodup
  /-- No directory that is read, all sub-streams that it gets to being opened, overruns the file. -/
  directories : HasStreams file → ∀ v stack,
    (streamsOf file).descent.Entered (streamsOf file).getLastStream (v :: stack) →
      (∀ c ∈ (streamsOf file).descent.calls v, (streamsOf file).descent.Fine c) →
        ¬ Overrun (streamsOf file) v
  /-- If all streams are opened, the blocks of the root are decoded inside of the file. -/
  data : HasStreams file → (streamsOf file).descent.Fine (streamsOf file).getLastStream →
    ∀ first last count size, (streamsOf file).readDirectory (streamsOf file).getLastStream =
      .ok (first, last, count, size) → BlocksSafe ⟨{}, file.drop (first + size),
        last - (first + size), dword file (last - 4)⟩

section Root

variable {file : List UInt8}

/-- The data of a stream that lies in the file. -/
theorem decodeThisStream_handled_iff {first last : ℕ} (h4 : 4 ≤ last) (hle : first ≤ last)
    (hlast : last ≤ file.length) :
    (∃ fuel r, decodeThisStream fuel file first last = some r ∧ Handled r) ↔
      BlocksSafe ⟨{}, file.drop first, last - first, dword file (last - 4)⟩ := by
  unfold decodeThisStream
  rw [getDWORD_of_le (by omega)]
  simp only [andThen_ok]
  exact decodeBlocks_handled_iff (s := ⟨{}, file.drop first, last - first, dword file (last - 4)⟩)
    (by simp only [List.length_drop]; omega) []

theorem decodeThisStream_mono {n m first last : ℕ} {r : Except Fault (List UInt8)} (hnm : n ≤ m)
    (h : decodeThisStream n file first last = some r) :
    decodeThisStream m file first last = some r := by
  unfold decodeThisStream at h ⊢
  cases hsize : getDWORD file (last - 4) with
  | error e =>
    rw [hsize] at h
    exact h
  | ok decodedSize =>
    rw [hsize] at h
    exact loop_mono hnm h

theorem handled_of_error {e : Fault} {r : Except Fault (CHierachicalInStream × List UInt8)}
    (h : some (Except.error e) = some r) {α : Type}
    (hr : (∃ text, r = .error (.streamException text)) ∨
      ∃ root content, r = .ok (root, content) ∧ root.Within file.length) :
    Handled (α := α) (.error e) := by
  obtain rfl := Option.some.inj h
  rcases hr with ⟨text, h⟩ | ⟨root, content, h, -⟩
  · exact .inl ⟨text, by rw [Except.error.inj h]⟩
  · exact nomatch h

/-- A file with streams that is opened. -/
theorem openable_of_opens (h : HasStreams file)
    (hoffsets : CCacheFileInBuffer.readStreamOffsets file = .ok (streamsOf file))
    (hopens : Opens file) : Openable file := by
  have hmapped := h.mapped
  obtain ⟨fuel, r, hr, hhandled⟩ := hopens
  rw [openRootStream, hoffsets, andThen_ok] at hr
  cases hsub : (streamsOf file).readSubStreams fuel .root (streamsOf file).getLastStream with
  | none =>
    rw [hsub] at hr
    exact nomatch hr
  | some r₁ =>
    rw [hsub] at hr
    have hhandled₁ : Handled r₁ := by
      cases r₁ with
      | ok s => exact .inr ⟨s, rfl⟩
      | error e => exact handled_of_error hr hhandled
    obtain ⟨hnesting, hdirectories⟩ :=
      (readSubStreams_handled_iff hmapped .root _).mp ⟨fuel, r₁, hsub, hhandled₁⟩
    refine ⟨fun _ => h.toListInside, fun _ => hnesting, fun _ => hdirectories, ?_⟩
    intro _ hfine first last count size hdir
    have hd := directory_of_read hmapped hdir
    have hheader := hd.header
    have hinside : last ≤ file.length := hd.inside
    have hrun := outcome_readSubStreams (b := streamsOf file) fuel .root
      (streamsOf file).getLastStream
    rw [hsub] at hrun
    cases r₁ with
    | error e => exact nomatch hfine.run_eq hrun.symm
    | ok s =>
      obtain ⟨first', last', count', size', subStreams, hdir', rfl⟩ := readSubStreams_node hsub
      obtain ⟨rfl, rfl, rfl, rfl⟩ : first = first' ∧ last = last' ∧ count = count' ∧
          size = size' := by
        rw [hdir] at hdir'
        simpa using hdir'
      rw [← decodeThisStream_handled_iff (by omega) hd.data hinside]
      rw [andThen_ok] at hr
      dsimp only at hr
      cases hdata : decodeThisStream fuel file (first + size) last with
      | none =>
        rw [hdata] at hr
        exact nomatch hr
      | some r₂ =>
        refine ⟨fuel, r₂, hdata, ?_⟩
        rw [hdata] at hr
        cases r₂ with
        | ok content => exact .inr ⟨content, rfl⟩
        | error e => exact handled_of_error hr hhandled

/-- A file with streams whose numbers are right. -/
theorem opens_of_openable (h : HasStreams file)
    (hoffsets : CCacheFileInBuffer.readStreamOffsets file = .ok (streamsOf file))
    (ho : Openable file) : Opens file := by
  have hmapped := h.mapped
  obtain ⟨n, r₁, hsub, hhandled⟩ := (readSubStreams_handled_iff hmapped .root _).mpr
    ⟨ho.nesting h, ho.directories h⟩
  rcases hhandled with ⟨text, rfl⟩ | ⟨s, rfl⟩
  · refine ⟨n, .error (.streamException text), ?_, .inl ⟨text, rfl⟩⟩
    rw [openRootStream, hoffsets, andThen_ok, hsub, andThen_error]
  · have hwithin := readSubStreams_within hmapped hsub
    have hfine : (streamsOf file).descent.Fine (streamsOf file).getLastStream := by
      refine Descent.run_ok_iff.mp ⟨n, ?_⟩
      rw [← outcome_readSubStreams n .root, hsub]
      rfl
    obtain ⟨first, last, count, size, subStreams, hdir, rfl⟩ := readSubStreams_node hsub
    have hd := directory_of_read hmapped hdir
    have hheader := hd.header
    have hinside : last ≤ file.length := hd.inside
    have hsafe := ho.data h hfine first last count size hdir
    rw [← decodeThisStream_handled_iff (by omega) hd.data hinside] at hsafe
    obtain ⟨m, r₂, hdata, hhandled₂⟩ := hsafe
    have hsub' := readSubStreams_mono (le_max_left n m) hsub
    have hdata' := decodeThisStream_mono (le_max_right n m) hdata
    rcases hhandled₂ with ⟨text, rfl⟩ | ⟨content, rfl⟩
    · refine ⟨max n m, .error (.streamException text), ?_, .inl ⟨text, rfl⟩⟩
      rw [openRootStream, hoffsets, andThen_ok, hsub', andThen_ok]
      dsimp only
      rw [hdata', andThen_error]
    · refine ⟨max n m, _, ?_, .inr ⟨_, content, rfl, hwithin⟩⟩
      rw [openRootStream, hoffsets, andThen_ok, hsub', andThen_ok]
      dsimp only
      rw [hdata', andThen_ok]

end Root

/-- A file with a single stream, which names itself as its sub-stream. -/
def insideItself : List UInt8 :=
  [0x15, 0x05, 0x10, 0x20, 0x15, 0x05, 0x10, 0x20,
    1, 0, 0, 0, 0, 0, 0, 0, 1, 0, 0, 0, 0x20, 0, 0, 0,
    16, 0, 0, 0, 1, 0, 0, 0]

end TortoiseSvn.LogCache
