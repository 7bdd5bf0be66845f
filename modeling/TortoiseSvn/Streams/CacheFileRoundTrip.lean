import Mathlib.Order.Filter.AtTopBot.Basic
import TortoiseSvn.Lib.Segments
import TortoiseSvn.Streams.CacheFileOpening
import TortoiseSvn.Streams.CacheFileWriting
import TortoiseSvn.Streams.HuffmanRoundTrip

/-!
# What is written to a cache file is read from it

The writer appends one stream after the other, a stream behind all of its sub-streams, so that the
root comes last. What it leaves behind is a list of streams, and the directory of each names some in
front of it. The reader finds the list again through the sizes at the end, opens the last one, and
from it the tree. The bytes behind the data of a stream are its decoded size and at least the number
of all streams: these are the eight bytes that the decoder may fetch behind a block.

Main result: `readCacheFile_writeCacheFile`.
-/

namespace TortoiseSvn.LogCache

open TortoiseSvn.Lib

/-! ### Trees that can be read again -/

namespace OutStream

mutual

/-- The number of streams in a tree. -/
def count : OutStream → ℕ
  | .node _ _ subStreams => countAll subStreams + 1

/-- The number of streams in some trees. -/
def countAll : List (ℕ × OutStream) → ℕ
  | [] => 0
  | (_, subStream) :: subStreams => subStream.count + countAll subStreams

end

mutual

/-- What a reader is to see of a stream. -/
def toInStream : OutStream → InStream
  | .node type blocks subStreams => .node type blocks.flatten (toInStreams subStreams)

/-- What a reader is to see of some sub-streams. -/
def toInStreams : List (ℕ × OutStream) → List (ℕ × InStream)
  | [] => []
  | (id, subStream) :: subStreams => (id, subStream.toInStream) :: toInStreams subStreams

end

/-- What the reader relies on in one stream. It takes the directory to be a third of what it is, so
that there must not be both data and sub-streams; a block without data ends the data. -/
structure Readable (blocks : List (List UInt8)) (subStreams : List (ℕ × OutStream)) : Prop where
  /-- There are no sub-streams beside data. -/
  apart : blocks.flatten = [] ∨ subStreams = []
  /-- Only the last block may be empty. -/
  filled : ∀ block ∈ blocks.dropLast, block ≠ []
  blocks_lt : ∀ block ∈ blocks, block.length < 2 ^ 31
  ids_lt : ∀ s ∈ subStreams, s.1 < 2 ^ 32
  ids_nodup : (subStreams.map Prod.fst).Nodup
  /-- There is one root only. -/
  types : ∀ s ∈ subStreams, s.2.type ≠ .root
  /-- The stream is not too large for the list of sizes, even if nothing can be compressed. -/
  size_lt : 8 + 12 * subStreams.length + blocks.flatten.length + 9 * blocks.length < 2 ^ 32 - 1

/-- All streams of a tree can be read again. -/
inductive WellFormed : OutStream → Prop
  | node {type : StreamType} {blocks : List (List UInt8)} {subStreams : List (ℕ × OutStream)} :
      Readable blocks subStreams → (∀ s ∈ subStreams, WellFormed s.2) →
        WellFormed (.node type blocks subStreams)

/-- The blocks of a stream hold all pieces in their order, and only the last one may be empty. -/
theorem toBlocks_spec {pieces : List (List UInt8)} (h : ∀ piece ∈ pieces, piece.length ≤ chunkSize)
    (current : List UInt8) (hcurrent : current.length ≤ chunkSize) :
    (toBlocks current pieces).flatten = current ++ pieces.flatten ∧
      (∀ block ∈ toBlocks current pieces, block.length ≤ chunkSize) ∧
      ∀ block ∈ (toBlocks current pieces).dropLast, block ≠ [] := by
  induction pieces generalizing current with
  | nil =>
    refine ⟨by simp [toBlocks], ?_, ?_⟩
    · intro block hblock
      rwa [List.mem_singleton.mp hblock]
    · intro block hblock
      exact absurd hblock List.not_mem_nil
  | cons piece pieces ih =>
    have hpiece := h piece List.mem_cons_self
    have hrest : ∀ p ∈ pieces, p.length ≤ chunkSize := fun p hp => h p (List.mem_cons_of_mem _ hp)
    rw [toBlocks]
    by_cases hfits : current.length + piece.length ≤ chunkSize
    · rw [if_pos hfits, List.flatten_cons, ← List.append_assoc]
      exact ih hrest _ (by rwa [List.length_append])
    · rw [if_neg hfits]
      obtain ⟨hflatten, hle, hne⟩ := ih hrest _ hpiece
      refine ⟨by rw [List.flatten_cons, hflatten, List.flatten_cons], ?_, ?_⟩
      · intro block hblock
        rcases List.mem_cons.mp hblock with rfl | hblock
        · exact hcurrent
        · exact hle block hblock
      · intro block hblock
        rw [List.dropLast_cons_of_ne_nil (by
          intro hnil
          rw [hnil] at hflatten
          have hempty := congrArg List.length hflatten
          rw [List.flatten_nil, List.length_nil, List.length_append] at hempty
          omega)] at hblock
        rcases List.mem_cons.mp hblock with rfl | hblock
        · rintro rfl
          rw [List.length_nil] at hfits
          omega
        · exact hne block hblock

theorem toBlocks_length_le (pieces : List (List UInt8)) (current : List UInt8) :
    (toBlocks current pieces).length ≤ pieces.length + 1 := by
  induction pieces generalizing current with
  | nil => exact Nat.le_refl 1
  | cons piece pieces ih =>
    rw [toBlocks, List.length_cons]
    split
    · exact (ih _).trans (Nat.le_succ _)
    · exact Nat.succ_le_succ (ih _)

/-- A stream of pieces can be read again. -/
theorem WellFormed.binary (type : StreamType) {pieces : List (List UInt8)}
    (h : ∀ piece ∈ pieces, piece.length ≤ chunkSize)
    (hsize : 17 + pieces.flatten.length + 9 * pieces.length < 2 ^ 32 - 1) :
    (binary type pieces).WellFormed := by
  obtain ⟨hflatten, hle, hne⟩ := toBlocks_spec h [] (Nat.zero_le _)
  have hblocks := toBlocks_length_le pieces []
  have hchunk : chunkSize = 131072 := rfl
  refine .node ⟨.inr rfl, hne, ?_, ?_, List.nodup_nil, ?_, ?_⟩ ?_
  · intro block hblock
    have := hle block hblock
    omega
  · exact fun s hs => absurd hs List.not_mem_nil
  · exact fun s hs => absurd hs List.not_mem_nil
  · rw [hflatten, List.nil_append, List.length_nil]
    omega
  · exact fun s hs => absurd hs List.not_mem_nil

theorem WellFormed.blob {data : List UInt8} (h : data.length < 2 ^ 31) : (blob data).WellFormed := by
  refine .node ⟨.inr rfl, ?_, ?_, ?_, List.nodup_nil, ?_, ?_⟩ ?_
  · exact fun block hblock => absurd hblock List.not_mem_nil
  · intro block hblock
    rwa [List.mem_singleton.mp hblock]
  · exact fun s hs => absurd hs List.not_mem_nil
  · exact fun s hs => absurd hs List.not_mem_nil
  · rw [List.flatten_singleton, List.length_nil, List.length_singleton]
    omega
  · exact fun s hs => absurd hs List.not_mem_nil

/-- A stream that has only sub-streams can be read again when these can. -/
theorem WellFormed.empty (type : StreamType) {subStreams : List (ℕ × OutStream)}
    (hids : ∀ s ∈ subStreams, s.1 < 2 ^ 32) (hnodup : (subStreams.map Prod.fst).Nodup)
    (htypes : ∀ s ∈ subStreams, s.2.type ≠ .root) (hcount : subStreams.length < 2 ^ 28)
    (h : ∀ s ∈ subStreams, s.2.WellFormed) : (OutStream.node type [[]] subStreams).WellFormed := by
  refine .node ⟨.inl rfl, ?_, ?_, hids, hnodup, htypes, ?_⟩ h
  · exact fun block hblock => absurd hblock List.not_mem_nil
  · intro block hblock
    rw [List.mem_singleton.mp hblock]
    exact Nat.two_pow_pos 31
  · rw [List.flatten_singleton, List.length_nil, List.length_singleton]
    omega

end OutStream

/-! ### The buffered file -/

namespace CBufferedOutFile

/-- Everything that was written, whether it is on the disk or not. -/
def content (f : CBufferedOutFile) : List UInt8 := f.stream ++ f.buffer

/-- The buffer is not overrun, and the size is right. -/
structure Sound (f : CBufferedOutFile) : Prop where
  buffer_le : f.buffer.length ≤ bufferSize
  fileSize_eq : f.fileSize = f.content.length

variable {f : CBufferedOutFile}

@[simp] theorem content_flush (f : CBufferedOutFile) : f.flush.content = f.content := by
  simp [flush, content]

theorem Sound.flush (h : f.Sound) : f.flush.Sound :=
  ⟨Nat.zero_le _, h.fileSize_eq.trans (by rw [content_flush])⟩

theorem Sound.toBuffer_spec (h : f.Sound) (data : List UInt8)
    (hroom : f.buffer.length + data.length ≤ bufferSize) :
    ∃ f', f.toBuffer data = .ok f' ∧ f'.Sound ∧ f'.content = f.content ++ data := by
  refine ⟨_, if_pos hroom, ⟨?_, ?_⟩, ?_⟩
  · rw [List.length_append]
    exact hroom
  · simp [content, h.fileSize_eq, Nat.add_assoc]
  · simp [content]

/-- What is added comes behind everything that was written. -/
theorem Sound.add_spec (h : f.Sound) (data : List UInt8) (hlt : data.length < 2 ^ 31 + 2 ^ 30) :
    ∃ f', f.add data = .ok f' ∧ f'.Sound ∧ f'.content = f.content ++ data := by
  have hbuffer := h.buffer_le
  have hsize : bufferSize = 1048576 := rfl
  rw [add, Nat.mod_eq_of_lt (by omega)]
  by_cases hfull : bufferSize < f.buffer.length + data.length
  · rw [if_pos hfull]
    by_cases hlarge : bufferSize ≤ data.length
    · -- "don't buffer large chunks of data"
      refine ⟨_, if_pos hlarge, ⟨Nat.zero_le _, ?_⟩, ?_⟩
      · simp [content, CBufferedOutFile.flush, h.fileSize_eq, Nat.add_assoc]
      · simp [content, CBufferedOutFile.flush]
    · obtain ⟨f', hrun, hsound, hcontent⟩ := h.flush.toBuffer_spec data (by
        simp only [CBufferedOutFile.flush, List.length_nil]
        omega)
      rw [content_flush] at hcontent
      exact ⟨f', (if_neg hlarge).trans hrun, hsound, hcontent⟩
  · rw [if_neg hfull]
    exact h.toBuffer_spec data (by omega)

/-- The bytes of some numbers. -/
def dwords (values : List ℕ) : List UInt8 := values.flatMap (leBytes 4)

@[simp] theorem dwords_nil : dwords [] = [] := rfl

@[simp] theorem dwords_cons (value : ℕ) (values : List ℕ) :
    dwords (value :: values) = leBytes 4 value ++ dwords values := rfl

@[simp] theorem dwords_append (l r : List ℕ) : dwords (l ++ r) = dwords l ++ dwords r :=
  List.flatMap_append

@[simp] theorem dwords_length (values : List ℕ) : (dwords values).length = 4 * values.length := by
  induction values with
  | nil => rfl
  | cons value values ih =>
    rw [dwords_cons, List.length_append, leBytes_length, ih, List.length_cons]
    omega

theorem Sound.addDWORDs_spec (h : f.Sound) (values : List ℕ) :
    ∃ f', f.addDWORDs values = .ok f' ∧ f'.Sound ∧ f'.content = f.content ++ dwords values := by
  induction values generalizing f with
  | nil => exact ⟨f, rfl, h, (List.append_nil _).symm⟩
  | cons value values ih =>
    obtain ⟨f₁, hrun₁, hsound₁, hcontent₁⟩ := h.add_spec (leBytes 4 value)
      (by rw [leBytes_length]; norm_num)
    obtain ⟨f₂, hrun₂, hsound₂, hcontent₂⟩ := ih hsound₁
    refine ⟨f₂, ?_, hsound₂, ?_⟩
    · rw [addDWORDs, addDWORD, hrun₁]
      exact hrun₂
    · rw [hcontent₂, hcontent₁, dwords_cons, List.append_assoc]

theorem Sound.addDWORD_spec (h : f.Sound) (value : ℕ) :
    ∃ f', f.addDWORD value = .ok f' ∧ f'.Sound ∧ f'.content = f.content ++ leBytes 4 value :=
  h.add_spec _ (by rw [leBytes_length]; norm_num)

end CBufferedOutFile

/-! ### The streams that were written -/

/-- A block as it is written; a block with data can be decoded. -/
structure Packs (source block : List UInt8) : Prop where
  length_le : block.length ≤ source.length + 9
  decodes : source ≠ [] → Decodes block source

theorem exists_packs (memory : ℕ → UInt8) {source : List UInt8} (h : source.length < 2 ^ 31) :
    ∃ block, CHuffmanEncoder.encode memory source = .ok block ∧ Packs source block := by
  by_cases hne : source = []
  · subst hne
    exact ⟨_, encode_nil memory, by simp, fun hne => absurd rfl hne⟩
  · obtain ⟨block, hrun, hdecodes, -, hle⟩ := encode_spec memory hne h
    exact ⟨block, hrun, hle, fun _ => hdecodes⟩

theorem flatten_length_le {blocks packed : List (List UInt8)} (h : List.Forall₂ Packs blocks packed) :
    packed.flatten.length ≤ blocks.flatten.length + 9 * blocks.length := by
  induction h with
  | nil => exact Nat.le_refl 0
  | cons hp _ ih =>
    have := hp.length_le
    simp only [List.flatten_cons, List.length_append, List.length_cons]
    omega

theorem writeBlocks_spec (memory : ℕ → UInt8) {f : CBufferedOutFile} (h : f.Sound)
    {blocks : List (List UInt8)} (hlt : ∀ block ∈ blocks, block.length < 2 ^ 31) :
    ∃ f' packed, writeBlocks memory f blocks = .ok f' ∧ List.Forall₂ Packs blocks packed ∧ f'.Sound ∧
      f'.content = f.content ++ packed.flatten := by
  induction blocks generalizing f with
  | nil => exact ⟨f, [], rfl, .nil, h, (List.append_nil _).symm⟩
  | cons block blocks ih =>
    have hblock := hlt block List.mem_cons_self
    obtain ⟨data, hencode, hp⟩ := exists_packs memory hblock
    have hle := hp.length_le
    obtain ⟨f₁, hrun₁, hsound₁, hcontent₁⟩ := h.add_spec data (by omega)
    obtain ⟨f₂, packed, hrun₂, hpacks, hsound₂, hcontent₂⟩ :=
      ih hsound₁ fun b hb => hlt b (List.mem_cons_of_mem _ hb)
    refine ⟨f₂, data :: packed, ?_, .cons hp hpacks, hsound₂, ?_⟩
    · rw [writeBlocks, hencode]
      simp only [bind, Except.bind]
      rw [hrun₁]
      dsimp only
      rw [hrun₂]
    · rw [hcontent₂, hcontent₁, List.flatten_cons, List.append_assoc]

/-- An entry of a directory. -/
def directoryEntry (index : ℕ) (s : ℕ × OutStream) : List ℕ := [index, s.1, s.2.type.typeID]

/-- The directory of a stream whose sub-streams have these numbers. -/
def directory (indexes : List ℕ) (subStreams : List (ℕ × OutStream)) : List UInt8 :=
  CBufferedOutFile.dwords
    (subStreams.length :: (List.zipWith directoryEntry indexes subStreams).flatten)

/-- A stream in the file. -/
def streamBytes (indexes : List ℕ) (subStreams : List (ℕ × OutStream)) (packed : List (List UInt8))
    (decodedSize : ℕ) : List UInt8 :=
  directory indexes subStreams ++ packed.flatten ++ leBytes 4 decodedSize

/-- The tree is found among the streams of a file under a number. -/
inductive StoredTree (streams : List (List UInt8)) : OutStream → ℕ → Prop
  | node {type : StreamType} {blocks packed : List (List UInt8)} {subStreams : List (ℕ × OutStream)}
      {indexes : List ℕ} {index : ℕ} : indexes.length = subStreams.length →
      List.Forall₂ Packs blocks packed →
      streams[index]? = some (streamBytes indexes subStreams packed blocks.flatten.length) →
      (∀ p ∈ indexes.zip subStreams, StoredTree streams p.2.2 p.1) →
      StoredTree streams (.node type blocks subStreams) index

theorem StoredTree.append {streams : List (List UInt8)} {s : OutStream} {index : ℕ}
    (h : StoredTree streams s index) (more : List (List UInt8)) : StoredTree (streams ++ more) s index := by
  induction h with
  | node hlen hpacks hbytes _ ih =>
    refine .node hlen hpacks ?_ ih
    rw [List.getElem?_append_left (List.getElem?_eq_some_iff.mp hbytes).1]
    exact hbytes

theorem StoredTree.lt {streams : List (List UInt8)} {s : OutStream} {index : ℕ}
    (h : StoredTree streams s index) : index < streams.length := by
  cases h with
  | node _ _ hbytes _ => exact (List.getElem?_eq_some_iff.mp hbytes).1

/-- The two version numbers. -/
def versions : List UInt8 :=
  CBufferedOutFile.dwords
    [CCacheFileOutBuffer.ourLogCacheFileVersion, CCacheFileOutBuffer.ourLogCacheFileVersion]

/-- These streams were written so far. -/
structure HoldsStreams (b : CCacheFileOutBuffer) (streams : List (List UInt8)) : Prop where
  sound : b.file.Sound
  content_eq : b.file.content = versions ++ streams.flatten
  offsets_eq : b.streamOffsets ++ [b.file.fileSize] = offsetsFrom 8 streams

theorem HoldsStreams.fileSize_eq {b : CCacheFileOutBuffer} {streams : List (List UInt8)}
    (h : HoldsStreams b streams) : b.file.fileSize = 8 + streams.flatten.length := by
  rw [h.sound.fileSize_eq, h.content_eq, List.length_append]
  rfl

theorem HoldsStreams.offsets_length {b : CCacheFileOutBuffer} {streams : List (List UInt8)}
    (h : HoldsStreams b streams) : b.streamOffsets.length = streams.length := by
  simpa using congrArg List.length h.offsets_eq

theorem create_spec : ∃ b, CCacheFileOutBuffer.create = .ok b ∧ HoldsStreams b [] := by
  have hsound : CBufferedOutFile.Sound {} := ⟨Nat.zero_le _, rfl⟩
  obtain ⟨f, hrun, hf, hcontent⟩ := hsound.addDWORDs_spec
    [CCacheFileOutBuffer.ourLogCacheFileVersion, CCacheFileOutBuffer.ourLogCacheFileVersion]
  refine ⟨⟨f, []⟩, by rw [CCacheFileOutBuffer.create, hrun]; rfl, hf, ?_, ?_⟩
  · exact hcontent.trans (by rw [List.flatten_nil, List.append_nil]; rfl)
  · have hsize : f.fileSize = 8 := by
      rw [hf.fileSize_eq, hcontent, List.length_append, CBufferedOutFile.dwords_length]
      rfl
    simp [hsize, offsetsFrom]

theorem typeID_lt (type : StreamType) : type.typeID < 2 ^ 32 := by
  cases type <;> decide

/-- A stream is written behind the streams in front of it. -/
theorem writeContents_spec (memory : ℕ → UInt8) {b : CCacheFileOutBuffer}
    {streams blocks : List (List UInt8)} (h : HoldsStreams b streams) {subStreams : List (ℕ × OutStream)}
    (hr : OutStream.Readable blocks subStreams) {indexes : List ℕ}
    (hlen : indexes.length = subStreams.length) :
    ∃ f packed, writeContents memory b.file (List.zipWith directoryEntry indexes subStreams) blocks =
        .ok f ∧ List.Forall₂ Packs blocks packed ∧
      HoldsStreams { b.openStream.2 with file := f }
        (streams ++ [streamBytes indexes subStreams packed blocks.flatten.length]) := by
  have hsize := hr.size_lt
  have hcount : (List.zipWith directoryEntry indexes subStreams).length = subStreams.length := by
    rw [List.length_zipWith, hlen, min_self]
  obtain ⟨f₁, hrun₁, hsound₁, hcontent₁⟩ := h.sound.addDWORDs_spec
    (subStreams.length :: (List.zipWith directoryEntry indexes subStreams).flatten)
  obtain ⟨f₂, packed, hrun₂, hpacks, hsound₂, hcontent₂⟩ :=
    writeBlocks_spec memory hsound₁ hr.blocks_lt
  obtain ⟨f₃, hrun₃, hsound₃, hcontent₃⟩ := hsound₂.addDWORD_spec blocks.flatten.length
  have hcontent : f₃.content = versions ++
      (streams ++ [streamBytes indexes subStreams packed blocks.flatten.length]).flatten := by
    rw [hcontent₃, hcontent₂, hcontent₁, h.content_eq, List.flatten_append, List.flatten_singleton,
      streamBytes, directory]
    simp only [List.append_assoc]
  refine ⟨f₃, packed, ?_, hpacks, hsound₃, hcontent, ?_⟩
  · rw [writeContents, hcount, Nat.mod_eq_of_lt (by omega), Nat.mod_eq_of_lt (by omega), hrun₁]
    simp only [Bind.bind, Except.bind]
    rw [hrun₂]
    exact hrun₃
  · have hfile : f₃.fileSize = 8 + (streams ++
        [streamBytes indexes subStreams packed blocks.flatten.length]).flatten.length := by
      rw [hsound₃.fileSize_eq, hcontent, List.length_append]
      rfl
    rw [offsetsFrom_concat, ← h.offsets_eq, ← hfile]
    rfl

theorem directory_length {indexes : List ℕ} {subStreams : List (ℕ × OutStream)}
    (hlen : indexes.length = subStreams.length) :
    (directory indexes subStreams).length = 4 + 12 * subStreams.length := by
  have hthree : List.zipWith (fun index s => (directoryEntry index s).length) indexes subStreams =
      List.replicate subStreams.length 3 := by
    apply List.ext_getElem
    · rw [List.length_zipWith, hlen, min_self, List.length_replicate]
    · intro i hi hi'
      rw [List.getElem_zipWith, List.getElem_replicate]
      rfl
  rw [directory, CBufferedOutFile.dwords_length, List.length_cons, List.length_flatten,
    List.map_zipWith, hthree, List.sum_replicate, smul_eq_mul]
  omega

/-- A stream fits into the list of sizes. -/
theorem streamBytes_length_lt {blocks packed : List (List UInt8)} {subStreams : List (ℕ × OutStream)}
    (hr : OutStream.Readable blocks subStreams) {indexes : List ℕ}
    (hlen : indexes.length = subStreams.length) (hpacks : List.Forall₂ Packs blocks packed)
    (decodedSize : ℕ) :
    (streamBytes indexes subStreams packed decodedSize).length < 2 ^ 32 - 1 := by
  have hblocks := flatten_length_le hpacks
  have hsize := hr.size_lt
  rw [streamBytes, List.length_append, List.length_append, directory_length hlen, leBytes_length]
  omega

/-- What the writing of a tree comes to: its streams are appended, and it is found among them. -/
def WritesTree (memory : ℕ → UInt8) (s : OutStream) : Prop :=
  ∀ b streams, HoldsStreams b streams → streams.length + s.count ≤ 2 ^ 31 →
    ∃ b' more, writeStream memory b s = .ok (streams.length + more.length - 1, b') ∧
      more.length = s.count ∧ (∀ x ∈ more, x.length < 2 ^ 32 - 1) ∧ HoldsStreams b' (streams ++ more) ∧
      StoredTree (streams ++ more) s (streams.length + more.length - 1)

theorem OutStream.count_pos (s : OutStream) : 0 < s.count := by
  cases s
  rw [OutStream.count]
  exact Nat.succ_pos _

theorem writeSubStreams_spec {memory : ℕ → UInt8} {subStreams : List (ℕ × OutStream)}
    (h : ∀ s ∈ subStreams, WritesTree memory s.2) {b : CCacheFileOutBuffer}
    {streams : List (List UInt8)} (hb : HoldsStreams b streams)
    (hcount : streams.length + OutStream.countAll subStreams ≤ 2 ^ 31) :
    ∃ b' more indexes, indexes.length = subStreams.length ∧
      writeSubStreams memory b subStreams =
        .ok (List.zipWith directoryEntry indexes subStreams, b') ∧
      more.length = OutStream.countAll subStreams ∧ (∀ x ∈ more, x.length < 2 ^ 32 - 1) ∧
      HoldsStreams b' (streams ++ more) ∧
      ∀ p ∈ indexes.zip subStreams, StoredTree (streams ++ more) p.2.2 p.1 := by
  induction subStreams generalizing b streams with
  | nil =>
    refine ⟨b, [], [], rfl, by rw [writeSubStreams]; rfl, rfl, by simp, ?_, by simp⟩
    rwa [List.append_nil]
  | cons s subStreams ih =>
    obtain ⟨id, s⟩ := s
    rw [OutStream.countAll] at hcount
    have hpos := s.count_pos
    obtain ⟨b₁, more₁, hrun₁, hlen₁, hlt₁, hb₁, hstored₁⟩ :=
      h (id, s) List.mem_cons_self b streams hb (by dsimp only; omega)
    dsimp only at hrun₁ hlen₁ hstored₁
    obtain ⟨b₂, more₂, indexes, hindexes, hrun₂, hlen₂, hlt₂, hb₂, hstored₂⟩ :=
      ih (fun s' hs => h s' (List.mem_cons_of_mem _ hs)) hb₁
        (by rw [List.length_append, hlen₁]; omega)
    rw [List.append_assoc] at hb₂ hstored₂
    refine ⟨b₂, more₁ ++ more₂, (streams.length + more₁.length - 1) :: indexes, ?_, ?_, ?_, ?_, hb₂,
      ?_⟩
    · rw [List.length_cons, List.length_cons, hindexes]
    · rw [writeSubStreams, hrun₁]
      simp only [bind, Except.bind, pure, Except.pure]
      rw [hrun₂, Nat.mod_eq_of_lt (by omega)]
      rfl
    · rw [List.length_append, OutStream.countAll, hlen₁, hlen₂]
    · intro x hx
      rcases List.mem_append.mp hx with hx | hx
      · exact hlt₁ x hx
      · exact hlt₂ x hx
    · intro p hp
      rcases List.mem_cons.mp hp with rfl | hp
      · rw [← List.append_assoc]
        exact hstored₁.append more₂
      · exact hstored₂ p hp

theorem writeStream_spec (memory : ℕ → UInt8) {s : OutStream} (h : s.WellFormed) :
    WritesTree memory s := by
  induction h with
  | @node type blocks subStreams hr _ ih =>
    intro b streams hb hcount
    rw [OutStream.count] at hcount
    obtain ⟨b₁, more, indexes, hindexes, hrun₁, hlen, hlt, hb₁, hstored⟩ :=
      writeSubStreams_spec ih hb (by omega)
    obtain ⟨f, packed, hrun₂, hpacks, hb₂⟩ := writeContents_spec memory hb₁ hr hindexes
    set bytes := streamBytes indexes subStreams packed blocks.flatten.length with hbytes
    rw [List.append_assoc] at hb₂
    refine ⟨_, more ++ [bytes], ?_, ?_, ?_, hb₂, ?_⟩
    · rw [writeStream, hrun₁]
      simp only [Bind.bind, Except.bind, pure, Except.pure]
      have hindex : b₁.openStream.1 = streams.length + (more ++ [bytes]).length - 1 := by
        rw [List.length_append, List.length_singleton, CCacheFileOutBuffer.openStream,
          hb₁.offsets_length, List.length_append]
        rfl
      rw [hindex]
      have hsame : b₁.openStream.2.file = b₁.file := rfl
      rw [hsame, hrun₂]
    · rw [List.length_append, List.length_singleton, hlen, OutStream.count]
    · intro x hx
      rcases List.mem_append.mp hx with hx | hx
      · exact hlt x hx
      · rw [List.mem_singleton.mp hx]
        exact streamBytes_length_lt hr hindexes hpacks _
    · refine .node hindexes hpacks ?_ fun p hp => ?_
      · rw [← List.append_assoc, List.getElem?_append_right (by simp)]
        simp [hbytes]
      · rw [← List.append_assoc]
        exact (hstored p hp).append [bytes]

/-- A whole file. -/
def fileOf (streams : List (List UInt8)) : List UInt8 :=
  versions ++ streams.flatten ++ CBufferedOutFile.dwords (streams.map List.length) ++
    leBytes 4 streams.length

theorem writeSizes_spec {f : CBufferedOutFile} (h : f.Sound) {streams : List (List UInt8)} (start : ℕ)
    (hlt : ∀ x ∈ streams, x.length < 2 ^ 32 - 1) :
    ∃ f', CCacheFileOutBuffer.writeSizes f start (offsetsFrom start streams).tail = .ok (some f') ∧
      f'.Sound ∧ f'.content = f.content ++ CBufferedOutFile.dwords (streams.map List.length) := by
  induction streams generalizing f start with
  | nil => exact ⟨f, rfl, h, (List.append_nil _).symm⟩
  | cons x streams ih =>
    have hx := hlt x List.mem_cons_self
    obtain ⟨f₁, hrun₁, hsound₁, hcontent₁⟩ := h.addDWORD_spec x.length
    obtain ⟨f₂, hrun₂, hsound₂, hcontent₂⟩ :=
      ih hsound₁ (start + x.length) fun y hy => hlt y (List.mem_cons_of_mem _ hy)
    refine ⟨f₂, ?_, hsound₂, ?_⟩
    · rw [offsetsFrom, List.tail_cons, offsetsFrom_eq_cons, CCacheFileOutBuffer.writeSizes,
        Nat.add_sub_cancel_left, if_neg (by omega), hrun₁]
      exact hrun₂
    · rw [hcontent₂, hcontent₁, List.map_cons, CBufferedOutFile.dwords_cons, List.append_assoc]

theorem close_spec {b : CCacheFileOutBuffer} {streams : List (List UInt8)} (h : HoldsStreams b streams)
    (hlt : ∀ x ∈ streams, x.length < 2 ^ 32 - 1) (hcount : streams.length ≤ 2 ^ 31) :
    b.close = .ok (some (fileOf streams)) := by
  obtain ⟨f₁, hrun₁, hsound₁, hcontent₁⟩ := writeSizes_spec h.sound 8 hlt
  obtain ⟨f₂, hrun₂, -, hcontent₂⟩ := hsound₁.addDWORD_spec streams.length
  have hlen : (offsetsFrom 8 streams).length - 1 = streams.length := by
    rw [offsetsFrom_length, Nat.add_sub_cancel]
  rw [CCacheFileOutBuffer.close]
  simp only [bind, Except.bind, pure, Except.pure]
  rw [h.offsets_eq, hlen, Nat.mod_eq_of_lt (by omega)]
  have hhead : (offsetsFrom 8 streams).head? = some 8 := by rw [offsetsFrom_eq_cons]; rfl
  rw [hhead, checked]
  dsimp only
  rw [hrun₁]
  dsimp only
  rw [hrun₂]
  dsimp only
  have hflush : f₂.flush.stream = f₂.content := rfl
  rw [hflush, hcontent₂, hcontent₁, h.content_eq, fileOf]

/-! ### The streams that are read -/

section Reading

/-- A number that stands in the file. -/
theorem dword_of_drop {file rest : List UInt8} {offset v : ℕ} (h : file.drop offset = leBytes 4 v ++ rest)
    (hv : v < 2 ^ 32) : dword file offset = v ∧ offset + 4 ≤ file.length := by
  constructor
  · rw [dword, h, List.take_left' (leBytes_length 4 v), leNat_leBytes (by norm_num; exact hv)]
  · have hlen := congrArg List.length h
    rw [List.length_drop, List.length_append, leBytes_length] at hlen
    omega

theorem getDWORD_of_drop {file rest : List UInt8} {offset v : ℕ}
    (h : file.drop offset = leBytes 4 v ++ rest) (hv : v < 2 ^ 32) :
    getDWORD file offset = .ok v := by
  obtain ⟨heq, hle⟩ := dword_of_drop h hv
  rw [getDWORD_of_le hle, heq]

theorem endsFrom_of_drop {file rest : List UInt8} {streams : List (List UInt8)} {offset : ℕ} (start : ℕ)
    (h : file.drop offset = CBufferedOutFile.dwords (streams.map List.length) ++ rest)
    (hlt : ∀ x ∈ streams, x.length < 2 ^ 32 - 1) :
    start :: endsFrom file streams.length offset start = offsetsFrom start streams := by
  induction streams generalizing offset start with
  | nil => rfl
  | cons x streams ih =>
    have hx := hlt x List.mem_cons_self
    rw [List.map_cons, CBufferedOutFile.dwords_cons, List.append_assoc] at h
    have hsize := (dword_of_drop h (by omega)).1
    have hrest : file.drop (offset + 4) =
        CBufferedOutFile.dwords (streams.map List.length) ++ rest := by
      rw [← List.drop_drop, h, List.drop_left' (leBytes_length 4 _)]
    rw [List.length_cons, endsFrom, offsetsFrom, hsize,
      ih (start + x.length) hrest fun y hy => hlt y (List.mem_cons_of_mem _ hy)]

variable {streams : List (List UInt8)}

theorem fileOf_length (streams : List (List UInt8)) :
    (fileOf streams).length = 8 + streams.flatten.length + 4 * streams.length + 4 := by
  rw [fileOf, List.length_append, List.length_append, List.length_append, leBytes_length,
    CBufferedOutFile.dwords_length, List.length_map]
  rfl

theorem drop_fileOf (streams : List (List UInt8)) (i : ℕ) :
    (fileOf streams).drop (8 + offsetOf streams i) =
      (streams.drop i).flatten ++ (CBufferedOutFile.dwords (streams.map List.length) ++
        leBytes 4 streams.length) := by
  have hlen : versions.length = 8 := rfl
  have hle := offsetOf_le streams i
  rw [fileOf, List.append_assoc, List.append_assoc, ← List.drop_drop,
    show (8 : ℕ) = versions.length from rfl, List.drop_left, List.drop_append_of_le_length hle,
    drop_offsetOf]

/-- The list of streams is found at the end of the file. -/
theorem readStreamOffsets_fileOf (hlt : ∀ x ∈ streams, x.length < 2 ^ 32 - 1)
    (hcount : streams.length ≤ 2 ^ 31) :
    CCacheFileInBuffer.readStreamOffsets (fileOf streams) =
      .ok ⟨fileOf streams, offsetsFrom 8 streams⟩ := by
  have hlen := fileOf_length streams
  have hend : (fileOf streams).drop (8 + streams.flatten.length) =
      CBufferedOutFile.dwords (streams.map List.length) ++ leBytes 4 streams.length := by
    have hdrop := drop_fileOf streams streams.length
    rwa [offsetOf_of_le (Nat.le_refl _), List.drop_length, List.flatten_nil, List.nil_append] at hdrop
  have hlast : (fileOf streams).drop ((fileOf streams).length - 4) = leBytes 4 streams.length ++ [] := by
    rw [hlen, show 8 + streams.flatten.length + 4 * streams.length + 4 - 4 =
      8 + streams.flatten.length + (CBufferedOutFile.dwords (streams.map List.length)).length by
        rw [CBufferedOutFile.dwords_length, List.length_map]
        omega,
      ← List.drop_drop, hend, List.drop_left, List.append_nil]
  have hstreamCount : streamCountOf (fileOf streams) = streams.length :=
    (dword_of_drop hlast (by omega)).1
  have hcontentEnd : contentEndOf (fileOf streams) = 8 + streams.flatten.length := by
    rw [contentEndOf, hstreamCount, hlen]
    omega
  have hstreams : streamsOf (fileOf streams) = ⟨fileOf streams, offsetsFrom 8 streams⟩ := by
    rw [streamsOf, hstreamCount, hcontentEnd, endsFrom_of_drop 8 hend hlt]
  have hversions : ∀ offset, offset + 4 ≤ 8 → dword (fileOf streams) offset = dword versions offset := by
    intro offset hoffset
    have hversions : versions.length = 8 := rfl
    rw [dword, dword, fileOf, List.append_assoc, List.append_assoc,
      List.drop_append_of_le_length (by omega), List.take_append_of_le_length (by
        rw [List.length_drop]
        omega)]
  have hlisted : Listed (fileOf streams) := by
    refine ⟨by omega, ?_, ?_, ?_⟩
    · rw [hversions 0 (by norm_num)]
      decide
    · rw [hversions 4 (by norm_num)]
      decide
    · rw [hstreamCount, Nat.mod_eq_of_lt (by omega)]
      omega
  have hinside : ListInside (fileOf streams) := by
    refine ⟨by omega, ?_⟩
    rw [hstreamCount]
    omega
  have hfilled : (streamsOf (fileOf streams)).streamContents.getLast? =
      some (contentEndOf (fileOf streams)) := by
    have hget : (offsetsFrom 8 streams)[streams.length]? = some (8 + offsetOf streams streams.length) :=
      offsetsFrom_getElem? (Nat.le_refl _)
    rw [offsetOf_of_le (Nat.le_refl _)] at hget
    rw [hstreams, hcontentEnd, List.getLast?_eq_getElem?, offsetsFrom_length, Nat.add_sub_cancel]
    exact hget
  rcases readStreamOffsets_cases (fileOf streams) with ⟨hnot, -⟩ | ⟨-, hnot, -⟩ | ⟨-, -, hnot, -⟩ |
    ⟨-, hrun⟩
  · exact absurd hlisted hnot
  · exact absurd hinside hnot
  · exact absurd ⟨hlisted, hinside, hfilled⟩ hnot
  · rw [hrun, hstreams]

/-- What stands in the file from a stream on. At least the number of streams is behind it. -/
theorem exists_drop_fileOf {x : List UInt8} {i : ℕ} (h : streams[i]? = some x) :
    ∃ rest, (fileOf streams).drop (8 + offsetOf streams i) = x ++ rest ∧ 4 ≤ rest.length := by
  obtain ⟨hi, rfl⟩ := List.getElem?_eq_some_iff.mp h
  rw [drop_fileOf, List.drop_eq_getElem_cons hi, List.flatten_cons, List.append_assoc]
  refine ⟨_, rfl, ?_⟩
  rw [List.length_append, List.length_append, leBytes_length]
  omega

/-- The directory of a stream is found. -/
theorem readDirectory_fileOf {subStreams : List (ℕ × OutStream)} {indexes : List ℕ}
    {packed : List (List UInt8)} {i decodedSize : ℕ} (hlen : indexes.length = subStreams.length)
    (h : streams[i]? = some (streamBytes indexes subStreams packed decodedSize)) (hi : i < 2 ^ 31)
    (hcount : subStreams.length < 2 ^ 32 - 1) :
    (⟨fileOf streams, offsetsFrom 8 streams⟩ : CCacheFileInBuffer).readDirectory i =
      .ok (8 + offsetOf streams i, 8 + offsetOf streams (i + 1), subStreams.length,
        (subStreams.length + 1) * 4) := by
  obtain ⟨rest, hdrop, -⟩ := exists_drop_fileOf h
  have hlt : i < streams.length := (List.getElem?_eq_some_iff.mp h).1
  have hsucc := offsetOf_succ h
  rw [streamBytes, List.length_append, List.length_append, directory_length hlen] at hsucc
  have hfirst : getDWORD (fileOf streams) (8 + offsetOf streams i) = .ok subStreams.length := by
    rw [streamBytes, directory, CBufferedOutFile.dwords_cons] at hdrop
    simp only [List.append_assoc] at hdrop
    exact getDWORD_of_drop hdrop (by omega)
  rw [CCacheFileInBuffer.readDirectory, CCacheFileInBuffer.getStreamBuffer]
  simp only [bind, Except.bind, pure, Except.pure, offsetsFrom_length]
  rw [if_neg (by omega), offsetsFrom_getElem? (by omega), offsetsFrom_getElem? (by omega)]
  simp only [checked]
  rw [if_neg (by omega), hfirst]
  dsimp only
  rw [Nat.mod_eq_of_lt (by omega), if_neg (by omega)]

theorem getFactory_typeID {type : StreamType} (h : type ≠ .root) :
    getFactory type.typeID = .ok type := by
  cases type with
  | root => exact absurd rfl h
  | _ => rfl

theorem readEntry_of_drop {file rest : List UInt8} {source index : ℕ} {s : ℕ × OutStream}
    (h : file.drop source = CBufferedOutFile.dwords (directoryEntry index s) ++ rest)
    (hindex : index < 2 ^ 32) (hid : s.1 < 2 ^ 32) (htype : s.2.type ≠ .root) :
    readEntry file source = .ok (index, s.1, s.2.type) := by
  rw [directoryEntry, CBufferedOutFile.dwords_cons, CBufferedOutFile.dwords_cons,
    CBufferedOutFile.dwords_cons] at h
  simp only [List.append_assoc] at h
  have h₁ : file.drop (source + 4) = leBytes 4 s.1 ++ (leBytes 4 s.2.type.typeID ++
      (CBufferedOutFile.dwords [] ++ rest)) := by
    rw [← List.drop_drop, h, List.drop_left' (leBytes_length 4 _)]
  have h₂ : file.drop (source + 8) = leBytes 4 s.2.type.typeID ++
      (CBufferedOutFile.dwords [] ++ rest) := by
    rw [show source + 8 = source + 4 + 4 from rfl, ← List.drop_drop, h₁,
      List.drop_left' (leBytes_length 4 _)]
  rw [readEntry, getDWORD_of_drop h hindex, getDWORD_of_drop h₁ hid,
    getDWORD_of_drop h₂ (typeID_lt _)]
  simp only [bind, Except.bind, pure, Except.pure]
  rw [getFactory_typeID htype]

theorem emplace_of_notMem {α : Type} {subStreams : List (ℕ × α)} {id : ℕ}
    (h : id ∉ subStreams.map Prod.fst) (subStream : α) :
    emplace subStreams id subStream = subStreams ++ [(id, subStream)] := by
  have hnone : subStreams.lookup id = none := by
    rw [List.lookup_eq_none_iff]
    intro p hp
    rw [bne_iff_ne]
    rintro rfl
    exact h (List.mem_map_of_mem hp)
  rw [emplace, hnone]
  rfl

/-- A stream is opened, and what it holds is the tree. -/
def OpenedTree (b : CCacheFileInBuffer) (s : OutStream) (index : ℕ) : Prop :=
  ∃ opened, ∀ᶠ fuel in Filter.atTop, b.readSubStreams fuel s.type index = some (.ok opened) ∧
    readTree fuel b.file opened = some (.ok s.toInStream)

/-- The entries of a directory, from one on. -/
theorem readEntries_spec {b : CCacheFileInBuffer} {subStreams : List (ℕ × OutStream)}
    {indexes : List ℕ} (hlen : indexes.length = subStreams.length)
    (hopened : ∀ p ∈ indexes.zip subStreams, p.1 < 2 ^ 32 ∧ OpenedTree b p.2.2 p.1)
    (hids : ∀ s ∈ subStreams, s.1 < 2 ^ 32) (htypes : ∀ s ∈ subStreams, s.2.type ≠ .root)
    {source : ℕ} {rest : List UInt8}
    (hdrop : b.file.drop source =
      CBufferedOutFile.dwords (List.zipWith directoryEntry indexes subStreams).flatten ++ rest)
    {front : List (ℕ × CHierachicalInStream)}
    (hnodup : (front.map Prod.fst ++ subStreams.map Prod.fst).Nodup) :
    ∃ opened, ∀ᶠ fuel in Filter.atTop,
      readEntries b.file (b.readSubStreams fuel) subStreams.length source front =
        some (.ok (front ++ opened)) ∧
      readTrees fuel b.file opened = some (.ok (OutStream.toInStreams subStreams)) := by
  induction subStreams generalizing indexes source front with
  | nil =>
    refine ⟨[], Filter.Eventually.of_forall fun fuel => ⟨?_, ?_⟩⟩
    · rw [List.append_nil]
      rfl
    · rw [readTrees, OutStream.toInStreams]
  | cons s subStreams ih =>
    obtain ⟨index, indexes, rfl⟩ := List.exists_cons_of_length_eq_add_one hlen
    obtain ⟨hindex, first, hfirst⟩ := hopened (index, s) List.mem_cons_self
    rw [List.zipWith_cons_cons, List.flatten_cons, CBufferedOutFile.dwords_append,
      List.append_assoc] at hdrop
    have hentry := readEntry_of_drop hdrop hindex (hids s List.mem_cons_self)
      (htypes s List.mem_cons_self)
    have hnext : b.file.drop (source + 12) =
        CBufferedOutFile.dwords (List.zipWith directoryEntry indexes subStreams).flatten ++ rest := by
      rw [← List.drop_drop, hdrop, List.drop_left' (by rw [CBufferedOutFile.dwords_length]; rfl)]
    have hfresh : s.1 ∉ front.map Prod.fst := by
      intro hmem
      exact (List.nodup_append.mp hnodup).2.2 s.1 hmem s.1 List.mem_cons_self rfl
    have hnodup' : ((front ++ [(s.1, first)]).map Prod.fst ++ subStreams.map Prod.fst).Nodup := by
      simpa [List.append_assoc] using hnodup
    obtain ⟨opened, hrest⟩ := ih (by simpa using hlen)
      (fun p hp => hopened p (List.mem_cons_of_mem _ hp))
      (fun s' hs => hids s' (List.mem_cons_of_mem _ hs))
      (fun s' hs => htypes s' (List.mem_cons_of_mem _ hs)) hnext hnodup'
    refine ⟨(s.1, first) :: opened, ?_⟩
    filter_upwards [hfirst, hrest] with fuel hfirst hrest
    constructor
    · rw [List.length_cons, readEntries, hentry, andThen_ok]
      dsimp only
      rw [hfirst.1, andThen_ok, emplace_of_notMem hfresh, hrest.1, List.append_assoc,
        List.singleton_append]
    · rw [readTrees, hfirst.2, andThen_ok, hrest.2, andThen_ok, OutStream.toInStreams]

/-- The blocks of a stream are decoded one after the other. -/
theorem decodeBlocks_spec {blocks packed : List (List UInt8)} (hpacks : List.Forall₂ Packs blocks packed)
    (hfilled : ∀ block ∈ blocks.dropLast, block ≠ []) {tail : List UInt8} {r : ℕ}
    (htail : 8 ≤ tail.length) (hr : r ≤ tail.length) (t : CHuffmanDecoder) (data : List UInt8) :
    Returns decodeBlocks (t, ⟨packed.flatten ++ tail, packed.flatten.length + r⟩,
      ⟨data, blocks.flatten.length⟩) (data ++ blocks.flatten) := by
  induction hpacks generalizing t data with
  | nil =>
    refine .leave ?_
    rw [List.flatten_nil, List.append_nil]
    rfl
  | @cons source block blocks packed hp hpacks ih =>
    by_cases hempty : source = []
    · -- then it is the last block, and all data is there
      obtain rfl : blocks = [] := by
        rcases blocks with _ | ⟨next, blocks⟩
        · rfl
        · exact absurd hempty (hfilled source List.mem_cons_self)
      refine .leave ?_
      subst hempty
      simp [decodeBlocks]
    · have hpos : 0 < source.length := List.length_pos_of_ne_nil hempty
      obtain ⟨t', hrun⟩ := hp.decodes hempty t (packed.flatten ++ tail) (packed.flatten.length + r)
        ⟨data, (source :: blocks).flatten.length⟩ (by rw [List.length_append]; omega)
        (by rw [List.length_append]; omega)
        (by rw [List.flatten_cons, List.length_append]; exact Nat.le_add_right _ _)
      have hrest : ∀ b ∈ blocks.dropLast, b ≠ [] := by
        intro b hb
        refine hfilled b ?_
        rcases blocks with _ | ⟨next, blocks⟩
        · exact absurd hb List.not_mem_nil
        · exact List.mem_cons_of_mem _ hb
      have hnext := ih hrest t' (data ++ source)
      rw [List.append_assoc, ← List.flatten_cons] at hnext
      refine .round ?_ hnext
      rw [decodeBlocks, if_neg (by
        rw [List.flatten_cons, List.length_append]
        exact Nat.ne_of_gt (Nat.add_pos_left hpos _))]
      rw [List.flatten_cons, List.length_append, Nat.add_assoc, List.append_assoc, hrun]
      simp [Except.map]

theorem decodeThisStream_of_drop {file rest : List UInt8} {blocks packed : List (List UInt8)}
    {first last : ℕ} (hpacks : List.Forall₂ Packs blocks packed)
    (hfilled : ∀ block ∈ blocks.dropLast, block ≠ []) (hlt : blocks.flatten.length < 2 ^ 32)
    (hdrop : file.drop first = packed.flatten ++ (leBytes 4 blocks.flatten.length ++ rest))
    (hlast : last = first + packed.flatten.length + 4) (hrest : 4 ≤ rest.length) :
    ∀ᶠ fuel in Filter.atTop, decodeThisStream fuel file first last = some (.ok blocks.flatten) := by
  have hsize : getDWORD file (last - 4) = .ok blocks.flatten.length := by
    have hend : file.drop (last - 4) = leBytes 4 blocks.flatten.length ++ rest := by
      rw [hlast, Nat.add_sub_cancel, ← List.drop_drop, hdrop, List.drop_left]
    exact getDWORD_of_drop hend hlt
  have htail : (leBytes 4 blocks.flatten.length ++ rest).length = 4 + rest.length := by
    rw [List.length_append, leBytes_length]
  obtain ⟨n, hn⟩ := decodeBlocks_spec (r := 4) hpacks hfilled
    (show 8 ≤ (leBytes 4 blocks.flatten.length ++ rest).length by omega) (by omega) {} []
  refine Filter.eventually_atTop.mpr ⟨n, fun fuel hfuel => decodeThisStream_mono hfuel ?_⟩
  have hlen : last - first = packed.flatten.length + 4 := by omega
  rw [decodeThisStream, hsize, andThen_ok, hdrop, hlen]
  exact hn

/-- Without data there is nothing to decode, wherever the data is taken to begin. -/
theorem decodeThisStream_of_empty {file rest : List UInt8} {first last : ℕ}
    (hdrop : file.drop (last - 4) = leBytes 4 0 ++ rest) :
    ∀ᶠ fuel in Filter.atTop, decodeThisStream fuel file first last = some (.ok []) := by
  refine Filter.eventually_atTop.mpr ⟨1, fun fuel hfuel => decodeThisStream_mono hfuel ?_⟩
  rw [decodeThisStream, getDWORD_of_drop hdrop (by norm_num), andThen_ok]
  rfl

/-- A tree that is found among the streams is opened. -/
theorem StoredTree.opened (hcount : streams.length ≤ 2 ^ 31) {s : OutStream} {index : ℕ}
    (h : StoredTree streams s index) (hs : s.WellFormed) :
    OpenedTree ⟨fileOf streams, offsetsFrom 8 streams⟩ s index := by
  induction h with
  | @node type blocks packed subStreams indexes index hlen hpacks hbytes hsub ih =>
    cases hs with
    | node hr hs =>
    have hsize := hr.size_lt
    have hindex : index < streams.length := (List.getElem?_eq_some_iff.mp hbytes).1
    have hsucc := offsetOf_succ hbytes
    rw [streamBytes, List.length_append, List.length_append, directory_length hlen, leBytes_length]
      at hsucc
    obtain ⟨rest, hdrop, hrest⟩ := exists_drop_fileOf hbytes
    have hdirectory := readDirectory_fileOf hlen hbytes (by omega) (by omega)
    -- the sub-streams
    have hentries : (fileOf streams).drop (8 + offsetOf streams index + 4) =
        CBufferedOutFile.dwords (List.zipWith directoryEntry indexes subStreams).flatten ++
          (packed.flatten ++ (leBytes 4 blocks.flatten.length ++ rest)) := by
      rw [← List.drop_drop, hdrop, streamBytes, directory, CBufferedOutFile.dwords_cons]
      simp only [List.append_assoc]
      rw [List.drop_left' (leBytes_length 4 _)]
    have hsubOpened : ∀ p ∈ indexes.zip subStreams,
        p.1 < 2 ^ 32 ∧ OpenedTree ⟨fileOf streams, offsetsFrom 8 streams⟩ p.2.2 p.1 := by
      intro p hp
      have hlt := (hsub p hp).lt
      exact ⟨by omega, ih p hp (hs p.2 (List.of_mem_zip hp).2)⟩
    obtain ⟨opened, hopened⟩ := readEntries_spec (b := ⟨fileOf streams, offsetsFrom 8 streams⟩)
      hlen hsubOpened hr.ids_lt hr.types hentries
      (show (([] : List (ℕ × CHierachicalInStream)).map Prod.fst ++
        subStreams.map Prod.fst).Nodup from hr.ids_nodup)
    -- the data
    have hbehind : (fileOf streams).drop
        (8 + offsetOf streams index + (directory indexes subStreams).length) =
        packed.flatten ++ (leBytes 4 blocks.flatten.length ++ rest) := by
      rw [← List.drop_drop, hdrop, streamBytes]
      simp only [List.append_assoc]
      rw [List.drop_left]
    have hdata : ∀ᶠ fuel in Filter.atTop, decodeThisStream fuel (fileOf streams)
        (8 + offsetOf streams index + (subStreams.length + 1) * 4)
        (8 + offsetOf streams (index + 1)) = some (.ok blocks.flatten) := by
      rcases hr.apart with hempty | hnone
      · have hpos : 8 + offsetOf streams (index + 1) - 4 = 8 + offsetOf streams index +
            (directory indexes subStreams).length + packed.flatten.length := by
          rw [directory_length hlen]
          omega
        have hend : (fileOf streams).drop (8 + offsetOf streams (index + 1) - 4) =
            leBytes 4 0 ++ rest := by
          rw [hpos, ← List.drop_drop, hbehind, List.drop_left, hempty]
          rfl
        rw [hempty]
        exact decodeThisStream_of_empty hend
      · have hfour : (directory indexes subStreams).length = (subStreams.length + 1) * 4 := by
          rw [directory_length hlen, hnone]
          rfl
        rw [hfour] at hbehind
        refine decodeThisStream_of_drop hpacks hr.filled (by omega) hbehind ?_ hrest
        rw [hnone, List.length_nil] at hsucc ⊢
        omega
    refine ⟨.node type (8 + offsetOf streams index + (subStreams.length + 1) * 4)
      (8 + offsetOf streams (index + 1)) opened, ?_⟩
    obtain ⟨n, hn⟩ := Filter.eventually_atTop.mp (hopened.and hdata)
    refine Filter.eventually_atTop.mpr ⟨n + 1, fun fuel hfuel => ⟨?_, ?_⟩⟩
    · obtain ⟨fuel, rfl⟩ : ∃ m, fuel = m + 1 := ⟨fuel - 1, by omega⟩
      rw [CCacheFileInBuffer.readSubStreams, hdirectory, andThen_ok]
      dsimp only
      rw [(hn fuel (by omega)).1.1, andThen_ok]
      rfl
    · obtain ⟨⟨-, htrees⟩, hcontent⟩ := hn fuel (by omega)
      rw [readTree, hcontent, andThen_ok, htrees, andThen_ok, OutStream.toInStream]

end Reading

/-! ### Whole files -/

/-- Writing a tree gives a file of its streams, the root last. -/
theorem writeCacheFile_spec (memory : ℕ → UInt8) {subStreams : List (ℕ × OutStream)}
    (h : (OutStream.root subStreams).WellFormed)
    (hcount : (OutStream.root subStreams).count ≤ 2 ^ 31) :
    ∃ streams : List (List UInt8), writeCacheFile memory subStreams = .ok (some (fileOf streams)) ∧
      streams.length = (OutStream.root subStreams).count ∧
      (∀ x ∈ streams, x.length < 2 ^ 32 - 1) ∧
      StoredTree streams (.root subStreams) (streams.length - 1) := by
  obtain ⟨b, hcreate, hb⟩ := create_spec
  obtain ⟨b', streams, hwrite, hlen, hlt, hb', hstored⟩ :=
    writeStream_spec memory h b [] hb (by rw [List.length_nil, Nat.zero_add]; exact hcount)
  rw [List.nil_append, List.length_nil, Nat.zero_add] at *
  refine ⟨streams, ?_, hlen, hlt, hstored⟩
  rw [writeCacheFile, hcreate]
  simp only [bind, Except.bind]
  rw [hwrite]
  exact close_spec hb' hlt (hlen ▸ hcount)

/-- A tree is read from the file of its streams. -/
theorem readCacheFile_fileOf {streams : List (List UInt8)} {subStreams : List (ℕ × OutStream)}
    (h : (OutStream.root subStreams).WellFormed) (hpos : 0 < streams.length)
    (hcount : streams.length ≤ 2 ^ 31) (hlt : ∀ x ∈ streams, x.length < 2 ^ 32 - 1)
    (hstored : StoredTree streams (.root subStreams) (streams.length - 1)) :
    ∃ n, ∀ fuel ≥ n, readCacheFile fuel (fileOf streams) =
      some (.ok (OutStream.root subStreams).toInStream) := by
  obtain ⟨opened, hopened⟩ := hstored.opened hcount h
  obtain ⟨n, hn⟩ := Filter.eventually_atTop.mp hopened
  refine ⟨n, fun fuel hfuel => ?_⟩
  obtain ⟨hopen, htree⟩ := hn fuel hfuel
  have hlast : (⟨fileOf streams, offsetsFrom 8 streams⟩ : CCacheFileInBuffer).getLastStream =
      streams.length - 1 := by
    rw [CCacheFileInBuffer.getLastStream, offsetsFrom_length, subU]
    omega
  rw [readCacheFile, openRootStream, readStreamOffsets_fileOf hlt hcount, andThen_ok, hlast]
  have htype : (OutStream.root subStreams).type = .root := rfl
  rw [htype] at hopen
  rw [hopen, andThen_ok]
  obtain ⟨type, first, last, subs⟩ := opened
  dsimp only
  -- the data of the root is decoded twice
  rw [readTree] at htree
  rcases hdata : decodeThisStream fuel (fileOf streams) first last with _ | e | content
  · rw [hdata, andThen_none] at htree
    exact absurd htree (by simp)
  · rw [hdata, andThen_error] at htree
    exact absurd htree (by simp)
  · rw [andThen_ok, andThen_ok, readTree, hdata, andThen_ok]
    rw [hdata, andThen_ok] at htree
    exact htree

/-- **A tree of streams that is written to a file is read from it**, whatever was in the memory of the
blocks before: the file is not removed again, and every stream has its class, its data and its
sub-streams with their IDs. -/
theorem readCacheFile_writeCacheFile (memory : ℕ → UInt8) {subStreams : List (ℕ × OutStream)}
    (h : (OutStream.root subStreams).WellFormed)
    (hcount : (OutStream.root subStreams).count ≤ 2 ^ 31) :
    ∃ file, writeCacheFile memory subStreams = .ok (some file) ∧
      ∃ n, ∀ fuel ≥ n, readCacheFile fuel file = some (.ok (OutStream.root subStreams).toInStream) := by
  obtain ⟨streams, hwrite, hlen, hlt, hstored⟩ := writeCacheFile_spec memory h hcount
  have hpos := (OutStream.root subStreams).count_pos
  exact ⟨_, hwrite, readCacheFile_fileOf h (hlen ▸ hpos) (hlen ▸ hcount) hlt hstored⟩

/-- A file with two levels of streams. -/
theorem readCacheFile_writeCacheFile_two :
    ∃ file, writeCacheFile (fun _ => 7) [(3, .composite [(1, .blob [65, 66]),
        (2, .binary .packedDWORD [[1, 2], [3]])])] = .ok (some file) ∧
      ∃ n, ∀ fuel ≥ n, readCacheFile fuel file = some (.ok (.node .root []
        [(3, .node .composite [] [(1, .node .blob [65, 66] []),
          (2, .node .packedDWORD [1, 2, 3] [])])])) := by
  have hblob : (OutStream.blob [65, 66]).WellFormed := .blob (by decide)
  have hbinary : (OutStream.binary .packedDWORD [[1, 2], [3]]).WellFormed :=
    .binary _ (by decide) (by decide)
  have hcomposite : (OutStream.composite [(1, .blob [65, 66]),
      (2, .binary .packedDWORD [[1, 2], [3]])]).WellFormed := by
    refine .empty _ (by decide) (by decide) (by decide) (by decide) fun s hs => ?_
    simp only [List.mem_cons, List.not_mem_nil, or_false] at hs
    rcases hs with rfl | rfl
    · exact hblob
    · exact hbinary
  have hroot : (OutStream.root [(3, .composite [(1, .blob [65, 66]),
      (2, .binary .packedDWORD [[1, 2], [3]])])]).WellFormed := by
    refine .empty _ (by decide) (by decide) (by decide) (by decide) fun s hs => ?_
    rw [List.mem_singleton.mp hs]
    exact hcomposite
  exact readCacheFile_writeCacheFile _ hroot (by decide)

end TortoiseSvn.LogCache
