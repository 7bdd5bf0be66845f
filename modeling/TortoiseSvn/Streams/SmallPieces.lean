import TortoiseSvn.Streams.CacheFileRoundTrip
import TortoiseSvn.Streams.PackedVectors

/-!
# Streams that are written in small pieces

Number streams add single bytes to their blocks. So every block but the last one is full up to a few
bytes, and the number of blocks follows from the size of the data.

Main results: `OutStream.wellFormed_ofBytes` and `write_diffInteger_length_lt`. A vector of differences
that is not too long gives a stream that a file keeps.
-/

namespace TortoiseSvn.LogCache

open TortoiseSvn.Lib

namespace OutStream

/-- A stream to which bytes were added one by one.
Source: `PackedDWORDOutStream.h` `CPackedDWORDOutStreamBase::InternalAdd` -/
def ofBytes (type : StreamType) (bytes : List UInt8) : OutStream :=
  binary type (bytes.map fun b => [b])

/-- All blocks but the last one are full up to a piece. -/
theorem toBlocks_length_mul_le {n : ℕ} {pieces : List (List UInt8)} (h : ∀ p ∈ pieces, p.length ≤ n)
    (current : List UInt8) :
    (toBlocks current pieces).length * (chunkSize + 1 - n) ≤
      current.length + pieces.flatten.length + (chunkSize + 1 - n) := by
  induction pieces generalizing current with
  | nil => simp [toBlocks]
  | cons piece pieces ih =>
    have hpiece := h piece List.mem_cons_self
    have hrest : ∀ p ∈ pieces, p.length ≤ n := fun p hp => h p (List.mem_cons_of_mem _ hp)
    rw [toBlocks, List.flatten_cons, List.length_append]
    split
    · have hle := ih hrest (current ++ piece)
      rw [List.length_append] at hle
      omega
    · have hle := ih hrest piece
      rw [List.length_cons, Nat.succ_mul]
      omega

/-- A stream of small pieces can be read again if a `DWORD` with a sign could count its bytes. -/
theorem WellFormed.of_small (type : StreamType) {pieces : List (List UInt8)}
    (h : ∀ p ∈ pieces, p.length ≤ 16) (hlt : pieces.flatten.length < 2 ^ 31) :
    (OutStream.binary type pieces).WellFormed := by
  have hchunk : chunkSize = 131072 := rfl
  have hle : ∀ p ∈ pieces, p.length ≤ chunkSize := fun p hp => (h p hp).trans (by omega)
  obtain ⟨hflatten, hblock, hne⟩ := toBlocks_spec hle [] (Nat.zero_le _)
  have hcount := toBlocks_length_mul_le h []
  refine .node ⟨.inr rfl, hne, ?_, ?_, List.nodup_nil, ?_, ?_⟩ ?_
  · intro block hmem
    have := hblock block hmem
    omega
  · exact fun s hs => absurd hs List.not_mem_nil
  · exact fun s hs => absurd hs List.not_mem_nil
  · rw [hflatten, List.nil_append, List.length_nil]
    rw [hchunk, List.length_nil] at hcount
    omega
  · exact fun s hs => absurd hs List.not_mem_nil

theorem toInStream_binary (type : StreamType) {pieces : List (List UInt8)}
    (h : ∀ p ∈ pieces, p.length ≤ 16) :
    (binary type pieces).toInStream = .leaf type pieces.flatten := by
  have hle : ∀ p ∈ pieces, p.length ≤ chunkSize := fun p hp => (h p hp).trans (by decide)
  obtain ⟨hflatten, -, -⟩ := toBlocks_spec hle [] (Nat.zero_le _)
  rw [binary, toInStream, hflatten]
  rfl

theorem singletons_length {bytes : List UInt8} : ∀ p ∈ bytes.map fun b => [b], p.length ≤ 16 := by
  intro p hp
  obtain ⟨b, -, rfl⟩ := List.mem_map.mp hp
  exact Nat.le_of_ble_eq_true rfl

theorem flatten_singletons (bytes : List UInt8) : (bytes.map fun b => [b]).flatten = bytes := by
  rw [← List.flatMap_def, List.flatMap_singleton']

@[simp] theorem toInStream_ofBytes (type : StreamType) (bytes : List UInt8) :
    (ofBytes type bytes).toInStream = .leaf type bytes := by
  rw [ofBytes, toInStream_binary type singletons_length, flatten_singletons]

theorem wellFormed_ofBytes (type : StreamType) {bytes : List UInt8} (h : bytes.length < 2 ^ 31) :
    (ofBytes type bytes).WellFormed :=
  .of_small type singletons_length (by rwa [flatten_singletons])

@[simp] theorem toInStream_blob (data : List UInt8) :
    (blob data).toInStream = .leaf .blob data := by
  rw [blob, toInStream, List.flatten_singleton]
  rfl

@[simp] theorem toInStream_composite (subStreams : List (ℕ × OutStream)) :
    (composite subStreams).toInStream = .compose (toInStreams subStreams) := by
  rw [composite, toInStream, List.flatten_singleton]

/-- A sub-stream that was written with an ID is found by it. -/
theorem getSubStream_node {type : StreamType} {blocks : List (List UInt8)}
    {subStreams : List (ℕ × OutStream)} {id : ℕ} {sub : OutStream}
    (h : subStreams.lookup id = some sub) :
    (node type blocks subStreams).toInStream.getSubStream id = .ok sub.toInStream := by
  have hlookup : (toInStreams subStreams).lookup id = (subStreams.lookup id).map toInStream := by
    induction subStreams with
    | nil => rfl
    | cons s subStreams ih =>
      obtain ⟨id', s⟩ := s
      rw [toInStreams, List.lookup_cons, List.lookup_cons]
      cases hid : id == id' with
      | true => rfl
      | false =>
        rw [List.lookup_cons, hid] at h
        exact ih h
  rw [toInStream, InStream.getSubStream, hlookup, h]
  rfl

theorem getSubStreamAs_composite {subStreams : List (ℕ × OutStream)} {id : ℕ}
    {type : StreamType} {bytes : List UInt8} (h : subStreams.lookup id = some (ofBytes type bytes)) :
    (composite subStreams).toInStream.getSubStreamAs id type = .ok (.leaf type bytes) := by
  rw [InStream.getSubStreamAs, composite, getSubStream_node h, toInStream_ofBytes]
  exact if_pos rfl

end OutStream

/-! ### The length of number streams -/

theorem internalAdd_length (v : ℕ) : (internalAdd v).length ≤ 5 := by
  have hgo : ∀ fuel v, (internalAdd.go fuel v).length ≤ fuel + 1 := by
    intro fuel
    induction fuel with
    | zero => exact fun v => Nat.le_refl 1
    | succ fuel ih =>
      intro v
      rw [internalAdd.go]
      split
      · exact Nat.succ_le_succ (Nat.zero_le _)
      · exact Nat.succ_le_succ (ih _)
  exact hgo 4 v

theorem encodeFrom_length (w c : ℕ) (vs : List ℕ) :
    (encodeFrom w c vs).length ≤ 3 * (vs.length + 1) := by
  induction vs generalizing w c with
  | nil => exact Nat.le_refl 3
  | cons v vs ih =>
    have hrun : (runWords w c).length ≤ 3 := by
      unfold runWords
      split
      · exact Nat.le_of_ble_eq_true rfl
      · split
        · exact Nat.le_of_ble_eq_true rfl
        · exact Nat.le_refl 3
    rw [encodeFrom, List.length_cons]
    split
    · exact (ih w (c + 1)).trans (by omega)
    · have := ih v 1
      rw [List.length_append]
      omega

theorem length_flatMap_internalAdd (ws : List ℕ) :
    (ws.flatMap internalAdd).length ≤ 5 * ws.length := by
  induction ws with
  | nil => exact Nat.le_refl 0
  | cons w ws ih =>
    have := internalAdd_length w
    rw [List.flatMap_cons, List.length_append, List.length_cons]
    omega

/-- Every number takes 15 bytes at most, those of its marker included. -/
theorem packedDWORD_write_length {vs : List ℕ} (hlen : vs.length < 2 ^ 32) :
    (CPackedDWORDOutStream.write vs).length ≤ 15 * vs.length := by
  rw [write_eq vs hlen]
  refine (length_flatMap_internalAdd _).trans ?_
  cases vs with
  | nil => exact Nat.le_refl 0
  | cons v vs =>
    have := encodeFrom_length v 1 vs
    rw [encode, List.length_cons]
    omega

/-- So many differences take less than `2 ^ 31` bytes. -/
theorem write_diffInteger_length_lt {values : List ℕ} (hlen : values.length ≤ 2 ^ 27) :
    (CDiffIntegerOutStream.write values).length < 2 ^ 31 := by
  have hpacked := Codec.packed_length .diffInteger values
  have hle := @packedDWORD_write_length (Codec.packed .diffInteger values) (by omega)
  have hwrite : CDiffIntegerOutStream.write values =
      CPackedDWORDOutStream.write (Codec.packed .diffInteger values) := rfl
  rw [hwrite]
  omega

end TortoiseSvn.LogCache
