import TortoiseSvn.Lib.BitWindow
import TortoiseSvn.Streams.PackedVectors

/-!
# Columns in sub-streams

A container keeps each of its columns in a sub-stream of its own, found by an ID. Reading a column
gives the vector the size and the values that the sub-stream holds.
-/

namespace TortoiseSvn.LogCache

open TortoiseSvn.Lib

/-! ### Number columns -/

namespace Codec

/-- The type of the streams that are coded so. -/
def type : Codec → StreamType
  | packedDWORD => .packedDWORD
  | packedInteger => .packedInteger
  | diffDWORD => .diffDWORD
  | diffInteger => .diffInteger

/-- Read a vector, each entry being converted to the type of the vector.
Source: `PackedDWORDInStream.h` `operator>>` -/
def load {α : Type} (codec : Codec) (ofRaw : ℕ → α) (bytes : List UInt8) :
    LoadM (List α) Unit :=
  match codec with
  | packedDWORD => loadVector CPackedDWORDInStream.getSizeValue CPackedDWORDInStream.getValue
      (ofRaw 0) (fun _ v => ofRaw v) ⟨bytes, 0, 0⟩
  | packedInteger => loadVector CPackedDWORDInStream.getSizeValue CPackedIntegerInStream.getValue
      (ofRaw 0) (fun _ v => ofRaw v) ⟨bytes, 0, 0⟩
  | diffDWORD => loadVector CDiffInStream.getSizeValue CDiffDWORDInStream.getValue
      (ofRaw 0) (fun _ v => ofRaw v) ⟨⟨bytes, 0, 0⟩, 0⟩
  | diffInteger => loadVector CDiffInStream.getSizeValue CDiffIntegerInStream.getValue
      (ofRaw 0) (fun _ v => ofRaw v) ⟨⟨bytes, 0, 0⟩, 0⟩

theorem load_ok {α : Type} {codec : Codec} {ofRaw : ℕ → α} {bytes : List UInt8} {l l' : List α}
    (h : codec.load ofRaw bytes l = (.ok (), l')) :
    ∃ vs, codec.read bytes = .ok vs ∧ l' = vs.map ofRaw := by
  cases codec with
  | packedDWORD =>
    obtain ⟨_, _, vs, -, hvs, -, hl⟩ := loadVector_ok h
    exact ⟨vs, hvs, hl⟩
  | packedInteger =>
    obtain ⟨_, _, vs, -, hvs, -, hl⟩ := loadVector_ok h
    exact ⟨vs, hvs, hl⟩
  | diffDWORD =>
    obtain ⟨_, _, vs, -, hvs, -, hl⟩ := loadVector_ok h
    exact ⟨vs, hvs, hl⟩
  | diffInteger =>
    obtain ⟨_, _, vs, -, hvs, -, hl⟩ := loadVector_ok h
    exact ⟨vs, hvs, hl⟩

end Codec

/-- Read a column from its sub-stream.
Source: `PackedDWORDInStream.h` `operator>>` -/
def loadColumn {α : Type} (s : InStream) (id : ℕ) (codec : Codec) (ofRaw : ℕ → α) :
    LoadM (List α) Unit := do
  let sub ← Trial.lift (s.getSubStreamAs id codec.type)
  codec.load ofRaw sub.content

/-- The values that the sub-stream of a column holds. -/
def column (s : InStream) (id : ℕ) (codec : Codec) : Except Fault (List ℕ) := do
  let sub ← s.getSubStreamAs id codec.type
  codec.read sub.content

theorem loadColumn_ok {α : Type} {s : InStream} {id : ℕ} {codec : Codec} {ofRaw : ℕ → α}
    {l l' : List α} (h : loadColumn s id codec ofRaw l = (.ok (), l')) :
    ∃ vs, column s id codec = .ok vs ∧ l' = vs.map ofRaw := by
  obtain ⟨sub, hsub, h⟩ := Trial.lift_bind_eq_ok h
  obtain ⟨vs, hvs, hl⟩ := Codec.load_ok h
  refine ⟨vs, ?_, hl⟩
  rw [column, hsub]
  exact hvs

/-- A column that older caches do not have.
Source: `RevisionInfoContainer.cpp` `ReadOrDefault` -/
def readOrDefault {α : Type} (s : InStream) (id : ℕ) (ofRaw : ℕ → α) (size : ℕ)
    (defaultValue : α) : LoadM (List α) Unit :=
  if s.hasSubStream id then loadColumn s id .diffInteger ofRaw
  else Trial.modify fun _ => List.replicate size defaultValue

/-- The number of values that a column gets from its sub-stream or by default. -/
def columnOrDefault (s : InStream) (id size : ℕ) : Except Fault ℕ :=
  if s.hasSubStream id then (column s id .diffInteger).map List.length else .ok size

theorem readOrDefault_ok {α : Type} {s : InStream} {id size : ℕ} {ofRaw : ℕ → α} {a : α}
    {l l' : List α} (h : readOrDefault s id ofRaw size a l = (.ok (), l')) :
    columnOrDefault s id size = .ok l'.length := by
  unfold readOrDefault at h
  unfold columnOrDefault
  split at h
  · rename_i hsub
    obtain ⟨vs, hvs, rfl⟩ := loadColumn_ok h
    rw [if_pos hsub, hvs, List.length_map]
    rfl
  · rename_i hsub
    obtain ⟨-, rfl⟩ := Prod.mk.inj h
    rw [if_neg hsub, List.length_replicate]

/-! ### Time stamps -/

/-- A stream of time stamps that is being read. The last value is the bit pattern of an `__int64`.
Source: `PackedTime64InStream.h` `CPackedTime64InStreamBase` -/
structure CPackedTime64InStream where
  /-- The bytes that were not read yet. -/
  rest : List UInt8
  lastValue : ℕ := 0

namespace CPackedTime64InStream

/-- The header has the sign, the number of bytes that follow and the lowest four bits.
Source: `PackedTime64InStream.cpp` `CPackedTime64InStreamBase::GetValue` -/
def getValue (s : CPackedTime64InStream) : Except Fault (ℕ × CPackedTime64InStream) :=
  match s.rest with
  | [] => .error unexpectedEnd
  | head :: rest =>
    let count := (head.toNat / 0x10) % 8 + 1
    if rest.length < count then .error unexpectedEnd
    else
      let diff := (leNat (rest.take count) * 0x10 + head.toNat % 0x10) % 2 ^ 64
      let diff := if 0x80 ≤ head.toNat then (2 ^ 64 - diff) % 2 ^ 64 else diff
      let value := (diff + s.lastValue) % 2 ^ 64
      .ok (value, ⟨rest.drop count, value⟩)

/-- The `__int64` with a bit pattern. -/
def ofBits (v : ℕ) : ℤ := Int.bmod v (2 ^ 64)

end CPackedTime64InStream

/-- Read the time stamps. The size is a value like all others.
Source: `PackedTime64InStream.h` `CPackedTime64InStreamBase::GetSizeValue` -/
def loadTimes (s : InStream) (id : ℕ) : LoadM (List ℤ) Unit := do
  let sub ← Trial.lift (s.getSubStreamAs id .packedTime64)
  loadVector CPackedTime64InStream.getValue CPackedTime64InStream.getValue 0
    (fun _ v => CPackedTime64InStream.ofBits v) ⟨sub.content, 0⟩

end TortoiseSvn.LogCache
