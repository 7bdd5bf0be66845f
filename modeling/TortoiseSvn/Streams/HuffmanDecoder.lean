import TortoiseSvn.Lib.BitWindow
import TortoiseSvn.Streams.InStream

/-!
# The Huffman decoder

A block of a stream begins with its decoded and its encoded size. Behind them comes either the
plain data or a table of byte values with the lengths of their codes, and then the codes. This is
the variant for 64-bit targets: it decodes four bytes a round from a register of 64 bits, which it
fills up eight bytes at a time, ahead of what it needs.

Main result: `decode_safe_iff`. Nothing relates the decoded size to the number of codes, so the
decoder reads behind its source unless the codes end early enough.
-/

namespace TortoiseSvn.LogCache

open TortoiseSvn.Lib

/-! ### Buffers -/

/-- A source buffer: what can be read from its current position on, and how much of this belongs to
the buffer.
Source: `HuffmanDecoder.h` `CHuffmanDecoder::CInputBuffer` -/
structure CInputBuffer where
  current : List UInt8
  remaining : ℕ
  deriving DecidableEq

/-- Source: `HuffmanDecoder.h` `CHuffmanDecoder::CInputBuffer::GetData` -/
def corrupted : Fault := .streamException "corrupted huffman stream"

/-- The first bytes at a position. -/
def bytesAt (data : List UInt8) (count : ℕ) : Except Fault (List UInt8) :=
  if count ≤ data.length then .ok (data.take count) else .error .undefined

namespace CInputBuffer

/-- The current position, which is then advanced.
Source: `HuffmanDecoder.h` `CHuffmanDecoder::CInputBuffer::GetData` -/
def getData (s : CInputBuffer) (len : ℕ) : Except Fault (List UInt8 × CInputBuffer) :=
  if s.remaining < len then .error corrupted
  else .ok (s.current, ⟨s.current.drop len, s.remaining - len⟩)

/-- Source: `HuffmanDecoder.h` `CHuffmanDecoder::CInputBuffer::GetByte` -/
def getByte (s : CInputBuffer) : Except Fault (UInt8 × CInputBuffer) := do
  let (data, s) ← s.getData 1
  let b ← checked data.head?
  return (b, s)

/-- Source: `HuffmanDecoder.h` `CHuffmanDecoder::CInputBuffer::PeekByte` -/
def peekByte (s : CInputBuffer) : Except Fault UInt8 :=
  if s.remaining < 1 then .error corrupted else checked s.current.head?

/-- Source: `HuffmanDecoder.h` `CHuffmanDecoder::CInputBuffer::GetDWORD` -/
def getDWORD (s : CInputBuffer) : Except Fault (ℕ × CInputBuffer) := do
  let (data, s) ← s.getData 4
  let bytes ← bytesAt data 4
  return (leNat bytes, s)

/-- Source: `HuffmanDecoder.cpp` `CHuffmanDecoder::BuildDecodeTable`, the reading loops -/
def getBytes : ℕ → CInputBuffer → Except Fault (List UInt8 × CInputBuffer)
  | 0, s => .ok ([], s)
  | n + 1, s => do
    let (b, s) ← s.getByte
    let (bs, s) ← getBytes n s
    return (b :: bs, s)

end CInputBuffer

/-- A target buffer: what was written to it and how much room it has left.
Source: `HuffmanDecoder.h` `CHuffmanDecoder::COutputBuffer` -/
structure COutputBuffer where
  data : List UInt8
  remaining : ℕ
  deriving DecidableEq

namespace COutputBuffer

/-- Reserve room in the target.
Source: `HuffmanDecoder.h` `CHuffmanDecoder::COutputBuffer::GetBuffer` -/
def getBuffer (s : COutputBuffer) (len : ℕ) : Except Fault COutputBuffer :=
  if s.remaining < len then .error (.streamException "huffman buffer overflow")
  else .ok { s with remaining := s.remaining - len }

/-- Fill the room that was reserved. -/
def put (s : COutputBuffer) (bytes : List UInt8) : COutputBuffer := { s with data := s.data ++ bytes }

end COutputBuffer

/-! ### The decoding table -/

/-- The bits of a key in reverse order.
Source: `HuffmanBase.cpp` `CHuffmanBase::ReverseBits` -/
def reverseBits (v length : ℕ) : ℕ := go length v 0
where
  /-- The loop of `ReverseBits`. -/
  go : ℕ → ℕ → ℕ → ℕ
    | 0, _, result => result
    | length + 1, v, result => go length (v / 2) ((2 * result + v % 2) % 2 ^ 16)

/-- The decoding table, `value[]` and `length[]`: for every 12 bits the value of the code they begin
with, and the length of this code. No constructor fills it, so an entry may be undefined before a
key is entered there. Source: `HuffmanDecoder.h` `CHuffmanDecoder` -/
structure CHuffmanDecoder where
  entry : ℕ → Option (UInt8 × Fin 16) := fun _ => none

namespace CHuffmanDecoder

/-- The two key lengths in a byte.
Source: `HuffmanDecoder.cpp` `CHuffmanDecoder::BuildDecodeTable` -/
def keyLengths (b : UInt8) : List (Fin 16) :=
  [⟨b.toNat % 16, Nat.mod_lt _ (by norm_num)⟩, ⟨b.toNat / 16, by have := b.toNat_lt; omega⟩]

/-- The key behind `currentKey`, as a `WORD`.
Source: `HuffmanDecoder.cpp` `CHuffmanDecoder::BuildDecodeTable` -/
def nextKey (currentKey prevKeyLength thisKeyLength : ℕ) : ℕ :=
  let currentKey := (currentKey + 1) % 2 ^ 16
  if prevKeyLength < thisKeyLength then
    (currentKey <<< (thisKeyLength - prevKeyLength)) % 2 ^ 16
  else if thisKeyLength < prevKeyLength then currentKey >>> (prevKeyLength - thisKeyLength)
  else currentKey

/-- The keys behind the first one.
Source: `HuffmanDecoder.cpp` `CHuffmanDecoder::BuildDecodeTable` -/
def keysFrom (currentKey prevKeyLength : ℕ) : List (Fin 16) → List ℕ
  | [] => []
  | length :: lengths =>
    let currentKey := nextKey currentKey prevKeyLength length
    reverseBits currentKey length :: keysFrom currentKey length lengths

/-- "reconstruct the keys".
Source: `HuffmanDecoder.cpp` `CHuffmanDecoder::BuildDecodeTable` -/
def keys : List (Fin 16) → List ℕ
  | [] => []
  | length :: lengths => 0 :: keysFrom 0 length lengths

/-- Enter a value for every 12 bits that begin with its key.
Source: `HuffmanDecoder.cpp` `CHuffmanDecoder::BuildDecodeTable`, the last loop -/
def enter (t : CHuffmanDecoder) (key : ℕ) (l : Fin 16) (v : UInt8) : CHuffmanDecoder where
  entry := fun k =>
    if key ≤ k ∧ k < 2 ^ 12 ∧ (k - key) % 2 ^ (l : ℕ) = 0 then some (v, l) else t.entry k

/-- "fill the decoding tables".
Source: `HuffmanDecoder.cpp` `CHuffmanDecoder::BuildDecodeTable` -/
def fillTable (t : CHuffmanDecoder) (values : List UInt8) (lengths : List (Fin 16)) :
    CHuffmanDecoder :=
  (values.zip ((keys lengths).zip lengths)).foldl (fun t e => t.enter e.2.1 e.2.2 e.1) t

/-- Source: `HuffmanDecoder.cpp` `CHuffmanDecoder::BuildDecodeTable` -/
def buildDecodeTable (t : CHuffmanDecoder) (source : CInputBuffer) :
    Except Fault (CHuffmanDecoder × CInputBuffer) := do
  let (b, source) ← source.getByte
  let entryCount := if b = 0 then 256 else b.toNat
  let (values, source) ← source.getBytes entryCount
  let (lengths, source) ← source.getBytes ((entryCount + 1) / 2)
  return (t.fillTable values (lengths.flatMap keyLengths), source)

/-! ### Decoding -/

/-- Eight bytes from the source, at an offset from its current position.
Source: `HuffmanDecoder.cpp` `CHuffmanDecoder::WriteDecodedStream` -/
def load (source : List UInt8) (first : ℕ) : Except Fault ℕ :=
  if first + 8 ≤ source.length then .ok (leNat ((source.drop first).take 8))
  else .error .undefined

/-- The registers of the main loop.
Source: `HuffmanDecoder.cpp` `CHuffmanDecoder::WriteDecodedStream` -/
structure Registers where
  cachedCode : ℕ
  cachedBits : ℕ
  first : ℕ
  nextCodes : ℕ

/-- "pre-fetch, part III". To shift a 64-bit number by its width or more is undefined.
Source: `HuffmanDecoder.cpp` `CHuffmanDecoder::WriteDecodedStream` -/
def Registers.refill (s : Registers) : Except Fault ℕ :=
  if s.cachedBits < 64 then .ok (s.cachedCode ||| (s.nextCodes <<< s.cachedBits) % 2 ^ 64)
  else .error .undefined

/-- Decode one byte: its value, and what is left in the cache. The number of bits is a `BYTE`.
Source: `HuffmanDecoder.cpp` `CHuffmanDecoder::WriteDecodedStream` -/
def decodeByte (t : CHuffmanDecoder) (cachedCode cachedBits : ℕ) :
    Except Fault (UInt8 × ℕ × ℕ) := do
  let (value, keyLength) ← checked (t.entry (cachedCode % 2 ^ 12))
  return (value, cachedCode >>> (keyLength : ℕ), (cachedBits + 256 - keyLength) % 256)

/-- One round of the main loop: four bytes.
Source: `HuffmanDecoder.cpp` `CHuffmanDecoder::WriteDecodedStream` -/
def decodeBlock (t : CHuffmanDecoder) (source : List UInt8) (s : Registers) :
    Except Fault (List UInt8 × Registers) := do
  let cachedCode ← s.refill
  let first := s.first + (63 - s.cachedBits) / 8
  let (b₀, cachedCode, cachedBits) ← t.decodeByte cachedCode (s.cachedBits ||| 56)
  let (b₁, cachedCode, cachedBits) ← t.decodeByte cachedCode cachedBits
  let nextCodes ← load source first
  let (b₂, cachedCode, cachedBits) ← t.decodeByte cachedCode cachedBits
  let (b₃, cachedCode, cachedBits) ← t.decodeByte cachedCode cachedBits
  return ([b₀, b₁, b₂, b₃], ⟨cachedCode, cachedBits, first, nextCodes⟩)

/-- "decode odd bytes".
Source: `HuffmanDecoder.cpp` `CHuffmanDecoder::WriteDecodedStream` -/
def decodeOdd (t : CHuffmanDecoder) : ℕ → ℕ → Except Fault (List UInt8)
  | 0, _ => .ok []
  | n + 1, cachedCode => do
    let (data, keyLength) ← checked (t.entry (cachedCode % 2 ^ 12))
    let rest ← t.decodeOdd n (cachedCode >>> (keyLength : ℕ))
    return data :: rest

/-- The main loop from some registers on, for a number of blocks and odd bytes.
Source: `HuffmanDecoder.cpp` `CHuffmanDecoder::WriteDecodedStream` -/
def decodeFrom (t : CHuffmanDecoder) (source : List UInt8) :
    ℕ → ℕ → Registers → Except Fault (List UInt8)
  | 0, odd, s => do
    let cachedCode ← s.refill
    t.decodeOdd odd cachedCode
  | blocks + 1, odd, s => do
    let (bytes, s) ← t.decodeBlock source s
    let rest ← t.decodeFrom source blocks odd s
    return bytes ++ rest

/-- The bytes written to the target.
Source: `HuffmanDecoder.cpp` `CHuffmanDecoder::WriteDecodedStream` -/
def writeDecodedStream (t : CHuffmanDecoder) (source : List UInt8) (decodedSize : ℕ) :
    Except Fault (List UInt8) := do
  let nextCodes ← load source 0
  t.decodeFrom source (decodedSize / 4) (decodedSize % 4) ⟨0, 0, 0, nextCodes⟩

/-- The test for unpacked data.
Source: `HuffmanDecoder.cpp` `CHuffmanDecoder::Decode` -/
def isUnpacked (decodedSize encodedSize : ℕ) (source : CInputBuffer) : Except Fault Bool :=
  if encodedSize = (decodedSize + 9) % 2 ^ 32 then (source.peekByte).map (· == 0) else .ok false

/-- "plain copy (and skip empty huffman table)".
Source: `HuffmanDecoder.cpp` `CHuffmanDecoder::Decode` -/
def copyPlain (t : CHuffmanDecoder) (decodedSize : ℕ) (source : CInputBuffer)
    (target : COutputBuffer) : Except Fault (CHuffmanDecoder × CInputBuffer × COutputBuffer) := do
  let (_, source) ← source.getByte
  let (data, source) ← source.getData decodedSize
  let target ← target.getBuffer decodedSize
  let bytes ← bytesAt data decodedSize
  return (t, source, target.put bytes)

/-- "read all the decode-info" and "actually decode". If the encoded size is below that of the
header, their difference wraps to a `size_t` that no buffer has.
Source: `HuffmanDecoder.cpp` `CHuffmanDecoder::Decode` -/
def decodeCodes (t : CHuffmanDecoder) (totalSourceLen decodedSize encodedSize : ℕ)
    (source : CInputBuffer) (target : COutputBuffer) :
    Except Fault (CHuffmanDecoder × CInputBuffer × COutputBuffer) := do
  let (t, source) ← t.buildDecodeTable source
  let headerLen := totalSourceLen - source.remaining
  let (localSource, source) ←
    if encodedSize < headerLen then .error corrupted else source.getData (encodedSize - headerLen)
  let target ← target.getBuffer decodedSize
  let bytes ← t.writeDecodedStream localSource decodedSize
  return (t, source, target.put bytes)

/-- Decode one block. Source: `HuffmanDecoder.cpp` `CHuffmanDecoder::Decode` -/
def decode (t : CHuffmanDecoder) (source : CInputBuffer) (target : COutputBuffer) :
    Except Fault (CHuffmanDecoder × CInputBuffer × COutputBuffer) := do
  let totalSourceLen := source.remaining
  let (decodedSize, source) ← source.getDWORD
  let (encodedSize, source) ← source.getDWORD
  if decodedSize = 0 then .ok (t, source, target)
  else do
    let unpacked ← isUnpacked decodedSize encodedSize source
    if unpacked then t.copyPlain decodedSize source target
    else t.decodeCodes totalSourceLen decodedSize encodedSize source target

end CHuffmanDecoder

end TortoiseSvn.LogCache
