import Mathlib.Data.List.Sort
import TortoiseSvn.Lib.PrefixCode
import TortoiseSvn.Streams.HuffmanDecoder

/-!
# The Huffman encoder

The encoder counts the bytes of its source, sorts those that occur by their number, and splits this
list again and again into two parts of about the same weight. Every split appends a bit to the keys
of either part. Where a range has more entries than twelve bits can tell apart any more, it is cut
in half instead. Only the lengths of the keys are written, in front of the keys of all bytes.

This is the variant for 64-bit targets, as for the decoder.
-/

namespace TortoiseSvn.LogCache

open TortoiseSvn.Lib

/-- The tables of the encoder. Of `sorted` only the valid entries are kept, the others are zero.
Source: `HuffmanEncoder.h` `CHuffmanEncoder` -/
structure CHuffmanEncoder where
  key : UInt8 → ℕ := fun _ => 0
  keyLength : UInt8 → ℕ := fun _ => 0
  count : UInt8 → ℕ := fun _ => 0
  sorted : List UInt8 := []

namespace CHuffmanEncoder

/-! ### Determine the distribution -/

/-- Count a byte in its lane. Source: `HuffmanEncoder.cpp` `CHuffmanEncoder::CountValues` -/
def addToLane (localCount : ℕ → UInt8 → ℕ) (lane : ℕ) (b : UInt8) : ℕ → UInt8 → ℕ :=
  Function.update localCount lane
    (Function.update (localCount lane) b ((localCount lane b + 2) % 2 ^ 32))

/-- The main loop: blocks of eight bytes, each of them in a lane of its own.
Source: `HuffmanEncoder.cpp` `CHuffmanEncoder::CountValues` -/
def countBlocks (localCount : ℕ → UInt8 → ℕ) : List UInt8 → (ℕ → UInt8 → ℕ) × List UInt8
  | b₀ :: b₁ :: b₂ :: b₃ :: b₄ :: b₅ :: b₆ :: b₇ :: source =>
    let localCount := addToLane (addToLane (addToLane (addToLane localCount 0 b₀) 1 b₁) 2 b₂) 3 b₃
    let localCount := addToLane (addToLane (addToLane (addToLane localCount 4 b₄) 5 b₅) 6 b₆) 7 b₇
    countBlocks localCount source
  | source => (localCount, source)

/-- "count odd chars". Source: `HuffmanEncoder.cpp` `CHuffmanEncoder::CountValues` -/
def countOdd (count : UInt8 → ℕ) : List UInt8 → UInt8 → ℕ
  | [] => count
  | b :: source => countOdd (Function.update count b ((count b + 1) % 2 ^ 32)) source

/-- Temporary counters do not pay for short sequences.
Source: `HuffmanEncoder.cpp` `CHuffmanEncoder::CountValues` -/
def countValues (source : List UInt8) : UInt8 → ℕ :=
  if 8 * 256 / 2 < 2 * source.length then
    let (localCount, odd) := countBlocks (fun _ _ => 0) source
    let count := fun k => (List.range 8).foldl (fun n i => (n + localCount i k / 2) % 2 ^ 32) 0
    countOdd count odd
  else countOdd (fun _ => 0) source

/-! ### Assign the keys -/

/-- "find the middle position": go on until half of the weight is reached.
Source: `HuffmanEncoder.cpp` `CHuffmanEncoder::AssignEncoding` -/
def findMiddle (count : UInt8 → ℕ) (half : ℕ) : List UInt8 → ℕ → ℕ → ℕ × ℕ
  | [], mid, halfSum => (mid, halfSum)
  | v :: range, mid, halfSum =>
    if halfSum < half then findMiddle count half range (mid + 1) (halfSum + count v)
    else (mid, halfSum)

/-- Where a range is split. The weights add up to the size of the source at most, which is a
`DWORD`. Source: `HuffmanEncoder.cpp` `CHuffmanEncoder::AssignEncoding` -/
def splitAt (count : UInt8 → ℕ) (range : List UInt8) (bitCount : ℕ) : Except Fault ℕ :=
  if 11 < bitCount then .error .undefined
  else if 2 ^ (11 - bitCount) < range.length then .ok (range.length / 2)
  else do
    let totalSum := (range.map count).sum
    let (mid, halfSum) := findMiddle count (totalSum / 2) range 0 0
    if mid = 0 then throw .undefined
    let v ← checked range[mid - 1]?
    let lowerHalfSum := halfSum - count v
    if totalSum - lowerHalfSum < halfSum then .ok (mid - 1) else .ok mid

/-- A key of its own.
Source: `HuffmanEncoder.cpp` `CHuffmanEncoder::AssignEncoding` -/
def setKey (s : CHuffmanEncoder) (v : UInt8) (encoding bitCount : ℕ) : CHuffmanEncoder :=
  { s with key := Function.update s.key v (reverseBits encoding bitCount)
           keyLength := Function.update s.keyLength v bitCount }

/-- "recursively construct & assign keys", the recursion being no deeper than `fuel`.
Source: `HuffmanEncoder.cpp` `CHuffmanEncoder::AssignEncoding` -/
def assignEncoding : ℕ → List UInt8 → ℕ → ℕ → CHuffmanEncoder → Except Fault CHuffmanEncoder
  | _, [v], encoding, bitCount, s => .ok (s.setKey v encoding bitCount)
  | 0, _, _, _, _ => .error .undefined
  | fuel + 1, range, encoding, bitCount, s => do
    let mid ← splitAt s.count range bitCount
    let s ← assignEncoding fuel (range.take mid) (2 * encoding % 2 ^ 16) (bitCount + 1) s
    assignEncoding fuel (range.drop mid) ((2 * encoding + 1) % 2 ^ 16) (bitCount + 1) s

/-- The order of pairs of a count and a value.
Source: `HuffmanEncoder.cpp` `CHuffmanEncoder::SortByFrequency` -/
def RarerOrEqual (count : UInt8 → ℕ) (v w : UInt8) : Prop :=
  count v < count w ∨ count v = count w ∧ v ≤ w

instance (count : UInt8 → ℕ) : DecidableRel (RarerOrEqual count) := fun v w => by
  unfold RarerOrEqual
  infer_instance

/-- All values that occur, the rarest first.
Source: `HuffmanEncoder.cpp` `CHuffmanEncoder::SortByFrequency` -/
def frequencyOrder (count : UInt8 → ℕ) : List UInt8 :=
  (((List.range 256).map UInt8.ofNat).filter fun v => 0 < count v).insertionSort
    (RarerOrEqual count)

/-- Source: `HuffmanEncoder.cpp` `CHuffmanEncoder::SortByFrequency` -/
def sortByFrequency (count : UInt8 → ℕ) : Except Fault CHuffmanEncoder :=
  let sorted := frequencyOrder count
  let s : CHuffmanEncoder := { count := count, sorted := sorted }
  if sorted = [] then .ok s else assignEncoding sorted.length sorted 0 0 s

/-! ### Write the data -/

/-- Both factors are of 32 bits, and so is their product, whereas the sum has 64 bits.
Source: `HuffmanEncoder.cpp` `CHuffmanEncoder::CalculatePackedSize` -/
def totalBits (s : CHuffmanEncoder) : ℕ :=
  (((List.range 256).map UInt8.ofNat).map fun v => s.count v * s.keyLength v % 2 ^ 32).sum

/-- Source: `HuffmanEncoder.cpp` `CHuffmanEncoder::CalculatePackedSize` -/
def calculatePackedSize (s : CHuffmanEncoder) : ℕ :=
  (8 + (1 + (3 * s.sorted.length + 1) / 2) + (s.totalBits / 8 + 8) % 2 ^ 32) % 2 ^ 32

/-- Write to a buffer. -/
def storeBytes (buffer : List UInt8) (dest : ℕ) (bytes : List UInt8) : Except Fault (List UInt8) :=
  if dest + bytes.length ≤ buffer.length then
    .ok (buffer.take dest ++ bytes ++ buffer.drop (dest + bytes.length))
  else .error .undefined

/-- Two key lengths a byte. Behind the last value of an odd number stands a zero.
Source: `HuffmanEncoder.cpp` `CHuffmanEncoder::WriteHuffmanTable` -/
def packedLengths (s : CHuffmanEncoder) : List UInt8 → List UInt8
  | [] => []
  | [v] => [UInt8.ofNat (s.keyLength v + s.keyLength 0 * 16)]
  | v :: w :: values => UInt8.ofNat (s.keyLength v + s.keyLength w * 16) :: s.packedLengths values

/-- Source: `HuffmanEncoder.cpp` `CHuffmanEncoder::WriteHuffmanTable` -/
def huffmanTable (s : CHuffmanEncoder) : List UInt8 :=
  UInt8.ofNat s.sorted.length :: s.sorted ++ s.packedLengths s.sorted

/-- The target and the bits that do not fill a byte of it yet.
Source: `HuffmanEncoder.cpp` `CHuffmanEncoder::WriteHuffmanEncoded` -/
structure BitCache where
  buffer : List UInt8
  dest : ℕ
  cachedCode : ℕ := 0
  cachedBits : ℕ := 0

/-- Add a key to the cache. Source: `HuffmanEncoder.cpp` `CHuffmanEncoder::WriteHuffmanEncoded` -/
def cacheByte (s : CHuffmanEncoder) (c : BitCache) (b : UInt8) : BitCache :=
  { c with cachedCode := (c.cachedCode + s.key b <<< c.cachedBits) % 2 ^ 64
           cachedBits := (c.cachedBits + s.keyLength b) % 2 ^ 8 }

/-- "write full bytes only" and "update cache". To shift by 64 bits is undefined.
Source: `HuffmanEncoder.cpp` `CHuffmanEncoder::WriteHuffmanEncoded` -/
def BitCache.flush (c : BitCache) : Except Fault BitCache := do
  let buffer ← storeBytes c.buffer c.dest (leBytes 8 c.cachedCode)
  if 64 ≤ c.cachedBits then throw .undefined
  return ⟨buffer, c.dest + c.cachedBits / 8, c.cachedCode >>> (c.cachedBits / 8 * 8),
    c.cachedBits % 8⟩

/-- "encode odd chars" and "write the remaining cached data".
Source: `HuffmanEncoder.cpp` `CHuffmanEncoder::WriteHuffmanEncoded` -/
def encodeOdd (s : CHuffmanEncoder) : List UInt8 → BitCache → Except Fault (List UInt8)
  | [], c => storeBytes c.buffer c.dest (leBytes 8 c.cachedCode)
  | b :: source, c => do
    let c ← (s.cacheByte c b).flush
    s.encodeOdd source c

/-- The main loop: four bytes a round.
Source: `HuffmanEncoder.cpp` `CHuffmanEncoder::WriteHuffmanEncoded` -/
def writeHuffmanEncoded (s : CHuffmanEncoder) : List UInt8 → BitCache → Except Fault (List UInt8)
  | b₀ :: b₁ :: b₂ :: b₃ :: source, c => do
    let c ← (s.cacheByte (s.cacheByte (s.cacheByte (s.cacheByte c b₀) b₁) b₂) b₃).flush
    s.writeHuffmanEncoded source c
  | source, c => s.encodeOdd source c

/-- Encode a block. `memory` is what the new buffer holds at first.
Source: `HuffmanEncoder.cpp` `CHuffmanEncoder::Encode` -/
def encode (memory : ℕ → UInt8) (source : List UInt8) : Except Fault (List UInt8) := do
  let byteCount := source.length
  if 2 ^ 32 - 1 < byteCount then throw (.streamException "BLOB to large for stream")
  let s ← sortByFrequency (countValues source)
  let targetSize := min ((byteCount + 9) % 2 ^ 32) s.calculatePackedSize
  let buffer := (List.range targetSize).map memory
  let buffer ← storeBytes buffer 0 (leBytes 4 byteCount)
  let buffer ← storeBytes buffer 4 (leBytes 4 targetSize)
  if byteCount + 9 = targetSize then do
    let buffer ← storeBytes buffer 8 [0]
    storeBytes buffer 9 source
  else do
    let buffer ← storeBytes buffer 8 s.huffmanTable
    s.writeHuffmanEncoded source ⟨buffer, 8 + s.huffmanTable.length, 0, 0⟩

end CHuffmanEncoder

end TortoiseSvn.LogCache
