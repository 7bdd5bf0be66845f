import TortoiseSvn.Lib.Descent
import TortoiseSvn.Lib.Loop
import TortoiseSvn.Streams.HuffmanBounds

/-!
# Cache files

A cache file is mapped into memory. Behind two version numbers come the contents of its streams, one
after the other, then their sizes and the number of streams. A stream begins with a directory of its
sub-streams, which tells the number of each in the file; the data behind it is one Huffman block or
several, and their decoded size.

A stream is opened with all of its sub-streams. Its data is decoded when it is needed first, the
one of the root at once.
-/

namespace TortoiseSvn.LogCache

open TortoiseSvn.Lib

/-! ### The file -/

/-- Source: `CacheFileInBuffer.h` `OLDEST_LOG_CACHE_FILE_VERSION` -/
def oldestLogCacheFileVersion : ℕ := 0x20070607

/-- Source: `CacheFileInBuffer.h` `NEWEST_LOG_CACHE_FILE_VERSION` -/
def newestLogCacheFileVersion : ℕ := 0x20100515

/-- A `DWORD` of the file.
Source: `CacheFileInBuffer.h` `CCacheFileInBuffer::GetDWORD` -/
def getDWORD (file : List UInt8) (offset : ℕ) : Except Fault ℕ :=
  if offset + 4 ≤ file.length then .ok (leNat ((file.drop offset).take 4)) else .error .undefined

/-- A mapped file and the places where its streams begin; the last one is where they end.
Source: `CacheFileInBuffer.h` `CCacheFileInBuffer` -/
structure CCacheFileInBuffer where
  file : List UInt8
  streamContents : List ℕ

namespace CCacheFileInBuffer

/-- Add up stream sizes.
Source: `CacheFileInBuffer.cpp` `CCacheFileInBuffer::ReadStreamOffsets`, the loop -/
def readSizes (file : List UInt8) : ℕ → ℕ → ℕ → Except Fault (List ℕ)
  | 0, _, _ => .ok []
  | count + 1, streamSizes, lastStream => do
    let size ← getDWORD file streamSizes
    let rest ← readSizes file count (streamSizes + 4) (lastStream + size)
    return (lastStream + size) :: rest

/-- The counts in front of the two multiplications are `DWORD`s. If the sizes seem to begin in front
of the file, reading them is undefined.
Source: `CacheFileInBuffer.cpp` `CCacheFileInBuffer::ReadStreamOffsets` -/
def readStreamOffsets (file : List UInt8) : Except Fault CCacheFileInBuffer := do
  if file.length < 12 then throw (.streamException "log cache file too small")
  let creatorVersion ← getDWORD file 0
  let requiredVersion ← getDWORD file 4
  if creatorVersion < oldestLogCacheFileVersion then
    throw (.streamException "log cache file format too old")
  if newestLogCacheFileVersion < requiredVersion then
    throw (.streamException "log cache file format too new")
  let streamCount ← getDWORD file (file.length - 4)
  if file.length < (3 + streamCount) % 2 ^ 32 * 4 then
    throw (.streamException "log cache file too small to hold stream directory")
  if file.length < (streamCount + 1) % 2 ^ 32 * 4 then throw .undefined
  let contentEnd := file.length - (streamCount + 1) % 2 ^ 32 * 4
  let ends ← readSizes file streamCount contentEnd 8
  if (8 :: ends).getLast? ≠ some contentEnd then
    throw (.streamException "stream directory corrupted")
  return ⟨file, 8 :: ends⟩

/-- Source: `CacheFileInBuffer.cpp` `CCacheFileInBuffer::GetLastStream` -/
def getLastStream (b : CCacheFileInBuffer) : ℕ := subU b.streamContents.length 2

/-- The range of a stream. A `STREAM_INDEX` is signed, and from `2 ^ 31` on it is above the number of
all streams as a `size_t`.
Source: `CacheFileInBuffer.cpp` `CCacheFileInBuffer::GetStreamBuffer` -/
def getStreamBuffer (b : CCacheFileInBuffer) (index : ℕ) : Except Fault (ℕ × ℕ) := do
  if 2 ^ 31 ≤ index ∨ b.streamContents.length - 1 ≤ index then
    throw (.streamException "invalid stream index")
  let first ← checked b.streamContents[index]?
  let last ← checked b.streamContents[index + 1]?
  return (first, last)

end CCacheFileInBuffer

/-! ### Sub-streams -/

/-- A stream class that is found by its type ID. There is none for root streams.
Source: `StreamFactory.h` `CStreamFactoryPool::GetFactory`, `StreamTypeIDs.h` -/
def getFactory (type : ℕ) : Except Fault StreamType :=
  match type with
  | 0x10 => .ok .composite
  | 0x20 => .ok .blob
  | 0x30 => .ok .binary
  | 0x31 => .ok .packedDWORD
  | 0x32 => .ok .packedInteger
  | 0x33 => .ok .diffInteger
  | 0x34 => .ok .diffDWORD
  | 0x35 => .ok .packedTime64
  | _ => .error (.streamException "No factory for that stream type")

/-- A stream that was opened: its class, the range of its data in the file, and its sub-streams.
Source: `HierachicalInStreamBase.h` `CHierachicalInStreamBase` -/
inductive CHierachicalInStream where
  | node (type : StreamType) (first last : ℕ) (subStreams : List (ℕ × CHierachicalInStream))

/-- Keep the entry that is there.
Source: `HierachicalInStreamBase.cpp` `CHierachicalInStreamBase::ReadSubStreams`,
`subStreams.emplace` -/
def emplace {α : Type} (subStreams : List (ℕ × α)) (id : ℕ) (subStream : α) : List (ℕ × α) :=
  if (subStreams.lookup id).isSome then subStreams else subStreams ++ [(id, subStream)]

/-- An entry of a directory, up to the creation of the sub-stream: its index and ID, and its class.
Source: `HierachicalInStreamBase.cpp` `CHierachicalInStreamBase::ReadSubStreams` -/
def readEntry (file : List UInt8) (source : ℕ) : Except Fault (ℕ × ℕ × StreamType) := do
  let subStreamIndex ← getDWORD file source
  let subStreamID ← getDWORD file (source + 4)
  let subStreamType ← getDWORD file (source + 8)
  let factory ← getFactory subStreamType
  return (subStreamIndex, subStreamID, factory)

/-- "read the sub-streams".
Source: `HierachicalInStreamBase.cpp` `CHierachicalInStreamBase::ReadSubStreams` -/
def readEntries (file : List UInt8)
    (createStream : StreamType → ℕ → Option (Except Fault CHierachicalInStream)) :
    ℕ → ℕ → List (ℕ × CHierachicalInStream) →
      Option (Except Fault (List (ℕ × CHierachicalInStream)))
  | 0, _, subStreams => some (.ok subStreams)
  | count + 1, source, subStreams =>
    andThen (some (readEntry file source)) fun (index, id, type) =>
      andThen (createStream type index) fun subStream =>
        readEntries file createStream count (source + 12) (emplace subStreams id subStream)

namespace CCacheFileInBuffer

/-- The beginning of a stream: its range, the number of its sub-streams, and the size of its
directory as it is computed. The sum in it is a `DWORD`.
Source: `HierachicalInStreamBase.cpp` `CHierachicalInStreamBase::ReadSubStreams` -/
def readDirectory (b : CCacheFileInBuffer) (index : ℕ) : Except Fault (ℕ × ℕ × ℕ × ℕ) := do
  let (first, last) ← b.getStreamBuffer index
  if last - first < 4 then throw (.streamException "stream too short")
  let subStreamCount ← LogCache.getDWORD b.file first
  let directorySize := (subStreamCount + 1) % 2 ^ 32 * 4
  if last - first < directorySize then
    throw (.streamException "stream too short for sub-stream list")
  return (first, last, subStreamCount, directorySize)

/-- Open a stream with its sub-streams, streams being nested no deeper than `fuel`.
Source: `HierachicalInStreamBase.cpp` `CHierachicalInStreamBase::ReadSubStreams` -/
def readSubStreams (b : CCacheFileInBuffer) :
    ℕ → StreamType → ℕ → Option (Except Fault CHierachicalInStream)
  | 0, _, _ => none
  | fuel + 1, type, index =>
    andThen (some (b.readDirectory index)) fun (first, last, subStreamCount, directorySize) =>
      andThen (readEntries b.file (b.readSubStreams fuel) subStreamCount (first + 4) [])
        fun subStreams => some (.ok (.node type (first + directorySize) last subStreams))

end CCacheFileInBuffer

/-! ### Data -/

/-- The loop over the blocks of a stream.
Source: `HierachicalInStreamBase.cpp` `CHierachicalInStreamBase::DecodeThisStream` -/
def decodeBlocks : CHuffmanDecoder × CInputBuffer × COutputBuffer →
    Except Fault ((CHuffmanDecoder × CInputBuffer × COutputBuffer) ⊕ List UInt8)
  | (decoder, source, target) =>
    if target.remaining = 0 then .ok (.inr target.data)
    else (decoder.decode source target).map .inl

/-- The decoded data of a stream, from at most `fuel` blocks.
Source: `HierachicalInStreamBase.cpp` `CHierachicalInStreamBase::DecodeThisStream` -/
def decodeThisStream (fuel : ℕ) (file : List UInt8) (first last : ℕ) :
    Option (Except Fault (List UInt8)) :=
  andThen (some (getDWORD file (last - 4))) fun decodedSize =>
    loop decodeBlocks fuel ({}, ⟨file.drop first, last - first⟩, ⟨[], decodedSize⟩)

/-- Open a cache file: its root stream with all sub-streams, and the data of the root.
Source: `RootInStream.cpp` `CRootInStream::CRootInStream`, `CacheFileInBuffer.cpp`
`CCacheFileInBuffer::CCacheFileInBuffer` -/
def openRootStream (fuel : ℕ) (file : List UInt8) :
    Option (Except Fault (CHierachicalInStream × List UInt8)) :=
  andThen (some (CCacheFileInBuffer.readStreamOffsets file)) fun buffer =>
    andThen (buffer.readSubStreams fuel .root buffer.getLastStream) fun
      | .node type first last subStreams =>
        andThen (decodeThisStream fuel file first last) fun content =>
          some (.ok (.node type first last subStreams, content))

end TortoiseSvn.LogCache
