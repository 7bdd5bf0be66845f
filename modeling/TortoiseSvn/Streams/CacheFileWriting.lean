import TortoiseSvn.Streams.CacheFile
import TortoiseSvn.Streams.HuffmanEncoder

/-!
# Writing cache files

A tree of streams is written from the leaves up: a stream gets its place in the file, and with it its
number, when all of its sub-streams have been closed. It begins with a directory of these, and the
blocks of its own data follow, with the size that they decode to behind them. The sizes of the
streams and their number come at the end of the file.

All of it goes through a buffer. A file with a stream that is too large for its entry in the list of
sizes is removed again.
-/

namespace TortoiseSvn.LogCache

open TortoiseSvn.Lib

/-! ### The file -/

/-- A file that is written: what is on the disk, what is in the buffer, and the size of both.
Source: `BufferedOutFile.h` `CBufferedOutFile` -/
structure CBufferedOutFile where
  stream : List UInt8 := []
  buffer : List UInt8 := []
  fileSize : ℕ := 0
  deriving DecidableEq

namespace CBufferedOutFile

/-- Source: `BufferedOutFile.h` `CBufferedOutFile::BUFFER_SIZE` -/
def bufferSize : ℕ := 1024 * 1024

/-- Source: `BufferedOutFile.cpp` `CBufferedOutFile::Flush` -/
def flush (f : CBufferedOutFile) : CBufferedOutFile :=
  { f with stream := f.stream ++ f.buffer, buffer := [] }

/-- "buffer small chunks of data". The buffer has a fixed size.
Source: `BufferedOutFile.cpp` `CBufferedOutFile::Add` -/
def toBuffer (f : CBufferedOutFile) (data : List UInt8) : Except Fault CBufferedOutFile :=
  if f.buffer.length + data.length ≤ bufferSize then
    .ok { f with buffer := f.buffer ++ data, fileSize := f.fileSize + data.length }
  else .error .undefined

/-- Write data to the file. The test for an overflow adds two numbers of 32 bits.
Source: `BufferedOutFile.cpp` `CBufferedOutFile::Add` -/
def add (f : CBufferedOutFile) (data : List UInt8) : Except Fault CBufferedOutFile :=
  if bufferSize < (f.buffer.length + data.length) % 2 ^ 32 then
    let f := f.flush
    if bufferSize ≤ data.length then
      .ok { f with stream := f.stream ++ data, fileSize := f.fileSize + data.length }
    else f.toBuffer data
  else f.toBuffer data

/-- Source: `BufferedOutFile.h` `CBufferedOutFile::Add` -/
def addDWORD (f : CBufferedOutFile) (value : ℕ) : Except Fault CBufferedOutFile :=
  f.add (leBytes 4 value)

/-- Several numbers. -/
def addDWORDs (f : CBufferedOutFile) : List ℕ → Except Fault CBufferedOutFile
  | [] => .ok f
  | value :: values => do
    let f ← f.addDWORD value
    f.addDWORDs values

end CBufferedOutFile

/-- A cache file that is written: where the streams begin in it.
Source: `CacheFileOutBuffer.h` `CCacheFileOutBuffer` -/
structure CCacheFileOutBuffer where
  file : CBufferedOutFile
  streamOffsets : List ℕ := []

namespace CCacheFileOutBuffer

/-- Source: `CacheFileOutBuffer.h` `OUR_LOG_CACHE_FILE_VERSION`, `MIN_LOG_CACHE_FILE_VERSION` -/
def ourLogCacheFileVersion : ℕ := 0x20100515

/-- A new file begins with two version numbers.
Source: `CacheFileOutBuffer.cpp` `CCacheFileOutBuffer::CCacheFileOutBuffer` -/
def create : Except Fault CCacheFileOutBuffer := do
  let file ← CBufferedOutFile.addDWORDs {} [ourLogCacheFileVersion, ourLogCacheFileVersion]
  return { file := file }

/-- The index of a new stream, which begins here.
Source: `CacheFileOutBuffer.cpp` `CCacheFileOutBuffer::OpenStream` -/
def openStream (b : CCacheFileOutBuffer) : ℕ × CCacheFileOutBuffer :=
  (b.streamOffsets.length, { b with streamOffsets := b.streamOffsets ++ [b.file.fileSize] })

/-- Write the sizes of the streams, unless one is too large: then the file is removed.
Source: `CacheFileOutBuffer.cpp` `CCacheFileOutBuffer::~CCacheFileOutBuffer`, the loop -/
def writeSizes (file : CBufferedOutFile) (lastOffset : ℕ) :
    List ℕ → Except Fault (Option CBufferedOutFile)
  | [] => .ok (some file)
  | offset :: offsets =>
    if 2 ^ 32 - 1 ≤ offset - lastOffset then .ok none
    else do
      let file ← file.addDWORD (offset - lastOffset)
      writeSizes file offset offsets

/-- What is on the disk in the end.
Source: `CacheFileOutBuffer.cpp` `CCacheFileOutBuffer::~CCacheFileOutBuffer`, `BufferedOutFile.cpp`
`CBufferedOutFile::InternalClose` -/
def close (b : CCacheFileOutBuffer) : Except Fault (Option (List UInt8)) := do
  let streamOffsets := b.streamOffsets ++ [b.file.fileSize]
  let lastOffset ← checked streamOffsets.head?
  match ← writeSizes b.file lastOffset streamOffsets.tail with
  | none => return none
  | some file =>
    let file ← file.addDWORD ((streamOffsets.length - 1) % 2 ^ 32)
    return some file.flush.stream

end CCacheFileOutBuffer

/-! ### Streams -/

/-- The type ID of a class. Source: `StreamTypeIDs.h` -/
def StreamType.typeID : StreamType → ℕ
  | .root => 0x00
  | .composite => 0x10
  | .blob => 0x20
  | .binary => 0x30
  | .packedDWORD => 0x31
  | .packedInteger => 0x32
  | .diffInteger => 0x33
  | .diffDWORD => 0x34
  | .packedTime64 => 0x35

/-- A stream to be written: its class, its data block by block, and its sub-streams with their IDs, in
the order in which they are opened.
Source: `HierachicalOutStreamBase.h` `CHierachicalOutStreamBase` -/
inductive OutStream where
  | node (type : StreamType) (blocks : List (List UInt8)) (subStreams : List (ℕ × OutStream))

namespace OutStream

/-- Source: `HierachicalOutStreamBase.h` `IHierarchicalOutStream::GetTypeID` -/
def type : OutStream → StreamType
  | node type _ _ => type

/-- Source: `BinaryOutStream.h` `CBinaryOutStreamBase::CHUNK_SIZE` -/
def chunkSize : ℕ := 128 * 1024

/-- The blocks of a binary stream: the current one is written when the next piece does not fit in any
more. A piece that fits in no block never would.
Source: `BinaryOutStream.h` `CBinaryOutStreamBase::Add`, `BinaryOutStream.cpp`
`CBinaryOutStreamBase::Flush` -/
def toBlocks (current : List UInt8) : List (List UInt8) → List (List UInt8)
  | [] => [current]
  | piece :: pieces =>
    if current.length + piece.length ≤ chunkSize then toBlocks (current ++ piece) pieces
    else current :: toBlocks piece pieces

/-- A stream without data of its own.
Source: `CompositeOutStream.h` `CCompositeOutStreamBase` -/
def composite (subStreams : List (ℕ × OutStream)) : OutStream := node .composite [[]] subStreams

/-- The root of all streams. Source: `RootOutStream.h` `CRootOutStream` -/
def root (subStreams : List (ℕ × OutStream)) : OutStream := node .root [[]] subStreams

/-- A single chunk of data. Source: `BLOBOutStream.cpp` `CBLOBOutStreamBase::Add` -/
def blob (data : List UInt8) : OutStream := node .blob [data] []

/-- A stream to which pieces of data were added.
Source: `BinaryOutStream.h` `CBinaryOutStreamBase` -/
def binary (type : StreamType) (pieces : List (List UInt8)) : OutStream :=
  node type (toBlocks [] pieces) []

end OutStream

/-- Write the blocks of a stream.
Source: `HierachicalOutStreamBase.cpp` `CHierachicalOutStreamBase::WriteThisStream` -/
def writeBlocks (memory : ℕ → UInt8) (file : CBufferedOutFile) :
    List (List UInt8) → Except Fault CBufferedOutFile
  | [] => .ok file
  | block :: blocks => do
    let packedData ← CHuffmanEncoder.encode memory block
    let file ← file.add packedData
    writeBlocks memory file blocks

/-- Write a stream whose sub-streams are closed: its directory, its blocks and its decoded size.
Source: `HierachicalOutStreamBase.cpp` `CHierachicalOutStreamBase::WriteSubStreamList`,
`CHierachicalOutStreamBase::Close` -/
def writeContents (memory : ℕ → UInt8) (file : CBufferedOutFile) (entries : List (List ℕ))
    (blocks : List (List UInt8)) : Except Fault CBufferedOutFile := do
  let file ← file.addDWORDs (entries.length % 2 ^ 32 :: entries.flatten)
  let file ← writeBlocks memory file blocks
  file.addDWORD (blocks.flatten.length % 2 ^ 32)

mutual

/-- Write a stream and give its index. All sub-streams are closed before its own place in the file is
determined.
Source: `HierachicalOutStreamBase.cpp` `CHierachicalOutStreamBase::AutoOpen`,
`CHierachicalOutStreamBase::Close`, `CHierachicalOutStreamBase::AutoClose` -/
def writeStream (memory : ℕ → UInt8) (b : CCacheFileOutBuffer) :
    OutStream → Except Fault (ℕ × CCacheFileOutBuffer)
  | .node _ blocks subStreams => do
    let (entries, b) ← writeSubStreams memory b subStreams
    let (index, b) := b.openStream
    let file ← writeContents memory b.file entries blocks
    return (index, { b with file := file })

/-- Write streams one after the other and give their entries in the directory: index, ID and type.
Source: `HierachicalOutStreamBase.cpp` `CHierachicalOutStreamBase::CloseLatestSubStream`,
`CHierachicalOutStreamBase::WriteSubStreamList` -/
def writeSubStreams (memory : ℕ → UInt8) (b : CCacheFileOutBuffer) :
    List (ℕ × OutStream) → Except Fault (List (List ℕ) × CCacheFileOutBuffer)
  | [] => .ok ([], b)
  | (id, subStream) :: subStreams => do
    let (index, b) ← writeStream memory b subStream
    let (entries, b) ← writeSubStreams memory b subStreams
    return ([index % 2 ^ 32, id, subStream.type.typeID] :: entries, b)

end

/-- Write a cache file, which is `none` if it is removed again.
Source: `RootOutStream.cpp` `CRootOutStream::CRootOutStream`, `CRootOutStream::~CRootOutStream` -/
def writeCacheFile (memory : ℕ → UInt8) (subStreams : List (ℕ × OutStream)) :
    Except Fault (Option (List UInt8)) := do
  let b ← CCacheFileOutBuffer.create
  let (_, b) ← writeStream memory b (.root subStreams)
  b.close

/-! ### Reading everything back -/

mutual

/-- All data of an opened stream and its sub-streams.
Source: `HierachicalInStreamBase.cpp` `CHierachicalInStreamBase::AutoOpen` -/
def readTree (fuel : ℕ) (file : List UInt8) :
    CHierachicalInStream → Option (Except Fault InStream)
  | .node type first last subStreams =>
    andThen (decodeThisStream fuel file first last) fun content =>
      andThen (readTrees fuel file subStreams) fun subStreams =>
        some (.ok (.node type content subStreams))

/-- All data of some sub-streams. -/
def readTrees (fuel : ℕ) (file : List UInt8) :
    List (ℕ × CHierachicalInStream) → Option (Except Fault (List (ℕ × InStream)))
  | [] => some (.ok [])
  | (id, subStream) :: subStreams =>
    andThen (readTree fuel file subStream) fun tree =>
      andThen (readTrees fuel file subStreams) fun trees => some (.ok ((id, tree) :: trees))

end

/-- Open a cache file and read every stream in it.
Source: `RootInStream.cpp` `CRootInStream::CRootInStream`, `HierachicalInStreamBase.cpp`
`CHierachicalInStreamBase::GetSubStream` -/
def readCacheFile (fuel : ℕ) (file : List UInt8) : Option (Except Fault InStream) :=
  andThen (openRootStream fuel file) fun (root, _) => readTree fuel file root

end TortoiseSvn.LogCache
