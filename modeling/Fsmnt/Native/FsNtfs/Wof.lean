import Fsmnt.Native.FsNtfs.Compressed

/-!
# Values compressed by the Windows Overlay Filter

`attribute_value/wof.rs`. The stream starts with a table of chunk offsets; the chunks follow. The
decoders of `nt-compression` are given as a `Codec` for each algorithm.
-/

namespace Fsmnt.FsNtfs

inductive WofAlgorithm where
  | xpress4K
  | lzx
  | xpress8K
  | xpress16K
  deriving DecidableEq, Repr

/-- `nt_compression::Algorithm`, as far as the filter uses it. -/
inductive NtAlgorithm where
  | xpress
  | lzx
  deriving DecidableEq, Repr

namespace WofAlgorithm

def chunkSize : WofAlgorithm → Nat
  | xpress4K => 4096
  | lzx => 32768
  | xpress8K => 8192
  | xpress16K => 16384

def toNtAlgorithm : WofAlgorithm → NtAlgorithm
  | xpress4K | xpress8K | xpress16K => .xpress
  | lzx => .lzx

end WofAlgorithm

/-- `NtfsWofAttributeValue`. -/
structure WofValue where
  compressedData : Bytes
  uncompressedSize : Nat
  algorithm : NtAlgorithm
  chunkSize : Nat
  chunkOffsets : List Nat
  tableEnd : Nat
  streamPosition : Nat
  decompressedBuffer : Bytes
  bufferedChunkIndex : Option Nat
  recoveryMode : CompressionRecoveryMode

namespace WofValue

/-- `parse_chunk_offsets`: the first chunk starts at zero. -/
def parseChunkOffsets (data : Bytes) (tableEntries entrySize : Nat) : List Nat :=
  0 :: (List.range tableEntries).map fun i => Bytes.ofLE (data.slice (i * entrySize) entrySize)

def validateChunkOffsets (offsets : List Nat) (dataRegionSize : Nat) : Except NtfsError Unit :=
  if (offsets.zip offsets.tail).any fun (a, b) => b < a then
    .error (.invalidWofData "chunk offsets are not monotonically increasing")
  else if dataRegionSize < offsets.getLastD 0 then
    .error (.invalidWofData "chunk offset exceeds ADS data bounds")
  else .ok ()

def new (compressedData : Bytes) (uncompressedSize : Nat) (algorithm : WofAlgorithm)
    (recoveryMode : CompressionRecoveryMode) : Except NtfsError WofValue :=
  let chunkSize := algorithm.chunkSize
  let value (chunkOffsets : List Nat) (tableEnd bufferSize : Nat) : WofValue :=
    { compressedData, uncompressedSize, algorithm := algorithm.toNtAlgorithm, chunkSize,
      chunkOffsets, tableEnd, streamPosition := 0, decompressedBuffer := Bytes.zeros bufferSize
      bufferedChunkIndex := none, recoveryMode }
  let numChunks := if uncompressedSize + (chunkSize - 1) < 2 ^ 64 then
    (uncompressedSize + (chunkSize - 1)) / chunkSize else 0
  if uncompressedSize = 0 then .ok (value [] 0 0)
  -- `num_chunks - 1` overflows when the rounded size did not fit
  else if numChunks = 0 then .error .panicked
  else
    let entrySize := if uncompressedSize < 0x100000000 then 4 else 8
    let tableEntries := numChunks - 1
    let tableEnd := tableEntries * entrySize
    if 2 ^ 64 ≤ tableEnd then .error (.invalidWofData "chunk offset table size overflow")
    else if compressedData.length < tableEnd then
      .error (.invalidWofData "ADS too small for chunk offset table")
    else
      let chunkOffsets := parseChunkOffsets compressedData tableEntries entrySize
      match validateChunkOffsets chunkOffsets (compressedData.length - tableEnd) with
      | .error e => .error e
      | .ok () => .ok (value chunkOffsets tableEnd chunkSize)

def decompressedChunkSize (self : WofValue) (chunkIndex : Nat) : Nat :=
  if chunkIndex + 1 < self.chunkOffsets.length then self.chunkSize
  else if self.uncompressedSize % self.chunkSize = 0 then self.chunkSize
  else self.uncompressedSize % self.chunkSize

/-- `chunk_compressed_range`: where the range starts and ends. -/
def chunkCompressedRange (self : WofValue) (chunkIndex : Nat) : Nat × Nat :=
  let start := self.chunkOffsets.getD chunkIndex 0
  let stop := if chunkIndex + 1 < self.chunkOffsets.length then
      self.chunkOffsets.getD (chunkIndex + 1) 0
    else self.compressedData.length - self.tableEnd
  (self.tableEnd + start, self.tableEnd + stop)

variable (codec : NtAlgorithm → Codec)

/-- What becomes of a chunk: an error, if the decoder fails, and the buffer that is left. -/
def decodeChunk (self : WofValue) (chunkIndex : Nat) : Option NtCompression.Error × Bytes :=
  let size := self.decompressedChunkSize chunkIndex
  let (start, stop) := self.chunkCompressedRange chunkIndex
  if size ≤ stop - start then (none, self.compressedData.slice start size)
  else
    let input := self.compressedData.slice start (stop - start)
    match self.recoveryMode with
    | .strict => (codec self.algorithm).decompress input (Bytes.zeros size)
    | .bestEffort => (none, (codec self.algorithm).decompressLenient input size)

/-- `ensure_chunk_buffered` for the chunk of a position. -/
def ensureChunkBuffered (position : Nat) : EStateM NtfsError WofValue Unit := do
  let self ← get
  let chunkIndex := position / self.chunkSize
  if self.bufferedChunkIndex = some chunkIndex then pure ()
  else
    match self.decodeChunk codec chunkIndex with
    | (some e, buffer) => do
      set { self with decompressedBuffer := buffer }
      throw (.decompressionError e)
    | (none, buffer) =>
      set { self with decompressedBuffer := buffer, bufferedChunkIndex := some chunkIndex }

/-- Moves the position behind bytes that were copied. -/
def advance (copied : Nat) (self : WofValue) : WofValue :=
  { self with streamPosition := self.streamPosition + copied }

def read (n : Nat) : EStateM NtfsError WofValue Bytes := do
  let self ← get
  let remaining := min n (self.uncompressedSize - self.streamPosition)
  readUnits (ensureChunkBuffered codec) WofValue.decompressedBuffer
    (fun position self => self.decompressedChunkSize (position / self.chunkSize)) self.chunkSize
    advance remaining self.streamPosition remaining

def seek (position : SeekFrom) : EStateM NtfsError WofValue Nat := do
  let self ← get
  match seekContiguous self.streamPosition self.uncompressedSize position with
  | .error e => throw e
  | .ok q => do
    set { self with streamPosition := q }
    pure q

/-- `Read` and `Seek` of the value. -/
def reader : ReadSeek NtfsError WofValue where
  read := read codec
  seek := seek

def setRecoveryMode (mode : CompressionRecoveryMode) (self : WofValue) : WofValue :=
  { self with recoveryMode := mode }

/-- The state after a call, whether it succeeded or failed. -/
def after (s : WofValue) : ValueCall → WofValue
  | .io call => (reader codec).after s call
  | .setRecoveryMode mode => setRecoveryMode mode s

end WofValue

end Fsmnt.FsNtfs
