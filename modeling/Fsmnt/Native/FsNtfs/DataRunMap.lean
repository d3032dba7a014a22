import Fsmnt.ForStd.ReadSeek
import Fsmnt.Native.NtCompression.Basic

/-!
# Data runs and the map of an attribute

`types.rs`, the runs of `attribute_value/non_resident.rs` and `data_run_map.rs` of `fs-ntfs`. A run
list is taken as decoded. Sizes are `u64` and the run list of an attribute spans less than `2 ^ 64`
bytes, so that sums of sizes do not overflow.
-/

namespace Fsmnt.FsNtfs

/-- The errors of the value readers. -/
inductive NtfsError where
  /-- An error of the underlying reader. -/
  | io (message : String)
  | invalidInput
  | unexpectedEof
  | invalidData
  /-- The source keeps the text of the error. -/
  | decompressionError (error : NtCompression.Error)
  | clusterOutOfRange (cluster total : Nat)
  | invalidWofData (reason : String)
  /-- A run that ends in a panic. -/
  | panicked
  deriving DecidableEq, Repr

/-- `NtfsPosition`: an absolute position on the disk, which is not zero. -/
abbrev NtfsPosition := Option Nat

namespace NtfsPosition

def new (position : Nat) : NtfsPosition := if position = 0 then none else some position

/-- `+`, which wraps. -/
def add (position : NtfsPosition) (offset : Nat) : NtfsPosition :=
  position.bind fun p => new ((p + offset) % 2 ^ 64)

end NtfsPosition

/-- A contiguous range of clusters, or a hole. -/
structure NtfsDataRun where
  /-- None for a sparse run. -/
  position : NtfsPosition
  allocatedSize : Nat
  deriving DecidableEq, Repr

structure DataRunSegment where
  /-- Where the segment starts in the attribute. -/
  virtualOffset : Nat
  position : NtfsPosition
  size : Nat
  deriving DecidableEq, Repr

structure DataRunMap where
  segments : List DataRunSegment
  deriving DecidableEq, Repr

namespace DataRunMap

/-- The segments of the runs from an offset on. -/
def segmentsFrom (virtualOffset : Nat) : List NtfsDataRun → List DataRunSegment
  | [] => []
  | run :: runs =>
    { virtualOffset, position := run.position, size := run.allocatedSize } ::
      segmentsFrom (virtualOffset + run.allocatedSize) runs

def fromDataRuns (runs : List NtfsDataRun) : DataRunMap := ⟨segmentsFrom 0 runs⟩

def totalSize (map : DataRunMap) : Nat :=
  match map.segments.getLast? with
  | some segment => segment.virtualOffset + segment.size
  | none => 0

/-- `segment_index_containing`. Segments are in the order of their offsets, so that the binary
    search finds the end of the segments that start at or before `offset`. -/
def segmentIndexContaining (map : DataRunMap) (offset : Nat) : Option Nat :=
  match (map.segments.takeWhile fun segment => segment.virtualOffset ≤ offset).length with
  | 0 => none
  | index + 1 =>
    map.segments[index]?.bind fun segment =>
      if offset < segment.virtualOffset + segment.size then some index else none

/-- `resolve_position`: the position on disk, and how much of the segment is left. -/
def resolvePosition (map : DataRunMap) (offset : Nat) : Option (NtfsPosition × Nat) :=
  (map.segmentIndexContaining offset).bind fun index =>
    map.segments[index]?.map fun segment =>
      let offsetInSegment := offset - segment.virtualOffset
      (segment.position.add offsetInSegment, segment.size - offsetInSegment)

variable {σ : Type} (fs : BlockReader NtfsError σ)

/-- Reads from a position on the disk. -/
def readDisk (position n : Nat) : EStateM NtfsError σ Bytes := do
  let _ ← fs.seek (.start position)
  fs.readExact n

/-- Reads inside a segment; a hole reads as zeros. -/
def readSegment (position : NtfsPosition) (offsetInSegment n : Nat) : EStateM NtfsError σ Bytes :=
  match position.add offsetInSegment with
  | some position => readDisk fs position n
  | none => pure (Bytes.zeros n)

/-- The loop of `read_at` over the segments; the first one contains `offset`. -/
def readSegments : List DataRunSegment → Nat → Nat → EStateM NtfsError σ Bytes
  | [], _, total => if total = 0 then pure [] else throw .unexpectedEof
  | segment :: segments, offset, total =>
    if total = 0 then pure []
    else do
      let offsetInSegment := offset - segment.virtualOffset
      let toRead := min total (segment.size - offsetInSegment)
      let bytes ← readSegment fs segment.position offsetInSegment toRead
      let rest ← readSegments segments (offset + toRead) (total - toRead)
      pure (bytes ++ rest)

/-- `read_at`: the position of the first byte on disk, and the bytes. -/
def readAt (map : DataRunMap) (offset total : Nat) : EStateM NtfsError σ (NtfsPosition × Bytes) :=
  if total = 0 then pure (none, [])
  else if 2 ^ 64 ≤ offset + total then throw .invalidInput
  else if map.totalSize < offset + total then throw .unexpectedEof
  else
    match map.segmentIndexContaining offset with
    | none => throw .unexpectedEof
    | some index => do
      let bytes ← readSegments fs (map.segments.drop index) offset total
      pure ((map.resolvePosition offset).bind Prod.fst, bytes)

/-- The loop of `read_allocated_prefix_at` over the segments, from an offset on. -/
def readAllocatedSegments : List DataRunSegment → Nat → Nat → EStateM NtfsError σ Bytes
  | [], _, _ => pure []
  | segment :: segments, offset, capacity =>
    if capacity = 0 then pure []
    else if 2 ^ 64 ≤ offset then throw .invalidInput
    else if offset < segment.virtualOffset then throw .unexpectedEof
    else
      let offsetInSegment := offset - segment.virtualOffset
      match segment.position.add offsetInSegment with
      -- the prefix ends at the first hole
      | none => pure []
      | some position =>
        let toRead := min capacity (segment.size - offsetInSegment)
        if toRead = 0 then throw .unexpectedEof
        else do
          let bytes ← readDisk fs position toRead
          let rest ← readAllocatedSegments segments (offset + toRead) (capacity - toRead)
          pure (bytes ++ rest)

/-- `read_allocated_prefix_at` into a buffer of `capacity` bytes. -/
def readAllocatedPrefixAt (map : DataRunMap) (offset capacity : Nat) : EStateM NtfsError σ Bytes :=
  if capacity = 0 then pure []
  else
    match map.segmentIndexContaining offset with
    | none => throw .unexpectedEof
    | some index => readAllocatedSegments fs (map.segments.drop index) offset capacity

end DataRunMap

end Fsmnt.FsNtfs
