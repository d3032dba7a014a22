import Fsmnt.Native.FsNtfs.DataRunMap

/-!
# The iterator over the records of the MFT

`NtfsMftEntries` of `mft.rs`. A record is what `NtfsFile::new` makes of the `file_record_size` bytes
at a place on the disk; the model has the place.
-/

namespace Fsmnt.FsNtfs

/-- `segment`: the position and the size of a segment. -/
def DataRunMap.segment (map : DataRunMap) (index : Nat) : Option (NtfsPosition × Nat) :=
  map.segments[index]?.map fun segment => (segment.position, segment.size)

/-- `resolve_index`: the segment of an offset, and the offset in it. -/
def DataRunMap.resolveIndex (map : DataRunMap) (offset : Nat) : Option (Nat × Nat) :=
  (map.segmentIndexContaining offset).bind fun index =>
    map.segments[index]?.map fun segment => (index, offset - segment.virtualOffset)

structure NtfsMftEntries where
  map : DataRunMap
  segmentIndex : Nat
  offsetInSegment : Nat
  currentRecord : Nat
  totalRecords : Nat
  fileRecordSize : Nat
  deriving DecidableEq, Repr

namespace NtfsMftEntries

/-- `new`, for the runs and the size of the data of the MFT. -/
def new (runs : List NtfsDataRun) (mftDataSize fileRecordSize : Nat) : NtfsMftEntries where
  map := .fromDataRuns runs
  segmentIndex := 0
  offsetInSegment := 0
  currentRecord := 0
  totalRecords := mftDataSize / fileRecordSize
  fileRecordSize

/-- `next`: the number of the record and where it is read from, and the iterator after it. In a
    sparse segment there is no place to read from, which is an error. -/
def next (self : NtfsMftEntries) : Option (Nat × NtfsPosition) × NtfsMftEntries :=
  if self.totalRecords ≤ self.currentRecord then (none, self)
  else
    match self.map.segment self.segmentIndex with
    | none => (none, { self with currentRecord := self.totalRecords })
    | some (segPosition, segSize) =>
      let offset := self.offsetInSegment + self.fileRecordSize
      let advanced := { self with currentRecord := self.currentRecord + 1 }
      (some (self.currentRecord, segPosition.add self.offsetInSegment),
        if segSize ≤ offset then
          { advanced with segmentIndex := self.segmentIndex + 1, offsetInSegment := 0 }
        else { advanced with offsetInSegment := offset })

def seekToRecord (self : NtfsMftEntries) (recordNumber : Nat) : NtfsMftEntries :=
  let atEnd := { self with
    currentRecord := self.totalRecords
    segmentIndex := self.map.segments.length
    offsetInSegment := 0 }
  if self.totalRecords ≤ recordNumber then atEnd
  else
    match self.map.resolveIndex (recordNumber * self.fileRecordSize) with
    | some (segmentIndex, offsetInSegment) =>
      { self with segmentIndex, offsetInSegment, currentRecord := recordNumber }
    | none => atEnd

end NtfsMftEntries

end Fsmnt.FsNtfs
