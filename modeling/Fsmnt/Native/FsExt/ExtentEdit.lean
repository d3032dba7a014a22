import Fsmnt.Native.FsExt.ExtentNode
import Fsmnt.Native.FsExt.FastCommitTlv

/-!
# Editing one leaf

`journal/fast_commit/extents/edit.rs`: the edit of a leaf by an `ADD_RANGE`, which inserts,
merges or splits records, and by a `DEL_RANGE`, which removes the overlap of every record.
-/

namespace Fsmnt.FsExt

/-- Failure of an extent surgery. -/
inductive SurgeryError where
  | ext (err : ExtError)
  | requiresMetadataAllocation
  | failed (reason : ExtentReplayReason)
  deriving Repr, DecidableEq

inductive LeafEdit where
  | unchanged
  | leafFull
  | structurallyUnsupported
  | patched (bytes : Bytes) (freeOldPhysical : Option (Nat × Nat))
  deriving Repr, DecidableEq

/-! ### Merging -/

def canMerge (left right : LeafRecord) (blocksPerCluster : Nat) : Bool :=
  left.unwritten == right.unwritten &&
  left.logical + left.len < 2 ^ 32 && left.logical + left.len == right.logical &&
  left.pblk + left.len == right.pblk &&
  left.len + right.len < 2 ^ 16 && extentLenEncodes (left.len + right.len) left.unwritten &&
  !(blocksPerCluster > 1 &&
    (left.pblk % blocksPerCluster != 0 || right.pblk % blocksPerCluster != 0 ||
      (left.pblk + left.len) % blocksPerCluster != 0))

def mergeRecords (left right : LeafRecord) (inum : Nat) : Except ExtError LeafRecord := do
  if left.len + right.len ≥ 2 ^ 16 then .error (.invalidExtentHeader inum)
  else
    let _ ← encodeExtentLen (left.len + right.len) left.unwritten inum
    .ok { left with len := left.len + right.len }

/-- `coalesce_records`, with `last` the record in work and `out` those before it. -/
def coalesceLoop (blocksPerCluster inum : Nat) : List LeafRecord → LeafRecord →
    List LeafRecord → Except ExtError (List LeafRecord)
  | out, last, [] => .ok (out ++ [last])
  | out, last, record :: rest =>
    if canMerge last record blocksPerCluster then do
      let merged ← mergeRecords last record inum
      coalesceLoop blocksPerCluster inum out merged rest
    else coalesceLoop blocksPerCluster inum (out ++ [last]) record rest

def coalesceRecords (records : List LeafRecord) (blocksPerCluster inum : Nat) :
    Except ExtError (List LeafRecord) :=
  match records with
  | [] => .ok []
  | record :: rest => coalesceLoop blocksPerCluster inum [] record rest

/-! ### `ADD_RANGE` -/

/-- `edit_mapped_record`: the new extent starts inside the record `existing` at `idx`. -/
def editMappedRecord (node : Bytes) (inum entries max idx blocksPerCluster : Nat)
    (existing newRecord : LeafRecord) (newEnd : Nat) : Except ExtError LeafEdit := do
  let existingEnd ← logicalEnd existing inum
  if newEnd > existingEnd then .ok .structurallyUnsupported
  else
    let logicalOffset := newRecord.logical - existing.logical
    let existingPblkAtRange := existing.pblk + logicalOffset
    if existingPblkAtRange = newRecord.pblk ∧ existing.unwritten = newRecord.unwritten then
      .ok .unchanged
    else
      let rightLen := existingEnd - newEnd
      let left : List LeafRecord :=
        if logicalOffset > 0 then [{ existing with len := logicalOffset }] else []
      let right : List LeafRecord :=
        if rightLen > 0 then
          [{ logical := newEnd, len := rightLen, pblk := existingPblkAtRange + newRecord.len,
             unwritten := existing.unwritten }]
        else []
      -- the lengths of the parts are below the length of `existing`, a `u16`
      let records ← leafRecords node entries inum
      let records := records.take idx ++ (left ++ [newRecord] ++ right) ++ records.drop (idx + 1)
      let records ← coalesceRecords records blocksPerCluster inum
      if records.length > max then .ok .leafFull
      else
        let patched ← rewriteLeafRecords node records max inum
        .ok (.patched patched
          (if existingPblkAtRange ≠ newRecord.pblk then some (existingPblkAtRange, newRecord.len)
           else none))

/-- Where a new record goes in a leaf. -/
inductive LeafSlot where
  | mapped (idx : Nat) (existing : LeafRecord)
  | overlap
  | insertAt (pos : Nat)
  deriving Repr, DecidableEq

/-- The loop of `edit_leaf` over the records. -/
def findLeafSlot (node : Bytes) (inum entries : Nat) (newRecord : LeafRecord) (newEnd : Nat) :
    List Nat → Except ExtError LeafSlot
  | [] => .ok (.insertAt entries)
  | idx :: rest => do
    let existing ← readLeafRecord node idx inum
    let existingEnd ← logicalEnd existing inum
    if newRecord.logical ≥ existing.logical ∧ newRecord.logical < existingEnd then
      .ok (.mapped idx existing)
    else if newRecord.logical < existing.logical then
      if newEnd > existing.logical then .ok .overlap else .ok (.insertAt idx)
    else findLeafSlot node inum entries newRecord newEnd rest

/-- Insert a record that overlaps none: merge it with the record before `pos` and then with
    the one at `pos`, or with the latter alone, or give it a slot of its own. -/
def insertLeafRecord (node : Bytes) (inum entries max pos blocksPerCluster : Nat)
    (newRecord : LeafRecord) : Except ExtError LeafEdit := do
  let right ← if pos < entries then (readLeafRecord node pos inum).map some else .ok none
  let left ← if pos > 0 then (readLeafRecord node (pos - 1) inum).map some else .ok none
  match left.filter (canMerge · newRecord blocksPerCluster) with
  | some left =>
    let merged ← mergeRecords left newRecord inum
    match right.filter (canMerge merged · blocksPerCluster) with
    | some right =>
      let merged ← mergeRecords merged right inum
      let node ← removeLeafRecord node pos entries inum
      let node ← writeEntryCount node (entries - 1) inum
      let node ← writeLeafRecord node (pos - 1) merged inum
      .ok (.patched node none)
    | none =>
      let node ← writeLeafRecord node (pos - 1) merged inum
      .ok (.patched node none)
  | none =>
    match right.filter (canMerge newRecord · blocksPerCluster) with
    | some right =>
      let merged ← mergeRecords newRecord right inum
      let node ← writeLeafRecord node pos merged inum
      .ok (.patched node none)
    | none =>
      if entries ≥ max then .ok .leafFull
      else
        let node ← shiftLeafRecordsUp inum (List.range' pos (entries - pos)).reverse node
        let node ← writeLeafRecord node pos newRecord inum
        let node ← writeEntryCount node (entries + 1) inum
        .ok (.patched node none)

def editLeaf (leaf : Bytes) (inum : Nat) (newExtent : RawExtent) (blocksPerCluster : Nat)
    (successorLogicalBound : Option Nat) : Except ExtError LeafEdit := do
  let hdr ← validHeader leaf inum
  if hdr.ehDepth ≠ 0 then .error (.invalidExtentHeader inum)
  else
    let entries := hdr.ehEntries
    let max := hdr.ehMax
    validateLeafOrder leaf entries inum
    let newRecord := LeafRecord.fromRaw newExtent
    let newEnd ← logicalEnd newRecord inum
    if successorLogicalBound.any fun bound => decide (newEnd > bound) then
      .ok .structurallyUnsupported
    else
      match ← findLeafSlot leaf inum entries newRecord newEnd (List.range entries) with
      | .mapped idx existing =>
        editMappedRecord leaf inum entries max idx blocksPerCluster existing newRecord newEnd
      | .overlap => .ok .structurallyUnsupported
      | .insertAt pos => insertLeafRecord leaf inum entries max pos blocksPerCluster newRecord

/-! ### `DEL_RANGE` -/

structure LogicalDeleteRange where
  start : Nat
  endExclusive : Nat
  deriving Repr, DecidableEq

inductive PlannedFreeKind where
  | data
  | metadata
  deriving Repr, DecidableEq

structure PlannedFree where
  pblk : Nat
  len : Nat
  kind : PlannedFreeKind
  deriving Repr, DecidableEq

/-- The edit of one node and everything below it. -/
structure DeleteNodeEdit where
  bytes : Option Bytes
  changed : Bool
  firstLogical : Option Nat
  freeRanges : List PlannedFree
  survivingDataRanges : List (Nat × Nat)
  endBlockExclusive : Nat
  patches : List (Nat × Bytes)
  deriving Repr, DecidableEq

/-- `delete_record_overlap`: what is left of the record and the blocks to free. -/
def deleteRecordOverlap (record : LeafRecord) (range : LogicalDeleteRange) (inum : Nat) :
    Except ExtError (List LeafRecord × List PlannedFree) := do
  let recordEnd ← logicalEnd record inum
  if recordEnd ≤ range.start ∨ record.logical ≥ range.endExclusive then .ok ([record], [])
  else
    let overlapStart := max record.logical range.start
    let overlapEnd := min recordEnd range.endExclusive
    if overlapEnd < overlapStart then .error (.invalidExtentHeader inum)
    else
      let free : PlannedFree :=
        { pblk := record.pblk + (overlapStart - record.logical),
          len := overlapEnd - overlapStart, kind := .data }
      let leftLen := overlapStart - record.logical
      let rightLen := recordEnd - overlapEnd
      let left : List LeafRecord := if leftLen > 0 then [{ record with len := leftLen }] else []
      let right : List LeafRecord :=
        if rightLen > 0 then
          [{ record with logical := overlapEnd, len := rightLen,
                         pblk := record.pblk + (overlapEnd - record.logical) }]
        else []
      .ok (left ++ right, [free])

/-- The loop of `delete_from_leaf` over the records. -/
def deleteRecords (range : LogicalDeleteRange) (inum : Nat) : List LeafRecord →
    Except ExtError (List LeafRecord × List PlannedFree)
  | [] => .ok ([], [])
  | record :: rest => do
    let (kept, freed) ← deleteRecordOverlap record range inum
    let (keptRest, freedRest) ← deleteRecords range inum rest
    .ok (kept ++ keptRest, freed ++ freedRest)

/-- Largest logical end of the records, `0` for none. -/
def maxLeafLogicalEnd (inum : Nat) : List LeafRecord → Nat → Except ExtError Nat
  | [], maxEnd => .ok maxEnd
  | record :: rest, maxEnd => do
    let recordEnd ← logicalEnd record inum
    maxLeafLogicalEnd inum rest (max maxEnd recordEnd)

def deleteFromLeaf (leaf : Bytes) (inum : Nat) (thisBlock : Option Nat)
    (range : LogicalDeleteRange) (blocksPerCluster : Nat) : Except SurgeryError DeleteNodeEdit := do
  let hdr ← (validHeader leaf inum).mapError .ext
  if hdr.ehDepth ≠ 0 then .error (.ext (.invalidExtentHeader inum))
  else
    (validateLeafOrder leaf hdr.ehEntries inum).mapError .ext
    let original ← (leafRecords leaf hdr.ehEntries inum).mapError .ext
    let (replacement, freeRanges) ← (deleteRecords range inum original).mapError .ext
    let replacement ← (coalesceRecords replacement blocksPerCluster inum).mapError .ext
    if replacement.length > hdr.ehMax then .error .requiresMetadataAllocation
    else
      let endBlockExclusive ← (maxLeafLogicalEnd inum replacement 0).mapError .ext
      let survivingDataRanges := replacement.map fun record => (record.pblk, record.len)
      let firstLogical := replacement.head?.map (·.logical)
      if replacement = original then
        .ok { bytes := some leaf, changed := false, firstLogical, freeRanges,
              survivingDataRanges, endBlockExclusive, patches := [] }
      else
        match replacement, thisBlock with
        | [], some block =>
          .ok { bytes := none, changed := true, firstLogical := none,
                freeRanges := freeRanges ++ [{ pblk := block, len := 1, kind := .metadata }],
                survivingDataRanges := [], endBlockExclusive := 0, patches := [] }
        | _, _ =>
          let patched ← (rewriteLeafRecords leaf replacement hdr.ehMax inum).mapError .ext
          .ok { bytes := some patched, changed := true, firstLogical, freeRanges,
                survivingDataRanges, endBlockExclusive, patches := [] }

/-- Whether a range of blocks meets the clusters of `freeStart..freeEnd`. -/
def rangeTouchesClusterWindow (pblk len freeStart freeEnd clusterBlocks : Nat) :
    Except ExtError Bool :=
  if len = 0 then .ok false
  else if freeEnd = 0 then .error (.blockOutOfRange freeStart)
  else
    let clusterStart := freeStart / clusterBlocks * clusterBlocks
    let clusterEnd := ((freeEnd - 1) / clusterBlocks + 1) * clusterBlocks
    .ok (pblk < clusterEnd && pblk + len > clusterStart)

/-- No surviving range shares a cluster with a free of whole clusters. -/
def survivorsClear (clusterBlocks : Nat) (free : PlannedFree) : List (Nat × Nat) →
    Except SurgeryError Unit
  | [] => .ok ()
  | (pblk, len) :: rest => do
    let touches ← (rangeTouchesClusterWindow pblk len free.pblk (free.pblk + free.len)
      clusterBlocks).mapError .ext
    if touches then .error (.failed .bigallocPartialClusterDelRange)
    else survivorsClear clusterBlocks free rest

def validateFrees (clusterBlocks : Nat) (surviving : List (Nat × Nat)) : List PlannedFree →
    Except SurgeryError Unit
  | [] => .ok ()
  | free :: rest => do
    if free.kind = .data then
      if free.pblk % clusterBlocks ≠ 0 ∨ free.len % clusterBlocks ≠ 0 then
        .error (.failed .bigallocPartialClusterDelRange)
      else survivorsClear clusterBlocks free surviving
    validateFrees clusterBlocks surviving rest

def validateBigallocDelFrees (edit : DeleteNodeEdit) (blocksPerCluster : Nat) :
    Except SurgeryError Unit :=
  if blocksPerCluster ≤ 1 then .ok ()
  else validateFrees blocksPerCluster edit.survivingDataRanges edit.freeRanges

end Fsmnt.FsExt
