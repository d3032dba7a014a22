import Fsmnt.Native.FsExt.Volume

/-!
# Extent-tree nodes

`journal/fast_commit/extents/tree.rs` and `parse_header` of `extent.rs`: reading and writing
the header and the records of one node, which is the 60 bytes of `i_block` or a block.
-/

namespace Fsmnt.FsExt

open Bytes List

def EXTENT_MAGIC : Nat := 0xF30A
def EXTENT_HEADER_SIZE : Nat := 12
def EXTENT_ENTRY_SIZE : Nat := 12
def MAX_EXTENT_DEPTH : Nat := 5
def MAX_INITIALIZED_EXTENT_LEN : Nat := 32768
def MAX_UNWRITTEN_EXTENT_LEN : Nat := 32767
def UNWRITTEN_FLAG : Nat := 32768

/-- A record of an `ADD_RANGE`. -/
structure RawExtent where
  eeBlock : Nat
  eeLen : Nat
  eePblk : Nat
  unwritten : Bool
  deriving Repr, DecidableEq

structure LeafRecord where
  logical : Nat
  len : Nat
  pblk : Nat
  unwritten : Bool
  deriving Repr, DecidableEq

structure IndexRecord where
  logical : Nat
  child : Nat
  deriving Repr, DecidableEq

def RawExtent.fromOnDisk (raw : Bytes) : RawExtent :=
  let rawLen := raw.le16 4
  let unwritten := rawLen > 32768
  { eeBlock := raw.le32 0
    eeLen := if unwritten then rawLen - 32768 else rawLen
    eePblk := raw.le16 6 * 2 ^ 32 + raw.le32 8
    unwritten }

def LeafRecord.fromRaw (ext : RawExtent) : LeafRecord where
  logical := ext.eeBlock
  len := ext.eeLen
  pblk := ext.eePblk
  unwritten := ext.unwritten

/-! ### Headers -/

structure RawExtentHeader where
  ehEntries : Nat
  ehMax : Nat
  ehDepth : Nat
  deriving Repr, DecidableEq

variable (buf : Bytes) (entries inum idx : Nat)

/-- The fields of a node header. -/
def nodeHeader : RawExtentHeader where
  ehEntries := buf.le16 2
  ehMax := buf.le16 4
  ehDepth := buf.le16 6

def checkedHeader : Except ExtError RawExtentHeader :=
  if buf.length < EXTENT_HEADER_SIZE then .error (.invalidExtentHeader inum)
  else if buf.le16 0 ≠ EXTENT_MAGIC then .error (.invalidExtentHeader inum)
  else .ok (nodeHeader buf)

def validateNodeHeader (hdr : RawExtentHeader) (inum : Nat) : Except ExtError Unit :=
  let capacity := (buf.length - EXTENT_HEADER_SIZE) / EXTENT_ENTRY_SIZE
  if hdr.ehDepth > MAX_EXTENT_DEPTH ∨ hdr.ehEntries > hdr.ehMax then
    .error (.invalidExtentHeader inum)
  else if hdr.ehEntries > capacity ∨ hdr.ehMax > capacity then .error (.invalidExtentHeader inum)
  else .ok ()

/-- `checked_header` followed by `validate_node_header`. -/
def validHeader : Except ExtError RawExtentHeader := do
  let hdr ← checkedHeader buf inum
  validateNodeHeader buf hdr inum
  pure hdr

def entryOffset : Nat := EXTENT_HEADER_SIZE + idx * EXTENT_ENTRY_SIZE

/-! ### Records -/

def readIndexRecord (inum : Nat) : Except ExtError IndexRecord :=
  let off := entryOffset idx
  if off + EXTENT_ENTRY_SIZE > buf.length then .error (.invalidExtentHeader inum)
  else .ok { logical := buf.le32 off, child := buf.le16 (off + 8) * 2 ^ 32 + buf.le32 (off + 4) }

def indexRecords : Except ExtError (List IndexRecord) :=
  (range entries).mapM fun idx => readIndexRecord buf idx inum

def readLeafRecord (inum : Nat) : Except ExtError LeafRecord :=
  let off := entryOffset idx
  if off + EXTENT_ENTRY_SIZE > buf.length then .error (.invalidExtentHeader inum)
  else
    let rawLen := buf.le16 (off + 4)
    let unwritten := rawLen > UNWRITTEN_FLAG
    let len := if unwritten then rawLen - UNWRITTEN_FLAG else rawLen
    if len = 0 then .error (.invalidExtentHeader inum)
    else .ok { logical := buf.le32 off, len,
               pblk := buf.le16 (off + 6) * 2 ^ 32 + buf.le32 (off + 8), unwritten }

def leafRecords : Except ExtError (List LeafRecord) :=
  (range entries).mapM fun idx => readLeafRecord buf idx inum

/-- `record.logical.checked_add(len)` on `u32`. -/
def logicalEnd (record : LeafRecord) (inum : Nat) : Except ExtError Nat :=
  if record.logical + record.len ≥ 2 ^ 32 then .error (.invalidExtentHeader inum)
  else .ok (record.logical + record.len)

/-- The records from `idx` on are strictly increasing, and above `previous`. -/
def validateIndexOrderLoop (buf : Bytes) (inum : Nat) : Option Nat → List Nat → Except ExtError Unit
  | _, [] => .ok ()
  | previous, idx :: rest => do
    let current ← readIndexRecord buf idx inum
    if previous.any fun previous => decide (current.logical ≤ previous) then
      .error (.invalidExtentHeader inum)
    else validateIndexOrderLoop buf inum (some current.logical) rest

def validateIndexOrder : Except ExtError Unit :=
  validateIndexOrderLoop buf inum none (range entries)

/-- Every record starts at or after the end of the one before it. -/
def validateLeafOrderLoop (buf : Bytes) (inum : Nat) : Option Nat → List Nat → Except ExtError Unit
  | _, [] => .ok ()
  | previousEnd, idx :: rest => do
    let current ← readLeafRecord buf idx inum
    let currentEnd ← logicalEnd current inum
    if previousEnd.any fun previousEnd => decide (current.logical < previousEnd) then
      .error (.invalidExtentHeader inum)
    else validateLeafOrderLoop buf inum (some currentEnd) rest

def validateLeafOrder : Except ExtError Unit := validateLeafOrderLoop buf inum none (range entries)

/-- The loop of `choose_child_entry` over the records after the chosen one. -/
def chooseChildLoop (buf : Bytes) (inum logical : Nat) : Nat → IndexRecord → List Nat →
    Except ExtError (Nat × Nat)
  | chosenIdx, chosen, [] => .ok (chosenIdx, chosen.child)
  | chosenIdx, chosen, idx :: rest => do
    let current ← readIndexRecord buf idx inum
    if current.logical > logical then .ok (chosenIdx, chosen.child)
    else chooseChildLoop buf inum logical idx current rest

/-- Index and block of the last child whose key is at most `logical`, or of the first one. -/
def chooseChildEntry (logical : Nat) : Except ExtError (Nat × Nat) := do
  if entries = 0 then .error (.invalidExtentHeader inum)
  else
    let chosen ← readIndexRecord buf 0 inum
    if chosen.logical > logical then .ok (0, chosen.child)
    else chooseChildLoop buf inum logical 0 chosen (range' 1 (entries - 1))

/-! ### Writing -/

def encodeExtentLen (len : Nat) (unwritten : Bool) (inum : Nat) : Except ExtError Nat :=
  if len = 0 then .error (.invalidExtentHeader inum)
  else if unwritten then
    -- `0x8000` itself is the initialized length 32768
    if len ≤ MAX_UNWRITTEN_EXTENT_LEN then .ok (len + UNWRITTEN_FLAG)
    else .error (.invalidExtentHeader inum)
  else if len ≤ MAX_INITIALIZED_EXTENT_LEN then .ok len
  else .error (.invalidExtentHeader inum)

def extentLenEncodes (len : Nat) (unwritten : Bool) : Bool :=
  match encodeExtentLen len unwritten (2 ^ 32 - 1) with
  | .ok _ => true
  | .error _ => false

/-- The twelve bytes of an index entry. -/
def IndexRecord.encode (record : IndexRecord) : Bytes :=
  toLE 4 record.logical ++ toLE 4 record.child ++ toLE 2 (record.child / 2 ^ 32) ++ zeros 2

/-- The twelve bytes of a leaf entry with length field `encodedLen`. -/
def LeafRecord.encode (record : LeafRecord) (encodedLen : Nat) : Bytes :=
  toLE 4 record.logical ++ toLE 2 encodedLen ++ toLE 2 (record.pblk / 2 ^ 32) ++ toLE 4 record.pblk

def writeIndexRecord (record : IndexRecord) (inum : Nat) : Except ExtError Bytes :=
  let off := entryOffset idx
  if off + EXTENT_ENTRY_SIZE > buf.length then .error (.invalidExtentHeader inum)
  else .ok (buf.splice off record.encode)

def writeLeafRecord (record : LeafRecord) (inum : Nat) : Except ExtError Bytes := do
  let off := entryOffset idx
  if off + EXTENT_ENTRY_SIZE > buf.length then .error (.invalidExtentHeader inum)
  else
    let encodedLen ← encodeExtentLen record.len record.unwritten inum
    .ok (buf.splice off (record.encode encodedLen))

def writeIndexLogical (logical inum : Nat) : Except ExtError Bytes :=
  let off := entryOffset idx
  if off + EXTENT_ENTRY_SIZE > buf.length then .error (.invalidExtentHeader inum)
  else .ok (buf.splice off (toLE 4 logical))

def writeEntryCount : Except ExtError Bytes :=
  if entries ≥ 2 ^ 16 then .error (.invalidExtentHeader inum)
  else .ok (buf.splice 2 (toLE 2 entries))

/-- Write records one after the other, the first at `idx`. -/
def writeLeafRecords (inum : Nat) : Nat → List LeafRecord → Bytes → Except ExtError Bytes
  | _, [], buf => .ok buf
  | idx, record :: rest, buf => do
    let buf ← writeLeafRecord buf idx record inum
    writeLeafRecords inum (idx + 1) rest buf

def writeIndexRecords (inum : Nat) : Nat → List IndexRecord → Bytes → Except ExtError Bytes
  | _, [], buf => .ok buf
  | idx, record :: rest, buf => do
    let buf ← writeIndexRecord buf idx record inum
    writeIndexRecords inum (idx + 1) rest buf

/-- Clear the first `max` slots. -/
def clearSlots (inum : Nat) : List Nat → Bytes → Except ExtError Bytes
  | [], buf => .ok buf
  | slot :: rest, buf =>
    let off := entryOffset slot
    if off + EXTENT_ENTRY_SIZE > buf.length then .error (.invalidExtentHeader inum)
    else clearSlots inum rest (buf.splice off (zeros EXTENT_ENTRY_SIZE))

def rewriteLeafRecords (records : List LeafRecord) (max inum : Nat) : Except ExtError Bytes := do
  let buf ← writeEntryCount buf records.length inum
  let buf ← clearSlots inum (range max) buf
  writeLeafRecords inum 0 records buf

def rewriteIndexRecords (records : List IndexRecord) (max inum : Nat) : Except ExtError Bytes := do
  if records.length > max then .error (.invalidExtentHeader inum)
  else
    let buf ← writeEntryCount buf records.length inum
    let buf ← clearSlots inum (range max) buf
    writeIndexRecords inum 0 records buf

/-- `remove_leaf_record`: shift the records behind `idx` and clear the last slot. -/
def shiftLeafRecordsDown (inum : Nat) : List Nat → Bytes → Except ExtError Bytes
  | [], buf => .ok buf
  | slot :: rest, buf => do
    let record ← readLeafRecord buf slot inum
    let buf ← writeLeafRecord buf (slot - 1) record inum
    shiftLeafRecordsDown inum rest buf

def removeLeafRecord (entries inum : Nat) : Except ExtError Bytes := do
  let buf ← shiftLeafRecordsDown inum (range' (idx + 1) (entries - (idx + 1))) buf
  let last := entryOffset (entries - 1)
  if last + EXTENT_ENTRY_SIZE > buf.length then .error (.invalidExtentHeader inum)
  else .ok (buf.splice last (zeros EXTENT_ENTRY_SIZE))

/-- Shift the records of the given slots, last one first, one slot up. -/
def shiftLeafRecordsUp (inum : Nat) : List Nat → Bytes → Except ExtError Bytes
  | [], buf => .ok buf
  | slot :: rest, buf => do
    let record ← readLeafRecord buf slot inum
    let buf ← writeLeafRecord buf (slot + 1) record inum
    shiftLeafRecordsUp inum rest buf

/-! ### Nodes -/

def nodeLeafRecords (node : Bytes) (inum : Nat) : Except ExtError (List LeafRecord) := do
  let hdr ← validHeader node inum
  leafRecords node hdr.ehEntries inum

def nodeIndexRecords (node : Bytes) (inum : Nat) : Except ExtError (List IndexRecord) := do
  let hdr ← validHeader node inum
  indexRecords node hdr.ehEntries inum

def rewriteNodeLeaf (node : Bytes) (records : List LeafRecord) (inum : Nat) :
    Except ExtError Bytes := do
  let hdr ← checkedHeader node inum
  rewriteLeafRecords node records hdr.ehMax inum

def rewriteNodeIndex (node : Bytes) (records : List IndexRecord) (inum : Nat) :
    Except ExtError Bytes := do
  let hdr ← checkedHeader node inum
  rewriteIndexRecords node records hdr.ehMax inum

/-- Capacity of an external node, which keeps room for its checksum tail. -/
def externalNodeMax (ext : Ext) : Nat :=
  (ext.blockSize - EXTENT_HEADER_SIZE) / EXTENT_ENTRY_SIZE - 1

/-- The twelve bytes that `write_node_header` writes. -/
def encodeNodeHeader (max depth generation : Nat) : Bytes :=
  toLE 2 EXTENT_MAGIC ++ toLE 2 entries ++ toLE 2 max ++ toLE 2 depth ++ toLE 4 generation

def buildLeafBlock (ext : Ext) (records : List LeafRecord) (generation inum : Nat) :
    Except ExtError Bytes :=
  let max := externalNodeMax ext
  if records.length > max then .error (.invalidExtentHeader inum)
  else
    let block := (zeros ext.blockSize).splice 0 (encodeNodeHeader records.length max 0 generation)
    writeLeafRecords inum 0 records block

def buildIndexBlock (ext : Ext) (records : List IndexRecord) (depth generation inum : Nat) :
    Except ExtError Bytes :=
  let max := externalNodeMax ext
  if records.length > max then .error (.invalidExtentHeader inum)
  else
    let block := (zeros ext.blockSize).splice 0
      (encodeNodeHeader records.length max depth generation)
    writeIndexRecords inum 0 records block

def buildInlineIndexRootAtDepth (root : Bytes) (records : List IndexRecord) (depth inum : Nat) :
    Except ExtError Bytes :=
  let max := (60 - EXTENT_HEADER_SIZE) / EXTENT_ENTRY_SIZE
  if root.length ≠ 60 then .error (.invalidExtentHeader inum)
  else if records.length > max then .error (.invalidExtentHeader inum)
  else
    let newRoot := (zeros 60).splice 0 (encodeNodeHeader records.length max depth (root.le32 8))
    writeIndexRecords inum 0 records newRoot

def buildInlineIndexRoot (root : Bytes) (records : List IndexRecord) (inum : Nat) :
    Except ExtError Bytes :=
  buildInlineIndexRootAtDepth root records 1 inum

/-- Insert `newEntry` in the order of the keys. A key that is there already is an error. -/
def insertIndexRecordSorted (inum : Nat) (newEntry : IndexRecord) :
    List IndexRecord → Except ExtError (List IndexRecord)
  | [] => .ok [newEntry]
  | record :: rest =>
    if record.logical = newEntry.logical then .error (.invalidExtentHeader inum)
    else if record.logical > newEntry.logical then .ok (newEntry :: record :: rest)
    else (insertIndexRecordSorted inum newEntry rest).map (record :: ·)

/-- The first logical block of a leaf, if it has a record. -/
def firstLeafLogical (leaf : Bytes) (inum : Nat) : Except ExtError (Option Nat) := do
  let hdr ← validHeader leaf inum
  if hdr.ehDepth ≠ 0 then .error (.invalidExtentHeader inum)
  else if hdr.ehEntries = 0 then .ok none
  else
    let record ← readLeafRecord leaf 0 inum
    .ok (some record.logical)

def emptyInlineLeafRoot (root : Bytes) (inum : Nat) : Except ExtError Bytes := do
  if root.length ≠ 60 then .error (.invalidExtentHeader inum)
  else
    let _ ← checkedHeader root inum
    .ok (((zeros 60).splice 0 (toLE 2 EXTENT_MAGIC)).splice 4 (toLE 2 4))

/-! ### Validating an `ADD_RANGE` -/

def validateNewExtent (ext : RawExtent) : Except ExtError Unit := do
  let _ ← encodeExtentLen ext.eeLen ext.unwritten inum
  if ext.eeBlock + ext.eeLen ≥ 2 ^ 32 then .error (.invalidExtentHeader inum) else .ok ()

def validatePhysicalRange (ext : Ext) (extent : RawExtent) : Except ExtError Unit :=
  if extent.eePblk < ext.firstDataBlock then .error (.blockOutOfRange extent.eePblk)
  else if extent.eePblk + extent.eeLen ≥ 2 ^ 64 then .error (.blockOutOfRange extent.eePblk)
  else if extent.eePblk ≥ ext.blocksCount ∨ extent.eePblk + extent.eeLen > ext.blocksCount then
    .error (.blockOutOfRange (extent.eePblk + extent.eeLen))
  else .ok ()

def logicalRangeLenForOutcome (lblkStart lblkEndInclusive : Nat) : Nat :=
  if lblkStart > lblkEndInclusive then 0 else min (lblkEndInclusive - lblkStart + 1) (2 ^ 32 - 1)

end Fsmnt.FsExt
