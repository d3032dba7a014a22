import Fsmnt.Native.FsExt.FastCommitTlv

/-!
# Fast-commit scan pass

`journal/fast_commit/parse.rs`: a cursor over the fast-commit blocks, and the scan that
validates the records and the checksum of every transaction without applying anything.

`ScanState.pending` and `ScanState.accepted` are not in the source: they list the records
that `pending_tag_count` and `valid_tag_count` count.
-/

namespace Fsmnt.FsExt

/-- The blocks of a fast-commit region, as `FastCommitReplay::build` reads them: all of the
    journal's block size, which is at least 1024, and as many as a `u32` counts. -/
structure FcRegion where
  blocks : List Bytes
  blocks_lt : blocks.length < 2 ^ 32
  blockSize : Nat
  blockSize_ge : 1024 ≤ blockSize
  length_block : ∀ b ∈ blocks, b.length = blockSize

/-! ### Cursor -/

structure RegionCursor where
  blocks : List Bytes
  relBlock : Nat
  blockOffset : Nat

namespace RegionCursor

def new (blocks : List Bytes) : RegionCursor where
  blocks := blocks
  relBlock := 0
  blockOffset := 0

/-- The length of block `i`, `0` past the last one. -/
def blockLen (blocks : List Bytes) (i : Nat) : Nat := (blocks.getD i []).length

/-- The loop of `normalized_position`: step over exhausted blocks, except the last. -/
def normalizeFrom (blocks : List Bytes) : Nat → Nat → Nat → Nat × Nat
  | 0, relBlock, blockOffset => (relBlock, blockOffset)
  | fuel + 1, relBlock, blockOffset =>
    if relBlock + 1 < blocks.length ∧ blockOffset ≥ blockLen blocks relBlock then
      normalizeFrom blocks fuel (relBlock + 1) 0
    else (relBlock, blockOffset)

def normalizedPosition (c : RegionCursor) : Nat × Nat :=
  normalizeFrom c.blocks c.blocks.length c.relBlock c.blockOffset

def normalize (c : RegionCursor) : RegionCursor :=
  { c with relBlock := c.normalizedPosition.1, blockOffset := c.normalizedPosition.2 }

def position (c : RegionCursor) : Nat × Nat :=
  let (relBlock, blockOffset) := c.normalizedPosition
  if relBlock < c.blocks.length then (relBlock, blockOffset)
  else
    let last := c.blocks.length - 1
    (last, blockLen c.blocks last)

def atEnd (c : RegionCursor) : Bool :=
  let (relBlock, blockOffset) := c.normalizedPosition
  relBlock ≥ c.blocks.length || blockOffset ≥ blockLen c.blocks relBlock

/-- The loop of `read_exact_vec`: every round takes at least one of the `len - out.len()`
    bytes still missing, so `fuel` rounds are enough for `fuel` missing bytes. -/
def readLoop (len : Nat) : Nat → RegionCursor → Bytes → Option (Bytes × RegionCursor)
  | 0, c, out => some (out, c.normalize)
  | fuel + 1, c, out =>
    if out.length < len then
      let c := c.normalize
      if c.relBlock ≥ c.blocks.length then none
      else
        let block := c.blocks.getD c.relBlock []
        let available := block.length - c.blockOffset
        if available = 0 then none
        else
          let take := min available (len - out.length)
          readLoop len fuel { c with blockOffset := c.blockOffset + take }
            (out ++ block.slice c.blockOffset take)
    else some (out, c.normalize)

def readExactVec (c : RegionCursor) (len : Nat) : Option (Bytes × RegionCursor) :=
  readLoop len len c []

def readHeader (c : RegionCursor) : Option (Bytes × RegionCursor) := c.readExactVec FC_TL_SIZE

def advanceToNextBlock (c : RegionCursor) : RegionCursor :=
  let c := c.normalize
  if c.relBlock < c.blocks.length then
    { c with relBlock := c.relBlock + 1, blockOffset := 0 : RegionCursor }.normalize
  else c

end RegionCursor

/-! ### Records -/

/-- A record as `apply_pass` dispatches it. -/
structure PassRecord where
  relativeBlock : Nat
  recordOffset : Nat
  tag : Nat
  valueLen : Nat
  payload : Bytes
  deriving Repr, DecidableEq

/-- The TL header of a record. -/
def PassRecord.header (r : PassRecord) : Bytes := Bytes.toLE 2 r.tag ++ Bytes.toLE 2 r.valueLen

/-! ### Scan -/

/-- Result of the scan pass. -/
structure ScanResult where
  validTagCount : Nat := 0
  lastGoodTid : Option Nat := none
  stop : Option FastCommitStop := none
  deriving Repr, DecidableEq

structure ScanState where
  result : ScanResult
  transactionOpen : Bool
  runningCrc : UInt32
  pendingTagCount : Nat
  scanBoundary : Nat × Nat
  blockSize : Nat
  fcFirst : Nat
  expectedTid : Nat
  pending : List PassRecord
  accepted : List PassRecord

def ScanState.new (blockSize fcFirst expectedTid : Nat) : ScanState where
  result := {}
  transactionOpen := false
  runningCrc := 0
  pendingTagCount := 0
  scanBoundary := (0, 0)
  blockSize := blockSize
  fcFirst := fcFirst
  expectedTid := expectedTid
  pending := []
  accepted := []

/-- The position of a record, in the journal and in bytes. -/
def positionAt (relBlock blockOffset blockSize fcFirst : Nat) : FastCommitPosition :=
  let fcBlock := min (fcFirst + relBlock) (2 ^ 32 - 1)
  { fcBlock, blockOffset, fsByteOffset := fcBlock * blockSize + blockOffset }

def ScanState.stop (st : ScanState) (relativeBlock recordOffset : Nat)
    (reason : FastCommitStopReason) : ScanState :=
  { st with result := { st.result with stop := some {
      position := positionAt relativeBlock recordOffset st.blockSize st.fcFirst
      lastCommittedTid := st.result.lastGoodTid
      reason } } }

def crcTlv [Crc] (seed : UInt32) (header payload : Bytes) : UInt32 :=
  ext4Crc32c (ext4Crc32c seed header) payload

def crcTail [Crc] (seed : UInt32) (header : Bytes) (tid : Nat) : UInt32 :=
  ext4Crc32c (ext4Crc32c seed header) (Bytes.toLE 4 tid)

/-- Count a record of the open transaction: its bytes enter the running checksum. -/
def ScanState.push [Crc] (st : ScanState) (header : Bytes) (r : PassRecord) : ScanState :=
  { st with
    runningCrc := crcTlv st.runningCrc header r.payload
    pendingTagCount := (st.pendingTagCount + 1) % 2 ^ 32
    pending := st.pending ++ [r] }

/-- `process_head`, with `header` the four bytes before the payload. -/
def ScanState.processHead [Crc] (st : ScanState) (header : Bytes) (r : PassRecord) :
    Bool × ScanState :=
  if st.transactionOpen then
    (false, st.stop r.relativeBlock r.recordOffset
      (.malformedRecord FC_TAG_HEAD r.valueLen "nested HEAD"))
  else
    match decodeHead r.payload with
    | .error _ =>
      (false, st.stop r.relativeBlock r.recordOffset
        (.malformedRecord FC_TAG_HEAD r.valueLen "head decode failure"))
    | .ok head =>
      if head.features &&& (0xFFFFFFFF ^^^ FC_SUPPORTED_FEATURES) ≠ 0 then
        (false, st.stop r.relativeBlock r.recordOffset (.unsupportedHeadFeatures head.features))
      else if head.tid ≠ st.expectedTid then
        (false, st.stop r.relativeBlock r.recordOffset (.headTidMismatch st.expectedTid head.tid))
      else
        (true, { st with transactionOpen := true }.push header r)

/-- `process_tail`: a valid TAIL turns the pending records into accepted ones. -/
def ScanState.processTail [Crc] (st : ScanState) (header : Bytes) (r : PassRecord) :
    Bool × ScanState :=
  match decodeTail r.payload with
  | .error _ =>
    (false, st.stop r.relativeBlock r.recordOffset
      (.malformedRecord FC_TAG_TAIL r.valueLen "tail decode failure"))
  | .ok tail =>
    let computedCrc := (crcTail st.runningCrc header tail.tid).toNat
    if tail.tid ≠ st.expectedTid ∨ tail.crc ≠ computedCrc then
      (false, st.stop r.relativeBlock r.recordOffset
        (.tailChecksumInvalid tail.tid st.expectedTid tail.crc computedCrc))
    else
      let pendingTagCount := (st.pendingTagCount + 1) % 2 ^ 32
      (true, { st with
        result := { st.result with
          validTagCount := (st.result.validTagCount + pendingTagCount) % 2 ^ 32
          lastGoodTid := some st.expectedTid }
        transactionOpen := false
        runningCrc := 0
        pendingTagCount := 0
        pending := []
        accepted := st.accepted ++ (st.pending ++ [r]) })

/-- The `match` on the tag in `scan_one_record`. -/
def ScanState.processRecord [Crc] (st : ScanState) (header : Bytes) (r : PassRecord) :
    Bool × ScanState :=
  if r.tag = FC_TAG_HEAD then st.processHead header r
  else if r.tag = FC_TAG_TAIL then st.processTail header r
  else (true, st.push header r)

def isSupportedRecordTag (tag : Nat) : Bool :=
  tag == FC_TAG_ADD_RANGE || tag == FC_TAG_DEL_RANGE || tag == FC_TAG_CREAT ||
    tag == FC_TAG_LINK || tag == FC_TAG_UNLINK || tag == FC_TAG_INODE || tag == FC_TAG_PAD ||
    tag == FC_TAG_TAIL || tag == FC_TAG_HEAD

/-- `scan_one_record`: whether the scan goes on, the state and the cursor. -/
def scanOneRecord [Crc] (st : ScanState) (cursor : RegionCursor) :
    Bool × ScanState × RegionCursor :=
  let (relativeBlock, recordOffset) := cursor.position
  match cursor.readHeader with
  | none =>
    let reason := if st.transactionOpen then .regionExhaustedMidTransaction
      else .malformedRecord 0 0 "truncated header"
    (false, st.stop relativeBlock recordOffset reason, cursor)
  | some (header, recordCursor) =>
    let tag := header.le16 0
    let valueLen := header.le16 2
    if tag = 0 ∧ valueLen = 0 then
      if st.transactionOpen then
        (false, st.stop relativeBlock recordOffset .regionExhaustedMidTransaction, cursor)
      else
        let cursor := cursor.advanceToNextBlock
        (true, { st with scanBoundary := cursor.position }, cursor)
    else if !st.transactionOpen ∧ tag ≠ FC_TAG_HEAD then
      let reason := if tag = FC_TAG_TAIL then "TAIL without HEAD" else "record outside transaction"
      (false, st.stop relativeBlock recordOffset (.malformedRecord tag valueLen reason), cursor)
    else if !isSupportedRecordTag tag then
      (false, st.stop relativeBlock recordOffset (.unsupportedTag tag), cursor)
    else if !fcValueLenIsvalid tag valueLen then
      (false, st.stop relativeBlock recordOffset
        (.malformedRecord tag valueLen "length not valid for tag"), cursor)
    else
      match recordCursor.readExactVec valueLen with
      | none =>
        (false, st.stop relativeBlock recordOffset
          (.malformedRecord tag valueLen "length exceeds block"), cursor)
      | some (payload, cursor) =>
        let st := { st with scanBoundary := cursor.position }
        let r : PassRecord := { relativeBlock, recordOffset, tag, valueLen, payload }
        let (more, st) := st.processRecord header r
        (more, st, cursor)

/-- The loop of `scan_fc_region`. A record takes at least four bytes and a padded block all
    of them, so the region's size bounds the number of rounds. -/
def scanLoop [Crc] : Nat → ScanState → RegionCursor → ScanState
  | 0, st, _ => st
  | fuel + 1, st, cursor =>
    if cursor.atEnd then st
    else
      let (more, st, cursor) := scanOneRecord st cursor
      if more then scanLoop fuel st cursor else st

/-- The final state of `scan_fc_region`. -/
def scanFcState [Crc] (region : FcRegion) (fcFirst expectedTid : Nat) : ScanState :=
  let st := ScanState.new region.blockSize fcFirst expectedTid
  let firstBlock := region.blocks.getD 0 []
  if region.blocks.isEmpty ∨ firstBlock.length < FC_TL_SIZE then st
  else if firstBlock.le16 0 ≠ FC_TAG_HEAD then st
  else
    let cursor := RegionCursor.new region.blocks
    let st := scanLoop (region.blocks.length * region.blockSize) st cursor
    if st.result.stop.isNone ∧ st.transactionOpen then
      st.stop st.scanBoundary.1 st.scanBoundary.2 .regionExhaustedMidTransaction
    else st

def scanFcRegion [Crc] (region : FcRegion) (fcFirst expectedTid : Nat) : ScanResult :=
  (scanFcState region fcFirst expectedTid).result

end Fsmnt.FsExt
