import Fsmnt.Native.FsExt.ExtentNode
import Fsmnt.Native.FsExt.Checksum

/-!
# Reading block maps

`extent.rs` and `block_map.rs`: resolving a logical block through the extent tree or through
the indirect blocks of an inode, and listing what an extent tree occupies. A pointer past the
end of the node ends the loop over its entries, as in the source.
-/

namespace Fsmnt.FsExt

/-- Resolved extent: a contiguous range of physical blocks. -/
structure Extent where
  logicalBlock : Nat
  physicalBlock : Nat
  len : Nat
  uninitialized : Bool
  deriving Repr, DecidableEq

variable (node : Bytes)

/-- `decode_extent` of entry `i` of a node. -/
def decodeExtent (i : Nat) : Extent :=
  let off := entryOffset i
  let eeLen := node.le16 (off + 4)
  let uninitialized := eeLen > 32768
  { logicalBlock := node.le32 off
    physicalBlock := node.le16 (off + 6) * 2 ^ 32 + node.le32 (off + 8)
    len := if uninitialized then eeLen - 32768 else eeLen
    uninitialized }

/-- Key and child of entry `i` of an index node. -/
def decodeIndex (i : Nat) : IndexRecord :=
  let off := entryOffset i
  { logical := node.le32 off, child := node.le16 (off + 8) * 2 ^ 32 + node.le32 (off + 4) }

/-- The entries of a node that lie inside it. -/
def entriesInside : List Nat :=
  (List.range (nodeHeader node).ehEntries).takeWhile fun i =>
    decide (entryOffset i + EXTENT_ENTRY_SIZE ≤ node.length)

/-- `parse_header` and the depth check. -/
def parseNode (inode : Nat) : Except ExtError RawExtentHeader := do
  let hdr ← checkedHeader node inode
  if hdr.ehDepth > MAX_EXTENT_DEPTH then .error (.invalidExtentHeader inode) else .ok hdr

variable [Crc] (ext : Ext) (fs : FsReader)

/-- Read an extent block and check its tail. -/
def readExtentBlock (inode generation childBlock : Nat) : Except ExtError Bytes := do
  if childBlock ≥ ext.blocksCount then .error (.blockOutOfRange childBlock)
  else
    let buf ← fs.readExact (childBlock * ext.blockSize) ext.blockSize
    match ext.checksumSeed with
    | none => .ok buf
    | some seed =>
      if verifyExtentBlock seed inode generation buf = .valid then .ok buf
      else .error (.invalidExtentHeader inode)

omit [Crc] in
def searchLeaf (logicalBlock : Nat) : Option Extent :=
  ((entriesInside node).map (decodeExtent node)).find? fun extent =>
    decide (extent.logicalBlock ≤ logicalBlock ∧ logicalBlock < extent.logicalBlock + extent.len)

omit [Crc] in
/-- The entry `search_index` follows: the last one of the leading entries whose key is at
    most `logicalBlock`. -/
def bestIndex (logicalBlock : Nat) : Option IndexRecord :=
  (((entriesInside node).map (decodeIndex node)).takeWhile fun idx =>
    decide (idx.logical ≤ logicalBlock)).getLast?

/-- `resolve_node`. The source recurses as deep as the headers say; a child whose depth does
    not decrease is only bounded by the reads, so the recursion is given `fuel`. -/
def resolveNode (inode generation logicalBlock : Nat) : Nat → Bytes →
    Except ExtError (Option Extent)
  | fuel, node => do
    let hdr ← parseNode node inode
    if hdr.ehDepth = 0 then .ok (searchLeaf node logicalBlock)
    else
      match bestIndex node logicalBlock with
      | none => .ok none
      | some idx =>
        match fuel with
        | 0 => .error .panicked
        | fuel + 1 =>
          let child ← readExtentBlock ext fs inode generation idx.child
          resolveNode inode generation logicalBlock fuel child

/-- Recursion depth granted to the readers; a chain of nodes that long exhausts the stack. -/
def READ_FUEL : Nat := 2 ^ 20

def resolveExtent (inode generation : Nat) (iBlock : Bytes) (logicalBlock : Nat) :
    Except ExtError (Option Extent) :=
  resolveNode ext fs inode generation logicalBlock READ_FUEL iBlock

/-! ### Tagged allocations -/

inductive ExtentAllocation where
  | data (physicalStart blockLen logicalBlockStart : Nat)
  | indexBlock (block : Nat)
  deriving Repr, DecidableEq

omit [Crc] in
def collectTaggedLeafBlocks (node : Bytes) : List Nat → Except ExtError (List ExtentAllocation)
  | [] => .ok []
  | i :: rest => do
    let decoded := decodeExtent node i
    if decoded.len = 0 then collectTaggedLeafBlocks node rest
    else if decoded.physicalBlock + (decoded.len - 1) ≥ ext.blocksCount then
      .error (.blockOutOfRange (max decoded.physicalBlock ext.blocksCount))
    else
      let allocations ← collectTaggedLeafBlocks node rest
      .ok (.data decoded.physicalBlock decoded.len decoded.logicalBlock :: allocations)

/-- `collect_tagged_node` and `collect_tagged_index_blocks`. -/
def collectTaggedNode (inode generation : Nat) : Nat → Bytes →
    Except ExtError (List ExtentAllocation)
  | fuel, node => do
    let hdr ← parseNode node inode
    if hdr.ehDepth = 0 then collectTaggedLeafBlocks ext node (entriesInside node)
    else
      let children ← (entriesInside node).mapM fun i => do
        let idx := decodeIndex node i
        match fuel with
        | 0 => .error .panicked
        | fuel + 1 =>
          let child ← readExtentBlock ext fs inode generation idx.child
          let allocations ← collectTaggedNode inode generation fuel child
          .ok (.indexBlock idx.child :: allocations)
      .ok children.flatten

def collectTaggedExtentBlocks (inode generation : Nat) (iBlock : Bytes) :
    Except ExtError (List ExtentAllocation) :=
  collectTaggedNode ext fs inode generation READ_FUEL iBlock

/-! ### Indirect block map -/

omit [Crc]

def DIRECT_BLOCKS : Nat := 12

def validatePtr (ptr : Nat) : Except ExtError (Option Nat) :=
  if ptr = 0 then .ok none
  else if ptr ≥ ext.blocksCount then .error (.blockOutOfRange ptr)
  else .ok (some ptr)

def readIndirectEntry (indirectBlock index : Nat) : Except ExtError (Option Nat) := do
  let buf ← fs.readExact (indirectBlock * ext.blockSize + index * 4) 4
  validatePtr ext (buf.le32 0)

/-- Follow a pointer through the indirect blocks, one index for each level. -/
def followIndirect : Option Nat → List Nat → Except ExtError (Option Nat)
  | none, _ => .ok none
  | some block, [] => .ok (some block)
  | some block, index :: rest => do
    let next ← readIndirectEntry ext fs block index
    followIndirect next rest

def resolveBlockMap (iBlock : Bytes) (logicalBlock : Nat) : Except ExtError (Option Nat) := do
  let n := ext.blockSize / 4
  if logicalBlock < DIRECT_BLOCKS then validatePtr ext (iBlock.le32 (logicalBlock * 4))
  else
    let remaining := logicalBlock - DIRECT_BLOCKS
    if remaining < n then
      followIndirect ext fs (← validatePtr ext (iBlock.le32 48)) [remaining]
    else
      let remaining := remaining - n
      let nSquared := min (n * n) (2 ^ 32 - 1)
      if remaining < nSquared then
        followIndirect ext fs (← validatePtr ext (iBlock.le32 52)) [remaining / n, remaining % n]
      else
        let remaining := remaining - nSquared
        let nCubed := min (nSquared * n) (2 ^ 32 - 1)
        if remaining < nCubed then
          let sub := remaining % nSquared
          followIndirect ext fs (← validatePtr ext (iBlock.le32 56))
            [remaining / nSquared, sub / n, sub % n]
        else .ok none

end Fsmnt.FsExt
