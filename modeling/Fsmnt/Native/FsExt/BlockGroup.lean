import Fsmnt.Native.FsExt.Volume

/-!
# Block groups

`block_group.rs`: where the group descriptors are, and the allocation units of a group that
hold its metadata. Saturating arithmetic on `u64` is arithmetic on `Nat` here: block numbers
and products of 32-bit fields stay far below `2 ^ 64`.
-/

namespace Fsmnt.FsExt

/-- `n.div_ceil(d)`. -/
def divCeil (n d : Nat) : Nat := (n + d - 1) / d

/-! ### Descriptor table -/

/-- Dividing by `base` as long as it divides. -/
def isPowerOfLoop (base : Nat) : Nat → Nat → Nat
  | 0, n => n
  | fuel + 1, n => if n % base = 0 then isPowerOfLoop base fuel (n / base) else n

def isPowerOf (n base : Nat) : Bool :=
  if n < base then false else isPowerOfLoop base n n == 1

/-- `group_has_super`, which `group_has_super_for_layout` repeats. -/
def groupHasSuperWith (sparseSuper sparseSuper2 : Bool) (backupBgs : List Nat)
    (group : Nat) : Bool :=
  if sparseSuper2 then group == 0 || backupBgs.any fun backup => backup != 0 && backup == group
  else if !sparseSuper then true
  else group == 0 || group == 1 || isPowerOf group 3 || isPowerOf group 5 || isPowerOf group 7

variable (layout : GdtLayout) (ext : Ext) (group : Nat)

def groupHasSuperForLayout : Bool :=
  groupHasSuperWith layout.sparseSuper layout.sparseSuper2 layout.backupBgs group

def groupHasSuper : Bool := groupHasSuperWith ext.sparseSuper ext.sparseSuper2 ext.backupBgs group

/-- Block number of descriptor block `descBlockNr`, with the quirk of 1 KiB blocks and
    `first_data_block == 0`. -/
def descriptorBlockLoc (descBlockNr : Nat) : Nat :=
  if !layout.metaBg || descBlockNr < layout.firstMetaBg then
    layout.firstDataBlock + 1 + descBlockNr
  else
    let firstBg := descBlockNr * layout.descPerBlock
    let metagroupFirstBlock := layout.firstDataBlock + firstBg * layout.blocksPerGroup
    let nr := metagroupFirstBlock + (if groupHasSuperForLayout layout firstBg then 1 else 0)
    if layout.blockSize = 1024 ∧ layout.firstDataBlock = 0 ∧ descBlockNr = 0 ∧
        layout.firstMetaBg = 0 then nr + 1
    else nr

def descriptorBlockForGroup : Nat := descriptorBlockLoc layout (group / layout.descPerBlock)

def groupFirstBlockForLayout : Nat := layout.firstDataBlock + group * layout.blocksPerGroup

/-- `reserve_gdt_blocks_resident_in_group`: the descriptor blocks, primary or backup, that
    lie in `group`. -/
def gdtBlocksResidentInGroup : List Nat :=
  if layout.groupCount = 0 then []
  else
    let groupFirst := groupFirstBlockForLayout layout group
    let classical :=
      if groupHasSuperForLayout layout group then
        let classicalBlocks :=
          if layout.metaBg then min layout.firstMetaBg layout.totalDescBlocks
          else layout.totalDescBlocks
        (List.range (classicalBlocks + layout.reservedGdtBlocks)).map (groupFirst + 1 + ·)
      else []
    if !layout.metaBg then classical
    else
      let dpb := layout.descPerBlock
      let mg := group / dpb
      if mg < layout.firstMetaBg ∨ mg ≥ layout.totalDescBlocks then classical
      else
        let primaryBg := mg * dpb
        let backup1Bg := min (primaryBg + 1) (layout.groupCount - 1)
        let backup2Bg := min (primaryBg + dpb - 1) (layout.groupCount - 1)
        classical ++ ([primaryBg, backup1Bg, backup2Bg].filter (· == group)).map fun bg =>
          groupFirstBlockForLayout layout bg +
            (if groupHasSuperForLayout layout bg then 1 else 0)

/-! ### Allocation units -/

def groupFirstBlock : Nat := ext.firstDataBlock + group * ext.blocksPerGroup

def allocationUnitsInGroup : Nat :=
  let groupFirst := groupFirstBlock ext group
  if groupFirst ≥ ext.blocksCount then 0
  else divCeil (min (ext.blocksCount - groupFirst) ext.blocksPerGroup) (max ext.blocksPerCluster 1)

/-- The loop of `reserve_block_range_units`: one step per allocation unit, at most one per
    block. -/
def reserveLoop (ratio groupFirst : Nat) : Nat → Nat → Nat → List Nat
  | 0, _, _ => []
  | fuel + 1, block, last =>
    if block < last then
      let unit := (block - groupFirst) / ratio
      unit :: reserveLoop ratio groupFirst fuel (groupFirst + (unit + 1) * ratio) last
    else []

/-- `reserve_block_range_units`: the units of `group` that blocks `start..start + len` touch. -/
def blockRangeUnits (start len : Nat) : List Nat :=
  let ratio := max ext.blocksPerCluster 1
  let groupFirst := groupFirstBlock ext group
  let groupBlocks := min (ext.blocksCount - groupFirst) ext.blocksPerGroup
  let last := min (start + len) (groupFirst + groupBlocks)
  let block := max start groupFirst
  reserveLoop ratio groupFirst (last - block) block last

/-- `reserve_metadata_allocation_units`. -/
def reservedMetadataUnits (gdp : GroupDescriptor) : Std.TreeSet Nat :=
  let sb := if groupHasSuper ext group then blockRangeUnits ext group (groupFirstBlock ext group) 1
    else []
  let gdt := (gdtBlocksResidentInGroup ext.gdtLayout group).flatMap
    fun block => blockRangeUnits ext group block 1
  let inodeTableBlocks := divCeil (ext.inodesPerGroup * ext.inodeSize) ext.blockSize
  .ofList (sb ++ gdt ++ blockRangeUnits ext group gdp.blockBitmap 1 ++
    blockRangeUnits ext group gdp.inodeBitmap 1 ++
    blockRangeUnits ext group gdp.inodeTable inodeTableBlocks)

/-- Free units of a group whose block bitmap was uninitialized. -/
def freeClustersAfterInit (gdp : GroupDescriptor) : Nat :=
  allocationUnitsInGroup ext group - (reservedMetadataUnits ext group gdp).size

end Fsmnt.FsExt
