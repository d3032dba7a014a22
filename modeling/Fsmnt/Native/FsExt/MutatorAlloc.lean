import Fsmnt.Native.FsExt.Mutator

/-!
# Mutator: block allocation

The bitmap part of `orphan/mutator/allocation_methods.rs` and
`orphan/mutator/allocation_helpers.rs`: marking ranges of blocks free or allocated,
initialising a lazily initialised group, allocating a metadata block, and turning the
scratch state into a delta.
-/

namespace Fsmnt.FsExt

open Bytes

/-! ### Bitmaps -/

/-- Whether bit `bit` of a bitmap is set; bits past the end are not. -/
def bitSet (bitmap : Bytes) (bit : Nat) : Bool :=
  bitmap.getD (bit / 8) 0 &&& (1 <<< UInt8.ofNat (bit % 8)) != 0

/-- Set or clear one bit. -/
def writeBit (bitmap : Bytes) (bit : Nat) (alloc : Bool) : Bytes :=
  let mask : UInt8 := 1 <<< UInt8.ofNat (bit % 8)
  let slot := bitmap.getD (bit / 8) 0
  bitmap.set (bit / 8) (if alloc then slot ||| mask else slot &&& ~~~mask)

/-- `mark_bitmap_bits`: bring `count` bits from `bit` on to `alloc` and count those that
    changed. The bits before one that is out of range stay changed. -/
def markBitmapBits (alloc : Bool) : Nat → Nat → EStateM MutatorError Bytes Nat
  | _, 0 => pure 0
  | bit, count + 1 => do
    let bitmap ← get
    if bit / 8 ≥ bitmap.length then throw (.ext (.blockOutOfRange bit))
    else if bitSet bitmap bit = alloc then markBitmapBits alloc (bit + 1) count
    else
      set (writeBit bitmap bit alloc)
      let changed ← markBitmapBits alloc (bit + 1) count
      pure (changed + 1)

/-- `project_block_range_to_alloc_units`: first allocation unit and number of units of the
    blocks `pblk..pblk + blockLen`. -/
def projectBlockRangeToAllocUnits (pblk blockLen ratio firstDataBlock : Nat) :
    Except ExtError (Nat × Nat) :=
  if ratio = 0 then .error (.invalidSuperblock "blocks_per_cluster is zero")
  else if pblk < firstDataBlock then .error (.blockOutOfRange pblk)
  else
    let relStart := pblk - firstDataBlock
    if blockLen = 0 then .ok (relStart / ratio, 0)
    else
      let first := relStart / ratio
      .ok (first, divCeil (relStart + blockLen) ratio - first)

def allocationUnitsPerGroup (ext : Ext) (ratio : Nat) : Except ExtError Nat :=
  let clustersPerGroup :=
    if ext.clustersPerGroup ≠ 0 then ext.clustersPerGroup else ext.blocksPerGroup / ratio
  if clustersPerGroup = 0 then .error (.invalidSuperblock "clusters_per_group is zero")
  else .ok clustersPerGroup

/-! ### Group descriptors -/

def readDescU32Split (desc : Bytes) (offLo : Nat) (offHi : Option Nat) : Nat :=
  (offHi.elim 0 desc.le16) * 2 ^ 16 + desc.le16 offLo

def writeDescU32Split (desc : Bytes) (offLo : Nat) (offHi : Option Nat) (value : Nat) : Bytes :=
  let desc := desc.splice offLo (toLE 2 value)
  match offHi with
  | some off => desc.splice off (toLE 2 (value / 2 ^ 16))
  | none => desc

/-- `a.saturating_add(b)` on `u32`. -/
def satAdd32 (a b : Nat) : Nat := min (a + b) (2 ^ 32 - 1)

/-- `u32::try_from(n).unwrap_or(u32::MAX)`. -/
def clamp32 (n : Nat) : Nat := min n (2 ^ 32 - 1)

/-- The offset of the high half of a descriptor field, where the descriptor has one. -/
def hiOffset (ext : Ext) (off : Nat) : Option Nat := if ext.descSize ≥ 64 then some off else none

/-- `apply_group_tally`: the counters at `0x0C`, `0x0E` and `0x10`. -/
def applyGroupTally (ext : Ext) (desc : Bytes) (tally : GroupTally) : Bytes :=
  let current := readDescU32Split desc 0x0C (hiOffset ext 0x2C)
  let updated := satAdd32 current (clamp32 tally.clustersFreed) - clamp32 tally.clustersAllocated
  let desc := writeDescU32Split desc 0x0C (hiOffset ext 0x2C) updated
  let current := readDescU32Split desc 0x0E (hiOffset ext 0x2E)
  let desc := writeDescU32Split desc 0x0E (hiOffset ext 0x2E) (satAdd32 current tally.inodesFreed)
  let current := readDescU32Split desc 0x10 (hiOffset ext 0x30)
  writeDescU32Split desc 0x10 (hiOffset ext 0x30) (current - tally.dirsFreed)

/-- `apply_sb_tallies` on the superblock's host block. -/
def applySbTallies (ext : Ext) (host : Bytes) (clustersFreed inodesFreed : Nat) : Bytes :=
  let sbOff := if ext.blockSize > 1024 then 1024 else 0
  let currentHi := if ext.is64bit then host.le32 (sbOff + 0x150) else 0
  let newBlocks := min (currentHi * 2 ^ 32 + host.le32 (sbOff + 0x0C) + clustersFreed) (2 ^ 64 - 1)
  let host := host.splice (sbOff + 0x0C) (toLE 4 newBlocks)
  let host := if ext.is64bit then host.splice (sbOff + 0x150) (toLE 4 (newBlocks / 2 ^ 32))
    else host
  host.splice (sbOff + 0x10) (toLE 4 (clamp32 (host.le32 (sbOff + 0x10) + inodesFreed)))

namespace Mutator

variable (ext : Ext) (fs : FsReader)

/-- `group_desc_slot`: block, offset and size of the descriptor of `group`. -/
def groupDescSlot (group : Nat) : Nat × Nat × Nat :=
  let layout := ext.gdtLayout
  (descriptorBlockForGroup layout group,
    group % layout.descPerBlock * layout.descSize % layout.blockSize, layout.descSize)

/-- Run a bitmap computation on the content of a seeded block. The changes it made before
    it failed stay. -/
def onBitmap (block : Nat) (event : MutatorEvent) (f : EStateM MutatorError Bytes Nat) :
    MutatorM Nat := do
  let m ← get
  match m.blocks[block]? with
  | none => throw (.ext .panicked)
  | some scratch =>
    let m := m.note event
    match f scratch.content with
    | .ok changed content =>
      set (m.modifyBlock block fun s => { s with content })
      pure changed
    | .error e content =>
      set (m.modifyBlock block fun s => { s with content })
      throw e

def EXT4_BG_BLOCK_UNINIT : Nat := 0x0002

/-- Mark each unit of a list as allocated. -/
def reserveUnits : List Nat → EStateM MutatorError Bytes Nat
  | [] => pure 0
  | unit :: rest => do
    let _ ← markBitmapBits true unit 1
    reserveUnits rest

/-- The bitmap that `ensure_block_group_initialized` builds: the group's metadata and the
    bits past its last unit are allocated. -/
def initialBitmap (group : Nat) (gdp : GroupDescriptor) : EStateM MutatorError Bytes Nat := do
  modify fun bitmap => List.replicate bitmap.length 0
  let _ ← reserveUnits (reservedMetadataUnits ext group gdp).toList
  let realUnits := allocationUnitsInGroup ext group
  let bitmapBits := (← get).length * 8
  markBitmapBits true realUnits (bitmapBits - realUnits)

/-- `ensure_block_group_initialized`. Whether the group needs it is decided by the flags
    read when the filesystem was opened and by the groups this mutator initialised. -/
def ensureBlockGroupInitialized (group : Nat) : MutatorM Unit := do
  match ext.groupDescs[group]? with
  | none => throw (.ext (.blockOutOfRange (group * ext.blocksPerGroup)))
  | some gdp =>
    if gdp.flags &&& EXT4_BG_BLOCK_UNINIT = 0 then pure ()
    else if (← get).initializedBlockGroups.contains group then pure ()
    else
      seedBlock ext fs gdp.blockBitmap (.blockBitmap group)
      let _ ← onBitmap gdp.blockBitmap (.init group) (initialBitmap ext group gdp)
      let (gdtBlock, offset, descSize) := groupDescSlot ext group
      patchBlock ext fs gdtBlock (.groupDescriptor (group / ext.gdtLayout.descPerBlock))
        fun content =>
          let desc := content.slice offset descSize
          let flags := desc.le16 0x12 &&& (0xFFFF ^^^ EXT4_BG_BLOCK_UNINIT)
          let desc := desc.splice 0x12 (toLE 2 flags)
          let desc := writeDescU32Split desc 0x0C (if descSize ≥ 64 then some 0x2C else none)
            (freeClustersAfterInit ext group gdp)
          .ok (content.splice offset desc)
      modify fun m => { m with initializedBlockGroups := m.initializedBlockGroups.insert group }

/-- Add `changed` units to the tally of a group. -/
def tallyUnits (group changed : Nat) (alloc : Bool) (m : Mutator) : Mutator :=
  if changed = 0 then m
  else
    let tally := m.groupTallies[group]?.getD {}
    let tally := if alloc then { tally with clustersAllocated := tally.clustersAllocated + changed }
      else { tally with clustersFreed := tally.clustersFreed + changed }
    { m with groupTallies := m.groupTallies.insert group tally }

/-- One group's part of `mark_block_range_state`: `count` units from `bitStart` on. -/
def markGroupUnits (group bitStart count pblk : Nat) (alloc : Bool) : MutatorM Nat := do
  match ext.groupDescs[group]? with
  | none => throw (.ext (.blockOutOfRange pblk))
  | some gdp =>
    ensureBlockGroupInitialized ext fs group
    seedBlock ext fs gdp.blockBitmap (.blockBitmap group)
    let changed ← onBitmap gdp.blockBitmap (.mark group bitStart count alloc)
      (markBitmapBits alloc bitStart count)
    modify (tallyUnits group changed alloc)
    pure changed

/-- The loop of `mark_block_range_state`, one round for each group. -/
def markUnitsLoop (clustersPerGroup pblk : Nat) (alloc : Bool) : Nat → Nat → Nat → MutatorM Nat
  | 0, _, _ => pure 0
  | fuel + 1, allocUnit, endAllocUnit =>
    if allocUnit < endAllocUnit then do
      let group := allocUnit / clustersPerGroup
      let groupStart := group * clustersPerGroup
      let runEnd := min endAllocUnit (groupStart + clustersPerGroup)
      let changed ← markGroupUnits ext fs group (allocUnit - groupStart) (runEnd - allocUnit)
        pblk alloc
      let rest ← markUnitsLoop clustersPerGroup pblk alloc fuel runEnd endAllocUnit
      pure (changed + rest)
    else pure 0

/-- Note that a range is about to be freed. -/
def noteRange (pblk blockLen : Nat) (alloc : Bool) : MutatorM Unit :=
  if alloc then pure () else modify (·.note (.free pblk blockLen))

/-- `mark_block_range_state`: the number of allocation units that changed. -/
def markBlockRangeState (pblk blockLen : Nat) (alloc : Bool) : MutatorM Nat := do
  if pblk < ext.firstDataBlock then throw (.ext (.blockOutOfRange pblk))
  else if blockLen = 0 then pure 0
  else if pblk ≥ ext.blocksCount ∨ pblk + blockLen > ext.blocksCount then
    throw (.ext (.blockOutOfRange (pblk + blockLen)))
  else
    let ratio := max ext.blocksPerCluster 1
    let (allocUnit, totalCount) ← MutatorM.ofExcept
      (projectBlockRangeToAllocUnits pblk blockLen ratio ext.firstDataBlock)
    let clustersPerGroup ← MutatorM.ofExcept (allocationUnitsPerGroup ext ratio)
    noteRange pblk blockLen alloc
    markUnitsLoop ext fs clustersPerGroup pblk alloc totalCount allocUnit (allocUnit + totalCount)

def markBlockRangeFree (pblk blockLen : Nat) : MutatorM Nat :=
  markBlockRangeState ext fs pblk blockLen false

def markBlockRangeAllocated (pblk blockLen : Nat) : MutatorM Nat :=
  markBlockRangeState ext fs pblk blockLen true

/-! ### Allocating a metadata block -/

/-- First clear bit among the `realUnits` units of a group that the bitmap covers. -/
def findFreeUnit (bitmap : Bytes) (realUnits : Nat) : Option Nat :=
  (List.range realUnits).find? fun unit =>
    decide (unit / 8 < bitmap.length) && !bitSet bitmap unit

def tryAllocateInGroup (group : Nat) : MutatorM (Option Nat) := do
  let realUnits := allocationUnitsInGroup ext group
  if realUnits = 0 then pure none
  else
    ensureBlockGroupInitialized ext fs group
    match ext.groupDescs[group]? with
    | none => throw (.ext .panicked)
    | some gdp =>
      seedBlock ext fs gdp.blockBitmap (.blockBitmap group)
      match (← get).blocks[gdp.blockBitmap]? with
      | none => throw (.ext .panicked)
      | some scratch =>
        match findFreeUnit scratch.content realUnits with
        | none => pure none
        | some unit =>
          let ratio := max ext.blocksPerCluster 1
          let clustersPerGroup ← MutatorM.ofExcept (allocationUnitsPerGroup ext ratio)
          let pblk := (group * clustersPerGroup + unit) * ratio + ext.firstDataBlock
          if pblk ≥ ext.blocksCount then pure none
          else
            let _ ← markBlockRangeAllocated ext fs pblk 1
            modify (·.note (.handOut pblk))
            pure (some pblk)

/-- The groups from `startGroup` on, in a circle. -/
def allocateLoop (groupCount startGroup : Nat) : List Nat → MutatorM Nat
  | [] => throw (.ext (.blockOutOfRange ext.blocksCount))
  | offset :: rest => do
    match ← tryAllocateInGroup ext fs ((startGroup + offset) % groupCount) with
    | some pblk => pure pblk
    | none => allocateLoop groupCount startGroup rest

def allocateMetadataBlock (nearInum : Nat) : MutatorM Nat := do
  let groupCount := ext.groupDescs.length
  if groupCount = 0 then throw (.ext (.invalidSuperblock "no block groups"))
  else
    let startGroup :=
      if nearInum = 0 ∨ nearInum > ext.inodesCount then 0 else groupOfInode ext nearInum
    allocateLoop ext fs groupCount startGroup (List.range groupCount)

end Mutator

end Fsmnt.FsExt
