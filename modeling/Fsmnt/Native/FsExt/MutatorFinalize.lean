import Fsmnt.Native.FsExt.MutatorAlloc

/-!
# Mutator: finalize

`Mutator::finalize`: the tallies go into the group descriptors and the superblock, then
every checksum of a scratch block is recomputed.
-/

namespace Fsmnt.FsExt

/-- Blocks that a finalized mutator overlays (`orphan/plan.rs`). -/
structure OrphanOverlayDelta where
  blocks : Std.TreeMap Nat Bytes
  sbHostOverride : Option Bytes

/-- The group whose descriptor a scratch block makes dirty. -/
def ScratchBlock.bitmapGroup (scratch : ScratchBlock) : Option Nat :=
  match scratch.cls with
  | .blockBitmap group => some group
  | .inodeBitmap group => some group
  | _ => none

namespace Mutator

variable (ext : Ext) (fs : FsReader)

/-- The groups with a tally or with a bitmap in scratch. -/
def dirtyGroups (m : Mutator) : Std.TreeSet Nat :=
  .ofList (m.groupTallies.keys ++ m.blocks.values.filterMap ScratchBlock.bitmapGroup)

/-- Seed the descriptor of every dirty group and apply its tally. -/
def materializeTallies : List Nat → MutatorM Unit
  | [] => pure ()
  | group :: rest => do
    let (gdtBlock, offset, descSize) := groupDescSlot ext group
    let tally := (← get).groupTallies[group]?
    patchBlock ext fs gdtBlock (.groupDescriptor (group / ext.gdtLayout.descPerBlock))
      fun content =>
        match tally with
        | none => .ok content
        | some tally =>
          .ok (content.splice offset (applyGroupTally ext (content.slice offset descSize) tally))
    materializeTallies rest

section Checksums

variable [Crc] (seed : UInt32)

/-- Recompute the checksum of one mutated inode in its table block. -/
def recomputeInode (content : Bytes) (inum : Nat) : Bytes :=
  let slotOffset := (inum - 1) % ext.inodesPerGroup * ext.inodeSize % ext.blockSize
  let slot := content.slice slotOffset ext.inodeSize
  let generation := slot.le32 0x64
  let hasHi := ext.inodeSize > 128
  let slot := slot.splice 0x7C (List.replicate 2 0)
  let slot := if hasHi then slot.splice 0x82 (List.replicate 2 0) else slot
  let crc := computeInodeCsum seed inum generation slot hasHi
  let slot := slot.splice 0x7C (crcLo crc)
  let slot := if hasHi then slot.splice 0x82 (crcHi crc) else slot
  content.splice slotOffset slot

/-- `recompute_block_checksums` for one scratch block. -/
def recomputeBlock (blockNum : Nat) (scratch : ScratchBlock) : ScratchBlock :=
  let content := scratch.content
  match scratch.cls with
  | .inodeTable _ =>
    { scratch with
      content := scratch.mutatedInodes.toList.foldl (recomputeInode ext seed) content }
  | .xattrBlock =>
    let content := content.splice 0x10 (List.replicate 4 0)
    let crc := computeXattrBlockCsum seed blockNum content
    { scratch with content := content.splice 0x10 (Bytes.toLE 4 crc.toNat) }
  | .extentBlock ownerInode ownerGeneration =>
    let crc := computeExtentBlockCsum seed ownerInode ownerGeneration content
    let tailOff := 12 + content.le16 4 * 12
    if tailOff + 4 ≤ content.length then
      { scratch with content := content.splice tailOff (Bytes.toLE 4 crc.toNat) }
    else scratch
  | .orphanFileBlock fileInode fileGeneration =>
    let crc := computeOrphanFileBlockCsum seed fileInode fileGeneration blockNum content
    { scratch with content := content.splice (content.length - 4) (Bytes.toLE 4 crc.toNat) }
  | .directoryBlock _ _ | .blockBitmap _ | .inodeBitmap _ | .groupDescriptor _
  | .indirectBlock => scratch

/-- The checksum fields of a bitmap at `offLo` and `offHi` of its group's descriptor. -/
def writeBitmapCsum (desc : Bytes) (offLo offHi : Nat) (bitmap : Bytes) : Bytes :=
  let crc := computeBitmapCsum seed bitmap
  let desc := desc.splice offLo (crcLo crc)
  if ext.descSize ≥ 64 then desc.splice offHi (crcHi crc) else desc

/-- Step A of `recompute_group_descriptor_checksums` for one group: the checksums of its
    bitmaps, in block order. -/
def propagateBitmapCsums (m : Mutator) (group : Nat) : Mutator :=
  let bitmaps := m.blocks.values.filter fun s => s.bitmapGroup = some group
  if bitmaps.isEmpty then m
  else
    let (gdtBlock, _, _) := groupDescSlot ext group
    let offset := group % ext.gdtLayout.descPerBlock * ext.descSize
    m.modifyBlock gdtBlock fun gdt =>
      let desc := bitmaps.foldl (fun desc s =>
        match s.cls with
        | .blockBitmap _ => writeBitmapCsum ext seed desc 0x18 0x38 s.content
        | _ => writeBitmapCsum ext seed desc 0x1A 0x3A s.content)
        (gdt.content.slice offset ext.descSize)
      { gdt with content := gdt.content.splice offset desc }

end Checksums

variable [Crc]

/-- Recompute `bg_checksum` of descriptor `i` of a descriptor block, if its group is dirty. -/
def recomputeDesc (dirty : Std.TreeSet Nat) (firstGroup : Nat) (content : Bytes) (i : Nat) :
    Bytes :=
  let offset := i * ext.descSize
  let group := firstGroup + i
  if offset + ext.descSize > content.length ∨ !dirty.contains group then content
  else
    let desc := (content.slice offset ext.descSize).splice 0x1E (List.replicate 2 0)
    let desc :=
      if ext.hasMetadataCsum then
        desc.splice 0x1E (computeGroupDescriptorCsumCrc32c (ext.checksumSeed.getD 0) group desc)
      else if ext.hasGdtCsum then
        desc.splice 0x1E (computeGroupDescriptorCsumCrc16 ext.uuid group desc)
      else desc
    content.splice offset desc

/-- Step B: every descriptor block in scratch. -/
def recomputeGdtBlock (dirty : Std.TreeSet Nat) (scratch : ScratchBlock) : ScratchBlock :=
  match scratch.cls with
  | .groupDescriptor descBlockNr =>
    let dpb := ext.gdtLayout.descPerBlock
    { scratch with
      content := (List.range dpb).foldl (recomputeDesc ext dirty (descBlockNr * dpb))
        scratch.content }
  | _ => scratch

/-- Phases 3 and 4 of `finalize`. -/
def recomputeChecksums (m : Mutator) (dirty : Std.TreeSet Nat) : Mutator :=
  let seed := ext.checksumSeed.getD 0
  let m := if ext.hasMetadataCsum then
      { m with blocks := m.blocks.map (recomputeBlock ext seed) }
    else m
  let m := if ext.hasMetadataCsum then dirty.toList.foldl (propagateBitmapCsums ext seed) m
    else m
  { m with blocks := m.blocks.map fun _ => recomputeGdtBlock ext dirty }

/-- Phases 2 and 5 of `finalize`: the superblock's host block, if it changed. -/
def finalizeSuperblock (m : Mutator) : Option Bytes :=
  let tallied := m.totalClustersFreed > 0 ∨ m.totalInodesFreed > 0
  let host := if tallied then
      applySbTallies ext m.sbHostScratch m.totalClustersFreed m.totalInodesFreed
    else m.sbHostScratch
  if m.sbDirty ∨ tallied then
    if ext.hasMetadataCsum then
      let sbOffset := if ext.blockSize > 1024 then 1024 else 0
      let crc := computeSuperblockCsum (host.slice sbOffset 1024)
      some (host.splice (sbOffset + 0x3FC) (Bytes.toLE 4 crc.toNat))
    else some host
  else none

def finalize (m : Mutator) : Except MutatorError OrphanOverlayDelta :=
  let dirty := m.dirtyGroups
  match materializeTallies ext fs dirty.toList m with
  | .error e _ => .error e
  | .ok () m =>
    let sbHostOverride := finalizeSuperblock ext m
    let m := recomputeChecksums ext m dirty
    .ok { blocks := m.blocks.map fun _ s => s.content, sbHostOverride }

end Mutator

def mergeDeltaIntoOverlay (overlay : BlockOverlay) (delta : OrphanOverlayDelta) : BlockOverlay :=
  { overlay with
    blocks := delta.blocks.foldl (fun blocks block content => blocks.insert block content)
      overlay.blocks
    sbHostBlockContent := delta.sbHostOverride.getD overlay.sbHostBlockContent }

end Fsmnt.FsExt
