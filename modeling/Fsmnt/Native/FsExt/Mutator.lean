import Fsmnt.Native.FsExt.BlockGroup
import Fsmnt.Native.FsExt.Checksum

/-!
# Mutator: scratch blocks

`orphan/mutator/mod.rs` and the block and inode part of `orphan/mutator/allocation_methods.rs`:
the scratch state of one fast-commit transaction or orphan run, read and patched block by
block over a reader.

A method that takes `&mut self` and returns a `Result` is an `EStateM` computation: like the
source, it keeps the changes it made before it failed. `Mutator.log` is not in the source: it
lists what was done to the blocks, in order.
-/

namespace Fsmnt.FsExt

inductive MutatorError where
  | ext (err : ExtError)
  | bigallocClusterOverlap (inode cluster firstBlock secondBlock : Nat)
  deriving Repr, DecidableEq

inductive BlockClass where
  | inodeTable (group : Nat)
  | xattrBlock
  | extentBlock (ownerInode ownerGeneration : Nat)
  | orphanFileBlock (fileInode fileGeneration : Nat)
  | directoryBlock (block parentInum : Nat)
  | blockBitmap (group : Nat)
  | inodeBitmap (group : Nat)
  | groupDescriptor (descBlockNr : Nat)
  | indirectBlock
  deriving Repr, DecidableEq

structure ScratchBlock where
  cls : BlockClass
  content : Bytes
  /-- Inode numbers mutated within this block. -/
  mutatedInodes : Std.TreeSet Nat := ∅

structure GroupTally where
  clustersFreed : Nat := 0
  clustersAllocated : Nat := 0
  inodesFreed : Nat := 0
  dirsFreed : Nat := 0
  deriving Repr, DecidableEq

/-- What a mutator does to the blocks of the filesystem. -/
inductive MutatorEvent where
  /-- The content of a block other than a bitmap is patched. -/
  | write (block : Nat)
  /-- The bitmap of a lazily initialised group is built. -/
  | init (group : Nat)
  /-- Units of a group are marked in its bitmap. -/
  | mark (group bitStart count : Nat) (alloc : Bool)
  /-- A range of blocks is about to be marked free. -/
  | free (pblk len : Nat)
  /-- A block was allocated and is returned. -/
  | handOut (block : Nat)
  /-- An `ADD_RANGE` record has mapped a range of blocks. -/
  | map (pblk len : Nat)
  deriving Repr, DecidableEq

structure Mutator where
  blocks : Std.TreeMap Nat ScratchBlock
  groupTallies : Std.TreeMap Nat GroupTally
  initializedBlockGroups : Std.TreeSet Nat
  sbHostScratch : Bytes
  sbDirty : Bool
  totalClustersFreed : Nat
  totalInodesFreed : Nat
  log : List MutatorEvent

def Mutator.new (journalSbHostBlock : Bytes) : Mutator where
  blocks := ∅
  groupTallies := ∅
  initializedBlockGroups := ∅
  sbHostScratch := journalSbHostBlock
  sbDirty := false
  totalClustersFreed := 0
  totalInodesFreed := 0
  log := []

def Mutator.note (m : Mutator) (event : MutatorEvent) : Mutator :=
  { m with log := m.log ++ [event] }

/-- A method of the mutator. -/
abbrev MutatorM := EStateM MutatorError Mutator

/-- `?` on a result that does not touch the mutator. -/
def MutatorM.ofExcept {α : Type} : Except ExtError α → MutatorM α
  | .ok a => pure a
  | .error e => throw (.ext e)

/-- `fs.seek(..)` and `fs.read_exact(..)` of a whole block. -/
def readBlock (ext : Ext) (fs : FsReader) (block : Nat) : Except ExtError Bytes :=
  if block * ext.blockSize ≥ 2 ^ 64 then .error (.blockOutOfRange block)
  else fs.readExact (block * ext.blockSize) ext.blockSize

namespace Mutator

variable (ext : Ext) (fs : FsReader)

/-- Change the scratch of a seeded block. -/
def modifyBlock (m : Mutator) (block : Nat) (f : ScratchBlock → ScratchBlock) : Mutator :=
  { m with blocks := m.blocks.modify block f }

/-- Seed the scratch for `blockNum` unless it is there already. -/
def seedBlock (blockNum : Nat) (cls : BlockClass) : MutatorM Unit := do
  let m ← get
  if m.blocks.contains blockNum then pure ()
  else
    let content ← MutatorM.ofExcept (readBlock ext fs blockNum)
    set { m with blocks := m.blocks.insert blockNum { cls, content } }

/-- Seed a block and apply `f` to its content. Where `f` fails half way the source has
    changed part of the block; every caller gives the mutator up then. -/
def patchBlock (blockNum : Nat) (cls : BlockClass) (f : Bytes → Except MutatorError Bytes) :
    MutatorM Unit := do
  modify (·.note (.write blockNum))
  seedBlock ext fs blockNum cls
  let m ← get
  match m.blocks[blockNum]? with
  | none => throw (.ext .panicked)
  | some scratch =>
    match f scratch.content with
    | .error e => throw e
    | .ok content => set (m.modifyBlock blockNum fun s => { s with content })

/-! ### Inodes -/

def groupOfInode (inum : Nat) : Nat := (inum - 1) / ext.inodesPerGroup

/-- `(block, offset in the block, inode size)` of `inum`. -/
def inodeTableSlot (inum : Nat) : Except ExtError (Nat × Nat × Nat) :=
  if inum = 0 ∨ inum > ext.inodesCount then .error (.inodeOutOfRange inum)
  else
    let indexInGroup := (inum - 1) % ext.inodesPerGroup
    let byteInTable := indexInGroup * ext.inodeSize
    match ext.groupDescs[groupOfInode ext inum]? with
    | none => .error .panicked
    | some gdp =>
      .ok (gdp.inodeTable + byteInTable / ext.blockSize, byteInTable % ext.blockSize, ext.inodeSize)

/-- `current_inode_bytes`: scratch before the reader. -/
def currentInodeBytes (m : Mutator) (inum : Nat) : Except ExtError Bytes := do
  let (block, offset, size) ← inodeTableSlot ext inum
  match m.blocks[block]? with
  | some scratch => .ok (scratch.content.slice offset size)
  | none =>
    if block * ext.blockSize + offset ≥ 2 ^ 64 then .error (.blockOutOfRange block)
    else fs.readExact (block * ext.blockSize + offset) size

/-- Patch the scratch bytes of inode `inum` and record it as mutated. -/
def patchInodeScratch (inum : Nat) (f : Bytes → Except MutatorError Bytes) : MutatorM Unit := do
  let (block, offset, size) ← MutatorM.ofExcept (inodeTableSlot ext inum)
  patchBlock ext fs block (.inodeTable (groupOfInode ext inum)) fun content =>
    match f (content.slice offset size) with
    | .error e => .error e
    | .ok bytes => .ok (content.splice offset bytes)
  modify fun m => m.modifyBlock block fun s =>
    { s with mutatedInodes := s.mutatedInodes.insert inum }

def pruneInodeTableBlockIfUnchanged (inum : Nat) : MutatorM Bool := do
  let (block, _, _) ← MutatorM.ofExcept (inodeTableSlot ext inum)
  let m ← get
  match m.blocks[block]? with
  | none => pure false
  | some scratch =>
    match scratch.cls with
    | .inodeTable _ =>
      let backing ← MutatorM.ofExcept (readBlock ext fs block)
      if scratch.content = backing then
        set { m with blocks := m.blocks.erase block }
        pure true
      else pure false
    | _ => pure false

inductive LinkCountChange where
  | applied (before after : Nat)
  | underflow (before : Nat) (wouldBeDelta : Int)
  | overflow (before : Nat) (wouldBeDelta : Int)
  deriving Repr, DecidableEq

def adjustInodeLinksCount (inum : Nat) (delta : Int) : MutatorM LinkCountChange := do
  let currentInode ← MutatorM.ofExcept (currentInodeBytes ext fs (← get) inum)
  let current := currentInode.le16 0x1A
  let next : Int := current + delta
  if next < 0 then pure (.underflow current delta)
  else if next > 0xFFFF then pure (.overflow current delta)
  else
    patchInodeScratch ext fs inum fun bytes => .ok (bytes.splice 0x1A (Bytes.toLE 2 next.toNat))
    pure (.applied current next.toNat)

/-! ### Blocks -/

/-- `current_block_bytes`: the block and whether it came from scratch. -/
def currentBlockBytes (m : Mutator) (block : Nat) : Except ExtError (Bytes × Bool) :=
  match m.blocks[block]? with
  | some scratch => .ok (scratch.content, true)
  | none =>
    if block ≥ ext.blocksCount then .error (.blockOutOfRange block)
    else (readBlock ext fs block).map (·, false)

def patchDirectoryBlock (block parentInum : Nat) (f : Bytes → Except MutatorError Bytes) :
    MutatorM Unit :=
  patchBlock ext fs block (.directoryBlock block parentInum) f

def patchExtentBlock (block ownerInode ownerGeneration : Nat)
    (f : Bytes → Except MutatorError Bytes) : MutatorM Unit :=
  patchBlock ext fs block (.extentBlock ownerInode ownerGeneration) f

/-- Replace the whole content of directory block `physical`. -/
def writeDirBlock (parentInum physical : Nat) (bytes : Bytes) : MutatorM Unit :=
  patchDirectoryBlock ext fs physical parentInum fun dirBlock =>
    if dirBlock.length ≠ bytes.length then .error (.ext (.blockOutOfRange physical))
    else .ok bytes

end Mutator

end Fsmnt.FsExt
