import Fsmnt.Native.FsExt.MutatorAlloc

/-!
# Mutator: orphans

The methods of the mutator that orphan processing uses beside those of fast-commit replay:
`free_allocations` and `clear_inode_bitmap_bit`, and the patches of xattr, orphan-file and indirect
blocks.
-/

namespace Fsmnt.FsExt

inductive AllocationKind where
  | data (logicalClusterStart : Nat)
  | metadata
  deriving Repr, DecidableEq

/-- One contiguous physical run owned by an inode. -/
structure AllocationRun where
  physicalStart : Nat
  blockLen : Nat
  kind : AllocationKind
  deriving Repr, DecidableEq

/-- Clear one bit and count it if it was set. The slice index of the source panics. -/
def clearBit (bit : Nat) : EStateM MutatorError Bytes Nat := do
  let bitmap ← get
  if bit / 8 ≥ bitmap.length then throw (.ext .panicked)
  else if bitSet bitmap bit then
    set (writeBit bitmap bit false)
    pure 1
  else pure 0

/-- The two maps of the first pass of `free_allocations`: the logical cluster and the first block
    that own a cluster, and the clusters to free with a block of each. -/
structure ClusterPlan where
  owners : Std.TreeMap Nat (Nat × Nat) := ∅
  clusters : Std.TreeMap Nat Nat := ∅

namespace Mutator

variable (ext : Ext) (fs : FsReader)

def patchXattrBlock (block : Nat) (f : Bytes → Except MutatorError Bytes) : MutatorM Unit :=
  patchBlock ext fs block .xattrBlock f

def patchOrphanFileBlock (block fileInode fileGeneration : Nat)
    (f : Bytes → Except MutatorError Bytes) : MutatorM Unit :=
  patchBlock ext fs block (.orphanFileBlock fileInode fileGeneration) f

def patchIndirectBlock (block : Nat) (f : Bytes → Except MutatorError Bytes) : MutatorM Unit :=
  patchBlock ext fs block .indirectBlock f

def patchSuperblockBytes (f : Bytes → Except MutatorError Bytes) : MutatorM Unit := do
  let m ← get
  match f m.sbHostScratch with
  | .error e => throw e
  | .ok host => set { m with sbHostScratch := host, sbDirty := true }

/-! ### Inode bitmap -/

/-- Tally an inode whose bit was cleared. -/
def tallyInode (group changed : Nat) (wasDir : Bool) (m : Mutator) : Mutator :=
  if changed = 0 then m
  else
    let tally := m.groupTallies[group]?.getD {}
    let tally := { tally with inodesFreed := satAdd32 tally.inodesFreed 1 }
    let tally := if wasDir then { tally with dirsFreed := satAdd32 tally.dirsFreed 1 } else tally
    { m with groupTallies := m.groupTallies.insert group tally,
             totalInodesFreed := m.totalInodesFreed + 1 }

def clearInodeBitmapBit (inum : Nat) (wasDir : Bool) : MutatorM Unit := do
  if inum = 0 ∨ inum > ext.inodesCount then throw (.ext (.inodeOutOfRange inum))
  else
    let group := groupOfInode ext inum
    match ext.groupDescs[group]? with
    | none => throw (.ext (.inodeOutOfRange inum))
    | some gdp =>
      seedBlock ext fs gdp.inodeBitmap (.inodeBitmap group)
      let changed ← onBitmap gdp.inodeBitmap (.write gdp.inodeBitmap)
        (clearBit ((inum - 1) % ext.inodesPerGroup))
      modify (tallyInode group changed wasDir)

/-! ### Block bitmap -/

/-- One block of the first pass of `free_allocations`. -/
def planBlock (inode : Nat) (run : AllocationRun) (plan : ClusterPlan) (off : Nat) :
    Except MutatorError ClusterPlan := do
  let phys := run.physicalStart + off
  if phys ≥ 2 ^ 64 then throw (.ext (.blockOutOfRange run.physicalStart))
  else if phys ≥ ext.blocksCount then throw (.ext (.blockOutOfRange phys))
  else if phys < ext.firstDataBlock then throw (.ext (.blockOutOfRange phys))
  else
    let cluster := (phys - ext.firstDataBlock) / ext.blocksPerCluster
    let owners ← match run.kind with
      | .metadata => .ok plan.owners
      | .data logicalClusterStart =>
        let logicalCluster := logicalClusterStart + off / ext.blocksPerCluster
        if logicalCluster ≥ 2 ^ 64 then throw (.ext (.blockOutOfRange phys))
        else match plan.owners[cluster]? with
          | some (existing, block) =>
            if existing ≠ logicalCluster then
              throw (.bigallocClusterOverlap inode cluster block phys)
            else .ok plan.owners
          | none => .ok (plan.owners.insert cluster (logicalCluster, phys))
    .ok { owners, clusters := plan.clusters.insertIfNew cluster phys }

/-- The first pass: every block of every run. -/
def planClusters (inode : Nat) (runs : List AllocationRun) : Except MutatorError ClusterPlan :=
  runs.foldlM (fun plan run =>
    (List.range run.blockLen).foldlM (planBlock ext inode run) plan) {}

/-- Tally a cluster whose bit was cleared. -/
def tallyCluster (group changed : Nat) (m : Mutator) : Mutator :=
  if changed = 0 then m
  else { tallyUnits group changed false m with totalClustersFreed := m.totalClustersFreed + 1 }

/-- One cluster of the second pass. A group that is not yet initialised is not initialised here. -/
def freeCluster (inode cluster block : Nat) : MutatorM Unit := do
  if block < ext.firstDataBlock then throw (.ext (.blockOutOfRange block))
  else
    let group := (block - ext.firstDataBlock) / ext.blocksPerGroup
    if group ≥ 2 ^ 32 then throw (.ext .panicked)
    else match ext.groupDescs[group]? with
      | none => throw (.ext (.inodeOutOfRange inode))
      | some gdp =>
        seedBlock ext fs gdp.blockBitmap (.blockBitmap group)
        let groupStart := group * ext.blocksPerGroup / ext.blocksPerCluster
        if cluster < groupStart then throw (.ext (.blockOutOfRange block))
        else
          let changed ← onBitmap gdp.blockBitmap (.mark group (cluster - groupStart) 1 false)
            (clearBit (cluster - groupStart))
          modify (tallyCluster group changed)

/-- The second pass. -/
def freeClusters (inode : Nat) : List (Nat × Nat) → MutatorM Unit
  | [] => pure ()
  | (cluster, block) :: rest => do
    freeCluster ext fs inode cluster block
    freeClusters inode rest

def freeAllocations (inode : Nat) (runs : List AllocationRun) : MutatorM Unit := do
  match planClusters ext inode runs with
  | .error e => throw e
  | .ok plan => freeClusters ext fs inode plan.clusters.toList

end Mutator

end Fsmnt.FsExt
