import Fsmnt.Native.FsExt.FastCommitApply

/-!
# Fast-commit replay

`apply/finalize.rs` and `FastCommitReplay::build` of `journal/fast_commit/mod.rs`: pass C,
which marks the blocks of every modified inode as allocated, and the three passes in order.
Reading the fast-commit blocks from the journal is left to the caller: `build` takes them as a
region.
-/

namespace Fsmnt.FsExt

def allocationPhysicalRange : ExtentAllocation → Nat × Nat
  | .data physicalStart blockLen _ => (physicalStart, blockLen)
  | .indexBlock block => (block, 1)

def allocationRangeInvalid (ext : Ext) (pblk len : Nat) : Bool :=
  len == 0 || pblk < ext.firstDataBlock || pblk ≥ ext.blocksCount || pblk + len > ext.blocksCount

def pushFinalizerExtentWalkFailed (plan : FastCommitPlan) (inum : Nat) : FastCommitPlan :=
  pushWarningCapped plan
    { position := { fcBlock := 0, blockOffset := 0, fsByteOffset := 0 }
      currentTid := none
      kind := .finalizerExtentWalkFailed inum
      occurrences := 1 }

section Finalize

variable [Crc] (ext : Ext) (fs : FsReader)

omit [Crc] in
/-- `Ext::inode`: the bytes of an inode on the reader. -/
def Ext.inode (inum : Nat) : Except ExtError Bytes :=
  if inum = 0 ∨ inum > ext.inodesCount then .error (.inodeOutOfRange inum)
  else
    match ext.groupDescs[(inum - 1) / ext.inodesPerGroup]? with
    | none => .error (.invalidGroupDescriptor ((inum - 1) / ext.inodesPerGroup)
        "group descriptor is absent")
    | some gdp =>
      fs.readExact (gdp.inodeTable * ext.blockSize +
        (inum - 1) % ext.inodesPerGroup * ext.inodeSize) ext.inodeSize

/-- What pass C does for one inode: the ranges to mark, or none with or without a warning. -/
inductive FinalizeInode where
  | ranges (ranges : List (Nat × Nat))
  | skip
  | warn
  deriving Repr, DecidableEq

/-- The part of `finalize_pass` before the marking. An I/O error fails the pass, any other
    error is a warning. -/
def finalizeInode (inum : Nat) : Except ExtError FinalizeInode :=
  match ext.inode fs inum with
  | .error .io => .error .io
  | .error .panicked => .error .panicked
  | .error _ => .ok .warn
  | .ok inode =>
    let flags := inode.le32 0x20
    if hasFlag flags INLINE_DATA_FL then .ok .skip
    else if !hasFlag flags EXTENTS_FL then .ok .warn
    else
      match collectTaggedExtentBlocks ext fs inum (inode.le32 0x64) (inode.slice 0x28 60) with
      | .error .io => .error .io
      | .error .panicked => .error .panicked
      | .error _ => .ok .warn
      | .ok allocations =>
        let ranges := allocations.map allocationPhysicalRange
        if ranges.any fun range => allocationRangeInvalid ext range.1 range.2 then .ok .warn
        else .ok (.ranges ranges)

omit [Crc] in
/-- Mark the ranges of one inode and count the units that changed. A failure leaves the
    ranges before it marked and counted. -/
def markRanges : List (Nat × Nat) → FastCommitPlan → Mutator →
    FastCommitPlan × Mutator × Option MutatorError
  | [], plan, m => (plan, m, none)
  | (pblk, len) :: rest, plan, m =>
    match Mutator.markBlockRangeAllocated ext fs pblk len m with
    | .error e m => (plan, m, some e)
    | .ok changed m =>
      markRanges rest
        { plan with
          allocationUnitsMarkedAllocated := plan.allocationUnitsMarkedAllocated + changed } m

def finalizePass : List Nat → FastCommitPlan → Mutator → Except ExtError (FastCommitPlan × Mutator)
  | [], plan, m => .ok (plan, m)
  | inum :: rest, plan, m => do
    match ← finalizeInode ext fs inum with
    | .skip => finalizePass rest plan m
    | .warn => finalizePass rest (pushFinalizerExtentWalkFailed plan inum) m
    | .ranges ranges =>
      match markRanges ext fs ranges plan m with
      | (plan, m, none) => finalizePass rest plan m
      | (_, _, some (.ext .io)) => .error .io
      | (_, _, some (.ext .panicked)) => .error .panicked
      | (plan, m, some _) => finalizePass rest (pushFinalizerExtentWalkFailed plan inum) m

end Finalize

variable [Crc] (ext : Ext) (fs : FsReader)

/-- `FastCommitReplay::build` on the blocks of the fast-commit area. -/
def buildFastCommit (overlay : BlockOverlay) (region : FcRegion) (fcFirst expectedTid : Nat) :
    Except ExtError (BlockOverlay × FastCommitPlan) := do
  let scan := scanFcRegion region fcFirst expectedTid
  let state ← applyPassFc ext fs overlay region fcFirst scan
  if state.modifiedInodes.isEmpty then .ok (state.composedOverlay, state.plan)
  else
    let reader := composeReader fs state.composedOverlay
    let mutator := Mutator.new state.composedOverlay.sbHostBlockContent
    let (plan, mutator) ← finalizePass ext reader state.modifiedInodes.toList state.plan mutator
    let delta ← (mutator.finalize ext reader).mapError mutatorErrorToExt
    .ok (mergeDeltaIntoOverlay state.composedOverlay delta, plan)

end Fsmnt.FsExt
