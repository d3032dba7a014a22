import Fsmnt.Native.FsExt.FastCommitParse
import Fsmnt.Native.FsExt.HtreeMutate
import Fsmnt.Native.FsExt.MutatorFinalize

/-!
# Fast-commit apply pass

`journal/fast_commit/apply/mod.rs` and `apply/helpers.rs`: pass B, which applies the records
that the scan validated. Each transaction works on a mutator of its own, which is merged into
the overlay when its TAIL is reached and dropped when the transaction stops.

`ApplyRun.dispatched` and `ApplyRun.ending` are not in the source: they say which records were
handed to `apply_record` and how the loop ended.
-/

namespace Fsmnt.FsExt

open Mutator

open ExtentSurgeon (inodeSizeField)

def S_IFMT : Nat := 0xF000
def S_IFDIR : Nat := 0x4000
def S_IFREG : Nat := 0x8000
def S_IFLNK : Nat := 0xA000

def WARNING_CAP : Nat := 256

/-- Per-transaction counters and warnings. -/
structure TxBuffer where
  currentTid : Nat
  tagCounts : FastCommitTagCounts
  warnings : List FastCommitWarning := []
  modifiedInodes : Std.TreeSet Nat := ∅
  allocationUnitsMarkedFree : Nat := 0
  allocationUnitsMarkedAllocated : Nat := 0

/-- A transaction in work. -/
structure TxState where
  mutator : Mutator
  buffer : TxBuffer

/-- What `apply_record` works on. -/
structure ApplyContext where
  composedOverlay : BlockOverlay
  txState : Option TxState
  plan : FastCommitPlan
  modifiedInodes : Std.TreeSet Nat

namespace TxBuffer

def pushWarning (tx : TxBuffer) (position : FastCommitPosition) (kind : FastCommitWarningKind) :
    TxBuffer :=
  { tx with warnings := tx.warnings ++
      [{ position, currentTid := some tx.currentTid, kind, occurrences := 1 }] }

def count (tx : TxBuffer) (f : FastCommitTagCounts → FastCommitTagCounts) : TxBuffer :=
  { tx with tagCounts := f tx.tagCounts }

def modified (tx : TxBuffer) (inum : Nat) : TxBuffer :=
  { tx with modifiedInodes := tx.modifiedInodes.insert inum }

/-- Add the units a surgery freed and allocated. -/
def addUnits (tx : TxBuffer) (freed allocated : Nat) : TxBuffer :=
  { tx with
    allocationUnitsMarkedFree := tx.allocationUnitsMarkedFree + freed
    allocationUnitsMarkedAllocated := tx.allocationUnitsMarkedAllocated + allocated }

end TxBuffer

variable (c : FastCommitTagCounts)

def countPad : FastCommitTagCounts := { c with pad := c.pad + 1 }
def countInode : FastCommitTagCounts := { c with inode := c.inode + 1 }
def countAddRange : FastCommitTagCounts := { c with addRange := c.addRange + 1 }
def countDelRange : FastCommitTagCounts := { c with delRange := c.delRange + 1 }

/-- `increment_dentry_tag_count`. -/
def countDentry (tag : Nat) (c : FastCommitTagCounts) : FastCommitTagCounts :=
  if tag = FC_TAG_CREAT then { c with creat := c.creat + 1 }
  else if tag = FC_TAG_LINK then { c with link := c.link + 1 }
  else if tag = FC_TAG_UNLINK then { c with unlink := c.unlink + 1 }
  else c

/-- What a handler makes of the transaction: it goes on, or it stops for a reason, and then
    the caller drops it. -/
inductive TxStep where
  | next (tx : TxState)
  | stop (tx : TxState) (reason : FastCommitStopReason)

def TxState.mapBuffer (tx : TxState) (f : TxBuffer → TxBuffer) : TxState :=
  { tx with buffer := f tx.buffer }

/-- A mutator call with `.map_err(mutator_error_to_ext)?`. -/
def TxState.onMutator {α : Type} (tx : TxState) (x : MutatorM α) : Except ExtError (α × TxState) :=
  match x tx.mutator with
  | .ok a mutator => .ok (a, { tx with mutator })
  | .error e _ => .error (mutatorErrorToExt e)

section Handlers

variable [Crc] (ext : Ext) (fs : FsReader) (position : FastCommitPosition) (tx : TxState)

/-! ### INODE -/

omit [Crc] in
/-- `apply_inode_pass_record` on an open transaction. -/
def applyInodeRecord (valueLen : Nat) (inode : FcInode) : Except ExtError TxStep := do
  if !(128 ≤ inode.rawInode.length && inode.rawInode.length ≤ ext.inodeSize) then
    .ok (.stop tx (.malformedRecord FC_TAG_INODE valueLen
      "inode raw_inode length out of [128, s_inode_size]"))
  else if inode.fcIno = 0 ∨ inode.fcIno > ext.inodesCount then
    .ok (.next (tx.mapBuffer fun b =>
      (b.pushWarning position (.inodeOutOfRange inode.fcIno)).count countInode))
  else
    let ((), tx) ← tx.onMutator (patchInodeScratch ext fs inode.fcIno fun bytes =>
      .ok (bytes.splice 0 inode.rawInode))
    .ok (.next (tx.mapBuffer fun b => (b.modified inode.fcIno).count countInode))

/-! ### ADD_RANGE and DEL_RANGE -/

omit [Crc] in
def physicalRangeInvalid (extent : RawExtent) : Bool :=
  extent.eePblk < ext.firstDataBlock || extent.eePblk ≥ ext.blocksCount ||
    extent.eePblk + extent.eeLen > ext.blocksCount

/-- `apply_add_range_record` on an open transaction. -/
def applyAddRangeRecord (addRange : FcAddRange) : Except ExtError TxStep := do
  let inum := addRange.fcIno
  let extent := RawExtent.fromOnDisk addRange.rawExtent
  if inum = 0 ∨ inum > ext.inodesCount then
    .ok (.next (tx.mapBuffer fun b =>
      (b.pushWarning position (.inodeOutOfRange inum)).count countAddRange))
  else if physicalRangeInvalid ext extent then
    .ok (.next (tx.mapBuffer fun b => (b.pushWarning position
      (.physicalBlockOutOfRange inum extent.eePblk extent.eeLen)).count countAddRange))
  else
    match ExtentSurgeon.addRange ext fs inum extent { mutator := tx.mutator } with
    | .error e _ => .error e
    | .ok outcome surgeon =>
      let tx := { tx with mutator := surgeon.mutator }
      match outcome with
      | .applied =>
        let tx := { tx with mutator := tx.mutator.note (.map extent.eePblk extent.eeLen) }
        .ok (.next (tx.mapBuffer fun b => ((b.modified inum).addUnits
          surgeon.allocationUnitsFreed surgeon.allocationUnitsAllocated).count countAddRange))
      | .requiresMetadataAllocation =>
        .ok (.stop tx (.extentReplayRequiresMetadataAllocation inum))
      | .failed reason => .ok (.stop tx (.extentReplayFailed inum reason))
      | .appliedNeedsShrink _ | .logicalRangeInvalid _ _ => .ok (.next tx)

omit [Crc] in
/-- `logical_range_invalid`: the range does not end within the file. -/
def logicalRangeInvalid (m : Mutator) (inum lblk len : Nat) : Except ExtError Bool := do
  if len = 0 then .ok true
  else if lblk + len ≥ 2 ^ 32 then .ok true
  else
    let inode ← m.currentInodeBytes ext fs inum
    if inode.length < 0x70 then .error (.invalidInode inum "too short")
    else .ok (lblk + len > divCeil (inodeSizeField inode) ext.blockSize)

/-- `del_range`, and `shrink_inode` where the end of the file may have moved. -/
def delRangeAndShrink (inum lblk len : Nat) : SurgeonM ExtentSurgeryOutcome := do
  let outcome ← ExtentSurgeon.delRange ext fs inum lblk (lblk + len - 1)
  match outcome with
  | .appliedNeedsShrink endBlockExclusive =>
    ExtentSurgeon.shrinkInode ext fs inum endBlockExclusive
    pure outcome
  | _ => pure outcome

/-- `apply_del_range_record` on an open transaction. -/
def applyDelRangeRecord (delRange : FcDelRange) : Except ExtError TxStep := do
  let inum := delRange.fcIno
  let lblk := delRange.fcLblk
  let len := delRange.fcLen
  if inum = 0 ∨ inum > ext.inodesCount then
    .ok (.next (tx.mapBuffer fun b =>
      (b.pushWarning position (.inodeOutOfRange inum)).count countDelRange))
  else if ← logicalRangeInvalid ext fs tx.mutator inum lblk len then
    .ok (.next (tx.mapBuffer fun b =>
      (b.pushWarning position (.logicalRangeInvalid inum lblk len)).count countDelRange))
  else
    match delRangeAndShrink ext fs inum lblk len { mutator := tx.mutator } with
    | .error e _ => .error e
    | .ok outcome surgeon =>
      let tx := { tx with mutator := surgeon.mutator }
      match outcome with
      | .applied => .ok (.next (tx.mapBuffer (·.count countDelRange)))
      | .appliedNeedsShrink _ =>
        .ok (.next (tx.mapBuffer fun b => ((b.modified inum).addUnits
          surgeon.allocationUnitsFreed surgeon.allocationUnitsAllocated).count countDelRange))
      | .requiresMetadataAllocation =>
        .ok (.stop tx (.extentReplayRequiresMetadataAllocation inum))
      | .failed reason => .ok (.stop tx (.extentReplayFailed inum reason))
      | .logicalRangeInvalid lblk len =>
        .ok (.next (tx.mapBuffer fun b =>
          (b.pushWarning position (.logicalRangeInvalid inum lblk len)).count countDelRange))

/-! ### CREAT, LINK and UNLINK -/

omit [Crc] in
/-- `adjust_child_links_count`: the transaction, or the reason to stop. -/
def adjustChildLinksCount (childInum : Nat) (delta : Int) : Except ExtError TxStep := do
  let (change, tx) ← tx.onMutator (adjustInodeLinksCount ext fs childInum delta)
  match change with
  | .applied _ _ => .ok (.next tx)
  | .underflow before wouldBeDelta | .overflow before wouldBeDelta =>
    .ok (.stop tx (.linkCountOverflow childInum before wouldBeDelta))

omit [Crc] in
/-- `dentry_file_type`, which is not asked for an entry that is removed. -/
def dentryFileType (m : Mutator) (tag childInum : Nat) : Except ExtError UInt8 :=
  if tag = FC_TAG_UNLINK then .ok 0
  else do
    let inode ← m.currentInodeBytes ext fs childInum
    let mode := inode.le16 0 &&& S_IFMT
    .ok (if mode = S_IFREG then 1 else if mode = S_IFDIR then 2 else if mode = S_IFLNK then 7
      else 0)

def mutateDentry (tag : Nat) (dentry : FcDentry) (parentIndexed : Bool) (fileType : UInt8) :
    MutatorM DirReplayOutcome :=
  if parentIndexed then
    if tag = FC_TAG_UNLINK then
      HtreeSurgeon.removeEntry ext fs dentry.parentInum dentry.childInum dentry.name
    else HtreeSurgeon.addEntry ext fs dentry.parentInum dentry.childInum dentry.name fileType
  else if tag = FC_TAG_UNLINK then
    dirRemoveEntry ext fs dentry.parentInum dentry.childInum dentry.name
  else dirAppendEntry ext fs dentry.parentInum dentry.childInum dentry.name fileType

omit [Crc] in
def finishDentry (tag : Nat) (dentry : FcDentry) (outcome : DirReplayOutcome) :
    Except ExtError TxStep := do
  match outcome with
  | .applied =>
    .ok (.next (tx.mapBuffer fun b =>
      ((b.modified dentry.parentInum).modified dentry.childInum).count (countDentry tag)))
  | .skippedHtree =>
    .ok (.next (tx.mapBuffer fun b => ((b.pushWarning position
      (.directoryReplayFailed dentry.parentInum .htreeNotMaintained)).modified
        dentry.childInum).count (countDentry tag)))
  | .skippedTargetMissing =>
    if tag = FC_TAG_UNLINK then
      -- the link count was lowered before the entry was looked for
      match ← adjustChildLinksCount ext fs tx dentry.childInum 1 with
      | .stop tx reason => .ok (.stop tx reason)
      | .next tx =>
        let (_, tx) ← tx.onMutator (pruneInodeTableBlockIfUnchanged ext fs dentry.childInum)
        .ok (.next (tx.mapBuffer fun b => (b.pushWarning position
          (.unlinkTargetMissing dentry.parentInum dentry.childInum)).count (countDentry tag)))
    else .ok (.next (tx.mapBuffer (·.count (countDentry tag))))

omit [Crc] in
/-- A dentry record that is skipped with a warning about its parent. -/
def skipDentry (tag parentInum : Nat) (reason : DirectoryReplayReason) : TxStep :=
  .next (tx.mapBuffer fun b =>
    (b.pushWarning position (.directoryReplayFailed parentInum reason)).count (countDentry tag))

/-- `prepare_dentry`, `mutate_dentry` and `finish_dentry` on an open transaction. -/
def applyDentryRecord (tag : Nat) (dentry : FcDentry) : Except ExtError TxStep := do
  if dentry.parentInum = 0 ∨ dentry.parentInum > ext.inodesCount then
    .ok (skipDentry position tx tag dentry.parentInum .parentInodeMissing)
  else
    let parent ← tx.mutator.currentInodeBytes ext fs dentry.parentInum
    if parent.le16 0 &&& S_IFMT ≠ S_IFDIR then
      .ok (skipDentry position tx tag dentry.parentInum .parentNotADirectory)
    else
      let linkDelta := if tag = FC_TAG_UNLINK then -1 else 1
      match ← adjustChildLinksCount ext fs tx dentry.childInum linkDelta with
      | .stop tx reason => .ok (.stop tx reason)
      | .next tx =>
        let parent ← tx.mutator.currentInodeBytes ext fs dentry.parentInum
        let parentIndexed := hasFlag (parent.le32 0x20) INDEX_FL
        let fileType ← dentryFileType ext fs tx.mutator tag dentry.childInum
        let (outcome, tx) ← tx.onMutator (mutateDentry ext fs tag dentry parentIndexed fileType)
        finishDentry ext fs position tx tag dentry outcome

/-- The handler of a record of an open transaction that is neither HEAD nor TAIL. -/
def applyTxRecord (r : PassRecord) : Except ExtError TxStep := do
  if r.tag = FC_TAG_PAD then .ok (.next (tx.mapBuffer (·.count countPad)))
  else if r.tag = FC_TAG_INODE then
    let inode ← decodeInode r.payload
    applyInodeRecord ext fs position tx r.valueLen inode
  else if r.tag = FC_TAG_CREAT ∨ r.tag = FC_TAG_LINK ∨ r.tag = FC_TAG_UNLINK then
    let dentry ← decodeDentry r.payload
    applyDentryRecord ext fs position tx r.tag dentry
  else if r.tag = FC_TAG_ADD_RANGE then
    let addRange ← decodeAddRange r.payload
    applyAddRangeRecord ext fs position tx addRange
  else if r.tag = FC_TAG_DEL_RANGE then
    let delRange ← decodeDelRange r.payload
    applyDelRangeRecord ext fs position tx delRange
  else .ok (.next tx)

end Handlers

/-! ### Transactions -/

def ApplyContext.stopCurrentTx (ctx : ApplyContext) (position : FastCommitPosition)
    (reason : FastCommitStopReason) : ApplyContext :=
  { ctx with
    txState := none
    plan := { ctx.plan with
      stop := some { position, lastCommittedTid := ctx.plan.lastCommittedTid, reason } } }

/-- `begin_transaction`: a fresh mutator over the composed overlay. -/
def ApplyContext.beginTransaction (ctx : ApplyContext) (head : FcHead) : ApplyContext :=
  let tx : TxState :=
    { mutator := new ctx.composedOverlay.sbHostBlockContent
      buffer := { currentTid := head.tid, tagCounts := { head := 1 } } }
  { ctx with txState := some tx }

/-- `merge_tag_counts`, which leaves out `tail`. -/
def mergeTagCounts (dst src : FastCommitTagCounts) : FastCommitTagCounts :=
  { dst with
    head := dst.head + src.head
    pad := dst.pad + src.pad
    inode := dst.inode + src.inode
    creat := dst.creat + src.creat
    link := dst.link + src.link
    unlink := dst.unlink + src.unlink
    addRange := dst.addRange + src.addRange
    delRange := dst.delRange + src.delRange }

def sameAggregationKey (a b : FastCommitWarning) : Bool :=
  match a.kind, b.kind with
  | .inodeOutOfRange x, .inodeOutOfRange y => x == y
  | .physicalBlockOutOfRange x _ _, .physicalBlockOutOfRange y _ _ => x == y
  | .logicalRangeInvalid x _ _, .logicalRangeInvalid y _ _ => x == y
  | .finalizerExtentWalkFailed x, .finalizerExtentWalkFailed y => x == y
  | .directoryReplayFailed pa ra, .directoryReplayFailed pb rb => pa == pb && ra == rb
  | .unlinkTargetMissing pa ca, .unlinkTargetMissing pb cb => pa == pb && ca == cb
  | _, _ => false

/-- Add the occurrences of `warning` to the first one with its key, if there is one. -/
def aggregateWarning (warning : FastCommitWarning) : List FastCommitWarning →
    Option (List FastCommitWarning)
  | [] => none
  | existing :: rest =>
    if sameAggregationKey existing warning then
      some ({ existing with occurrences := existing.occurrences + warning.occurrences } :: rest)
    else (aggregateWarning warning rest).map (existing :: ·)

def pushWarningCapped (plan : FastCommitPlan) (warning : FastCommitWarning) : FastCommitPlan :=
  match aggregateWarning warning plan.warnings with
  | some warnings => { plan with warnings }
  | none =>
    if plan.warnings.length ≥ WARNING_CAP then { plan with warningsTruncated := true }
    else { plan with warnings := plan.warnings ++ [warning] }

/-- The part of `commit_transaction` that merges the counters and warnings. -/
def mergeTxBuffer (plan : FastCommitPlan) (buffer : TxBuffer) : FastCommitPlan :=
  let tagCounts := mergeTagCounts plan.tagCounts buffer.tagCounts
  let plan := { plan with
    transactionsReplayed := plan.transactionsReplayed + 1
    tagCounts := { tagCounts with tail := tagCounts.tail + 1 }
    lastCommittedTid := some buffer.currentTid
    allocationUnitsMarkedFree := plan.allocationUnitsMarkedFree + buffer.allocationUnitsMarkedFree
    allocationUnitsMarkedAllocated :=
      plan.allocationUnitsMarkedAllocated + buffer.allocationUnitsMarkedAllocated }
  buffer.warnings.foldl pushWarningCapped plan

section Apply

variable [Crc] (ext : Ext) (fs : FsReader)

/-- The delta of a transaction over the overlay it ran on. -/
def TxState.finalize (tx : TxState) (overlay : BlockOverlay) : Except ExtError OrphanOverlayDelta :=
  (tx.mutator.finalize ext (composeReader fs overlay)).mapError mutatorErrorToExt

def ApplyContext.commitTransaction (ctx : ApplyContext) : Except ExtError ApplyContext := do
  match ctx.txState with
  | none => .ok ctx
  | some tx =>
    let delta ← tx.finalize ext fs ctx.composedOverlay
    .ok { composedOverlay := mergeDeltaIntoOverlay ctx.composedOverlay delta
          txState := none
          plan := mergeTxBuffer ctx.plan tx.buffer
          modifiedInodes := ctx.modifiedInodes.insertMany tx.buffer.modifiedInodes }

omit [Crc] in
/-- Outside of a transaction the records of one are decoded and then ignored, except that an
    INODE of a wrong length stops the pass. -/
def applyOutsideTx (ctx : ApplyContext) (position : FastCommitPosition) (r : PassRecord) :
    Except ExtError (Bool × ApplyContext) := do
  if r.tag = FC_TAG_INODE then
    let inode ← decodeInode r.payload
    if !(128 ≤ inode.rawInode.length && inode.rawInode.length ≤ ext.inodeSize) then
      .ok (true, ctx.stopCurrentTx position (.malformedRecord FC_TAG_INODE r.valueLen
        "inode raw_inode length out of [128, s_inode_size]"))
    else .ok (false, ctx)
  else if r.tag = FC_TAG_CREAT ∨ r.tag = FC_TAG_LINK ∨ r.tag = FC_TAG_UNLINK then
    let _ ← decodeDentry r.payload
    .ok (false, ctx)
  else if r.tag = FC_TAG_ADD_RANGE then
    let _ ← decodeAddRange r.payload
    .ok (false, ctx)
  else if r.tag = FC_TAG_DEL_RANGE then
    let _ ← decodeDelRange r.payload
    .ok (false, ctx)
  else .ok (false, ctx)

/-- `apply_record`: whether the pass stops, and the context. -/
def applyRecord (blockSize fcFirst : Nat) (ctx : ApplyContext) (r : PassRecord) :
    Except ExtError (Bool × ApplyContext) := do
  let position := positionAt r.relativeBlock r.recordOffset blockSize fcFirst
  if r.tag = FC_TAG_HEAD then
    let head ← decodeHead r.payload
    .ok (false, ctx.beginTransaction head)
  else if r.tag = FC_TAG_TAIL then
    let _ ← decodeTail r.payload
    let ctx ← ctx.commitTransaction ext fs
    .ok (false, ctx)
  else
    match ctx.txState with
    | none => applyOutsideTx ext ctx position r
    | some tx =>
      match ← applyTxRecord ext (composeReader fs ctx.composedOverlay) position tx r with
      | .next tx => .ok (false, { ctx with txState := some tx })
      | .stop _ reason => .ok (true, ctx.stopCurrentTx position reason)

/-! ### The pass -/

/-- How the loop of `apply_pass` ended. -/
inductive ApplyEnding where
  /-- `remaining` reached zero. -/
  | counted
  /-- A handler stopped the pass. -/
  | stopped
  /-- The region ended inside a record. -/
  | truncated
  /-- A handler failed, and the pass with it. -/
  | failed (error : ExtError)

structure ApplyRun where
  context : ApplyContext
  dispatched : List PassRecord
  ending : ApplyEnding

/-- The loop of `apply_pass`. A zero header outside of a transaction skips to the next block;
    a record or a skipped block takes at least four bytes, so the size of the region bounds
    the rounds. -/
def applyLoop (blockSize fcFirst : Nat) : Nat → Nat → RegionCursor → ApplyRun → ApplyRun
  | _, 0, _, run => { run with ending := .counted }
  | 0, _ + 1, _, run => { run with ending := .truncated }
  | fuel + 1, remaining + 1, cursor, run =>
    let (relativeBlock, recordOffset) := cursor.position
    match cursor.readHeader with
    | none => { run with ending := .truncated }
    | some (header, cursor) =>
      let tag := header.le16 0
      let valueLen := header.le16 2
      if tag = 0 ∧ valueLen = 0 ∧ run.context.txState.isNone then
        applyLoop blockSize fcFirst fuel (remaining + 1) cursor.advanceToNextBlock run
      else
        match cursor.readExactVec valueLen with
        | none => { run with ending := .truncated }
        | some (payload, cursor) =>
          let r : PassRecord := { relativeBlock, recordOffset, tag, valueLen, payload }
          let dispatched := run.dispatched ++ [r]
          match applyRecord ext fs blockSize fcFirst run.context r with
          | .error e => { run with dispatched, ending := .failed e }
          | .ok (true, context) => { context, dispatched, ending := .stopped }
          | .ok (false, context) =>
            applyLoop blockSize fcFirst fuel remaining cursor
              { context, dispatched, ending := run.ending }

def propagateScanStop (plan : FastCommitPlan) (scan : ScanResult) : FastCommitPlan :=
  if plan.stop.isNone then { plan with stop := scan.stop } else plan

/-- `apply_pass` before it fills in the plan. -/
def applyPassRun (overlay : BlockOverlay) (region : FcRegion) (fcFirst : Nat)
    (scan : ScanResult) : ApplyRun :=
  let context : ApplyContext :=
    { composedOverlay := overlay, txState := none, plan := {}, modifiedInodes := ∅ }
  applyLoop ext fs region.blockSize fcFirst (region.blocks.length * region.blockSize + 1)
    scan.validTagCount (RegionCursor.new region.blocks)
    { context, dispatched := [], ending := .counted }

/-- State after `apply_pass`. -/
structure ApplyState where
  plan : FastCommitPlan
  modifiedInodes : Std.TreeSet Nat
  composedOverlay : BlockOverlay

/-- `apply_pass`. -/
def applyPassFc (overlay : BlockOverlay) (region : FcRegion) (fcFirst : Nat)
    (scan : ScanResult) : Except ExtError ApplyState :=
  let run := applyPassRun ext fs overlay region fcFirst scan
  match run.ending with
  | .failed e => .error e
  | _ =>
    let plan := propagateScanStop run.context.plan scan
    .ok { plan := { plan with inodesModified := min run.context.modifiedInodes.size (2 ^ 32 - 1) }
          modifiedInodes := run.context.modifiedInodes
          composedOverlay := run.context.composedOverlay }

end Apply

end Fsmnt.FsExt
