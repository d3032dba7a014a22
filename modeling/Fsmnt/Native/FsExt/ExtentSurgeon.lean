import Fsmnt.Native.FsExt.ExtentEdit
import Fsmnt.Native.FsExt.MutatorAlloc

/-!
# Extent-tree surgery

`journal/fast_commit/extents/mod.rs` and `grow.rs`: `ADD_RANGE` and `DEL_RANGE` on the extent
tree of an inode, whose nodes are read through the mutator and patched in it.

The methods that only read (`find_target_leaf`, `read_child_node`, `delete_node`,
`collect_data_ranges_and_logical_end`) are functions of the mutator. Trees are at most five
levels deep; the recursions count the levels left.
-/

namespace Fsmnt.FsExt

/-- Outcome of `add_range` or `del_range`. -/
inductive ExtentSurgeryOutcome where
  | applied
  | requiresMetadataAllocation
  | appliedNeedsShrink (endBlockExclusive : Nat)
  | logicalRangeInvalid (lblk len : Nat)
  | failed (reason : ExtentReplayReason)
  deriving Repr, DecidableEq

structure ExtentSurgeon where
  mutator : Mutator
  allocationUnitsFreed : Nat := 0
  allocationUnitsAllocated : Nat := 0

/-- A method of the surgeon that returns a `Result`. -/
abbrev SurgeonM := EStateM ExtError ExtentSurgeon

def mutatorErrorToExt : MutatorError → ExtError
  | .ext err => err
  | .bigallocClusterOverlap inode _ _ _ => .invalidExtentHeader inode

/-- A mutator call with `.map_err(mutator_error_to_ext)?`. -/
def SurgeonM.onMutator {α : Type} (x : MutatorM α) : SurgeonM α := fun s =>
  match x s.mutator with
  | .ok a mutator => .ok a { s with mutator }
  | .error e mutator => .error (mutatorErrorToExt e) { s with mutator }

/-- `?` on a result that does not touch the surgeon. -/
def SurgeonM.ofExcept {α : Type} : Except ExtError α → SurgeonM α
  | .ok a => pure a
  | .error e => throw e

def structuralErrorToOutcome : ExtError → Except ExtError ExtentSurgeryOutcome
  | .invalidExtentHeader _ => .ok (.failed .extentHeaderMalformed)
  | err => .error err

def surgeryErrorToOutcome : SurgeryError → Except ExtError ExtentSurgeryOutcome
  | .failed reason => .ok (.failed reason)
  | .requiresMetadataAllocation => .ok .requiresMetadataAllocation
  | .ext err => structuralErrorToOutcome err

inductive LeafLocation where
  | inlineRoot
  | externalBlock (block : Nat)
  deriving Repr, DecidableEq

structure AncestorNode where
  location : LeafLocation
  bytes : Bytes
  childIndex : Nat
  deriving Repr, DecidableEq

structure LeafTarget where
  location : LeafLocation
  bytes : Bytes
  ancestors : List AncestorNode
  successorLogicalBound : Option Nat
  deriving Repr, DecidableEq

namespace ExtentSurgeon

variable [Crc] (ext : Ext) (fs : FsReader)

/-! ### Reading the tree -/

variable (inum generation : Nat)

def verifyExtentBlockChecksum (bytes : Bytes) : Except SurgeryError Unit :=
  match ext.checksumSeed with
  | none => .ok ()
  | some seed =>
    if verifyExtentBlock seed inum generation bytes = .valid then .ok ()
    else .error (.failed .extentBlockChecksumInvalid)

/-- `read_child_node`, which `find_target_leaf` repeats. -/
def readChildNode (m : Mutator) (inum generation child expectedDepth : Nat) :
    Except SurgeryError Bytes := do
  if child ≥ ext.blocksCount then .error (.failed .siblingBlockOutOfRange)
  else
    let (bytes, fromScratch) ← (m.currentBlockBytes ext fs child).mapError .ext
    if !fromScratch then verifyExtentBlockChecksum ext inum generation bytes
    let hdr ← (validHeader bytes inum).mapError .ext
    if hdr.ehDepth ≠ expectedDepth then .error (.ext (.invalidExtentHeader inum))
    else .ok bytes

/-- The loop of `find_target_leaf`, with `levels` index nodes still allowed. -/
def findTargetLeafLoop (m : Mutator) (inum generation logicalBlock : Nat) :
    Nat → Bytes → LeafLocation → List AncestorNode → Option Nat →
    Except SurgeryError LeafTarget
  | levels, bytes, location, ancestors, bound => do
    let hdr ← (validHeader bytes inum).mapError .ext
    if hdr.ehDepth = 0 then
      .ok { location, bytes, ancestors, successorLogicalBound := bound }
    else
      (validateIndexOrder bytes hdr.ehEntries inum).mapError .ext
      match levels with
      | 0 => .error (.ext (.invalidExtentHeader inum))
      | levels + 1 =>
        let (childIndex, child) ←
          (chooseChildEntry bytes hdr.ehEntries inum logicalBlock).mapError .ext
        let bound ←
          if child ≥ ext.blocksCount then .error (.failed .siblingBlockOutOfRange)
          else if childIndex + 1 < hdr.ehEntries then do
            let next ← (readIndexRecord bytes (childIndex + 1) inum).mapError .ext
            .ok (some (bound.elim next.logical fun bound => min bound next.logical))
          else .ok bound
        let childBytes ← readChildNode ext fs m inum generation child (hdr.ehDepth - 1)
        findTargetLeafLoop m inum generation logicalBlock levels childBytes
          (.externalBlock child) (ancestors ++ [{ location, bytes, childIndex }]) bound

/-- `find_target_leaf`: the leaf that covers `logicalBlock` and the path to it. -/
def findTargetLeaf (m : Mutator) (inum generation : Nat) (root : Bytes) (logicalBlock : Nat) :
    Except SurgeryError LeafTarget :=
  findTargetLeafLoop ext fs m inum generation logicalBlock MAX_EXTENT_DEPTH root .inlineRoot [] none

/-! ### Patching nodes -/

def patchNode (location : LeafLocation) (bytes : Bytes) : SurgeonM Unit :=
  match location with
  | .inlineRoot =>
    if bytes.length ≠ 60 then throw (.invalidExtentHeader inum)
    else .onMutator (Mutator.patchInodeScratch ext fs inum fun inode =>
      .ok (inode.splice 0x28 bytes))
  | .externalBlock block =>
    .onMutator (Mutator.patchExtentBlock ext fs block inum generation fun content =>
      if content.length ≠ bytes.length then .error (.ext (.invalidExtentHeader inum))
      else .ok bytes)

/-- The loop of `patch_parent_index_keys`, the lowest ancestor first. -/
def patchParentIndexKeys (inum generation newChildFirstLogical : Nat) :
    List AncestorNode → SurgeonM Unit
  | [] => pure ()
  | ancestor :: rest => do
    let record ← .ofExcept (readIndexRecord ancestor.bytes ancestor.childIndex inum)
    if record.logical = newChildFirstLogical then pure ()
    else
      let patched ← .ofExcept
        (writeIndexLogical ancestor.bytes ancestor.childIndex newChildFirstLogical inum)
      patchNode ext fs inum generation ancestor.location patched
      if ancestor.childIndex ≠ 0 then pure ()
      else patchParentIndexKeys inum generation newChildFirstLogical rest

/-! ### Growing the tree -/

inductive GrowResult where
  | grown
  | halt (outcome : ExtentSurgeryOutcome)
  deriving Repr, DecidableEq

def allocateGrowBlock : SurgeonM Nat := do
  let block ← .onMutator (Mutator.allocateMetadataBlock ext fs inum)
  modify fun s => { s with allocationUnitsAllocated := s.allocationUnitsAllocated + 1 }
  pure block

/-- `.first().map(|record| record.logical).ok_or(..)`. -/
def firstKey (keys : List Nat) : SurgeonM Nat :=
  match keys with
  | [] => throw (.invalidExtentHeader inum)
  | key :: _ => pure key

/-- `grow_root_leaf`: the records move to a new external leaf. -/
def growRootLeaf (root : Bytes) : SurgeonM GrowResult := do
  let records ← .ofExcept (nodeLeafRecords root inum)
  let firstLogical ← firstKey inum (records.map (·.logical))
  let newBlock ← allocateGrowBlock ext fs inum
  let leafBytes ← .ofExcept (buildLeafBlock ext records generation inum)
  patchNode ext fs inum generation (.externalBlock newBlock) leafBytes
  let newRoot ← .ofExcept
    (buildInlineIndexRoot root [{ logical := firstLogical, child := newBlock }] inum)
  patchNode ext fs inum generation .inlineRoot newRoot
  pure .grown

/-- `grow_root_index`: the overflowing root moves to a new external node. -/
def growRootIndex (root : Bytes) (records : List IndexRecord) : SurgeonM GrowResult := do
  let rootHdr ← .ofExcept (checkedHeader root inum)
  let newDepth := rootHdr.ehDepth
  if newDepth ≥ MAX_EXTENT_DEPTH then pure (.halt .requiresMetadataAllocation)
  else
    let firstLogical ← firstKey inum (records.map (·.logical))
    let newBlock ← allocateGrowBlock ext fs inum
    let childBytes ← .ofExcept (buildIndexBlock ext records rootHdr.ehDepth generation inum)
    patchNode ext fs inum generation (.externalBlock newBlock) childBytes
    let newRoot ← .ofExcept (buildInlineIndexRootAtDepth root
      [{ logical := firstLogical, child := newBlock }] (newDepth + 1) inum)
    patchNode ext fs inum generation .inlineRoot newRoot
    pure .grown

/-- `split_index_node` without the recursion: the entry for the new node. -/
def splitIndexNode (nodeBlock : Nat) (nodeBytes : Bytes)
    (records : List IndexRecord) : SurgeonM IndexRecord := do
  let hdr ← .ofExcept (checkedHeader nodeBytes inum)
  let mid := records.length / 2
  let low := records.take mid
  let high := records.drop mid
  let highFirst ← firstKey inum (high.map (·.logical))
  let newBlock ← allocateGrowBlock ext fs inum
  let lowBytes ← .ofExcept (rewriteNodeIndex nodeBytes low inum)
  patchNode ext fs inum generation (.externalBlock nodeBlock) lowBytes
  let highBytes ← .ofExcept (buildIndexBlock ext high hdr.ehDepth generation inum)
  patchNode ext fs inum generation (.externalBlock newBlock) highBytes
  pure { logical := highFirst, child := newBlock }

/-- `insert_index_entry` and the recursion of `split_index_node`, over the ancestors from the
    lowest to the root. -/
def insertIndexEntry (inum generation : Nat) : List AncestorNode → IndexRecord → SurgeonM GrowResult
  | [], _ => throw (.invalidExtentHeader inum)
  | ancestor :: rest, newEntry => do
    let records ← .ofExcept (nodeIndexRecords ancestor.bytes inum)
    let hdr ← .ofExcept (checkedHeader ancestor.bytes inum)
    let records ← .ofExcept (insertIndexRecordSorted inum newEntry records)
    if records.length ≤ hdr.ehMax then
      let patched ← .ofExcept (rewriteNodeIndex ancestor.bytes records inum)
      patchNode ext fs inum generation ancestor.location patched
      pure .grown
    else
      match ancestor.location with
      | .inlineRoot => growRootIndex ext fs inum generation ancestor.bytes records
      | .externalBlock block =>
        let entry ← splitIndexNode ext fs inum generation block ancestor.bytes records
        insertIndexEntry inum generation rest entry

def splitLeafAndPropagate (leafBlock : Nat) (target : LeafTarget) : SurgeonM GrowResult := do
  let records ← .ofExcept (nodeLeafRecords target.bytes inum)
  let mid := records.length / 2
  let low := records.take mid
  let high := records.drop mid
  let highFirst ← firstKey inum (high.map (·.logical))
  let newBlock ← allocateGrowBlock ext fs inum
  let lowBytes ← .ofExcept (rewriteNodeLeaf target.bytes low inum)
  patchNode ext fs inum generation (.externalBlock leafBlock) lowBytes
  let highBytes ← .ofExcept (buildLeafBlock ext high generation inum)
  patchNode ext fs inum generation (.externalBlock newBlock) highBytes
  insertIndexEntry ext fs inum generation target.ancestors.reverse
    { logical := highFirst, child := newBlock }

def growForAdd (iBlock : Bytes) (logicalBlock : Nat) : SurgeonM GrowResult := do
  match findTargetLeaf ext fs (← get).mutator inum generation iBlock logicalBlock with
  | .error err => return .halt (← .ofExcept (surgeryErrorToOutcome err))
  | .ok target =>
    match target.location with
    | .inlineRoot => growRootLeaf ext fs inum generation target.bytes
    | .externalBlock block => splitLeafAndPropagate ext fs inum generation block target

end ExtentSurgeon

end Fsmnt.FsExt
