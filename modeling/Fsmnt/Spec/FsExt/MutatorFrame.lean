import Fsmnt.ForStd.EStateM
import Fsmnt.Native.FsExt.FastCommitReplay

/-!
# What an operation can do to the mutator

Extent surgery and directory surgery change the mutator through a few operations only: a block
is patched, an inode-table block is pruned, a range of blocks is marked, a metadata block is
allocated. A relation between mutators that these keep to is kept to by every record of a
fast commit and by its last pass.
-/

namespace Fsmnt.FsExt

open Except Mutator ExtentSurgeon HtreeSurgeon
open EStateM (Keeps StepRel)

/-- A relation that the primitive operations of the mutator keep to. -/
structure Frame (ext : Ext) (fs : FsReader) (R : Mutator → Mutator → Prop) : Prop
    extends StepRel R where
  patch : ∀ block cls f, Keeps R (patchBlock ext fs block cls f)
  mutated : ∀ (m : Mutator) block inum, R m (m.modifyBlock block fun s =>
    { s with mutatedInodes := s.mutatedInodes.insert inum })
  prune : ∀ inum, Keeps R (pruneInodeTableBlockIfUnchanged ext fs inum)
  mark : ∀ pblk len alloc, Keeps R (markBlockRangeState ext fs pblk len alloc)
  allocate : ∀ inum, Keeps R (allocateMetadataBlock ext fs inum)
  map : ∀ (m : Mutator) pblk len, R m (m.note (.map pblk len))

namespace Frame

variable {ext : Ext} {fs : FsReader} {R : Mutator → Mutator → Prop} {α β : Type}
  {inum physical childInum generation parentInum len : Nat} {parent dir : CurrentDirInode}
  {name bytes root iBlock : Bytes} {fileType : UInt8} {logicals : List Nat}
  {ancestors : List AncestorNode} {records : List IndexRecord} {target : LeafTarget}
  {free : Option (Nat × Nat)} {old : Option Nat} {extent : RawExtent} {edit : DeleteNodeEdit}
  {probe : DxProbe}
  (h : Frame ext fs R) {x : Except ExtError α}

include h

/-- A check changes nothing. -/
theorem ofExcept (x : Except ExtError α) : Keeps R (MutatorM.ofExcept x) := by
  cases x with
  | ok a => exact h.pure a
  | error e => exact h.throw _

/-- A check in front of a computation. -/
theorem except_bind {f : α → MutatorM β} (hf : ∀ a, Keeps R (f a)) :
    Keeps R (MutatorM.ofExcept x >>= f) := h.bind (h.ofExcept x) hf

/-- What is computed from the mutator does not change it. -/
theorem read_bind {x : Mutator → Except ExtError α} {f : Mutator → α → MutatorM β}
    (hf : ∀ m a, Keeps R (f m a)) : Keeps R (get >>= fun m => MutatorM.ofExcept (x m) >>= f m) :=
  .get_bind fun m => h.except_bind (hf m)

/-! ### Inodes -/

/-- A patched inode: its block of the table, and the note of it. -/
theorem patchInodeScratch {f : Bytes → Except MutatorError Bytes} :
    Keeps R (patchInodeScratch ext fs inum f) := by
  refine h.except_bind fun _ => ?_
  exact h.bind (h.patch _ _ _) fun _ => Keeps.modify fun m => h.mutated m _ _

/-- Nothing but the inode is patched. -/
theorem adjustInodeLinksCount {delta : Int} :
    Keeps R (adjustInodeLinksCount ext fs inum delta) := by
  refine h.read_bind fun m inode => ?_
  dsimp only
  split
  · exact h.pure _
  · split
    · exact h.pure _
    · exact h.bind_pure h.patchInodeScratch

/-- A directory block is patched whole. -/
theorem writeDirBlock : Keeps R (writeDirBlock ext fs inum physical bytes) := by
  unfold Mutator.writeDirBlock patchDirectoryBlock
  exact h.patch _ _ _

/-! ### Extent trees -/

/-- The relation between the mutators of two surgeons. -/
def Surgery (R : Mutator → Mutator → Prop) (s t : ExtentSurgeon) : Prop := R s.mutator t.mutator

/-- A surgeon steps as its mutator does. -/
theorem surgery : StepRel (Surgery R) where
  refl s := h.refl s.mutator
  trans h₁ h₂ := h.trans h₁ h₂

/-- A check of the surgeon changes nothing. -/
theorem surgeonOfExcept (x : Except ExtError α) : Keeps (Surgery R) (SurgeonM.ofExcept x) := by
  cases x with
  | ok a => exact h.surgery.pure a
  | error e => exact h.surgery.throw _

/-- A check in front of a computation of the surgeon. -/
theorem surgeon_bind {f : α → SurgeonM β} (hf : ∀ a, Keeps (Surgery R) (f a)) :
    Keeps (Surgery R) (SurgeonM.ofExcept x >>= f) :=
  h.surgery.bind (h.surgeonOfExcept x) hf

/-- What is computed from the surgeon does not change it. -/
theorem surgeon_read {x : ExtentSurgeon → Except ExtError α}
    {f : ExtentSurgeon → α → SurgeonM β} (hf : ∀ s a, Keeps (Surgery R) (f s a)) :
    Keeps (Surgery R) (get >>= fun s => SurgeonM.ofExcept (x s) >>= f s) :=
  .get_bind fun s => h.surgeon_bind (hf s)

omit h in
/-- Operations of the mutator become operations of the surgeon. -/
theorem onMutator {x : MutatorM α} (hx : Keeps R x) : Keeps (Surgery R) (SurgeonM.onMutator x) := by
  intro s
  have hs := hx s.mutator
  unfold SurgeonM.onMutator
  cases hrun : x s.mutator with
  | ok a m | error e m => rw [hrun] at hs; exact hs

/-- The counters of the surgeon are not part of the mutator. -/
theorem countUnits {f : ExtentSurgeon → ExtentSurgeon} (hf : ∀ s, (f s).mutator = s.mutator) :
    Keeps (Surgery R) (modify f : SurgeonM PUnit) := by
  refine Keeps.modify fun s => ?_
  show R s.mutator (f s).mutator
  rw [hf s]
  exact h.refl _

/-- A node is in the inode or in a block of its own. -/
theorem patchNode {location : LeafLocation} :
    Keeps (Surgery R) (patchNode ext fs inum generation location bytes) := by
  cases location with
  | inlineRoot =>
    rw [ExtentSurgeon.patchNode]
    split
    · exact h.surgery.throw _
    · exact onMutator h.patchInodeScratch
  | externalBlock block => exact onMutator (h.patch _ _ _)

/-- One patch for each ancestor, up to the first whose key stays. -/
theorem patchParentIndexKeys {key : Nat} :
    Keeps (Surgery R) (patchParentIndexKeys ext fs inum generation key ancestors) := by
  induction ancestors with
  | nil => exact h.surgery.pure _
  | cons ancestor rest ih =>
    refine h.surgeon_bind fun record => ?_
    split
    · exact h.surgery.pure _
    refine h.surgeon_bind fun patched => ?_
    refine h.surgery.bind h.patchNode fun _ => ?_
    split
    · exact h.surgery.pure _
    · exact ih

/-- A block for a new node is allocated and counted. -/
theorem allocateGrowBlock : Keeps (Surgery R) (allocateGrowBlock ext fs inum) := by
  refine h.surgery.bind (onMutator (h.allocate _)) fun block => ?_
  exact h.surgery.bind_pure (h.countUnits fun _ => rfl)

/-- The first key is only looked at. -/
theorem firstKey {keys : List Nat} : Keeps (Surgery R) (firstKey inum keys) := by
  cases keys with
  | nil => exact h.surgery.throw _
  | cons key _ => exact h.surgery.pure _

/-- The extents of the root go to a new leaf, and the root becomes an index. -/
theorem growRootLeaf : Keeps (Surgery R) (growRootLeaf ext fs inum generation root) := by
  refine h.surgeon_bind fun records => ?_
  refine h.surgery.bind h.firstKey fun firstLogical => ?_
  refine h.surgery.bind h.allocateGrowBlock fun newBlock => ?_
  refine h.surgeon_bind fun leafBytes => ?_
  refine h.surgery.bind h.patchNode fun _ => ?_
  refine h.surgeon_bind fun newRoot => ?_
  exact h.surgery.bind_pure h.patchNode

/-- The same for a root that is an index already. -/
theorem growRootIndex : Keeps (Surgery R) (growRootIndex ext fs inum generation root records) := by
  refine h.surgeon_bind fun hdr => ?_
  dsimp only
  split
  · exact h.surgery.pure _
  refine h.surgery.bind h.firstKey fun firstLogical => ?_
  refine h.surgery.bind h.allocateGrowBlock fun newBlock => ?_
  refine h.surgeon_bind fun childBytes => ?_
  refine h.surgery.bind h.patchNode fun _ => ?_
  refine h.surgeon_bind fun newRoot => ?_
  exact h.surgery.bind_pure h.patchNode

/-- Half of the records go to a new node. -/
theorem splitIndexNode {nodeBlock : Nat} :
    Keeps (Surgery R) (splitIndexNode ext fs inum generation nodeBlock bytes records) := by
  refine h.surgeon_bind fun hdr => ?_
  refine h.surgery.bind h.firstKey fun highFirst => ?_
  refine h.surgery.bind h.allocateGrowBlock fun newBlock => ?_
  refine h.surgeon_bind fun lowBytes => ?_
  refine h.surgery.bind h.patchNode fun _ => ?_
  refine h.surgeon_bind fun highBytes => ?_
  exact h.surgery.bind_pure h.patchNode

/-- The entry goes into the nearest ancestor; a full one is split, and the next one up gets an entry
    in turn. -/
theorem insertIndexEntry {entry : IndexRecord} :
    Keeps (Surgery R) (insertIndexEntry ext fs inum generation ancestors entry) := by
  induction ancestors generalizing entry with
  | nil => exact h.surgery.throw _
  | cons ancestor rest ih =>
    refine h.surgeon_bind fun records => ?_
    refine h.surgeon_bind fun hdr => ?_
    refine h.surgeon_bind fun records => ?_
    split
    · refine h.surgeon_bind fun patched => ?_
      exact h.surgery.bind_pure h.patchNode
    · split
      · exact h.growRootIndex
      · exact h.surgery.bind h.splitIndexNode fun _ => ih

/-- A leaf is split, and its ancestors get the entry of the new one. -/
theorem splitLeafAndPropagate {leafBlock : Nat} :
    Keeps (Surgery R) (splitLeafAndPropagate ext fs inum generation leafBlock target) := by
  refine h.surgeon_bind fun records => ?_
  refine h.surgery.bind h.firstKey fun highFirst => ?_
  refine h.surgery.bind h.allocateGrowBlock fun newBlock => ?_
  refine h.surgeon_bind fun lowBytes => ?_
  refine h.surgery.bind h.patchNode fun _ => ?_
  refine h.surgeon_bind fun highBytes => ?_
  exact h.surgery.bind h.patchNode fun _ => h.insertIndexEntry

/-- Freeing marks the range. -/
theorem freeRange {pblk : Nat} : Keeps R (markBlockRangeFree ext fs pblk len) := h.mark _ _ _

/-- The blocks that an extent gives up are freed and counted. -/
theorem freeOldPhysical : Keeps (Surgery R) (freeOldPhysical ext fs free) := by
  cases free with
  | none => exact h.surgery.pure _
  | some range =>
    exact h.surgery.bind (onMutator h.freeRange) fun _ => h.countUnits fun _ => rfl

/-- The keys above a leaf follow its first key. -/
theorem renewParentKeys {new : Option Nat} :
    Keeps (Surgery R) (renewParentKeys ext fs inum generation target old new) := by
  unfold ExtentSurgeon.renewParentKeys
  split
  · split
    · exact h.surgery.throw _
    · exact h.patchParentIndexKeys
  · exact h.surgery.pure _

/-- Blocks are freed, the leaf is written, and the keys above it follow. -/
theorem applyLeafPatch : Keeps (Surgery R) (applyLeafPatch ext fs inum generation target old bytes
      free) := by
  refine h.surgery.bind h.freeOldPhysical fun _ => ?_
  refine h.surgeon_bind fun new => ?_
  refine h.surgery.bind h.patchNode fun _ => ?_
  exact h.surgery.bind_pure h.renewParentKeys

/-- Each planned range is freed and counted. -/
theorem freeRanges {frees : List PlannedFree} : Keeps (Surgery R) (freeRanges ext fs frees) := by
  induction frees with
  | nil => exact h.surgery.pure _
  | cons free rest ih =>
    refine h.surgery.bind (onMutator h.freeRange) fun _ => ?_
    exact h.surgery.bind (h.countUnits fun _ => rfl) fun _ => ih

/-- Each planned node is written. -/
theorem patchNodes {patches : List (Nat × Bytes)} :
    Keeps (Surgery R) (patchNodes ext fs inum generation patches) := by
  induction patches with
  | nil => exact h.surgery.pure _
  | cons patch rest ih => exact h.surgery.bind h.patchNode fun _ => ih

/-- The root is written if the plan has one. -/
theorem patchRoot : Keeps (Surgery R) (patchRoot ext fs inum generation edit) := by
  unfold ExtentSurgeon.patchRoot
  split
  · split
    · exact h.surgery.throw _
    · exact h.patchNode
  · exact h.surgery.pure _

/-- A planned deletion: first the ranges, then the nodes, then the root. -/
theorem applyDeleteEdit : Keeps (Surgery R) (applyDeleteEdit ext fs inum generation edit) := by
  unfold ExtentSurgeon.applyDeleteEdit
  split
  · exact h.surgeonOfExcept _
  split
  · exact h.surgery.pure _
  · refine h.surgery.bind h.freeRanges fun _ => ?_
    refine h.surgery.bind h.patchNodes fun _ => ?_
    exact h.surgery.bind_pure h.patchRoot

/-- The size of the inode is cut. -/
theorem shrinkInode {endBlock : Nat} : Keeps (Surgery R) (shrinkInode ext fs inum endBlock) := by
  refine h.surgeon_read fun s inode => ?_
  split
  · exact h.surgery.throw _
  · split
    · exact h.surgery.pure _
    · exact onMutator h.patchInodeScratch

variable [Crc]

/-- A full leaf makes the tree grow: from the root, or by a split. -/
theorem growForAdd {logicalBlock : Nat} :
    Keeps (Surgery R) (growForAdd ext fs inum generation iBlock logicalBlock) := by
  refine .get_bind fun s => ?_
  split
  · exact h.surgery.bind_pure (h.surgeonOfExcept _)
  · split
    · exact h.growRootLeaf
    · exact h.splitLeafAndPropagate

/-- Without room nothing is changed. -/
theorem tryAddRangeInPlace {blocksPerCluster : Nat} :
    Keeps (Surgery R) (tryAddRangeInPlace ext fs inum generation iBlock extent
      blocksPerCluster) := by
  have houtcome : ∀ x : Except ExtError ExtentSurgeryOutcome, Keeps (Surgery R) (do
      return ExtentSurgeon.InPlaceAdd.done (← SurgeonM.ofExcept x)) :=
    fun x => h.surgery.bind (h.surgeonOfExcept x) fun _ => h.surgery.pure _
  refine .get_bind fun s => ?_
  split
  · exact houtcome _
  split
  · exact houtcome _
  split
  · exact houtcome _
  · exact h.surgery.pure _
  · exact h.surgery.pure _
  · exact h.surgery.pure _
  · exact h.applyLeafPatch

/-- A range is added in place, or after the tree has grown once. -/
theorem addRange : Keeps (Surgery R) (addRange ext fs inum extent) := by
  unfold ExtentSurgeon.addRange
  dsimp only
  split
  · exact h.surgery.pure _
  split
  · exact h.surgeonOfExcept _
  refine h.surgeon_bind fun _ => ?_
  refine h.surgeon_read fun s inode => ?_
  split
  · exact h.surgery.throw _
  refine h.surgery.bind h.tryAddRangeInPlace fun first => ?_
  split
  · exact h.surgery.pure _
  refine h.surgery.bind h.growForAdd fun result => ?_
  split
  · exact h.surgery.pure _
  · refine h.surgeon_read fun s inode => ?_
    refine h.surgery.bind h.tryAddRangeInPlace fun second => ?_
    split <;> exact h.surgery.pure _

/-- The second attempt at a deletion. -/
theorem delRangeAfterGrow {range : LogicalDeleteRange} :
    Keeps (Surgery R) (delRangeAfterGrow ext fs inum generation range) := by
  refine h.surgeon_read fun s inode => ?_
  split
  · exact h.surgery.throw _
  split
  · exact h.applyDeleteEdit
  · exact h.surgery.pure _
  · exact h.surgeonOfExcept _

/-- A deletion that needs room lets the tree grow first. -/
theorem delRange {start stop : Nat} : Keeps (Surgery R) (delRange ext fs inum start stop) := by
  unfold ExtentSurgeon.delRange
  split
  · exact h.surgery.pure _
  refine h.surgeon_read fun s inode => ?_
  split
  · exact h.surgery.throw _
  dsimp only
  split
  · exact h.applyDeleteEdit
  · refine h.surgery.bind h.growForAdd fun result => ?_
    split
    · exact h.surgery.pure _
    · exact h.delRangeAfterGrow
  · exact h.surgeonOfExcept _

/-! ### Directories -/

/-- The slot of a new entry is written. -/
theorem appendToBlock {slot : DirAppendSlot} :
    Keeps R (appendToBlock ext fs parent physical childInum name fileType slot) := by
  unfold Mutator.appendToBlock patchDirectoryBlock
  exact h.patch _ _ _

/-- The slot of a removed entry is written. -/
theorem removeFromBlock {slot : DirRemoveSlot} :
    Keeps R (removeFromBlock ext fs inum generation physical slot) := by
  unfold Mutator.removeFromBlock patchDirectoryBlock
  exact h.patch _ _ _

/-- The first block with room gets the entry. -/
theorem dirAppendLoop : Keeps R (dirAppendLoop ext fs parent childInum name fileType logicals) := by
  induction logicals with
  | nil => exact h.throw _
  | cons logical rest ih =>
    rw [Mutator.dirAppendLoop]
    split
    · exact h.throw _
    refine h.except_bind fun physical => ?_
    refine h.read_bind fun m block => ?_
    refine h.except_bind fun _ => ?_
    refine h.except_bind fun slot => ?_
    split
    · exact ih
    · exact h.bind_pure h.appendToBlock

/-- An entry of a linear directory. -/
theorem dirAppendEntry : Keeps R (dirAppendEntry ext fs parentInum childInum name fileType) := by
  refine h.read_bind fun m parent => ?_
  split
  · exact h.pure _
  · exact h.dirAppendLoop

/-- The first block that has the entry loses it. -/
theorem dirRemoveLoop : Keeps R (dirRemoveLoop ext fs parent childInum name logicals) := by
  induction logicals with
  | nil => exact h.pure _
  | cons logical rest ih =>
    rw [Mutator.dirRemoveLoop]
    split
    · exact h.throw _
    refine h.except_bind fun physical => ?_
    refine h.read_bind fun m block => ?_
    refine h.except_bind fun _ => ?_
    refine h.except_bind fun slot => ?_
    split
    · exact ih
    · exact h.bind_pure h.removeFromBlock

/-- An entry of a linear directory is removed. -/
theorem dirRemoveEntry : Keeps R (dirRemoveEntry ext fs parentInum childInum name) := by
  refine h.read_bind fun m parent => ?_
  split
  · exact h.pure _
  · exact h.dirRemoveLoop

/-- A leaf of an indexed directory gets the entry if it has room. -/
theorem dirLeafAppend : Keeps R (dirLeafAppend ext fs parent childInum name fileType physical) := by
  refine h.read_bind fun m block => ?_
  refine h.except_bind fun _ => ?_
  refine h.except_bind fun slot => ?_
  split
  · exact h.pure _
  · exact h.bind_pure h.appendToBlock

/-- A leaf of an indexed directory loses the entry. -/
theorem dirLeafRemove :
    Keeps R (dirLeafRemove ext fs parentInum generation childInum name physical) := by
  refine h.read_bind fun m block => ?_
  refine h.except_bind fun _ => ?_
  refine h.except_bind fun slot => ?_
  split
  · exact h.pure _
  · exact h.bind_pure h.removeFromBlock

/-! ### Indexed directories -/

omit h [Crc] in
/-- A surgeon over the mutator, for as long as it is needed. -/
theorem withSurgeon {x : SurgeonM α} (hx : Keeps (Surgery R) x) : Keeps R (withSurgeon x) := by
  intro m
  have hm := hx { mutator := m }
  unfold HtreeSurgeon.withSurgeon
  cases hrun : x { mutator := m } with
  | ok a s | error e s => rw [hrun] at hm; exact hm

/-- A node of the index is a directory block. -/
theorem writeDxNode {node : DxPathNode} {count : Nat} :
    Keeps R (writeDxNode ext fs dir node bytes count) := h.writeDirBlock

/-- The index gets an entry if it has room. -/
theorem insertDxEntry {parent : DxPathNode} {boundaryHash : UInt32} {newLogical : Nat} :
    Keeps R (insertDxEntry ext fs dir parent boundaryHash newLogical) := by
  unfold HtreeSurgeon.insertDxEntry
  dsimp only
  split
  · exact h.throw _
  · exact h.writeDxNode

/-- The index loses the entry of an empty leaf. -/
theorem pruneEmptyLeaf : Keeps R (pruneEmptyLeaf ext fs dir probe) := by
  refine h.read_bind fun m leaf => ?_
  refine h.except_bind fun entries => ?_
  dsimp only
  split
  · exact h.pure _
  · exact h.writeDxNode

/-- A block is allocated, mapped, and counted in the size of the directory. -/
theorem appendDirBlock : Keeps R (appendDirBlock ext fs dir) := by
  unfold HtreeSurgeon.appendDirBlock
  dsimp only
  split
  · exact h.throw _
  refine h.bind (h.allocate _) fun newPhysical => ?_
  refine h.bind (withSurgeon h.addRange) fun outcome => ?_
  split
  · split
    · exact h.throw _
    · exact h.bind_pure h.patchInodeScratch
  · exact h.throw _

/-- Half of a leaf moves to a new block, and the index gets an entry. -/
theorem splitLeafAndInsert :
    Keeps R (splitLeafAndInsert ext fs dir probe childInum name fileType) := by
  unfold HtreeSurgeon.splitLeafAndInsert
  dsimp only
  split
  · exact h.pure _
  refine h.read_bind fun m leaf => ?_
  refine h.read_bind fun m split => ?_
  refine h.bind h.appendDirBlock fun block => ?_
  refine h.except_bind fun low => ?_
  refine h.except_bind fun high => ?_
  refine h.except_bind fun target => ?_
  refine h.bind h.writeDirBlock fun _ => ?_
  refine h.bind h.writeDirBlock fun _ => ?_
  exact h.bind_pure h.insertDxEntry

/-- An entry of an indexed directory; a full leaf is split. -/
theorem addEntry : Keeps R (addEntry ext fs parentInum childInum name fileType) := by
  refine h.read_bind fun m parent => ?_
  split
  · exact h.pure _
  refine h.read_bind fun m probe => ?_
  refine h.bind h.dirLeafAppend fun done => ?_
  split
  · exact h.pure _
  · exact h.splitLeafAndInsert

/-- An entry of an indexed directory is removed, and the leaf with it if it is empty. -/
theorem removeEntry : Keeps R (removeEntry ext fs parentInum childInum name) := by
  refine h.read_bind fun m parent => ?_
  split
  · exact h.pure _
  refine h.read_bind fun m probe => ?_
  refine h.bind h.dirLeafRemove fun done => ?_
  split
  · exact h.bind_pure h.pruneEmptyLeaf
  · exact h.pure _

/-- The four ways to change a directory. -/
theorem mutateDentry {tag : Nat} {dentry : FcDentry} {indexed : Bool} :
    Keeps R (FsExt.mutateDentry ext fs tag dentry indexed fileType) := by
  unfold FsExt.mutateDentry
  split
  · split
    · exact h.removeEntry
    · exact h.addEntry
  · split
    · exact h.dirRemoveEntry
    · exact h.dirAppendEntry

end Frame

/-! ### Records -/

/-- The transaction that a handler leaves. -/
def TxStep.tx : TxStep → TxState
  | .next tx => tx
  | .stop tx _ => tx

namespace Frame

variable {ext : Ext} {fs : FsReader} {R : Mutator → Mutator → Prop} {α : Type}
  {position : FastCommitPosition} {tx : TxState} {step : TxStep} (h : Frame ext fs R)
  {dentry : FcDentry} {tag : Nat}

include h

/-- A handler that leaves the mutator as it is. -/
theorem unchanged {s : TxStep} (hrun : (ok s : Except ExtError TxStep) = .ok step)
    (hs : s.tx.mutator = tx.mutator) : R tx.mutator step.tx.mutator := by
  injection hrun with hrun
  rw [← hrun, hs]
  exact h.refl _

omit h in
/-- A handler that runs an operation of the mutator. -/
theorem txOnMutator {x : MutatorM α} {a : α} {tx' : TxState} (hx : Keeps R x)
    (hrun : tx.onMutator x = .ok (a, tx')) : R tx.mutator tx'.mutator := by
  unfold TxState.onMutator at hrun
  split at hrun
  · rename_i b m hok
    injection hrun with hrun
    injection hrun with _ htx
    rw [← htx]
    exact hx.of_ok hok
  · cases hrun

/-- An INODE record patches the inode. -/
theorem applyInodeRecord {valueLen : Nat} {inode : FcInode}
    (hrun : FsExt.applyInodeRecord ext fs position tx valueLen inode = .ok step) :
    R tx.mutator step.tx.mutator := by
  unfold FsExt.applyInodeRecord at hrun
  split at hrun
  · exact h.unchanged hrun rfl
  split at hrun
  · exact h.unchanged hrun rfl
  obtain ⟨⟨_, tx'⟩, hmut, hrun⟩ := bind_eq_ok_iff.mp hrun
  injection hrun with hrun
  rw [← hrun]
  show R tx.mutator tx'.mutator
  exact txOnMutator h.patchInodeScratch hmut

/-- A dentry record changes the links of the child. -/
theorem adjustChildLinksCount {childInum : Nat} {delta : Int}
    (hrun : FsExt.adjustChildLinksCount ext fs tx childInum delta = .ok step) :
    R tx.mutator step.tx.mutator := by
  obtain ⟨⟨change, tx'⟩, hmut, hrun⟩ := bind_eq_ok_iff.mp hrun
  have hstep : step.tx = tx' := by
    cases change <;> injection hrun with hrun <;> rw [← hrun] <;> rfl
  rw [hstep]
  exact txOnMutator h.adjustInodeLinksCount hmut

/-- A removal without a target takes the change of the links back. -/
theorem finishDentry {outcome : DirReplayOutcome}
    (hrun : FsExt.finishDentry ext fs position tx tag dentry outcome = .ok step) :
    R tx.mutator step.tx.mutator := by
  unfold FsExt.finishDentry at hrun
  cases outcome with
  | applied | skippedHtree => exact h.unchanged hrun rfl
  | skippedTargetMissing =>
    dsimp only at hrun
    split at hrun
    · obtain ⟨adjusted, hadjust, hrun⟩ := bind_eq_ok_iff.mp hrun
      have hadj := h.adjustChildLinksCount hadjust
      cases adjusted with
      | stop tx' reason =>
        injection hrun with hrun
        rw [← hrun]
        exact hadj
      | next tx' =>
        obtain ⟨⟨_, tx₂⟩, hprune, hrun⟩ := bind_eq_ok_iff.mp hrun
        injection hrun with hrun
        rw [← hrun]
        show R tx.mutator tx₂.mutator
        exact h.trans hadj (txOnMutator (h.prune _) hprune)
    · exact h.unchanged hrun rfl

variable [Crc]

/-- A dentry record: the links of the child, the directory, and the outcome. -/
theorem applyDentryRecord
    (hrun : FsExt.applyDentryRecord ext fs position tx tag dentry = .ok step) :
    R tx.mutator step.tx.mutator := by
  unfold FsExt.applyDentryRecord at hrun
  split at hrun
  · exact h.unchanged hrun rfl
  obtain ⟨parent, _, hrun⟩ := bind_eq_ok_iff.mp hrun
  split at hrun
  · exact h.unchanged hrun rfl
  obtain ⟨adjusted, hadjust, hrun⟩ := bind_eq_ok_iff.mp hrun
  have hadj := h.adjustChildLinksCount hadjust
  cases adjusted with
  | stop tx' reason =>
    injection hrun with hrun
    rw [← hrun]
    exact hadj
  | next tx' =>
    obtain ⟨parent, _, hrun⟩ := bind_eq_ok_iff.mp hrun
    obtain ⟨fileType, _, hrun⟩ := bind_eq_ok_iff.mp hrun
    obtain ⟨⟨outcome, tx₂⟩, hmut, hrun⟩ := bind_eq_ok_iff.mp hrun
    exact h.trans hadj (h.trans (txOnMutator h.mutateDentry hmut) (h.finishDentry hrun))

/-- An ADD_RANGE record adds an extent and logs the blocks that it maps. -/
theorem applyAddRangeRecord {addRange : FcAddRange}
    (hrun : FsExt.applyAddRangeRecord ext fs position tx addRange = .ok step) :
    R tx.mutator step.tx.mutator := by
  unfold FsExt.applyAddRangeRecord at hrun
  dsimp only at hrun
  split at hrun
  · exact h.unchanged hrun rfl
  split at hrun
  · exact h.unchanged hrun rfl
  split at hrun
  · cases hrun
  rename_i outcome surgeon hsurgery
  have hstep : R tx.mutator surgeon.mutator := h.addRange.of_ok hsurgery
  cases outcome <;> injection hrun with hrun <;> rw [← hrun]
  · exact h.trans hstep (h.map _ _ _)
  all_goals exact hstep

/-- A deletion up to the end cuts the size. -/
theorem delRangeAndShrink {lblk : Nat} :
    Keeps (Surgery R) (FsExt.delRangeAndShrink ext fs inum lblk len) := by
  refine h.surgery.bind h.delRange fun outcome => ?_
  split
  · exact h.surgery.bind_pure h.shrinkInode
  · exact h.surgery.pure _

/-- A DEL_RANGE record deletes extents. -/
theorem applyDelRangeRecord {delRange : FcDelRange}
    (hrun : FsExt.applyDelRangeRecord ext fs position tx delRange = .ok step) :
    R tx.mutator step.tx.mutator := by
  unfold FsExt.applyDelRangeRecord at hrun
  dsimp only at hrun
  split at hrun
  · exact h.unchanged hrun rfl
  obtain ⟨invalid, _, hrun⟩ := bind_eq_ok_iff.mp hrun
  split at hrun
  · exact h.unchanged hrun rfl
  split at hrun
  · cases hrun
  · rename_i outcome surgeon hsurgery
    have hstep : R tx.mutator surgeon.mutator := h.delRangeAndShrink.of_ok hsurgery
    cases outcome <;> injection hrun with hrun <;> rw [← hrun] <;> exact hstep

/-- A record of an open transaction. -/
theorem applyTxRecord {r : PassRecord}
    (hrun : FsExt.applyTxRecord ext fs position tx r = .ok step) :
    R tx.mutator step.tx.mutator := by
  unfold FsExt.applyTxRecord at hrun
  split at hrun
  · exact h.unchanged hrun rfl
  split at hrun
  · obtain ⟨_, _, hrun⟩ := bind_eq_ok_iff.mp hrun
    exact h.applyInodeRecord hrun
  split at hrun
  · obtain ⟨_, _, hrun⟩ := bind_eq_ok_iff.mp hrun
    exact h.applyDentryRecord hrun
  split at hrun
  · obtain ⟨_, _, hrun⟩ := bind_eq_ok_iff.mp hrun
    exact h.applyAddRangeRecord hrun
  split at hrun
  · obtain ⟨_, _, hrun⟩ := bind_eq_ok_iff.mp hrun
    exact h.applyDelRangeRecord hrun
  · exact h.unchanged hrun rfl

/-! ### The last pass -/

omit [Crc] in
/-- The ranges of an inode are marked one after the other, up to the first failure. -/
theorem markRanges (ranges : List (Nat × Nat)) (plan : FastCommitPlan) (m : Mutator) :
    R m (FsExt.markRanges ext fs ranges plan m).2.1 := by
  induction ranges generalizing plan m with
  | nil => exact h.refl _
  | cons range rest ih =>
    have hmark := h.mark range.1 range.2 true m
    rw [FsExt.markRanges]
    unfold markBlockRangeAllocated
    split
    · rename_i e m' herr
      rw [herr] at hmark
      exact hmark
    · rename_i changed m' hok
      rw [hok] at hmark
      exact h.trans hmark (ih _ _)

/-- The last pass marks the ranges of every inode. -/
theorem finalizePass (inums : List Nat) {plan plan' : FastCommitPlan} {m m' : Mutator}
    (hrun : FsExt.finalizePass ext fs inums plan m = .ok (plan', m')) : R m m' := by
  induction inums generalizing plan m with
  | nil =>
    injection hrun with hrun
    injection hrun with _ hm
    rw [← hm]
    exact h.refl _
  | cons inum rest ih =>
    obtain ⟨found, _, hrun⟩ := bind_eq_ok_iff.mp hrun
    cases found with
    | skip => exact ih hrun
    | warn => exact ih hrun
    | ranges ranges =>
      have hmark := h.markRanges ranges plan m
      dsimp only at hrun
      split at hrun
      · rename_i plan₁ m₁ hmarked
        rw [hmarked] at hmark
        exact h.trans hmark (ih hrun)
      · cases hrun
      · cases hrun
      · rename_i plan₁ m₁ _ _ _ hmarked
        rw [hmarked] at hmark
        exact h.trans hmark (ih hrun)

end Frame

end Fsmnt.FsExt
