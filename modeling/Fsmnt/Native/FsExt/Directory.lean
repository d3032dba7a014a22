import Fsmnt.Native.FsExt.ExtentRead
import Fsmnt.Native.FsExt.Mutator

/-!
# Linear directories

`orphan/mutator/directory_helpers.rs` and the directory methods of the mutator: finding room
for an entry, finding an entry, and patching the block.
-/

namespace Fsmnt.FsExt

open Bytes

/-! ### Inode flags -/

def INDEX_FL : Nat := 0x00001000
def EXTENTS_FL : Nat := 0x00080000
def INLINE_DATA_FL : Nat := 0x10000000
def ENCRYPT_FL : Nat := 0x00000800
def CASEFOLD_FL : Nat := 0x40000000

/-- `flags.contains(flag)`. -/
def hasFlag (flags flag : Nat) : Bool := flags &&& flag == flag

structure CurrentDirInode where
  number : Nat
  mode : Nat
  flags : Nat
  size : Nat
  generation : Nat
  iBlock : Bytes
  deriving Repr, DecidableEq

def CurrentDirInode.parse (inum : Nat) (inode : Bytes) : Except ExtError CurrentDirInode :=
  if inode.length < 128 then .error (.invalidInode inum "too short")
  else .ok
    { number := inum
      mode := inode.le16 0x00
      flags := inode.le32 0x20
      size := inode.le32 0x04 + inode.le32 0x6C * 2 ^ 32
      generation := inode.le32 0x64
      iBlock := inode.slice 0x28 60 }

def CurrentDirInode.isDirectory (dir : CurrentDirInode) : Bool := dir.mode &&& 0xF000 == 0x4000

inductive DirReplayOutcome where
  | applied
  | skippedHtree
  | skippedTargetMissing
  deriving Repr, DecidableEq

/-! ### Entries of a block -/

def alignedDirEntryLen (nameLen : Nat) : Nat := (8 + nameLen + 3) / 4 * 4

variable (block : Bytes)

/-- Offset of the checksum tail, if the block has one. -/
def directoryTailOffset : Option Nat :=
  if block.length ≥ 12 then
    let tail := block.length - 12
    if block.le32 tail = 0 ∧ block.le16 (tail + 4) = 12 ∧ block.getD (tail + 6) 0 = 0 ∧
        block.getD (tail + 7) 0 = 0xDE then some tail
    else none
  else none

def directoryEntryRegionEnd : Nat :=
  (directoryTailOffset block).getD block.length

def invalidDirEntry (parentInum offset : Nat) : ExtError := .invalidDirectoryEntry parentInum offset

/-- One raw entry of a directory block. -/
structure RawDirEntry where
  offset : Nat
  inode : Nat
  recLen : Nat
  name : Bytes
  fileType : UInt8
  deriving Repr, DecidableEq

/-- The entry at `offset`, with the checks that the append and the remove search share. -/
def readDirEntry (hasFiletype : Bool) (parentInum usableEnd offset : Nat) :
    Except ExtError RawDirEntry :=
  if offset + 8 > usableEnd then .error (invalidDirEntry parentInum offset)
  else
    let recLen := block.le16 (offset + 4)
    if recLen < 8 ∨ recLen % 4 ≠ 0 then .error (invalidDirEntry parentInum offset)
    else if offset + recLen > usableEnd then .error (invalidDirEntry parentInum offset)
    else
      let nameLen := if hasFiletype then (block.getD (offset + 6) 0).toNat
        else block.le16 (offset + 6)
      if nameLen > recLen - 8 then .error (invalidDirEntry parentInum offset)
      else .ok { offset, inode := block.le32 offset, recLen
                 name := block.slice (offset + 8) nameLen
                 fileType := if hasFiletype then block.getD (offset + 7) 0 else 0 }

/-! ### Appending -/

structure DirAppendSlot where
  lastEntryOffset : Nat
  shrunkLastRecLen : Nat
  newEntryOffset : Nat
  newEntryRecLen : Nat
  deriving Repr, DecidableEq

/-- The loop of `find_dir_append_slot`: the last entry in use. Every entry takes at least
    eight bytes. -/
def lastRealEntry (block : Bytes) (hasFiletype : Bool) (parentInum usableEnd : Nat) :
    Nat → Option RawDirEntry → Nat → Except ExtError (Option RawDirEntry)
  | 0, last, _ => .ok last
  | fuel + 1, last, offset =>
    if offset < usableEnd then do
      let entry ← readDirEntry block hasFiletype parentInum usableEnd offset
      if entry.inode ≠ 0 ∧ alignedDirEntryLen entry.name.length > entry.recLen then
        .error (invalidDirEntry parentInum offset)
      else
        lastRealEntry block hasFiletype parentInum usableEnd fuel
          (if entry.inode ≠ 0 then some entry else last) (offset + entry.recLen)
    else .ok last

/-- `find_dir_append_slot`: room behind the last entry in use, which must end the block. -/
def findDirAppendSlot (hasFiletype : Bool) (parentInum requiredLen : Nat) :
    Except ExtError (Option DirAppendSlot) := do
  let usableEnd := directoryEntryRegionEnd block
  match ← lastRealEntry block hasFiletype parentInum usableEnd usableEnd none 0 with
  | none => .ok none
  | some last =>
    let minLen := alignedDirEntryLen last.name.length
    if last.offset + last.recLen ≠ usableEnd then .ok none
    else if last.recLen - minLen < requiredLen then .ok none
    else .ok (some
      { lastEntryOffset := last.offset
        shrunkLastRecLen := minLen
        newEntryOffset := last.offset + minLen
        newEntryRecLen := last.recLen - minLen })

/-- The header and name of a directory entry. -/
def encodeDirEntry (inode recLen : Nat) (name : Bytes) (fileType : UInt8) (hasFiletype : Bool) :
    Bytes :=
  toLE 4 inode ++ toLE 2 recLen ++
    (if hasFiletype then [UInt8.ofNat name.length, fileType] else toLE 2 name.length) ++ name

def applyDirAppendSlot (slot : DirAppendSlot) (childInum : Nat) (name : Bytes)
    (fileType : UInt8) (hasFiletype : Bool) (parentInum : Nat) : Except ExtError Bytes :=
  let newEntryEnd := slot.newEntryOffset + slot.newEntryRecLen
  if slot.lastEntryOffset + 8 > block.length ∨ newEntryEnd > block.length ∨
      slot.newEntryOffset + 8 + name.length > newEntryEnd then
    .error (invalidDirEntry parentInum slot.lastEntryOffset)
  else
    let block := block.splice (slot.lastEntryOffset + 4) (toLE 2 slot.shrunkLastRecLen)
    let block := block.splice slot.newEntryOffset (zeros slot.newEntryRecLen)
    .ok (block.splice slot.newEntryOffset
      (encodeDirEntry childInum slot.newEntryRecLen name fileType hasFiletype))

/-! ### Removing -/

inductive DirRemoveSlot where
  | mergeIntoPrev (prevOffset currentOffset currentRecLen : Nat)
  | clearCurrentInode (currentOffset : Nat)
  deriving Repr, DecidableEq

/-- The loop of `find_dir_remove_slot`, with `prev` the offset of the entry before. -/
def findRemoveLoop (block : Bytes) (hasFiletype : Bool) (parentInum childInum usableEnd : Nat)
    (name : Bytes) : Nat → Option Nat → Nat → Except ExtError (Option DirRemoveSlot)
  | 0, _, _ => .ok none
  | fuel + 1, prev, offset =>
    if offset < usableEnd then do
      let entry ← readDirEntry block hasFiletype parentInum usableEnd offset
      if entry.inode = childInum ∧ entry.name = name then
        match prev with
        | some prevOffset => .ok (some (.mergeIntoPrev prevOffset offset entry.recLen))
        | none =>
          if offset = 0 then .ok (some (.clearCurrentInode offset))
          else .error (invalidDirEntry parentInum offset)
      else
        findRemoveLoop block hasFiletype parentInum childInum usableEnd name fuel (some offset)
          (offset + entry.recLen)
    else .ok none

def findDirRemoveSlot (hasFiletype : Bool) (parentInum childInum : Nat)
    (name : Bytes) : Except ExtError (Option DirRemoveSlot) :=
  let usableEnd := directoryEntryRegionEnd block
  findRemoveLoop block hasFiletype parentInum childInum usableEnd name usableEnd none 0

def applyDirRemoveSlot (slot : DirRemoveSlot) (parentInum : Nat) : Except ExtError Bytes :=
  match slot with
  | .mergeIntoPrev prevOffset currentOffset currentRecLen =>
    if prevOffset + 6 > block.length ∨ currentOffset + currentRecLen > block.length then
      .error (invalidDirEntry parentInum prevOffset)
    else
      let prevRecLen := block.le16 (prevOffset + 4)
      if prevRecLen < 8 ∨ prevRecLen % 4 ≠ 0 ∨ prevOffset + prevRecLen ≠ currentOffset then
        .error (invalidDirEntry parentInum prevOffset)
      else if prevRecLen + currentRecLen ≥ 2 ^ 16 then
        .error (invalidDirEntry parentInum prevOffset)
      else .ok (block.splice (prevOffset + 4) (toLE 2 (prevRecLen + currentRecLen)))
  | .clearCurrentInode currentOffset =>
    if currentOffset + 4 > block.length then .error (invalidDirEntry parentInum currentOffset)
    else .ok (block.splice currentOffset (zeros 4))

/-! ### Checksum tail -/

section Tail

variable [Crc]

def validateDirTailChecksum (seed : Option UInt32) (parentInum parentGeneration : Nat)
    (block : Bytes) : Except ExtError Unit :=
  match seed, directoryTailOffset block with
  | some seed, some tailOffset =>
    if verifyDirBlock seed parentInum parentGeneration block = .invalid then
      .error (invalidDirEntry parentInum tailOffset)
    else .ok ()
  | _, _ => .ok ()

def refreshDirTailChecksum (seed : Option UInt32) (parentInum parentGeneration : Nat)
    (block : Bytes) : Bytes :=
  match seed, directoryTailOffset block with
  | some seed, some tailOffset =>
    let crc := ext4Crc32c (inodeCrcPrefix seed parentInum parentGeneration)
      (block.slice 0 tailOffset)
    block.splice (tailOffset + 8) (toLE 4 crc.toNat)
  | _, _ => block

end Tail

/-! ### Mutator methods -/

namespace Mutator

variable [Crc] (ext : Ext) (fs : FsReader)

omit [Crc] in
def currentDirInode (m : Mutator) (inum : Nat) : Except ExtError CurrentDirInode := do
  let inode ← m.currentInodeBytes ext fs inum
  CurrentDirInode.parse inum inode

/-- `resolve_dir_logical_block`, which reads the tree through `fs` only. -/
def resolveDirLogicalBlock (dir : CurrentDirInode) (logicalBlock : Nat) : Except ExtError Nat := do
  let physical ←
    if hasFlag dir.flags EXTENTS_FL then do
      match ← resolveExtent ext fs dir.number dir.generation dir.iBlock logicalBlock with
      | none => .error (.blockOutOfRange logicalBlock)
      | some extent =>
        if extent.uninitialized then .error (.blockOutOfRange logicalBlock)
        else .ok (extent.physicalBlock + (logicalBlock - extent.logicalBlock))
    else do
      match ← resolveBlockMap ext fs dir.iBlock logicalBlock with
      | none => .error (.blockOutOfRange logicalBlock)
      | some block => .ok block
  if physical ≥ ext.blocksCount then .error (.blockOutOfRange physical) else .ok physical

variable (parentInum : Nat)

omit [Crc] in
def validateDirectoryReplayRequest (childInum : Nat) (name : Bytes) : Except ExtError Unit :=
  if childInum = 0 ∨ childInum > ext.inodesCount then .error (.inodeOutOfRange childInum)
  else if name.isEmpty ∨ name.length > 255 then .error (invalidDirEntry parentInum 0)
  else .ok ()

omit [Crc] in
/-- The parent of a linear directory operation; `none` for an indexed one. -/
def linearParent (m : Mutator) (parentInum childInum : Nat) (name : Bytes) :
    Except ExtError (Option CurrentDirInode) := do
  validateDirectoryReplayRequest ext parentInum childInum name
  let parent ← m.currentDirInode ext fs parentInum
  if !parent.isDirectory then .error (.notADirectory parentInum)
  else if hasFlag parent.flags INDEX_FL then .ok none
  else if hasFlag parent.flags ENCRYPT_FL then .error (.encryptedInode parentInum)
  else if hasFlag parent.flags INLINE_DATA_FL then .error (.invalidInlineData parentInum)
  else .ok (some parent)

omit [Crc] in
/-- The block as the directory methods see it: scratch before the reader. -/
def currentDirBlock (m : Mutator) (physical : Nat) : Except ExtError Bytes :=
  match m.blocks[physical]? with
  | some scratch => .ok scratch.content
  | none => readBlock ext fs physical

/-- The part of an append that patches the block. -/
def appendToBlock (parent : CurrentDirInode) (physical childInum : Nat) (name : Bytes)
    (fileType : UInt8) (slot : DirAppendSlot) : MutatorM Unit :=
  patchDirectoryBlock ext fs physical parent.number fun block =>
    match applyDirAppendSlot block slot childInum name fileType ext.hasFiletype parent.number with
    | .error e => .error (.ext e)
    | .ok block =>
      .ok (refreshDirTailChecksum ext.checksumSeed parent.number parent.generation block)

/-- The part of a removal that patches the block. -/
def removeFromBlock (parentGeneration physical : Nat) (slot : DirRemoveSlot) : MutatorM Unit :=
  patchDirectoryBlock ext fs physical parentInum fun block =>
    match applyDirRemoveSlot block slot parentInum with
    | .error e => .error (.ext e)
    | .ok block =>
      .ok (refreshDirTailChecksum ext.checksumSeed parentInum parentGeneration block)

/-- The loop of `dir_append_entry` over the logical blocks of the directory. -/
def dirAppendLoop (parent : CurrentDirInode) (childInum : Nat) (name : Bytes)
    (fileType : UInt8) : List Nat → MutatorM DirReplayOutcome
  | [] => throw (.ext (.invalidDirectoryEntry parent.number parent.size))
  | logical :: rest => do
    if logical ≥ 2 ^ 32 then throw (.ext (.blockOutOfRange logical))
    else
      let physical ← .ofExcept (resolveDirLogicalBlock ext fs parent logical)
      let block ← .ofExcept ((← get).currentDirBlock ext fs physical)
      .ofExcept (validateDirTailChecksum ext.checksumSeed parent.number parent.generation block)
      let slot ← .ofExcept (findDirAppendSlot block ext.hasFiletype parent.number
        (alignedDirEntryLen name.length))
      match slot with
      | none => dirAppendLoop parent childInum name fileType rest
      | some slot =>
        appendToBlock ext fs parent physical childInum name fileType slot
        pure .applied

def dirAppendEntry (childInum : Nat) (name : Bytes) (fileType : UInt8) :
    MutatorM DirReplayOutcome := do
  match ← .ofExcept ((← get).linearParent ext fs parentInum childInum name) with
  | none => pure .skippedHtree
  | some parent =>
    let dirBlocks := divCeil parent.size ext.blockSize
    dirAppendLoop ext fs parent childInum name fileType (List.range dirBlocks)

/-- The loop of `dir_remove_entry`. -/
def dirRemoveLoop (parent : CurrentDirInode) (childInum : Nat) (name : Bytes) :
    List Nat → MutatorM DirReplayOutcome
  | [] => pure .skippedTargetMissing
  | logical :: rest => do
    if logical ≥ 2 ^ 32 then throw (.ext (.blockOutOfRange logical))
    else
      let physical ← .ofExcept (resolveDirLogicalBlock ext fs parent logical)
      let block ← .ofExcept ((← get).currentDirBlock ext fs physical)
      .ofExcept (validateDirTailChecksum ext.checksumSeed parent.number parent.generation block)
      let slot ← .ofExcept (findDirRemoveSlot block ext.hasFiletype parent.number childInum name)
      match slot with
      | none => dirRemoveLoop parent childInum name rest
      | some slot =>
        removeFromBlock ext fs parent.number parent.generation physical slot
        pure .applied

def dirRemoveEntry (childInum : Nat) (name : Bytes) : MutatorM DirReplayOutcome := do
  match ← .ofExcept ((← get).linearParent ext fs parentInum childInum name) with
  | none => pure .skippedHtree
  | some parent =>
    let dirBlocks := divCeil parent.size ext.blockSize
    dirRemoveLoop ext fs parent childInum name (List.range dirBlocks)

/-- `dir_leaf_append`: whether the block had room. -/
def dirLeafAppend (parent : CurrentDirInode) (childInum : Nat) (name : Bytes) (fileType : UInt8)
    (physical : Nat) : MutatorM Bool := do
  let (block, _) ← .ofExcept ((← get).currentBlockBytes ext fs physical)
  .ofExcept (validateDirTailChecksum ext.checksumSeed parent.number parent.generation block)
  let slot ← .ofExcept (findDirAppendSlot block ext.hasFiletype parent.number
    (alignedDirEntryLen name.length))
  match slot with
  | none => pure false
  | some slot =>
    appendToBlock ext fs parent physical childInum name fileType slot
    pure true

/-- `dir_leaf_remove`: whether the entry was there. -/
def dirLeafRemove (parentGeneration childInum : Nat) (name : Bytes)
    (physical : Nat) : MutatorM Bool := do
  let (block, _) ← .ofExcept ((← get).currentBlockBytes ext fs physical)
  .ofExcept (validateDirTailChecksum ext.checksumSeed parentInum parentGeneration block)
  let slot ← .ofExcept (findDirRemoveSlot block ext.hasFiletype parentInum childInum name)
  match slot with
  | none => pure false
  | some slot =>
    removeFromBlock ext fs parentInum parentGeneration physical slot
    pure true

end Mutator

end Fsmnt.FsExt
