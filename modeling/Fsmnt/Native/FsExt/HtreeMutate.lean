import Fsmnt.Native.FsExt.Directory
import Fsmnt.Native.FsExt.ExtentRange
import Fsmnt.Native.FsExt.Hash

/-!
# Indexed directories

`orphan/htree_mutate.rs`: adding an entry to and removing one from a directory with a hash
tree, where a full leaf is split into a block appended to the directory.
-/

namespace Fsmnt.FsExt

open Bytes Mutator

def DX_ROOT_COUNT_LIMIT_OFFSET : Nat := 0x20
def DX_NODE_COUNT_LIMIT_OFFSET : Nat := 0x08
def DX_ENTRY_SIZE : Nat := 8

/-- One level of a recorded descent. -/
structure DxPathNode where
  logicalBlock : Nat
  physicalBlock : Nat
  bytes : Bytes
  countLimitOffset : Nat
  chosenEntry : Nat
  deriving Repr, DecidableEq

namespace DxPathNode

def isRoot (node : DxPathNode) : Bool := node.logicalBlock == 0

def count (node : DxPathNode) : Nat := node.bytes.le16 (node.countLimitOffset + 2)

def limit (node : DxPathNode) : Nat := node.bytes.le16 node.countLimitOffset

end DxPathNode

/-- A probe: the deepest index node, the leaf and the major hash of the name. The nodes above
    the deepest one are not used again. -/
structure DxProbe where
  deepest : DxPathNode
  leafLogical : Nat
  leafPhysical : Nat
  nameHash : UInt32
  deriving Repr, DecidableEq

/-! ### Index nodes -/

structure DxRootHeader where
  hashVersion : UInt8
  indirectLevels : Nat
  deriving Repr, DecidableEq

variable (block : Bytes)

def parseDxRoot (inode : Nat) : Except ExtError DxRootHeader :=
  if block.length < DX_ROOT_COUNT_LIMIT_OFFSET + DX_ENTRY_SIZE then
    .error (.invalidDirectoryEntry inode 0x1C)
  else if block.getD 0x1D 0 ≠ 8 then .error (.invalidDirectoryEntry inode 0x1D)
  else .ok { hashVersion := block.getD 0x1C 0, indirectLevels := (block.getD 0x1E 0).toNat }

/-- The loop of `choose_child`: the last leading entry whose hash is at most `nameHash`. -/
def chooseDxLoop (block : Bytes) (countLimitOffset nameHash inode : Nat) : Nat → List Nat →
    Except ExtError Nat
  | chosen, [] => .ok chosen
  | chosen, i :: rest =>
    let off := countLimitOffset + i * DX_ENTRY_SIZE
    if off + DX_ENTRY_SIZE > block.length then .error (.invalidDirectoryEntry inode off)
    else if i = 0 ∨ block.le32 off ≤ nameHash then
      chooseDxLoop block countLimitOffset nameHash inode i rest
    else .ok chosen

/-- `choose_child`: index and logical block of the child. -/
def chooseDxChild (countLimitOffset nameHash inode : Nat) : Except ExtError (Nat × Nat) := do
  if countLimitOffset + DX_ENTRY_SIZE > block.length then
    .error (.invalidDirectoryEntry inode countLimitOffset)
  else
    let count := block.le16 (countLimitOffset + 2)
    if count = 0 then .error (.invalidDirectoryEntry inode (countLimitOffset + 2))
    else
      let chosen ← chooseDxLoop block countLimitOffset nameHash inode 0 (List.range count)
      .ok (chosen, block.le32 (countLimitOffset + chosen * DX_ENTRY_SIZE + 4))

/-! ### Leaves -/

/-- A leaf entry collected for redistribution. -/
structure LeafEntry where
  inode : Nat
  fileType : UInt8
  name : Bytes
  order : Nat
  hash : UInt32
  deriving Repr, DecidableEq

def leafEntryRegionEnd : Nat :=
  if block.length ≥ 12 then
    let tailOff := block.length - 12
    if block.getD (tailOff + 7) 0 = 0xDE ∧ block.le32 tailOff = 0 then tailOff else block.length
  else block.length

/-- The loop of `collect_leaf_entries`. -/
def collectLeafLoop (block : Bytes) (hasFiletype : Bool) (inode usableEnd : Nat) :
    Nat → Nat → Nat → Except ExtError (List LeafEntry)
  | 0, _, _ => .ok []
  | fuel + 1, order, offset =>
    if offset < usableEnd then do
      let entry ← readDirEntry block hasFiletype inode usableEnd offset
      if entry.inode ≠ 0 then
        let rest ← collectLeafLoop block hasFiletype inode usableEnd fuel (order + 1)
          (offset + entry.recLen)
        .ok ({ inode := entry.inode, fileType := entry.fileType, name := entry.name, order,
               hash := 0 } :: rest)
      else collectLeafLoop block hasFiletype inode usableEnd fuel order (offset + entry.recLen)
    else .ok []

def collectLeafEntries (hasFiletype : Bool) (inode : Nat) : Except ExtError (List LeafEntry) :=
  let usableEnd := leafEntryRegionEnd block
  collectLeafLoop block hasFiletype inode usableEnd usableEnd 0 0

def writeDirEntry (offset : Nat) (entry : LeafEntry) (recLen : Nat) (hasFiletype : Bool) : Bytes :=
  (block.splice offset (zeros recLen)).splice offset
    (encodeDirEntry entry.inode recLen entry.name entry.fileType hasFiletype)

/-- The loop of `write_leaf_entries`: the last entry spans to `regionEnd`. -/
def writeLeafLoop (hasFiletype : Bool) (inode regionEnd : Nat) : Nat → List LeafEntry → Bytes →
    Except ExtError Bytes
  | _, [], block => .ok block
  | offset, entry :: rest, block =>
    let recLen := if rest.isEmpty then regionEnd - offset else alignedDirEntryLen entry.name.length
    if offset + recLen > regionEnd ∨ recLen > 0xFFFF then
      .error (.invalidDirectoryEntry inode offset)
    else if offset + 8 + entry.name.length > block.length then .error .panicked
    else writeLeafLoop hasFiletype inode regionEnd (offset + recLen) rest
      (writeDirEntry block offset entry recLen hasFiletype)

def writeLeafEntries (entries : List LeafEntry) (hasFiletype : Bool)
    (inode : Nat) : Except ExtError Bytes :=
  let regionEnd := block.length - 12
  if entries.isEmpty then
    if regionEnd > 0xFFFF then .error (.invalidDirectoryEntry inode 0)
    else .ok (block.splice 4 (toLE 2 regionEnd))
  else writeLeafLoop hasFiletype inode regionEnd 0 entries block

/-- The loop of `insert_into_leaf`: offset, used bytes and length of the last entry. -/
def lastLeafEntry (block : Bytes) (hasFiletype : Bool) (inode regionEnd : Nat) :
    Nat → Option (Nat × Nat × Nat) → Nat → Except ExtError (Option (Nat × Nat × Nat))
  | 0, last, _ => .ok last
  | fuel + 1, last, offset =>
    if offset < regionEnd then
      let recLen := block.le16 (offset + 4)
      if recLen < 8 then .error (.invalidDirectoryEntry inode offset)
      else
        let nameLen := if hasFiletype then (block.getD (offset + 6) 0).toNat
          else block.le16 (offset + 6)
        let used := if block.le32 offset = 0 then 0 else alignedDirEntryLen nameLen
        lastLeafEntry block hasFiletype inode regionEnd fuel (some (offset, used, recLen))
          (offset + recLen)
    else .ok last

def insertIntoLeaf (childInum : Nat) (name : Bytes) (fileType : UInt8)
    (hasFiletype : Bool) (inode : Nat) : Except ExtError Bytes := do
  let regionEnd := block.length - 12
  let required := alignedDirEntryLen name.length
  match ← lastLeafEntry block hasFiletype inode regionEnd regionEnd none 0 with
  | none => .error (.invalidDirectoryEntry inode 0)
  | some (lastOff, used, recLen) =>
    if recLen < used then .error .panicked
    else
      let slack := recLen - used
      if slack < required then .error (.invalidDirectoryEntry inode lastOff)
      else
        let block := block.splice (lastOff + 4) (toLE 2 used)
        .ok (writeDirEntry block (lastOff + used)
          { inode := childInum, fileType, name, order := 0, hash := 0 } slack hasFiletype)

/-- Stamp the checksum tail of a leaf. -/
def finishDirBlock [Crc] (seed : Option UInt32) (inode generation : Nat) (block : Bytes) : Bytes :=
  let tailOff := block.length - 12
  let block := block.splice tailOff (zeros 4 ++ toLE 2 12 ++ [0, 0xDE])
  match seed with
  | none => block
  | some seed =>
    let crc := ext4Crc32c (inodeCrcPrefix seed inode generation) (block.slice 0 tailOff)
    block.splice (tailOff + 8) (toLE 4 crc.toNat)

/-- The candidates of `clean_split_point`, nearest to the middle first. -/
def splitCandidates (len : Nat) : List Nat :=
  (List.range len).flatMap fun delta =>
    if delta ≤ len / 2 then [len / 2 + delta, len / 2 - delta] else [len / 2 + delta]

/-- `clean_split_point`: a split between two distinct hashes. -/
def cleanSplitPoint (entries : List LeafEntry) : Option Nat :=
  (splitCandidates entries.length).find? fun candidate =>
    decide (1 ≤ candidate ∧ candidate < entries.length) &&
      (entries[candidate - 1]?.map (·.hash) != entries[candidate]?.map (·.hash))

structure LeafSplit where
  lowEntries : List LeafEntry
  highEntries : List LeafEntry
  boundaryHash : UInt32
  deriving Repr, DecidableEq

/-! ### Surgeon -/

namespace HtreeSurgeon

variable [Crc] (ext : Ext) (fs : FsReader)

omit [Crc] in
/-- `prepare_parent`; `none` for a directory that is not maintained. -/
def prepareParent (m : Mutator) (parentInum : Nat) (name : Bytes) :
    Except ExtError (Option CurrentDirInode) := do
  if name.isEmpty ∨ name.length > 255 then .error (.invalidDirectoryEntry parentInum 0)
  else
    let dir ← m.currentDirInode ext fs parentInum
    if !hasFlag dir.flags INDEX_FL || hasFlag dir.flags CASEFOLD_FL ||
        hasFlag dir.flags ENCRYPT_FL || hasFlag dir.flags INLINE_DATA_FL then .ok none
    else .ok (some dir)

omit [Crc] in
def nameHash (parentInum : Nat) (hashVersion : UInt8) (name : Bytes) : Except ExtError DxHash :=
  match dxHash name hashVersion ext.hashSeed with
  | none => .error (.invalidDirectoryEntry parentInum 0x1C)
  | some hash => .ok hash

def readDirBlock (m : Mutator) (dir : CurrentDirInode) (logical : Nat) : Except ExtError Bytes := do
  let physical ← resolveDirLogicalBlock ext fs dir logical
  let (bytes, _) ← m.currentBlockBytes ext fs physical
  .ok bytes

/-- The loop of `dx_probe`. The root is searched by the major hash, the nodes below it by the
    minor one. -/
def dxProbeLoop (m : Mutator) (dir : CurrentDirInode) (hash : DxHash) :
    Nat → Bytes → Nat → Nat → Except ExtError DxProbe
  | remainingLevels, bytes, countLimitOffset, logicalBlock => do
    let physicalBlock ← resolveDirLogicalBlock ext fs dir logicalBlock
    let navHash := if countLimitOffset = DX_ROOT_COUNT_LIMIT_OFFSET then hash.major else hash.minor
    let (chosenEntry, childBlock) ← chooseDxChild bytes countLimitOffset navHash.toNat dir.number
    match remainingLevels with
    | 0 =>
      let leafPhysical ← resolveDirLogicalBlock ext fs dir childBlock
      .ok { deepest := { logicalBlock, physicalBlock, bytes, countLimitOffset, chosenEntry }
            leafLogical := childBlock, leafPhysical, nameHash := hash.major }
    | remainingLevels + 1 =>
      let child ← readDirBlock ext fs m dir childBlock
      dxProbeLoop m dir hash remainingLevels child DX_NODE_COUNT_LIMIT_OFFSET childBlock

def dxProbe (m : Mutator) (dir : CurrentDirInode) (name : Bytes) : Except ExtError DxProbe := do
  let root ← readDirBlock ext fs m dir 0
  let header ← parseDxRoot root dir.number
  let hash ← nameHash ext dir.number header.hashVersion name
  dxProbeLoop ext fs m dir hash header.indirectLevels root DX_ROOT_COUNT_LIMIT_OFFSET 0

def planLeafSplit (m : Mutator) (dir : CurrentDirInode) (leaf : Bytes) :
    Except ExtError LeafSplit := do
  let root ← readDirBlock ext fs m dir 0
  let header ← parseDxRoot root dir.number
  let entries ← collectLeafEntries leaf ext.hasFiletype dir.number
  let entries ← entries.mapM fun entry => do
    let hash ← nameHash ext dir.number header.hashVersion entry.name
    .ok { entry with hash := hash.major }
  -- the orders are distinct, so this is the order of `sort_by`
  let entries := entries.mergeSort fun a b =>
    decide (a.hash < b.hash) || (a.hash == b.hash && decide (a.order ≤ b.order))
  if entries.length < 2 then .error (.invalidDirectoryEntry dir.number 0)
  else
    match cleanSplitPoint entries with
    | none => .error (.invalidDirectoryEntry dir.number 0)
    | some split =>
      .ok { lowEntries := entries.take split
            highEntries := entries.drop split
            boundaryHash := (entries[split]?.map (·.hash)).getD 0 }

variable (dir : CurrentDirInode)

def writeDxNode (node : DxPathNode) (bytes : Bytes) (count : Nat) : MutatorM Unit :=
  let bytes := match ext.checksumSeed with
    | none => bytes
    | some seed =>
      if node.isRoot then computeDxRootCsum seed dir.number dir.generation bytes count node.limit
      else computeDxNodeCsum seed dir.number dir.generation bytes count node.limit
  writeDirBlock ext fs dir.number node.physicalBlock bytes

/-- `insert_dx_entry`: shift the entries above `boundaryHash` and write the new one. -/
def insertDxEntry (parent : DxPathNode) (boundaryHash : UInt32)
    (newLogical : Nat) : MutatorM Unit :=
  let count := parent.count
  let cl := parent.countLimitOffset
  let slot := ((List.range' 1 (count - 1)).find? fun i =>
    decide (parent.bytes.le32 (cl + i * DX_ENTRY_SIZE) > boundaryHash.toNat)).getD count
  let insertOff := cl + slot * DX_ENTRY_SIZE
  let moved := parent.bytes.slice insertOff (cl + count * DX_ENTRY_SIZE - insertOff)
  if insertOff + DX_ENTRY_SIZE + moved.length > parent.bytes.length then throw (.ext .panicked)
  else
    let bytes := parent.bytes.splice (insertOff + DX_ENTRY_SIZE) moved
    let bytes := bytes.splice insertOff (toLE 4 boundaryHash.toNat ++ toLE 4 newLogical)
    let bytes := bytes.splice (cl + 2) (toLE 2 (count + 1))
    writeDxNode ext fs dir parent bytes (count + 1)

def pruneEmptyLeaf (probe : DxProbe) : MutatorM Unit := do
  let leaf ← .ofExcept (readDirBlock ext fs (← get) dir probe.leafLogical)
  let entries ← .ofExcept (collectLeafEntries leaf ext.hasFiletype dir.number)
  let parent := probe.deepest
  if !entries.isEmpty ∨ parent.chosenEntry = 0 then pure ()
  else
    let count := parent.count
    let cl := parent.countLimitOffset
    let removeOff := cl + parent.chosenEntry * DX_ENTRY_SIZE
    let tailSrc := cl + count * DX_ENTRY_SIZE
    let moved := parent.bytes.slice (removeOff + DX_ENTRY_SIZE)
      (tailSrc - (removeOff + DX_ENTRY_SIZE))
    let bytes := parent.bytes.splice removeOff moved
    let bytes := bytes.splice (cl + 2) (toLE 2 (count - 1))
    let bytes := bytes.splice (tailSrc - DX_ENTRY_SIZE) (zeros DX_ENTRY_SIZE)
    writeDxNode ext fs dir parent bytes (count - 1)

/-- Run a surgery on the mutator of an enclosing operation. -/
def withSurgeon {α : Type} (x : SurgeonM α) : MutatorM α := fun mutator =>
  match x { mutator } with
  | .ok a s => .ok a s.mutator
  | .error e s => .error (.ext e) s.mutator

/-- `append_dir_block`: a new block at the end of the directory. -/
def appendDirBlock : MutatorM (Nat × Nat) := do
  let newLogical := divCeil dir.size ext.blockSize
  if newLogical ≥ 2 ^ 32 then throw (.ext (.blockOutOfRange newLogical))
  else
    let newPhysical ← allocateMetadataBlock ext fs dir.number
    let outcome ← withSurgeon (ExtentSurgeon.addRange ext fs dir.number
      { eeBlock := newLogical, eeLen := 1, eePblk := newPhysical, unwritten := false })
    match outcome with
    | .applied =>
      let newSize := dir.size + ext.blockSize
      if newSize ≥ 2 ^ 64 then throw (.ext (.blockOutOfRange newLogical))
      else
        patchInodeScratch ext fs dir.number fun inode =>
          .ok (ExtentSurgeon.writeInodeSize inode newSize)
        pure (newLogical, newPhysical)
    | _ => throw (.ext (.blockOutOfRange newPhysical))

def splitLeafAndInsert (probe : DxProbe) (childInum : Nat)
    (name : Bytes) (fileType : UInt8) : MutatorM DirReplayOutcome := do
  let parent := probe.deepest
  if parent.count ≥ parent.limit then pure .skippedHtree
  else
    let leaf ← .ofExcept (readDirBlock ext fs (← get) dir probe.leafLogical)
    let split ← .ofExcept (planLeafSplit ext fs (← get) dir leaf)
    let (newLogical, newPhysical) ← appendDirBlock ext fs dir
    let low ← .ofExcept (writeLeafEntries (zeros ext.blockSize) split.lowEntries
      ext.hasFiletype dir.number)
    let high ← .ofExcept (writeLeafEntries (zeros ext.blockSize) split.highEntries
      ext.hasFiletype dir.number)
    let intoHigh := probe.nameHash ≥ split.boundaryHash
    let target ← .ofExcept (insertIntoLeaf (if intoHigh then high else low) childInum name
      fileType ext.hasFiletype dir.number)
    let finish := finishDirBlock ext.checksumSeed dir.number dir.generation
    writeDirBlock ext fs dir.number probe.leafPhysical
      (finish (if intoHigh then low else target))
    writeDirBlock ext fs dir.number newPhysical
      (finish (if intoHigh then target else high))
    insertDxEntry ext fs dir parent split.boundaryHash newLogical
    pure .applied

def addEntry (parentInum childInum : Nat) (name : Bytes) (fileType : UInt8) :
    MutatorM DirReplayOutcome := do
  match ← .ofExcept (prepareParent ext fs (← get) parentInum name) with
  | none => pure .skippedHtree
  | some dir =>
    let probe ← .ofExcept (dxProbe ext fs (← get) dir name)
    if ← dirLeafAppend ext fs dir childInum name fileType probe.leafPhysical then
      pure .applied
    else splitLeafAndInsert ext fs dir probe childInum name fileType

def removeEntry (parentInum childInum : Nat) (name : Bytes) : MutatorM DirReplayOutcome := do
  match ← .ofExcept (prepareParent ext fs (← get) parentInum name) with
  | none => pure .skippedHtree
  | some dir =>
    let probe ← .ofExcept (dxProbe ext fs (← get) dir name)
    if ← dirLeafRemove ext fs dir.number dir.generation childInum name
        probe.leafPhysical then
      pruneEmptyLeaf ext fs dir probe
      pure .applied
    else pure .skippedTargetMissing

end HtreeSurgeon

end Fsmnt.FsExt
