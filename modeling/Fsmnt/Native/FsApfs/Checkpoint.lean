import Mathlib.Data.List.Sort
import Fsmnt.Native.FsApfs.Omap

/-!
# The checkpoint descriptor area

`checkpoint.rs`, with `checksum.rs`, the object header of `object.rs` and the container superblock
of `container.rs`. Feature flags are numbers. What reads a block of the container is a parameter, so
that the same code runs on a device and on the content of a container.
-/

namespace Fsmnt.FsApfs

open MonadExcept

/-! ### Checksums -/

def fletcherMod : Nat := 0xFFFFFFFF

/-- The loop of `fletcher64` over the words; bytes that do not complete one are ignored. -/
def fletcherSums : Bytes → Nat → Nat → Nat × Nat
  | b₀ :: b₁ :: b₂ :: b₃ :: rest, sum1, sum2 =>
    let sum1 := (sum1 + Bytes.ofLE [b₀, b₁, b₂, b₃]) % fletcherMod
    fletcherSums rest sum1 ((sum2 + sum1) % fletcherMod)
  | _, sum1, sum2 => (sum1, sum2)

def fletcher64 (data : Bytes) : Nat :=
  let (sum1, sum2) := fletcherSums data 0 0
  let c1 := fletcherMod - (sum1 + sum2) % fletcherMod
  let c2 := fletcherMod - (sum1 + c1) % fletcherMod
  c2 <<< 32 ||| c1

def maxCksumSize : Nat := 8

def verifyBlock (block : Bytes) : Bool :=
  if block.length < maxCksumSize then false
  else
    let body := block.drop maxCksumSize
    if body.length % 4 ≠ 0 then false
    else Bytes.ofLE (block.take maxCksumSize) == fletcher64 body

/-! ### Object headers -/

/-- `ObjectType`, with the types that are told apart here. -/
inductive ObjectType where
  | nxSuperblock
  | checkpointMap
  | other (field : Nat)
  deriving DecidableEq, Repr

/-- `from_type_field`; keybags have a type of all 32 bits. -/
def ObjectType.fromTypeField (field : Nat) : ObjectType :=
  if field = 0x6B657973 ∨ field = 0x72656373 ∨ field = 0x6D6B6579 then .other field
  else
    match field % 2 ^ 16 with
    | 0x01 => .nxSuperblock
    | 0x0C => .checkpointMap
    | _ => .other field

def objPhysSize : Nat := 32

structure ObjPhys where
  checksum : Nat
  oid : Nat
  xid : Nat
  subtype : Nat
  rawType : Nat
  deriving DecidableEq, Repr

namespace ObjPhys

def parse (bytes : Bytes) : Except ApfsError ObjPhys :=
  if bytes.length < objPhysSize then .error (.truncated "obj_phys_t" objPhysSize bytes.length)
  else .ok {
    checksum := readU64 bytes 0
    oid := readU64 bytes 8
    xid := readU64 bytes 16
    rawType := bytes.le32 24
    subtype := bytes.le32 28 }

def objectKind (self : ObjPhys) : ObjectType := .fromTypeField self.rawType

end ObjPhys

/-! ### Container superblocks -/

structure CheckpointArea where
  blocks : Nat
  base : Int
  next : Nat
  index : Nat
  len : Nat
  deriving DecidableEq, Repr

structure Prange where
  start : Int
  blockCount : Nat
  deriving DecidableEq, Repr

structure NxSuperblock where
  xid : Nat
  blockSize : Nat
  blockCount : Nat
  features : Nat
  readonlyCompatibleFeatures : Nat
  incompatibleFeatures : Nat
  flags : Nat
  uuid : Bytes
  nextOid : Nat
  nextXid : Nat
  xpDesc : CheckpointArea
  xpData : CheckpointArea
  spacemanOid : Nat
  omapOid : Nat
  reaperOid : Nat
  fsOids : List Nat
  efiJumpstart : Int
  keylocker : Prange
  fusionWbc : Prange
  deriving DecidableEq, Repr

namespace NxSuperblock

def nxSuperblockSize : Nat := 1408

/-- The bytes `NXSB`. -/
def nxMagic : Nat := 0x4253584E

def nxMaxFileSystems : Nat := 100

/-- An `i64` field. -/
def i64At (block : Bytes) (off : Nat) : Int := toI64 (readU64 block off)

/-- The fields of a superblock as they are stored. -/
def ofBlock (block : Bytes) : NxSuperblock where
  xid := readU64 block 16
  blockSize := block.le32 36
  blockCount := readU64 block 40
  features := readU64 block 48
  readonlyCompatibleFeatures := readU64 block 56
  incompatibleFeatures := readU64 block 64
  flags := readU64 block 1264
  uuid := block.slice 72 16
  nextOid := readU64 block 88
  nextXid := readU64 block 96
  xpDesc :=
    { blocks := block.le32 104, base := i64At block 112, next := block.le32 128
      index := block.le32 136, len := block.le32 140 }
  xpData :=
    { blocks := block.le32 108, base := i64At block 120, next := block.le32 132
      index := block.le32 144, len := block.le32 148 }
  spacemanOid := readU64 block 152
  omapOid := readU64 block 160
  reaperOid := readU64 block 168
  fsOids := ((List.range nxMaxFileSystems).map fun i => readU64 block (184 + i * 8))
    |>.take (block.le32 180) |>.filter (· ≠ 0)
  efiJumpstart := i64At block 1272
  keylocker := { start := i64At block 1296, blockCount := readU64 block 1304 }
  fusionWbc := { start := i64At block 1368, blockCount := readU64 block 1376 }

/-- An error in a superblock. -/
def malformed (reason : String) : ApfsError := .malformed "nx_superblock_t" reason

def parse (block : Bytes) : Except ApfsError NxSuperblock :=
  if block.length < nxSuperblockSize then
    .error (.truncated "nx_superblock_t" nxSuperblockSize block.length)
  else do
    let header ← ObjPhys.parse block
    if header.objectKind ≠ .nxSuperblock then
      .error (malformed "object type is not a container superblock")
    else if block.le32 32 ≠ nxMagic then
      .error (.invalidMagic "nx_superblock_t" nxMagic (block.le32 32))
    else
      let blockSize := block.le32 36
      if ¬ (4096 ≤ blockSize ∧ blockSize ≤ 65536) ∨ ¬ blockSize.isPowerOfTwo then
        .error (malformed "block size is not a power of two within 4 KiB..=64 KiB")
      -- the bits of the features this parser understands are 1 and 8
      else if readU64 block 64 &&& (2 ^ 64 - 1 - 0x102) ≠ 0 then
        .error (.unsupported "unrecognized incompatible container feature flag")
      else if nxMaxFileSystems < block.le32 180 then
        .error (malformed "nx_max_file_systems exceeds NX_MAX_FILE_SYSTEMS")
      else .ok { ofBlock block with xid := header.xid }

end NxSuperblock

/-! ### Mapping blocks -/

structure CheckpointMapping where
  objType : Nat
  subtype : Nat
  size : Nat
  fsOid : Nat
  oid : Nat
  paddr : Int
  deriving DecidableEq, Repr

structure CheckpointMapPhys where
  flags : Nat
  mappings : List CheckpointMapping
  deriving DecidableEq, Repr

namespace CheckpointMapPhys

def checkpointMapHeaderSize : Nat := 40

def checkpointMappingSize : Nat := 40

/-- The mapping at an offset of the block. -/
def mappingAt (block : Bytes) (start : Nat) : CheckpointMapping where
  objType := block.le32 start
  subtype := block.le32 (start + 4)
  size := block.le32 (start + 8)
  fsOid := readU64 block (start + 16)
  oid := readU64 block (start + 24)
  paddr := NxSuperblock.i64At block (start + 32)

def parse (block : Bytes) : Except ApfsError CheckpointMapPhys :=
  if block.length < checkpointMapHeaderSize then
    .error (.truncated "checkpoint_map_phys_t" checkpointMapHeaderSize block.length)
  else
    let count := block.le32 36
    if block.length < checkpointMapHeaderSize + count * checkpointMappingSize then
      .error (.malformed "checkpoint_map_phys_t" "mapping count exceeds the block")
    else .ok {
      flags := block.le32 32
      mappings := (List.range count).map fun i =>
        mappingAt block (checkpointMapHeaderSize + i * checkpointMappingSize) }

end CheckpointMapPhys

structure Checkpoint where
  superblock : NxSuperblock
  mappings : List CheckpointMapping
  deriving DecidableEq, Repr

/-! ### The descriptor area -/

structure DescFragment where
  startIndex : Nat
  physAddr : Nat
  blockCount : Nat
  deriving DecidableEq, Repr

inductive DescriptorArea where
  | contiguous (base : Nat)
  | fragmented (fragments : List DescFragment)
  deriving DecidableEq, Repr

/-- `checked_add` of 64 bits. -/
def checkedAdd64 (a b : Nat) : Option Nat := if a + b < 2 ^ 64 then some (a + b) else none

namespace DescriptorArea

def blockAddr (self : DescriptorArea) (index : Nat) : Option Nat :=
  match self with
  | .contiguous base => checkedAdd64 base index
  | .fragmented fragments => fragments.findSome? fun fragment =>
    if index < fragment.startIndex then none
    else if index - fragment.startIndex < fragment.blockCount then
      checkedAdd64 fragment.physAddr (index - fragment.startIndex)
    else none

end DescriptorArea

/-- An error in the descriptor tree. -/
def treeMalformed (reason : String) : ApfsError := .malformed "checkpoint descriptor tree" reason

def parseDescFragment (entry : Entry) : Except ApfsError DescFragment :=
  if entry.key.length < 8 then .error (treeMalformed "leaf key is not a u64 block offset")
  else
    match entry.value with
    | none => .error (treeMalformed "leaf entry has no prange value")
    | some value =>
      if value.length < 16 then .error (treeMalformed "leaf value is shorter than a prange_t")
      else if NxSuperblock.i64At value 0 < 0 then
        .error (treeMalformed "fragment physical address is negative")
      else .ok {
        startIndex := readU64 entry.key 0
        physAddr := (NxSuperblock.i64At value 0).toNat
        blockCount := readU64 value 8 }

/-- The fragments of a leaf. -/
def leafFragments (node : BtreeNode) : Except ApfsError (List DescFragment) :=
  (List.range node.nkeys).mapM fun i => do
    let entry ← node.entry i 8 16
    parseDescFragment entry

/-- The children of another node. -/
def childPointers (node : BtreeNode) : Except ApfsError (List Nat) :=
  (List.range node.nkeys).mapM fun i => do
    let entry ← node.entry i 8 8
    match entry.value with
    | none => .error (treeMalformed "non-leaf entry has no child pointer")
    | some child =>
      if child.length < 8 then .error (treeMalformed "non-leaf child pointer is not an object id")
      else .ok (readU64 child 0)

def maxDescTreeNodes : Nat := 4096

/-- `descriptor_ring_length`: the highest bit is a flag. -/
def descriptorRingLength (descBlocks : Nat) : Nat := descBlocks % 2 ^ 31

section Scan

variable {m : Type → Type} [Monad m] [MonadExceptOf ApfsError m] (read : Nat → m Bytes)

/-- The node at a block of the descriptor tree. -/
def readTreeNode (addr : Nat) : m BtreeNode := do
  let block ← read addr
  if verifyBlock block = false then throw (.checksumMismatch addr)
  else ofExcept (BtreeNode.parse block)

/-- The loop of `read_descriptor_tree`: how many nodes may still be visited, and the addresses that
    are pending, the last one first. -/
def visitTree : Nat → List Nat → List DescFragment → m (List DescFragment)
  | _, [], fragments => pure fragments
  | 0, _ :: _, _ => throw (treeMalformed "tree has too many nodes — corrupt or cyclic")
  | left + 1, addr :: pending, fragments => do
    let node ← readTreeNode read addr
    if node.isLeaf then do
      let found ← ofExcept (leafFragments node)
      visitTree left pending (fragments ++ found)
    else do
      let children ← ofExcept (childPointers node)
      visitTree left (children.reverse ++ pending) fragments

def readDescriptorTree (rootAddr : Nat) : m DescriptorArea := do
  let fragments ← visitTree read maxDescTreeNodes [rootAddr] []
  pure (.fragmented (fragments.insertionSort fun a b => a.startIndex ≤ b.startIndex))

/-- What the scan takes from a block of the area. -/
def candidateOf (block : Bytes) : Option NxSuperblock :=
  if verifyBlock block = false then none
  else
    match ObjPhys.parse block with
    | .error _ => none
    | .ok header =>
      if header.objectKind ≠ .nxSuperblock then none else (NxSuperblock.parse block).toOption

/-- The loop that collects superblocks: the blocks that are left, and the index. -/
def collectCandidates (area : DescriptorArea) :
    Nat → Nat → List NxSuperblock → m (List NxSuperblock)
  | 0, _, candidates => pure candidates
  | left + 1, i, candidates =>
    match area.blockAddr i with
    | none => collectCandidates area left (i + 1) candidates
    | some addr => do
      let block ← read addr
      collectCandidates area left (i + 1) (candidates ++ (candidateOf block).toList)

/-- What `gather_mappings` takes from an object of the span. -/
def mappingsOfKind (block : Bytes) : ObjectType → Except ApfsError (Option (List CheckpointMapping))
  -- the superblock itself is in the range as well
  | .nxSuperblock => .ok (some [])
  | .checkpointMap => do
    let map ← CheckpointMapPhys.parse block
    .ok (some map.mappings)
  | .other _ => .ok none

/-- What `gather_mappings` takes from a block of the span; nothing from one that is torn. -/
def mappingsOf (block : Bytes) : Except ApfsError (Option (List CheckpointMapping)) :=
  if verifyBlock block = false then .ok none
  else
    match ObjPhys.parse block with
    | .error _ => .ok none
    | .ok header => mappingsOfKind block header.objectKind

/-- The loop of `gather_mappings`: the blocks of the span that are left, and their place in it. -/
def gatherFrom (area : DescriptorArea) (ringLen start : Nat) :
    Nat → Nat → List CheckpointMapping → m (Option (List CheckpointMapping))
  | 0, _, mappings => pure (some mappings)
  | left + 1, j, mappings =>
    match area.blockAddr ((start + j) % ringLen) with
    | none => pure none
    | some addr => do
      let block ← read addr
      match ← ofExcept (mappingsOf block) with
      | none => pure none
      | some more => gatherFrom area ringLen start left (j + 1) (mappings ++ more)

def gatherMappings (area : DescriptorArea) (ringLen : Nat) (superblock : NxSuperblock) :
    m (Option (List CheckpointMapping)) :=
  let span := superblock.xpDesc.len
  let start := superblock.xpDesc.index
  if span = 0 ∨ ringLen < span ∨ ringLen ≤ start then pure none
  else gatherFrom read area ringLen start span 0 []

/-- The loop over the candidates. -/
def firstValid (area : DescriptorArea) (ringLen : Nat) : List NxSuperblock → m Checkpoint
  | [] => throw (.notFound "valid checkpoint")
  | superblock :: candidates => do
    match ← gatherMappings read area ringLen superblock with
    | some mappings => pure { superblock, mappings }
    | none => firstValid area ringLen candidates

/-- The area that block zero describes. -/
def descriptorArea (desc : CheckpointArea) : m DescriptorArea :=
  if desc.base < 0 then
    throw (NxSuperblock.malformed "checkpoint descriptor base is not a valid address")
  else if descriptorRingLength desc.blocks = 0 then
    throw (.notFound "checkpoint descriptor area")
  else if desc.blocks.testBit 31 then readDescriptorTree read desc.base.toNat
  else pure (.contiguous desc.base.toNat)

/-- `latest_checkpoint`, with what reads the blocks. -/
def latestCheckpointWith (desc : CheckpointArea) : m Checkpoint := do
  let ringLen := descriptorRingLength desc.blocks
  let area ← descriptorArea read desc
  let candidates ← collectCandidates read area ringLen 0 []
  -- the newest transaction first
  firstValid read area ringLen (candidates.insertionSort fun a b => b.xid ≤ a.xid)

end Scan

def latestCheckpoint {ε σ : Type} (fs : BlockReader ε σ) (blockZero : NxSuperblock) :
    EStateM ApfsError σ Checkpoint :=
  latestCheckpointWith (readBlock fs blockZero.blockSize) blockZero.xpDesc

end Fsmnt.FsApfs
