import Fsmnt.Native.FsExt.Basic

/-!
# Metadata checksums

`checksum.rs`: the CRC32C and CRC16 checksums of the metadata structures that the mutator
writes, and the checks that reading applies to extent and directory blocks.
-/

namespace Fsmnt.FsExt

open Bytes List

/-- Tri-state checksum validation result. -/
inductive ChecksumState where
  | unknown
  | valid
  | invalid
  deriving Repr, DecidableEq

variable [Crc]

/-- The low and high 16 bits of a checksum, as little-endian bytes. -/
def crcLo (crc : UInt32) : Bytes := toLE 2 crc.toNat

def crcHi (crc : UInt32) : Bytes := toLE 2 (crc.toNat / 2 ^ 16)

/-- `compute_superblock_csum` of the 1024 bytes of a superblock. -/
def computeSuperblockCsum (sb : Bytes) : UInt32 := ext4Crc32c 0xFFFFFFFF (sb.slice 0 0x3FC)

variable (seed : UInt32) (ino generation : Nat) (block : Bytes)

def computeGroupDescriptorCsumCrc32c (group : Nat) (desc : Bytes) : Bytes :=
  let crc := ext4Crc32c seed (toLE 4 group)
  let crc := ext4Crc32c crc (desc.slice 0 0x1E)
  let crc := ext4Crc32c crc (replicate 2 0)
  let crc := if desc.length > 0x1E + 2 then ext4Crc32c crc (desc.drop (0x1E + 2)) else crc
  crcLo crc

omit [Crc] in
/-- `compute_group_descriptor_csum_crc16`: the checksum field is stepped over. -/
def computeGroupDescriptorCsumCrc16 (uuid : Bytes) (group : Nat) (desc : Bytes) : Bytes :=
  let crc := ext4Crc16 0xFFFF uuid
  let crc := ext4Crc16 crc (toLE 4 group)
  let crc := ext4Crc16 crc (desc.slice 0 0x1E)
  let crc := if desc.length > 0x20 then ext4Crc16 crc (desc.drop 0x20) else crc
  toLE 2 crc.toNat

/-- `compute_inode_csum`: the checksum whose halves go to `0x7C` and `0x82`. -/
def computeInodeCsum (inode : Bytes) (hasHi : Bool) : UInt32 :=
  let crc := ext4Crc32c seed (toLE 4 ino)
  let crc := ext4Crc32c crc (toLE 4 generation)
  let crc := ext4Crc32c crc (inode.slice 0 0x7C)
  let crc := ext4Crc32c crc (replicate 2 0)
  let crc := ext4Crc32c crc (inode.slice 0x7E 2)
  if inode.length > 128 then
    let crc := ext4Crc32c crc (inode.slice 0x80 2)
    let crc := if hasHi then ext4Crc32c crc (replicate 2 0)
      else ext4Crc32c crc (inode.slice 0x82 2)
    if inode.length > 0x84 then ext4Crc32c crc (inode.drop 0x84) else crc
  else crc

def computeXattrBlockCsum (blockNum : Nat) (block : Bytes) : UInt32 :=
  let crc := ext4Crc32c seed (toLE 8 blockNum)
  let crc := ext4Crc32c crc (block.slice 0 0x10)
  let crc := ext4Crc32c crc (replicate 4 0)
  ext4Crc32c crc (block.drop 0x14)

def verifyXattrBlock (blockNum : Nat) (block : Bytes) : ChecksumState :=
  if block.length < 32 then .unknown
  else if (computeXattrBlockCsum seed blockNum block).toNat = block.le32 0x10 then .valid
  else .invalid

def computeBitmapCsum : UInt32 := ext4Crc32c seed block

def computeOrphanFileBlockCsum (inum generation physBlockNum : Nat) (block : Bytes) : UInt32 :=
  let crc := ext4Crc32c seed (toLE 4 inum)
  let crc := ext4Crc32c crc (toLE 4 generation)
  let crc := ext4Crc32c crc (toLE 8 physBlockNum)
  ext4Crc32c crc (block.slice 0 (block.length - 8))

def inodeCrcPrefix : UInt32 := ext4Crc32c (ext4Crc32c seed (toLE 4 ino)) (toLE 4 generation)

/-- The checksum of an extent block whose tail stands at `tailOff`. -/
def extentTailCrc (tailOff : Nat) : UInt32 :=
  let crc := inodeCrcPrefix seed ino generation
  let crc := ext4Crc32c crc (block.slice 0 tailOff)
  let crc := ext4Crc32c crc (replicate 4 0)
  if tailOff + 4 < block.length then ext4Crc32c crc (block.drop (tailOff + 4)) else crc

def verifyExtentBlock : ChecksumState :=
  if block.length < 12 then .unknown
  else
    let tailOff := 12 + block.le16 4 * 12
    if tailOff + 4 > block.length then .unknown
    else if (extentTailCrc seed ino generation block tailOff).toNat = block.le32 tailOff then .valid
    else .invalid

def computeExtentBlockCsum (inum generation : Nat) (block : Bytes) : UInt32 :=
  if block.length < 12 then 0
  else
    let tailOff := 12 + block.le16 4 * 12
    if tailOff + 4 > block.length then 0 else extentTailCrc seed inum generation block tailOff

def verifyDirBlock : ChecksumState :=
  if block.length < 12 then .unknown
  else
    let tailOff := block.length - 12
    if block.getD (tailOff + 7) 0 ≠ 0xDE then .unknown
    else
      let crc := ext4Crc32c (inodeCrcPrefix seed ino generation) (block.slice 0 tailOff)
      if crc.toNat = block.le32 (tailOff + 8) then .valid else .invalid

/-- `verify_dx_tail`: a tail that was never written passes as unknown. -/
def verifyDxTail (countLimitOff count limit : Nat) : ChecksumState :=
  let dataEnd := countLimitOff + count * 8
  let tailOff := countLimitOff + limit * 8
  let csumOff := tailOff + 4
  if dataEnd > block.length ∨ csumOff + 4 > block.length then .unknown
  else if block.le32 csumOff = 0 ∧ block.le32 tailOff = 0 then .unknown
  else
    let crc := inodeCrcPrefix seed ino generation
    let crc := ext4Crc32c crc (block.slice 0 dataEnd)
    let crc := ext4Crc32c crc (block.slice tailOff 4)
    let crc := ext4Crc32c crc (replicate 4 0)
    if crc.toNat = block.le32 csumOff then .valid else .invalid

/-- `compute_dx_tail`, which `compute_dx_root_csum` calls with `0x20` and
    `compute_dx_node_csum` with `0x08`. -/
def computeDxTail (countLimitOff count limit : Nat) : Bytes :=
  let dataEnd := countLimitOff + count * 8
  let tailOff := countLimitOff + limit * 8
  let csumOff := tailOff + 4
  if dataEnd > block.length ∨ csumOff + 4 > block.length then block
  else
    let block := block.splice csumOff (replicate 4 0)
    let crc := inodeCrcPrefix seed ino generation
    let crc := ext4Crc32c crc (block.slice 0 dataEnd)
    let crc := ext4Crc32c crc (block.slice tailOff 4)
    let crc := ext4Crc32c crc (replicate 4 0)
    block.splice csumOff (toLE 4 crc.toNat)

def computeDxRootCsum (count limit : Nat) : Bytes :=
  computeDxTail seed ino generation block 0x20 count limit

def computeDxNodeCsum (count limit : Nat) : Bytes :=
  computeDxTail seed ino generation block 0x08 count limit

end Fsmnt.FsExt
