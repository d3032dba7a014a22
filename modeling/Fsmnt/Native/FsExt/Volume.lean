import Fsmnt.Native.FsExt.Basic

/-!
# The opened filesystem

The fields of `Ext` that the modelled functions read, the block device under it, and the
block overlay that replay produces. A device is a pure function from a byte range to
its content: seeking and then filling a buffer.

`Ext` and `GdtLayout` carry what `Ext::open_impl` checks before it builds one.
-/

namespace Fsmnt.FsExt

/-- `seek(SeekFrom::Start(off))` followed by `read_exact` of `len` bytes. -/
structure FsReader where
  readExact : (off len : Nat) → Except ExtError Bytes
  length_readExact : ∀ off len bs, readExact off len = .ok bs → bs.length = len

/-- A device of zeros. Only concrete runs use it. -/
def zeroDevice : FsReader where
  readExact _ len := .ok (List.replicate len 0)
  length_readExact off len bs h := by cases h; simp

/-! ### Geometry -/

/-- Group-descriptor-table layout (`block_group.rs`). -/
structure GdtLayout where
  firstDataBlock : Nat
  blockSize : Nat
  blocksPerGroup : Nat
  descSize : Nat
  firstMetaBg : Nat
  metaBg : Bool
  sparseSuper : Bool
  sparseSuper2 : Bool
  backupBgs : List Nat
  groupCount : Nat
  reservedGdtBlocks : Nat
  descSize_ge : 32 ≤ descSize
  descSize_dvd : descSize ∣ blockSize
  blockSize_pos : 0 < blockSize

namespace GdtLayout

def descPerBlock (layout : GdtLayout) : Nat := layout.blockSize / layout.descSize

/-- `group_count.div_ceil(desc_per_block)`. -/
def totalDescBlocks (layout : GdtLayout) : Nat :=
  (layout.groupCount + layout.descPerBlock - 1) / layout.descPerBlock

end GdtLayout

/-- Group descriptor with combined 64-bit fields. -/
structure GroupDescriptor where
  inodeTable : Nat
  blockBitmap : Nat
  inodeBitmap : Nat
  flags : Nat
  deriving Repr, DecidableEq

/-- An opened filesystem. The feature words enter as the bits that are tested. -/
structure Ext where
  inodesCount : Nat
  blocksCount : Nat
  blockSize : Nat
  inodesPerGroup : Nat
  inodeSize : Nat
  firstDataBlock : Nat
  gdtLayout : GdtLayout
  blocksPerGroup : Nat
  blocksPerCluster : Nat
  clustersPerGroup : Nat
  backupBgs : List Nat
  descSize : Nat
  is64bit : Bool
  uuid : Bytes
  hashSeed : UInt32 × UInt32 × UInt32 × UInt32
  groupDescs : List GroupDescriptor
  checksumSeed : Option UInt32
  hasMetadataCsum : Bool
  hasGdtCsum : Bool
  hasFiletype : Bool
  sparseSuper : Bool
  sparseSuper2 : Bool
  blockSize_ge : 1024 ≤ blockSize
  inodeSize_ge : 128 ≤ inodeSize
  inodeSize_dvd : inodeSize ∣ blockSize
  inodesPerGroup_pos : 0 < inodesPerGroup
  blocksPerCluster_pos : 0 < blocksPerCluster
  clustersPerGroup_pos : 0 < clustersPerGroup
  blocksPerGroup_eq : clustersPerGroup * blocksPerCluster = blocksPerGroup
  gdtLayout_blockSize : gdtLayout.blockSize = blockSize
  gdtLayout_descSize : gdtLayout.descSize = descSize

/-- The smallest block size is allowed. -/
theorem blockSize_1024_ge : 1024 ≤ 1024 := Nat.le_refl _

/-- A filesystem with 1 KiB blocks, one group of them described by each of `groupDescs`, and
    no optional feature. Only concrete runs use it. -/
def Ext.plain (blocksCount inodesCount : Nat) (groupDescs : List GroupDescriptor) : Ext where
  inodesCount := inodesCount
  blocksCount := blocksCount
  blockSize := 1024
  inodesPerGroup := 64
  inodeSize := 128
  firstDataBlock := 1
  gdtLayout :=
    { firstDataBlock := 1, blockSize := 1024, blocksPerGroup := 8192, descSize := 32,
      firstMetaBg := 0, metaBg := false, sparseSuper := false, sparseSuper2 := false,
      backupBgs := [0, 0], groupCount := groupDescs.length, reservedGdtBlocks := 0,
      descSize_ge := by decide, descSize_dvd := by decide, blockSize_pos := by decide }
  blocksPerGroup := 8192
  blocksPerCluster := 1
  clustersPerGroup := 8192
  backupBgs := [0, 0]
  descSize := 32
  is64bit := false
  uuid := List.replicate 16 0
  hashSeed := (0, 0, 0, 0)
  groupDescs := groupDescs
  checksumSeed := none
  hasMetadataCsum := false
  hasGdtCsum := false
  hasFiletype := true
  sparseSuper := false
  sparseSuper2 := false
  blockSize_ge := blockSize_1024_ge
  inodeSize_ge := by decide
  inodeSize_dvd := by decide
  inodesPerGroup_pos := by decide
  blocksPerCluster_pos := by decide
  clustersPerGroup_pos := by decide
  blocksPerGroup_eq := by decide
  gdtLayout_blockSize := rfl
  gdtLayout_descSize := rfl

/-! ### Overlay -/

/-- Block-level overlay produced by replay. -/
structure BlockOverlay where
  blockSize : Nat
  blocks : Std.TreeMap Nat Bytes
  sbHostBlock : Nat
  sbHostBlockContent : Bytes

/-- One `read` of an `OverlayReader` at `off`, at most to the end of the block: the
    superblock's host block and the overlaid blocks come from the overlay. -/
def BlockOverlay.readChunk (overlay : BlockOverlay) (inner : FsReader) (off n : Nat) :
    Except ExtError Bytes :=
  let currentBlock := off / overlay.blockSize
  let bsOff := off % overlay.blockSize
  let src := if currentBlock = overlay.sbHostBlock then some overlay.sbHostBlockContent
    else overlay.blocks[currentBlock]?
  match src with
  | some src => if bsOff + n ≤ src.length then .ok (src.slice bsOff n) else .error .panicked
  | none => inner.readExact off n

/-- `read_exact` on an `OverlayReader`: one `read` after the other until `len` bytes are
    there. Every `read` returns at least one byte. -/
def BlockOverlay.readLoop (overlay : BlockOverlay) (inner : FsReader) :
    Nat → Nat → Nat → Except ExtError Bytes
  | _, _, 0 => .ok []
  | 0, _, _ + 1 => .error .io
  | fuel + 1, off, len + 1 =>
    if overlay.blockSize = 0 then .error .io
    else
      let n := min (len + 1) (overlay.blockSize - off % overlay.blockSize)
      match overlay.readChunk inner off n with
      | .error e => .error e
      | .ok chunk =>
        match overlay.readLoop inner fuel (off + n) (len + 1 - n) with
        | .error e => .error e
        | .ok rest => .ok (chunk ++ rest)

variable (overlay : BlockOverlay) (inner : FsReader)

theorem BlockOverlay.length_readChunk (off n : Nat) (bs : Bytes)
    (h : overlay.readChunk inner off n = .ok bs) : bs.length = n := by
  unfold BlockOverlay.readChunk at h
  dsimp only at h
  split at h
  · split at h
    · injection h with h
      rw [← h, Bytes.length_slice]
      omega
    · exact absurd h (by simp)
  · exact inner.length_readExact _ _ _ h

/-- A read is as long as it was asked for. -/
theorem BlockOverlay.length_readLoop (fuel off len : Nat) (bs : Bytes)
    (h : overlay.readLoop inner fuel off len = .ok bs) :
    bs.length = len := by
  induction fuel generalizing off len bs with
  | zero =>
    cases len with
    | zero => injection h with h; rw [← h]; rfl
    | succ len => exact absurd h (by simp [BlockOverlay.readLoop])
  | succ fuel ih =>
    cases len with
    | zero => injection h with h; rw [← h]; rfl
    | succ len =>
      simp only [BlockOverlay.readLoop] at h
      split at h
      · exact absurd h (by simp)
      · rename_i hbs
        have hmod := Nat.mod_lt off (Nat.pos_of_ne_zero hbs)
        split at h
        · exact absurd h (by simp)
        · rename_i chunk hchunk
          split at h
          · exact absurd h (by simp)
          · rename_i rest hrest
            injection h with h
            have h1 := overlay.length_readChunk inner _ _ _ hchunk
            have h2 := ih _ _ _ hrest
            rw [← h, List.length_append, h1, h2]
            omega

/-- `OverlayReader::new(fs, overlay)`. -/
def composeReader (fs : FsReader) (overlay : BlockOverlay) : FsReader where
  readExact off len := overlay.readLoop fs len off len
  length_readExact off len bs h := overlay.length_readLoop fs len off len bs h

end Fsmnt.FsExt
