import Fsmnt.Native.FsExt.Basic

/-!
# The jbd2 superblock

`journal/superblock.rs` and `journal/features.rs`: the on-disk journal superblock, the
checks `parse_journal_superblock` applies to it, and the `JournalSource` it yields.
All multi-byte fields are big-endian.
-/

namespace Fsmnt.FsExt

/-- Journal magic number. -/
def JBD_MAGIC : Nat := 0xC03B3998

/-! ### Features -/

/-- How the journal validates transactions. -/
inductive JournalChecksumMode where
  | none
  | compatCrc32
  | v2Crc32c
  | v3Crc32c
  deriving Repr, DecidableEq

/-- `CSUM_V2` or `CSUM_V3`: the modes with CRC32C block tails and tag checksums. -/
def JournalChecksumMode.isCrc32c : JournalChecksumMode → Bool
  | .v2Crc32c | .v3Crc32c => true
  | .none | .compatCrc32 => false

/-- Journal superblock version discriminated by `h_blocktype`. -/
inductive JournalSuperblockVersion where
  | v1
  | v2
  deriving Repr, DecidableEq

/-- The orthogonal incompat bits that survive into replay behaviour. -/
structure JournalIncompatFeatures where
  revoke : Bool := false
  is64bit : Bool := false
  asyncCommit : Bool := false
  fastCommit : Bool := false
  deriving Repr, DecidableEq

/-! ### On-disk fields -/

/-- The 12-byte header present on every jbd2 metadata block. -/
structure JbdHeader where
  hMagic : Nat
  hBlocktype : Nat
  hSequence : Nat
  deriving Repr, DecidableEq

/-- `JbdHeader::ref_from_bytes(&block[..12])`. -/
def JbdHeader.ofBytes (block : Bytes) : JbdHeader where
  hMagic := block.be32 0x0
  hBlocktype := block.be32 0x4
  hSequence := block.be32 0x8

/-- The fields of the raw superblock that the parser reads. -/
structure JbdSuperblockRaw where
  sHeader : JbdHeader
  sBlocksize : Nat
  sMaxlen : Nat
  sFirst : Nat
  sSequence : Nat
  sStart : Nat
  sFeatureCompat : Nat
  sFeatureIncompat : Nat
  sUuid : Bytes
  sChecksumType : Nat
  sNumFcBlocks : Nat

/-- `JbdSuperblockRaw::ref_from_bytes`, on a buffer of the right length. -/
def JbdSuperblockRaw.ofBytes (buf : Bytes) : JbdSuperblockRaw where
  sHeader := JbdHeader.ofBytes buf
  sBlocksize := buf.be32 0x0C
  sMaxlen := buf.be32 0x10
  sFirst := buf.be32 0x14
  sSequence := buf.be32 0x18
  sStart := buf.be32 0x1C
  sFeatureCompat := buf.be32 0x24
  sFeatureIncompat := buf.be32 0x28
  sUuid := buf.slice 0x30 16
  sChecksumType := (buf.getD 0x50 0).toNat
  sNumFcBlocks := buf.be32 0x54

/-- Offset of `s_checksum` within the superblock. -/
def JBD_SB_CHECKSUM_OFFSET : Nat := 0xFC

/-- Validate the journal magic and decode `h_blocktype` into a version. -/
def parseSuperblockVersion (buf : Bytes) : Except ExtError JournalSuperblockVersion :=
  if buf.length ≠ 1024 then
    .error (.invalidJournalSuperblock "superblock buffer too short")
  else
    let sb := JbdSuperblockRaw.ofBytes buf
    if sb.sHeader.hMagic ≠ JBD_MAGIC then
      .error (.invalidJournalSuperblock "bad magic")
    else
      match sb.sHeader.hBlocktype with
      | 3 => .ok .v1
      | 4 => .ok .v2
      | _ => .error (.invalidJournalSuperblock "invalid h_blocktype")

/-- Verify the jbd2 superblock checksum, computed with `s_checksum` zeroed. -/
def verifyJbdSuperblockChecksum [Crc] (buf : Bytes) : Except ExtError Unit :=
  let stored := buf.be32 JBD_SB_CHECKSUM_OFFSET
  let scratch := buf.splice JBD_SB_CHECKSUM_OFFSET [0, 0, 0, 0]
  let computed := ext4Crc32c 0xFFFFFFFF scratch
  if computed.toNat = stored then .ok ()
  else .error (.invalidJournalSuperblock "superblock checksum invalid")

/-! ### Parsed superblock -/

/-- Parsed journal superblock: all fields normalized from on-disk bytes. -/
structure JournalSource where
  blockSize : Nat
  maxlen : Nat
  first : Nat
  sequence : Nat
  start : Nat
  version : JournalSuperblockVersion
  features : JournalIncompatFeatures
  checksumMode : JournalChecksumMode
  uuid : Bytes
  numFcBlocks : Nat
  deriving Repr, DecidableEq

/-- Kernel default for `s_num_fc_blks` when the on-disk value is zero. -/
def JBD2_DEFAULT_FAST_COMMIT_BLOCKS : Nat := 256

/-- Number of fast-commit blocks to scan, `0` without `INCOMPAT_FAST_COMMIT`. -/
def JournalSource.effectiveNumFcBlocks (s : JournalSource) : Nat :=
  if !s.features.fastCommit then 0
  else if s.numFcBlocks ≠ 0 then s.numFcBlocks
  else JBD2_DEFAULT_FAST_COMMIT_BLOCKS

/-- First block of the fast-commit area, as `FastCommitReplay::build` reads it. -/
def JournalSource.fcFirst (s : JournalSource) : Nat :=
  s.maxlen - s.effectiveNumFcBlocks + 1

def JBD_FEATURE_COMPAT_CHECKSUM : Nat := 0x0001
def JBD_FEATURE_INCOMPAT_REVOKE : Nat := 0x0001
def JBD_FEATURE_INCOMPAT_64BIT : Nat := 0x0002
def JBD_FEATURE_INCOMPAT_ASYNC_COMMIT : Nat := 0x0004
def JBD_FEATURE_INCOMPAT_CSUM_V2 : Nat := 0x0008
def JBD_FEATURE_INCOMPAT_CSUM_V3 : Nat := 0x0010
def JBD_FEATURE_INCOMPAT_FAST_COMMIT : Nat := 0x0020

def JBD_INCOMPAT_RECOGNIZED : Nat :=
  JBD_FEATURE_INCOMPAT_REVOKE ||| JBD_FEATURE_INCOMPAT_64BIT |||
    JBD_FEATURE_INCOMPAT_ASYNC_COMMIT ||| JBD_FEATURE_INCOMPAT_CSUM_V2 |||
    JBD_FEATURE_INCOMPAT_CSUM_V3 ||| JBD_FEATURE_INCOMPAT_FAST_COMMIT

structure JournalGeometry where
  blockSize : Nat
  maxlen : Nat
  first : Nat

def isPowerOfTwo (n : Nat) : Bool := (List.range 32).any (fun k => n == 2 ^ k)

def journalGeometry (sb : JbdSuperblockRaw) : Except ExtError JournalGeometry :=
  if sb.sBlocksize < 1024 || !isPowerOfTwo sb.sBlocksize then
    .error (.invalidJournalSuperblock "invalid s_blocksize")
  else if sb.sMaxlen = 0 then
    .error (.invalidJournalSuperblock "s_maxlen is zero")
  else if sb.sFirst ≥ sb.sMaxlen then
    .error (.invalidJournalSuperblock "s_first >= s_maxlen")
  else
    .ok { blockSize := sb.sBlocksize, maxlen := sb.sMaxlen, first := sb.sFirst }

def checksumModeFromFeatures (sb : JbdSuperblockRaw) (rawIncompat : Nat) :
    Except ExtError JournalChecksumMode :=
  let unknown := rawIncompat &&& (0xFFFFFFFF ^^^ JBD_INCOMPAT_RECOGNIZED)
  if unknown ≠ 0 then
    .error (.journalUnsupportedFeature unknown)
  else
    let hasV2 := rawIncompat &&& JBD_FEATURE_INCOMPAT_CSUM_V2 ≠ 0
    let hasV3 := rawIncompat &&& JBD_FEATURE_INCOMPAT_CSUM_V3 ≠ 0
    if hasV2 ∧ hasV3 then
      .error (.journalInvariant .checksumModeConflict)
    else
      let mode :=
        if hasV3 then JournalChecksumMode.v3Crc32c
        else if hasV2 then .v2Crc32c
        else if sb.sFeatureCompat &&& JBD_FEATURE_COMPAT_CHECKSUM ≠ 0 then .compatCrc32
        else .none
      if rawIncompat &&& JBD_FEATURE_INCOMPAT_ASYNC_COMMIT ≠ 0 ∧ !mode.isCrc32c then
        .error (.journalInvariant .asyncWithoutCsum)
      else if mode.isCrc32c ∧ sb.sChecksumType ≠ 4 then
        .error (.journalUnsupportedChecksumType sb.sChecksumType)
      else
        .ok mode

def normalizedIncompatFeatures (rawIncompat : Nat) : JournalIncompatFeatures where
  revoke := rawIncompat &&& JBD_FEATURE_INCOMPAT_REVOKE ≠ 0
  is64bit := rawIncompat &&& JBD_FEATURE_INCOMPAT_64BIT ≠ 0
  asyncCommit := rawIncompat &&& JBD_FEATURE_INCOMPAT_ASYNC_COMMIT ≠ 0
  fastCommit := rawIncompat &&& JBD_FEATURE_INCOMPAT_FAST_COMMIT ≠ 0

/-- Parse a jbd2 superblock buffer into a normalized `JournalSource`. -/
def parseJournalSuperblock [Crc] (buf : Bytes) : Except ExtError JournalSource := do
  let version ← parseSuperblockVersion buf
  let sb := JbdSuperblockRaw.ofBytes buf
  let geometry ← journalGeometry sb
  match version with
  | .v1 =>
    return {
      blockSize := geometry.blockSize, maxlen := geometry.maxlen, first := geometry.first,
      sequence := sb.sSequence, start := sb.sStart, version := version, features := {},
      checksumMode := .none, uuid := List.replicate 16 0, numFcBlocks := 0 }
  | .v2 =>
    let rawIncompat := sb.sFeatureIncompat
    let checksumMode ← checksumModeFromFeatures sb rawIncompat
    if checksumMode.isCrc32c then
      verifyJbdSuperblockChecksum buf
    return {
      blockSize := geometry.blockSize, maxlen := geometry.maxlen, first := geometry.first,
      sequence := sb.sSequence, start := sb.sStart, version := version,
      features := normalizedIncompatFeatures rawIncompat, checksumMode := checksumMode,
      uuid := sb.sUuid, numFcBlocks := sb.sNumFcBlocks }

/-! ### What an accepted superblock guarantees -/

/-- The bounds that hold of every parsed superblock. -/
structure JournalSource.Valid (s : JournalSource) : Prop where
  blockSize_ge : 1024 ≤ s.blockSize
  first_lt : s.first < s.maxlen
  maxlen_lt : s.maxlen < 2 ^ 32
  start_lt : s.start < 2 ^ 32
  sequence_lt : s.sequence < 2 ^ 32

/-- A superblock buffer that parses carries the journal magic and a superblock type. -/
theorem parseSuperblockVersion_ok (buf : Bytes) (version : JournalSuperblockVersion)
    (h : parseSuperblockVersion buf = .ok version) :
    buf.length = 1024 ∧ (JbdHeader.ofBytes buf).hMagic = JBD_MAGIC ∧
      ((JbdHeader.ofBytes buf).hBlocktype = 3 ∨ (JbdHeader.ofBytes buf).hBlocktype = 4) := by
  have hhdr : (JbdSuperblockRaw.ofBytes buf).sHeader = JbdHeader.ofBytes buf := rfl
  rw [← hhdr]
  unfold parseSuperblockVersion at h
  split at h
  · cases h
  · rename_i hlen
    dsimp only at h
    split at h
    · cases h
    · rename_i hmagic
      refine ⟨not_not.mp hlen, not_not.mp hmagic, ?_⟩
      split at h
      · exact .inl ‹_›
      · exact .inr ‹_›
      · cases h

/-- An accepted geometry is non-empty and starts inside the journal. -/
theorem journalGeometry_ok (sb : JbdSuperblockRaw) (g : JournalGeometry)
    (h : journalGeometry sb = .ok g) :
    1024 ≤ g.blockSize ∧ g.first < g.maxlen ∧ g.maxlen = sb.sMaxlen := by
  simp only [journalGeometry] at h
  split at h
  · cases h
  · rename_i hsize
    split at h
    · cases h
    · split at h
      · cases h
      · rename_i hfirst
        cases h
        simp only [Bool.or_eq_true, decide_eq_true_eq, not_or] at hsize
        exact ⟨Nat.not_lt.mp hsize.1, Nat.not_le.mp hfirst, rfl⟩

/-- `parse_journal_superblock` only accepts superblocks with sound bounds. -/
theorem parseJournalSuperblock_ok [Crc] (buf : Bytes) (source : JournalSource)
    (h : parseJournalSuperblock buf = .ok source) :
    source.Valid ∧ buf.length = 1024 ∧ (JbdHeader.ofBytes buf).hMagic = JBD_MAGIC ∧
      ((JbdHeader.ofBytes buf).hBlocktype = 3 ∨ (JbdHeader.ofBytes buf).hBlocktype = 4) := by
  simp only [parseJournalSuperblock, bind, Except.bind] at h
  cases hversion : parseSuperblockVersion buf with
  | error e => rw [hversion] at h; cases h
  | ok version =>
    rw [hversion] at h
    simp only at h
    refine ⟨?_, parseSuperblockVersion_ok buf version hversion⟩
    cases hgeometry : journalGeometry (JbdSuperblockRaw.ofBytes buf) with
    | error e => rw [hgeometry] at h; cases h
    | ok g =>
      rw [hgeometry] at h
      obtain ⟨hsize, hfirst, hmaxlen⟩ := journalGeometry_ok _ g hgeometry
      have hmax : g.maxlen < 2 ^ 32 := by rw [hmaxlen]; exact Bytes.be32_lt buf 0x10
      have hstart := Bytes.be32_lt buf 0x1C
      have hseq := Bytes.be32_lt buf 0x18
      cases version with
      | v1 =>
        cases h
        exact ⟨hsize, hfirst, hmax, hstart, hseq⟩
      | v2 =>
        simp only at h
        split at h
        · cases h
        · split at h
          · split at h
            · cases h
            · cases h
              exact ⟨hsize, hfirst, hmax, hstart, hseq⟩
          · cases h
            exact ⟨hsize, hfirst, hmax, hstart, hseq⟩

end Fsmnt.FsExt
