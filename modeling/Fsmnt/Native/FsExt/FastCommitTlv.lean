import Fsmnt.Native.FsExt.Basic

/-!
# Fast-commit plan and TLV records

`journal/fast_commit/plan.rs` and `journal/fast_commit/tlv.rs`: the types a fast-commit
replay reports with, the tags, and the decoders of the record payloads. All fields are
little-endian.
-/

namespace Fsmnt.FsExt

/-! ### Plan -/

structure FastCommitTagCounts where
  head : Nat := 0
  pad : Nat := 0
  inode : Nat := 0
  creat : Nat := 0
  link : Nat := 0
  unlink : Nat := 0
  addRange : Nat := 0
  delRange : Nat := 0
  tail : Nat := 0
  deriving Repr, DecidableEq

inductive DirectoryReplayReason where
  | htreeNotMaintained
  | parentInodeMissing
  | parentNotADirectory
  deriving Repr, DecidableEq

inductive ExtentReplayReason where
  | extentBlockChecksumInvalid
  | extentHeaderMalformed
  | siblingBlockOutOfRange
  | bigallocPblkNotClusterAligned
  | bigallocPartialClusterDelRange
  deriving Repr, DecidableEq

inductive FastCommitStopReason where
  | unsupportedHeadFeatures (features : Nat)
  | headTidMismatch (expected seen : Nat)
  | tailChecksumInvalid (tidSeen tidExpected crcSeen crcComputed : Nat)
  | malformedRecord (tag fcLen : Nat) (reason : String)
  | unsupportedTag (tag : Nat)
  | regionExhaustedMidTransaction
  | extentReplayRequiresMetadataAllocation (inum : Nat)
  | linkCountOverflow (inum current : Nat) (delta : Int)
  | extentReplayFailed (inum : Nat) (reason : ExtentReplayReason)
  deriving Repr, DecidableEq

structure FastCommitPosition where
  fcBlock : Nat
  blockOffset : Nat
  fsByteOffset : Nat
  deriving Repr, DecidableEq

structure FastCommitStop where
  position : FastCommitPosition
  lastCommittedTid : Option Nat
  reason : FastCommitStopReason
  deriving Repr, DecidableEq

inductive FastCommitWarningKind where
  | inodeOutOfRange (inum : Nat)
  | physicalBlockOutOfRange (inum pblk len : Nat)
  | logicalRangeInvalid (inum lblk len : Nat)
  | directoryReplayFailed (parentInum : Nat) (reason : DirectoryReplayReason)
  | finalizerExtentWalkFailed (inum : Nat)
  | unlinkTargetMissing (parentInum childInum : Nat)
  deriving Repr, DecidableEq

structure FastCommitWarning where
  position : FastCommitPosition
  currentTid : Option Nat
  kind : FastCommitWarningKind
  occurrences : Nat
  deriving Repr, DecidableEq

structure FastCommitPlan where
  transactionsReplayed : Nat := 0
  inodesModified : Nat := 0
  lastCommittedTid : Option Nat := none
  tagCounts : FastCommitTagCounts := {}
  allocationUnitsMarkedFree : Nat := 0
  allocationUnitsMarkedAllocated : Nat := 0
  stop : Option FastCommitStop := none
  warnings : List FastCommitWarning := []
  warningsTruncated : Bool := false
  deriving Repr, DecidableEq

/-! ### Tags -/

def FC_TAG_ADD_RANGE : Nat := 0x0001
def FC_TAG_DEL_RANGE : Nat := 0x0002
def FC_TAG_CREAT : Nat := 0x0003
def FC_TAG_LINK : Nat := 0x0004
def FC_TAG_UNLINK : Nat := 0x0005
def FC_TAG_INODE : Nat := 0x0006
def FC_TAG_PAD : Nat := 0x0007
def FC_TAG_TAIL : Nat := 0x0008
def FC_TAG_HEAD : Nat := 0x0009

/-- `EXT4_FC_TAG_BASE_LEN`. -/
def FC_TL_SIZE : Nat := 4

def FC_SUPPORTED_FEATURES : Nat := 0x0

def EXT4_NAME_LEN : Nat := 255

/-- Whether `fc_len` is acceptable for `tag`. -/
def fcValueLenIsvalid (tag fcLen : Nat) : Bool :=
  if tag = FC_TAG_HEAD then fcLen == 8
  else if tag = FC_TAG_TAIL then 8 ≤ fcLen
  else if tag = FC_TAG_INODE then 4 + 128 ≤ fcLen
  else if tag = FC_TAG_CREAT ∨ tag = FC_TAG_LINK ∨ tag = FC_TAG_UNLINK then
    9 ≤ fcLen ∧ fcLen ≤ 8 + EXT4_NAME_LEN
  else if tag = FC_TAG_ADD_RANGE then fcLen == 16
  else if tag = FC_TAG_DEL_RANGE then fcLen == 12
  else if tag = FC_TAG_PAD then true
  else false

/-! ### Payloads -/

structure FcHead where
  features : Nat
  tid : Nat
  deriving Repr, DecidableEq

structure FcTail where
  tid : Nat
  crc : Nat
  deriving Repr, DecidableEq

structure FcAddRange where
  fcIno : Nat
  rawExtent : Bytes
  deriving Repr, DecidableEq

structure FcDelRange where
  fcIno : Nat
  fcLblk : Nat
  fcLen : Nat
  deriving Repr, DecidableEq

structure FcDentry where
  parentInum : Nat
  childInum : Nat
  name : Bytes
  deriving Repr, DecidableEq

structure FcInode where
  fcIno : Nat
  rawInode : Bytes
  deriving Repr, DecidableEq

variable (payload : Bytes)

def decodeHead : Except ExtError FcHead :=
  if payload.length ≠ 8 then
    .error (.invalidJournalSuperblock "fast-commit HEAD payload not 8 bytes")
  else .ok { features := payload.le32 0, tid := payload.le32 4 }

def decodeTail : Except ExtError FcTail :=
  if payload.length < 8 then
    .error (.invalidJournalSuperblock "fast-commit TAIL payload < 8 bytes")
  else .ok { tid := payload.le32 0, crc := payload.le32 4 }

def decodeAddRange : Except ExtError FcAddRange :=
  if payload.length ≠ 16 then
    .error (.invalidJournalSuperblock "fast-commit ADD_RANGE payload not 16 bytes")
  else .ok { fcIno := payload.le32 0, rawExtent := payload.slice 4 12 }

def decodeDelRange : Except ExtError FcDelRange :=
  if payload.length ≠ 12 then
    .error (.invalidJournalSuperblock "fast-commit DEL_RANGE payload not 12 bytes")
  else .ok { fcIno := payload.le32 0, fcLblk := payload.le32 4, fcLen := payload.le32 8 }

def decodeDentry : Except ExtError FcDentry :=
  if payload.length < 4 + 4 + 1 then
    .error (.invalidJournalSuperblock "fast-commit dentry payload < 9 bytes")
  else .ok { parentInum := payload.le32 0, childInum := payload.le32 4, name := payload.drop 8 }

def decodeInode : Except ExtError FcInode :=
  if payload.length < 4 + 128 then
    .error (.invalidJournalSuperblock "fast-commit INODE payload < 132 bytes")
  else .ok { fcIno := payload.le32 0, rawInode := payload.drop 4 }

end Fsmnt.FsExt
