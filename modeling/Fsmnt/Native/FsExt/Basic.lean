import Fsmnt.ForStd.Bytes

/-!
# ext2/3/4 parser: errors and checksums

The error type of `fs-ext` and the checksum primitives that the journal, the mutator
and the metadata writers share. The `crc32c` and `crc32fast` crates are not part of the
repository; they enter as the class `Crc`, and `ext4_crc32c` is written over it exactly
as the source writes it over `crc32c::crc32c_append`.
-/

namespace Fsmnt.FsExt

/-- Violation of an invariant enforced at journal parse or replay time. -/
inductive JournalInvariantKind where
  | checksumModeConflict
  | asyncWithoutCsum
  deriving Repr, DecidableEq

/-- The variants of `ExtError` that the modelled functions produce or match on. `panicked`
    is not one of them: it stands for a slice index or an `expect` that panics, so that such
    a run does not return a value either. -/
inductive ExtError where
  | io
  | panicked
  | invalidSuperblock (reason : String)
  | invalidJournalSuperblock (reason : String)
  | journalUnsupportedChecksumType (code : Nat)
  | journalUnsupportedFeature (flags : Nat)
  | journalInvariant (kind : JournalInvariantKind)
  | invalidGroupDescriptor (group : Nat) (reason : String)
  | invalidInode (inode : Nat) (reason : String)
  | invalidExtentHeader (inode : Nat)
  | invalidDirectoryEntry (inode offset : Nat)
  | unexpectedEof (context : String) (offset : Nat)
  | blockOutOfRange (block : Nat)
  | inodeOutOfRange (inode : Nat)
  | encryptedInode (inode : Nat)
  | notADirectory (inode : Nat)
  | invalidInlineData (inode : Nat)
  deriving Repr, DecidableEq

/-- The two checksum crates. `crc32cAppend` is `crc32c::crc32c_append`, `crc32` is
    the value a `crc32fast::Hasher` finalizes to after hashing `data`. -/
class Crc where
  crc32cAppend : UInt32 → Bytes → UInt32
  crc32 : Bytes → UInt32

/-- The kernel's raw `__crc32c_le(crc, data)`. -/
def ext4Crc32c [Crc] (crc : UInt32) (data : Bytes) : UInt32 := ~~~ Crc.crc32cAppend (~~~ crc) data

/-- `ext4_crc16`: reflected polynomial `0xA001`, no final XOR. -/
def ext4Crc16 (crc : UInt16) (data : Bytes) : UInt16 :=
  data.foldl (fun crc byte =>
    (List.range 8).foldl (fun c _ => if c &&& 1 = 0 then c >>> 1 else (c >>> 1) ^^^ 0xA001)
      (crc ^^^ byte.toUInt16)) crc

/-- One byte of a reflected table-free CRC-32 with polynomial `poly`. -/
def crcByte (poly crc : UInt32) (b : UInt8) : UInt32 :=
  (List.range 8).foldl (fun c _ => if c &&& 1 = 0 then c >>> 1 else (c >>> 1) ^^^ poly)
    (crc ^^^ b.toUInt32)

/-- The checksums the two crates implement: CRC-32C (Castagnoli) and CRC-32 (IEEE),
    both with inverted initial and final value. Only concrete runs use it. -/
@[reducible] def Crc.standard : Crc where
  crc32cAppend crc data := ~~~ data.foldl (crcByte 0x82F63B78) (~~~ crc)
  crc32 data := ~~~ data.foldl (crcByte 0xEDB88320) 0xFFFFFFFF

-- The check values of the two algorithms, over the ASCII digits `123456789`.
example : Crc.standard.crc32cAppend 0 [0x31, 0x32, 0x33, 0x34, 0x35, 0x36, 0x37, 0x38, 0x39] =
    0xE3069283 := by decide +kernel
example : Crc.standard.crc32 [0x31, 0x32, 0x33, 0x34, 0x35, 0x36, 0x37, 0x38, 0x39] =
    0xCBF43926 := by decide +kernel

end Fsmnt.FsExt
