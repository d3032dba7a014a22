import Fsmnt.Native.FsExt.JournalSuperblock

/-!
# Descriptor tags and journal checksums

`journal/tags.rs` and `journal/checksum.rs`. A descriptor block's body is a packed
sequence of tags, one for each data block that follows it; `parse_descriptor_tags`
iterates over them. The iterator has no effects, so the model hands out the list of the
items it yields.
-/

namespace Fsmnt.FsExt

/-! ### Checksums -/

/-- CRC32C seed from the journal UUID. -/
def journalCsumSeed [Crc] (journalUuid : Bytes) : UInt32 := ext4Crc32c 0xFFFFFFFF journalUuid

/-- Per-block tag checksum: V2 keeps the low 16 bits, V3 the full value. -/
def tagBlockChecksum [Crc] (mode : JournalChecksumMode) (seed : UInt32) (sequence : Nat)
    (dataBlock : Bytes) : UInt32 :=
  let crc := ext4Crc32c seed (Bytes.toBE 4 sequence)
  let crc := ext4Crc32c crc dataBlock
  match mode with
  | .v2Crc32c => crc &&& 0xFFFF
  | .v3Crc32c => crc
  | .none | .compatCrc32 => 0

/-- Descriptor and revocation tail checksum and commit-block checksum (V2/V3): the
    four bytes of the stored checksum are hashed as zeros. -/
def blockTailChecksumSplit [Crc] (seed : UInt32) (beforeCsum afterCsum : Bytes) : UInt32 :=
  let crc := ext4Crc32c seed beforeCsum
  let crc := ext4Crc32c crc [0, 0, 0, 0]
  ext4Crc32c crc afterCsum

/-! ### Tags -/

def TAG_FLAG_ESCAPE : Nat := 0x1
def TAG_FLAG_SAME_UUID : Nat := 0x2
def TAG_FLAG_LAST : Nat := 0x8

def tagLenV3 (flags : Nat) : Nat :=
  if flags &&& TAG_FLAG_SAME_UUID ≠ 0 then 16 else 32

def tagLenLegacy (flags : Nat) (is64bit : Bool) : Nat :=
  let base := if is64bit then 12 else 8
  base + if flags &&& TAG_FLAG_SAME_UUID ≠ 0 then 0 else 16

/-- Parsed descriptor tag. -/
structure ParsedTag where
  fsBlock : Nat
  escape : Bool
  last : Bool
  checksum : Nat
  deriving Repr, DecidableEq

/-- A tag in the `CSUM_V3` layout at the front of `body`, with the bytes it takes. -/
def parseTagV3 (body : Bytes) : Except ExtError (ParsedTag × Nat) :=
  if body.length < 16 then
    .error (.invalidJournalSuperblock "descriptor body truncated")
  else
    let flags := body.be32 4
    let parsed : ParsedTag := {
      fsBlock := (body.be32 8 <<< 32) ||| body.be32 0
      escape := flags &&& TAG_FLAG_ESCAPE ≠ 0
      last := flags &&& TAG_FLAG_LAST ≠ 0
      checksum := body.be32 12 }
    let len := tagLenV3 flags
    if body.length < len then
      .error (.invalidJournalSuperblock "descriptor UUID truncated")
    else .ok (parsed, len)

/-- A tag in the pre-V3 layout at the front of `body`, with the bytes it takes. -/
def parseTagLegacy (body : Bytes) (is64bit : Bool) : Except ExtError (ParsedTag × Nat) :=
  if body.length < 8 then
    .error (.invalidJournalSuperblock "descriptor body truncated")
  else if is64bit ∧ body.length < 12 then
    .error (.invalidJournalSuperblock "descriptor 64BIT high half truncated")
  else
    let flags := body.be16 6
    let high := if is64bit then body.be32 8 <<< 32 else 0
    let consumed := if is64bit then 12 else 8
    let parsed : ParsedTag := {
      fsBlock := body.be32 0 ||| high
      escape := flags &&& TAG_FLAG_ESCAPE ≠ 0
      last := flags &&& TAG_FLAG_LAST ≠ 0
      checksum := body.be16 4 }
    let total := tagLenLegacy flags is64bit
    if total < consumed ∨ body.length < total then
      .error (.invalidJournalSuperblock "descriptor UUID truncated")
    else .ok (parsed, total)

/-- Streaming iterator over the tags in a descriptor block's body. -/
structure DescriptorTagIter where
  body : Bytes
  mode : JournalChecksumMode
  is64bit : Bool
  done : Bool

/-- `Iterator::next`: the item yielded, and the iterator after it. -/
def DescriptorTagIter.next (it : DescriptorTagIter) :
    Option (Except ExtError ParsedTag × DescriptorTagIter) :=
  if it.done then none
  else if it.body.isEmpty then
    some (.error (.invalidJournalSuperblock "descriptor ended without LAST_TAG"),
      { it with done := true })
  else
    let parsed := if it.mode = .v3Crc32c then parseTagV3 it.body
      else parseTagLegacy it.body it.is64bit
    match parsed with
    | .error e => some (.error e, { it with done := true })
    | .ok (tag, advance) =>
      some (.ok tag, { it with body := it.body.drop advance, done := tag.last })

/-- The first `fuel` items the iterator yields. -/
def DescriptorTagIter.items : Nat → DescriptorTagIter → List (Except ExtError ParsedTag)
  | 0, _ => []
  | fuel + 1, it =>
    match it.next with
    | none => []
    | some (item, it') => item :: items fuel it'

/-- Iterate over the tag bytes of a descriptor (exclusive of the journal header and of
    the checksum tail). A tag takes at least one byte, and after an error or the last tag
    the iterator is done, so no more than `body.length + 1` items come. -/
def parseDescriptorTags (body : Bytes) (mode : JournalChecksumMode) (is64bit : Bool) :
    List (Except ExtError ParsedTag) :=
  DescriptorTagIter.items (body.length + 1) { body, mode, is64bit, done := false }

end Fsmnt.FsExt
