import Fsmnt.Native.Device.Io

/-!
# Partitions of a disk

`fsmnt-device/src/partition_reader.rs`. Offsets are `u64` and `usize` is taken to be as wide, so
that only the additions that the source checks can fail.
-/

namespace Fsmnt.Device

/-- `checked_add` on `i64`. -/
def checkedAddI64 (a b : Int) : Option Int :=
  if -((2 ^ 63 : Nat) : Int) ≤ a + b ∧ a + b < ((2 ^ 63 : Nat) : Int) then some (a + b) else none

/-- A view of a part of the disk that `inner` reads. -/
structure PartitionReader (σ : Type) where
  inner : σ
  baseOffset : Nat
  size : Nat
  /-- Relative to `baseOffset`. -/
  position : Nat
  /-- Where the inner reader is taken to be. -/
  innerPosition : Option Nat

namespace PartitionReader

variable {σ : Type} (disk : ReadSeek IoError σ)

def new (inner : σ) (baseOffset size : Nat) : PartitionReader σ :=
  { inner, baseOffset, size, position := 0, innerPosition := none }

/-- A call on the inner reader. -/
def onInner {α : Type} (x : EStateM IoError σ α) : EStateM IoError (PartitionReader σ) α :=
  EStateM.zoom PartitionReader.inner (fun inner self => { self with inner }) x

/-- Seeks the inner reader, unless it is taken to be there already. -/
def seekInner (absPos : Nat) : EStateM IoError (PartitionReader σ) Unit := do
  let self ← get
  if self.innerPosition = some absPos then pure ()
  else do
    let _ ← onInner (disk.seek (.start absPos))
    pure ()

/-- Moves both positions behind the bytes that were read. -/
def advance (absPos bytesRead : Nat) : EStateM IoError (PartitionReader σ) Unit := do
  let self ← get
  if 2 ^ 64 ≤ self.position + bytesRead then throw (.invalidData "partition position overflow")
  else do
    modify fun self => { self with position := self.position + bytesRead }
    if 2 ^ 64 ≤ absPos + bytesRead then throw (.invalidData "inner reader position overflow")
    else modify fun self => { self with innerPosition := some (absPos + bytesRead) }

def read (count : Nat) : EStateM IoError (PartitionReader σ) Bytes := do
  let self ← get
  let maxRead := min (self.size - self.position) count
  if maxRead = 0 then pure []
  else if 2 ^ 64 ≤ self.baseOffset + self.position then
    throw (.invalidInput "absolute partition position overflow")
  else do
    seekInner disk (self.baseOffset + self.position)
    -- a failure from here on leaves `innerPosition` as it was before the seek
    let bytes ← onInner (disk.read maxRead)
    advance (self.baseOffset + self.position) bytes.length
    pure bytes

/-- Where a seek goes, which may be in front of the partition. -/
def seekTarget (self : PartitionReader σ) : SeekFrom → Except IoError Int
  | .start offset =>
    if offset < 2 ^ 63 then .ok offset else .error (.invalidInput "seek offset too large")
  | .fromEnd offset =>
    if self.size < 2 ^ 63 then
      match checkedAddI64 self.size offset with
      | some target => .ok target
      | none => .error (.invalidInput "seek offset overflow")
    else .error (.invalidInput "partition size too large for seek")
  | .current offset =>
    if self.position < 2 ^ 63 then
      match checkedAddI64 self.position offset with
      | some target => .ok target
      | none => .error (.invalidInput "seek offset overflow")
    else .error (.invalidInput "current position too large for seek")

/-- `seek`; the inner reader is not touched. -/
def seek (position : SeekFrom) : EStateM IoError (PartitionReader σ) Nat := do
  let self ← get
  match self.seekTarget position with
  | .error e => throw e
  | .ok target =>
    if target < 0 then throw (.invalidInput "seek to negative position")
    else do
      modify fun self => { self with position := target.toNat }
      pure target.toNat

/-- `Read` and `Seek` of the reader. -/
def reader : ReadSeek IoError (PartitionReader σ) where
  read := read disk
  seek := seek

end PartitionReader

end Fsmnt.Device
