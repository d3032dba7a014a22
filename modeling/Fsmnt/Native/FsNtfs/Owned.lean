import Fsmnt.Native.FsNtfs.Compressed

/-!
# Owned values

`attribute_value/owned.rs`: positioned reads of a value that is detached from its file record.
-/

namespace Fsmnt.FsNtfs

inductive OwnedValueData where
  | resident (data : Bytes)
  | nonResident (map : DataRunMap)
  | compressed (unit : UnitBuffer)

/-- `NtfsAttributeValueOwned`. -/
structure OwnedValue where
  data : OwnedValueData
  dataSize : Nat
  initializedSize : Nat

namespace OwnedValue

def nonResident (map : DataRunMap) (dataSize initializedSize : Nat) : OwnedValue :=
  { data := .nonResident map, dataSize, initializedSize := min initializedSize dataSize }

def compressed (map : DataRunMap) (compressionUnitSize dataSize initializedSize : Nat)
    (recoveryMode : CompressionRecoveryMode) : OwnedValue :=
  { data := .compressed (UnitBuffer.new map compressionUnitSize recoveryMode)
    dataSize, initializedSize := min initializedSize dataSize }

variable {σ : Type} (fs : BlockReader NtfsError σ) (codec : Codec)

/-- `OwnedCompressedValue::read_at`. -/
def readUnitsAt (offset initializedSize n unitSize : Nat) :
    EStateM NtfsError (Attached σ UnitBuffer) Bytes :=
  readUnits (UnitBuffer.ensureUnitBuffered fs codec initializedSize)
    (fun self => self.value.decompressedBuffer)
    (fun _ self => self.value.decompressedBuffer.length) unitSize (fun _ self => self) n offset n

/-- Reads the value as it lies on the disk, up to its initialized size, and zeros behind it. -/
def readMapAt (map : DataRunMap) (offset initializedSize toRead : Nat) :
    EStateM NtfsError σ Bytes :=
  let initialized := min toRead (initializedSize - offset)
  if initialized = 0 then pure (Bytes.zeros toRead)
  else do
    let (_, bytes) ← map.readAt fs offset initialized
    pure (bytes ++ Bytes.zeros (toRead - initialized))

/-- A call on the unit of a compressed value. -/
def onUnit {α : Type} (unit : UnitBuffer) (x : EStateM NtfsError (Attached σ UnitBuffer) α) :
    EStateM NtfsError (Attached σ OwnedValue) α :=
  EStateM.zoom (fun self => { fs := self.fs, value := unit })
    (fun unit self =>
      { fs := unit.fs, value := { self.value with data := .compressed unit.value } }) x

def readAt (offset n : Nat) : EStateM NtfsError (Attached σ OwnedValue) Bytes := do
  let self ← get
  if n = 0 ∨ self.value.dataSize ≤ offset then pure []
  else
    let toRead := min n (self.value.dataSize - offset)
    match self.value.data with
    | .resident data => pure (data.slice offset toRead)
    | .nonResident map =>
      Attached.onFs (readMapAt fs map offset self.value.initializedSize toRead)
    | .compressed unit =>
      onUnit unit (readUnitsAt fs codec offset self.value.initializedSize toRead
        unit.compressionUnitSize)

end OwnedValue

end Fsmnt.FsNtfs
