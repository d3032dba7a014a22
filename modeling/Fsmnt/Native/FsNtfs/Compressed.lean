import Fsmnt.Native.FsNtfs.DataRunMap
import Fsmnt.Native.NtCompression.Lznt1Buffer

/-!
# Values in compression units

The buffered unit of `attribute_value/compressed.rs` and of `OwnedCompressedValue` in
`attribute_value/owned.rs`, which fill it in the same way, and the reader of `compressed.rs`. The
buffer for compressed bytes is not part of the state: only bytes that the same call has read into it
are used.
-/

namespace Fsmnt.FsNtfs

open NtCompression.Lznt1

/-- A value together with the reader it is read from. -/
structure Attached (σ α : Type) where
  fs : σ
  value : α

/-- A call on the underlying reader. -/
def Attached.onFs {σ α β : Type} (x : EStateM NtfsError σ β) : EStateM NtfsError (Attached σ α) β :=
  EStateM.zoom Attached.fs (fun fs self => { self with fs }) x

inductive CompressionRecoveryMode where
  | strict
  | bestEffort
  deriving DecidableEq, Repr

/-- A decoder. The strict one gets the output buffer, and leaves one also when it fails; the lenient
    one gets its length, because it zeroes the buffer first. -/
structure Codec where
  decompress : (input output : Bytes) → Option NtCompression.Error × Bytes
  decompressLenient : (input : Bytes) → (n : Nat) → Bytes

/-- LZNT1. -/
def lznt1Codec : Codec where
  decompress := fun input output =>
    (match decompress input output with
      | .ok _ => none
      | .error e => some e, decompressBuffer input output)
  decompressLenient := decompressLenient

/-! ### The buffered unit -/

structure UnitBuffer where
  map : DataRunMap
  compressionUnitSize : Nat
  recoveryMode : CompressionRecoveryMode
  decompressedBuffer : Bytes
  bufferedUnit : Option Nat

namespace UnitBuffer

/-- A unit of nothing. -/
def new (map : DataRunMap) (compressionUnitSize : Nat) (recoveryMode : CompressionRecoveryMode) :
    UnitBuffer :=
  { map, compressionUnitSize, recoveryMode, decompressedBuffer := Bytes.zeros compressionUnitSize
    bufferedUnit := none }

/-- `enforce_initialized_size` for the unit that starts at `unitStart`. -/
def enforceInitializedSize (initializedSize unitStart : Nat) (buffer : Bytes) : Bytes :=
  let zeroFrom := initializedSize - unitStart
  if zeroFrom < buffer.length then buffer.take zeroFrom ++ Bytes.zeros (buffer.length - zeroFrom)
  else buffer

/-- What becomes of the allocated prefix of a unit: an error, if the decoder fails, and the buffer
    that is left. -/
def decodeUnit (codec : Codec) (mode : CompressionRecoveryMode) (unitSize : Nat)
    (allocated : Bytes) : Option NtCompression.Error × Bytes :=
  if allocated.length = 0 then (none, Bytes.zeros unitSize)
  else if allocated.length = unitSize then (none, allocated)
  else
    match mode with
    | .strict => codec.decompress allocated (Bytes.zeros unitSize)
    | .bestEffort => (none, codec.decompressLenient allocated unitSize)

variable {σ : Type} (fs : BlockReader NtfsError σ) (codec : Codec)

/-- The end of a fill that succeeds. -/
def setUnit (unitIndex : Nat) (buffer : Bytes) (self : Attached σ UnitBuffer) :
    Attached σ UnitBuffer :=
  { self with value :=
      { self.value with decompressedBuffer := buffer, bufferedUnit := some unitIndex } }

/-- The end of a fill whose decoder fails: the buffer is overwritten, and the unit it is said to
    hold is still the one before. -/
def spoilUnit (buffer : Bytes) (self : Attached σ UnitBuffer) : Attached σ UnitBuffer :=
  { self with value := { self.value with decompressedBuffer := buffer } }

def ensureUnitBuffered (initializedSize position : Nat) :
    EStateM NtfsError (Attached σ UnitBuffer) Unit := do
  let self ← get
  let unitSize := self.value.compressionUnitSize
  let unitIndex := position / unitSize
  let unitStart := unitIndex * unitSize
  if self.value.bufferedUnit = some unitIndex then pure ()
  else do
    match ← (Attached.onFs (self.value.map.readAllocatedPrefixAt fs unitStart
      unitSize)).attempt with
    | .error e =>
      match self.value.recoveryMode with
      | .strict => throw e
      | .bestEffort =>
        modify (setUnit unitIndex
          (enforceInitializedSize initializedSize unitStart (Bytes.zeros unitSize)))
    | .ok allocated =>
      match decodeUnit codec self.value.recoveryMode unitSize allocated with
      | (some e, buffer) => do
        modify (spoilUnit buffer)
        throw (.decompressionError e)
      | (none, buffer) =>
        modify (setUnit unitIndex (enforceInitializedSize initializedSize unitStart buffer))

end UnitBuffer

/-! ### Reading unit by unit -/

/-- The copy loop that the readers of units share: `ensure` puts the unit of a position into the
    buffer, of which `unitLength` bytes belong to the unit. Each pass copies at least one byte. -/
def readUnits {τ : Type} (ensure : Nat → EStateM NtfsError τ Unit) (buffer : τ → Bytes)
    (unitLength : Nat → τ → Nat) (unitSize : Nat) (advance : Nat → τ → τ) :
    Nat → Nat → Nat → EStateM NtfsError τ Bytes
  | 0, _, _ => pure []
  | passes + 1, position, remaining =>
    if remaining = 0 then pure []
    else do
      ensure position
      let self ← get
      let offsetInUnit := position % unitSize
      let toCopy := min (unitLength position self - offsetInUnit) remaining
      if (buffer self).length < offsetInUnit + toCopy then throw .panicked
      else do
        modify (advance toCopy)
        let rest ← readUnits ensure buffer unitLength unitSize advance passes (position + toCopy)
          (remaining - toCopy)
        pure ((buffer self).slice offsetInUnit toCopy ++ rest)

def seekContiguous (streamPosition length : Nat) : SeekFrom → Except NtfsError Nat
  | .start n => .ok n
  | .fromEnd n =>
    match length.checkedAddSigned64 n with
    | some q => .ok q
    | none => .error .invalidInput
  | .current n =>
    match streamPosition.checkedAddSigned64 n with
    | some q => .ok q
    | none => .error .invalidInput

/-- A call on a value whose recovery mode can be set. -/
inductive ValueCall where
  | io (call : ReaderCall)
  | setRecoveryMode (mode : CompressionRecoveryMode)
  deriving DecidableEq, Repr

/-- `NtfsCompressedNonResidentAttributeValue`. -/
structure CompressedValue where
  unit : UnitBuffer
  decompressedSize : Nat
  initializedSize : Nat
  streamPosition : Nat

namespace CompressedValue

variable {σ : Type} (fs : BlockReader NtfsError σ) (codec : Codec)

/-- `from_map`, with the recovery mode that is set behind it. -/
def fromMap (map : DataRunMap) (compressionUnitSize decompressedSize initializedSize : Nat)
    (recoveryMode : CompressionRecoveryMode) : CompressedValue :=
  { unit := UnitBuffer.new map compressionUnitSize recoveryMode
    decompressedSize
    initializedSize := min initializedSize decompressedSize
    streamPosition := 0 }

/-- A call on the buffered unit. -/
def onUnit {α : Type} (x : EStateM NtfsError (Attached σ UnitBuffer) α) :
    EStateM NtfsError (Attached σ CompressedValue) α :=
  EStateM.zoom (fun self => { fs := self.fs, value := self.value.unit })
    (fun unit self => { fs := unit.fs, value := { self.value with unit := unit.value } }) x

/-- Moves the position behind bytes that were copied. -/
def advance (copied : Nat) (self : Attached σ CompressedValue) : Attached σ CompressedValue :=
  { self with value :=
      { self.value with streamPosition := self.value.streamPosition + copied } }

def read (n : Nat) : EStateM NtfsError (Attached σ CompressedValue) Bytes := do
  let self ← get
  let position := self.value.streamPosition
  let remaining := min n (self.value.decompressedSize - position)
  readUnits (fun q => onUnit (UnitBuffer.ensureUnitBuffered fs codec self.value.initializedSize q))
    (fun self => self.value.unit.decompressedBuffer)
    (fun _ self => self.value.unit.decompressedBuffer.length)
    self.value.unit.compressionUnitSize advance remaining position remaining

def seek (position : SeekFrom) : EStateM NtfsError (Attached σ CompressedValue) Nat := do
  let self ← get
  match seekContiguous self.value.streamPosition self.value.decompressedSize position with
  | .error e => throw e
  | .ok q => do
    modify fun self => { self with value := { self.value with streamPosition := q } }
    pure q

/-- `FsReadSeek` of the value. -/
def reader : ReadSeek NtfsError (Attached σ CompressedValue) where
  read := read fs codec
  seek := seek

def setRecoveryMode (mode : CompressionRecoveryMode) (self : Attached σ CompressedValue) :
    Attached σ CompressedValue :=
  { self with value :=
      { self.value with unit := { self.value.unit with recoveryMode := mode } } }

/-- The state after a call, whether it succeeded or failed. -/
def after (s : Attached σ CompressedValue) : ValueCall → Attached σ CompressedValue
  | .io call => (reader fs codec).after s call
  | .setRecoveryMode mode => setRecoveryMode mode s

end CompressedValue

end Fsmnt.FsNtfs
