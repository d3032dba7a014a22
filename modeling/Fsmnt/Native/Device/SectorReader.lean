import Fsmnt.Native.Device.Io

/-!
# Byte reads over a device that only reads whole sectors

`fsmnt-device/src/sector_reader.rs`. A failed `read_exact` leaves the sector buffer in a state that
nothing reads: `cached_sector` is cleared before it. The model keeps the old buffer there.
-/

namespace Fsmnt.Device

/-- `u32::is_power_of_two`. -/
def isPowerOfTwo32 (n : Nat) : Bool := (List.range 32).any fun k => n == 2 ^ k

structure SectorReader (σ : Type) where
  inner : σ
  length : Nat
  position : Nat
  sectorSize : Nat
  sector : Bytes
  cachedSector : Option Nat

namespace SectorReader

variable {σ : Type} (device : BlockReader IoError σ)

def new (inner : σ) (length sectorSize : Nat) : Except IoError (SectorReader σ) :=
  if sectorSize = 0 ∨ isPowerOfTwo32 sectorSize = false then
    .error (.invalidInput s!"invalid logical sector size {sectorSize}")
  else if length % sectorSize ≠ 0 then
    .error (.invalidInput
      s!"device length {length} is not a multiple of logical sector size {sectorSize}")
  else
    .ok { inner, length, position := 0, sectorSize, sector := Bytes.zeros sectorSize,
          cachedSector := none }

/-- A call on the device. -/
def onInner {α : Type} (x : EStateM IoError σ α) : EStateM IoError (SectorReader σ) α :=
  EStateM.zoom SectorReader.inner (fun inner self => { self with inner }) x

def loadSector (sectorStart : Nat) : EStateM IoError (SectorReader σ) Unit := do
  let self ← get
  if self.cachedSector = some sectorStart then pure ()
  else if 2 ^ 64 ≤ sectorStart + self.sectorSize then throw (.invalidInput "sector end overflow")
  else if sectorStart % self.sectorSize ≠ 0 ∨ self.length < sectorStart + self.sectorSize then
    throw (.invalidInput "sector read is outside the aligned device extent")
  else do
    modify fun self => { self with cachedSector := none }
    let _ ← onInner (device.seek (.start sectorStart))
    let sector ← onInner (device.readExact self.sectorSize)
    modify fun self => { self with sector, cachedSector := some sectorStart }

def advance (amount : Nat) : EStateM IoError (SectorReader σ) Unit := do
  let self ← get
  if 2 ^ 64 ≤ self.position + amount then throw (.invalidData "reader position overflow")
  else modify fun self => { self with position := self.position + amount }

/-- The rest of a sector that the position is inside of. -/
def readHead (wanted : Nat) : EStateM IoError (SectorReader σ) Bytes := do
  let self ← get
  let headOffset := self.position % self.sectorSize
  if headOffset = 0 then pure []
  else do
    loadSector device (self.position - headOffset)
    let loaded ← get
    let count := min (self.sectorSize - headOffset) wanted
    advance count
    pure (loaded.sector.slice headOffset count)

/-- The whole sectors, which are read past the sector buffer. -/
def readAligned (remaining : Nat) : EStateM IoError (SectorReader σ) Bytes := do
  let self ← get
  let alignedLength := remaining - remaining % self.sectorSize
  if alignedLength = 0 then pure []
  else do
    let _ ← onInner (device.seek (.start self.position))
    let bytes ← onInner (device.readExact alignedLength)
    advance alignedLength
    pure bytes

/-- The start of the last sector. -/
def readTail (tailLength : Nat) : EStateM IoError (SectorReader σ) Bytes := do
  let self ← get
  if tailLength = 0 then pure []
  else do
    loadSector device self.position
    let loaded ← get
    advance tailLength
    pure (loaded.sector.slice 0 tailLength)

/-- `read`: each part moves the position as soon as it is copied. -/
def read (count : Nat) : EStateM IoError (SectorReader σ) Bytes := do
  let self ← get
  if count = 0 ∨ self.length ≤ self.position then pure []
  else do
    let wanted := min (self.length - self.position) count
    let head ← readHead device wanted
    let aligned ← readAligned device (wanted - head.length)
    let tail ← readTail device (wanted - (head.length + aligned.length))
    pure (head ++ aligned ++ tail)

/-- Where a seek goes. -/
def seekTarget (self : SectorReader σ) : SeekFrom → Option Nat :=
  SeekFrom.target self.length self.position

def seek (position : SeekFrom) : EStateM IoError (SectorReader σ) Nat := do
  let self ← get
  match self.seekTarget position with
  | none => throw (.invalidInput "invalid seek position")
  | some next => do
    modify fun self => { self with position := next }
    pure next

/-- `Read` and `Seek` of the reader. -/
def reader : ReadSeek IoError (SectorReader σ) where
  read := read device
  seek := seek

end SectorReader

end Fsmnt.Device
