import Fsmnt.Native.Device.Io

/-!
# Logical volumes assembled from raw members

`fsmnt-device/src/source/assembly.rs`. The three volumes of the source share all fields but the
stripe size, so they are one structure with its kind. What a member's reader does is given by one
`ReadSeek` on its state. The identity and the zones of a member are not modelled: no read looks at
them.
-/

namespace Fsmnt.Device

/-- A member of a device set, with the state of its reader. -/
structure DeviceMember (σ : Type) where
  reader : σ
  length : Nat
  sectorSize : Nat

/-- A set of at least one device. -/
structure DeviceSet (σ : Type) where
  primary : DeviceMember σ
  additional : List (DeviceMember σ)

def DeviceSet.intoMembers {σ : Type} (devices : DeviceSet σ) : List (DeviceMember σ) :=
  devices.primary :: devices.additional

/-- How members make up one logical byte space. -/
inductive RawVolumeLayout where
  | linear
  | striped (stripeSize length : Nat)
  | mirrored (length : Nat)
  deriving DecidableEq, Repr

inductive RawAssemblyError where
  | capacityOverflow
  | invalidStripeSize
  | lengthExceedsCapacity (length capacity : Nat)
  | sectorSizeMismatch (expected actual : Nat)
  deriving DecidableEq, Repr

inductive AssembledVolumeKind where
  | linear
  | striped (stripeSize : Nat)
  | mirrored
  deriving DecidableEq, Repr

structure AssembledVolume (σ : Type) where
  kind : AssembledVolumeKind
  members : List (DeviceMember σ)
  position : Nat
  length : Nat
  sectorSize : Nat

variable {σ : Type}

def commonSectorSize (devices : DeviceSet σ) : Except RawAssemblyError Nat :=
  let sectorSize := devices.primary.sectorSize
  match devices.intoMembers.find? fun member => member.sectorSize != sectorSize with
  | some member => .error (.sectorSizeMismatch sectorSize member.sectorSize)
  | none => .ok sectorSize

/-- The length of the shortest member. -/
def shortestLength (members : List (DeviceMember σ)) : Nat :=
  (members.map DeviceMember.length).foldl min (2 ^ 64 - 1)

def assembleRawVolume (devices : DeviceSet σ) (layout : RawVolumeLayout) :
    Except RawAssemblyError (AssembledVolume σ) :=
  match commonSectorSize devices with
  | .error e => .error e
  | .ok sectorSize =>
    let members := devices.intoMembers
    match layout with
    | .linear =>
      let length := (members.map DeviceMember.length).sum
      if 2 ^ 64 ≤ length then .error .capacityOverflow
      else .ok { kind := .linear, members, position := 0, length, sectorSize }
    | .striped stripeSize length =>
      if stripeSize = 0 then .error .invalidStripeSize
      else
        let shortest := shortestLength members
        let capacity := (shortest - shortest % stripeSize) * members.length
        if 2 ^ 64 ≤ capacity then .error .capacityOverflow
        else if capacity < length then .error (.lengthExceedsCapacity length capacity)
        else .ok { kind := .striped stripeSize, members, position := 0, length, sectorSize }
    | .mirrored length =>
      let capacity := shortestLength members
      if capacity < length then .error (.lengthExceedsCapacity length capacity)
      else .ok { kind := .mirrored, members, position := 0, length, sectorSize }

/-- `linear_location`: the member that holds an offset, and the offset in it. -/
def linearLocation : List Nat → Nat → Option (Nat × Nat)
  | [], _ => none
  | length :: lengths, offset =>
    if offset < length then some (0, offset)
    else (linearLocation lengths (offset - length)).map fun (index, rest) => (index + 1, rest)

/-- The part of a member that one pass of a read loop may read. -/
structure MemberPart where
  index : Nat
  offset : Nat
  remaining : Nat
  deriving DecidableEq, Repr

namespace AssembledVolume

variable (member : ReadSeek IoError σ)

/-- The lengths of the members. -/
def lengths (self : AssembledVolume σ) : List Nat := self.members.map DeviceMember.length

/-- A call on the reader of a member. -/
def onMember {α : Type} (index : Nat) (x : EStateM IoError σ α) :
    EStateM IoError (AssembledVolume σ) α := fun self =>
  match self.members[index]? with
  -- an index out of bounds panics in the source
  | none => .error (.other "index out of bounds") self
  | some device =>
    match x device.reader with
    | .ok a reader =>
      .ok a { self with members := self.members.set index { device with reader } }
    | .error e reader =>
      .error e { self with members := self.members.set index { device with reader } }

/-- Moves the position behind the bytes that were read. -/
def advance (read : Nat) : EStateM IoError (AssembledVolume σ) Unit := do
  let self ← get
  if 2 ^ 64 ≤ self.position + read then throw (.other "logical position overflow")
  else modify fun self => { self with position := self.position + read }

/-- Where `LinearVolume::read` reads next. -/
def linearPart (self : AssembledVolume σ) : Except IoError MemberPart :=
  match linearLocation self.lengths self.position with
  | none => .error (.unexpectedEof "linear member missing")
  | some (index, offset) =>
    .ok { index, offset, remaining := self.lengths.getD index 0 - offset }

/-- Where `StripedVolume::read` reads next. -/
def stripedPart (stripeSize : Nat) (self : AssembledVolume σ) : Except IoError MemberPart :=
  let stripe := self.position / stripeSize
  let withinStripe := self.position % stripeSize
  let offset := stripe / self.members.length * stripeSize + withinStripe
  if 2 ^ 64 ≤ offset then .error (.other "striped member offset overflow")
  else .ok { index := stripe % self.members.length, offset, remaining := stripeSize - withinStripe }

/-- One pass of a read loop. -/
def readPart (locate : AssembledVolume σ → Except IoError MemberPart) (ended : String)
    (bufferRemaining : Nat) : EStateM IoError (AssembledVolume σ) Bytes := do
  let self ← get
  match locate self with
  | .error e => throw e
  | .ok part => do
    let amount := min (min part.remaining (self.length - self.position)) bufferRemaining
    let _ ← onMember part.index (member.seek (.start part.offset))
    let bytes ← onMember part.index (member.read amount)
    if bytes.length = 0 then throw (.unexpectedEof ended)
    else do
      advance bytes.length
      pure bytes

/-- The loop of `LinearVolume::read` and `StripedVolume::read`: each pass reads at least one byte,
    so there are at most as many passes as bytes. -/
def readParts (locate : AssembledVolume σ → Except IoError MemberPart) (ended : String) :
    Nat → Nat → EStateM IoError (AssembledVolume σ) Bytes
  | 0, _ => pure []
  | passes + 1, bufferRemaining => do
    let self ← get
    if bufferRemaining = 0 ∨ self.length ≤ self.position then pure []
    else do
      let bytes ← readPart member locate ended bufferRemaining
      let rest ← readParts locate ended passes (bufferRemaining - bytes.length)
      pure (bytes ++ rest)

/-- The loop of `MirroredVolume::read` over the members, with the error of the last one tried. -/
def readReplicas (amount : Nat) (lastError : IoError) :
    List Nat → EStateM IoError (AssembledVolume σ) Bytes
  | [] => throw lastError
  | index :: indices => do
    let self ← get
    match ← (onMember index (member.seek (.start self.position))).attempt with
    | .error e => readReplicas amount e indices
    | .ok _ =>
      match ← (onMember index (member.read amount)).attempt with
      | .error e => readReplicas amount e indices
      | .ok [] =>
        readReplicas amount (.unexpectedEof "mirror member ended before its declared length")
          indices
      | .ok bytes => do
        advance bytes.length
        pure bytes

def read (count : Nat) : EStateM IoError (AssembledVolume σ) Bytes := do
  let self ← get
  if count = 0 ∨ self.length ≤ self.position then pure []
  else
    match self.kind with
    | .linear =>
      readParts member linearPart "linear member ended before its declared length" count count
    | .striped stripeSize =>
      readParts member (stripedPart stripeSize) "striped member ended before its declared length"
        count count
    | .mirrored =>
      readReplicas member (min (self.length - self.position) count)
        (.other "mirrored volume has no members") (List.range self.members.length)

def resolveSeek (self : AssembledVolume σ) : SeekFrom → Option Nat
  | .start offset => some offset
  | .current offset => self.position.checkedAddSigned64 offset
  | .fromEnd offset => self.length.checkedAddSigned64 offset

def seek (position : SeekFrom) : EStateM IoError (AssembledVolume σ) Nat := do
  let self ← get
  match self.resolveSeek position with
  | none => throw (.invalidInput "invalid logical seek")
  | some target => do
    modify fun self => { self with position := target }
    pure target

/-- `Read` and `Seek` of the volume. -/
def reader : ReadSeek IoError (AssembledVolume σ) where
  read := read member
  seek := seek

end AssembledVolume

end Fsmnt.Device
