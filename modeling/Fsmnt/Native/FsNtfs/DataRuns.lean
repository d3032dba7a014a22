import Fsmnt.Native.FsNtfs.DataRunMap

/-!
# Decoding mapping pairs

`NtfsDataRuns` of `attribute_value/non_resident.rs`, with `Lcn` of `types.rs`.
-/

namespace Fsmnt.FsNtfs

open Bytes MonadExcept

/-- The errors of the decoder. -/
inductive DataRunError where
  | invalidByteCountInDataRunHeader (position : NtfsPosition) (expected actual : Nat)
  | invalidClusterCountInDataRunHeader (position : NtfsPosition) (clusterCount : Nat)
  | invalidVcnInDataRunHeader (position : NtfsPosition) (vcn : Int) (previousLcn : Nat)
  | lcnTooBig (lcn : Nat)
  deriving DecidableEq, Repr

namespace Lcn

def checkedAdd (lcn : Nat) (vcn : Int) : Option Nat :=
  let offset := vcn.natAbs
  if 0 ≤ vcn then
    if lcn + offset < 2 ^ 64 then some (lcn + offset) else none
  else if offset ≤ lcn then some (lcn - offset) else none

def position (clusterSize lcn : Nat) : Except DataRunError NtfsPosition :=
  if lcn * clusterSize < 2 ^ 64 then .ok (.new (lcn * clusterSize)) else .error (.lcnTooBig lcn)

end Lcn

/-- The iterator over mapping pairs, with the state it goes forward in. -/
structure NtfsDataRuns where
  clusterSize : Nat
  data : Bytes
  start : NtfsPosition
  offset : Nat
  previousLcn : Nat
  deriving DecidableEq, Repr

namespace NtfsDataRuns

def new (clusterSize : Nat) (data : Bytes) (start : NtfsPosition) : NtfsDataRuns :=
  { clusterSize, data, start, offset := 0, previousLcn := 0 }

def position (self : NtfsDataRuns) : NtfsPosition := self.start.add self.offset

def validateByteCount (self : NtfsDataRuns) (data : Bytes) (byteCount : Nat) :
    Except DataRunError Bytes :=
  if 8 < byteCount then .error (.invalidByteCountInDataRunHeader self.position 8 byteCount)
  else if data.length < byteCount then
    .error (.invalidByteCountInDataRunHeader self.position byteCount data.length)
  else .ok (data.take byteCount)

/-- `parse_variable_length_signed_integer`. The shifts of the source wrap at 64. -/
def parseVariableLengthSignedInteger (data : Bytes) : Int :=
  let unusedBits := (8 - data.length) * 8 % 64
  ((BitVec.ofNat 64 (ofLE data) <<< unusedBits).sshiftRight unusedBits).toInt

/-- The position of a run `vcn` clusters after the one before it. -/
def runPosition (vcn : Int) : EStateM DataRunError NtfsDataRuns NtfsPosition := do
  let self ← get
  if vcn = 0 then pure none
  else
    match Lcn.checkedAdd self.previousLcn vcn with
    | none => throw (.invalidVcnInDataRunHeader self.position vcn self.previousLcn)
    | some newLcn => do
      modify fun self => { self with previousLcn := newLcn }
      ofExcept (Lcn.position self.clusterSize newLcn)

/-- `next`. After an error the same header is read again. -/
def next : EStateM DataRunError NtfsDataRuns (Option NtfsDataRun) := do
  let self ← get
  match self.data.drop self.offset with
  | [] => pure none
  | header :: data =>
    if header = 0 then do
      set { self with offset := self.data.length }
      pure none
    else do
      let countLen := (header &&& 0x0f).toNat
      let clusterCount := ofLE (← ofExcept (self.validateByteCount data countLen))
      if clusterCount = 0 ∨ 2 ^ 64 ≤ clusterCount * self.clusterSize then
        throw (.invalidClusterCountInDataRunHeader self.position clusterCount)
      let vcnLen := ((header &&& 0xf0) >>> 4).toNat
      let vcnData ← ofExcept (self.validateByteCount (data.drop countLen) vcnLen)
      let position ← runPosition (parseVariableLengthSignedInteger vcnData)
      modify fun self => { self with offset := self.offset + (1 + countLen + vcnLen) }
      pure (some { position, allocatedSize := clusterCount * self.clusterSize })

end NtfsDataRuns

end Fsmnt.FsNtfs
