import Fsmnt.Native.Device.Io

/-!
# Best-effort reads over damaged or truncated media

`fsmnt-device/src/tolerant_reader.rs`. No read or seek looks at the substituted ranges, which are
modelled apart from the reader.
-/

namespace Fsmnt.Device

/-- Granularity at which a failing read is written off as zeros. -/
def errorZeroFillGranule : Nat := 512

/-- A reader that zero-fills what its source, in the state `inner`, cannot provide. -/
structure TolerantReader (σ : Type) where
  inner : σ
  /-- Where the source actually ends. -/
  innerLen : Nat
  /-- Where this reader claims to end. -/
  length : Nat
  position : Nat

namespace TolerantReader

variable {σ : Type} (source : ReadSeek IoError σ)

/-- A call on the source. -/
def onInner {α : Type} (x : EStateM IoError σ α) : EStateM IoError (TolerantReader σ) α :=
  EStateM.zoom TolerantReader.inner (fun inner self => { self with inner }) x

def new (inner : σ) (declaredLength : Nat) : Except IoError (TolerantReader σ) :=
  match source.seek (.fromEnd 0) inner with
  | .error e _ => .error e
  | .ok innerLen inner =>
    match source.seek (.start 0) inner with
    | .error e _ => .error e
    | .ok _ inner => .ok { inner, innerLen, length := max declaredLength innerLen, position := 0 }

def zeroFill (count : Nat) : EStateM IoError (TolerantReader σ) Bytes := do
  modify fun self => { self with position := self.position + count }
  pure (Bytes.zeros count)

/-- `absent_prefix`: the wanted bytes in a medium's absent head, if that is why the read failed. -/
def absentHeadLength (self : TolerantReader σ) (error : IoError) (n : Nat) : Option Nat :=
  match error with
  | .absentHead gap _ _ =>
    if gap < self.position then none
    else
      let count := min (gap - self.position) n
      if 0 < count then some count else none
  | _ => none

/-- A read of `n` bytes inside the source. -/
def readSource (n : Nat) : EStateM IoError (TolerantReader σ) Bytes := do
  let self ← get
  let _ ← onInner (source.seek (.start self.position))
  match ← onInner (source.read n).attempt with
  | .ok [] => do
    -- the source is shorter than it said
    modify fun self => { self with innerLen := self.position }
    zeroFill n
  | .ok bytes => do
    modify fun self => { self with position := self.position + bytes.length }
    pure bytes
  | .error .interrupted => pure []
  | .error error =>
    match self.absentHeadLength error n with
    | some absent => zeroFill absent
    | none => zeroFill (min errorZeroFillGranule n)

def read (count : Nat) : EStateM IoError (TolerantReader σ) Bytes := do
  let self ← get
  if count = 0 ∨ self.length ≤ self.position then pure []
  else
    let want := min (self.length - self.position) count
    -- entirely past the source
    if self.innerLen ≤ self.position then zeroFill want
    else readSource source (min want (self.innerLen - self.position))

/-- The position a seek goes to. -/
def seekTarget (self : TolerantReader σ) : SeekFrom → Option Nat :=
  SeekFrom.target self.length self.position

def seek (position : SeekFrom) : EStateM IoError (TolerantReader σ) Nat := do
  let self ← get
  match self.seekTarget position with
  | none => throw (.invalidInput "seek before start")
  | some target => do
    modify fun self => { self with position := target }
    pure target

/-- `Read` and `Seek` of the reader. -/
def reader : ReadSeek IoError (TolerantReader σ) where
  read := read source
  seek := seek

end TolerantReader

/-- `Ranges`: the entries of the map from start to end, in the order of their keys. -/
abbrev Ranges := List (Nat × Nat)

namespace Ranges

/-- The second loop of `add` over the entries from `start` on, and the insertion. -/
def absorb (start : Nat) : Nat → Ranges → Ranges
  | stop, [] => [(start, stop)]
  | stop, next :: rest =>
    if next.1 ≤ stop then absorb start (max stop next.2) rest else (start, stop) :: next :: rest

/-- `add` after its look at the predecessor. -/
def addAt (self : Ranges) (start stop : Nat) : Ranges :=
  (self.filter fun range => range.1 < start) ++
    absorb start stop (self.filter fun range => start ≤ range.1)

def add (self : Ranges) (start stop : Nat) : Ranges :=
  if stop ≤ start then self
  else
    match (self.filter fun range => range.1 ≤ start).getLast? with
    | some prev =>
      if start ≤ prev.2 then
        addAt (self.filter fun range => range.1 ≠ prev.1) prev.1 (max stop prev.2)
      else self.addAt start stop
    | none => self.addAt start stop

def total (self : Ranges) : Nat := (self.map fun range => range.2 - range.1).sum

end Ranges

end Fsmnt.Device
