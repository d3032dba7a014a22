import Fsmnt.Native.FsNtfs.DataRunMap

/-!
# The streaming reader of a non-resident value

`StreamState` and `NtfsNonResidentAttributeValue` of `attribute_value/non_resident.rs`. The runs
come from an iterator that only goes forward: `advance` takes the next one.
-/

namespace Fsmnt.FsNtfs

/-- An `NtfsDataRun` with the position of a reader in it. -/
structure OpenDataRun where
  position : NtfsPosition
  allocatedSize : Nat
  streamPosition : Nat
  deriving DecidableEq, Repr

/-- A run that was just taken from the iterator. -/
def NtfsDataRun.opened (run : NtfsDataRun) : OpenDataRun :=
  { position := run.position, allocatedSize := run.allocatedSize, streamPosition := 0 }

def OpenDataRun.remainingLen (run : OpenDataRun) : Nat := run.allocatedSize - run.streamPosition

/-- A `StreamState` over the reader `fs`, with the iterator it takes runs from. -/
structure StreamState (σ ν : Type) where
  fs : σ
  iterator : ν
  streamDataRun : Option OpenDataRun
  streamPosition : Nat
  dataSize : Nat
  initializedSize : Nat

namespace StreamState

variable {σ ν : Type} (fs : BlockReader NtfsError σ)

/-- A call on the underlying reader. -/
def onFs {α : Type} (x : EStateM NtfsError σ α) : EStateM NtfsError (StreamState σ ν) α :=
  EStateM.zoom StreamState.fs (fun fs self => { self with fs }) x

/-- Reads from a place on the disk. -/
def readDisk (position n : Nat) : EStateM NtfsError (StreamState σ ν) Bytes := do
  let _ ← onFs (fs.seek (.start position))
  onFs (fs.read n)

/-- The bytes of `NtfsDataRun::read`, at the position in the run. -/
def readRunBytes (run : OpenDataRun) (n : Nat) : EStateM NtfsError (StreamState σ ν) Bytes :=
  match run.position with
  | some position => readDisk fs (position + run.streamPosition) n
  | none => pure (Bytes.zeros n)

/-- `NtfsDataRun::read` on the current run. -/
def readRun (run : OpenDataRun) (n : Nat) : EStateM NtfsError (StreamState σ ν) Bytes :=
  if run.remainingLen = 0 then pure []
  else do
    let bytes ← readRunBytes fs run (min n run.remainingLen)
    modify fun self =>
      { self with
        streamDataRun := some { run with streamPosition := run.streamPosition + bytes.length } }
    pure bytes

/-- `read_data_run`: the bytes read, or none if there is nothing to read in this run. -/
def readDataRun (n : Nat) : EStateM NtfsError (StreamState σ ν) (Option Bytes) := do
  let self ← get
  match self.streamDataRun with
  | none => pure none
  | some run =>
    if run.allocatedSize ≤ run.streamPosition then pure none
    else if self.dataSize - self.streamPosition = 0 then pure none
    else
      let wanted := min n (self.dataSize - self.streamPosition)
      let remainingInitialized := self.initializedSize - self.streamPosition
      if remainingInitialized = 0 then
        if wanted = 0 then pure none
        else
          let advance := min wanted run.remainingLen
          if 2 ^ 63 ≤ advance then throw .invalidInput
          else do
            -- the run is only moved to its end, the value over all the zeros
            set { self with
              streamDataRun := some { run with streamPosition := run.streamPosition + advance }
              streamPosition := self.streamPosition + wanted }
            pure (some (Bytes.zeros wanted))
      else do
        let bytes ← readRun fs run (min wanted remainingInitialized)
        if bytes.length = 0 then pure none
        else do
          modify fun self => { self with streamPosition := self.streamPosition + bytes.length }
          pure (some bytes)

variable (advance : EStateM NtfsError (StreamState σ ν) (Option NtfsDataRun))

/-- Takes the next run, if there is one. -/
def advanceRun : EStateM NtfsError (StreamState σ ν) Bool := do
  match ← advance with
  | some run => do
    modify fun self => { self with streamDataRun := some run.opened }
    pure true
  | none => pure false

/-- `read_loop`. Each pass reads a byte or takes a run. -/
def readLoop : Nat → Nat → EStateM NtfsError (StreamState σ ν) Bytes
  | 0, _ => pure []
  | passes + 1, n =>
    if n = 0 then pure []
    else do
      match ← readDataRun fs n with
      | some bytes => do
        let rest ← readLoop passes (n - bytes.length)
        pure (bytes ++ rest)
      | none => do
        if ← advanceRun advance then readLoop passes n else pure []

/-- The seeks that move a stream: forward from the start, or from the current position. -/
inductive StreamSeek where
  | start (n : Nat)
  | current (n : Nat)
  deriving DecidableEq, Repr

/-- Where a seek ends. -/
def StreamSeek.target (position : Nat) : StreamSeek → Nat
  | .start n => n
  | .current n => position + n

def simplifySeek (self : StreamState σ ν) (pos : SeekFrom) (dataSize : Nat) :
    Except NtfsError StreamSeek :=
  match pos with
  | .start n => .ok (.start n)
  | .fromEnd n =>
    match dataSize.checkedAddSigned64 n with
    | some target => .ok (.start target)
    | none => .error .invalidInput
  | .current n =>
    match self.streamPosition.checkedAddSigned64 n with
    | some target => .ok (if 0 ≤ n then .current n.toNat else .start target)
    | none => .error .invalidInput

def optimizeSeek (self : StreamState σ ν) (pos : SeekFrom) (dataSize : Nat) :
    Except NtfsError StreamSeek :=
  match self.simplifySeek pos dataSize with
  | .error e => .error e
  | .ok (.start n) =>
    if self.streamPosition ≤ n ∧ n - self.streamPosition < 2 ^ 63 then
      .ok (.current (n - self.streamPosition))
    else .ok (.start n)
  | .ok (.current n) => .ok (.current n)

/-- Where a seek that ends in a run leaves it. From the start, the run is still at its own start. -/
def seekInRun (run : OpenDataRun) (pos : StreamSeek) (bytesLeftToSeek : Nat) : OpenDataRun :=
  match pos with
  | .start _ => { run with streamPosition := bytesLeftToSeek }
  | .current _ => { run with streamPosition := run.streamPosition + bytesLeftToSeek }

/-- `seek_data_run`: none if the seek ends in this run, or what is left to seek behind it. -/
def seekDataRun (pos : StreamSeek) (bytesLeftToSeek : Nat) :
    EStateM NtfsError (StreamState σ ν) (Option Nat) := do
  let self ← get
  match self.streamDataRun with
  | none => pure (some bytesLeftToSeek)
  | some run =>
    if bytesLeftToSeek < run.remainingLen then do
      set { self with streamDataRun := some (seekInRun run pos bytesLeftToSeek) }
      pure none
    else pure (some (bytesLeftToSeek - run.remainingLen))

/-- Takes the next run to seek in, or leaves the stream without one. -/
def advanceSeek : EStateM NtfsError (StreamState σ ν) Bool := do
  if ← advanceRun advance then pure true
  else do
    modify fun self => { self with streamDataRun := none }
    pure false

/-- The loop of `seek_loop`. Each pass but the last takes a run. -/
def seekRuns (pos : StreamSeek) : Nat → Nat → EStateM NtfsError (StreamState σ ν) Unit
  | 0, _ => pure ()
  | passes + 1, bytesLeftToSeek =>
    if bytesLeftToSeek = 0 then pure ()
    else do
      match ← seekDataRun pos bytesLeftToSeek with
      | none => pure ()
      | some bytesLeftToSeek => do
        if ← advanceSeek advance then seekRuns pos passes bytesLeftToSeek else pure ()

def seekLoop (passes : Nat) (pos : StreamSeek) (bytesLeftToSeek : Nat) :
    EStateM NtfsError (StreamState σ ν) Nat := do
  seekRuns advance pos passes bytesLeftToSeek
  modify fun self => { self with streamPosition := pos.target self.streamPosition }
  let self ← get
  pure self.streamPosition

end StreamState

/-- The iterator over the runs of a value, which can be started again. -/
structure DataRunsIterator where
  dataRuns : List NtfsDataRun
  rest : List NtfsDataRun

namespace NonResidentValue

variable {σ : Type}

/-- `NtfsNonResidentAttributeValue`. -/
abbrev State (σ : Type) := StreamState σ DataRunsIterator

def nextDataRun : EStateM NtfsError (State σ) (Option NtfsDataRun) := do
  let self ← get
  match self.iterator.rest with
  | [] => pure none
  | run :: rest => do
    set { self with iterator := { self.iterator with rest } }
    pure (some run)

/-- The state of a value at its start. -/
def atStart (fs : σ) (dataRuns : List NtfsDataRun) (dataSize initializedSize : Nat) : State σ :=
  { fs, iterator := { dataRuns, rest := dataRuns.tail }
    streamDataRun := dataRuns.head?.map NtfsDataRun.opened
    streamPosition := 0, dataSize, initializedSize }

def new : σ → List NtfsDataRun → Nat → Nat → State σ := atStart

def rewind : EStateM NtfsError (State σ) Unit :=
  modify fun self =>
    atStart self.fs self.iterator.dataRuns self.dataSize self.initializedSize

variable (fs : BlockReader NtfsError σ)

def read (n : Nat) : EStateM NtfsError (State σ) Bytes := do
  let self ← get
  StreamState.readLoop fs nextDataRun (n + self.iterator.rest.length + 1) n

def seek (pos : SeekFrom) : EStateM NtfsError (State σ) Nat := do
  let self ← get
  match self.optimizeSeek pos self.dataSize with
  | .error e => throw e
  | .ok (.start n) => do
    rewind
    StreamState.seekLoop nextDataRun (self.iterator.dataRuns.length + 1) (.start n) n
  | .ok (.current n) =>
    StreamState.seekLoop nextDataRun (self.iterator.dataRuns.length + 1) (.current n) n

/-- `FsReadSeek` of the value. -/
def reader : ReadSeek NtfsError (State σ) where
  read := read fs
  seek := seek

end NonResidentValue

end Fsmnt.FsNtfs
