import Fsmnt.Native.ParserCore.BlockCache

/-!
# The data of a file on a FAT volume

`FatFileGeometry` of `fat.rs` and `FatFileValue` of `value.rs`. Errors keep what distinguishes them;
`BpbOverflow` does not occur here, since what is converted to 32 bits is bounded by the cluster
size.
-/

namespace Fsmnt.FsFat

open ParserCore

inductive FatType where
  | fat12
  | fat16
  | fat32
  deriving DecidableEq, Repr

inductive FatError where
  | io
  | invalidInput
  | invalidCluster (cluster : Nat)
  | badCluster (cluster : Nat)
  | clusterChainLoop (maxClusters : Nat)
  deriving DecidableEq, Repr

/-- `FatFileGeometry`. `Fat::new` accepts only sectors of 512 to 4096 bytes and clusters of a power
    of two of them, so neither size is zero. -/
structure FatFileGeometry where
  kind : FatType
  clusterSize : Nat
  sectorSize : Nat
  tableStartSector : Nat
  dataStartSector : Nat
  clusterCount : Nat
  clusterSize_pos : 0 < clusterSize
  sectorSize_pos : 0 < sectorSize

namespace FatFileGeometry

/-- The clusters that have data; the bound is a saturating sum. -/
def validCluster (geometry : FatFileGeometry) (cluster : Nat) : Prop :=
  ¬ (cluster < 2 ∨ min (geometry.clusterCount + 1) (2 ^ 32 - 1) < cluster)

instance (geometry : FatFileGeometry) (cluster : Nat) : Decidable (geometry.validCluster cluster) :=
  inferInstanceAs (Decidable (¬ _))

def clusterOffset (geometry : FatFileGeometry) (cluster : Nat) : Except FatError Nat :=
  if geometry.validCluster cluster then
    .ok (geometry.dataStartSector * geometry.sectorSize + (cluster - 2) * geometry.clusterSize)
  else .error (.invalidCluster cluster)

/-- Where the entry of a cluster is in the table, and how many bytes are read for it. -/
def entryAt (geometry : FatFileGeometry) (cluster : Nat) : Nat × Nat :=
  match geometry.kind with
  | .fat12 => (cluster + cluster / 2, 2)
  | .fat16 => (cluster * 2, 2)
  | .fat32 => (cluster * 4, 4)

/-- Where the entry of a cluster is on the volume. -/
def entryOffset (geometry : FatFileGeometry) (cluster : Nat) : Nat :=
  geometry.tableStartSector * geometry.sectorSize + (geometry.entryAt cluster).1

/-- What an entry says: the cluster that follows, or none at the end of the chain. -/
def decodeEntry (kind : FatType) (cluster : Nat) (bytes : Bytes) : Except FatError (Option Nat) :=
  let value := match kind with
    | .fat12 => if cluster % 2 = 1 then Bytes.ofLE bytes / 16 else Bytes.ofLE bytes % 0x1000
    | .fat16 => Bytes.ofLE bytes
    | .fat32 => Bytes.ofLE bytes % 0x10000000
  let bad := match kind with
    | .fat12 => 0xff7
    | .fat16 => 0xfff7
    | .fat32 => 0xffffff7
  -- the values behind the mark of a bad cluster end the chain
  if bad < value then .ok none
  else if value = bad then .error (.badCluster cluster)
  else .ok (some value)

variable {σ : Type} (fs : BlockReader FatError σ)

def nextClusterCached (geometry : FatFileGeometry) (cluster : Nat) :
    EStateM FatError (Attached σ BlockCache) (Option Nat) :=
  if geometry.validCluster cluster then do
    let bytes ← BlockCache.readExactAt fs .invalidInput (geometry.entryOffset cluster)
      (geometry.entryAt cluster).2
    match decodeEntry geometry.kind cluster bytes with
    | .ok next => pure next
    | .error e => throw e
  else throw (.invalidCluster cluster)

end FatFileGeometry

structure FatFileValue where
  geometry : FatFileGeometry
  firstCluster : Option Nat
  currentCluster : Option Nat
  positionInCluster : Nat
  streamPosition : Nat
  dataSize : Nat
  clustersTraversed : Nat
  fatCache : BlockCache

namespace FatFileValue

def new (geometry : FatFileGeometry) (firstCluster : Option Nat) (dataSize : Nat) : FatFileValue :=
  { geometry, firstCluster, currentCluster := firstCluster, positionInCluster := 0
    streamPosition := 0, dataSize, clustersTraversed := 0
    fatCache := BlockCache.new geometry.sectorSize }

def rewind (self : FatFileValue) : FatFileValue :=
  { self with currentCluster := self.firstCluster, positionInCluster := 0, streamPosition := 0
              clustersTraversed := 0 }

def remaining (self : FatFileValue) : Nat := self.dataSize - self.streamPosition

variable {σ : Type} (fs : BlockReader FatError σ)

/-- A change of the value. -/
def onValue (f : FatFileValue → FatFileValue) (self : Attached σ FatFileValue) :
    Attached σ FatFileValue :=
  { self with value := f self.value }

/-- A call on the cached sector of the table. -/
def onCache {α : Type} (x : EStateM FatError (Attached σ BlockCache) α) :
    EStateM FatError (Attached σ FatFileValue) α :=
  EStateM.zoom (fun self => { fs := self.fs, value := self.value.fatCache })
    (fun cached self =>
      { fs := cached.fs, value := { self.value with fatCache := cached.value } }) x

/-- The chain goes on with `next`. -/
def enterCluster (next : Nat) (self : FatFileValue) : FatFileValue :=
  { self with currentCluster := some next, positionInCluster := 0
              clustersTraversed := self.clustersTraversed + 1 }

/-- The chain has ended. -/
def leaveChain (self : FatFileValue) : FatFileValue := { self with currentCluster := none }

/-- The end of `advance_cluster`, with what the table says. -/
def follow : Option Nat → EStateM FatError (Attached σ FatFileValue) Bool
  | some next => do
    modify (onValue (enterCluster next))
    pure true
  | none => do
    modify (onValue leaveChain)
    pure false

def advanceCluster : EStateM FatError (Attached σ FatFileValue) Bool := do
  let self ← get
  match self.value.currentCluster with
  | none => pure false
  | some current =>
    if self.value.geometry.clusterCount ≤ self.value.clustersTraversed then
      throw (.clusterChainLoop self.value.geometry.clusterCount)
    else do
      let next ← onCache (self.value.geometry.nextClusterCached fs current)
      follow next

/-- Moves behind bytes that were read. -/
def consume (n : Nat) (self : FatFileValue) : FatFileValue :=
  { self with positionInCluster := self.positionInCluster + n
              streamPosition := self.streamPosition + n }

/-- How much `read` takes from the current cluster. -/
def toRead (n : Nat) (self : FatFileValue) : Nat :=
  min (min n (self.geometry.clusterSize - self.positionInCluster)) self.remaining

/-- The step to the next cluster when the current one has been read to its end. -/
def stepAtEnd : EStateM FatError (Attached σ FatFileValue) Unit := do
  let self ← get
  if self.value.geometry.clusterSize ≤ self.value.positionInCluster then do
    let _ ← advanceCluster fs
    pure ()
  else pure ()

/-- The part of the loop of `read` that reads from a cluster. -/
def readHere (n : Nat) : EStateM FatError (Attached σ FatFileValue) Bytes := do
  let self ← get
  match self.value.currentCluster with
  | none => pure []
  | some cluster =>
    match self.value.geometry.clusterOffset cluster with
    | .error e => throw e
    | .ok offset => do
      let _ ← Attached.onFs (fs.seek (.start (offset + self.value.positionInCluster)))
      let bytes ← Attached.onFs (fs.read (self.value.toRead n))
      modify (onValue (consume bytes.length))
      stepAtEnd fs
      pure bytes

/-- `read`. At the end of a cluster the loop of the source steps on and tries again; it does so at
    most once, since the position is then zero and a cluster is not empty. -/
def read (n : Nat) : EStateM FatError (Attached σ FatFileValue) Bytes := do
  let self ← get
  if n = 0 ∨ self.value.remaining = 0 then pure []
  else if self.value.currentCluster = none then pure []
  else if self.value.toRead n = 0 then do
    if ← advanceCluster fs then readHere fs n else pure []
  else readHere fs n

/-- Moves the stream to the end of the current cluster, before the step to the next one. -/
def stepStream (self : FatFileValue) : FatFileValue :=
  { self with streamPosition :=
      self.streamPosition + (self.geometry.clusterSize - self.positionInCluster) }

/-- The loop of `seek_to_position`. A pass moves the stream by a cluster, apart from the first one,
    so that one more pass than clusters is enough. -/
def seekLoop (targetClusterIndex : Nat) : Nat → EStateM FatError (Attached σ FatFileValue) Unit
  | 0 => pure ()
  | passes + 1 => do
    let self ← get
    if self.value.streamPosition / self.value.geometry.clusterSize < targetClusterIndex then do
      modify (onValue stepStream)
      if ← advanceCluster fs then seekLoop targetClusterIndex passes else pure ()
    else pure ()

/-- The end of `seek_to_position`. -/
def setPosition (targetPos : Nat) (self : FatFileValue) : FatFileValue :=
  { self with positionInCluster := targetPos % self.geometry.clusterSize
              streamPosition := targetPos }

/-- Rewinds when the target lies before the stream. -/
def rewindFor (targetPos : Nat) (self : FatFileValue) : FatFileValue :=
  if targetPos < self.streamPosition then self.rewind else self

def seekToPosition (target : Nat) : EStateM FatError (Attached σ FatFileValue) Unit := do
  let self ← get
  let targetPos := min target self.value.dataSize
  modify (onValue (rewindFor targetPos))
  let targetClusterIndex := targetPos / self.value.geometry.clusterSize
  seekLoop fs targetClusterIndex (targetClusterIndex + 1)
  modify (onValue (setPosition targetPos))

/-- Where a seek goes; sums and differences saturate. -/
def seekTarget (self : FatFileValue) : SeekFrom → Nat
  | .start n => n
  | .fromEnd n => min (self.dataSize + n).toNat (2 ^ 64 - 1)
  | .current n => min (self.streamPosition + n).toNat (2 ^ 64 - 1)

def seek (position : SeekFrom) : EStateM FatError (Attached σ FatFileValue) Nat := do
  let self ← get
  seekToPosition fs (self.value.seekTarget position)
  let moved ← get
  pure moved.value.streamPosition

/-- `FsReadSeek` of the value. -/
def reader : ReadSeek FatError (Attached σ FatFileValue) where
  read := read fs
  seek := seek fs

end FatFileValue

end Fsmnt.FsFat
