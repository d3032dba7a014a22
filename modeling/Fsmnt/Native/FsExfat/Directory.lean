import Fsmnt.ForStd.Fuel
import Fsmnt.Native.ParserCore.BlockCache

/-!
# Directories of exFAT

`dir_iter.rs`, with the cluster chains of `fat.rs`, the lookup by path of `exfat.rs`, the traversal
of `traverse.rs` and the listing of the driver. The iterator works on whatever returns one entry
after the other together with its offset; in the source these are the clusters of a chain, one of
which is buffered. Of a listing the entry sets are kept, in order, and not what is displayed of
them.
-/

namespace Fsmnt.FsExfat

open EStateM ParserCore

/-- `ExFatError`, as far as it occurs here. -/
inductive ExFatError where
  | io
  | invalidCluster (cluster : Nat)
  | badCluster (cluster : Nat)
  | chainLoop (maxClusters : Nat)
  | invalidEntrySet (reason : String) (byteOffset : Nat)
  | truncatedEntrySet (expected actual byteOffset : Nat)
  | unknownCriticalEntry (entryType byteOffset : Nat)
  | metadataNotLoaded
  | notFound
  | notADirectory
  deriving DecidableEq, Repr

/-- `ExFatUpcaseTable`; an entry of zero stands for the character itself. -/
structure UpcaseTable where
  table : Nat → Nat

def UpcaseTable.upcase (self : UpcaseTable) (ch : Nat) : Nat :=
  if self.table ch ≠ 0 then self.table ch else ch

/-- `ExFat`, with the shifts that the boot sector is checked for. -/
structure ExFat where
  bytesPerSectorShift : Nat
  sectorsPerClusterShift : Nat
  shift_ge : 9 ≤ bytesPerSectorShift
  shift_le : bytesPerSectorShift ≤ 12
  cluster_le : bytesPerSectorShift + sectorsPerClusterShift ≤ 25
  fatOffset : Nat
  fatOffset_lt : fatOffset < 2 ^ 32
  clusterHeapOffset : Nat
  clusterHeapOffset_lt : clusterHeapOffset < 2 ^ 32
  clusterCount : Nat
  clusterCount_lt : clusterCount < 2 ^ 32
  rootDirectoryCluster : Nat
  upcaseTable : Option UpcaseTable

namespace ExFat

variable (exfat : ExFat)

def bytesPerSector : Nat := 2 ^ exfat.bytesPerSectorShift

def clusterSize : Nat := 2 ^ (exfat.bytesPerSectorShift + exfat.sectorsPerClusterShift)

def fatByteOffset : Nat := exfat.fatOffset * exfat.bytesPerSector

def clusterHeapByteOffset : Nat := exfat.clusterHeapOffset * exfat.bytesPerSector

/-- The last cluster; the addition saturates. -/
def lastCluster : Nat := min (exfat.clusterCount + 1) (2 ^ 32 - 1)

def clusterOffset (cluster : Nat) : Except ExFatError Nat :=
  if cluster < 2 then .error (.invalidCluster cluster)
  else if exfat.lastCluster < cluster then .error (.invalidCluster cluster)
  else .ok (exfat.clusterHeapByteOffset + (cluster - 2) * exfat.clusterSize)

/-! ### Cluster chains -/

def classifyNextCluster (cluster value : Nat) : Except ExFatError (Option Nat) :=
  if 0xFFFFFFF8 ≤ value then .ok none
  else if value = 0xFFFFFFF7 then .error (.badCluster cluster)
  -- a free entry ends the chain as well
  else if value = 0 ∨ value = 1 then .ok none
  else if value < 2 ∨ exfat.lastCluster < value then .error (.invalidCluster value)
  else .ok (some value)

end ExFat

section Chain

variable {σ : Type} (exfat : ExFat) (fs : BlockReader ExFatError σ)

def nextClusterCached (cluster : Nat) : EStateM ExFatError (Attached σ BlockCache) (Option Nat) :=
  if cluster < 2 ∨ exfat.lastCluster < cluster then throw (.invalidCluster cluster)
  else do
    let bytes ← BlockCache.readExactAt fs .io (exfat.fatByteOffset + cluster * 4) 4
    match exfat.classifyNextCluster cluster (Bytes.ofLE bytes) with
    | .ok next => pure next
    | .error e => throw e

/-- `ExFatClusterIterator`, with the device. -/
structure ClusterIterator (σ : Type) where
  fat : Attached σ BlockCache
  currentCluster : Option Nat
  clustersTraversed : Nat

namespace ClusterIterator

def new (fs : σ) (startCluster : Nat) : ClusterIterator σ where
  fat := ⟨fs, BlockCache.new exfat.bytesPerSector⟩
  currentCluster := some startCluster
  clustersTraversed := 0

/-- The iterator has nothing more to return. -/
def stop (self : ClusterIterator σ) : ClusterIterator σ := { self with currentCluster := none }

/-- `next`. The table is asked for what follows before the cluster is returned. -/
def next : EStateM ExFatError (ClusterIterator σ) (Option Nat) := do
  let self ← get
  match self.currentCluster with
  | none => pure none
  | some cluster => do
    let traversed := self.clustersTraversed + 1
    set { self with clustersTraversed := traversed }
    if exfat.clusterCount < traversed then do
      modify stop
      throw (.chainLoop exfat.clusterCount)
    else do
      let following ← attempt (zoom fat (fun fat self => { self with fat })
        (nextClusterCached exfat fs cluster))
      match following with
      | .ok following => do
        modify fun self => { self with currentCluster := following }
        pure (some cluster)
      | .error e => do
        modify stop
        throw e

end ClusterIterator

/-! ### The cluster buffer -/

def dirEntrySize : Nat := 32

/-- The part of `ExFatDirEntries` that returns entries: the chain and the buffered cluster. -/
structure ClusterBuffer (σ : Type) where
  clusterIter : ClusterIterator σ
  buffer : Bytes
  bufferOffset : Nat
  bufferValid : Nat
  currentClusterOffset : Nat

namespace ClusterBuffer

def new (fs : σ) (startCluster : Nat) : ClusterBuffer σ where
  clusterIter := .new exfat fs startCluster
  buffer := []
  bufferOffset := 0
  bufferValid := 0
  currentClusterOffset := 0

/-- A call on the device itself. -/
def onFs {α : Type} (x : EStateM ExFatError σ α) : EStateM ExFatError (ClusterBuffer σ) α :=
  zoom clusterIter (fun clusterIter self => { self with clusterIter })
    (zoom ClusterIterator.fat (fun fat self => { self with fat }) (Attached.onFs x))

/-- `load_next_cluster`. What a failing read leaves in the buffer is behind its valid part. -/
def loadNextCluster : EStateM ExFatError (ClusterBuffer σ) Unit := do
  let cluster ← zoom clusterIter (fun clusterIter self => { self with clusterIter })
    (ClusterIterator.next exfat fs)
  match cluster with
  | none => modify fun self => { self with bufferValid := 0, bufferOffset := 0 }
  | some cluster =>
    match exfat.clusterOffset cluster with
    | .error e => throw e
    | .ok offset => do
      let _ ← onFs (fs.seek (.start offset))
      let buffer ← onFs (fs.readExact exfat.clusterSize)
      modify fun self => { self with
        buffer, bufferOffset := 0, bufferValid := exfat.clusterSize,
        currentClusterOffset := offset }

def lastEntryByteOffset (self : ClusterBuffer σ) : Nat :=
  min (self.currentClusterOffset + (self.bufferOffset - dirEntrySize)) (2 ^ 64 - 1)

/-- The next entry in the buffer. -/
def takeEntry : EStateM ExFatError (ClusterBuffer σ) (Option (Bytes × Nat)) := do
  let self ← get
  if self.bufferValid < self.bufferOffset + dirEntrySize then pure none
  else do
    let taken := { self with bufferOffset := self.bufferOffset + dirEntrySize }
    set taken
    pure (some (self.buffer.slice self.bufferOffset dirEntrySize, taken.lastEntryByteOffset))

/-- `read_entry_bytes`, with the offset of the entry that was read. -/
def readEntryBytes : EStateM ExFatError (ClusterBuffer σ) (Option (Bytes × Nat)) := do
  let self ← get
  if self.bufferValid ≤ self.bufferOffset then do
    loadNextCluster exfat fs
    let loaded ← get
    if loaded.bufferValid = 0 then pure none else takeEntry
  else takeEntry

end ClusterBuffer

end Chain

/-! ### Entry sets -/

/-- `ExFatEntrySet`, with the entries as they are stored. -/
structure EntrySet where
  fileEntry : Bytes
  streamEntry : Bytes
  nameChars : List Nat
  checksumValid : Bool
  deriving DecidableEq, Repr

namespace EntrySet

variable (self : EntrySet)

def isDirectory : Bool := (self.fileEntry.le16 4).testBit 4

def nameHash : Nat := self.streamEntry.le16 4

def firstCluster : Nat := self.streamEntry.le32 20

def dataLength : Nat := Bytes.ofLE (self.streamEntry.slice 24 8)

def noFatChain : Bool := (Bytes.ofLE (self.streamEntry.slice 1 1)).testBit 1

end EntrySet

/-- `ExFatDirItem`; a label is kept as its characters. -/
inductive DirItem where
  | fileEntry (entrySet : EntrySet)
  | volumeLabel (chars : List Nat)
  | benignEntry (entryType : Nat) (data : Bytes) (byteOffset : Nat)
  | deletedEntry (entryType : Nat) (data : Bytes) (byteOffset : Nat)
  deriving DecidableEq, Repr

/-- A byte of an entry. -/
def byteAt (entry : Bytes) (off : Nat) : Nat := Bytes.ofLE (entry.slice off 1)

/-- `update_set_checksum`; the sum wraps. -/
def updateSetChecksum (checksum : Nat) (byte : UInt8) : Nat :=
  ((if checksum % 2 = 1 then 0x8000 else 0) + checksum / 2 + byte.toNat) % 2 ^ 16

/-- The checksum of a first entry leaves out the field it is stored in. -/
def primaryChecksum (entry : Bytes) : Nat :=
  (entry.take 2 ++ entry.drop 4).foldl updateSetChecksum 0

/-- Characters of two bytes each. -/
def utf16Units : Bytes → List Nat
  | lo :: hi :: rest => (lo.toNat + 256 * hi.toNat) :: utf16Units rest
  | _ => []

def decodeVolumeLabel (entry : Bytes) : List Nat :=
  (utf16Units (entry.slice 2 22)).take (min (byteAt entry 1) 11)

/-! ### The iterator -/

/-- `ExFatDirEntries`, over what returns the entries. -/
structure DirEntries (τ : Type) where
  source : τ
  finished : Bool
  includeDeleted : Bool
  includeBenign : Bool

section Iterator

variable {τ : Type} (read : EStateM ExFatError τ (Option (Bytes × Nat)))

namespace DirEntries

def new (source : τ) : DirEntries τ where
  source := source
  finished := false
  includeDeleted := false
  includeBenign := false

/-- Nothing more is returned. -/
def finish (self : DirEntries τ) : DirEntries τ := { self with finished := true }

/-- The next entry. -/
def readEntry : EStateM (Stop ExFatError) (DirEntries τ) (Option (Bytes × Nat)) :=
  zoom source (fun source self => { self with source }) (liftFailure read)

/-- What has been read of an entry set. -/
structure Assembly where
  checksum : Nat
  stream : Option Bytes
  nameChars : List Nat

/-- What a secondary entry adds; the first one is the stream, and the others are parts of the name.
    -/
def Assembly.add (self : Assembly) (first : Bool) (entry : Bytes) (primaryOffset : Nat) :
    Except ExFatError Assembly :=
  let checksum := entry.foldl updateSetChecksum self.checksum
  if first then
    if byteAt entry 0 ≠ 0xC0 then
      .error (.invalidEntrySet "first secondary entry is not StreamExtension (0xC0)" primaryOffset)
    else .ok { checksum, stream := some entry, nameChars := [] }
  else if byteAt entry 0 ≠ 0xC1 then
    .error (.invalidEntrySet "secondary entry is not FileName (0xC1)" primaryOffset)
  else
    let nameLength := match self.stream with
      | some stream => byteAt stream 3
      | none => 0
    let units := (utf16Units (entry.slice 2 30)).take (nameLength - self.nameChars.length)
    .ok { self with checksum, nameChars := self.nameChars ++ units }

/-- The loop over the secondary entries: how many are left, and how many have been read. -/
def readSecondaries (secondaryCount primaryOffset : Nat) :
    Nat → Nat → Assembly → EStateM (Stop ExFatError) (DirEntries τ) Assembly
  | 0, _, assembly => pure assembly
  | left + 1, i, assembly => do
    let entry ← readEntry read
    match entry with
    | none => do
      modify finish
      throw (.failed (.truncatedEntrySet secondaryCount i primaryOffset))
    | some (entry, _) => do
      let assembly ← liftExcept (assembly.add (i == 0) entry primaryOffset)
      readSecondaries secondaryCount primaryOffset left (i + 1) assembly

def assembleOwned (primary stream : Bytes) (assembly : Assembly) : EntrySet where
  fileEntry := primary
  streamEntry := stream
  nameChars := assembly.nameChars
  checksumValid := assembly.checksum == primary.le16 2

def assembleFileEntry (primary : Bytes) (primaryOffset : Nat) :
    EStateM (Stop ExFatError) (DirEntries τ) DirItem :=
  let secondaryCount := byteAt primary 1
  if secondaryCount < 2 then
    throw (.failed (.invalidEntrySet "secondary_count must be at least 2" primaryOffset))
  else if 18 < secondaryCount then
    throw (.failed (.invalidEntrySet "secondary_count exceeds spec maximum of 18" primaryOffset))
  else do
    let assembly ← readSecondaries read secondaryCount primaryOffset secondaryCount 0
      { checksum := primaryChecksum primary, stream := none, nameChars := [] }
    match assembly.stream with
    | none => throw (.failed (.invalidEntrySet "missing StreamExtension entry" primaryOffset))
    | some stream => pure (.fileEntry (assembleOwned primary stream assembly))

/-- What `next` does with an entry. -/
def handleEntry (entry : Bytes) (offset : Nat) :
    EStateM (Stop ExFatError) (DirEntries τ) (Unit ⊕ Option DirItem) := do
  let self ← get
  let entryType := byteAt entry 0
  if entryType = 0 then do
    -- the end of the directory
    modify finish
    pure (.inr none)
  else if entryType < 0x80 then
    if self.includeDeleted then pure (.inr (some (.deletedEntry entryType entry offset)))
    else pure (.inl ())
  else if entryType = 0x85 then do
    let item ← assembleFileEntry read entry offset
    pure (.inr (some item))
  else if entryType = 0x83 then pure (.inr (some (.volumeLabel (decodeVolumeLabel entry))))
  else if entryType = 0x81 ∨ entryType = 0x82 then pure (.inl ())
  else if entryType.testBit 5 then
    if self.includeBenign then pure (.inr (some (.benignEntry entryType entry offset)))
    else pure (.inl ())
  else do
    modify finish
    throw (.failed (.unknownCriticalEntry entryType offset))

/-- One pass of the loop of `next`. -/
def nextStep : EStateM (Stop ExFatError) (DirEntries τ) (Unit ⊕ Option DirItem) := do
  let self ← get
  if self.finished then pure (.inr none)
  else do
    let entry ← attempt (readEntry read)
    match entry with
    | .error e => do
      modify finish
      throw e
    | .ok none => do
      modify finish
      pure (.inr none)
    | .ok (some (entry, offset)) => handleEntry read entry offset

def next (fuel : Nat) : EStateM (Stop ExFatError) (DirEntries τ) (Option DirItem) :=
  loop (fun _ => nextStep read) fuel ()

/-- A loop over the items: it ends with the first result, or at the end of the directory. -/
def forItems {β γ : Type} (step : β → DirItem → β ⊕ γ) (atEnd : β → Except ExFatError γ)
    (fuel : Nat) (start : β) : EStateM (Stop ExFatError) (DirEntries τ) γ :=
  loop (fun state => do
    let item ← next read fuel
    match item with
    | none => do
      let result ← liftExcept (atEnd state)
      pure (.inr result)
    | some item => pure (step state item)) fuel start

/-! ### What uses it -/

/-- `read_cluster_directory` of the driver. -/
def readClusterDirectory (fuel : Nat) : EStateM (Stop ExFatError) (DirEntries τ) (List EntrySet) :=
  forItems read (fun entries item =>
    match item with
    | .fileEntry entry => .inl (entries ++ [entry])
    | _ => .inl entries) .ok fuel []

/-- `try_next` of the traversal. -/
def tryNext (fuel : Nat) : EStateM (Stop ExFatError) (DirEntries τ) (Option EntrySet) :=
  forItems read (fun state item =>
    match item with
    | .fileEntry entry => .inr (some entry)
    | _ => .inl state) (fun _ => .ok none) fuel ()

/-- The entries that a walk over the directory meets. -/
def walkEntries (fuel : Nat) : EStateM (Stop ExFatError) (DirEntries τ) (List EntrySet) :=
  loop (fun entries => do
    let entry ← tryNext read fuel
    match entry with
    | none => pure (.inr entries)
    | some entry => pure (.inl (entries ++ [entry]))) fuel []

end DirEntries

/-! ### Lookup by name -/

namespace UpcaseTable

def hashNameUnits (units : List Nat) : Nat :=
  units.foldl (fun hash unit =>
    updateSetChecksum (updateSetChecksum hash (UInt8.ofNat unit)) (UInt8.ofNat (unit / 256))) 0

/-- `name_hash_for_str`, of a name in characters. -/
def nameHashFor (self : UpcaseTable) (name : List Nat) : Nat := hashNameUnits (name.map self.upcase)

/-- `name_equals_str`. -/
def nameEquals (self : UpcaseTable) : List Nat → List Nat → Bool
  | a :: as, b :: bs => if self.upcase a ≠ self.upcase b then false else self.nameEquals as bs
  | [], [] => true
  | _, _ => false

end UpcaseTable

/-- `find_in_directory`, from the iterator on. -/
def findInDirectory (upcase : UpcaseTable) (name : List Nat) (fuel : Nat) :
    EStateM (Stop ExFatError) (DirEntries τ) EntrySet :=
  DirEntries.forItems read (fun state item =>
    match item with
    | .fileEntry entry =>
      if entry.nameHash ≠ upcase.nameHashFor name then .inl state
      else if upcase.nameEquals entry.nameChars name then .inr entry
      else .inl state
    | _ => .inl state) (fun _ => .error .notFound) fuel ()

end Iterator

section Open

variable {σ α : Type} (exfat : ExFat) (fs : BlockReader ExFatError σ)

/-- A computation over the entries of the directory that starts at a cluster. -/
def withDirEntries (cluster : Nat)
    (x : EStateM (Stop ExFatError) (DirEntries (ClusterBuffer σ)) α) :
    EStateM (Stop ExFatError) σ α := fun d =>
  match x (.new (.new exfat d cluster)) with
  | .ok a t => .ok a t.source.clusterIter.fat.fs
  | .error e t => .error e t.source.clusterIter.fat.fs

/-- The loop of `open` over the components of a path. -/
def openFrom (upcase : UpcaseTable) (fuel cluster : Nat) :
    List (List Nat) → EStateM (Stop ExFatError) σ EntrySet
  | [] => throw (.failed .notFound)
  | name :: rest => do
    let entry ← withDirEntries exfat cluster
      (findInDirectory (ClusterBuffer.readEntryBytes exfat fs) upcase name fuel)
    if rest = [] then pure entry
    else if entry.isDirectory then openFrom upcase fuel entry.firstCluster rest
    else throw (.failed .notADirectory)

/-- `open`, of a path in components. -/
def openPath (fuel : Nat) (components : List (List Nat)) : EStateM (Stop ExFatError) σ EntrySet :=
  match exfat.upcaseTable with
  | none => throw (.failed .metadataNotLoaded)
  | some upcase => openFrom exfat fs upcase fuel exfat.rootDirectoryCluster components

end Open

end Fsmnt.FsExfat
