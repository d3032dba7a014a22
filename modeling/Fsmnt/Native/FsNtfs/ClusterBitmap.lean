import Fsmnt.Native.FsNtfs.Compressed

/-!
# The cluster bitmap

`cluster_bitmap.rs`. One cluster of the bitmap is cached, and filled in place.
-/

namespace Fsmnt.FsNtfs

/-- `NtfsClusterBitmap`. -/
structure ClusterBitmap where
  map : DataRunMap
  totalClusters : Nat
  clusterSize : Nat
  cache : Bytes
  cachedCluster : Option Nat

structure ClusterRangeStatus where
  allocated : Nat
  free : Nat
  deriving DecidableEq, Repr

namespace ClusterBitmap

variable {σ : Type}

/-- What `load` makes of the runs of `$Bitmap` and the geometry of the volume. -/
def load (map : DataRunMap) (totalClusters clusterSize : Nat) : ClusterBitmap :=
  { map, totalClusters, clusterSize, cache := Bytes.zeros clusterSize, cachedCluster := none }

/-- The end of a fill that succeeds. -/
def setCache (bitmapCluster : Nat) (cache : Bytes) (self : Attached σ ClusterBitmap) :
    Attached σ ClusterBitmap :=
  { self with value := { self.value with cache, cachedCluster := some bitmapCluster } }

/-- The end of a fill whose read fails: the start of the cache is overwritten, and the cluster it is
    said to hold is still the one before. -/
def spoilCache (written : Bytes) (self : Attached σ ClusterBitmap) : Attached σ ClusterBitmap :=
  { self with value := { self.value with cache := self.value.cache.splice 0 written } }

/-- Where a bitmap cluster is on the disk; none for a hole. -/
def diskPosition (self : ClusterBitmap) (bitmapCluster : Nat) : NtfsPosition :=
  (self.map.resolvePosition (bitmapCluster * self.clusterSize)).bind Prod.fst

variable (fs : FillReader NtfsError σ)

/-- Fills the cache from the disk. -/
def fillCache (bitmapCluster : Nat) : EStateM NtfsError (Attached σ ClusterBitmap) Unit := do
  let self ← get
  match ← (Attached.onFs (fs.readExact self.value.cache.length)).attempt with
  | .ok bytes => modify (setCache bitmapCluster bytes)
  | .error e => do
    modify (spoilCache (fs.written self.value.cache.length self.fs))
    throw e

def ensureCached (bitmapCluster : Nat) : EStateM NtfsError (Attached σ ClusterBitmap) Unit := do
  let self ← get
  if self.value.cachedCluster = some bitmapCluster then pure ()
  else
    match self.value.diskPosition bitmapCluster with
    | some position => do
      let _ ← Attached.onFs (fs.seek (.start position))
      fillCache fs bitmapCluster
    | none => modify (setCache bitmapCluster (Bytes.zeros self.value.cache.length))

/-- The bit of a cluster in the cached part of the bitmap. -/
def cachedBit (cache : Bytes) (bitOffset : Nat) : Except NtfsError Bool :=
  match cache[bitOffset / 8]? with
  | none => .error .invalidData
  | some byte => .ok (byte.toNat.testBit (bitOffset % 8))

def isAllocated (cluster : Nat) : EStateM NtfsError (Attached σ ClusterBitmap) Bool := do
  let self ← get
  if self.value.totalClusters ≤ cluster then
    throw (.clusterOutOfRange cluster self.value.totalClusters)
  else do
    let bitsPerCache := self.value.clusterSize * 8
    ensureCached fs (cluster / bitsPerCache)
    let cached ← get
    match cachedBit cached.value.cache (cluster % bitsPerCache) with
    | .error e => throw e
    | .ok bit => pure bit

/-- The loop of `range_status`. -/
def countRange : Nat → Nat → ClusterRangeStatus →
    EStateM NtfsError (Attached σ ClusterBitmap) ClusterRangeStatus
  | 0, _, status => pure status
  | count + 1, cluster, status => do
    if ← isAllocated fs cluster then
      countRange count (cluster + 1) { status with allocated := status.allocated + 1 }
    else countRange count (cluster + 1) { status with free := status.free + 1 }

def rangeStatus (start count : Nat) :
    EStateM NtfsError (Attached σ ClusterBitmap) ClusterRangeStatus := do
  let self ← get
  let stop := min (min (start + count) (2 ^ 64 - 1)) self.value.totalClusters
  countRange fs (stop - start) start { allocated := 0, free := 0 }

/-- `count_ones` of a byte. -/
def countOnes (byte : UInt8) : Nat := ((List.range 8).filter byte.toNat.testBit).length

/-- The bits that are set among the first `bits` of a cached cluster: those of the full bytes, and
    those under the mask of the byte behind them. -/
def popcount (cache : Bytes) (bits : Nat) : Nat :=
  let fullBytes := bits / 8
  let remainingBits := bits % 8
  let full := ((cache.take fullBytes).map countOnes).sum
  if remainingBits = 0 then full
  else
    match cache[fullBytes]? with
    | some lastByte => full + countOnes (lastByte &&& UInt8.ofNat (255 >>> (8 - remainingBits)))
    | none => full

/-- The loop of `free_clusters`, which counts the allocated clusters. -/
def countAllocated (bitmapClusters : Nat) : Nat → Nat → Nat →
    EStateM NtfsError (Attached σ ClusterBitmap) Nat
  | 0, _, allocated => pure allocated
  | rest + 1, bitmapCluster, allocated => do
    ensureCached fs bitmapCluster
    let self ← get
    let bitsPerCache := self.value.clusterSize * 8
    let remainder := self.value.totalClusters % bitsPerCache
    -- the last bitmap cluster counts only up to the end of the volume
    let bits := if bitmapCluster + 1 = bitmapClusters ∧ remainder ≠ 0 then remainder
      else bitsPerCache
    countAllocated bitmapClusters rest (bitmapCluster + 1)
      (allocated + popcount self.value.cache bits)

def freeClusters : EStateM NtfsError (Attached σ ClusterBitmap) Nat := do
  let self ← get
  let bitsPerCache := self.value.clusterSize * 8
  let bitmapClusters := (self.value.totalClusters + bitsPerCache - 1) / bitsPerCache
  let allocated ← countAllocated fs bitmapClusters bitmapClusters 0 0
  pure (self.value.totalClusters - allocated)

/-- A query. -/
inductive Query where
  | isAllocated (cluster : Nat)
  | rangeStatus (start count : Nat)
  | freeClusters

/-- The state after a query, whether it succeeded or failed. -/
def after (s : Attached σ ClusterBitmap) : Query → Attached σ ClusterBitmap
  | .isAllocated cluster => (isAllocated fs cluster s).state
  | .rangeStatus start count => (rangeStatus fs start count s).state
  | .freeClusters => (freeClusters fs s).state

end ClusterBitmap

end Fsmnt.FsNtfs
