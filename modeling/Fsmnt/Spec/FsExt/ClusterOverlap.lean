import Mathlib.Data.List.TakeWhile
import Fsmnt.ForStd.Post
import Fsmnt.Spec.FsExt.BitmapPersistence
import Fsmnt.Spec.FsExt.GroupLedger

/-!
# Overlapping clusters

`free_allocations` takes the offset of a block in its run, divided by the blocks of a cluster, for
the number of clusters between the run's first logical cluster and the block's. A run may start
inside a cluster; from the next cluster on the quotient then lags behind.
-/

namespace Fsmnt.FsExt

open EStateM Mutator List

section

variable (ext : Ext)

/-- The physical cluster of a data block with the logical cluster of the file. The first logical
    block of the run is the one in the cluster `start` that agrees with the first physical block
    modulo the size of a cluster. -/
def logicalSlot (b : RunBlock) : Option (Nat × Nat) :=
  match b.1.kind with
  | .metadata => none
  | .data start =>
    let first := start * ext.blocksPerCluster +
      (b.1.physicalStart - ext.firstDataBlock) % ext.blocksPerCluster
    some ((b.1.physicalStart + b.2 - ext.firstDataBlock) / ext.blocksPerCluster,
      (first + b.2) / ext.blocksPerCluster)

/-- The blocks of the run are in range, and a data run starts on a cluster boundary or ends inside
    its first cluster. -/
structure AllocationRun.OnBoundary (run : AllocationRun) : Prop where
  inRange : ∀ off < run.blockLen, Addressed ext (run, off)
  aligned : ∀ start, run.kind = .data start →
    (run.physicalStart - ext.firstDataBlock) % ext.blocksPerCluster = 0 ∨
    (run.physicalStart - ext.firstDataBlock) % ext.blocksPerCluster + run.blockLen ≤
      ext.blocksPerCluster

end

/-- `BigallocClusterOverlap` and `BlockOutOfRange`. -/
def MutatorError.RejectsRuns : MutatorError → Prop
  | .bigallocClusterOverlap _ _ _ _ | .ext (.blockOutOfRange _) => True
  | _ => False

section

variable (ext : Ext) (fs : FsReader) (m : Mutator) (inode : Nat) (runs : List AllocationRun)

/-- Overlapping clusters are rejected, and no others are. -/
def OverlapsRejected : Prop :=
  (∃ c b b' m', freeAllocations ext fs inode runs m =
    .error (.bigallocClusterOverlap inode c b b') m') ↔ Clash (logicalSlot ext) (runBlocks runs)

/-- A rejection changes nothing. -/
def RejectsAtomically : Prop :=
  ∀ e m', freeAllocations ext fs inode runs m = .error e m' → e.RejectsRuns →
    m'.content ext fs = m.content ext fs ∧ m'.groupTallies = m.groupTallies ∧
      m'.totalClustersFreed = m.totalClustersFreed

end

/-- A block of a run on a boundary is planned for its cluster of the file. -/
theorem plannedSlot_eq_logicalSlot {ext : Ext} {b : RunBlock} (h : b.1.OnBoundary ext)
    (hoff : b.2 < b.1.blockLen) : plannedSlot ext b = logicalSlot ext b := by
  have hpos := ext.blocksPerCluster_pos
  unfold plannedSlot logicalSlot
  cases hkind : b.1.kind with
  | metadata => rfl
  | data start =>
    dsimp only
    congr 2
    rw [Nat.add_assoc, Nat.mul_comm start, Nat.mul_add_div hpos]
    rcases h.aligned start hkind with hzero | hshort
    · rw [hzero, Nat.zero_add]
    · rw [Nat.div_eq_of_lt (by omega), Nat.div_eq_of_lt (by omega)]

/-! ### The second pass -/

section Free

variable {ext : Ext} {fs : FsReader} {inode : Nat} {runs : List AllocationRun}
  (hbitmaps : ∀ gdp ∈ ext.groupDescs, ∀ b,
    readBlock ext fs gdp.blockBitmap ≠ .error (.blockOutOfRange b))

include hbitmaps

/-- The second pass does not reject a cluster of the plan. -/
theorem post_freeCluster {cluster block : Nat} (hlow : ext.firstDataBlock ≤ block)
    (hcluster : cluster = (block - ext.firstDataBlock) / ext.blocksPerCluster) (m : Mutator) :
    Post (freeCluster ext fs inode cluster block) m (fun _ _ => True)
      (fun e _ => ¬e.RejectsRuns) := by
  unfold freeCluster
  rw [if_neg (Nat.not_lt.mpr hlow)]
  dsimp only
  split
  · exact id
  split
  · exact id
  rename_i gdp hgdp
  -- the bitmap itself is in range
  have hseed : Post (seedBlock ext fs gdp.blockBitmap
      (.blockBitmap ((block - ext.firstDataBlock) / ext.blocksPerGroup))) m (fun _ _ => True)
      (fun e _ => ¬e.RejectsRuns) := by
    unfold Post
    rw [seedBlock_run]
    by_cases hseeded : m.blocks.contains gdp.blockBitmap = true
    · rw [if_pos hseeded]
      trivial
    rw [if_neg hseeded]
    cases hread : readBlock ext fs gdp.blockBitmap with
    | ok content => trivial
    | error e =>
      intro hrejects
      cases e with
      | blockOutOfRange b => exact hbitmaps gdp (mem_of_getElem? hgdp) b hread
      | _ => exact hrejects
  refine post_bind.mpr (hseed.imp (fun _ t _ => ?_))
  have hstart : (block - ext.firstDataBlock) / ext.blocksPerGroup * ext.blocksPerGroup /
      ext.blocksPerCluster ≤ cluster := by
    rw [hcluster]
    exact Nat.div_le_div_right (Nat.div_mul_le_self _ _)
  rw [if_neg (Nat.not_lt.mpr hstart)]
  refine post_bind.mpr ?_
  show Post (onBitmap _ _ _) t (fun _ _ => True) _
  unfold Post onBitmap
  rw [get_bind_run]
  cases hscratch : t.blocks[gdp.blockBitmap]? with
  | none => exact id
  | some scratch =>
    dsimp only
    cases hclear : clearBit _ scratch.content with
    | ok changed content => trivial
    | error e content =>
      unfold clearBit at hclear
      rw [get_bind_run] at hclear
      split at hclear
      · cases hclear
        exact id
      · split at hclear <;> cases hclear

theorem post_freeClusters (inode : Nat) (clusters : List (Nat × Nat))
    (h : ∀ c ∈ clusters, ext.firstDataBlock ≤ c.2 ∧
      c.1 = (c.2 - ext.firstDataBlock) / ext.blocksPerCluster) (m : Mutator) :
    Post (freeClusters ext fs inode clusters) m (fun _ _ => True) (fun e _ => ¬e.RejectsRuns) := by
  induction clusters generalizing m with
  | nil => trivial
  | cons c rest ih =>
    obtain ⟨hlow, hcluster⟩ := h c mem_cons_self
    refine post_bind.mpr ((post_freeCluster hbitmaps hlow hcluster m).imp (fun _ t _ => ?_))
    exact ih (fun c' hc' => h c' (mem_cons_of_mem c hc')) t

/-- What `free_allocations` rejects is what the first pass rejects. -/
theorem freeAllocations_rejects_iff {e : MutatorError} {m m' : Mutator} (he : e.RejectsRuns) :
    freeAllocations ext fs inode runs m = .error e m' ↔
      planClusters ext inode runs = .error e ∧ m' = m := by
  unfold freeAllocations
  cases hplan : planClusters ext inode runs with
  | error e' =>
    constructor
    · intro h
      cases h
      exact ⟨rfl, rfl⟩
    · rintro ⟨h, rfl⟩
      cases h
      rfl
  | ok plan =>
    refine ⟨fun h => ?_, fun h => nomatch h.1⟩
    have hpost := post_freeClusters hbitmaps inode plan.clusters.toList (fun c hc => by
      obtain ⟨b, -, hin, heq, hcluster⟩ := (owned_planClusters hplan).clusters c.1 c.2
        (Std.TreeMap.mem_toList_iff_getElem?_eq_some.mp hc)
      exact ⟨heq ▸ hin.2.2.1, hcluster⟩) m
    unfold Post at hpost
    rw [show freeClusters ext fs inode plan.clusters.toList m = .error e m' from h] at hpost
    exact absurd he hpost

/-- Where the bitmaps of the groups are in range, every rejection is atomic, and overlapping
    clusters of runs on boundaries are rejected exactly. -/
theorem free_allocations_exact_of_aligned (m : Mutator) :
    RejectsAtomically ext fs m inode runs ∧
      ((∀ run ∈ runs, run.OnBoundary ext) → OverlapsRejected ext fs m inode runs) := by
  refine ⟨fun e m' hrun hrejects => ?_, fun hruns => ?_⟩
  · rw [((freeAllocations_rejects_iff hbitmaps hrejects).mp hrun).2]
    exact ⟨rfl, rfl, rfl⟩
  have hplan := (planBlocks_spec inode (runBlocks runs) (owned_empty ext)).1
  have hin : (runBlocks runs).takeWhile (Addressed ext ·) = runBlocks runs :=
    takeWhile_eq_self_iff.mpr fun b hb =>
      decide_eq_true ((hruns b.1 (mem_runBlocks.mp hb).1).inRange b.2 (mem_runBlocks.mp hb).2)
  rw [← planClusters_eq, nil_append, hin] at hplan
  have hslots : Clash (plannedSlot ext) (runBlocks runs) ↔
    Clash (logicalSlot ext) (runBlocks runs) :=
    exists_congr fun s => and_congr_right fun hs => exists_congr fun t =>
      and_congr_right fun ht => by
      obtain ⟨hrun, hoff⟩ := mem_runBlocks.mp hs
      obtain ⟨hrun', hoff'⟩ := mem_runBlocks.mp ht
      rw [plannedSlot_eq_logicalSlot (hruns _ hrun) hoff,
        plannedSlot_eq_logicalSlot (hruns _ hrun') hoff']
  unfold OverlapsRejected
  rw [← hslots, ← hplan]
  constructor
  · rintro ⟨c, b, b', m', h⟩
    exact ⟨c, b, b', ((freeAllocations_rejects_iff hbitmaps (by trivial)).mp h).1⟩
  · rintro ⟨c, b, b', h⟩
    exact ⟨c, b, b', m, (freeAllocations_rejects_iff hbitmaps (by trivial)).mpr ⟨h, rfl⟩⟩

end Free

/-- Two groups with clusters of four blocks. -/
def fourBlockClusters : Ext :=
  { twoGroups 0 with
    firstDataBlock := 0
    blocksPerCluster := 4
    clustersPerGroup := 2048
    blocksPerCluster_pos := by decide
    clustersPerGroup_pos := by decide
    blocksPerGroup_eq := rfl }

/-- An extent of two clusters, a block of the second that belongs to another cluster of the file,
    and a block of metadata. -/
def sharedRuns : List AllocationRun := [⟨4, 6, .data 0⟩, ⟨11, 1, .data 3⟩, ⟨14, 1, .metadata⟩]

theorem free_allocations_exact_shared :
    RejectsAtomically fourBlockClusters zeroDevice (new (Bytes.zeros 1024)) 12 sharedRuns ∧
      OverlapsRejected fourBlockClusters zeroDevice (new (Bytes.zeros 1024)) 12 sharedRuns := by
  have hblocks : ∀ gdp ∈ fourBlockClusters.groupDescs,
      gdp.blockBitmap * fourBlockClusters.blockSize < 2 ^ 64 := by decide
  have hbitmaps : ∀ gdp ∈ fourBlockClusters.groupDescs, ∀ b,
      readBlock fourBlockClusters zeroDevice gdp.blockBitmap ≠ .error (.blockOutOfRange b) := by
    intro gdp hgdp _ h
    unfold readBlock at h
    rw [if_neg (Nat.not_le.mpr (hblocks gdp hgdp))] at h
    cases h
  refine (free_allocations_exact_of_aligned hbitmaps _).imp_right fun hexact => ?_
  refine hexact fun run hrun => ?_
  simp only [sharedRuns, mem_cons, not_mem_nil, or_false] at hrun
  obtain rfl | rfl | rfl := hrun
  · exact ⟨by decide, fun _ _ => .inl (by decide)⟩
  · exact ⟨by decide, fun _ _ => .inr (by decide)⟩
  · exact ⟨by decide, nofun⟩

/-- The five blocks of an extent whose first block is the last of its cluster. The last four are one
    cluster of the file and of the device, but the last one of them is four blocks into the run. -/
theorem extent_inside_cluster_rejected : ¬OverlapsRejected fourBlockClusters zeroDevice
    (new (Bytes.zeros 1024)) 12 [⟨3, 5, .data 0⟩] := by
  intro h
  have hrun : freeAllocations fourBlockClusters zeroDevice 12 [⟨3, 5, .data 0⟩]
      (new (Bytes.zeros 1024)) =
        .error (.bigallocClusterOverlap 12 1 4 7) (new (Bytes.zeros 1024)) := by
    rfl
  have hno : ¬Clash (logicalSlot fourBlockClusters) (runBlocks [⟨3, 5, .data 0⟩]) := by
    unfold Clash
    decide
  exact hno (h.mp ⟨1, 4, 7, _, hrun⟩)

end Fsmnt.FsExt
