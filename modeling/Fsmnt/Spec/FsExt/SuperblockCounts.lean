import Mathlib.Algebra.BigOperators.Ring.Finset
import Fsmnt.Spec.FsExt.GroupCounts

/-!
# The free blocks counter of the superblock

`free_allocations` counts a cluster that it frees in the tally of its group and in a total, and
`finalize` adds the total to the counter of the superblock. The units that `mark_block_range_state`
and the allocator change are tallied only, so the superblock does not follow them.
-/

namespace Fsmnt.FsExt

open EStateM (Preserves)
open Bytes EStateM Finset Mutator

/-- `s_free_blocks_count` in the host block of the superblock. -/
def sbFreeBlocksCount (ext : Ext) (host : Bytes) : Nat :=
  let sbOff := if ext.blockSize > 1024 then 1024 else 0
  (if ext.is64bit then host.le32 (sbOff + 0x158) else 0) * 2 ^ 32 + host.le32 (sbOff + 0x0C)

/-- A call of a mutator method, `patch_superblock_bytes` included. -/
inductive MutatorCall where
  | method (op : MutatorOp)
  | patchSuperblock (f : BytePatch)

section

variable (ext : Ext) (fs : FsReader)

def MutatorCall.run : MutatorCall → MutatorM Unit
  | .method op => op.run ext fs
  | .patchSuperblock f => patchSuperblockBytes f.run

def runCalls : List MutatorCall → MutatorM Unit
  | [] => pure ()
  | call :: rest => do
    call.run ext fs
    runCalls rest

/-- The counter of the superblock changes by the units that the tallies of all groups free, less the
    units that they allocate. -/
def SuperblockCountsGroups [Crc] (host : Bytes) (calls : List MutatorCall) : Prop :=
  ∀ m delta, runCalls ext fs calls (new host) = .ok () m → m.finalize ext fs = .ok delta →
    (sbFreeBlocksCount ext (delta.sbHostOverride.getD host) : Int) - sbFreeBlocksCount ext host =
      ∑ g ∈ Finset.range ext.groupDescs.length,
        (((m.tally g).clustersFreed : Int) - (m.tally g).clustersAllocated)

/-- The calls of the orphan processing: no mark and no allocation, and a patch of the superblock
    leaves the counter alone. -/
def MutatorCall.OfOrphans : MutatorCall → Prop
  | .method (.mark _ _ _) | .method (.allocate _) => False
  | .method _ => True
  | .patchSuperblock f => ∀ host host', f.run host = .ok host' →
      sbFreeBlocksCount ext host' = sbFreeBlocksCount ext host

/-- The host block has a superblock, the calls are those of the orphan processing, and what they
    freed fits the low half of the counter. The carry of `apply_sb_tallies` goes to `0x150`, which
    is `s_blocks_count_hi`. -/
structure SuperblockConditions (host : Bytes) (calls : List MutatorCall) : Prop where
  superblock : (if ext.blockSize > 1024 then 1024 else 0) + 1024 ≤ host.length
  orphans : ∀ call ∈ calls, call.OfOrphans ext
  room : ∀ m, runCalls ext fs calls (new host) = .ok () m →
    sbFreeBlocksCount ext host % 2 ^ 32 + m.totalClustersFreed < 2 ^ 32

end

/-! ### Accounts -/

/-- The clusters that the tally of a group has freed and allocated. -/
def Mutator.clusters (m : Mutator) (g : Nat) : Nat × Nat :=
  ((m.tally g).clustersFreed, (m.tally g).clustersAllocated)

/-- The tallied clusters, the total and the superblock stay. -/
structure SameAccounts (m m' : Mutator) : Prop where
  clusters : m'.clusters = m.clusters
  total : m'.totalClustersFreed = m.totalClustersFreed
  host : m'.sbHostScratch = m.sbHostScratch

/-! ### Books of the orphan processing -/

/-- Nothing was allocated, the total is the sum of the tallies, and the superblock still counts what
    the host block counts. -/
structure OrphanBooks (ext : Ext) (host : Bytes) (m : Mutator) : Prop where
  length : m.sbHostScratch.length = host.length
  count : sbFreeBlocksCount ext m.sbHostScratch = sbFreeBlocksCount ext host
  freed : m.totalClustersFreed = ∑ g ∈ Finset.range ext.groupDescs.length, (m.clusters g).1
  allocated : ∀ g, (m.clusters g).2 = 0

section Books

variable {ext : Ext} {fs : FsReader} {host : Bytes} {m m' : Mutator} {n group : Nat}

theorem OrphanBooks.of_same (hsame : SameAccounts m m') (h : OrphanBooks ext host m) :
    OrphanBooks ext host m' := by
  constructor
  · rw [hsame.host, h.length]
  · rw [hsame.host, h.count]
  · rw [hsame.total, hsame.clusters, h.freed]
  · rw [hsame.clusters]
    exact h.allocated

theorem offBlocks_books : OffBlocks (OrphanBooks ext host) :=
  fun _ _ _ => OrphanBooks.of_same ⟨rfl, rfl, rfl⟩

/-- A cluster that is freed counts in the tally and in the total. -/
theorem OrphanBooks.tallyCluster (h : OrphanBooks ext host m) (hn : n ≤ 1)
    (hgroup : group < ext.groupDescs.length) :
    OrphanBooks ext host (tallyCluster group n m) := by
  unfold Mutator.tallyCluster
  split
  · exact h
  obtain rfl : n = 1 := by omega
  have hclusters : ∀ g, (tallyUnits group 1 false m).clusters g =
      ((m.clusters g).1 + if g = group then 1 else 0, (m.clusters g).2) := by
    intro g
    have htally : Tallied group ((m.tally group).units 1 false) m (tallyUnits group 1 false m) :=
      tallied_tallyUnits rfl rfl
    unfold clusters
    rw [htally.tally]
    split
    · rename_i heq
      rw [heq]
      rfl
    · rfl
  constructor
  · exact h.length
  · exact h.count
  · show m.totalClustersFreed + 1 = ∑ g ∈ range _, ((tallyUnits group 1 false m).clusters g).1
    simp only [hclusters, sum_add_distrib, sum_ite_eq', mem_range, hgroup, if_true, h.freed]
  · intro g
    show ((tallyUnits group 1 false m).clusters g).2 = 0
    rw [hclusters, h.allocated]

/-- An inode that is freed counts no clusters. -/
theorem sameAccounts_tallyInode (group n : Nat) (wasDir : Bool) (m : Mutator) :
    SameAccounts m (tallyInode group n wasDir m) := by
  obtain ⟨tally, htally, hfreed, halloc, -⟩ := tallied_tallyInode (t := m) rfl
    (congrArg groupTallies (Eq.refl (tallyInode group n wasDir m)))
  have hrest : (tallyInode group n wasDir m).totalClustersFreed = m.totalClustersFreed ∧
      (tallyInode group n wasDir m).sbHostScratch = m.sbHostScratch := by
    unfold tallyInode
    split <;> exact ⟨rfl, rfl⟩
  refine ⟨funext fun g => ?_, hrest.1, hrest.2⟩
  unfold clusters
  rw [htally.tally]
  split
  · rename_i heq
    rw [heq, hfreed, halloc]
  · rfl

theorem books_freeCluster (inode cluster block : Nat) :
    Preserves (OrphanBooks ext host) (freeCluster ext fs inode cluster block) := by
  unfold freeCluster
  split
  · exact .throw _
  dsimp only
  split
  · exact .throw _
  split
  · exact .throw _
  rename_i gdp hgdp
  refine (offBlocks_books.seedBlock _ _).bind fun _ => ?_
  split
  · exact .throw _
  intro m u m' hm hrun
  obtain ⟨n, t, hclear, hrun⟩ := bind_eq_ok_iff.mp hrun
  rw [modify_eq_ok_iff] at hrun
  rw [← hrun]
  obtain ⟨_, hbit, -⟩ := onBitmap_content ext fs hclear
  have ht : OrphanBooks ext host t := offBlocks_books.onBitmap _ _ _ m n t hm hclear
  exact ht.tallyCluster (clearBit_le_one hbit) (List.getElem?_eq_some_iff.mp hgdp).1

theorem books_clearInode (inum : Nat) (wasDir : Bool) :
    Preserves (OrphanBooks ext host) (clearInodeBitmapBit ext fs inum wasDir) := by
  unfold clearInodeBitmapBit
  split
  · exact .throw _
  dsimp only
  split
  · exact .throw _
  exact (offBlocks_books.seedBlock _ _).bind fun _ =>
    (offBlocks_books.onBitmap _ _ _).bind fun _ =>
      .modify fun m hm => hm.of_same (sameAccounts_tallyInode _ _ wasDir m)

/-- The calls of the orphan processing keep the books. -/
theorem books_call {call : MutatorCall} (hcall : call.OfOrphans ext) :
    Preserves (OrphanBooks ext host) (call.run ext fs) := by
  have hI : OffBlocks (OrphanBooks ext host) := offBlocks_books
  cases call with
  | patchSuperblock f =>
    refine .get_bind fun m u m' hm hrun => ?_
    cases hedit : f.run m.sbHostScratch with
    | error e =>
      rw [hedit] at hrun
      cases hrun
    | ok edited =>
      rw [hedit] at hrun
      cases hrun
      exact ⟨(f.length_run _ _ hedit).trans hm.length, (hcall _ _ hedit).trans hm.count,
        hm.freed, hm.allocated⟩
  | method op =>
    cases op with
    | patchInode inum f => exact hI.patchInode inum f.run
    | pruneInode inum => exact (hI.pruneInode inum).bind fun _ => .pure _
    | clearInode inum wasDir => exact books_clearInode inum wasDir
    | freeAllocations inode runs =>
      exact preserves_freeAllocations fun _ _ cluster block _ =>
        books_freeCluster inode cluster block
    | mark | allocate => exact hcall.elim
    | patchDirectory | writeDir =>
      dsimp only [MutatorCall.run, MutatorOp.run, patchDirectoryBlock, writeDirBlock]
      exact hI.patchBlock _ _ _
    | _ => exact hI.patchBlock _ _ _

theorem books_runCalls {calls : List MutatorCall} (hcalls : ∀ call ∈ calls, call.OfOrphans ext) :
    Preserves (OrphanBooks ext host) (runCalls ext fs calls) := by
  induction calls with
  | nil => exact .pure _
  | cons call rest ih =>
    exact (books_call (hcalls call List.mem_cons_self)).bind fun _ =>
      ih fun c hc => hcalls c (List.mem_cons_of_mem call hc)

/-! ### Finalizing -/

/-- The total goes into the low half of the counter. -/
theorem applySbTallies_spec (freed inodes : Nat)
    (hlen : (if ext.blockSize > 1024 then 1024 else 0) + 1024 ≤ host.length)
    (hroom : sbFreeBlocksCount ext host % 2 ^ 32 + freed < 2 ^ 32) :
    (applySbTallies ext host freed inodes).length = host.length ∧
      sbFreeBlocksCount ext (applySbTallies ext host freed inodes) =
        sbFreeBlocksCount ext host + freed := by
  unfold applySbTallies
  unfold sbFreeBlocksCount at hroom ⊢
  generalize (if ext.blockSize > 1024 then 1024 else 0) = sbOff at *
  have hblocks := le32_lt host (sbOff + 0x150)
  have hfree := le32_lt host (sbOff + 0x0C)
  have hsplice : ∀ {bs : Bytes} {off : Nat} (value : Nat), off + 4 ≤ bs.length →
      (bs.splice off (toLE 4 value)).length = bs.length := fun value h =>
    length_splice (by rwa [length_toLE])
  have hlow : ∀ value, (host.splice (sbOff + 0x0C) (toLE 4 value)).length = host.length :=
    fun value => hsplice value (by omega)
  cases h64 : ext.is64bit with
  | true =>
    have hhigh : ∀ value value', ((host.splice (sbOff + 0x0C) (toLE 4 value)).splice
        (sbOff + 0x150) (toLE 4 value')).length = host.length := fun value value' => by
      rw [hsplice value' (by rw [hlow]; omega), hlow]
    rw [h64] at hroom
    simp only [if_true] at hroom ⊢
    refine ⟨by rw [hsplice _ (by rw [hhigh]; omega), hhigh], ?_⟩
    -- both halves lie apart from the inode counter and from `0x150`
    have hapart : ∀ value value' value'' o, o = sbOff + 0x158 ∨ o = sbOff + 0x0C →
        (((host.splice (sbOff + 0x0C) (toLE 4 value)).splice (sbOff + 0x150)
          (toLE 4 value')).splice (sbOff + 0x10) (toLE 4 value'')).le32 o =
            (host.splice (sbOff + 0x0C) (toLE 4 value)).le32 o := by
      intro value value' value'' o ho
      rw [le32_splice_of_disjoint _ (by rw [hhigh]; omega) (by omega),
        le32_splice_of_disjoint _ (by rw [hlow]; omega) (by omega)]
    rw [Nat.min_eq_left (by omega), hapart _ _ _ _ (.inl rfl), hapart _ _ _ _ (.inr rfl),
      le32_splice_of_disjoint _ (by omega) (by omega), le32_splice_mod _ (by omega)]
    omega
  | false =>
    rw [h64] at hroom
    simp only [Bool.false_eq_true, if_false] at hroom ⊢
    refine ⟨by rw [hsplice _ (by rw [hlow]; omega), hlow], ?_⟩
    rw [Nat.min_eq_left (by omega), le32_splice_of_disjoint _ (by rw [hlow]; omega) (by omega),
      le32_splice_mod _ (by omega)]
    omega

/-- The superblock of the finalized overlay counts the total. -/
theorem finalizeSuperblock_count [Crc] (h : OrphanBooks ext host m)
    (hlen : (if ext.blockSize > 1024 then 1024 else 0) + 1024 ≤ host.length)
    (hroom : sbFreeBlocksCount ext host % 2 ^ 32 + m.totalClustersFreed < 2 ^ 32) :
    sbFreeBlocksCount ext ((finalizeSuperblock ext m).getD host) =
      sbFreeBlocksCount ext host + m.totalClustersFreed := by
  unfold finalizeSuperblock
  dsimp only
  generalize hscratch : (if m.totalClustersFreed > 0 ∨ m.totalInodesFreed > 0 then
      applySbTallies ext m.sbHostScratch m.totalClustersFreed m.totalInodesFreed
    else m.sbHostScratch) = scratch
  obtain ⟨hlength, hcount⟩ : scratch.length = host.length ∧
      sbFreeBlocksCount ext scratch = sbFreeBlocksCount ext host + m.totalClustersFreed := by
    rw [← hscratch]
    split
    · have hspec := applySbTallies_spec m.totalClustersFreed m.totalInodesFreed
        (by rw [h.length]; exact hlen) (by rw [h.count]; exact hroom)
      rwa [h.length, h.count] at hspec
    · exact ⟨h.length, by rw [h.count]; omega⟩
  split
  · split
    · -- the checksum lies behind the counter
      rw [← hcount, Option.getD_some]
      unfold sbFreeBlocksCount
      dsimp only
      generalize (if ext.blockSize > 1024 then 1024 else 0) = sbOff at *
      rw [le32_splice_of_disjoint _ (by omega) (by omega),
        le32_splice_of_disjoint _ (by omega) (by omega)]
    · exact hcount
  · rw [Option.getD_none]
    omega

end Books

section Main

variable [Crc]

/-- In every run of the orphan processing, the counters of the superblock and of the groups agree.
    -/
theorem superblock_counts_groups (ext : Ext) (fs : FsReader) (host : Bytes)
    (calls : List MutatorCall) (h : SuperblockConditions ext fs host calls) :
    SuperblockCountsGroups ext fs host calls := by
  intro m delta hrun hfinal
  have hnew : OrphanBooks ext host (new host) := by
    refine ⟨rfl, rfl, ?_, fun g => ?_⟩
    · exact (Finset.sum_eq_zero fun g _ => rfl).symm
    · rfl
  have hbooks : OrphanBooks ext host m := books_runCalls h.orphans _ () m hnew hrun
  unfold finalize at hfinal
  dsimp only at hfinal
  split at hfinal
  · cases hfinal
  rename_i m' hmaterialize
  cases hfinal
  have hI : OffBlocks fun t => OrphanBooks ext host t ∧ t.totalClustersFreed =
    m.totalClustersFreed :=
    fun t blocks log ht => ⟨offBlocks_books t blocks log ht.1, ht.2⟩
  obtain ⟨hbooks', htotal⟩ := hI.materializeTallies _ m () m' ⟨hbooks, rfl⟩ hmaterialize
  have hcount := finalizeSuperblock_count hbooks' h.superblock (htotal ▸ h.room m hrun)
  have hsum : ∑ g ∈ Finset.range ext.groupDescs.length,
      (((m.tally g).clustersFreed : Int) - (m.tally g).clustersAllocated) =
      (m.totalClustersFreed : Int) := by
    rw [hbooks.freed, Nat.cast_sum]
    refine Finset.sum_congr rfl fun g _ => ?_
    rw [show (m.tally g).clustersAllocated = 0 from hbooks.allocated g]
    exact Int.sub_zero _
  rw [hsum, hcount, htotal]
  omega

end Main

section

attribute [local instance] Crc.standard

/-- The change of the superblock's counter in a run, the change that the tallies make, and the
    total. -/
def countsAfter (ext : Ext) (fs : FsReader) (host : Bytes) (calls : List MutatorCall) :
    Option (Int × Int × Nat) :=
  match runCalls ext fs calls (new host) with
  | .error _ _ => none
  | .ok _ m =>
    match m.finalize ext fs with
    | .error _ => none
    | .ok delta => some
        ((sbFreeBlocksCount ext (delta.sbHostOverride.getD host) : Int) -
            sbFreeBlocksCount ext host,
          ∑ g ∈ Finset.range ext.groupDescs.length,
            (((m.tally g).clustersFreed : Int) - (m.tally g).clustersAllocated),
          m.totalClustersFreed)

/-- A mark of the fast commit replay takes a block from the group, and not from the superblock. -/
theorem superblock_misses_mark : ¬SuperblockCountsGroups (twoGroups 0) (countedDevice 8191 0)
    (zeros 1024) [.method (.mark 8200 1 true)] := by
  intro h
  have hafter : countsAfter (twoGroups 0) (countedDevice 8191 0) (zeros 1024)
      [.method (.mark 8200 1 true)] = some (0, -1, 0) := by decide +kernel
  unfold countsAfter at hafter
  split at hafter
  · cases hafter
  rename_i m hrun
  split at hafter
  · cases hafter
  rename_i delta hfinal
  obtain ⟨hsb, htally, -⟩ := by simpa only [Option.some.injEq, Prod.mk.injEq] using hafter
  have hcounts := h m delta hrun hfinal
  rw [hsb, htally] at hcounts
  exact absurd hcounts (by decide)

/-- The two groups with the 64-bit feature. -/
def wideGroups : Ext :=
  { twoGroups 0 with
    is64bit := true
    descSize := 64
    gdtLayout := { (twoGroups 0).gdtLayout with
      descSize := 64, descSize_ge := by decide, descSize_dvd := by decide }
    gdtLayout_descSize := rfl }

/-- A superblock that counts 2^32 + 100 free blocks. -/
def wideHost : Bytes := zeros 12 ++ toLE 4 100 ++ zeros 328 ++ toLE 4 1 ++ zeros 676

/-- Blocks of both groups are freed, and an inode of the second. -/
def freeInBoth : List MutatorCall := [
  .method (.freeAllocations 12 [⟨30, 3, .data 0⟩, ⟨8193, 2, .metadata⟩]),
  .method (.clearInode 65 false)]

theorem superblock_counts_both :
    countsAfter wideGroups twoGroupsDevice wideHost freeInBoth = some (5, 5, 5) ∧
      SuperblockCountsGroups wideGroups twoGroupsDevice wideHost freeInBoth := by
  have hafter : countsAfter wideGroups twoGroupsDevice wideHost freeInBoth = some (5, 5, 5) := by
    decide +kernel
  refine ⟨hafter, superblock_counts_groups _ _ _ _ ⟨by decide +kernel, ?_, fun m hrun => ?_⟩⟩
  · simp [freeInBoth, MutatorCall.OfOrphans]
  · unfold countsAfter at hafter
    rw [hrun] at hafter
    dsimp only at hafter
    split at hafter
    · cases hafter
    obtain ⟨-, -, htotal⟩ := by simpa only [Option.some.injEq, Prod.mk.injEq] using hafter
    rw [htotal]
    decide +kernel

end

end Fsmnt.FsExt
