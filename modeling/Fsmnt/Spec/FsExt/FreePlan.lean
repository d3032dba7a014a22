import Fsmnt.ForStd.Except
import Fsmnt.Native.FsExt.MutatorFree

/-!
# The plan of `free_allocations`

The first pass of `free_allocations` goes over the blocks of all runs. It gives every physical
cluster with a data block to the logical cluster of that block, and stops at a block whose cluster
has another one.
-/

namespace Fsmnt.FsExt

open List Mutator Std TreeMap

/-- A block of a run: the run and the offset in it. -/
abbrev RunBlock := AllocationRun × Nat

/-- The blocks of the runs in order, each as its run and its offset in it. -/
def runBlocks (runs : List AllocationRun) : List RunBlock :=
  runs.flatMap fun run => (List.range run.blockLen).map (run, ·)

variable {runs : List AllocationRun} {b : RunBlock}

theorem mem_runBlocks :
    b ∈ runBlocks runs ↔ b.1 ∈ runs ∧ b.2 < b.1.blockLen := by
  obtain ⟨run, off⟩ := b
  simp only [runBlocks, mem_flatMap, mem_map, mem_range, Prod.mk.injEq]
  constructor
  · rintro ⟨_, hrun, _, hoff, rfl, rfl⟩
    exact ⟨hrun, hoff⟩
  · rintro ⟨hrun, hoff⟩
    exact ⟨run, hrun, off, hoff, rfl, rfl⟩

/-- The first pass is one loop over the blocks. -/
theorem planClusters_eq (ext : Ext) (inode : Nat) (runs : List AllocationRun) :
    planClusters ext inode runs = (runBlocks runs).foldlM
      (fun plan b => planBlock ext inode b.1 plan b.2) {} := by
  unfold planClusters runBlocks
  generalize ({} : ClusterPlan) = plan
  induction runs generalizing plan with
  | nil => rfl
  | cons run rest ih =>
    rw [flatMap_cons, foldlM_append, foldlM_map]
    exact bind_congr ih

/-- Two blocks in one physical cluster have different logical clusters. -/
def Clash (slot : RunBlock → Option (Nat × Nat)) (blocks : List RunBlock) : Prop :=
  ∃ s ∈ blocks, ∃ t ∈ blocks, ∃ p ∈ slot s, ∃ q ∈ slot t, p.1 = q.1 ∧ p.2 ≠ q.2

section Plan

variable (ext : Ext)

/-- The physical cluster of a data block with the logical cluster that `free_allocations` computes.
    -/
def plannedSlot (b : RunBlock) : Option (Nat × Nat) :=
  match b.1.kind with
  | .metadata => none
  | .data start =>
    some ((b.1.physicalStart + b.2 - ext.firstDataBlock) / ext.blocksPerCluster,
      start + b.2 / ext.blocksPerCluster)

/-- The block is one of the filesystem, and its number and its logical cluster are 64-bit numbers.
    -/
def Addressed (b : RunBlock) : Prop :=
  b.1.physicalStart + b.2 < 2 ^ 64 ∧ b.1.physicalStart + b.2 < ext.blocksCount ∧
    ext.firstDataBlock ≤ b.1.physicalStart + b.2 ∧ (plannedSlot ext b).elim 0 (·.2) < 2 ^ 64

instance : DecidablePred (Addressed ext) := fun _ => inferInstanceAs (Decidable (_ ∧ _))

variable {ext} {inode : Nat} {plan : ClusterPlan} {done : List RunBlock}

/-- Every data block of `done` has its cluster in the plan. -/
structure Owned (ext : Ext) (plan : ClusterPlan) (done : List RunBlock) : Prop where
  owner : ∀ s ∈ done, ∀ p ∈ plannedSlot ext s, ∃ block, plan.owners[p.1]? = some (p.2, block)
  claimed : ∀ c o, plan.owners[c]? = some o → ∃ s ∈ done, plannedSlot ext s = some (c, o.1)
  clusters : ∀ c block, plan.clusters[c]? = some block → ∃ b ∈ done, Addressed ext b ∧
    block = b.1.physicalStart + b.2 ∧ c = (block - ext.firstDataBlock) / ext.blocksPerCluster

theorem Owned.not_clash (h : Owned ext plan done) : ¬Clash (plannedSlot ext) done := by
  rintro ⟨s, hs, t, ht, p, hp, q, hq, hcluster, hne⟩
  obtain ⟨_, hp⟩ := h.owner s hs p hp
  obtain ⟨_, hq⟩ := h.owner t ht q hq
  rw [hcluster, hq] at hp
  exact hne (Prod.mk.inj (Option.some.inj hp)).1.symm

theorem owned_empty (ext : Ext) : Owned ext {} [] :=
  ⟨nofun, fun _ _ h => (nomatch getElem?_emptyc.symm.trans h),
    fun _ _ h => (nomatch getElem?_emptyc.symm.trans h)⟩

theorem Owned.snoc (h : Owned ext plan done) (hin : Addressed ext b)
    {owners : TreeMap Nat (Nat × Nat)}
    (hkeep : ∀ (c : Nat) o, plan.owners[c]? = some o → owners[c]? = some o)
    (hadd : ∀ p ∈ plannedSlot ext b, ∃ block, owners[p.1]? = some (p.2, block))
    (hfrom : ∀ (c : Nat) o, owners[c]? = some o →
      plan.owners[c]? = some o ∨ plannedSlot ext b = some (c, o.1)) : Owned ext
      { owners
        clusters := plan.clusters.insertIfNew
          ((b.1.physicalStart + b.2 - ext.firstDataBlock) / ext.blocksPerCluster)
          (b.1.physicalStart + b.2) } (done ++ [b]) := by
  constructor
  · intro s hs p hp
    rcases mem_append.mp hs with hs | hs
    · obtain ⟨block, hblock⟩ := h.owner s hs p hp
      exact ⟨block, hkeep _ _ hblock⟩
    · rw [mem_singleton.mp hs] at hp
      exact hadd p hp
  · intro c o ho
    rcases hfrom c o ho with hold | hnew
    · obtain ⟨s, hs, hslot⟩ := h.claimed c o hold
      exact ⟨s, mem_append_left _ hs, hslot⟩
    · exact ⟨b, mem_append_right _ (mem_singleton_self b), hnew⟩
  · intro c block hc
    rw [getElem?_insertIfNew] at hc
    split at hc
    · rename_i hnew
      cases hc
      exact ⟨b, mem_append_right _ (mem_singleton_self b), hin, rfl,
        (Nat.compare_eq_eq.mp hnew.1).symm⟩
    · obtain ⟨s, hs, hblock⟩ := h.clusters c block hc
      exact ⟨s, mem_append_left _ hs, hblock⟩

/-- A step adds its block to those that have their cluster, or the block clashes, or it is out of
    range. -/
theorem planBlock_spec (inode : Nat) (h : Owned ext plan done) (b : RunBlock) : (¬Addressed ext b ∧
      ∃ x, planBlock ext inode b.1 plan b.2 = .error (.ext (.blockOutOfRange x))) ∨
    (Addressed ext b ∧ Clash (plannedSlot ext) (done ++ [b]) ∧ ∃ c x y,
      planBlock ext inode b.1 plan b.2 = .error (.bigallocClusterOverlap inode c x y)) ∨
    (Addressed ext b ∧
      ∃ plan', planBlock ext inode b.1 plan b.2 = .ok plan' ∧ Owned ext plan' (done ++ [b])) := by
  unfold planBlock
  dsimp only
  split
  · rename_i hbig
    exact .inl ⟨fun hin => Nat.not_lt.mpr hbig hin.1, _, rfl⟩
  rename_i hbig
  split
  · rename_i hhigh
    exact .inl ⟨fun hin => Nat.not_lt.mpr hhigh hin.2.1, _, rfl⟩
  rename_i hhigh
  split
  · rename_i hlow
    exact .inl ⟨fun hin => Nat.not_le.mpr hlow hin.2.2.1, _, rfl⟩
  rename_i hlow
  have hin : (plannedSlot ext b).elim 0 (·.2) < 2 ^ 64 → Addressed ext b := fun hlogical =>
    ⟨Nat.lt_of_not_le hbig, Nat.lt_of_not_le hhigh, Nat.le_of_not_lt hlow, hlogical⟩
  cases hkind : b.1.kind with
  | metadata =>
    have hslot : plannedSlot ext b = none := by
      unfold plannedSlot
      rw [hkind]
    rw [hslot] at hin
    have hin' := hin (Nat.two_pow_pos 64)
    refine .inr (.inr ⟨hin', _, rfl, h.snoc hin' (fun _ _ ho => ho) ?_ fun _ _ ho => .inl ho⟩)
    rw [hslot]
    exact nofun
  | data start =>
    have hslot : plannedSlot ext b =
        some ((b.1.physicalStart + b.2 - ext.firstDataBlock) / ext.blocksPerCluster,
          start + b.2 / ext.blocksPerCluster) := by
      unfold plannedSlot
      rw [hkind]
    dsimp only
    split
    · rename_i hlogical
      refine .inl ⟨fun hin => Nat.not_lt.mpr hlogical ?_, _, rfl⟩
      have hlt := hin.2.2.2
      rwa [hslot] at hlt
    rename_i hlogical
    rw [hslot] at hin
    have hin' := hin (Nat.lt_of_not_le hlogical)
    split
    · rename_i existing block howner
      split
      · rename_i hne
        -- the owner of the cluster is a block of `done`
        obtain ⟨s, hs, hclaim⟩ := h.claimed _ _ howner
        exact .inr (.inl ⟨hin', ⟨s, mem_append_left _ hs, b,
          mem_append_right _ (mem_singleton_self b), _, hclaim, _, hslot, rfl, hne⟩,
          _, _, _, rfl⟩)
      · rename_i heq
        refine .inr (.inr ⟨hin', _, rfl, h.snoc hin' (fun _ _ ho => ho) (fun p hp => ?_)
          fun _ _ ho => .inl ho⟩)
        rw [hslot] at hp
        cases hp
        rw [← Decidable.not_not.mp heq]
        exact ⟨block, howner⟩
    · rename_i hnone
      refine .inr (.inr ⟨hin', _, rfl, h.snoc hin' (fun c o ho => ?_) (fun p hp => ?_)
        fun c o ho => ?_⟩)
      · rw [TreeMap.getElem?_insert]
        split
        · rename_i hc
          rw [Nat.compare_eq_eq.mp hc, ho] at hnone
          cases hnone
        · exact ho
      · rw [hslot] at hp
        cases hp
        exact ⟨_, getElem?_insert_self ..⟩
      · rw [TreeMap.getElem?_insert] at ho
        split at ho
        · rename_i hc
          cases ho
          rw [hslot, Nat.compare_eq_eq.mp hc]
          exact .inr rfl
        · exact .inl ho

/-- The first pass over what is left of the blocks. -/
theorem planBlocks_spec (inode : Nat) (blocks : List RunBlock) (h : Owned ext plan done) :
    ((∃ c x y, blocks.foldlM (fun plan b => planBlock ext inode b.1 plan b.2) plan =
        .error (.bigallocClusterOverlap inode c x y)) ↔
      Clash (plannedSlot ext) (done ++ blocks.takeWhile (Addressed ext ·))) ∧
    ∀ plan', blocks.foldlM (fun plan b => planBlock ext inode b.1 plan b.2) plan = .ok plan' →
      Owned ext plan' (done ++ blocks) := by
  -- the invariant is what the blocks that are done have left in the plan
  induction blocks generalizing plan done with
  | nil =>
    rw [takeWhile_nil, append_nil]
    refine ⟨⟨?_, fun hclash => absurd hclash h.not_clash⟩, ?_⟩
    · rintro ⟨c, x, y, hrun⟩
      cases hrun
    · intro plan' hrun
      cases hrun
      exact h
  | cons b rest ih =>
    rw [foldlM_cons, takeWhile_cons]
    rcases planBlock_spec inode h b with
      ⟨hin, x, hrun⟩ | ⟨hin, hclash, c, x, y, hrun⟩ | ⟨hin, next, hrun, hnext⟩
    · rw [hrun, decide_eq_false hin, if_neg Bool.false_ne_true, append_nil]
      exact ⟨⟨nofun, fun hclash => absurd hclash h.not_clash⟩, nofun⟩
    · rw [hrun, decide_eq_true hin]
      refine ⟨⟨fun _ => ?_, fun _ => ⟨c, x, y, rfl⟩⟩, nofun⟩
      obtain ⟨s, hs, t, ht, hne⟩ := hclash
      have hsub : done ++ [b] ⊆ done ++ b :: takeWhile (Addressed ext ·) rest := by simp
      exact ⟨s, hsub hs, t, hsub ht, hne⟩
    · rw [hrun, decide_eq_true hin]
      have hrest := ih hnext
      rwa [append_assoc, append_assoc] at hrest

/-- The plan of a first pass that succeeds. -/
theorem owned_planClusters (h : planClusters ext inode runs = .ok plan) :
    Owned ext plan (runBlocks runs) :=
  (planBlocks_spec inode (runBlocks runs) (owned_empty ext)).2 plan
    (planClusters_eq ext inode runs ▸ h)

end Plan

end Fsmnt.FsExt
