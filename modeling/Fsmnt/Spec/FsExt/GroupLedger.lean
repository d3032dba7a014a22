import Fsmnt.Spec.FsExt.FreePlan
import Fsmnt.Spec.FsExt.GroupContent

/-!
# Counters and tallies

The mutator changes the bits of a bitmap at once, and the counter in the group's descriptor when it
is finalized: until then a tally holds the difference. The two meet if a group that is lazily
initialised gets its bitmap before the first tally.
-/

namespace Fsmnt.FsExt

open EStateM Function Mutator Std TreeMap

variable (ext : Ext) (fs : FsReader)

variable {bitmap : Bytes} {u : Unit} {changed inode : Nat} {alloc : Bool} {m m' : Mutator}

/-! ### The ledger -/

/-- The tally of a group. -/
def Mutator.tally (m : Mutator) (group : Nat) : GroupTally := m.groupTallies[group]?.getD {}

/-- If the counters of a group were right below the mutator, they are right up to the tally. A group
    that is still to be initialised has no tally. -/
structure Ledger (group : Nat) (gdp : GroupDescriptor) (m : Mutator) : Prop where
  placed : Placed ext m
  blocks : BlocksCounted ext (rawContent ext fs) group gdp →
    BlockUninit (groupDesc ext (m.content ext fs) group) ∨
      freeBlocksCount ext (groupDesc ext (m.content ext fs) group) + (m.tally group).clustersFreed =
        (clearUnits (m.content ext fs gdp.blockBitmap) (allocationUnitsInGroup ext group)).card +
          (m.tally group).clustersAllocated
  fresh : ¬GroupReady group gdp m →
    (m.tally group).clustersFreed = 0 ∧ (m.tally group).clustersAllocated = 0
  inodes : InodesCounted ext (rawContent ext fs) group gdp →
    freeInodesCount ext (groupDesc ext (m.content ext fs) group) + (m.tally group).inodesFreed =
      (clearUnits (m.content ext fs gdp.inodeBitmap) ext.inodesPerGroup).card

section Ledger

variable {ext fs} {group block h a : Nat} {gdp : GroupDescriptor} {m m' : Mutator}

/-- What the ledger of a group is about. -/
theorem Ledger.congr (h : Ledger ext fs group gdp m) (hplaced : Placed ext m')
    (hdesc : groupDesc ext (m'.content ext fs) group = groupDesc ext (m.content ext fs) group)
    (hblocks : m'.content ext fs gdp.blockBitmap = m.content ext fs gdp.blockBitmap)
    (hinodes : m'.content ext fs gdp.inodeBitmap = m.content ext fs gdp.inodeBitmap)
    (htally : m'.tally group = m.tally group)
    (hready : GroupReady group gdp m → GroupReady group gdp m') : Ledger ext fs group gdp m' where
  placed := hplaced
  blocks hraw := by
    rw [hdesc, hblocks, htally]
    exact h.blocks hraw
  fresh hnot := by
    rw [htally]
    exact h.fresh fun hm => hnot (hready hm)
  inodes hraw := by
    rw [hdesc, hinodes, htally]
    exact h.inodes hraw

theorem GroupReady.congr (hinit : m'.initializedBlockGroups = m.initializedBlockGroups)
    (h : GroupReady group gdp m) : GroupReady group gdp m' := by
  unfold GroupReady
  rwa [hinit]

theorem tally_congr (h : m'.groupTallies = m.groupTallies) (g : Nat) : m'.tally g = m.tally g := by
  unfold tally
  rw [h]

theorem Ledger.of_content (h : Ledger ext fs group gdp m) (hplaced : Placed ext m')
    (hcontent : m'.content ext fs = m.content ext fs) (hbooks : SameBooks m m') :
    Ledger ext fs group gdp m' :=
  h.congr hplaced (by rw [hcontent]) (by rw [hcontent]) (by rw [hcontent])
    (tally_congr hbooks.1 group) (.congr hbooks.2)

theorem ledger_new (host : Bytes) : Ledger ext fs group gdp (new host) := by
  have hcontent : (new host).content ext fs = rawContent ext fs :=
    funext fun b => content_of_none (by exact getElem?_emptyc)
  have htally : (new host).tally group = {} := by
    show ((∅ : TreeMap Nat GroupTally)[group]?).getD {} = {}
    rfl
  have hempty : ∀ (b : Nat) (s : ScratchBlock), (new host).blocks[b]? ≠ some s := by
    intro b s hs
    cases hs
  refine ⟨⟨fun b s hs => absurd hs (hempty b s), fun b s hs => absurd hs (hempty b s),
    fun g hg => ?_⟩, fun hraw => ?_, fun _ => ?_, fun hraw => ?_⟩
  · exact absurd hg not_mem_emptyc
  · rw [hcontent, htally]
    refine hraw.imp_right fun heq => ?_
    rw [heq]
  · rw [htally]
    exact ⟨rfl, rfl⟩
  · rw [hcontent, htally]
    rw [Nat.add_zero, hraw]

/-- The tally of one group is set. -/
structure Tallied (group : Nat) (tally : GroupTally) (m m' : Mutator) : Prop where
  tally : ∀ g, m'.tally g = if g = group then tally else m.tally g
  mem : ∀ g ∈ m'.groupTallies, g = group ∨ g ∈ m.groupTallies

theorem Tallied.same (h : m'.groupTallies = m.groupTallies) (group : Nat) :
    Tallied group (m.tally group) m m' := by
  refine ⟨fun g => ?_, fun g hg => .inr (h ▸ hg)⟩
  rw [tally_congr h]
  split
  · rename_i heq
    rw [heq]
  · rfl

theorem Tallied.insert {tally : GroupTally}
    (h : m'.groupTallies = m.groupTallies.insert group tally) : Tallied group tally m m' := by
  refine ⟨fun g => ?_, fun g hg => ?_⟩
  · unfold Mutator.tally
    rw [h, getElem?_insert]
    by_cases hg : g = group
    · rw [if_pos (by simp [hg]), if_pos hg]
      rfl
    · rw [if_neg (by simpa using Ne.symm hg), if_neg hg]
  · rw [h] at hg
    exact (mem_insert.mp hg).imp_left fun heq => (Nat.compare_eq_eq.mp heq).symm

/-- A tally with units that changed hands. -/
def GroupTally.units (tally : GroupTally) (changed : Nat) (alloc : Bool) : GroupTally :=
  { tally with
    clustersFreed := tally.clustersFreed + if alloc then 0 else changed
    clustersAllocated := tally.clustersAllocated + if alloc then changed else 0 }

section Tallies

variable {t : Mutator} (hsame : t.groupTallies = m.groupTallies)

include hsame

theorem tallied_tallyUnits
    (h : m'.groupTallies = (tallyUnits group changed alloc t).groupTallies) :
    Tallied group ((m.tally group).units changed alloc) m m' := by
  unfold tallyUnits at h
  split at h
  · rename_i hzero
    subst hzero
    have hnone : (m.tally group).units 0 alloc = m.tally group := by simp [GroupTally.units]
    rw [hnone]
    exact .same (h.trans hsame) group
  · dsimp only at h
    rw [hsame] at h
    refine .insert (h.trans ?_)
    cases alloc <;> rfl

theorem tallied_tallyInode {wasDir : Bool}
    (h : m'.groupTallies = (tallyInode group changed wasDir t).groupTallies) :
    ∃ tally, Tallied group tally m m' ∧ tally.clustersFreed = (m.tally group).clustersFreed ∧
      tally.clustersAllocated = (m.tally group).clustersAllocated ∧
      tally.inodesFreed = if changed = 0 then (m.tally group).inodesFreed
        else satAdd32 (m.tally group).inodesFreed 1 := by
  unfold tallyInode at h
  split at h
  · rename_i hzero
    exact ⟨_, .same (h.trans hsame) group, rfl, rfl, (if_pos hzero).symm⟩
  · rename_i hpos
    dsimp only at h
    rw [hsame] at h
    refine ⟨_, .insert h, ?_⟩
    rw [if_neg hpos]
    cases wasDir <;> exact ⟨rfl, rfl, rfl⟩

end Tallies

/-- Scratch blocks that are placed stay so when a group that exists is tallied. -/
theorem Placed.of_tallied {t : Mutator} {tally : GroupTally} {d : GroupDescriptor}
    (ht : Placed ext t) (hblocks : m'.blocks = t.blocks) (hm : Placed ext m)
    (htally : Tallied h tally m m') (hd : ext.groupDescs[h]? = some d) : Placed ext m' where
  sized b s hs := ht.sized b s (hblocks ▸ hs)
  cls b s hs := ht.cls b s (hblocks ▸ hs)
  tallied g hg := by
    obtain rfl | hg := htally.mem g hg
    · exact ⟨d, hd⟩
    · exact hm.tallied g hg

theorem clamp32_of_lt (h : a < 2 ^ 32) : clamp32 a = a :=
  Nat.min_eq_left (Nat.le_pred_of_lt h)

theorem satAdd32_of_lt {b : Nat} (h : a + b < 2 ^ 32) : satAdd32 a b = a + b :=
  Nat.min_eq_left (Nat.le_pred_of_lt h)

section Bits

variable {bit n : Nat} {bitmap' : Bytes}

/-- `clear_inode_bitmap_bit` and `free_allocations` clear a bit as `mark_bitmap_bits` does. -/
theorem markBitmapBits_of_clearBit (h : clearBit bit bitmap = .ok n bitmap') :
    markBitmapBits false bit 1 bitmap = .ok n bitmap' := by
  unfold clearBit at h
  rw [get_bind_run] at h
  rw [markBitmapBits, get_bind_run]
  split at h
  · cases h
  rename_i hin
  rw [if_neg hin]
  split at h
  · rename_i hset
    cases h
    rw [if_neg (by simp [hset])]
    rfl
  rename_i hclear
  cases h
  rw [if_pos (by simpa using hclear)]
  rfl

theorem clearBit_le_one (h : clearBit bit bitmap = .ok n bitmap') :
    n ≤ 1 := by
  unfold clearBit at h
  rw [get_bind_run] at h
  split at h
  · cases h
  split at h
  · cases h
    exact Nat.le_refl 1
  · cases h
    exact Nat.zero_le 1

end Bits

variable (hlayout : DistinctBlocks ext) (hgdp : ext.groupDescs[group]? = some gdp)

section Steps

variable {d : GroupDescriptor} (hd : ext.groupDescs[h]? = some d)
  (hl : Ledger ext fs group gdp m) (hplaced : Placed ext m')

include hlayout hgdp hd hl hplaced

/-- A lazily initialised group gets its bitmap and its counter. -/
theorem Ledger.init (hready : ¬GroupReady h d m)
    (hbitmap : (clearUnits bitmap (allocationUnitsInGroup ext h)).card =
      freeClustersAfterInit ext h d) (hfits : CountFits ext (freeClustersAfterInit ext h d))
    (hlen : (m.content ext fs (descBlock ext h)).length = ext.blockSize)
    (hcontent : m'.content ext fs = update (update (m.content ext fs) d.blockBitmap bitmap)
      (descBlock ext h) ((m.content ext fs (descBlock ext h)).splice
        (h % ext.gdtLayout.descPerBlock * ext.descSize)
        (initDescriptor ext h d (groupDesc ext (m.content ext fs) h))))
    (htally : m'.groupTallies = m.groupTallies)
    (hinit : m'.initializedBlockGroups = m.initializedBlockGroups.insert h) :
    Ledger ext fs group gdp m' := by
  have hdesclen : (groupDesc ext (m.content ext fs) h).length = ext.descSize :=
    length_descSlot hlen (Nat.mod_lt h (descPerBlock_pos ext))
  obtain ⟨hlen', hflag, hcount, hinodes⟩ := initDescriptor_spec hdesclen h d hfits
  obtain ⟨hdb, hdi⟩ := hlayout.descriptors hd hgdp
  have hapart : update (m.content ext fs) d.blockBitmap bitmap (descBlock ext h) =
      m.content ext fs (descBlock ext h) :=
    update_of_ne (hlayout.descriptors hd hd).1 _ _
  have hdesc : groupDesc ext (m'.content ext fs) group =
      if group = h then initDescriptor ext h d (groupDesc ext (m.content ext fs) h)
      else groupDesc ext (m.content ext fs) group := by
    rw [hcontent, ← hapart, groupDesc_update (by rw [hapart, hlen]) hlen' (hlayout.table hgdp hd)]
    split
    · rfl
    · exact groupDesc_congr (update_of_ne (hlayout.descriptors hgdp hd).1 _ _)
  have hinodeBitmap : m'.content ext fs gdp.inodeBitmap = m.content ext fs gdp.inodeBitmap := by
    rw [hcontent, update_of_ne (Ne.symm hdi), update_of_ne (Ne.symm (hlayout.bitmaps hd hgdp))]
  have htally' := tally_congr htally group
  by_cases hg : group = h
  · subst hg
    cases hgdp.symm.trans hd
    rw [if_pos rfl] at hdesc
    obtain ⟨hfreed, halloc⟩ := hl.fresh hready
    have hdone : GroupReady group gdp m' := .inr (by rw [hinit]; simp)
    refine ⟨hplaced, fun _ => .inr ?_, fun hnot => absurd hdone hnot, fun hraw => ?_⟩
    · rw [hdesc, htally', hfreed, halloc, hcount, hcontent, update_of_ne (Ne.symm hdb),
        update_self, hbitmap]
    · rw [hdesc, htally', hinodes, hinodeBitmap]
      exact hl.inodes hraw
  · rw [if_neg hg] at hdesc
    refine hl.congr hplaced hdesc ?_ hinodeBitmap htally' fun hm => hm.imp_right fun hmem => ?_
    · rw [hcontent, update_of_ne (Ne.symm hdb),
        update_of_ne fun heq => hg (hlayout.blockBitmap hgdp hd heq)]
    · rw [hinit, TreeSet.contains_insert, hmem, Bool.or_true]

/-- Units of a group that is ready are marked and tallied. -/
theorem Ledger.mark (hready : GroupReady h d m) {bitStart count : Nat}
    (hrange : bitStart + count ≤ allocationUnitsInGroup ext h)
    (hmark : markBitmapBits alloc bitStart count (m.content ext fs d.blockBitmap) =
      .ok changed bitmap)
    (hcontent : m'.content ext fs = update (m.content ext fs) d.blockBitmap bitmap)
    (htally : Tallied h ((m.tally h).units changed alloc) m m')
    (hinit : m'.initializedBlockGroups = m.initializedBlockGroups) :
    Ledger ext fs group gdp m' := by
  have hdesc : groupDesc ext (m'.content ext fs) group =
    groupDesc ext (m.content ext fs) group := by
    rw [hcontent]
    exact groupDesc_congr (update_of_ne (hlayout.descriptors hgdp hd).1 _ _)
  have hinodeBitmap : m'.content ext fs gdp.inodeBitmap = m.content ext fs gdp.inodeBitmap := by
    rw [hcontent, update_of_ne (Ne.symm (hlayout.bitmaps hd hgdp))]
  have htally' := htally.tally group
  by_cases hg : group = h
  · subst hg
    cases hgdp.symm.trans hd
    rw [if_pos rfl] at htally'
    refine ⟨hplaced, fun hraw => ?_, fun hnot => absurd (hready.congr hinit) hnot, fun hraw => ?_⟩
    · have hcard := card_clearUnits_markBitmapBits hrange hmark
      rw [hdesc, htally', hcontent, update_self]
      refine (hl.blocks hraw).imp_right fun heq => ?_
      cases alloc with
      | true =>
        simp only [GroupTally.units, if_true] at hcard ⊢
        omega
      | false =>
        simp only [GroupTally.units, Bool.false_eq_true, if_false] at hcard ⊢
        omega
    · rw [hdesc, htally', hinodeBitmap]
      exact hl.inodes hraw
  · rw [if_neg hg] at htally'
    refine hl.congr hplaced hdesc ?_ hinodeBitmap htally' (.congr hinit)
    rw [hcontent, update_of_ne fun heq => hg (hlayout.blockBitmap hgdp hd heq)]

/-- The inode of a bit that is cleared is tallied. -/
theorem Ledger.clearInode {bit : Nat} {tally : GroupTally}
    (hinodes : ext.inodesPerGroup < 2 ^ 32) (hbit : bit < ext.inodesPerGroup)
    (hclear : clearBit bit (m.content ext fs d.inodeBitmap) = .ok changed bitmap)
    (hcontent : m'.content ext fs = update (m.content ext fs) d.inodeBitmap bitmap)
    (htally : Tallied h tally m m') (hfreed : tally.clustersFreed = (m.tally h).clustersFreed)
    (halloc : tally.clustersAllocated = (m.tally h).clustersAllocated)
    (hcount : tally.inodesFreed = if changed = 0 then (m.tally h).inodesFreed
      else satAdd32 (m.tally h).inodesFreed 1)
    (hinit : m'.initializedBlockGroups = m.initializedBlockGroups) :
    Ledger ext fs group gdp m' := by
  have hdesc : groupDesc ext (m'.content ext fs) group =
    groupDesc ext (m.content ext fs) group := by
    rw [hcontent]
    exact groupDesc_congr (update_of_ne (hlayout.descriptors hgdp hd).2 _ _)
  have hblockBitmap : m'.content ext fs gdp.blockBitmap = m.content ext fs gdp.blockBitmap := by
    rw [hcontent, update_of_ne (hlayout.bitmaps hgdp hd)]
  have htally' := htally.tally group
  by_cases hg : group = h
  · subst hg
    cases hgdp.symm.trans hd
    rw [if_pos rfl] at htally'
    have hcard := card_clearUnits_markBitmapBits (show bit + 1 ≤ ext.inodesPerGroup from hbit)
      (markBitmapBits_of_clearBit hclear)
    have hle := card_clearUnits_le bitmap ext.inodesPerGroup
    simp only [Bool.false_eq_true, if_false] at hcard
    have hone := clearBit_le_one hclear
    refine ⟨hplaced, fun hraw => ?_, fun hnot => ?_, fun hraw => ?_⟩
    · rw [hdesc, hblockBitmap, htally', hfreed, halloc]
      exact hl.blocks hraw
    · rw [htally', hfreed, halloc]
      exact hl.fresh fun hm => hnot (hm.congr hinit)
    · have heq := hl.inodes hraw
      rw [hdesc, htally', hcount, hcontent, update_self]
      split
      · omega
      · rw [satAdd32_of_lt (by omega)]
        omega
  · rw [if_neg hg] at htally'
    refine hl.congr hplaced hdesc hblockBitmap ?_ htally' (.congr hinit)
    rw [hcontent, update_of_ne fun heq => hg (hlayout.inodeBitmap hgdp hd heq)]

end Steps

/-! ### Calls -/

/-- Seeding a block changes no content. -/
theorem ledger_seed {cls : BlockClass} (hfits : ClassFits ext block cls) :
    Preserves (Ledger ext fs group gdp) (seedBlock ext fs block cls) := by
  intro m u m' hl hrun
  obtain ⟨hcontent, hbooks⟩ := seedBlock_content hrun
  exact hl.of_content (placed_seedBlock hfits m u m' hl.placed hrun) hcontent hbooks

variable (hunits : ∀ g, CountFits ext (allocationUnitsInGroup ext g))

section Calls

include hlayout hgdp

/-- Marking units of a group that is ready: the bitmap, then the tally. -/
theorem Ledger.markUnits (hl : Ledger ext fs group gdp m) {d : GroupDescriptor}
    (hd : ext.groupDescs[h]? = some d) (hready : GroupReady h d m) {bitStart count : Nat}
    (hrange : bitStart + count ≤ allocationUnitsInGroup ext h) {event : MutatorEvent}
    {f : EStateM MutatorError Bytes Nat} (hlen : ∀ bitmap, (f bitmap).state.length = bitmap.length)
    (hf : ∀ bitmap n bitmap', f bitmap = .ok n bitmap' → markBitmapBits alloc bitStart count bitmap
      = .ok n bitmap') {t t' : Mutator} {n : Nat}
    (hseed : seedBlock ext fs d.blockBitmap (.blockBitmap h) m = .ok u t)
    (hmark : onBitmap d.blockBitmap event f t = .ok n t') (hblocks : m'.blocks = t'.blocks)
    (htally : m'.groupTallies = (tallyUnits h n alloc t').groupTallies)
    (hinit : m'.initializedBlockGroups = t'.initializedBlockGroups) :
    Ledger ext fs group gdp m' := by
  obtain ⟨hplaced, hbooks, bitmap, hbits, hcontent⟩ := seed_onBitmap
    (show ClassFits ext d.blockBitmap (.blockBitmap h) from ⟨d, hd, rfl⟩) hlen hl.placed hseed hmark
  have hsame : m'.content ext fs = t'.content ext fs :=
    funext fun b => content_congr (by rw [hblocks])
  have htally' := tallied_tallyUnits hbooks.1 htally
  exact hl.mark hlayout hgdp hd (hplaced.of_tallied hblocks hl.placed htally' hd) hready hrange
    (hf _ _ _ hbits) (hsame.trans hcontent) htally' (hinit.trans hbooks.2)

/-- A cluster that is freed is booked once, if its bit was set. -/
theorem ledger_freeCluster {cluster : Nat} (hblock : block < ext.blocksCount)
    (hcluster : cluster = (block - ext.firstDataBlock) / ext.blocksPerCluster)
    (hl : Ledger ext fs group gdp m)
    (hready : ∀ d, ext.groupDescs[(block - ext.firstDataBlock) / ext.blocksPerGroup]? = some d →
      GroupReady ((block - ext.firstDataBlock) / ext.blocksPerGroup) d m)
    (hrun : freeCluster ext fs inode cluster block m = .ok u m') :
    Ledger ext fs group gdp m' ∧ m'.initializedBlockGroups = m.initializedBlockGroups := by
  unfold freeCluster at hrun
  split at hrun
  · cases hrun
  dsimp only at hrun
  split at hrun
  · cases hrun
  cases hd : ext.groupDescs[(block - ext.firstDataBlock) / ext.blocksPerGroup]? with
  | none =>
    rw [hd] at hrun
    cases hrun
  | some d =>
    rw [hd] at hrun
    obtain ⟨_, t, hseed, hrun⟩ := bind_eq_ok_iff.mp hrun
    split at hrun
    · cases hrun
    obtain ⟨n, t', hmark, hrun⟩ := bind_eq_ok_iff.mp hrun
    rw [modify_eq_ok_iff] at hrun
    obtain ⟨hblocks, hinit⟩ : m'.blocks = t'.blocks ∧
        m'.initializedBlockGroups = t'.initializedBlockGroups := by
      rw [← hrun]
      unfold tallyCluster tallyUnits
      split
      · exact ⟨rfl, rfl⟩
      · split <;> exact ⟨rfl, rfl⟩
    have hpos := ext.blocksPerCluster_pos
    -- the bit of the cluster lies inside its group
    have hstart : (block - ext.firstDataBlock) / ext.blocksPerGroup * ext.blocksPerGroup /
        ext.blocksPerCluster =
        (block - ext.firstDataBlock) / ext.blocksPerGroup * ext.clustersPerGroup := by
      rw [← ext.blocksPerGroup_eq, ← Nat.mul_assoc, Nat.mul_div_cancel _ hpos]
    have hgroup : (block - ext.firstDataBlock) / ext.blocksPerGroup =
        cluster / ext.clustersPerGroup := by
      rw [hcluster, Nat.div_div_eq_div_mul, Nat.mul_comm ext.blocksPerCluster,
        ext.blocksPerGroup_eq]
    have hrange : cluster - (block - ext.firstDataBlock) / ext.blocksPerGroup *
        ext.blocksPerGroup / ext.blocksPerCluster + 1 ≤ allocationUnitsInGroup ext
          ((block - ext.firstDataBlock) / ext.blocksPerGroup) := by
      have hend : cluster < cluster / ext.clustersPerGroup * ext.clustersPerGroup +
          ext.clustersPerGroup := Nat.lt_div_mul_add ext.clustersPerGroup_pos
      have hle := Nat.div_mul_le_self cluster ext.clustersPerGroup
      have htotal : cluster < divCeil (ext.blocksCount - ext.firstDataBlock) ext.blocksPerCluster :=
        hcluster ▸ div_lt_divCeil (by omega) hpos
      rw [hstart, allocationUnitsInGroup_eq, hgroup]
      omega
    obtain ⟨-, -, hinit₁⟩ := seedBlock_content hseed
    obtain ⟨-, -, -, -, hinit₂⟩ := onBitmap_content ext fs hmark
    refine ⟨hl.markUnits hlayout hgdp hd (hready d hd) hrange (BlockInv.clearBit_length _)
      (fun _ _ _ => markBitmapBits_of_clearBit) hseed hmark hblocks ?_ hinit,
      hinit.trans (hinit₂.trans hinit₁)⟩
    rw [← hrun]
    unfold tallyCluster
    split
    · rename_i hzero
      rw [hzero]
      rfl
    · rfl

/-- Freeing an inode leaves the units of its group alone. -/
theorem ledger_clearInode (hinodes : ext.inodesPerGroup < 2 ^ 32) (inum : Nat) (wasDir : Bool) :
    Preserves (Ledger ext fs group gdp) (clearInodeBitmapBit ext fs inum wasDir) := by
  intro m u m' hl hrun
  unfold clearInodeBitmapBit at hrun
  split at hrun
  · cases hrun
  dsimp only at hrun
  cases hd : ext.groupDescs[groupOfInode ext inum]? with
  | none =>
    rw [hd] at hrun
    cases hrun
  | some d =>
    rw [hd] at hrun
    obtain ⟨_, t, hseed, hrun⟩ := bind_eq_ok_iff.mp hrun
    obtain ⟨n, t', hmark, hrun⟩ := bind_eq_ok_iff.mp hrun
    rw [modify_eq_ok_iff] at hrun
    obtain ⟨hplaced, hbooks, bitmap, hbits, hcontent⟩ := seed_onBitmap (show ClassFits ext
      d.inodeBitmap (.inodeBitmap (groupOfInode ext inum)) from ⟨d, hd, rfl⟩)
      (BlockInv.clearBit_length _) hl.placed hseed hmark
    obtain ⟨hblocks, hinit⟩ : m'.blocks = t'.blocks ∧
        m'.initializedBlockGroups = t'.initializedBlockGroups := by
      rw [← hrun]
      unfold tallyInode
      split <;> exact ⟨rfl, rfl⟩
    have hsame : m'.content ext fs = t'.content ext fs :=
      funext fun b => content_congr (by rw [hblocks])
    obtain ⟨tally, htally, hfreed, halloc, hcount⟩ := tallied_tallyInode hbooks.1
      (congrArg groupTallies hrun.symm)
    exact hl.clearInode hlayout hgdp hd (hplaced.of_tallied hblocks hl.placed htally hd) hinodes
      (Nat.mod_lt _ ext.inodesPerGroup_pos) hbits (hsame.trans hcontent) htally hfreed halloc hcount
      (hinit.trans hbooks.2)

include hunits

/-- The first use of a lazy group writes its bitmap and books nothing. -/
theorem ledger_ensure (h : Nat) :
    Preserves (Ledger ext fs group gdp) (ensureBlockGroupInitialized ext fs h) := by
  intro m u m' hl hrun
  cases hd : ext.groupDescs[h]? with
  | none =>
    unfold ensureBlockGroupInitialized at hrun
    rw [hd] at hrun
    cases hrun
  | some d =>
    by_cases hready : GroupReady h d m
    · rw [ensure_of_ready ext fs hd hready] at hrun
      cases hrun
      exact hl
    unfold ensureBlockGroupInitialized at hrun
    rw [hd] at hrun
    dsimp only at hrun
    rw [if_neg fun hflag => hready (.inl hflag), get_bind_run,
      if_neg fun hdone => hready (.inr hdone)] at hrun
    obtain ⟨_, t₁, hseed, hrun⟩ := bind_eq_ok_iff.mp hrun
    obtain ⟨n, t₂, hbitmap, hrun⟩ := bind_eq_ok_iff.mp hrun
    obtain ⟨_, t₃, hpatch, hrun⟩ := bind_eq_ok_iff.mp hrun
    rw [modify_eq_ok_iff] at hrun
    obtain ⟨hplaced, hbooks, bitmap, hbits, hcontent⟩ := seed_onBitmap (show ClassFits ext
      d.blockBitmap (.blockBitmap h) from ⟨d, hd, rfl⟩) (initialBitmap_length ext h d) hl.placed
      hseed hbitmap
    have hplaced' := placed_patchBlock (show ClassFits ext (groupDescSlot ext h).1
      (.groupDescriptor (h / ext.gdtLayout.descPerBlock)) from ⟨h, d, hd, rfl, rfl⟩)
      (keepsSize_slot (groupDescSlot_fits ext h) (length_initDescriptor ext h d)) t₂ _ t₃
      hplaced hpatch
    obtain ⟨content, hedit, hcontent₃, hbooks', hlen⟩ := patchBlock_content hpatch
    -- the bitmap is not in the block of the descriptor
    have hapart : t₂.content ext fs (descBlock ext h) = m.content ext fs (descBlock ext h) := by
      rw [hcontent, update_of_ne (hlayout.descriptors hd hd).1]
    have hslot : (groupDescSlot ext h).2 =
        (h % ext.gdtLayout.descPerBlock * ext.descSize, ext.descSize) := by
      rw [groupDescSlot_eq]
    have hcontent' : content = (m.content ext fs (descBlock ext h)).splice
        (h % ext.gdtLayout.descPerBlock * ext.descSize)
        (initDescriptor ext h d (groupDesc ext (m.content ext fs) h)) := by
      change Except.ok ((t₂.content ext fs (descBlock ext h)).splice
        (groupDescSlot ext h).2.1 (initDescriptor ext h d
          ((t₂.content ext fs (descBlock ext h)).slice (groupDescSlot ext h).2.1
            (groupDescSlot ext h).2.2))) = .ok content at hedit
      rw [hslot, hapart] at hedit
      injection hedit with hedit
      exact hedit.symm
    have hcard := card_clearUnits_initialBitmap hbits
    have hfits : CountFits ext (freeClustersAfterInit ext h d) :=
      (hunits h).mono (by rw [← hcard]; exact card_clearUnits_le _ _)
    have hlen' : (m.content ext fs (descBlock ext h)).length = ext.blockSize := by
      rw [← hapart]
      exact hlen hplaced.sized
    rw [← hrun]
    refine hl.init hlayout hgdp hd (hplaced'.of_blocks rfl rfl) hready hcard hfits hlen' ?_
      (hbooks'.1.trans hbooks.1) ?_
    · show t₃.content ext fs = _
      rw [hcontent₃, hcontent', hcontent]
      rfl
    · show t₃.initializedBlockGroups.insert h = _
      rw [hbooks'.2, hbooks.2]

theorem ledger_alloc : AllocInv ext fs (Ledger ext fs group gdp) where
  ensure := ledger_ensure hlayout hgdp hunits
  seed h d hd := ledger_seed ⟨d, hd, rfl⟩
  units h bitStart count pblk alloc hrange := by
    intro m c m' hl hrun
    unfold markGroupUnits at hrun
    cases hd : ext.groupDescs[h]? with
    | none =>
      rw [hd] at hrun
      cases hrun
    | some d =>
      rw [hd] at hrun
      obtain ⟨u, t₀, hensure, hrun⟩ := bind_eq_ok_iff.mp hrun
      obtain ⟨_, t, hseed, hrun⟩ := bind_eq_ok_iff.mp hrun
      obtain ⟨n, t', hmark, hrun⟩ := bind_eq_ok_iff.mp hrun
      obtain ⟨_, t'', htally, hrun⟩ := bind_eq_ok_iff.mp hrun
      rw [modify_eq_ok_iff] at htally
      cases hrun
      have hl₀ := ledger_ensure hlayout hgdp hunits h m u t₀ hl hensure
      rw [← htally]
      refine hl₀.markUnits hlayout hgdp hd (ensure_ready ext fs hd hensure) hrange
        (fun bitmap => (bitSet_markBitmapBits alloc bitStart count bitmap).1) (fun _ _ _ h => h)
        hseed hmark ?_ rfl ?_
      · unfold tallyUnits
        split <;> rfl
      · unfold tallyUnits
        split <;> rfl
  note m event hl := hl.of_content (hl.placed.of_blocks rfl rfl) rfl ⟨rfl, rfl⟩

end Calls

end Ledger

/-! ### Freed runs -/

section Plan

variable {ext}

/-- A block of the runs. -/
def InRuns (runs : List AllocationRun) (block : Nat) : Prop :=
  ∃ run ∈ runs, ∃ off < run.blockLen, block = run.physicalStart + off

/-- A cluster to free is that of a block of the runs. -/
def PlanFits (ext : Ext) (runs : List AllocationRun) (plan : ClusterPlan) : Prop :=
  ∀ cluster block, plan.clusters[cluster]? = some block →
    InRuns runs block ∧ block < ext.blocksCount ∧
      cluster = (block - ext.firstDataBlock) / ext.blocksPerCluster

theorem planFits_planClusters {runs : List AllocationRun} {plan : ClusterPlan}
    (h : planClusters ext inode runs = .ok plan) : PlanFits ext runs plan := by
  intro cluster block hget
  obtain ⟨b, hb, hin, rfl, hcluster⟩ := (owned_planClusters h).clusters cluster block hget
  obtain ⟨hrun, hoff⟩ := mem_runBlocks.mp hb
  exact ⟨⟨b.1, hrun, b.2, hoff, rfl⟩, hin.2.1, hcluster⟩

end Plan

/-! ### Runs -/

/-- The blocks that a call frees through `free_allocations` lie in groups that are initialised. -/
def MutatorOp.FreesReady (m : Mutator) : MutatorOp → Prop
  | .freeAllocations _ runs => ∀ block, InRuns runs block → ∀ d,
      ext.groupDescs[(block - ext.firstDataBlock) / ext.blocksPerGroup]? = some d →
      GroupReady ((block - ext.firstDataBlock) / ext.blocksPerGroup) d m
  | _ => True

/-- The calls that change bitmaps. -/
def MutatorOp.Allocates : MutatorOp → Prop
  | .clearInode _ _ | .freeAllocations _ _ | .mark _ _ _ | .allocate _ => True
  | _ => False

section Run

variable {ext fs} {group : Nat} {gdp : GroupDescriptor} (hlayout : DistinctBlocks ext)
  (hgdp : ext.groupDescs[group]? = some gdp)
  (hunits : ∀ g, CountFits ext (allocationUnitsInGroup ext g))
  (hinodes : ext.inodesPerGroup < 2 ^ 32)

include hlayout hgdp hunits hinodes

/-- One operation keeps the ledger. -/
theorem ledger_op {op : MutatorOp} (hop : op.Allocates) (hfrees : op.FreesReady ext m)
    (hl : Ledger ext fs group gdp m) (hrun : op.run ext fs m = .ok u m') :
    Ledger ext fs group gdp m' := by
  have halloc : AllocInv ext fs (Ledger ext fs group gdp) := ledger_alloc hlayout hgdp hunits
  cases op with
  | clearInode inum wasDir =>
    exact ledger_clearInode hlayout hgdp hinodes inum wasDir m u m' hl hrun
  | mark pblk len alloc =>
    exact ((halloc.markBlockRangeState pblk len alloc).bind fun _ => .pure _) m u m' hl hrun
  | allocate inum =>
    exact ((halloc.allocateMetadataBlock inum).bind fun _ => .pure _) m u m' hl hrun
  | freeAllocations inode runs =>
    have hI : Preserves (fun t => Ledger ext fs group gdp t ∧
        t.initializedBlockGroups = m.initializedBlockGroups)
          (freeAllocations ext fs inode runs) := by
      refine preserves_freeAllocations fun plan hplan cluster block hmem t _ t' ht hfree => ?_
      obtain ⟨hin, hlt, hcluster⟩ := planFits_planClusters hplan cluster block hmem
      obtain ⟨hl', hinit⟩ := ledger_freeCluster hlayout hgdp hlt hcluster ht.1
        (fun d hd => (hfrees block hin d hd).congr ht.2) hfree
      exact ⟨hl', hinit.trans ht.2⟩
    exact (hI m u m' ⟨hl, rfl⟩ hrun).1
  | _ => exact hop.elim

/-- So does every run that frees units of initialised groups only. -/
theorem ledger_runOps (ops : List MutatorOp) (hops : ∀ op ∈ ops, op.Allocates)
    (hfrees : ∀ pre op post t, ops = pre ++ op :: post → runOps ext fs pre m = .ok () t →
      op.FreesReady ext t) (hl : Ledger ext fs group gdp m)
        (hrun : runOps ext fs ops m = .ok u m') :
    Ledger ext fs group gdp m' := by
  induction ops generalizing m with
  | nil =>
    cases hrun
    exact hl
  | cons op rest ih =>
    obtain ⟨_, t, hop, hrest⟩ := bind_eq_ok_iff.mp hrun
    have hl' := ledger_op hlayout hgdp hunits hinodes (hops op List.mem_cons_self)
      (hfrees [] op rest m rfl rfl) hl hop
    refine ih (fun o ho => hops o (List.mem_cons_of_mem _ ho)) (fun pre o post t' heq hpre => ?_)
      hl' hrest
    exact hfrees (op :: pre) o post t' (by rw [heq]; rfl) (bind_eq_ok_iff.mpr ⟨_, t, hop, hpre⟩)

end Run

end Fsmnt.FsExt
