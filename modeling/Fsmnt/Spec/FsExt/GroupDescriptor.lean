import Fsmnt.Spec.FsExt.MutatorRun

/-!
# Counters of a group descriptor

A counter is split into a low half that every descriptor has and a high half that the descriptors of
64 bytes have. The mutator writes counters, flags and checksums into the slot of one group; the
fields that it does not write stay, and so do the slots of the other groups.
-/

namespace Fsmnt.FsExt

open Bytes Mutator

variable {desc : Bytes} {ext : Ext} {lo hi i : Nat}

/-! ### Fields -/

/-- A counter is read from its two halves. -/
theorem readSplit_congr (ext : Ext) {desc' : Bytes} (hlo : desc'.le16 lo = desc.le16 lo)
    (hhi : desc'.le16 hi = desc.le16 hi) : readDescU32Split desc' lo (hiOffset ext hi) =
      readDescU32Split desc lo (hiOffset ext hi) := by
  unfold readDescU32Split hiOffset
  rw [hlo]
  split
  · dsimp only [Option.elim]
    rw [hhi]
  · rfl

/-- A value that a counter can hold. -/
def CountFits (ext : Ext) (value : Nat) : Prop :=
  value < 2 ^ 16 ∨ 64 ≤ ext.descSize ∧ value < 2 ^ 32

theorem CountFits.mono {a b : Nat} (h : CountFits ext b) (hab : a ≤ b) : CountFits ext a := by
  rcases h with h | ⟨hsize, h⟩
  · exact .inl (by omega)
  · exact .inr ⟨hsize, by omega⟩

/-- The bytes of a counter lie in the descriptor. -/
def SplitFits (ext : Ext) (desc : Bytes) (lo hi : Nat) : Prop :=
  lo + 2 ≤ hi ∧ lo + 2 ≤ desc.length ∧ (64 ≤ ext.descSize → hi + 2 ≤ desc.length)

section

variable (h : SplitFits ext desc lo hi) (value : Nat)

include h

theorem length_writeSplit :
    (writeDescU32Split desc lo (hiOffset ext hi) value).length = desc.length := by
  refine length_writeDescU32Split rfl h.2.1 fun off hoff => ?_
  unfold hiOffset at hoff
  split at hoff
  · cases hoff
    exact h.2.2 (by assumption)
  · cases hoff

/-- Another field of the descriptor stays. -/
theorem le16_writeSplit (off : Nat) (hlo : off + 2 ≤ lo ∨ lo + 2 ≤ off)
    (hhi : off + 2 ≤ hi ∨ hi + 2 ≤ off) :
    (writeDescU32Split desc lo (hiOffset ext hi) value).le16 off = desc.le16 off := by
  have hroom : lo + (toLE 2 value).length ≤ desc.length := by
    exact h.2.1
  have hfirst : (desc.splice lo (toLE 2 value)).le16 off = desc.le16 off :=
    le16_splice_of_disjoint hroom (by rwa [length_toLE])
  unfold writeDescU32Split hiOffset
  split
  · rename_i off' hoff
    split at hoff
    · cases hoff
      rw [le16_splice_of_disjoint (by
        rw [length_splice hroom]
        exact h.2.2 (by assumption)) (by rwa [length_toLE]), hfirst]
    · cases hoff
  · exact hfirst

/-- A counter that was written is read back. -/
theorem readSplit_writeSplit (hvalue : CountFits ext value) :
    readDescU32Split (writeDescU32Split desc lo (hiOffset ext hi) value) lo (hiOffset ext hi) =
      value := by
  have hroom : lo + (toLE 2 value).length ≤ desc.length := by
    exact h.2.1
  have hlow := le16_splice_self value h.2.1
  unfold writeDescU32Split readDescU32Split hiOffset
  unfold CountFits at hvalue
  split
  · rename_i hsize
    have hhigh : hi + 2 ≤ (desc.splice lo (toLE 2 value)).length := by
      rw [length_splice hroom]
      exact h.2.2 hsize
    dsimp only [Option.elim]
    rw [le16_splice_self _ hhigh, le16_splice_of_disjoint (by
      exact hhigh) (.inl h.1), hlow]
    omega
  · dsimp only [Option.elim]
    omega

/-- Another counter of the descriptor stays. -/
theorem readSplit_writeSplit_of_ne (lo' hi' : Nat) (hlo : lo' + 2 ≤ lo ∨ lo + 2 ≤ lo')
    (hlohi : lo' + 2 ≤ hi ∨ hi + 2 ≤ lo') (hhilo : hi' + 2 ≤ lo ∨ lo + 2 ≤ hi')
    (hhi : hi' + 2 ≤ hi ∨ hi + 2 ≤ hi') :
    readDescU32Split (writeDescU32Split desc lo (hiOffset ext hi) value) lo' (hiOffset ext hi') =
      readDescU32Split desc lo' (hiOffset ext hi') :=
  readSplit_congr ext (le16_writeSplit h value lo' hlo hlohi)
    (le16_writeSplit h value hi' hhilo hhi)

end

/-! ### Counters -/

/-- `bg_free_blocks_count`. -/
def freeBlocksCount (ext : Ext) (desc : Bytes) : Nat :=
  readDescU32Split desc 0x0C (hiOffset ext 0x2C)

/-- `bg_free_inodes_count`. -/
def freeInodesCount (ext : Ext) (desc : Bytes) : Nat :=
  readDescU32Split desc 0x0E (hiOffset ext 0x2E)

/-- The group is lazily initialised. -/
def BlockUninit (desc : Bytes) : Prop := desc.le16 0x12 &&& EXT4_BG_BLOCK_UNINIT ≠ 0

instance (desc : Bytes) : Decidable (BlockUninit desc) := inferInstanceAs (Decidable (_ ≠ _))

/-- The counters and the flags of two descriptors agree. -/
structure SameCounters (ext : Ext) (desc desc' : Bytes) : Prop where
  length : desc'.length = desc.length
  blocks : freeBlocksCount ext desc' = freeBlocksCount ext desc
  inodes : freeInodesCount ext desc' = freeInodesCount ext desc
  flags : desc'.le16 0x12 = desc.le16 0x12

theorem SameCounters.refl (ext : Ext) (desc : Bytes) : SameCounters ext desc desc :=
  ⟨rfl, rfl, rfl, rfl⟩

theorem SameCounters.trans {d₁ d₂ d₃ : Bytes} (h : SameCounters ext d₁ d₂)
    (h' : SameCounters ext d₂ d₃) : SameCounters ext d₁ d₃ :=
  ⟨h'.length.trans h.length, h'.blocks.trans h.blocks, h'.inodes.trans h.inodes,
    h'.flags.trans h.flags⟩

/-- The checksums lie apart from the counters and the flags. -/
theorem sameCounters_splice (ext : Ext) {src : Bytes} {off : Nat}
    (hfits : off + src.length ≤ desc.length)
    (hoff : 0x14 ≤ off ∧ off + src.length ≤ 0x2C ∨ 0x30 ≤ off) :
    SameCounters ext desc (desc.splice off src) := by
  have hfield : ∀ o, o + 2 ≤ 0x14 ∨ 0x2C ≤ o ∧ o + 2 ≤ 0x30 →
      (desc.splice off src).le16 o = desc.le16 o := fun o ho =>
    le16_splice_of_disjoint hfits (by omega)
  exact ⟨length_splice hfits, readSplit_congr _ (hfield _ (by omega)) (hfield _ (by omega)),
    readSplit_congr _ (hfield _ (by omega)) (hfield _ (by omega)), hfield _ (by omega)⟩

theorem descSize_ge (ext : Ext) : 32 ≤ ext.descSize := by
  rw [← ext.gdtLayout_descSize]
  exact ext.gdtLayout.descSize_ge

section Tally

variable {ext : Ext} {desc : Bytes}

theorem splitFits_of_length (hlen : desc.length = ext.descSize) (hlo : lo + 2 ≤ 32)
    (hhi : hi + 2 ≤ 64) (hlt : lo + 2 ≤ hi) : SplitFits ext desc lo hi := by
  have hge := descSize_ge ext
  exact ⟨hlt, by omega, fun hsize => by omega⟩

/-- The three counters that a tally changes, one after the other. -/
theorem applyGroupTally_spec (hlen : desc.length = ext.descSize) (tally : GroupTally) :
    (applyGroupTally ext desc tally).length = ext.descSize ∧
      (applyGroupTally ext desc tally).le16 0x12 = desc.le16 0x12 ∧
      (CountFits ext (satAdd32 (freeBlocksCount ext desc) (clamp32 tally.clustersFreed) -
          clamp32 tally.clustersAllocated) →
        freeBlocksCount ext (applyGroupTally ext desc tally) =
          satAdd32 (freeBlocksCount ext desc) (clamp32 tally.clustersFreed) -
            clamp32 tally.clustersAllocated) ∧
      (CountFits ext (satAdd32 (freeInodesCount ext desc) tally.inodesFreed) →
        freeInodesCount ext (applyGroupTally ext desc tally) =
          satAdd32 (freeInodesCount ext desc) tally.inodesFreed) := by
  unfold applyGroupTally freeBlocksCount freeInodesCount
  dsimp only
  generalize hblocks : satAdd32 (readDescU32Split desc 0x0C (hiOffset ext 0x2C))
    (clamp32 tally.clustersFreed) - clamp32 tally.clustersAllocated = blocks
  have fits₁ : SplitFits ext desc 0x0C 0x2C :=
    splitFits_of_length hlen (by omega) (by omega) (by omega)
  have hlen₁ := (length_writeSplit fits₁ blocks).trans hlen
  have hinodes₁ := readSplit_writeSplit_of_ne fits₁ blocks 0x0E 0x2E (by omega)
    (by omega) (by omega) (by omega)
  have hflags₁ := le16_writeSplit fits₁ blocks 0x12 (by omega) (by omega)
  have hself₁ := readSplit_writeSplit fits₁ blocks
  generalize writeDescU32Split desc 0x0C (hiOffset ext 0x2C) blocks = desc₁ at *
  rw [hinodes₁]
  generalize satAdd32 (readDescU32Split desc 0x0E (hiOffset ext 0x2E)) tally.inodesFreed = inodes
  have fits₂ : SplitFits ext desc₁ 0x0E 0x2E :=
    splitFits_of_length hlen₁ (by omega) (by omega) (by omega)
  have hlen₂ := (length_writeSplit fits₂ inodes).trans hlen₁
  have hblocks₂ := readSplit_writeSplit_of_ne fits₂ inodes 0x0C 0x2C (by omega)
    (by omega) (by omega) (by omega)
  have hflags₂ := le16_writeSplit fits₂ inodes 0x12 (by omega) (by omega)
  have hself₂ := readSplit_writeSplit fits₂ inodes
  generalize writeDescU32Split desc₁ 0x0E (hiOffset ext 0x2E) inodes = desc₂ at *
  generalize readDescU32Split desc₂ 0x10 (hiOffset ext 0x30) - tally.dirsFreed = dirs
  have fits₃ : SplitFits ext desc₂ 0x10 0x30 :=
    splitFits_of_length hlen₂ (by omega) (by omega) (by omega)
  refine ⟨(length_writeSplit fits₃ dirs).trans hlen₂, ?_, fun hfit => ?_, fun hfit => ?_⟩
  · rw [le16_writeSplit fits₃ dirs _ (by omega) (by omega), hflags₂, hflags₁]
  · rw [readSplit_writeSplit_of_ne fits₃ dirs _ _ (by omega) (by omega) (by omega) (by omega),
      hblocks₂, hself₁ hfit]
  · rw [readSplit_writeSplit_of_ne fits₃ dirs _ _ (by omega) (by omega) (by omega) (by omega),
      hself₂ hfit]

end Tally

/-- A group that was lazily initialised is so no more, and its free blocks are counted. -/
theorem initDescriptor_spec (hlen : desc.length = ext.descSize) (group : Nat)
    (gdp : GroupDescriptor) (hfits : CountFits ext (freeClustersAfterInit ext group gdp)) :
    (initDescriptor ext group gdp desc).length = ext.descSize ∧
      ¬BlockUninit (initDescriptor ext group gdp desc) ∧
      freeBlocksCount ext (initDescriptor ext group gdp desc) =
        freeClustersAfterInit ext group gdp ∧
      freeInodesCount ext (initDescriptor ext group gdp desc) = freeInodesCount ext desc := by
  have hge := descSize_ge ext
  have hhi : (if (groupDescSlot ext group).2.2 ≥ 64 then some 0x2C else none) =
      hiOffset ext 0x2C := by
    show (if ext.gdtLayout.descSize ≥ 64 then some 0x2C else none) = _
    rw [ext.gdtLayout_descSize]
    rfl
  unfold initDescriptor BlockUninit freeBlocksCount freeInodesCount
  rw [hhi]
  have hroom : ∀ value, 0x12 + (toLE 2 value).length ≤ desc.length := fun value => by
    rw [length_toLE]
    omega
  have hflags := le16_splice_self
    (desc.le16 0x12 &&& (0xFFFF ^^^ EXT4_BG_BLOCK_UNINIT)) (show 0x12 + 2 ≤ desc.length by omega)
  have hinodes := readSplit_congr ext
    (le16_splice_of_disjoint (hroom (desc.le16 0x12 &&& (0xFFFF ^^^ EXT4_BG_BLOCK_UNINIT)))
      (.inl (show 0x0E + 2 ≤ 0x12 by decide)))
    (le16_splice_of_disjoint (hroom _) (.inr (show 0x12 + 2 ≤ 0x2E by decide)))
  have hlen' := (length_splice
    (hroom (desc.le16 0x12 &&& (0xFFFF ^^^ EXT4_BG_BLOCK_UNINIT)))).trans hlen
  generalize desc.splice 0x12 _ = desc' at *
  have fits : SplitFits ext desc' 0x0C 0x2C :=
    splitFits_of_length hlen' (by omega) (by omega) (by omega)
  refine ⟨(length_writeSplit fits _).trans hlen', ?_, readSplit_writeSplit fits _ hfits, ?_⟩
  · rw [le16_writeSplit fits _ _ (by omega) (by omega), hflags]
    have hlt : (desc.le16 0x12 &&& (0xFFFF ^^^ EXT4_BG_BLOCK_UNINIT)) < 2 ^ 16 :=
      Nat.lt_of_le_of_lt Nat.and_le_left (le16_lt desc 0x12)
    rw [Nat.mod_eq_of_lt hlt, Nat.and_assoc,
      show (0xFFFF ^^^ EXT4_BG_BLOCK_UNINIT) &&& EXT4_BG_BLOCK_UNINIT = 0 by decide,
      Nat.and_zero]
    exact fun h => h rfl
  · rw [readSplit_writeSplit_of_ne fits _ _ _ (by omega) (by omega) (by omega) (by omega), hinodes]

/-! ### Slots -/

/-- The descriptor in slot `i` of a descriptor block. -/
def descSlot (ext : Ext) (content : Bytes) (i : Nat) : Bytes :=
  content.slice (i * ext.descSize) ext.descSize

section Slots

variable {ext : Ext} {content : Bytes}

theorem descPerBlock_mul (ext : Ext) :
    ext.gdtLayout.descPerBlock * ext.descSize = ext.blockSize := by
  rw [← ext.gdtLayout_descSize, ← ext.gdtLayout_blockSize]
  exact Nat.div_mul_cancel ext.gdtLayout.descSize_dvd

theorem descPerBlock_pos (ext : Ext) : 0 < ext.gdtLayout.descPerBlock := by
  refine Nat.pos_of_ne_zero fun hzero => ?_
  have hmul := descPerBlock_mul ext
  have hge := ext.blockSize_ge
  rw [hzero] at hmul
  omega

/-- A slot ends inside of the block. -/
theorem descSlot_fits (hi : i < ext.gdtLayout.descPerBlock) :
    i * ext.descSize + ext.descSize ≤ ext.blockSize := by
  rw [← descPerBlock_mul ext, ← Nat.succ_mul]
  exact Nat.mul_le_mul_right _ hi

theorem length_descSlot (hlen : content.length = ext.blockSize)
    (hi : i < ext.gdtLayout.descPerBlock) : (descSlot ext content i).length = ext.descSize := by
  have hfits := descSlot_fits hi
  rw [descSlot, length_slice]
  omega

/-- The slot of a group. -/
theorem groupDescSlot_eq (ext : Ext) (group : Nat) :
    groupDescSlot ext group = (descriptorBlockForGroup ext.gdtLayout group,
      group % ext.gdtLayout.descPerBlock * ext.descSize, ext.descSize) := by
  have hfits := descSlot_fits (Nat.mod_lt group (descPerBlock_pos ext))
  have hge := descSize_ge ext
  unfold groupDescSlot
  dsimp only
  rw [ext.gdtLayout_descSize, ext.gdtLayout_blockSize, Nat.mod_eq_of_lt (by omega)]

/-- Writing one slot: it has the new descriptor, and the others stay. -/
theorem descSlot_splice (hlen : content.length = ext.blockSize)
    (hi : i < ext.gdtLayout.descPerBlock) (hdesc : desc.length = ext.descSize) (j : Nat) :
    descSlot ext (content.splice (i * ext.descSize) desc) j =
      if j = i then desc else descSlot ext content j := by
  have hfits := descSlot_fits hi
  have hroom : i * ext.descSize + desc.length ≤ content.length := by omega
  split
  · rename_i heq
    have hself := slice_splice_self hroom
    rw [heq]
    rwa [hdesc] at hself
  rename_i hne
  refine slice_splice_of_disjoint hroom ?_
  rcases Nat.lt_or_gt_of_ne hne with hlt | hgt
  · left
    rw [← Nat.succ_mul]
    exact Nat.mul_le_mul_right _ hlt
  · right
    rw [hdesc, ← Nat.succ_mul]
    exact Nat.mul_le_mul_right _ hgt

/-- The counters of every slot of a descriptor block stay. -/
structure SameSlots (ext : Ext) (content content' : Bytes) : Prop where
  length : content'.length = content.length
  slots : ∀ i < ext.gdtLayout.descPerBlock,
    SameCounters ext (descSlot ext content i) (descSlot ext content' i)

theorem SameSlots.refl (ext : Ext) (content : Bytes) : SameSlots ext content content :=
  ⟨rfl, fun _ _ => .refl ext _⟩

theorem SameSlots.trans {c₁ c₂ c₃ : Bytes} (h : SameSlots ext c₁ c₂) (h' : SameSlots ext c₂ c₃) :
    SameSlots ext c₁ c₃ :=
  ⟨h'.length.trans h.length, fun i hi => (h.slots i hi).trans (h'.slots i hi)⟩

/-- An edit of one slot that keeps its counters. -/
theorem sameSlots_splice (hlen : content.length = ext.blockSize)
    (hi : i < ext.gdtLayout.descPerBlock) (hdesc : SameCounters ext (descSlot ext content i) desc) :
    SameSlots ext content (content.splice (i * ext.descSize) desc) := by
  have hsize := hdesc.length.trans (length_descSlot hlen hi)
  have hfits := descSlot_fits hi
  refine ⟨length_splice (by omega), fun j _ => ?_⟩
  rw [descSlot_splice hlen hi hsize]
  split
  · rename_i heq
    rw [heq]
    exact hdesc
  · exact .refl ext _

end Slots

end Fsmnt.FsExt
