import Fsmnt.Spec.FsExt.GroupDescriptor
import Fsmnt.Spec.FsExt.MutatorFinalize

/-!
# Contents of the bitmaps and the descriptor table

What the blocks of the filesystem hold under a mutator. The calls that change bitmaps have only
bitmaps and descriptor blocks in scratch, each under the class that the layout gives it.
-/

namespace Fsmnt.FsExt

open Function Mutator Std.TreeMap
open EStateM (Preserves)

variable (ext : Ext) (fs : FsReader)

/-! ### Contents -/

/-- The bytes of a block: none, if it cannot be read. -/
def readable : Except ExtError Bytes → Bytes
  | .ok content => content
  | .error _ => []

/-- The blocks of the filesystem below the mutator. -/
def rawContent (block : Nat) : Bytes := readable (readBlock ext fs block)

def Mutator.content (m : Mutator) (block : Nat) : Bytes := readable (m.view ext fs block)

/-- The blocks of the filesystem under the delta of a finalized mutator. -/
def OrphanOverlayDelta.content (delta : OrphanOverlayDelta) (block : Nat) : Bytes :=
  delta.blocks[block]?.getD (rawContent ext fs block)

/-- The descriptor of a group. -/
def groupDesc (content : Nat → Bytes) (group : Nat) : Bytes :=
  descSlot ext (content (descriptorBlockForGroup ext.gdtLayout group))
    (group % ext.gdtLayout.descPerBlock)

/-- The group is lazily initialised, or its free blocks are the clear bits of its bitmap. -/
def BlocksCounted (content : Nat → Bytes) (group : Nat) (gdp : GroupDescriptor) : Prop :=
  BlockUninit (groupDesc ext content group) ∨ freeBlocksCount ext (groupDesc ext content group) =
      (clearUnits (content gdp.blockBitmap) (allocationUnitsInGroup ext group)).card

/-- The free inodes of a group are the clear bits of its bitmap. -/
def InodesCounted (content : Nat → Bytes) (group : Nat) (gdp : GroupDescriptor) : Prop :=
  freeInodesCount ext (groupDesc ext content group) =
    (clearUnits (content gdp.inodeBitmap) ext.inodesPerGroup).card

/-! ### Primitive operations -/

/-- Tallies and initialised groups stay. -/
def SameBooks (m m' : Mutator) : Prop :=
  m'.groupTallies = m.groupTallies ∧ m'.initializedBlockGroups = m.initializedBlockGroups

/-- A property that the scratch blocks and the log do not take part in. -/
def OffBlocks (I : Mutator → Prop) : Prop := ∀ m blocks log, I m → I { m with blocks, log }

namespace OffBlocks

variable {ext fs} {I : Mutator → Prop} (hI : OffBlocks I) (block inum : Nat) (cls : BlockClass)
  (f : Bytes → Except MutatorError Bytes)

include hI

/-- Seeding changes only scratch blocks and the log. -/
theorem seedBlock : Preserves I (seedBlock ext fs block cls) := by
  intro m u m' hm h
  rw [← eq_state_of_ok h]
  rcases seedBlock_state ext fs block cls m with heq | ⟨-, content, -, heq⟩
  · rw [heq]
    exact hm
  · rw [heq]
    exact hI m _ _ hm

/-- So does a patch, -/
theorem patchBlock : Preserves I (patchBlock ext fs block cls f) := by
  intro m u m' hm h
  obtain ⟨_, _, -, -, -, heq⟩ := patchBlock_ok h
  rw [heq]
  exact hI m _ _ hm

/-- an operation on a bitmap, -/
theorem onBitmap (event : MutatorEvent) (f : EStateM MutatorError Bytes Nat) :
    Preserves I (onBitmap block event f) := by
  intro m n m' hm h
  obtain ⟨_, _, -, -, rfl⟩ := onBitmap_ok h
  exact hI m _ _ hm

/-- the patch of an inode, and -/
theorem patchInode : Preserves I (patchInodeScratch ext fs inum f) :=
  closed_ofExcept_bind EStateM.Preserves.closed fun _ _ => (hI.patchBlock _ _ _).bind fun _ =>
    .modify fun m hm => hI m _ m.log hm

/-- dropping a block that is as it was. -/
theorem pruneInode : Preserves I (pruneInodeTableBlockIfUnchanged ext fs inum) := by
  intro m pruned m' hm h
  have hkeeps : EStateM.Keeps (fun m t => I m → I t)
    (pruneInodeTableBlockIfUnchanged ext fs inum) :=
    keeps_prune ext fs (fun _ hm => hm) fun m _ _ _ _ _ _ => hI m _ m.log
  exact hkeeps.of_ok h hm

/-- The tallies are written by patches. -/
theorem materializeTallies (groups : List Nat) :
    Preserves I (materializeTallies ext fs groups) := by
  induction groups with
  | nil => exact .pure _
  | cons group rest ih =>
    exact .get_bind fun m u m' hm h => ((hI.patchBlock _ _ _).bind fun _ => ih) m u m' hm h

end OffBlocks

section Primitives

variable {ext fs} {m m' : Mutator} {u : Unit} {block : Nat}

/-- A block in scratch shows its scratch content. -/
theorem content_of_some {s : ScratchBlock} (h : m.blocks[block]? = some s) :
    m.content ext fs block = s.content := by
  unfold content view
  rw [h]
  rfl

/-- Any other shows what is below the mutator. -/
theorem content_of_none (h : m.blocks[block]? = none) :
    m.content ext fs block = rawContent ext fs block := by
  unfold content view
  rw [h]
  rfl

/-- The content depends on the scratch block only. -/
theorem content_congr (h : m'.blocks[block]? = m.blocks[block]?) :
    m'.content ext fs block = m.content ext fs block := by
  unfold content view
  rw [h]

/-- Seeding shows nothing new. -/
theorem seedBlock_content {cls : BlockClass} (h : seedBlock ext fs block cls m = .ok u m') :
    m'.content ext fs = m.content ext fs ∧ SameBooks m m' := by
  rw [← eq_state_of_ok h]
  rcases seedBlock_state ext fs block cls m with heq | ⟨hnone, content, hread, heq⟩
  · rw [heq]
    exact ⟨rfl, rfl, rfl⟩
  rw [heq]
  refine ⟨funext fun b => ?_, rfl, rfl⟩
  by_cases hb : b = block
  · rw [hb, content_of_none hnone, content_of_some (s := { cls, content })
      (getElem?_insert_self ..), rawContent, hread]
    rfl
  · refine content_congr ?_
    show (m.blocks.insert block _)[b]? = _
    rw [getElem?_insert, if_neg (by simpa using Ne.symm hb)]

/-- A patch changes one block. -/
theorem patchBlock_content {cls : BlockClass} {f : Bytes → Except MutatorError Bytes}
    (h : patchBlock ext fs block cls f m = .ok u m') :
    ∃ c, f (m.content ext fs block) = .ok c ∧
      m'.content ext fs = update (m.content ext fs) block c ∧ SameBooks m m' ∧
      (Sized ext m → (m.content ext fs block).length = ext.blockSize) := by
  obtain ⟨s, c, hs, hf, hblock, heq⟩ := patchBlock_ok h
  have hcontent : m.content ext fs block = s.content := by
    rcases hs with hs | ⟨hnone, -, hread⟩
    · exact content_of_some hs
    · rw [content_of_none hnone, rawContent, hread]
      rfl
  refine ⟨c, by rw [hcontent, hf], funext fun b => ?_, by rw [heq]; exact ⟨rfl, rfl⟩,
    fun hsized => ?_⟩
  · by_cases hb : b = block
    · rw [hb, update_self, content_of_some hblock]
    · rw [update_of_ne hb]
      refine content_congr ?_
      rw [← eq_state_of_ok h]
      exact (patchBlock_state ext fs block cls f m).2 b hb
  · rw [hcontent]
    rcases hs with hs | ⟨-, -, hread⟩
    · exact hsized block s hs
    · exact readBlock_length ext fs hread

/-- A bitmap operation changes one block. -/
theorem onBitmap_content (ext : Ext) (fs : FsReader) {event : MutatorEvent}
    {f : EStateM MutatorError Bytes Nat} {n : Nat} (h : onBitmap block event f m = .ok n m') :
    ∃ c, f (m.content ext fs block) = .ok n c ∧
      m'.content ext fs = update (m.content ext fs) block c ∧ SameBooks m m' := by
  obtain ⟨s, c, hs, hf, rfl⟩ := onBitmap_ok h
  refine ⟨c, by rw [content_of_some hs, hf], funext fun b => ?_, rfl, rfl⟩
  by_cases hb : b = block
  · rw [hb, update_self]
    refine content_of_some (s := { s with content := c }) ?_
    rw [modifyBlock_self]
    show (m.blocks[block]?).map _ = _
    rw [hs]
    rfl
  · rw [update_of_ne hb]
    exact content_congr (modifyBlock_of_ne _ _ hb)

end Primitives

/-! ### Placement -/

/-- The block of the group descriptor table that has the descriptor of a group. -/
abbrev descBlock (group : Nat) : Nat := descriptorBlockForGroup ext.gdtLayout group

/-- A block of the given class is one that the layout has for it. -/
def ClassFits (block : Nat) : BlockClass → Prop
  | .blockBitmap g => ∃ d, ext.groupDescs[g]? = some d ∧ d.blockBitmap = block
  | .inodeBitmap g => ∃ d, ext.groupDescs[g]? = some d ∧ d.inodeBitmap = block
  | .groupDescriptor n =>
    ∃ g d, ext.groupDescs[g]? = some d ∧ descBlock ext g = block ∧
      g / ext.gdtLayout.descPerBlock = n
  | _ => False

/-- Only bitmaps and descriptors are in scratch, and only groups that exist have a tally. -/
structure Placed (m : Mutator) : Prop where
  sized : Sized ext m
  cls : ∀ (block : Nat) (s : ScratchBlock), m.blocks[block]? = some s → ClassFits ext block s.cls
  tallied : ∀ g ∈ m.groupTallies, ∃ d, ext.groupDescs[g]? = some d

/-- The bitmaps and the descriptor table do not overlap. -/
structure DistinctBlocks : Prop where
  blockBitmap : ∀ {g h : Nat} {d e : GroupDescriptor}, ext.groupDescs[g]? = some d →
    ext.groupDescs[h]? = some e → d.blockBitmap = e.blockBitmap → g = h
  inodeBitmap : ∀ {g h : Nat} {d e : GroupDescriptor}, ext.groupDescs[g]? = some d →
    ext.groupDescs[h]? = some e → d.inodeBitmap = e.inodeBitmap → g = h
  bitmaps : ∀ {g h : Nat} {d e : GroupDescriptor}, ext.groupDescs[g]? = some d →
    ext.groupDescs[h]? = some e → d.blockBitmap ≠ e.inodeBitmap
  descriptors : ∀ {g h : Nat} {d e : GroupDescriptor}, ext.groupDescs[g]? = some d →
    ext.groupDescs[h]? = some e → descBlock ext g ≠ e.blockBitmap ∧ descBlock ext g ≠ e.inodeBitmap
  table : ∀ {g h : Nat} {d e : GroupDescriptor}, ext.groupDescs[g]? = some d →
    ext.groupDescs[h]? = some e → descBlock ext g = descBlock ext h →
      g / ext.gdtLayout.descPerBlock = h / ext.gdtLayout.descPerBlock

section Placed

variable {ext fs} {m m' : Mutator} {block : Nat} {cls : BlockClass}

/-- Placement depends on the scratch blocks and the tallies only. -/
theorem Placed.of_blocks (h : Placed ext m) (hblocks : m'.blocks = m.blocks)
    (htally : m'.groupTallies = m.groupTallies) : Placed ext m' where
  sized b s hs := h.sized b s (hblocks ▸ hs)
  cls b s hs := h.cls b s (hblocks ▸ hs)
  tallied g hg := h.tallied g (htally ▸ hg)

/-- A block that fits its class may be seeded. -/
theorem placed_seedBlock (hfits : ClassFits ext block cls) :
    Preserves (Placed ext) (seedBlock ext fs block cls) := by
  intro m u m' hm h
  refine ⟨(sizedInv ext fs).seed _ _ trivial m u m' hm.sized h, fun b s hs => ?_, fun g hg => ?_⟩
  · rw [← eq_state_of_ok h] at hs
    rcases seedBlock_state ext fs block cls m with heq | ⟨-, content, -, heq⟩
    · rw [heq] at hs
      exact hm.cls b s hs
    rw [heq] at hs
    rw [getElem?_insert] at hs
    split at hs
    · rename_i hb
      cases hs
      rw [Nat.compare_eq_eq] at hb
      rwa [← hb]
    · exact hm.cls b s hs
  · rw [(seedBlock_content h).2.1] at hg
    exact hm.tallied g hg

/-- A block that fits its class may be patched. -/
theorem placed_patchBlock {f : Bytes → Except MutatorError Bytes} (hfits : ClassFits ext block cls)
    (hsize : KeepsSize ext f) :
    Preserves (Placed ext) (patchBlock ext fs block cls f) := by
  intro m u m' hm h
  refine ⟨(sizedInv ext fs).patch _ _ _ trivial hsize m u m' hm.sized h, fun b s hs => ?_,
    fun g hg => ?_⟩
  · by_cases hb : b = block
    · obtain ⟨s', c, hs', -, hblock, -⟩ := patchBlock_ok h
      rw [hb, hblock] at hs
      cases hs
      rw [hb]
      rcases hs' with hs' | ⟨-, hcls, -⟩
      · exact hm.cls block s' hs'
      · rwa [hcls]
    · rw [← eq_state_of_ok h, (patchBlock_state ext fs block cls f m).2 b hb] at hs
      exact hm.cls b s hs
  · obtain ⟨-, -, -, hbooks, -⟩ := patchBlock_content h
    rw [hbooks.1] at hg
    exact hm.tallied g hg

/-- An operation on a bitmap leaves its class as it is. -/
theorem placed_onBitmap (fs : FsReader) {event : MutatorEvent} {f : EStateM MutatorError Bytes Nat}
    (hlen : ∀ bitmap, (f bitmap).state.length = bitmap.length) :
    Preserves (Placed ext) (onBitmap block event f) := by
  intro m n m' hm h
  refine ⟨(sizedInv ext fs).bitmap _ _ _ trivial hlen m n m' hm.sized h, fun b s hs => ?_,
    fun g hg => ?_⟩
  · obtain ⟨_, _, -, -, rfl⟩ := onBitmap_ok h
    by_cases hb : b = block
    · rw [hb, modifyBlock_self] at hs
      obtain ⟨s', hs', rfl⟩ := Option.map_eq_some_iff.mp hs
      rw [hb]
      exact hm.cls block s' hs'
    · rw [modifyBlock_of_ne _ _ hb] at hs
      exact hm.cls b s hs
  · obtain ⟨-, -, -, hbooks⟩ := onBitmap_content ext fs h
    rw [hbooks.1] at hg
    exact hm.tallied g hg

/-- A block is seeded and then changed by a bitmap operation. -/
theorem seed_onBitmap {event : MutatorEvent} {f : EStateM MutatorError Bytes Nat} {n : Nat}
    {u : Unit} {t : Mutator} (hfits : ClassFits ext block cls)
    (hlen : ∀ bitmap, (f bitmap).state.length = bitmap.length) (hm : Placed ext m)
    (hseed : seedBlock ext fs block cls m = .ok u t)
    (hrun : onBitmap block event f t = .ok n m') :
    Placed ext m' ∧ SameBooks m m' ∧ ∃ c, f (m.content ext fs block) = .ok n c ∧
      m'.content ext fs = update (m.content ext fs) block c := by
  obtain ⟨hcontent, hbooks⟩ := seedBlock_content hseed
  obtain ⟨c, hf, hcontent', hbooks'⟩ := onBitmap_content ext fs hrun
  rw [hcontent] at hf hcontent'
  exact ⟨placed_onBitmap fs hlen t n m' (placed_seedBlock hfits m u t hm hseed) hrun,
    ⟨hbooks'.1.trans hbooks.1, hbooks'.2.trans hbooks.2⟩, c, hf, hcontent'⟩

end Placed

/-! ### Descriptors -/

section Descriptors

variable {ext} {content : Nat → Bytes} {g h : Nat}

/-- A descriptor depends on its block of the table only. -/
theorem groupDesc_congr {content' : Nat → Bytes}
    (heq : content' (descBlock ext g) = content (descBlock ext g)) :
    groupDesc ext content' g = groupDesc ext content g := by
  unfold groupDesc
  rw [heq]

/-- Writing the descriptor of one group. -/
theorem groupDesc_update (hlen : (content (descBlock ext h)).length = ext.blockSize) {desc : Bytes}
    (hdesc : desc.length = ext.descSize) (htable : descBlock ext g = descBlock ext h →
      g / ext.gdtLayout.descPerBlock = h / ext.gdtLayout.descPerBlock) :
    groupDesc ext (update content (descBlock ext h)
      ((content (descBlock ext h)).splice (h % ext.gdtLayout.descPerBlock * ext.descSize) desc)) g =
        if g = h then desc else groupDesc ext content g := by
  have hslot := Nat.mod_lt h (descPerBlock_pos ext)
  by_cases hblock : descBlock ext g = descBlock ext h
  · unfold groupDesc
    rw [show descriptorBlockForGroup ext.gdtLayout g = descBlock ext h from hblock,
      update_self, descSlot_splice hlen hslot hdesc]
    have hdiv := htable hblock
    have hg := Nat.div_add_mod g ext.gdtLayout.descPerBlock
    have hh := Nat.div_add_mod h ext.gdtLayout.descPerBlock
    rw [hdiv] at hg
    simp only [show g % ext.gdtLayout.descPerBlock = h % ext.gdtLayout.descPerBlock ↔
      g = h by omega]
  · rw [if_neg fun heq => hblock (by rw [heq])]
    exact groupDesc_congr (update_of_ne hblock _ _)

end Descriptors

end Fsmnt.FsExt
