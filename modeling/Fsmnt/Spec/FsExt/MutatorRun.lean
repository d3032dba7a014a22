import Fsmnt.ForStd.Nat
import Fsmnt.Native.FsExt.MutatorFree
import Fsmnt.Spec.FsExt.BitmapLog

/-!
# Sequences of mutator operations

One mutator takes any sequence of operations before it is finalized. A property of the mutator that
every operation keeps holds before `finalize`.
-/

namespace Fsmnt.FsExt

open Bytes EStateM Mutator Std.TreeMap

variable {m m' : Mutator} {ext : Ext} {I : Mutator → Prop} {α : Type} {inum block n : Nat}
  {fs : FsReader}

/-! ### Operations -/

/-- A closure that is given a slice of bytes to change: it cannot change their number. -/
structure BytePatch where
  run : Bytes → Except MutatorError Bytes
  length_run : ∀ bytes bytes', run bytes = .ok bytes' → bytes'.length = bytes.length

/-- The structure of a block and its owner, as the caller of a patch knows them. -/
inductive BlockOwner where
  | extentTree (inode generation : Nat)
  | xattr
  /-- A leaf, or a block of a linear directory. -/
  | dirLeaf (inode generation : Nat)
  /-- An index block with its `DxCountLimit` at `countLimitOff`. -/
  | dirIndex (inode generation countLimitOff count limit : Nat)
  deriving Repr, DecidableEq

/-- A block of a directory, with the numbers of its index if it has one. -/
def BlockOwner.ofDir (inode generation : Nat) : Option (Nat × Nat × Nat) → BlockOwner
  | none => .dirLeaf inode generation
  | some (countLimitOff, count, limit) => .dirIndex inode generation countLimitOff count limit

/-- A call of a mutator method. -/
inductive MutatorOp where
  | patchInode (inum : Nat) (f : BytePatch)
  | pruneInode (inum : Nat)
  | patchExtent (block ownerInode ownerGeneration : Nat) (f : BytePatch)
  | patchXattr (block : Nat) (f : BytePatch)
  | patchDirectory (block parentInum parentGeneration : Nat) (f : BytePatch)
  | writeDir (block parentInum parentGeneration : Nat) (index : Option (Nat × Nat × Nat))
    (bytes : Bytes)
  | patchOrphanFile (block fileInode fileGeneration : Nat) (f : BytePatch)
  | patchIndirect (block : Nat) (f : BytePatch)
  | clearInode (inum : Nat) (wasDir : Bool)
  | freeAllocations (inode : Nat) (runs : List AllocationRun)
  | mark (pblk blockLen : Nat) (alloc : Bool)
  | allocate (nearInum : Nat)

section Run

variable (ext : Ext) (fs : FsReader)

def MutatorOp.run : MutatorOp → MutatorM Unit
  | .patchInode inum f => patchInodeScratch ext fs inum f.run
  | .pruneInode inum => do let _ ← pruneInodeTableBlockIfUnchanged ext fs inum
  | .patchExtent block inode generation f =>
    patchExtentBlock ext fs block inode generation f.run
  | .patchXattr block f => patchXattrBlock ext fs block f.run
  | .patchDirectory block parent _ f => patchDirectoryBlock ext fs block parent f.run
  | .writeDir block parent _ _ bytes => writeDirBlock ext fs parent block bytes
  | .patchOrphanFile block inode generation f =>
    patchOrphanFileBlock ext fs block inode generation f.run
  | .patchIndirect block f => patchIndirectBlock ext fs block f.run
  | .clearInode inum wasDir => clearInodeBitmapBit ext fs inum wasDir
  | .freeAllocations inode runs => Mutator.freeAllocations ext fs inode runs
  | .mark pblk blockLen alloc => do
    let _ ← markBlockRangeState ext fs pblk blockLen alloc
  | .allocate nearInum => do let _ ← allocateMetadataBlock ext fs nearInum

/-- The calls one after the other; the first that fails ends the run. -/
def runOps : List MutatorOp → MutatorM Unit
  | [] => pure ()
  | op :: rest => do
    op.run ext fs
    runOps rest

variable {ext fs}

theorem runOps_append {ops₁ ops₂ : List MutatorOp} {u : Unit} :
    runOps ext fs (ops₁ ++ ops₂) m = .ok u m' ↔
      ∃ t, runOps ext fs ops₁ m = .ok () t ∧ runOps ext fs ops₂ t = .ok u m' := by
  induction ops₁ generalizing m with
  | nil => simp [runOps]
  | cons op rest ih =>
    simp only [List.cons_append, runOps, bind_eq_ok_iff, ih]
    constructor
    · rintro ⟨a, s, hop, t, hrest, hlast⟩
      exact ⟨t, ⟨a, s, hop, hrest⟩, hlast⟩
    · rintro ⟨t, ⟨a, s, hop, hrest⟩, hlast⟩
      exact ⟨a, s, hop, t, hrest, hlast⟩

/-- An invariant of every operation is one of a run. -/
theorem preserves_runOps {ops : List MutatorOp} (h : ∀ op ∈ ops, Preserves I (op.run ext fs)) :
    Preserves I (runOps ext fs ops) := by
  induction ops with
  | nil => exact .pure _
  | cons op rest ih =>
    exact (h op List.mem_cons_self).bind fun _ =>
      ih fun o ho => h o (List.mem_cons_of_mem op ho)

end Run

/-! ### Marking and allocating -/

/-- An invariant that the operations on the bitmap of one group keep. -/
structure AllocInv (ext : Ext) (fs : FsReader) (I : Mutator → Prop) : Prop where
  ensure : ∀ group, Preserves I (ensureBlockGroupInitialized ext fs group)
  seed : ∀ group gdp, ext.groupDescs[group]? = some gdp →
    Preserves I (seedBlock ext fs gdp.blockBitmap (.blockBitmap group))
  units : ∀ group bitStart count pblk alloc, bitStart + count ≤ allocationUnitsInGroup ext group →
    Preserves I (markGroupUnits ext fs group bitStart count pblk alloc)
  note : ∀ m event, I m → I (m.note event)

namespace AllocInv

variable {ext : Ext} {fs : FsReader} {I : Mutator → Prop}

theorem markBlockRangeState (h : AllocInv ext fs I) (pblk len : Nat) (alloc : Bool) :
    Preserves I (markBlockRangeState ext fs pblk len alloc) :=
  closed_markBlockRangeState ext fs Preserves.closed
    (fun group bitStart count => h.units group bitStart count pblk alloc)
    (.modify fun m => h.note m _)

theorem tryAllocateInGroup (h : AllocInv ext fs I) (group : Nat) :
    Preserves I (tryAllocateInGroup ext fs group) := by
  unfold Mutator.tryAllocateInGroup
  dsimp only
  split
  · exact .pure _
  refine (h.ensure group).bind fun _ => ?_
  split
  · exact .throw _
  rename_i gdp hdesc
  refine (h.seed group gdp hdesc).bind fun _ => .bind .get fun m => ?_
  split
  · exact .throw _
  split
  · exact .pure _
  refine closed_ofExcept_bind Preserves.closed fun _ _ => ?_
  split
  · exact .pure _
  · exact (h.markBlockRangeState _ _ _).bind fun _ =>
      (Preserves.modify fun m hm => h.note m _ hm).bind fun _ => .pure _

theorem allocateMetadataBlock (h : AllocInv ext fs I) (nearInum : Nat) :
    Preserves I (allocateMetadataBlock ext fs nearInum) :=
  closed_allocateMetadataBlock ext fs Preserves.closed h.tryAllocateInGroup nearInum

end AllocInv

/-- Freeing runs frees one planned cluster after the other. -/
theorem preserves_freeAllocations {inode : Nat} {runs : List AllocationRun}
    (h : ∀ plan, planClusters ext inode runs = .ok plan → ∀ cluster block,
      plan.clusters[cluster]? = some block → Preserves I (freeCluster ext fs inode cluster block)) :
    Preserves I (freeAllocations ext fs inode runs) := by
  unfold freeAllocations
  split
  · exact .throw _
  rename_i plan hplan
  have hall : ∀ clusters : List (Nat × Nat), (∀ c ∈ clusters, plan.clusters[c.1]? = some c.2) →
      Preserves I (freeClusters ext fs inode clusters) := by
    intro clusters hmem
    induction clusters with
    | nil => exact .pure _
    | cons c rest ih =>
      exact (h plan hplan _ _ (hmem c List.mem_cons_self)).bind fun _ =>
        ih fun c' hc' => hmem c' (List.mem_cons_of_mem _ hc')
  exact hall _ fun c hc => mem_toList_iff_getElem?_eq_some.mp hc

/-! ### Blocks -/

/-- A block is a block of a fixed size for a patch. -/
def KeepsSize (ext : Ext) (f : Bytes → Except MutatorError Bytes) : Prop :=
  ∀ content content', content.length = ext.blockSize → f content = .ok content' →
    content'.length = ext.blockSize

/-- An invariant of the scratch blocks that operations on the blocks with `P` keep. -/
structure BlockInv (ext : Ext) (fs : FsReader) (P : Nat → Prop) (I : Mutator → Prop) : Prop where
  seed : ∀ block cls, P block → Preserves I (seedBlock ext fs block cls)
  patch : ∀ block cls f, P block → KeepsSize ext f → Preserves I (patchBlock ext fs block cls f)
  bitmap : ∀ block event f, P block → (∀ bitmap, (f bitmap).state.length = bitmap.length) →
    Preserves I (onBitmap block event f)
  mutated : ∀ m block inum, P block → I m → I (m.modifyBlock block fun s =>
    { s with mutatedInodes := s.mutatedInodes.insert inum })
  erase : ∀ m block, P block → I m → I { m with blocks := m.blocks.erase block }
  blocks : ∀ m m', m'.blocks = m.blocks → I m → I m'

/-- A patch of one slot of a block. -/
theorem keepsSize_slot {off size : Nat} (hfit : off + size ≤ ext.blockSize) {edit : Bytes → Bytes}
    (hedit : ∀ slot, slot.length = size → (edit slot).length = size) :
    KeepsSize ext fun content => .ok (content.splice off (edit (content.slice off size))) := by
  intro content content' hlen h
  cases h
  have hslot : (content.slice off size).length = size := by
    rw [length_slice]
    omega
  rw [length_splice (by rw [hedit _ hslot]; omega), hlen]

theorem length_writeDescU32Split {desc : Bytes} {offLo : Nat} {offHi : Option Nat} {value : Nat}
    (hlen : desc.length = n) (hlo : offLo + 2 ≤ n) (hhi : ∀ off, offHi = some off → off + 2 ≤ n) :
    (writeDescU32Split desc offLo offHi value).length = n := by
  have hfirst : (desc.splice offLo (toLE 2 value)).length = n := by
    rw [length_splice (by rw [length_toLE]; omega), hlen]
  unfold writeDescU32Split
  cases offHi with
  | none => exact hfirst
  | some off =>
    have hoff := hhi off rfl
    rw [length_splice (by rw [length_toLE]; omega), hfirst]

/-- The slot of a descriptor lies in its block. -/
theorem groupDescSlot_fits (ext : Ext) (group : Nat) :
    (groupDescSlot ext group).2.1 + (groupDescSlot ext group).2.2 ≤
      ext.blockSize := by
  rw [← ext.gdtLayout_blockSize]
  exact Nat.mul_mod_add_le_of_dvd ext.gdtLayout.descSize_dvd ext.gdtLayout.blockSize_pos _

/-- The slot of an inode lies in its block. -/
theorem inodeTableSlot_fits {slot : Nat × Nat × Nat}
    (h : inodeTableSlot ext inum = .ok slot) : slot.2.1 + slot.2.2 ≤ ext.blockSize := by
  have hpos : 0 < ext.blockSize := Nat.lt_of_lt_of_le (by decide) ext.blockSize_ge
  unfold inodeTableSlot at h
  split at h
  · cases h
  split at h
  · cases h
  · cases h
    exact Nat.mul_mod_add_le_of_dvd ext.inodeSize_dvd hpos _

/-- What `ensure_block_group_initialized` makes of the descriptor of the group. -/
def initDescriptor (ext : Ext) (group : Nat) (gdp : GroupDescriptor) (desc : Bytes) : Bytes :=
  writeDescU32Split (desc.splice 0x12
      (Bytes.toLE 2 (desc.le16 0x12 &&& (0xFFFF ^^^ EXT4_BG_BLOCK_UNINIT)))) 0x0C
    (if (groupDescSlot ext group).2.2 ≥ 64 then some 0x2C else none)
    (freeClustersAfterInit ext group gdp)

theorem length_initDescriptor (ext : Ext) (group : Nat) (gdp : GroupDescriptor) (desc : Bytes)
    (hlen : desc.length = (groupDescSlot ext group).2.2) :
    (initDescriptor ext group gdp desc).length = (groupDescSlot ext group).2.2 := by
  have hge : 32 ≤ (groupDescSlot ext group).2.2 := ext.gdtLayout.descSize_ge
  refine length_writeDescU32Split ?_ (by omega) fun off hoff => ?_
  · rw [length_splice (by rw [length_toLE]; omega), hlen]
  split at hoff
  · cases hoff
    omega
  · cases hoff

/-- The blocks that hold the bitmaps and the descriptors of the groups. -/
def AllocationBlock (ext : Ext) (block : Nat) : Prop :=
  ∃ group gdp, ext.groupDescs[group]? = some gdp ∧
    (block = gdp.blockBitmap ∨ block = gdp.inodeBitmap ∨ block = (groupDescSlot ext group).1)

namespace BlockInv

variable {ext : Ext} {fs : FsReader} {P : Nat → Prop} {I : Mutator → Prop}

theorem clearBit_length (bit : Nat) (bitmap : Bytes) :
    (clearBit bit bitmap).state.length = bitmap.length := by
  unfold clearBit
  rw [get_bind_run]
  split
  · rfl
  · split
    · exact length_writeBit bitmap bit false
    · rfl

section

variable (h : BlockInv ext fs P I)

include h

theorem note (m : Mutator) (event : MutatorEvent) (hm : I m) :
    I (m.note event) := h.blocks m _ rfl hm

section

variable (hP : ∀ block, AllocationBlock ext block → P block)

include hP

/-- Initialising a group keeps the invariant, -/
theorem ensure (group : Nat) : Preserves I (ensureBlockGroupInitialized ext fs group) := by
  unfold ensureBlockGroupInitialized
  split
  · exact .throw _
  rename_i gdp hdesc
  have hbitmap : P gdp.blockBitmap := hP _ ⟨group, gdp, hdesc, .inl rfl⟩
  have hgdt : P (groupDescSlot ext group).1 := hP _ ⟨group, gdp, hdesc, .inr (.inr rfl)⟩
  split
  · exact .pure _
  refine .bind .get fun m => ?_
  split
  · exact .pure _
  refine (h.seed _ _ hbitmap).bind fun _ => ?_
  refine (h.bitmap _ _ _ hbitmap (initialBitmap_length ext group gdp)).bind fun _ => ?_
  refine (h.patch _ _ _ hgdt ?_).bind fun _ => .modify fun m hm => h.blocks m _ rfl hm
  exact keepsSize_slot (groupDescSlot_fits ext group) (length_initDescriptor ext group gdp)

/-- so does marking its units, -/
theorem markGroupUnits (group bitStart count pblk : Nat) (alloc : Bool) :
    Preserves I (markGroupUnits ext fs group bitStart count pblk alloc) := by
  unfold Mutator.markGroupUnits
  split
  · exact .throw _
  rename_i gdp hdesc
  have hbitmap : P gdp.blockBitmap := hP _ ⟨group, gdp, hdesc, .inl rfl⟩
  refine (h.ensure hP group).bind fun _ => (h.seed _ _ hbitmap).bind fun _ => ?_
  refine (h.bitmap _ _ _ hbitmap fun bitmap =>
    (bitSet_markBitmapBits alloc bitStart count bitmap).1).bind fun changed => ?_
  refine (Preserves.modify fun m hm => h.blocks m _ ?_ hm).bind fun _ => .pure _
  unfold tallyUnits
  split <;> rfl

/-- Marking and allocating blocks. -/
theorem alloc : AllocInv ext fs I where
  ensure := h.ensure hP
  seed group gdp hdesc := h.seed _ _ (hP _ ⟨group, gdp, hdesc, .inl rfl⟩)
  units group bitStart count pblk alloc _ := h.markGroupUnits hP group bitStart count pblk alloc
  note := h.note

theorem clearInodeBitmapBit (inum : Nat) (wasDir : Bool) :
    Preserves I (clearInodeBitmapBit ext fs inum wasDir) := by
  unfold Mutator.clearInodeBitmapBit
  split
  · exact .throw _
  dsimp only
  split
  · exact .throw _
  rename_i gdp hdesc
  have hbitmap : P gdp.inodeBitmap := hP _ ⟨_, gdp, hdesc, .inr (.inl rfl)⟩
  refine (h.seed _ _ hbitmap).bind fun _ =>
    (h.bitmap _ _ _ hbitmap (clearBit_length _)).bind fun changed =>
      .modify fun m hm => h.blocks m _ ?_ hm
  unfold tallyInode
  split <;> rfl

/-- and so does freeing the runs of an inode. -/
theorem freeAllocations (inode : Nat) (runs : List AllocationRun) :
    Preserves I (freeAllocations ext fs inode runs) := by
  refine preserves_freeAllocations fun _ _ cluster block _ => ?_
  unfold freeCluster
  split
  · exact .throw _
  dsimp only
  split
  · exact .throw _
  split
  · exact .throw _
  rename_i gdp hdesc
  have hbitmap : P gdp.blockBitmap := hP _ ⟨_, gdp, hdesc, .inl rfl⟩
  refine (h.seed _ _ hbitmap).bind fun _ => ?_
  split
  · exact .throw _
  refine (h.bitmap _ _ _ hbitmap (clearBit_length _)).bind fun changed =>
    .modify fun m hm => h.blocks m _ ?_ hm
  unfold tallyCluster tallyUnits
  split
  · rfl
  · split <;> rfl

end

theorem patchInodeScratch (f : BytePatch)
    (hP : ∀ slot, inodeTableSlot ext inum = .ok slot → P slot.1) :
    Preserves I (patchInodeScratch ext fs inum f.run) := by
  refine closed_ofExcept_bind Preserves.closed fun slot hslot => ?_
  have hblock := hP slot hslot
  have hfits := inodeTableSlot_fits hslot
  obtain ⟨block, off, size⟩ := slot
  refine (h.patch _ _ _ hblock ?_).bind fun _ => .modify fun m hm => h.mutated m _ _ hblock hm
  intro content content' hlen hrun
  dsimp only at hrun hfits
  have hpart : (content.slice off size).length = size := by
    rw [length_slice]
    omega
  split at hrun
  · cases hrun
  rename_i bytes hf
  cases hrun
  have hbytes := f.length_run _ _ hf
  rw [length_splice (by omega), hlen]

theorem pruneInode (hP : ∀ slot, inodeTableSlot ext inum = .ok slot → P slot.1) :
    Preserves I (pruneInodeTableBlockIfUnchanged ext fs inum) := by
  intro m a t hm hrun
  have hkeeps : EStateM.Keeps (fun m t => I m → I t)
    (pruneInodeTableBlockIfUnchanged ext fs inum) :=
    keeps_prune ext fs (fun _ hm => hm) fun m slot _ _ hslot _ _ => h.erase m _ (hP slot hslot)
  exact hkeeps.of_ok hrun hm

end

end BlockInv

/-- The blocks that a call may change. -/
def MutatorOp.Touches (ext : Ext) (block : Nat) : MutatorOp → Prop
  | .patchInode inum _ | .pruneInode inum =>
    ∃ slot, inodeTableSlot ext inum = .ok slot ∧ slot.1 = block
  | .patchExtent b _ _ _ | .patchXattr b _ | .patchDirectory b _ _ _ | .writeDir b _ _ _ _
  | .patchOrphanFile b _ _ _ | .patchIndirect b _ => b = block
  | .clearInode _ _ | .freeAllocations _ _ | .mark _ _ _ | .allocate _ => AllocationBlock ext block

theorem BytePatch.keepsSize (f : BytePatch) (ext : Ext) : KeepsSize ext f.run :=
  fun content content' hlen h => (f.length_run content content' h).trans hlen

section

variable {ext : Ext} {fs : FsReader} {I : Mutator → Prop}

/-- An invariant of the scratch blocks that a call may change is one of the call. -/
theorem BlockInv.run {P : Nat → Prop} (h : BlockInv ext fs P I) {op : MutatorOp}
    (hP : ∀ block, op.Touches ext block → P block) : Preserves I (op.run ext fs) := by
  cases op with
  | patchInode inum f => exact h.patchInodeScratch f fun slot hslot => hP _ ⟨slot, hslot, rfl⟩
  | pruneInode inum =>
    exact (h.pruneInode fun slot hslot => hP _ ⟨slot, hslot, rfl⟩).bind fun _ => .pure _
  | patchExtent block inode generation f | patchXattr block f
  | patchDirectory block parent generation f =>
    exact h.patch _ _ _ (hP _ rfl) (f.keepsSize ext)
  | writeDir block parent generation index bytes =>
    unfold MutatorOp.run writeDirBlock
    refine h.patch block _ _ (hP _ rfl) ?_
    intro content content' hlen hrun
    dsimp only at hrun
    split at hrun
    · cases hrun
    · rename_i hsame
      cases hrun
      omega
  | patchOrphanFile block inode generation f | patchIndirect block f =>
    exact h.patch _ _ _ (hP _ rfl) (f.keepsSize ext)
  | clearInode inum wasDir => exact h.clearInodeBitmapBit hP inum wasDir
  | freeAllocations inode runs => exact h.freeAllocations hP inode runs
  | mark pblk blockLen alloc =>
    exact ((h.alloc hP).markBlockRangeState pblk blockLen alloc).bind fun _ => .pure _
  | allocate nearInum => exact ((h.alloc hP).allocateMetadataBlock nearInum).bind fun _ => .pure _

end

/-! ### Other blocks -/

/-- A successful change of a bitmap. -/
theorem onBitmap_ok {event : MutatorEvent} {f : EStateM MutatorError Bytes Nat}
    (h : onBitmap block event f m = .ok n m') : ∃ s content, m.blocks[block]? = some s ∧
      f s.content = .ok n content ∧
      m' = (m.note event).modifyBlock block fun t => { t with content } := by
  unfold onBitmap at h
  rw [get_bind_run] at h
  cases hs : m.blocks[block]? with
  | none =>
    rw [hs] at h
    cases h
  | some s =>
    rw [hs] at h
    dsimp only at h
    cases hf : f s.content with
    | error e content =>
      rw [hf] at h
      cases h
    | ok changed content =>
      rw [hf] at h
      cases h
      exact ⟨s, content, rfl, hf, rfl⟩

theorem eq_state_of_ok {x : MutatorM α} {a : α} (h : x m = .ok a m') : (x m).state = m' := by
  rw [h]
  rfl

/-- The scratch of a block that is not touched stays. -/
theorem otherInv (ext : Ext) (fs : FsReader) (block : Nat) (scratch : Option ScratchBlock) :
    BlockInv ext fs (· ≠ block) fun m => m.blocks[block]? = scratch where
  seed b cls hb m a t hm h := by
    rw [← eq_state_of_ok h]
    exact ((seedBlock_other ext fs b cls m).2 block (Ne.symm hb)).trans hm
  patch b cls f hb _ m a t hm h := by
    rw [← eq_state_of_ok h]
    exact ((patchBlock_state ext fs b cls f m).2 block (Ne.symm hb)).trans hm
  bitmap b event f hb _ m a t hm h := by
    obtain ⟨_, _, -, -, rfl⟩ := onBitmap_ok h
    exact (modifyBlock_of_ne _ _ (Ne.symm hb)).trans hm
  mutated m b inum hb hm := (modifyBlock_of_ne _ m (Ne.symm hb)).trans hm
  erase m b hb hm := by
    show (m.blocks.erase b)[block]? = scratch
    rw [getElem?_erase, if_neg (by simpa using hb)]
    exact hm
  blocks m m' heq hm := by
    rw [heq]
    exact hm

/-! ### Sizes -/

/-- The scratch blocks have the size of a block. -/
def Sized (ext : Ext) (m : Mutator) : Prop :=
  ∀ (block : Nat) (s : ScratchBlock), m.blocks[block]? = some s → s.content.length = ext.blockSize

theorem Sized.modifyBlock (h : Sized ext m) {f : ScratchBlock → ScratchBlock}
    (hf : ∀ s, m.blocks[block]? = some s → (f s).content.length = ext.blockSize) :
    Sized ext (m.modifyBlock block f) := by
  intro b s hs
  by_cases hb : b = block
  · rw [hb, modifyBlock_self] at hs
    obtain ⟨s', hs', rfl⟩ := Option.map_eq_some_iff.mp hs
    exact hf s' hs'
  · rw [modifyBlock_of_ne _ _ hb] at hs
    exact h b s hs

/-- A successful patch. -/
theorem patchBlock_ok {cls : BlockClass} {f : Bytes → Except MutatorError Bytes} {u : Unit}
    (h : patchBlock ext fs block cls f m = .ok u m') :
    ∃ s content, (m.blocks[block]? = some s ∨
        m.blocks[block]? = none ∧ s.cls = cls ∧ readBlock ext fs block = .ok s.content) ∧
      f s.content = .ok content ∧ m'.blocks[block]? = some { s with content } ∧
      m' = { m with blocks := m'.blocks, log := m.log ++ [.write block] } := by
  unfold patchBlock at h
  rw [modify_bind_run] at h
  obtain ⟨_, t, hseed, h⟩ := bind_eq_ok_iff.mp h
  rw [get_bind_run] at h
  cases hs : t.blocks[block]? with
  | none =>
    rw [hs] at h
    cases h
  | some s =>
    rw [hs] at h
    dsimp only at h
    cases hf : f s.content with
    | error e =>
      rw [hf] at h
      cases h
    | ok content =>
      rw [hf] at h
      cases h
      have hblock : (t.modifyBlock block fun s => { s with content }).blocks[block]? =
          some { s with content } := by rw [modifyBlock_self, hs]; rfl
      have hstate := eq_state_of_ok hseed
      rcases seedBlock_state ext fs block cls (m.note (.write block)) with
        heq | ⟨hnone, read, hread, heq⟩
      · rw [heq] at hstate
        subst hstate
        exact ⟨s, content, .inl hs, hf, hblock, rfl⟩
      rw [heq] at hstate
      subst hstate
      rw [getElem?_insert_self] at hs
      cases hs
      exact ⟨_, content, .inr ⟨hnone, rfl, hread⟩, hf, hblock, rfl⟩

/-- Every scratch block keeps the length of a block. -/
theorem sizedInv (ext : Ext) (fs : FsReader) : BlockInv ext fs (fun _ => True) (Sized ext) where
  seed block cls _ m a t hm h := by
    rw [← eq_state_of_ok h]
    rcases seedBlock_state ext fs block cls m with heq | ⟨_, content, hread, heq⟩
    · rw [heq]
      exact hm
    rw [heq]
    intro b s hs
    rw [getElem?_insert] at hs
    split at hs
    · cases hs
      exact readBlock_length ext fs hread
    · exact hm b s hs
  patch block cls f _ hsize m a t hm h := by
    obtain ⟨s, content, hs, hf, hblock, -⟩ := patchBlock_ok h
    have hlen : s.content.length = ext.blockSize := by
      rcases hs with hs | ⟨_, _, hread⟩
      · exact hm block s hs
      · exact readBlock_length ext fs hread
    intro b s' hs'
    by_cases hb : b = block
    · rw [hb, hblock] at hs'
      cases hs'
      exact hsize _ _ hlen hf
    · rw [← eq_state_of_ok h, (patchBlock_state ext fs block cls f m).2 b hb] at hs'
      exact hm b s' hs'
  bitmap block event f _ hlen m a t hm h := by
    obtain ⟨s, content, hs, hf, rfl⟩ := onBitmap_ok h
    refine Sized.modifyBlock (fun b t ht => hm b t ht) fun t _ => ?_
    have hkeep := hlen s.content
    rw [hf] at hkeep
    exact hkeep.trans (hm block s hs)
  mutated m block inum _ hm := hm.modifyBlock fun s hs => hm block s hs
  erase m block _ hm b s hs := by
    rw [getElem?_erase] at hs
    split at hs
    · cases hs
    · exact hm b s hs
  blocks m m' heq hm b s hs := hm b s (heq ▸ hs)

end Fsmnt.FsExt
