import Fsmnt.Spec.FsExt.BitmapLog

/-!
# Finalizing a mutator

`finalize` writes the descriptor blocks of the dirty groups. Any other block goes into the delta as
it is in scratch, with the checksum of its class.
-/

namespace Fsmnt.FsExt

open EStateM List Mutator Std

variable (ext : Ext) {delta : OrphanOverlayDelta} {block : Nat} {m : Mutator} {fs : FsReader}

/-- The descriptor blocks that `finalize` writes. -/
def Mutator.gdtWrites (groups : List Nat) : List MutatorEvent :=
  groups.map fun group => .write (groupDescSlot ext group).1

/-- The log of a mutator after its `finalize`. -/
def Mutator.finalLog (m : Mutator) : List MutatorEvent :=
  m.log ++ gdtWrites ext m.dirtyGroups.toList

/-- A descriptor block is written for every group, and nothing else is. -/
theorem materializeTallies_ok (fs : FsReader) (groups : List Nat) {m' : Mutator} {u : Unit}
    (h : materializeTallies ext fs groups m = .ok u m') :
    m'.log = m.log ++ gdtWrites ext groups ∧
    ∀ block, .write block ∉ gdtWrites ext groups → m'.blocks[block]? = m.blocks[block]? := by
  induction groups generalizing m with
  | nil =>
    rw [materializeTallies, pure_eq_ok_iff] at h
    rw [← h.2]
    exact ⟨by simp [gdtWrites], fun _ _ => rfl⟩
  | cons group rest ih =>
    rw [materializeTallies] at h
    dsimp only at h
    rw [get_bind_run] at h
    obtain ⟨_, t, hpatch, h⟩ := bind_eq_ok_iff.mp h
    obtain ⟨hlog, hblocks⟩ := ih h
    obtain ⟨hlog₁, hblocks₁⟩ := patchBlock_state ext fs (groupDescSlot ext group).1 _ _ m
    rw [hpatch] at hlog₁ hblocks₁
    refine ⟨?_, fun block hblock => ?_⟩
    · rw [hlog, show t.log = _ from hlog₁, append_assoc]
      rfl
    · rw [gdtWrites, map_cons, mem_cons, not_or] at hblock
      rw [hblocks block hblock.2]
      exact hblocks₁ block (fun heq => hblock.1 (by rw [heq]))

/-- The class of a block stays. -/
theorem recomputeBlock_cls [Crc] (seed : UInt32) (block : Nat) (s : ScratchBlock) :
    (recomputeBlock ext seed block s).cls = s.cls := by
  unfold recomputeBlock
  dsimp only
  split <;> first | rfl | skip
  split <;> rfl

/-- Recomputing checksums changes a block that holds no descriptors by its class only. -/
theorem recomputeChecksums_block [Crc] (m : Mutator) (dirty : TreeSet Nat)
    (hcls : ∀ s, m.blocks[block]? = some s → ∀ n, s.cls ≠ .groupDescriptor n)
    (hne : ∀ g ∈ dirty.toList, (groupDescSlot ext g).1 ≠ block) :
    (recomputeChecksums ext m dirty).blocks[block]? =
      if ext.hasMetadataCsum then
        (m.blocks[block]?).map (recomputeBlock ext (ext.checksumSeed.getD 0) block)
      else m.blocks[block]? := by
  have hpropagate : ∀ seed (m : Mutator), (dirty.toList.foldl (propagateBitmapCsums ext seed)
      m).blocks[block]? = m.blocks[block]? := by
    intro seed m
    refine foldlRecOn (motive := fun t : Mutator => t.blocks[block]? = m.blocks[block]?) _ _ rfl
      fun t ht g hg => ?_
    unfold propagateBitmapCsums
    dsimp only
    split
    · exact ht
    · exact (modifyBlock_of_ne _ t (Ne.symm (hne g hg))).trans ht
  have hgdt : ∀ s : ScratchBlock, (∀ n, s.cls ≠ .groupDescriptor n) →
      recomputeGdtBlock ext dirty s = s := by
    intro s hs
    unfold recomputeGdtBlock
    split
    · rename_i n hn
      exact absurd hn (hs n)
    · rfl
  unfold recomputeChecksums
  rw [TreeMap.getElem?_map]
  split
  · rw [hpropagate]
    show ((m.blocks.map _)[block]?).map _ = _
    rw [TreeMap.getElem?_map]
    cases hs : m.blocks[block]? with
    | none => rfl
    | some s =>
      refine congrArg some (hgdt _ fun n => ?_)
      rw [recomputeBlock_cls]
      exact hcls s hs n
  · cases hs : m.blocks[block]? with
    | none => rfl
    | some s => exact congrArg some (hgdt s (hcls s hs))

/-- What the delta holds of a block that holds no descriptors of a dirty group. -/
theorem finalize_block [Crc]
    (hcls : ∀ s, m.blocks[block]? = some s → ∀ n, s.cls ≠ .groupDescriptor n)
    (hne : ∀ g ∈ m.dirtyGroups.toList, (groupDescSlot ext g).1 ≠ block)
    (h : m.finalize ext fs = .ok delta) : delta.blocks[block]? =
      (if ext.hasMetadataCsum then
        (m.blocks[block]?).map (recomputeBlock ext (ext.checksumSeed.getD 0) block)
      else m.blocks[block]?).map (·.content) := by
  unfold finalize at h
  dsimp only at h
  split at h
  · cases h
  rename_i m' hmat
  obtain ⟨_, hblocks⟩ := materializeTallies_ok ext fs _ hmat
  have hsame : m'.blocks[block]? = m.blocks[block]? := by
    refine hblocks block fun hmem => ?_
    obtain ⟨g, hg, heq⟩ := mem_map.mp hmem
    injection heq with heq
    exact hne g hg heq
  injection h with h
  rw [← h]
  show (TreeMap.map _ _)[block]? = _
  rw [TreeMap.getElem?_map, recomputeChecksums_block ext m' m.dirtyGroups
    (fun s hs => hcls s (hsame ▸ hs)) hne, hsame]

/-- The delta holds a bitmap as the mutator left it. -/
theorem finalize_bitmap [Crc]
    (hcls : ∀ s, m.blocks[block]? = some s → ∃ g, s.cls = .blockBitmap g ∨ s.cls = .inodeBitmap g)
    (hne : ∀ g ∈ m.dirtyGroups.toList, (groupDescSlot ext g).1 ≠ block)
    (h : m.finalize ext fs = .ok delta) :
    delta.blocks[block]? = (m.blocks[block]?).map (·.content) := by
  rw [finalize_block ext (fun s hs n hn => ?_) hne h]
  · split
    · cases hs : m.blocks[block]? with
      | none => rfl
      | some s => obtain ⟨g, hg | hg⟩ := hcls s hs <;> simp [recomputeBlock, hg]
    · rfl
  · obtain ⟨g, hg | hg⟩ := hcls s hs <;> rw [hg] at hn <;> cases hn

end Fsmnt.FsExt
