import Fsmnt.Spec.FsExt.BitmapPersistence
import Fsmnt.Spec.FsExt.MutatorRun

/-!
# Checksums of finalized blocks

`finalize` stamps a block by its class, which the first patch in the mutator decides, while the
content is that of the last one. The two belong together as long as a block is patched for one
structure and one owner only.
-/

namespace Fsmnt.FsExt

open Bytes List Mutator UInt32 BlockOwner MutatorOp

variable {content : Bytes} {s : ScratchBlock} {inode generation tail : Nat} {owner : BlockOwner}

section Owners

variable [Crc] {src : Bytes} (seed : UInt32) (ext : Ext)

/-- A block verifies for its owner: where the structure has a checksum, it is the right one. -/
def BlockOwner.Verifies (seed : UInt32) (block : Nat) (content : Bytes) : BlockOwner → Prop
  | .extentTree inode generation => verifyExtentBlock seed inode generation content ≠ .invalid
  | .xattr => verifyXattrBlock seed block content ≠ .invalid
  | .dirLeaf inode generation =>
    (directoryTailOffset content).isSome → verifyDirBlock seed inode generation content = .valid
  | .dirIndex inode generation countLimitOff count limit =>
    verifyDxTail seed inode generation content countLimitOff count limit ≠ .invalid

omit [Crc] in
/-- The bytes of the checksum that `finalize` computes. -/
def BlockOwner.IsCsum (content : Bytes) (i : Nat) : BlockOwner → Prop
  | .extentTree _ _ => 12 + content.le16 4 * 12 ≤ i ∧ i < 12 + content.le16 4 * 12 + 4
  | .xattr => 0x10 ≤ i ∧ i < 0x14
  | .dirLeaf _ _ | .dirIndex _ _ _ _ _ => False

/-! ### Stamps -/

omit [Crc] in
theorem slice_splice_before {off i n : Nat} (h : off + src.length ≤ content.length)
    (hi : i + n ≤ off) : (content.splice off src).slice i n = content.slice i n :=
  slice_splice_of_disjoint h (.inl hi)

/-- The checksum of an extent block does not depend on its tail. -/
theorem extentTailCrc_splice (inode generation : Nat) (hsrc : src.length = 4)
    (h : tail + 4 ≤ content.length) :
    extentTailCrc seed inode generation (content.splice tail src) tail =
      extentTailCrc seed inode generation content tail := by
  have hfits : tail + src.length ≤ content.length := by omega
  have hdrop := drop_splice hfits
  rw [hsrc] at hdrop
  unfold extentTailCrc
  rw [slice_splice_before hfits (by omega), length_splice hfits, hdrop]

/-- The stamp of an extent block verifies for the owners that have the same checksum. -/
theorem verifyExtentBlock_recomputeBlock (seed : UInt32) (block : Nat)
    (hcls : s.cls = .extentBlock inode generation)
    (hfits : 12 + s.content.le16 4 * 12 + 4 ≤ s.content.length) (inode' generation' : Nat) :
    verifyExtentBlock seed inode' generation' (recomputeBlock ext seed block s).content =
      if extentTailCrc seed inode' generation' s.content (12 + s.content.le16 4 * 12) =
          extentTailCrc seed inode generation s.content (12 + s.content.le16 4 * 12) then .valid
      else .invalid := by
  have hbytes : ∀ crc : UInt32, (toLE 4 crc.toNat).length = 4 :=
    fun crc => length_toLE 4 _
  have hroom : ∀ crc : UInt32, 12 + s.content.le16 4 * 12 + (toLE 4 crc.toNat).length ≤
      s.content.length := fun crc => by rw [hbytes]; exact hfits
  have hmax : ∀ crc : UInt32, (s.content.splice (12 + s.content.le16 4 * 12)
      (toLE 4 crc.toNat)).le16 4 = s.content.le16 4 := fun crc =>
    congrArg ofLE (slice_splice_before (hroom crc) (by omega))
  unfold recomputeBlock
  rw [hcls]
  dsimp only
  rw [if_pos hfits, computeExtentBlockCsum, if_neg (by omega), if_neg (by omega)]
  rw [verifyExtentBlock, length_splice (hroom _), if_neg (by omega), hmax]
  rw [if_neg (by omega), extentTailCrc_splice _ _ _ (hbytes _) hfits,
    le32_splice_self hfits (toNat_lt _)]
  simp only [UInt32.toNat_inj]

/-- The stamp of an extent block verifies. -/
theorem recomputeBlock_extent (seed : UInt32) (block : Nat)
    (hcls : s.cls = .extentBlock inode generation) :
    let final := (recomputeBlock ext seed block s).content
    (extentTree inode generation).Verifies seed block final ∧ final.length = s.content.length ∧
      ∀ i, ¬(extentTree inode generation).IsCsum s.content i → final[i]? = s.content[i]? := by
  by_cases hfits : 12 + s.content.le16 4 * 12 + 4 ≤ s.content.length
  · have hverify := verifyExtentBlock_recomputeBlock ext seed block hcls hfits inode generation
    rw [if_pos rfl] at hverify
    refine ⟨fun hinvalid => ?_, ?_⟩
    · rw [hverify] at hinvalid
      cases hinvalid
    · have hroom : ∀ crc : UInt32, 12 + s.content.le16 4 * 12 +
          (toLE 4 crc.toNat).length ≤ s.content.length := fun crc => by
        exact hfits
      unfold recomputeBlock
      rw [hcls]
      dsimp only
      rw [if_pos hfits]
      refine ⟨length_splice (hroom _), fun i hi => ?_⟩
      rw [getElem?_splice (hroom _)]
      exact if_neg hi
  · -- There is no room for a tail, so the block has no checksum.
    unfold recomputeBlock
    rw [hcls]
    dsimp only
    rw [if_neg hfits]
    refine ⟨?_, rfl, fun i _ => rfl⟩
    dsimp only [BlockOwner.Verifies]
    unfold verifyExtentBlock
    split
    · decide
    · dsimp only
      rw [if_pos (by omega)]
      decide

/-- The stamp of an xattr block verifies. -/
theorem recomputeBlock_xattr (seed : UInt32) (block : Nat) (hcls : s.cls = .xattrBlock)
    (hlen : 32 ≤ s.content.length) : let final := (recomputeBlock ext seed block s).content
    xattr.Verifies seed block final ∧ final.length = s.content.length ∧
      ∀ i, ¬xattr.IsCsum s.content i → final[i]? = s.content[i]? := by
  have hzero : 0x10 + (replicate 4 (0 : UInt8)).length ≤ s.content.length := by
    rw [length_replicate]
    omega
  have hbytes : ∀ crc : UInt32, (toLE 4 crc.toNat).length = 4 :=
    fun crc => length_toLE 4 _
  have hclear := length_splice hzero
  have hroom : ∀ crc : UInt32, 0x10 + (toLE 4 crc.toNat).length ≤
      (s.content.splice 0x10 (replicate 4 0)).length := fun crc => by
    rw [hbytes]
    omega
  unfold recomputeBlock
  rw [hcls]
  refine ⟨?_, (length_splice (hroom _)).trans hclear, fun i hi => ?_⟩
  · -- The checksum steps over its own field.
    have hself : ∀ crc : UInt32, computeXattrBlockCsum seed block
        ((s.content.splice 0x10 (replicate 4 0)).splice 0x10 (toLE 4 crc.toNat)) =
        computeXattrBlockCsum seed block (s.content.splice 0x10 (replicate 4 0)) := by
      intro crc
      have hdrop := drop_splice (hroom crc)
      rw [hbytes] at hdrop
      unfold computeXattrBlockCsum
      rw [slice_splice_before (hroom crc) (by omega), hdrop]
    dsimp only [BlockOwner.Verifies]
    unfold verifyXattrBlock
    rw [length_splice (hroom _), hclear, if_neg (by omega), hself,
      le32_splice_self (by rw [hclear]; omega) (toNat_lt _), if_pos rfl]
    decide
  · have hout : ¬(0x10 ≤ i ∧ i < 0x10 + 4) := hi
    rw [getElem?_splice (hroom _), hbytes, if_neg hout,
      getElem?_splice hzero, length_replicate, if_neg hout]

omit [Crc] in
/-- Where a directory block has its tail. -/
theorem directoryTailOffset_eq_some {content : Bytes} {tail : Nat}
    (h : directoryTailOffset content = some tail) :
    tail + 12 = content.length ∧ content.getD (tail + 7) 0 = 0xDE := by
  unfold directoryTailOffset at h
  split at h
  · dsimp only at h
    split at h
    · rename_i hlen htail
      cases h
      exact ⟨by omega, htail.2.2.2⟩
    · cases h
  · cases h

theorem length_refreshDirTailChecksum (seed : Option UInt32) (inum generation : Nat)
    (block : Bytes) :
    (refreshDirTailChecksum seed inum generation block).length = block.length := by
  unfold refreshDirTailChecksum
  split
  · rename_i tail htail
    have hoff := (directoryTailOffset_eq_some htail).1
    exact length_splice (by rw [length_toLE]; omega)
  · rfl

/-- The tail of a directory block is refreshed for its owner. -/
theorem refreshDirTailChecksum_verifies (inode generation block : Nat) (content : Bytes) :
    (dirLeaf inode generation).Verifies seed block
      (refreshDirTailChecksum (some seed) inode generation content) := by
  intro hsome
  have hlen := length_refreshDirTailChecksum (some seed) inode generation content
  unfold refreshDirTailChecksum at hsome hlen ⊢
  cases htail : directoryTailOffset content with
  | none =>
    rw [htail] at hsome
    rw [htail] at hsome
    cases hsome
  | some tail =>
    obtain ⟨hend, hmagic⟩ := directoryTailOffset_eq_some htail
    rw [htail] at hlen
    have hroom : ∀ crc : UInt32,
        tail + 8 + (toLE 4 crc.toNat).length ≤ content.length := fun crc => by
      rw [length_toLE]
      omega
    have hbyte : ∀ crc : UInt32,
        (content.splice (tail + 8) (toLE 4 crc.toNat)).getD (tail + 7) 0 = 0xDE := fun crc => by
      rw [getD_eq_getElem?_getD, getElem?_splice (hroom _), if_neg (by omega),
        ← getD_eq_getElem?_getD, hmagic]
    rw [verifyDirBlock, hlen, if_neg (by omega)]
    dsimp only
    rw [show content.length - 12 = tail by omega, hbyte, if_neg (by simp),
      slice_splice_before (hroom _) (by omega),
      le32_splice_self (by omega) (toNat_lt _), if_pos rfl]

/-! ### The last owner -/

/-- The block that a call patches, and what the caller takes it for. -/
def MutatorOp.patched : MutatorOp → Option (Nat × BlockOwner)
  | .patchExtent block inode generation _ => some (block, .extentTree inode generation)
  | .patchXattr block _ => some (block, .xattr)
  | .patchDirectory block parent generation _ => some (block, .dirLeaf parent generation)
  | .writeDir block parent generation index _ => some (block, .ofDir parent generation index)
  | _ => none

omit [Crc] in
/-- A class under which `finalize` does for a block what its owner needs. -/
def BlockOwner.Fits (cls : BlockClass) : BlockOwner → Prop
  | .extentTree inode generation => cls = .extentBlock inode generation
  | .xattr => cls = .xattrBlock
  | .dirLeaf _ _ | .dirIndex _ _ _ _ _ => ∃ block parent, cls = .directoryBlock block parent

section Run

variable (ext : Ext) (fs : FsReader) (seed : UInt32) (host : Bytes)

/-- Every extent-tree, xattr and directory block of the delta verifies for the structure and the
    owner that wrote it last, and holds the bytes that were written last beside the checksum. -/
def VerifiesForLastOwner (ops : List MutatorOp) : Prop :=
  ∀ pre op post block owner written m delta, ops = pre ++ op :: post →
    op.patched = some (block, owner) → (∀ later ∈ post, ¬later.Touches ext block) →
    runOps ext fs (pre ++ [op]) (new host) = .ok () written →
    runOps ext fs post written = .ok () m → m.finalize ext fs = .ok delta →
    ∃ s final, written.blocks[block]? = some s ∧ delta.blocks[block]? = some final ∧
      owner.Verifies seed block final ∧ final.length = s.content.length ∧
      ∀ i, ¬owner.IsCsum s.content i → final[i]? = s.content[i]?

/-- What `write_dir_block` is given and what an edit of `patch_directory_block` leaves carries its
    checksum. -/
def MutatorOp.Stamped : MutatorOp → Prop
  | .patchDirectory block parent generation f => ∀ content edited, f.run content = .ok edited →
    (dirLeaf parent generation).Verifies seed block edited
  | .writeDir block parent generation index bytes =>
    (ofDir parent generation index).Verifies seed block bytes
  | _ => True

/-- Every patch of a block that is already in scratch is for the class that the block has there, and
    the descriptor blocks are not held under another class. -/
structure OneOwner (ops : List MutatorOp) : Prop where
  stamped : ∀ op ∈ ops, op.Stamped seed
  patch : ∀ pre op post block owner m, ops = pre ++ op :: post →
    op.patched = some (block, owner) → runOps ext fs pre (new host) = .ok () m →
    ∀ s, m.blocks[block]? = some s → owner.Fits s.cls
  descriptors : ∀ m, runOps ext fs ops (new host) = .ok () m →
    ∀ group ∈ m.dirtyGroups.toList, ∀ s, m.blocks[(groupDescSlot ext group).1]? = some s →
      ∃ n, s.cls = .groupDescriptor n

end Run

section Proof

variable {ext : Ext} {fs : FsReader} {seed : UInt32} {host : Bytes}

/-- An edit that ends with `refresh_dir_tail_checksum`, as those of `directory.rs` do. -/
def BytePatch.refreshed (f : BytePatch) (seed : UInt32) (parent generation : Nat) : BytePatch where
  run content := (f.run content).map (refreshDirTailChecksum (some seed) parent generation)
  length_run content edited h := by
    obtain ⟨mid, hmid, rfl⟩ := Except.map_eq_ok_iff.mp h
    rw [length_refreshDirTailChecksum, f.length_run _ _ hmid]

theorem stamped_refreshed (block parent generation : Nat) (f : BytePatch) :
    (MutatorOp.patchDirectory block parent generation
      (f.refreshed seed parent generation)).Stamped seed := by
  intro content edited h
  obtain ⟨mid, -, rfl⟩ := Except.map_eq_ok_iff.mp h
  exact refreshDirTailChecksum_verifies seed parent generation block mid

/-- A patch: the block has the class that fits, or the one that it had; blocks of a directory are
    written with their checksum. -/
theorem patched_run {op : MutatorOp} {block : Nat}
    (hop : op.patched = some (block, owner)) (hstamp : op.Stamped seed) {m m' : Mutator}
    (h : op.run ext fs m = .ok () m') :
    ∃ s content, (m.blocks[block]? = some s ∨ owner.Fits s.cls) ∧
      m'.blocks[block]? = some { s with content } ∧
      ((∃ b p, owner.Fits (.directoryBlock b p)) → owner.Verifies seed block content) := by
  cases op with
  | patchExtent b inode generation f | patchXattr b f =>
    cases hop
    obtain ⟨s, content, hs, -, hblock, -⟩ := patchBlock_ok h
    refine ⟨s, content, hs.imp_right fun hnew => hnew.2.1, hblock, ?_⟩
    rintro ⟨_, _, hfits⟩
    cases hfits
  | patchDirectory b parent generation f =>
    cases hop
    obtain ⟨s, content, hs, hf, hblock, -⟩ := patchBlock_ok h
    exact ⟨s, content, hs.imp_right fun hnew => ⟨block, parent, hnew.2.1⟩, hblock,
      fun _ => hstamp s.content content hf⟩
  | writeDir b parent generation index bytes =>
    cases hop
    unfold MutatorOp.run writeDirBlock at h
    obtain ⟨s, content, hs, hf, hblock, -⟩ := patchBlock_ok h
    refine ⟨s, content, hs.imp_right fun hnew => ?_, hblock, fun _ => ?_⟩
    · rw [hnew.2.1]
      cases index <;> exact ⟨block, parent, rfl⟩
    · split at hf
      · cases hf
      · cases hf
        exact hstamp
  | _ => cases hop

/-- The stamp of a class that fits. -/
theorem recomputeBlock_fits (block : Nat) (hfits : owner.Fits s.cls)
    (hlen : s.content.length = ext.blockSize)
    (hdir : (∃ b p, owner.Fits (.directoryBlock b p)) → owner.Verifies seed block s.content) :
    let final := (recomputeBlock ext seed block s).content
    owner.Verifies seed block final ∧ final.length = s.content.length ∧
      ∀ i, ¬owner.IsCsum s.content i → final[i]? = s.content[i]? := by
  have hsize := ext.blockSize_ge
  have hkept : (∃ b p, s.cls = .directoryBlock b p) → recomputeBlock ext seed block s = s := by
    rintro ⟨b, p, hcls⟩
    unfold recomputeBlock
    rw [hcls]
  cases owner with
  | extentTree inode generation => exact recomputeBlock_extent ext seed block hfits
  | xattr => exact recomputeBlock_xattr ext seed block hfits (by omega)
  | dirLeaf inode generation | dirIndex inode generation countLimitOff count limit =>
    rw [hkept hfits]
    exact ⟨hdir ⟨0, 0, 0, 0, rfl⟩, rfl, fun i _ => rfl⟩

omit [Crc] in
theorem BlockOwner.Fits.not_descriptor {cls : BlockClass} (h : owner.Fits cls) (n : Nat) :
    cls ≠ .groupDescriptor n := by
  rintro rfl
  cases owner with
  | extentTree inode generation | xattr => cases h
  | dirLeaf inode generation | dirIndex inode generation countLimitOff count limit =>
    obtain ⟨_, _, h⟩ := h
    cases h

/-- In every run in which a block is patched for one structure and one owner only, the finalized
    blocks verify for the owner that wrote them last. -/
theorem finalized_for_last_owner (ext : Ext) (fs : FsReader) (seed : UInt32) (host : Bytes)
    (hcsum : ext.hasMetadataCsum = true) (hseed : ext.checksumSeed = some seed)
    (ops : List MutatorOp) (h : OneOwner ext fs seed host ops) :
    VerifiesForLastOwner ext fs seed host ops := by
  intro pre op post block owner written m delta hops hop hlater hrun hpost hfinal
  have hsized : Sized ext written := by
    refine preserves_runOps (fun o _ => (sizedInv ext fs).run fun _ _ => trivial) _ _ _ ?_ hrun
    intro b s hs
    change (∅ : Std.TreeMap Nat ScratchBlock)[b]? = some s at hs
    simp at hs
  obtain ⟨m₀, hpre, hlast⟩ := runOps_append.mp hrun
  obtain ⟨⟨⟩, _, hoprun, hnil⟩ := EStateM.bind_eq_ok_iff.mp hlast
  cases hnil
  obtain ⟨s, content, hs, hblock, hdir⟩ := patched_run hop
    (h.stamped op (by rw [hops]; simp)) hoprun
  have hfits : owner.Fits s.cls := hs.elim (h.patch pre op post block owner m₀ hops hop hpre s) id
  have hsame : m.blocks[block]? = some { s with content } :=
    preserves_runOps (fun o ho => (otherInv ext fs block _).run fun b hb heq =>
      hlater o ho (heq ▸ hb)) _ _ _ hblock hpost
  have hall : runOps ext fs ops (new host) = .ok () m := by
    rw [hops, show pre ++ op :: post = (pre ++ [op]) ++ post by simp]
    exact runOps_append.mpr ⟨written, hrun, hpost⟩
  have hdelta := finalize_block ext (fun t ht n => by
      rw [hsame] at ht
      cases ht
      exact hfits.not_descriptor n) (fun g hg heq => by
      obtain ⟨n, hn⟩ := h.descriptors m hall g hg { s with content } (by rw [heq]; exact hsame)
      exact hfits.not_descriptor n hn) hfinal
  rw [hcsum, if_pos rfl, hsame, hseed] at hdelta
  exact ⟨{ s with content }, _, hblock, hdelta, recomputeBlock_fits block hfits
    (hsized block _ hblock) hdir⟩

end Proof

end Owners

/-! ### Concrete runs -/

section

/-- A shift of CRC-32C can be undone. -/
theorem crcShift_injective {a b : UInt32}
    (h : (if a &&& 1 = 0 then a >>> 1 else (a >>> 1) ^^^ 0x82F63B78) =
      (if b &&& 1 = 0 then b >>> 1 else (b >>> 1) ^^^ 0x82F63B78)) : a = b := by
  have hhalf : ∀ c : UInt32, (c >>> 1).toNat = c.toNat / 2 := fun c => by
    rw [UInt32.toNat_shiftRight]
    rfl
  have hlow : ∀ c : UInt32, (c &&& 1 = 0) ↔ c.toNat % 2 = 0 := fun c => by
    rw [← UInt32.toNat_inj, UInt32.toNat_and]
    show c.toNat &&& 1 = 0 ↔ _
    rw [Nat.and_one_is_mod]
  -- The polynomial has the top bit, which a shift clears.
  have htop : ∀ c d : UInt32, c >>> 1 ≠ (d >>> 1) ^^^ 0x82F63B78 := by
    intro c d heq
    have hbit := congrArg (fun x : UInt32 => x.toNat.testBit 31) heq
    rw [UInt32.toNat_xor, Nat.testBit_xor, hhalf, hhalf,
      Nat.testBit_lt_two_pow (show c.toNat / 2 < 2 ^ 31 by have := c.toNat_lt; omega),
      Nat.testBit_lt_two_pow (show d.toNat / 2 < 2 ^ 31 by have := d.toNat_lt; omega)] at hbit
    exact absurd hbit (by decide)
  have hparts : a >>> 1 = b >>> 1 ∧ (a &&& 1 = 0 ↔ b &&& 1 = 0) := by
    split at h
    · split at h
      · rename_i h₁ h₂
        exact ⟨h, iff_of_true h₁ h₂⟩
      · exact absurd h (htop a b)
    split at h
    · exact absurd h.symm (htop b a)
    · rename_i h₁ h₂
      exact ⟨(xor_left_inj _).mp h, iff_of_false h₁ h₂⟩
  have hdiv := congrArg toNat hparts.1
  rw [hhalf, hhalf] at hdiv
  have hmod := hparts.2
  rw [hlow, hlow] at hmod
  apply UInt32.toNat_inj.mp
  omega

/-- From different values the same data lead to different checksums. -/
theorem foldl_crcByte_ne {data : Bytes} {a b : UInt32} (h : a ≠ b) :
    data.foldl (crcByte 0x82F63B78) a ≠ data.foldl (crcByte 0x82F63B78) b := by
  refine foldl_rel (r := (· ≠ ·)) h fun x _ c d hcd => ?_
  -- Each of the eight shifts keeps the two apart.
  exact foldl_rel (r := (· ≠ ·)) (fun heq => hcd ((xor_left_inj _).mp heq)) fun _ _ c d hcd heq =>
    hcd (crcShift_injective heq)

attribute [local instance] Crc.standard

/-- The checksums of one extent block for two owners differ if those of the owners do. -/
theorem extentTailCrc_ne {seed : UInt32} {inode' generation' : Nat}
    (h : inodeCrcPrefix seed inode generation ≠ inodeCrcPrefix seed inode' generation') :
    extentTailCrc seed inode generation content tail ≠
      extentTailCrc seed inode' generation' content tail := by
  have hstep : ∀ (a b : UInt32) (data : Bytes), a ≠ b → ext4Crc32c a data ≠ ext4Crc32c b data := by
    intro a b data hab
    show ~~~(~~~data.foldl (crcByte 0x82F63B78) (~~~(~~~a))) ≠
      ~~~(~~~data.foldl (crcByte 0x82F63B78) (~~~(~~~b)))
    rw [UInt32.not_not, UInt32.not_not, UInt32.not_not, UInt32.not_not]
    exact foldl_crcByte_ne hab
  unfold extentTailCrc
  split
  · exact hstep _ _ _ (hstep _ _ _ (hstep _ _ _ h))
  · exact hstep _ _ _ (hstep _ _ _ h)

/-- Two groups with `METADATA_CSUM`. -/
def csumGroups : Ext := { twoGroups 0 with hasMetadataCsum := true, checksumSeed := some 0x5EED }

/-- An empty leaf of an extent tree. -/
def emptyLeaf : Bytes := (toLE 2 0xF30A ++ toLE 2 0 ++ toLE 2 84) ++ zeros 1018

/-- Write a whole block. -/
def writeAll (bytes : Bytes) : BytePatch where
  run content := if content.length = bytes.length then .ok bytes else .error (.ext .panicked)
  length_run content content' h := by
    split at h
    · rename_i hlen
      cases h
      exact hlen.symm
    · cases h

/-- A block of the extent tree of inode 12 is freed and allocated again for inode 13. -/
def reuseBlock : List MutatorOp :=
  [.patchExtent 40 12 7 (writeAll emptyLeaf), .mark 40 1 false, .allocate 13,
    .patchExtent 40 13 9 (writeAll emptyLeaf)]

/-- What a run leaves of a block, if `finalize` will succeed and not write the block. -/
def leftover (ops : List MutatorOp) (block : Nat) : Option (BlockClass × Bytes) :=
  match runOps csumGroups twoGroupsDevice ops (new (zeros 1024)) with
  | .error _ _ => none
  | .ok _ m =>
    if m.dirtyGroups.toList.all fun g => (groupDescSlot csumGroups g).1 != block then
      match materializeTallies csumGroups twoGroupsDevice m.dirtyGroups.toList m with
      | .error _ _ => none
      | .ok _ _ => (m.blocks[block]?).map fun s => (s.cls, s.content)
    else none

/-- `finalize` stamps what a run leaves of a block for the class that it has. -/
theorem finalize_of_leftover {ops : List MutatorOp} {block : Nat}
    (h : leftover ops block = some (.extentBlock inode generation, content)) :
    ∃ m delta, runOps csumGroups twoGroupsDevice ops (new (zeros 1024)) = .ok () m ∧
      m.finalize csumGroups twoGroupsDevice = .ok delta ∧
      ∃ s : ScratchBlock, s.cls = .extentBlock inode generation ∧ s.content = content ∧
        delta.blocks[block]? = some (recomputeBlock csumGroups 0x5EED block s).content := by
  unfold leftover at h
  split at h
  · cases h
  rename_i u m hrun
  split at h
  · rename_i hgroups
    split at h
    · cases h
    rename_i hmat
    obtain ⟨s, hs, heq⟩ := Option.map_eq_some_iff.mp h
    injection heq with hcls hcontent
    have hfin : ∃ delta, m.finalize csumGroups twoGroupsDevice = .ok delta := by
      unfold finalize
      dsimp only
      rw [hmat]
      exact ⟨_, rfl⟩
    obtain ⟨delta, hdelta⟩ := hfin
    refine ⟨m, delta, hrun, hdelta, s, hcls, hcontent, ?_⟩
    rw [finalize_block csumGroups (fun s' hs' n => ?_) (fun g hg => ?_) hdelta, hs]
    · rfl
    · rw [hs] at hs'
      cases hs'
      rw [hcls]
      exact fun hne => nomatch hne
    · exact bne_iff_ne.mp (all_eq_true.mp hgroups g hg)
  · cases h

/-- The block verifies for inode 12, whose class it still has, and not for inode 13. -/
theorem not_finalized_for_last_owner : ¬VerifiesForLastOwner csumGroups twoGroupsDevice 0x5EED
    (zeros 1024) reuseBlock := by
  intro h
  obtain ⟨m, delta, hrun, hfin, s, hcls, hcontent, hblock⟩ := finalize_of_leftover
    (show leftover reuseBlock 40 = some (.extentBlock 12 7, emptyLeaf) by decide +kernel)
  obtain ⟨_, final, -, hfinal, hverifies, -⟩ := h (reuseBlock.take 3)
    (.patchExtent 40 13 9 (writeAll emptyLeaf)) [] 40 (.extentTree 13 9) m m delta rfl rfl
    (fun _ hmem => nomatch hmem) hrun rfl hfin
  rw [hfinal] at hblock
  cases hblock
  have hfits : 12 + s.content.le16 4 * 12 + 4 ≤ s.content.length := by
    rw [hcontent]
    decide +kernel
  refine hverifies ?_
  rw [verifyExtentBlock_recomputeBlock _ _ _ hcls hfits]
  exact if_neg (extentTailCrc_ne (by decide +kernel))

/-- The block is patched twice for inode 12. -/
def patchTwice : List MutatorOp :=
  [.patchExtent 40 12 7 (writeAll emptyLeaf), .patchExtent 40 12 7 (writeAll emptyLeaf)]

theorem oneOwner_patchTwice :
    OneOwner csumGroups twoGroupsDevice 0x5EED (zeros 1024) patchTwice where
  stamped op hop := by
    obtain rfl | hop := mem_cons.mp hop
    · trivial
    · rw [mem_singleton.mp hop]
      trivial
  patch pre op post block owner m hops hpatched hrun s hs := by
    match pre, hops with
    | [], hops =>
      cases hrun
      cases hs
    | [first], hops =>
      cases hops
      cases hpatched
      obtain ⟨_, _, hop, hnil⟩ := EStateM.bind_eq_ok_iff.mp hrun
      cases hnil
      have hstamp : (patchExtent 40 12 7 (writeAll emptyLeaf)).Stamped 0x5EED := trivial
      obtain ⟨_, _, hcls, hs', -⟩ := patched_run rfl hstamp hop
      rw [hs'] at hs
      cases hs
      exact hcls.resolve_left fun hnew => nomatch hnew
    | first :: second :: pre, hops =>
      injection hops with _ hops
      injection hops with _ hops
      exact absurd hops.symm (append_ne_nil_of_right_ne_nil pre (cons_ne_nil op post))
  descriptors m hrun := by
    have hclean : (match runOps csumGroups twoGroupsDevice patchTwice (new (zeros 1024)) with
      | .ok _ m => m.dirtyGroups.toList
      | .error _ _ => []) = [] := by decide +kernel
    rw [hrun] at hclean
    dsimp only at hclean
    rw [hclean]
    exact fun group hmem => nomatch hmem

theorem finalized_for_last_owner_patchTwice :
    leftover patchTwice 40 = some (.extentBlock 12 7, emptyLeaf) ∧
      VerifiesForLastOwner csumGroups twoGroupsDevice 0x5EED (zeros 1024) patchTwice :=
  ⟨by decide +kernel,
    finalized_for_last_owner csumGroups twoGroupsDevice 0x5EED _ rfl rfl _ oneOwner_patchTwice⟩

end

end Fsmnt.FsExt
