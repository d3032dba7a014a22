import Fsmnt.Spec.FsExt.BitmapPersistence
import Fsmnt.Spec.FsExt.GroupLedger

/-!
# Free counts of a group

`finalize` applies the tallies to the descriptors and recomputes checksums, which leaves the
counters alone.
-/

namespace Fsmnt.FsExt

open Bytes List Mutator Std TreeMap

variable (ext : Ext) (fs : FsReader)

/-! ### Finalizing -/

/-- What a tally, if there is one, makes of a descriptor. -/
def applyTally (tally : Option GroupTally) (desc : Bytes) : Bytes :=
  match tally with
  | none => desc
  | some tally => applyGroupTally ext desc tally

/-- What it makes of the block with the descriptor of the group. -/
def applyTallyAt (tally : Option GroupTally) (group : Nat) (content : Bytes) : Bytes :=
  match tally with
  | none => content
  | some tally =>
    content.splice (group % ext.gdtLayout.descPerBlock * ext.descSize)
      (applyGroupTally ext (descSlot ext content (group % ext.gdtLayout.descPerBlock)) tally)

section Finalize

variable {ext fs} {m m' : Mutator} {desc : Bytes} {u : Unit} {g h block : Nat}
  {tally : Option GroupTally}

theorem length_applyTallyAt {content : Bytes} (hlen : content.length = ext.blockSize) :
    (applyTallyAt ext tally h content).length = ext.blockSize := by
  cases tally with
  | none => exact hlen
  | some tally =>
    have hslot := Nat.mod_lt h (descPerBlock_pos ext)
    have hfits := descSlot_fits hslot
    have hnew := (applyGroupTally_spec (length_descSlot hlen hslot) tally).1
    rw [applyTallyAt, length_splice (by omega), hlen]

/-- The tally of one group changes its descriptor only. -/
theorem groupDesc_applyTallyAt {content : Nat → Bytes}
    (hlen : (content (descBlock ext h)).length = ext.blockSize)
    (htable : descBlock ext g = descBlock ext h →
      g / ext.gdtLayout.descPerBlock = h / ext.gdtLayout.descPerBlock) :
    groupDesc ext (Function.update content (descBlock ext h)
        (applyTallyAt ext tally h (content (descBlock ext h)))) g =
      if g = h then applyTally ext tally (groupDesc ext content g)
      else groupDesc ext content g := by
  cases tally with
  | none => rw [applyTallyAt, Function.update_eq_self, applyTally, ite_self]
  | some tally =>
    have hslot := Nat.mod_lt h (descPerBlock_pos ext)
    refine (groupDesc_update hlen (applyGroupTally_spec (length_descSlot hlen hslot) tally).1
      htable).trans ?_
    split
    · rename_i heq
      rw [heq]
      rfl
    · rfl

/-- The patch of one group in `finalize`. -/
theorem materializeTallies_cons {rest : List Nat}
    (hrun : materializeTallies ext fs (h :: rest) m = .ok u m') :
    ∃ t, patchBlock ext fs (descBlock ext h) (.groupDescriptor (h / ext.gdtLayout.descPerBlock))
        (fun content => .ok (applyTallyAt ext m.groupTallies[h]? h content)) m = .ok () t ∧
      materializeTallies ext fs rest t = .ok u m' := by
  rw [materializeTallies, groupDescSlot_eq] at hrun
  dsimp only at hrun
  rw [EStateM.get_bind_run] at hrun
  obtain ⟨_, t, hpatch, hrest⟩ := EStateM.bind_eq_ok_iff.mp hrun
  refine ⟨t, ?_, hrest⟩
  rw [← hpatch]
  cases m.groupTallies[h]? <;> rfl

/-- The descriptors after the tallies have been written. -/
theorem materializeTallies_groupDesc (hlayout : DistinctBlocks ext)
    {gdp : GroupDescriptor} (hgdp : ext.groupDescs[g]? = some gdp) {groups : List Nat}
    (hnodup : groups.Nodup) (hexist : ∀ h ∈ groups, ∃ d, ext.groupDescs[h]? = some d)
    (hplaced : Placed ext m) (hrun : materializeTallies ext fs groups m = .ok u m') :
    Placed ext m' ∧ (g ∈ groups → (groupDesc ext (m.content ext fs) g).length = ext.descSize) ∧
      groupDesc ext (m'.content ext fs) g =
        if g ∈ groups then applyTally ext m.groupTallies[g]? (groupDesc ext (m.content ext fs) g)
        else groupDesc ext (m.content ext fs) g := by
  induction groups generalizing m with
  | nil =>
    cases hrun
    exact ⟨hplaced, fun hmem => absurd hmem not_mem_nil, (if_neg not_mem_nil).symm⟩
  | cons h rest ih =>
    obtain ⟨t, hpatch, hrest⟩ := materializeTallies_cons hrun
    obtain ⟨hnotin, hnodup⟩ := nodup_cons.mp hnodup
    obtain ⟨⟨d, hd⟩, hexist⟩ := forall_mem_cons.mp hexist
    have hsize : KeepsSize ext fun content => .ok
      (applyTallyAt ext m.groupTallies[h]? h content) := by
      rintro content _ hlen ⟨⟩
      exact length_applyTallyAt hlen
    have hfits : ClassFits ext (descBlock ext h) (.groupDescriptor _) := ⟨h, d, hd, rfl, rfl⟩
    obtain ⟨hplaced', hlength, hdesc⟩ := ih hnodup hexist
      (placed_patchBlock hfits hsize m _ t hplaced hpatch) hrest
    obtain ⟨_, ⟨⟩, hcontent, ⟨htally, -⟩, hlen⟩ := patchBlock_content hpatch
    have hlen := hlen hplaced.sized
    rw [hcontent, groupDesc_applyTallyAt hlen (hlayout.table hgdp hd), htally] at hdesc
    rw [hcontent, groupDesc_applyTallyAt hlen (hlayout.table hgdp hd)] at hlength
    refine ⟨hplaced', ?_⟩
    by_cases hg : g = h
    · subst hg
      rw [if_neg hnotin, if_pos rfl] at hdesc
      rw [if_pos mem_cons_self]
      exact ⟨fun _ => length_descSlot hlen (Nat.mod_lt g (descPerBlock_pos ext)), hdesc⟩
    · rw [if_neg hg] at hlength hdesc
      simp only [mem_cons, hg, false_or]
      exact ⟨hlength, hdesc⟩

section Checksums

variable [Crc] (dirty : TreeSet Nat) (seed : UInt32)

/-- The same class, and descriptors with the same counters. -/
def SameScratch (ext : Ext) (s s' : ScratchBlock) : Prop :=
  s'.cls = s.cls ∧ (s.content.length = ext.blockSize → SameSlots ext s.content s'.content)

/-- A block, if it is in scratch, holds descriptors with the same counters before and after. -/
def SameTable (ext : Ext) (block : Nat) (m m' : Mutator) : Prop :=
  Option.Rel (SameScratch ext) m.blocks[block]? m'.blocks[block]?

omit [Crc] in
theorem SameTable.of_map {f : ScratchBlock → ScratchBlock}
    (hmap : m'.blocks[block]? = m.blocks[block]?.map f)
    (hf : ∀ s, m.blocks[block]? = some s → SameScratch ext s (f s)) : SameTable ext block m m' := by
  unfold SameTable
  rw [hmap]
  cases hs : m.blocks[block]? with
  | none => exact .none
  | some s => exact .some (hf s hs)

omit [Crc] in
theorem SameTable.refl (block : Nat) (m : Mutator) : SameTable ext block m m :=
  of_map Option.map_id'.symm fun _ _ => ⟨rfl, fun _ => .refl ext _⟩

omit [Crc] in
theorem SameTable.trans {m₁ m₂ m₃ : Mutator} (h : SameTable ext block m₁ m₂)
    (h' : SameTable ext block m₂ m₃) : SameTable ext block m₁ m₃ := by
  unfold SameTable at *
  generalize m₁.blocks[block]? = a, m₂.blocks[block]? = b, m₃.blocks[block]? = c at *
  cases h with
  | none => exact h'
  | some h =>
    cases h' with
    | some h' =>
      exact .some ⟨h'.1.trans h.1, fun hlen =>
        (h.2 hlen).trans (h'.2 ((h.2 hlen).length.trans hlen))⟩

omit [Crc] in
theorem length_crcParts (crc : UInt32) : (crcLo crc).length = 2 ∧ (crcHi crc).length = 2 :=
  ⟨length_toLE 2 _, length_toLE 2 _⟩

theorem sameCounters_writeBitmapCsum (hlen : desc.length = ext.descSize) {lo hi : Nat}
    (hlo : 0x14 ≤ lo ∧ lo + 2 ≤ 0x20) (hhi : 0x30 ≤ hi ∧ hi + 2 ≤ 0x40) (bitmap : Bytes) :
    SameCounters ext desc (writeBitmapCsum ext seed desc lo hi bitmap) := by
  have hge := descSize_ge ext
  obtain ⟨hlow, hhigh⟩ := length_crcParts (computeBitmapCsum seed bitmap)
  unfold writeBitmapCsum
  have hfirst : SameCounters ext desc (desc.splice lo (crcLo (computeBitmapCsum seed bitmap))) :=
    sameCounters_splice ext (by omega) (by omega)
  split
  · refine hfirst.trans (sameCounters_splice ext ?_ (by omega))
    rw [hfirst.length]
    omega
  · exact hfirst

/-- Checksums leave the counters alone. -/
theorem sameTable_propagate (block h : Nat) (m : Mutator) :
    SameTable ext block m (propagateBitmapCsums ext seed m h) := by
  unfold propagateBitmapCsums
  dsimp only
  split
  · exact .refl block m
  rw [groupDescSlot_eq]
  by_cases hb : block = descBlock ext h
  swap
  · exact .of_map ((modifyBlock_of_ne _ _ hb).trans Option.map_id'.symm)
      fun _ _ => ⟨rfl, fun _ => .refl ext _⟩
  subst hb
  refine .of_map (modifyBlock_self _ _ m) fun s _ => ⟨rfl, fun hlen => ?_⟩
  have hslot := Nat.mod_lt h (descPerBlock_pos ext)
  refine sameSlots_splice hlen hslot ?_
  refine foldlRecOn _ _ (.refl ext _) fun desc hsame b _ => hsame.trans ?_
  have hdesc := hsame.length.trans (length_descSlot hlen hslot)
  split
  · exact sameCounters_writeBitmapCsum seed hdesc (by omega) (by omega) _
  · exact sameCounters_writeBitmapCsum seed hdesc (by omega) (by omega) _

theorem sameSlots_recomputeDesc (firstGroup : Nat) {content : Bytes}
    (hlen : content.length = ext.blockSize) {i : Nat} (hi : i < ext.gdtLayout.descPerBlock) :
    SameSlots ext content (recomputeDesc ext dirty firstGroup content i) := by
  have hge := descSize_ge ext
  unfold recomputeDesc
  dsimp only
  split
  · exact .refl ext content
  refine sameSlots_splice hlen hi ?_
  have hsize := length_descSlot hlen hi
  have hzero : SameCounters ext (descSlot ext content i)
      ((descSlot ext content i).splice 0x1E (replicate 2 0)) :=
    sameCounters_splice ext (by rw [length_replicate]; omega) (by rw [length_replicate]; omega)
  have hcsum : ∀ src : Bytes, src.length = 2 → SameCounters ext (descSlot ext content i)
      (((descSlot ext content i).splice 0x1E (replicate 2 0)).splice 0x1E src) := by
    intro src hsrc
    refine hzero.trans (sameCounters_splice ext ?_ (by omega))
    rw [hzero.length]
    omega
  split
  · exact hcsum _ (length_toLE 2 _)
  · split
    · exact hcsum _ (length_toLE 2 _)
    · exact hzero

/-- Recomputing checksums keeps the counters of every descriptor. -/
theorem sameTable_recomputeChecksums {block n : Nat} (m : Mutator)
    (hcls : ∀ s, m.blocks[block]? = some s → s.cls = .groupDescriptor n) :
    SameTable ext block m (recomputeChecksums ext m dirty) := by
  have hstamp : SameTable ext block m { m with
      blocks := m.blocks.map (recomputeBlock ext (ext.checksumSeed.getD 0)) } := by
    refine .of_map TreeMap.getElem?_map fun s hs => ?_
    have hsame : recomputeBlock ext (ext.checksumSeed.getD 0) block s = s := by
      unfold recomputeBlock
      rw [hcls s hs]
    rw [hsame]
    exact ⟨rfl, fun _ => .refl ext _⟩
  have hpropagate : ∀ (groups : List Nat) (t : Mutator), SameTable ext block t
      (groups.foldl (propagateBitmapCsums ext (ext.checksumSeed.getD 0)) t) := fun groups t =>
    foldlRecOn groups _ (.refl block t) fun t' h g _ => h.trans (sameTable_propagate _ block g t')
  have hgdt : ∀ t : Mutator, SameTable ext block t
      { t with blocks := t.blocks.map fun _ => recomputeGdtBlock ext dirty } := by
    refine fun t => .of_map TreeMap.getElem?_map fun s _ => ?_
    unfold recomputeGdtBlock
    split
    · exact ⟨rfl, fun hlen => foldlRecOn _ _ (.refl ext _) fun content h i hi =>
        h.trans (sameSlots_recomputeDesc dirty _ (h.length.trans hlen) (mem_range.mp hi))⟩
    · exact ⟨rfl, fun _ => .refl ext _⟩
  unfold recomputeChecksums
  split
  · exact (hstamp.trans (hpropagate _ _)).trans (hgdt _)
  · exact hgdt m

variable (hlayout : DistinctBlocks ext) {gdp : GroupDescriptor}
  (hgdp : ext.groupDescs[g]? = some gdp) {delta : OrphanOverlayDelta}

omit [Crc] in
/-- A dirty group exists. -/
theorem exists_of_mem_dirtyGroups (hplaced : Placed ext m) (hh : h ∈ m.dirtyGroups.toList) :
    ∃ d, ext.groupDescs[h]? = some d := by
  rw [TreeSet.mem_toList, dirtyGroups, TreeSet.mem_ofList] at hh
  simp only [contains_eq_mem, mem_append, decide_eq_true_eq] at hh
  rcases hh with hkey | hbitmap
  · exact hplaced.tallied h (mem_keys.mp hkey)
  obtain ⟨s, hs, hgroup⟩ := mem_filterMap.mp hbitmap
  rw [values_eq_map_snd] at hs
  obtain ⟨⟨block, s'⟩, hmem, rfl⟩ := mem_map.mp hs
  have hfits := hplaced.cls block s' (mem_toList_iff_getElem?_eq_some.mp hmem)
  unfold ScratchBlock.bitmapGroup at hgroup
  cases hcls : s'.cls with
  | blockBitmap g | inodeBitmap g =>
    rw [hcls] at hgroup hfits
    cases hgroup
    obtain ⟨d, hd, -⟩ := hfits
    exact ⟨d, hd⟩
  | _ =>
    rw [hcls] at hgroup
    cases hgroup

include hlayout hgdp

omit [Crc] in
/-- A block with descriptors has their class. -/
theorem cls_descBlock (hplaced : Placed ext m) {s : ScratchBlock}
    (hs : m.blocks[descBlock ext g]? = some s) :
    s.cls = .groupDescriptor (g / ext.gdtLayout.descPerBlock) := by
  have hfits := hplaced.cls _ s hs
  cases hc : s.cls with
  | blockBitmap h =>
    rw [hc] at hfits
    obtain ⟨d, hd, heq⟩ := hfits
    exact absurd heq.symm (hlayout.descriptors hgdp hd).1
  | inodeBitmap h =>
    rw [hc] at hfits
    obtain ⟨d, hd, heq⟩ := hfits
    exact absurd heq.symm (hlayout.descriptors hgdp hd).2
  | groupDescriptor n =>
    rw [hc] at hfits
    obtain ⟨h, d, hd, heq, rfl⟩ := hfits
    rw [hlayout.table hd hgdp heq]
  | _ =>
    rw [hc] at hfits
    exact hfits.elim

omit [Crc] hlayout hgdp in
/-- The descriptor of a group in a delta with the same counters. -/
theorem SameTable.groupDesc (h : SameTable ext (descBlock ext g) m m') (hplaced : Placed ext m)
    (hdelta : delta.blocks[descBlock ext g]? = m'.blocks[descBlock ext g]?.map (·.content)) :
    SameCounters ext (groupDesc ext (m.content ext fs) g)
      (groupDesc ext (delta.content ext fs) g) := by
  have hslots : delta.content ext fs (descBlock ext g) = m.content ext fs (descBlock ext g) ∨
      SameSlots ext (m.content ext fs (descBlock ext g))
        (delta.content ext fs (descBlock ext g)) := by
    unfold SameTable at h
    unfold OrphanOverlayDelta.content
    rw [hdelta]
    cases hs : m.blocks[descBlock ext g]? with
    | none =>
      rw [hs] at h
      generalize m'.blocks[descBlock ext g]? = b at *
      cases h
      exact .inl (content_of_none hs).symm
    | some s =>
      rw [hs] at h
      generalize m'.blocks[descBlock ext g]? = b at *
      cases h with
      | some h =>
        rw [content_of_some hs]
        exact .inr (h.2 (hplaced.sized _ s hs))
  obtain heq | hslots := hslots
  · rw [groupDesc_congr heq]
    exact .refl ext _
  · exact hslots.slots _ (Nat.mod_lt g (descPerBlock_pos ext))

include hlayout hgdp

/-- The descriptor that `finalize` leaves. -/
theorem finalize_groupDesc (hplaced : Placed ext m) (h : m.finalize ext fs = .ok delta) :
    (∀ tally, m.groupTallies[g]? = some tally →
      (groupDesc ext (m.content ext fs) g).length = ext.descSize) ∧
    SameCounters ext (applyTally ext m.groupTallies[g]? (groupDesc ext (m.content ext fs) g))
      (groupDesc ext (delta.content ext fs) g) := by
  unfold finalize at h
  dsimp only at h
  split at h
  · cases h
  rename_i m' hmat
  injection h with h
  obtain ⟨hplaced', hlength, hdesc⟩ := materializeTallies_groupDesc hlayout hgdp
    (TreeSet.nodup_toList _) (fun h hh => exists_of_mem_dirtyGroups hplaced hh) hplaced hmat
  have hdirty : ∀ tally, m.groupTallies[g]? = some tally → g ∈ m.dirtyGroups.toList := by
    intro tally htally
    rw [TreeSet.mem_toList, dirtyGroups, TreeSet.mem_ofList]
    simp only [contains_eq_mem, mem_append, decide_eq_true_eq]
    refine .inl (mem_keys.mpr (mem_iff_isSome_getElem?.mpr ?_))
    rw [htally]
    rfl
  refine ⟨fun tally htally => hlength (hdirty tally htally), ?_⟩
  have htallied : groupDesc ext (m'.content ext fs) g =
      applyTally ext m.groupTallies[g]? (groupDesc ext (m.content ext fs) g) := by
    rw [hdesc]
    split
    · rfl
    rename_i hclean
    cases htally : m.groupTallies[g]? with
    | none => rfl
    | some tally => exact absurd (hdirty tally htally) hclean
  rw [← htallied]
  refine SameTable.groupDesc (sameTable_recomputeChecksums m.dirtyGroups m' fun s hs =>
    cls_descBlock hlayout hgdp hplaced' hs) hplaced' ?_
  rw [← h]
  exact TreeMap.getElem?_map

/-- The delta holds the bitmaps as the mutator left them. -/
theorem finalize_bitmaps (hplaced : Placed ext m) (h : m.finalize ext fs = .ok delta) :
    delta.content ext fs gdp.blockBitmap = m.content ext fs gdp.blockBitmap ∧
      delta.content ext fs gdp.inodeBitmap = m.content ext fs gdp.inodeBitmap := by
  have hbitmap : ∀ block, (∀ h d, ext.groupDescs[h]? = some d → descBlock ext h ≠ block) →
      delta.content ext fs block = m.content ext fs block := by
    intro block hapart
    have hcls : ∀ s, m.blocks[block]? = some s →
        ∃ g, s.cls = .blockBitmap g ∨ s.cls = .inodeBitmap g := by
      intro s hs
      have hfits := hplaced.cls block s hs
      cases hc : s.cls with
      | blockBitmap g => exact ⟨g, .inl rfl⟩
      | inodeBitmap g => exact ⟨g, .inr rfl⟩
      | groupDescriptor n =>
        rw [hc] at hfits
        obtain ⟨h, d, hd, heq, -⟩ := hfits
        exact absurd heq (hapart h d hd)
      | _ =>
        rw [hc] at hfits
        exact hfits.elim
    unfold OrphanOverlayDelta.content
    rw [finalize_bitmap ext hcls (fun h hh => by
      obtain ⟨d, hd⟩ := exists_of_mem_dirtyGroups hplaced hh
      exact hapart h d hd) h]
    cases hs : m.blocks[block]? with
    | none => exact (content_of_none hs).symm
    | some s => exact (content_of_some hs).symm
  exact ⟨hbitmap _ fun h d hd => (hlayout.descriptors hd hgdp).1,
    hbitmap _ fun h d hd => (hlayout.descriptors hd hgdp).2⟩

end Checksums

end Finalize

/-! ### Counters of the overlay -/

section Main

variable [Crc]

/-- In every run that can be finalized, the counters of every group follow its bitmaps. -/
def CountsTrack (host : Bytes) (ops : List MutatorOp) : Prop :=
  ∀ m delta group gdp, runOps ext fs ops (new host) = .ok () m →
    m.finalize ext fs = .ok delta → ext.groupDescs[group]? = some gdp →
    (BlocksCounted ext (rawContent ext fs) group gdp →
      BlocksCounted ext (delta.content ext fs) group gdp) ∧
    (InodesCounted ext (rawContent ext fs) group gdp →
      InodesCounted ext (delta.content ext fs) group gdp)

/-- The counters hold every number of units and inodes of a group, no group has more than `2 ^ 32`
    units allocated, and `free_allocations` frees units of initialised groups only. -/
structure CountConditions (host : Bytes) (ops : List MutatorOp) : Prop where
  layout : DistinctBlocks ext
  units : ∀ g, CountFits ext (allocationUnitsInGroup ext g)
  inodes : CountFits ext ext.inodesPerGroup
  frees : ∀ pre op post m, ops = pre ++ op :: post →
    runOps ext fs pre (new host) = .ok () m → op.FreesReady ext m
  tallies : ∀ m group, runOps ext fs ops (new host) = .ok () m →
    (m.tally group).clustersAllocated + allocationUnitsInGroup ext group < 2 ^ 32

variable {ext fs}

/-- The counters of the finalized overlay are right again. -/
theorem free_counts_track_bitmaps (ext : Ext) (fs : FsReader) (host : Bytes) (ops : List MutatorOp)
    (hops : ∀ op ∈ ops, op.Allocates) (h : CountConditions ext fs host ops) :
    CountsTrack ext fs host ops := by
  intro m delta group gdp hrun hfinal hgdp
  have hinodes : ext.inodesPerGroup < 2 ^ 32 := by
    rcases h.inodes with hlt | ⟨_, hlt⟩ <;> omega
  have hl : Ledger ext fs group gdp m :=
    ledger_runOps h.layout hgdp h.units hinodes ops hops h.frees (ledger_new host) hrun
  obtain ⟨hlength, hsame⟩ := finalize_groupDesc h.layout hgdp hl.placed hfinal
  obtain ⟨hblockBitmap, hinodeBitmap⟩ := finalize_bitmaps h.layout hgdp hl.placed hfinal
  have hclear := card_clearUnits_le (m.content ext fs gdp.blockBitmap)
    (allocationUnitsInGroup ext group)
  have hfree := card_clearUnits_le (m.content ext fs gdp.inodeBitmap) ext.inodesPerGroup
  have htallied := h.tallies m group hrun
  have hblocks := hl.blocks
  have hinodeLedger := hl.inodes
  unfold BlocksCounted InodesCounted BlockUninit at *
  rw [hsame.flags, hsame.blocks, hsame.inodes, hblockBitmap, hinodeBitmap]
  cases htally : m.groupTallies[group]? with
  | none =>
    have hzero : m.tally group = {} := by simp [tally, htally]
    rw [hzero] at hblocks hinodeLedger
    dsimp only [Nat.add_zero] at hblocks hinodeLedger
    exact ⟨hblocks, hinodeLedger⟩
  | some tally =>
    have htally' : m.tally group = tally := by simp [Mutator.tally, htally]
    rw [htally'] at hblocks hinodeLedger htallied
    obtain ⟨-, hflags, hcount, hcount'⟩ := applyGroupTally_spec (hlength tally htally) tally
    refine ⟨fun hraw => ?_, fun hraw => ?_⟩
    · refine (hblocks hraw).imp (fun hflag => ?_) fun heq => ?_
      · show (applyGroupTally ext _ tally).le16 0x12 &&& _ ≠ 0
        rwa [hflags]
      · have hsum : satAdd32 (freeBlocksCount ext (groupDesc ext (m.content ext fs) group))
            (clamp32 tally.clustersFreed) - clamp32 tally.clustersAllocated =
            (clearUnits (m.content ext fs gdp.blockBitmap)
              (allocationUnitsInGroup ext group)).card := by
          rw [clamp32_of_lt (by omega), clamp32_of_lt (by omega), satAdd32_of_lt (by omega)]
          omega
        rw [hsum] at hcount
        exact hcount ((h.units group).mono hclear)
    · have hsum : satAdd32 (freeInodesCount ext (groupDesc ext (m.content ext fs) group))
          tally.inodesFreed =
          (clearUnits (m.content ext fs gdp.inodeBitmap) ext.inodesPerGroup).card := by
        rw [satAdd32_of_lt (by omega)]
        omega
      rw [hsum] at hcount'
      exact hcount' (h.inodes.mono hfree)

end Main

/-! ### A group that is still to be initialised -/

section

attribute [local instance] Crc.standard

/-- Two groups of which the second has the given counter and flags, and one bit of its bitmap set.
    -/
def countedDevice (count flags : Nat) : FsReader :=
  memoryDevice [(2, zeros 44 ++ toLE 2 count ++ zeros 4 ++ toLE 2 flags ++
    zeros 972), (13, 1 :: zeros 1023)]

/-- A block of the second group is freed, another one is allocated. -/
def freeThenMark : List MutatorOp := [.freeAllocations 12 [⟨8193, 1, .metadata⟩], .mark 8200 1 true]

/-- What a run leaves of the second group: its counter, whether it is lazily initialised, and its
    bitmap. -/
def secondGroupAfter (ext : Ext) (fs : FsReader) (ops : List MutatorOp) :
    Option (Nat × Bool × Bytes) :=
  match runOps ext fs ops (new (zeros 1024)) with
  | .error _ _ => none
  | .ok _ m =>
    match m.finalize ext fs with
    | .error _ => none
    | .ok delta =>
      let desc := groupDesc ext (delta.content ext fs) 1
      some (freeBlocksCount ext desc, decide (BlockUninit desc), delta.content ext fs 13)

variable {bitmap : Bytes}

theorem exists_of_secondGroupAfter {ext : Ext} {fs : FsReader} {ops : List MutatorOp} {count : Nat}
    {uninit : Bool} (h : secondGroupAfter ext fs ops = some (count, uninit, bitmap)) :
    ∃ m delta, runOps ext fs ops (new (zeros 1024)) = .ok () m ∧ m.finalize ext fs = .ok delta ∧
      freeBlocksCount ext (groupDesc ext (delta.content ext fs) 1) = count ∧
      decide (BlockUninit (groupDesc ext (delta.content ext fs) 1)) = uninit ∧
      delta.content ext fs 13 = bitmap := by
  unfold secondGroupAfter at h
  split at h
  · cases h
  rename_i m hrun
  split at h
  · cases h
  · rename_i delta hfinal
    cases h
    exact ⟨m, delta, hrun, hfinal, rfl, rfl, rfl⟩

theorem card_clearUnits_zeros (n units : Nat) : (clearUnits (zeros n) units).card = units := by
  have hall : clearUnits (zeros n) units = Finset.range units :=
    Finset.filter_true_of_mem fun unit _ => bitSet_replicate_zero n unit
  rw [hall, Finset.card_range]

/-- Setting one bit after the other. -/
theorem card_clearUnits_writeBits {units : Nat} (hlen : units ≤ bitmap.length * 8) (bits : List Nat)
    (hnodup : bits.Nodup) (hbits : ∀ bit ∈ bits, bit < units ∧ bitSet bitmap bit = false) :
    (clearUnits (bits.foldl (fun bitmap bit => writeBit bitmap bit true) bitmap) units).card +
      bits.length = (clearUnits bitmap units).card := by
  induction bits generalizing bitmap with
  | nil => rfl
  | cons bit rest ih =>
    obtain ⟨hnotin, hnodup⟩ := nodup_cons.mp hnodup
    obtain ⟨hlt, hclear⟩ := hbits bit mem_cons_self
    have hin : bit / 8 < bitmap.length := by omega
    have hone := card_clearUnits_alloc hin hlt hclear
    have hkeep : ∀ b ∈ rest, b < units ∧ bitSet (writeBit bitmap bit true) b = false := by
      intro b hb
      rw [bitSet_writeBit true hin, if_neg (fun heq : b = bit => hnotin (heq ▸ hb))]
      exact hbits b (mem_cons_of_mem _ hb)
    have hrest := ih (by rwa [length_writeBit]) hnodup hkeep
    rw [foldl_cons, length_cons]
    omega

/-- The freed unit is still tallied when the bitmap is built anew. -/
theorem free_count_differs : ¬CountsTrack (twoGroups 2) (countedDevice 0 2) (zeros 1024)
    freeThenMark := by
  intro h
  obtain ⟨m, delta, hrun, hfinal, hcount, hflag, hbitmap⟩ := exists_of_secondGroupAfter
    (show secondGroupAfter (twoGroups 2) (countedDevice 0 2) freeThenMark =
      some (8190, false, 131 :: zeros 1023) by decide +kernel)
  have hraw : BlocksCounted (twoGroups 2) (rawContent (twoGroups 2) (countedDevice 0 2)) 1
      (secondGroup 2) := .inl (by decide +kernel)
  have hclear := card_clearUnits_writeBits (show 8192 ≤ (zeros 1024).length * 8 by
    rw [length_zeros]) [0, 1, 7] (by decide) (by decide +kernel)
  rw [show [0, 1, 7].foldl (fun bitmap bit => writeBit bitmap bit true) (zeros 1024) =
    131 :: zeros 1023 by decide +kernel, card_clearUnits_zeros, ← hbitmap] at hclear
  rcases (h m delta 1 (secondGroup 2) hrun hfinal rfl).1 hraw with huninit | heq
  · exact of_decide_eq_false hflag huninit
  rw [hcount, show allocationUnitsInGroup (twoGroups 2) 1 = 8192 by decide +kernel] at heq
  change 8190 = (clearUnits (delta.content _ _ 13) 8192).card at heq
  rw [← heq] at hclear
  exact absurd hclear (by decide)

/-! ### The same calls on an initialised group -/

theorem distinctBlocks_twoGroups (flags : Nat) : DistinctBlocks (twoGroups flags) := by
  have hcases : ∀ {g : Nat} {d : GroupDescriptor}, (twoGroups flags).groupDescs[g]? = some d →
      g = 0 ∧ d.blockBitmap = 3 ∧ d.inodeBitmap = 4 ∧ descBlock (twoGroups flags) g = 2 ∨
      g = 1 ∧ d.blockBitmap = 13 ∧ d.inodeBitmap = 14 ∧ descBlock (twoGroups flags) g = 2 := by
    intro g d hd
    rcases g with _ | _ | g
    · cases hd
      exact .inl ⟨rfl, rfl, rfl, show 1 + 1 + 0 / (1024 / 32) = 2 by decide⟩
    · cases hd
      exact .inr ⟨rfl, rfl, rfl, show 1 + 1 + 1 / (1024 / 32) = 2 by decide⟩
    · cases hd
  constructor
  all_goals
    intro g h d e hd he
    have hg := hcases hd
    have hh := hcases he
  · omega
  · omega
  · omega
  · omega
  · intro _
    have hdpb : (twoGroups flags).gdtLayout.descPerBlock = 32 := show 1024 / 32 = 32 by decide
    rw [hdpb]
    omega

theorem countConditions_freeThenMark :
    CountConditions (twoGroups 0) (countedDevice 8191 0) (zeros 1024) freeThenMark where
  layout := distinctBlocks_twoGroups 0
  units g := .inl (Nat.lt_of_le_of_lt (allocationUnitsInGroup_le (twoGroups 0) g) (by decide))
  inodes := .inl (by decide)
  frees pre op post m hops hrun := by
    have hready : ∀ g d, (twoGroups 0).groupDescs[g]? = some d → GroupReady g d m := by
      intro g d hd
      rcases g with _ | _ | g
      · cases hd
        exact .inl rfl
      · cases hd
        exact .inl rfl
      · cases hd
    cases op with
    | freeAllocations inode runs => exact fun block _ d hd => hready _ d hd
    | _ => trivial
  tallies m group hrun := by
    have hall : (match runOps (twoGroups 0) (countedDevice 8191 0) freeThenMark
        (new (zeros 1024)) with
      | .ok _ m => m.groupTallies.toList.all fun t => decide (t.2.clustersAllocated ≤ 1)
      | .error _ _ => true) = true := by decide +kernel
    rw [hrun] at hall
    have hunits := allocationUnitsInGroup_le (twoGroups 0) group
    have hcpg : (twoGroups 0).clustersPerGroup = 8192 := rfl
    have hone : (m.tally group).clustersAllocated ≤ 1 := by
      unfold tally
      cases htally : m.groupTallies[group]? with
      | none => exact Nat.zero_le 1
      | some tally =>
        exact of_decide_eq_true (all_eq_true.mp hall (group, tally)
          (mem_toList_iff_getElem?_eq_some.mpr htally))
    omega

theorem free_counts_track_freeThenMark :
    secondGroupAfter (twoGroups 0) (countedDevice 8191 0) freeThenMark =
        some (8191, false, 128 :: zeros 1023) ∧
      CountsTrack (twoGroups 0) (countedDevice 8191 0) (zeros 1024) freeThenMark :=
  ⟨by decide +kernel, free_counts_track_bitmaps _ _ _ _ (fun op hop => by
    rcases List.mem_cons.mp hop with rfl | hop
    · trivial
    · rw [List.mem_singleton.mp hop]
      trivial) countConditions_freeThenMark⟩

end

end Fsmnt.FsExt
