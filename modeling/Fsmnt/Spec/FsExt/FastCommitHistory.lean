import Fsmnt.Spec.FsExt.FastCommitAtomic
import Fsmnt.Spec.FsExt.MutatorFinalize

/-!
# The overlay as a function of the log

Every transaction and pass C run on a mutator of their own over the overlay that the earlier
ones left, and finalizing the mutator makes the next overlay. The logs of these steps, one
after the other, say what the bits of every block bitmap of the composed overlay are.
-/

namespace Fsmnt.FsExt

open Except List Option Mutator Std.TreeMap BlockOverlay
open EStateM (Keeps StepRel)

variable (ext : Ext)

variable {group block : Nat} {gdp : GroupDescriptor} {overlay overlay' : BlockOverlay}
  {log : List MutatorEvent} {delta : OrphanOverlayDelta} (fs : FsReader)

/-! ### The composed reader -/

/-- What is overlaid is found before what was there. -/
theorem merge_blocks (overlay : BlockOverlay) (delta : OrphanOverlayDelta) (block : Nat) :
    (mergeDeltaIntoOverlay overlay delta).blocks[block]? =
      (delta.blocks[block]?).or overlay.blocks[block]? := by
  show (delta.blocks.foldl _ overlay.blocks)[block]? = _
  rw [foldl_eq_foldl_toList, getElem?_foldl_insert _ Prod.fst Prod.snd]
  have hlast := getLast?_filter_toList delta.blocks (fun _ => true) block
  rw [filter_eq_self.mpr fun _ _ => rfl] at hlast
  rw [hlast]
  cases delta.blocks[block]? <;> rfl

/-- Reading a block through an overlay of the same block size. -/
theorem readBlock_compose (hsize : overlay.blockSize = ext.blockSize)
    (hhost : block ≠ overlay.sbHostBlock) : readBlock ext (composeReader fs overlay) block =
      match overlay.blocks[block]? with
      | none => readBlock ext fs block
      | some src =>
        if block * ext.blockSize ≥ 2 ^ 64 then .error (.blockOutOfRange block)
        else if ext.blockSize ≤ src.length then .ok (src.take ext.blockSize)
        else .error .panicked := by
  have hpos := ext.blockSize_ge
  -- the block is read in one piece, from its first byte on
  have hread : (composeReader fs overlay).readExact (block * ext.blockSize) ext.blockSize =
      overlay.readChunk fs (block * ext.blockSize) ext.blockSize := by
    show overlay.readLoop fs ext.blockSize (block * ext.blockSize) ext.blockSize = _
    obtain ⟨n, hn⟩ : ∃ n, ext.blockSize = n + 1 := ⟨ext.blockSize - 1, by omega⟩
    rw [hn] at hsize ⊢
    rw [readLoop, hsize, Nat.mul_mod_left, Nat.sub_zero, Nat.min_self]
    dsimp only
    cases overlay.readChunk fs (block * (n + 1)) (n + 1) with
    | error e => rfl
    | ok chunk => simp [readLoop]
  have hchunk : overlay.readChunk fs (block * ext.blockSize) ext.blockSize =
      match overlay.blocks[block]? with
      | none => fs.readExact (block * ext.blockSize) ext.blockSize
      | some src => if ext.blockSize ≤ src.length then .ok (src.take ext.blockSize)
        else .error .panicked := by
    unfold readChunk
    dsimp only
    rw [hsize, Nat.mul_div_cancel _ (by omega), Nat.mul_mod_left, if_neg hhost]
    cases overlay.blocks[block]? with
    | none => rfl
    | some src =>
      dsimp only
      rw [Nat.zero_add, Bytes.slice, drop_zero]
  unfold readBlock
  rw [hread, hchunk]
  cases overlay.blocks[block]? with
  | none | some src => rfl

/-- After a merge the blocks of the delta are found, and the others as before. -/
theorem readBlock_merge (hsize : overlay.blockSize = ext.blockSize)
    (hhost : block ≠ overlay.sbHostBlock) (haddr : block * ext.blockSize < 2 ^ 64)
    (hlen : ∀ content, delta.blocks[block]? = some content → content.length = ext.blockSize) :
    readBlock ext (composeReader fs (mergeDeltaIntoOverlay overlay delta)) block =
      match delta.blocks[block]? with
      | some content => .ok content
      | none => readBlock ext (composeReader fs overlay) block := by
  have hmerged := readBlock_compose ext fs
    (show (mergeDeltaIntoOverlay overlay delta).blockSize = ext.blockSize from hsize)
    (show block ≠ (mergeDeltaIntoOverlay overlay delta).sbHostBlock from hhost)
  rw [hmerged, readBlock_compose ext fs hsize hhost, merge_blocks]
  cases hdelta : delta.blocks[block]? with
  | none => rfl
  | some content =>
    have hlen := hlen content hdelta
    dsimp only [Option.or]
    rw [if_neg (by omega), if_pos (by omega), ← hlen, take_length]

/-! ### Histories -/

/-- The bitmap of `group` has a block of its own, which is not the superblock's. -/
structure BitmapPlaced (overlay : BlockOverlay) (group : Nat) (gdp : GroupDescriptor) : Prop
    extends OwnsBitmap ext group gdp where
  addressable : gdp.blockBitmap * ext.blockSize < 2 ^ 64
  notHost : gdp.blockBitmap ≠ overlay.sbHostBlock
  blockSize : overlay.blockSize = ext.blockSize

variable {ext}

/-- Merging does not move the superblock. -/
theorem BitmapPlaced.merge (h : BitmapPlaced ext overlay group gdp) (delta : OrphanOverlayDelta) :
    BitmapPlaced ext (mergeDeltaIntoOverlay overlay delta) group gdp :=
  { h with }

variable (ext) (fs : FsReader)

/-- A bit of a block bitmap as the composed reader has it. -/
def overlayBit (overlay : BlockOverlay) (gdp : GroupDescriptor) (unit : Nat) : Bool :=
  viewBit (readBlock ext (composeReader fs overlay) gdp.blockBitmap) unit

variable [Crc] (blockSize fcFirst : Nat)

/-- A mutator of its own over `overlay` is finalized and merged. -/
inductive CommitStep (overlay : BlockOverlay) : List MutatorEvent → BlockOverlay → Prop
  | tx {t : FcTx} {tx : TxState} {delta : OrphanOverlayDelta}
      (hrun : t.Runs ext fs blockSize fcFirst overlay tx)
      (hdelta : tx.finalize ext fs overlay = .ok delta) :
      CommitStep overlay (tx.mutator.finalLog ext) (mergeDeltaIntoOverlay overlay delta)
  | finalizer {inums : List Nat} {plan plan' : FastCommitPlan} {m : Mutator}
      {delta : OrphanOverlayDelta}
      (hpass : finalizePass ext (composeReader fs overlay) inums plan
        (new overlay.sbHostBlockContent) = .ok (plan', m))
      (hdelta : m.finalize ext (composeReader fs overlay) = .ok delta) :
      CommitStep overlay (m.finalLog ext) (mergeDeltaIntoOverlay overlay delta)

/-- Steps that are committed one after the other, with their logs. -/
inductive FcHistory (start : BlockOverlay) : List MutatorEvent → BlockOverlay → Prop
  | nil : FcHistory start [] start
  | snoc {log log' : List MutatorEvent} {overlay overlay' : BlockOverlay}
      (hhist : FcHistory start log overlay)
      (hstep : CommitStep ext fs blockSize fcFirst overlay log' overlay') :
      FcHistory start (log ++ log') overlay'

variable {ext fs blockSize fcFirst} {start : BlockOverlay} {m : Mutator}

/-- A transaction keeps to every relation that the operations of the mutator keep to. -/
theorem TxRuns.frame {R : Mutator → Mutator → Prop} {tx tx' : TxState} {rs : List PassRecord}
    (hframe : Frame ext (composeReader fs overlay) R)
    (h : TxRuns ext fs blockSize fcFirst overlay tx rs tx') : R tx.mutator tx'.mutator := by
  induction h with
  | nil => exact hframe.refl _
  | snoc _ hstep ih => exact hframe.trans ih (hframe.applyTxRecord hstep)

omit [Crc] in
/-- What a fresh mutator over an overlay has done to a bitmap. -/
theorem Tracks.bitmapStep {host : Bytes} (h : Tracks ext (composeReader fs overlay) (new host) m)
    (hown : OwnsBitmap ext group gdp) (hwrite : .write gdp.blockBitmap ∉ m.log) :
    BitmapStep ext (composeReader fs overlay) group gdp (new host) m m.log := by
  obtain ⟨log, hlog, _, hstep⟩ := h
  have heq : m.log = log := hlog.trans (nil_append _)
  rw [heq] at hwrite ⊢
  refine hstep group gdp hown hwrite fun s hs => ?_
  rw [show (new host).blocks[gdp.blockBitmap]? = none by simp [new]] at hs
  cases hs

omit [Crc] in
/-- Descriptor writes do not change the bits of a bitmap. -/
theorem bitLog_gdtWrites (groups : List Nat) (bits : Nat → Bool) :
    BitLog ext group gdp bits bits (gdtWrites ext groups) := by
  have hsilent : ∀ e ∈ gdtWrites ext groups, e.Silent := by
    intro e he
    obtain ⟨g, _, rfl⟩ := mem_map.mp he
    trivial
  refine ⟨fun _ => (replayBit_silent hsilent _).symm, fun l₁ block l₂ heq => ?_⟩
  exact (hsilent (.handOut block) (by rw [heq]; simp)).elim

/-- The bits of the merged overlay are those of the mutator. -/
theorem Tracks.overlayBits
    (h : Tracks ext (composeReader fs overlay) (new overlay.sbHostBlockContent) m)
    (hplaced : BitmapPlaced ext overlay group gdp)
    (hwrite : .write gdp.blockBitmap ∉ m.finalLog ext)
    (hdelta : m.finalize ext (composeReader fs overlay) = .ok delta) :
    BitLog ext group gdp (overlayBit ext fs overlay gdp)
      (overlayBit ext fs (mergeDeltaIntoOverlay overlay delta) gdp) (m.finalLog ext) := by
  have hlog := hwrite
  rw [finalLog, mem_append, not_or] at hlog
  have hstep := h.bitmapStep hplaced.toOwnsBitmap hlog.1
  have hblock := finalize_bitmap ext (fun s hs => ⟨group, .inl (hstep.seeded s hs).1⟩)
    (fun g hg heq => hlog.2 (mem_map.mpr ⟨g, hg, by rw [heq]⟩)) hdelta
  have hread := readBlock_merge ext fs hplaced.blockSize hplaced.notHost hplaced.addressable
    fun content hcontent => by
      rw [hblock] at hcontent
      obtain ⟨s, hs, rfl⟩ := map_eq_some_iff.mp hcontent
      exact (hstep.seeded s hs).2
  have hafter : overlayBit ext fs (mergeDeltaIntoOverlay overlay delta) gdp =
      viewBit (m.view ext (composeReader fs overlay) gdp.blockBitmap) := by
    unfold overlayBit view
    rw [hread, hblock]
    cases m.blocks[gdp.blockBitmap]? <;> rfl
  have hbits := hstep.bitLog
  rw [hafter]
  exact hbits.append (bitLog_gdtWrites _ _)

/-- Both kinds of steps run on a fresh mutator, which keeps to the log. -/
theorem CommitStep.tracks (h : CommitStep ext fs blockSize fcFirst overlay log overlay') :
    ∃ m delta, Tracks ext (composeReader fs overlay) (new overlay.sbHostBlockContent) m ∧
      m.finalize ext (composeReader fs overlay) = .ok delta ∧ log = m.finalLog ext ∧
      overlay' = mergeDeltaIntoOverlay overlay delta := by
  have hframe := tracks_frame ext (composeReader fs overlay)
  cases h with
  | tx hrun hdelta =>
    refine ⟨_, _, TxRuns.frame hframe hrun, ?_, rfl, rfl⟩
    unfold TxState.finalize at hdelta
    rwa [mapError_eq_ok_iff] at hdelta
  | finalizer hpass hdelta => exact ⟨_, _, hframe.finalizePass _ hpass, hdelta, rfl, rfl⟩

/-- One committed step. -/
theorem CommitStep.bitLog (h : CommitStep ext fs blockSize fcFirst overlay log overlay')
    (hplaced : BitmapPlaced ext overlay group gdp) (hwrite : .write gdp.blockBitmap ∉ log) :
    BitmapPlaced ext overlay' group gdp ∧
    BitLog ext group gdp (overlayBit ext fs overlay gdp) (overlayBit ext fs overlay' gdp) log := by
  obtain ⟨m, delta, htracks, hdelta, rfl, rfl⟩ := h.tracks
  exact ⟨hplaced.merge _, htracks.overlayBits hplaced hwrite hdelta⟩

/-- The events of a history. -/
theorem FcHistory.admitted (h : FcHistory ext fs blockSize fcFirst start log overlay) :
    ∀ e ∈ log, e.Admitted ext := by
  induction h with
  | nil => exact fun e he => nomatch he
  | snoc _ hstep ih =>
    intro e he
    rcases mem_append.mp he with he | he
    · exact ih e he
    obtain ⟨m, _, ⟨log, hlog, hadm, _⟩, _, rfl, _⟩ := hstep.tracks
    have heq : m.log = log := hlog.trans (nil_append _)
    rw [finalLog, mem_append, heq] at he
    rcases he with he | he
    · exact hadm e he
    · obtain ⟨group, _, rfl⟩ := mem_map.mp he
      trivial

/-- A whole history: the bits of the composed overlay are those that the log says. -/
theorem FcHistory.bitLog (h : FcHistory ext fs blockSize fcFirst start log overlay)
    (hplaced : BitmapPlaced ext start group gdp) (hwrite : .write gdp.blockBitmap ∉ log) :
    BitmapPlaced ext overlay group gdp ∧
    BitLog ext group gdp (overlayBit ext fs start gdp) (overlayBit ext fs overlay gdp) log := by
  induction h with
  | nil => exact ⟨hplaced, .nil _⟩
  | snoc _ hstep ih =>
    rw [mem_append, not_or] at hwrite
    obtain ⟨hplaced₁, hbits₁⟩ := ih hwrite.1
    obtain ⟨hplaced₂, hbits₂⟩ := hstep.bitLog hplaced₁ hwrite.2
    exact ⟨hplaced₂, hbits₁.append hbits₂⟩

/-! ### The replay as a history -/

/-- Committed transactions are a history. -/
theorem Replays.history {start done : Committed} {ts : List FcTx}
    (h : Replays ext fs blockSize fcFirst start ts done) :
    ∃ log, FcHistory ext fs blockSize fcFirst start.overlay log done.overlay := by
  induction h with
  | nil => exact ⟨[], .nil⟩
  | snoc _ hrun hdelta ih =>
    obtain ⟨log, hhist⟩ := ih
    exact ⟨_, .snoc hhist (.tx hrun hdelta)⟩

/-- What `FastCommitReplay::build` returns is the end of a history: the committed transactions,
    and pass C if an inode was modified. -/
theorem buildFastCommit_history {final : BlockOverlay} {region : FcRegion} {expectedTid : Nat}
    {plan : FastCommitPlan}
    (h : buildFastCommit ext fs overlay region fcFirst expectedTid = .ok (final, plan)) :
    ∃ log, FcHistory ext fs region.blockSize fcFirst overlay log final := by
  obtain ⟨state, happly, h⟩ := bind_eq_ok_iff.mp h
  obtain ⟨done, log, hreplay, hdone⟩ : ∃ done log,
      FcHistory ext fs region.blockSize fcFirst overlay log done ∧
      state.composedOverlay = done := by
    obtain ⟨hok, hoverlay, _⟩ := applyPassFc_ok happly
    rcases applyLoop_dispatches _ _ _ _ .nil hok with hall | ⟨init, r, ctx, _, hinit, hstop⟩
    · obtain ⟨log, hhist⟩ := (hall.replayed rfl).committed.history
      exact ⟨_, log, hhist, hoverlay⟩
    · obtain ⟨log, hhist⟩ := (hinit.replayed rfl).committed.history
      exact ⟨_, log, hhist, hoverlay.trans (hstop.stopped init).2.1⟩
  rw [hdone] at h
  split at h
  · injection h with h
    obtain ⟨rfl, _⟩ := Prod.mk.inj h
    exact ⟨log, hreplay⟩
  obtain ⟨⟨plan', m⟩, hpass, h⟩ := bind_eq_ok_iff.mp h
  obtain ⟨delta, hdelta, h⟩ := bind_eq_ok_iff.mp h
  rw [mapError_eq_ok_iff] at hdelta
  injection h with h
  obtain ⟨rfl, _⟩ := Prod.mk.inj h
  exact ⟨_, .snoc hreplay (.finalizer hpass hdelta)⟩

/-! ### Running a transaction -/

variable (ext fs blockSize fcFirst)

/-- The state that a transaction reaches, if no record stops it. -/
def FcTx.run (overlay : BlockOverlay) (t : FcTx) : Option TxState :=
  t.records.foldlM (fun tx r =>
    match applyTxRecord ext (composeReader fs overlay) (r.position blockSize fcFirst) tx r with
    | .ok (.next tx) => some tx
    | _ => none) (.begin overlay t.head)

/-- Run and commit a transaction: the log and the overlay. -/
def FcTx.commit (overlay : BlockOverlay) (t : FcTx) :
    Option (List MutatorEvent × BlockOverlay) := do
  let tx ← t.run ext fs blockSize fcFirst overlay
  let delta ← (tx.finalize ext fs overlay).toOption
  some (tx.mutator.finalLog ext, mergeDeltaIntoOverlay overlay delta)

variable {ext fs blockSize fcFirst} {t : FcTx}

theorem FcTx.runs_of_run {tx : TxState} (h : t.run ext fs blockSize fcFirst overlay = some tx) :
    t.Runs ext fs blockSize fcFirst overlay tx := by
  obtain ⟨head, records⟩ := t
  unfold FcTx.run at h
  induction records using reverseRecOn generalizing tx with
  | nil =>
    injection h with h
    rw [← h]
    exact .nil _
  | append_singleton rs r ih =>
    rw [foldlM_append] at h
    obtain ⟨tx₁, hrs, h⟩ := bind_eq_some_iff.mp h
    rw [foldlM_cons] at h
    obtain ⟨tx₂, hstep, h⟩ := bind_eq_some_iff.mp h
    injection h with h
    subst h
    refine .snoc (ih hrs) ?_
    split at hstep
    · rename_i hnext
      injection hstep with hstep
      rwa [hstep] at hnext
    · cases hstep

theorem FcTx.commit_step (h : t.commit ext fs blockSize fcFirst overlay = some (log, overlay')) :
    CommitStep ext fs blockSize fcFirst overlay log overlay' := by
  obtain ⟨tx, hrun, h⟩ := bind_eq_some_iff.mp h
  obtain ⟨delta, hdelta, h⟩ := bind_eq_some_iff.mp h
  injection h with h
  obtain ⟨rfl, rfl⟩ := Prod.mk.inj h
  exact .tx (FcTx.runs_of_run hrun) (toOption_eq_some_iff.mp hdelta)

end Fsmnt.FsExt
