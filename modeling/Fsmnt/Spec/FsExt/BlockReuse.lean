import Fsmnt.ForStd.List
import Fsmnt.Spec.FsExt.BitmapPersistence

/-!
# Blocks that replay uses

The log of a replay says which blocks are in use: those that were handed out and those that an
`ADD_RANGE` record has mapped, until they are freed. The bitmap knows of the first kind only,
since the blocks of a mapped range are marked by pass C. So a block is not used twice as long as
every mapped block is already allocated on disk and nothing clears the bit of one in use.
-/

namespace Fsmnt.FsExt

open List MutatorEvent

variable {gdp : GroupDescriptor} {e : MutatorEvent} {log : List MutatorEvent}

section Live

/-- Whether a block is in use after an event. -/
def MutatorEvent.liveness (block : Nat) : MutatorEvent → Bool → Bool
  | .handOut b, live => live || b == block
  | .map pblk len, live => live || (decide (pblk ≤ block) && decide (block < pblk + len))
  | .free pblk len, live => live && !(decide (pblk ≤ block) && decide (block < pblk + len))
  | .write _, live | .init _, live | .mark _ _ _ _, live => live

/-- The blocks that a replay has brought into use: handed out or mapped, and not freed since. -/
def isLive (block : Nat) (log : List MutatorEvent) : Bool :=
  log.foldl (fun live e => e.liveness block live) false

theorem isLive_concat (block : Nat) (log : List MutatorEvent) (e : MutatorEvent) :
    isLive block (log ++ [e]) = e.liveness block (isLive block log) := by
  simp [isLive]

variable (ext : Ext) (fs : FsReader) (start : BlockOverlay)

/-- The bit of a block's unit after a log. -/
def bitAfter (log : List MutatorEvent) (block : Nat) : Bool :=
  match ext.groupDescs[(allocUnit ext block).1]? with
  | some gdp => replayBit ext (allocUnit ext block).1 gdp (allocUnit ext block).2 log
      (overlayBit ext fs start gdp (allocUnit ext block).2)
  | none => false

/-- What keeps the bitmaps above the blocks in use, for an event after the log `prior`: bitmaps
    are not written as other blocks, no group or unit is cleared that holds a block in use, and
    mapped blocks are allocated already. -/
def MutatorEvent.Keeps (prior : List MutatorEvent) : MutatorEvent → Prop
  | .write block => ∀ gdp ∈ ext.groupDescs, gdp.blockBitmap ≠ block
  | .init group => ∀ block, isLive block prior = true → (allocUnit ext block).1 ≠ group
  | .mark group bitStart count alloc => ∀ block, isLive block prior = true →
    ¬ (mark group bitStart count alloc).Frees (allocUnit ext block).1 (allocUnit ext block).2
  | .map pblk len => ∀ block, pblk ≤ block → block < pblk + len →
    bitAfter ext fs start prior block = true
  | .free _ _ | .handOut _ => True

/-- Every event of a log keeps the bitmaps above the blocks in use. -/
def LogKeeps (log : List MutatorEvent) : Prop :=
  ∀ l₁ e l₂, log = l₁ ++ e :: l₂ → e.Keeps ext fs start l₁

/-- Every block in use is marked as allocated. -/
def LiveAllocated (log : List MutatorEvent) : Prop :=
  ∀ block, isLive block log = true → bitAfter ext fs start log block = true

variable {ext fs start} {log l₁ l₂ : List MutatorEvent} {block : Nat}

theorem bitAfter_of_desc (hdesc : ext.groupDescs[(allocUnit ext block).1]? = some gdp) :
    bitAfter ext fs start log block =
      replayBit ext (allocUnit ext block).1 gdp (allocUnit ext block).2 log
        (overlayBit ext fs start gdp (allocUnit ext block).2) := by
  unfold bitAfter
  rw [hdesc]

theorem bitAfter_concat (e : MutatorEvent)
    (hdesc : ext.groupDescs[(allocUnit ext block).1]? = some gdp) :
    bitAfter ext fs start (log ++ [e]) block =
      e.effect ext (allocUnit ext block).1 gdp (allocUnit ext block).2
        (bitAfter ext fs start log block) := by
  rw [bitAfter_of_desc hdesc, bitAfter_of_desc hdesc, replayBit_append]
  rfl

theorem bitAfter_desc (h : bitAfter ext fs start log block = true) :
    ∃ gdp, ext.groupDescs[(allocUnit ext block).1]? = some gdp := by
  unfold bitAfter at h
  split at h
  · rename_i gdp hdesc
    exact ⟨gdp, hdesc⟩
  · cases h

/-- A set bit lies inside of the bitmap's block. -/
theorem bitAfter_inside (h : bitAfter ext fs start log block = true) :
    (allocUnit ext block).2 / 8 < ext.blockSize := by
  obtain ⟨gdp, hdesc⟩ := bitAfter_desc h
  induction log using reverseRecOn with
  | nil =>
    rw [bitAfter_of_desc hdesc] at h
    exact overlayBit_inside h
  | append_singleton log e ih =>
    rw [bitAfter_concat e hdesc] at h
    cases e with
    | init g =>
      by_cases hg : g = (allocUnit ext block).1
      · rw [effect, if_pos hg] at h
        by_contra hout
        have hlen : (initialBits ext (allocUnit ext block).1 gdp).length = ext.blockSize := by
          rw [initialBits, initialBitmap_length, Bytes.length_zeros]
        rw [bitSet_of_length_le (by omega)] at h
        cases h
      · rw [effect, if_neg hg] at h
        exact ih h
    | mark g bitStart count alloc =>
      rw [effect] at h
      split at h
      · simp only [Bool.and_eq_true, decide_eq_true_eq] at h
        exact h.2
      · exact ih h
    | write | free | map | handOut => exact ih h

/-! ### The invariant -/

/-- The bit of a block in use stays set over an event that keeps it. -/
theorem effect_of_keeps (hkeeps : e.Keeps ext fs start log) (hlive : isLive block log = true)
    (hinside : (allocUnit ext block).2 / 8 < ext.blockSize) :
    e.effect ext (allocUnit ext block).1 gdp (allocUnit ext block).2 true = true := by
  refine effect_true hinside (fun hinit => ?_) fun hfrees => ?_
  · rw [← hinit] at hkeeps
    exact hkeeps block hlive rfl
  · cases e with
    | mark => exact hkeeps block hlive hfrees
    | _ => exact hfrees

/-- One event. A block that is handed out was marked just before. -/
theorem LiveAllocated.concat (h : LiveAllocated ext fs start log)
    (hkeeps : e.Keeps ext fs start log)
    (hmarked : ∀ b, e = .handOut b → bitAfter ext fs start log b = true) :
    LiveAllocated ext fs start (log ++ [e]) := by
  intro block hlive
  rw [isLive_concat] at hlive
  -- the bit was set before the event, and the event did not clear it
  by_cases hbefore : isLive block log = true
  · have hbit := h block hbefore
    obtain ⟨gdp, hdesc⟩ := bitAfter_desc hbit
    rw [bitAfter_concat e hdesc, hbit]
    exact effect_of_keeps hkeeps hbefore (bitAfter_inside hbit)
  rw [Bool.not_eq_true] at hbefore
  rw [hbefore] at hlive
  have hquiet : bitAfter ext fs start log block = true ∧
      ∀ gdp, e.effect ext (allocUnit ext block).1 gdp (allocUnit ext block).2 true = true := by
    cases e with
    | handOut b =>
      obtain rfl : b = block := by simpa [liveness] using hlive
      exact ⟨hmarked b rfl, fun _ => rfl⟩
    | map pblk len =>
      obtain ⟨hge, hlt⟩ : pblk ≤ block ∧ block < pblk + len := by
        simpa [liveness] using hlive
      exact ⟨hkeeps block hge hlt, fun _ => rfl⟩
    | write | init | mark | free => simp [liveness] at hlive
  obtain ⟨gdp, hdesc⟩ := bitAfter_desc hquiet.1
  rw [bitAfter_concat e hdesc, hquiet.1]
  exact hquiet.2 gdp

/-- A log that says which units were handed out, in every group. -/
def LogTracked (ext : Ext) (fs : FsReader) (start : BlockOverlay) (log : List MutatorEvent) :
    Prop :=
  (∀ e ∈ log, e.Admitted ext) ∧ ∀ group gdp, ext.groupDescs[group]? = some gdp →
    ∃ after, BitLog ext group gdp (overlayBit ext fs start gdp) after log

/-- When a block is handed out, its unit was free until it was marked. -/
theorem LogTracked.handOut (h : LogTracked ext fs start (l₁ ++ .handOut block :: l₂)) :
    (allocUnit ext block).2 / 8 < ext.blockSize ∧
    ∃ l₀ gdp, ext.groupDescs[(allocUnit ext block).1]? = some gdp ∧
      l₁ = l₀ ++ [.mark (allocUnit ext block).1 (allocUnit ext block).2 1 true] ∧
      bitAfter ext fs start l₀ block = false := by
  obtain ⟨gdp, hdesc⟩ := h.1 (.handOut block) (by simp)
  obtain ⟨_, hbits⟩ := h.2 _ gdp hdesc
  obtain ⟨hinside, l₀, hl₁, hfree⟩ := hbits.handOut l₁ block l₂ rfl rfl
  exact ⟨hinside, l₀, gdp, hdesc, hl₁, by rw [bitAfter_of_desc hdesc, hfree]⟩

/-- The invariant along a log. -/
theorem LogTracked.liveAllocated (h : LogTracked ext fs start log)
    (hkeeps : LogKeeps ext fs start log) (l₁ l₂ : List MutatorEvent) (hsplit : log = l₁ ++ l₂) :
    LiveAllocated ext fs start l₁ := by
  induction l₁ using reverseRecOn generalizing l₂ with
  | nil => exact fun block hlive => nomatch hlive
  | append_singleton l₁ e ih =>
    rw [append_assoc] at hsplit
    refine (ih _ hsplit).concat (hkeeps l₁ e l₂ hsplit) fun b hb => ?_
    rw [hsplit, hb] at h
    obtain ⟨hinside, l₀, gdp, hdesc, hl₁, _⟩ := h.handOut
    rw [hl₁, bitAfter_concat _ hdesc]
    simpa [effect] using hinside

/-- No block is handed out that is in use. -/
theorem LogTracked.handOut_not_live (h : LogTracked ext fs start log)
    (hkeeps : LogKeeps ext fs start log) (hsplit : log = l₁ ++ .handOut block :: l₂) :
    isLive block l₁ = false := by
  have htracked := h
  rw [hsplit] at htracked
  obtain ⟨_, l₀, _, _, hl₁, hfree⟩ := htracked.handOut
  -- marking the unit did not bring the block into use
  rw [hl₁, isLive_concat]
  show isLive block l₀ = false
  rw [← Bool.not_eq_true]
  intro hlive
  rw [hl₁, append_assoc] at hsplit
  rw [h.liveAllocated hkeeps l₀ _ hsplit block hlive] at hfree
  cases hfree

end Live

/-! ### The replay -/

section Replay

variable [Crc] (ext : Ext) (fs : FsReader) (blockSize fcFirst : Nat)

/-- What a replay has done so far: the committed steps, and the transaction that is open or
    that a record has stopped. -/
inductive ReplayLog (start : BlockOverlay) : List MutatorEvent → Prop
  | committed {log : List MutatorEvent} {overlay : BlockOverlay}
      (hhist : FcHistory ext fs blockSize fcFirst start log overlay) : ReplayLog start log
  | running {log : List MutatorEvent} {overlay : BlockOverlay} {t : FcTx} {tx : TxState}
      (hhist : FcHistory ext fs blockSize fcFirst start log overlay)
      (hrun : t.Runs ext fs blockSize fcFirst overlay tx) :
      ReplayLog start (log ++ tx.mutator.log)
  | stopping {log : List MutatorEvent} {overlay : BlockOverlay} {t : FcTx} {tx tx' : TxState}
      {r : PassRecord} {reason : FastCommitStopReason}
      (hhist : FcHistory ext fs blockSize fcFirst start log overlay)
      (hrun : t.Runs ext fs blockSize fcFirst overlay tx)
      (hstop : applyTxRecord ext (composeReader fs overlay) (r.position blockSize fcFirst) tx r =
        .ok (.stop tx' reason)) :
      ReplayLog start (log ++ tx'.mutator.log)

variable {ext fs blockSize fcFirst} {start : BlockOverlay}

/-- A history, and a mutator of its own on top of it. -/
theorem logTracked_append {overlay : BlockOverlay} {m : Mutator}
    (hhist : FcHistory ext fs blockSize fcFirst start log overlay)
    (htracks : Tracks ext (composeReader fs overlay) (Mutator.new overlay.sbHostBlockContent) m)
    (hplaced : ∀ group gdp, ext.groupDescs[group]? = some gdp → BitmapPlaced ext start group gdp)
    (hwrite : ∀ gdp ∈ ext.groupDescs, .write gdp.blockBitmap ∉ log ++ m.log) :
    LogTracked ext fs start (log ++ m.log) := by
  refine ⟨fun e he => ?_, fun group gdp hdesc => ?_⟩
  · rcases mem_append.mp he with he | he
    · exact hhist.admitted e he
    · obtain ⟨mlog, hlog, hadm, _⟩ := htracks
      rw [show m.log = mlog from hlog.trans (nil_append _)] at he
      exact hadm e he
  · have hmem := hwrite gdp (mem_of_getElem? hdesc)
    rw [mem_append, not_or] at hmem
    obtain ⟨hplaced', hbits⟩ := hhist.bitLog (hplaced group gdp hdesc) hmem.1
    have hopen := (htracks.bitmapStep hplaced'.toOwnsBitmap hmem.2).bitLog
    exact ⟨_, hbits.append hopen⟩

theorem ReplayLog.logTracked (h : ReplayLog ext fs blockSize fcFirst start log)
    (hplaced : ∀ group gdp, ext.groupDescs[group]? = some gdp → BitmapPlaced ext start group gdp)
    (hwrite : ∀ gdp ∈ ext.groupDescs, .write gdp.blockBitmap ∉ log) :
    LogTracked ext fs start log := by
  cases h with
  | @committed _ overlay hhist =>
    -- a mutator that has not done anything yet
    have h := logTracked_append hhist (Tracks.refl (Mutator.new overlay.sbHostBlockContent)) hplaced
    rw [show (Mutator.new overlay.sbHostBlockContent).log = [] from rfl, append_nil] at h
    exact h hwrite
  | @running _ overlay _ _ hhist hrun =>
    exact logTracked_append hhist (TxRuns.frame (tracks_frame ext _) hrun) hplaced hwrite
  | @stopping _ overlay _ _ _ _ _ hhist hrun hstop =>
    have hframe := tracks_frame ext (composeReader fs overlay)
    have hlast := hframe.applyTxRecord hstop
    exact logTracked_append hhist (Tracks.trans (TxRuns.frame hframe hrun) hlast) hplaced hwrite

/-- In every replay whose events keep the bitmaps above the blocks in use, no block that
    `allocate_metadata_block` returns is in use: mapped by an earlier `ADD_RANGE` or handed out
    before, and not freed since. -/
theorem handOut_fresh (ext : Ext) (fs : FsReader) (blockSize fcFirst : Nat) (start : BlockOverlay)
    (log : List MutatorEvent) (h : ReplayLog ext fs blockSize fcFirst start log)
    (hplaced : ∀ group gdp, ext.groupDescs[group]? = some gdp → BitmapPlaced ext start group gdp)
    (hkeeps : LogKeeps ext fs start log) (l₁ l₂ : List MutatorEvent) (block : Nat)
    (hsplit : log = l₁ ++ .handOut block :: l₂) : isLive block l₁ = false := by
  have hwrite : ∀ gdp ∈ ext.groupDescs, .write gdp.blockBitmap ∉ log := by
    intro gdp hgdp hmem
    obtain ⟨a, b, hab⟩ := append_of_mem hmem
    exact hkeeps a _ b hab gdp hgdp rfl
  exact (h.logTracked hplaced hwrite).handOut_not_live hkeeps hsplit

end Replay

/-! ### Concrete replays -/

section

variable (ext : Ext) (fs : FsReader) (start : BlockOverlay)

/-- Events that clear no bit at all, as a check. -/
def MutatorEvent.keepsBits (prior : List MutatorEvent) : MutatorEvent → Bool
  | .write block => ext.groupDescs.all fun gdp => gdp.blockBitmap != block
  | .init _ => false
  | .mark _ _ _ alloc => alloc
  | .map pblk len => (range len).all fun i => bitAfter ext fs start prior (pblk + i)
  | .free _ _ | .handOut _ => true

variable {ext fs start}

theorem MutatorEvent.keeps_of_keepsBits {prior : List MutatorEvent}
    (h : e.keepsBits ext fs start prior = true) : e.Keeps ext fs start prior := by
  cases e with
  | write block => exact fun gdp hgdp => by simpa using all_eq_true.mp h gdp hgdp
  | init => cases h
  | mark g bitStart count alloc =>
    intro block _ hfrees
    rw [show alloc = true from h] at hfrees
    exact nomatch hfrees.1
  | map pblk len =>
    intro block hge hlt
    have hbit := all_eq_true.mp h (block - pblk) (mem_range.mpr (by omega))
    rwa [show pblk + (block - pblk) = block by omega] at hbit
  | free | handOut => trivial

theorem logKeeps_of_keepsBits
    (h : ∀ i < log.length, (log[i]?).all (keepsBits ext fs start (log.take i)) = true) :
    LogKeeps ext fs start log := by
  intro l₁ e l₂ hsplit
  have hi := h l₁.length (by rw [hsplit]; simp)
  rw [hsplit, getElem?_append_right (Nat.le_refl _), take_left, Nat.sub_self] at hi
  exact keeps_of_keepsBits hi

end

section

attribute [local instance] Crc.standard

/-- Two trees grow, and the data blocks were allocated before. -/
theorem handOut_fresh_growTwo :
    ∃ log l₁ l₂, ReplayLog (twoGroups 0) twoGroupsDevice 1024 10 noOverlay log ∧
      log = l₁ ++ .handOut 8196 :: l₂ ∧ isLive 8195 l₁ = true ∧ isLive 8196 l₁ = false := by
  have hrun : (growTwo.run (twoGroups 0) twoGroupsDevice 1024 10 noOverlay).map
      (fun tx => (decide (tx.mutator.log[7]? = some (.handOut 8196)),
        isLive 8195 (tx.mutator.log.take 7),
        decide (∀ i < tx.mutator.log.length, (tx.mutator.log[i]?).all (keepsBits
          (twoGroups 0) twoGroupsDevice noOverlay (tx.mutator.log.take i)) = true))) =
      some (true, true, true) := by
    decide +kernel
  obtain ⟨tx, htx, hlog⟩ := Option.map_eq_some_iff.mp hrun
  simp only [Prod.mk.injEq, decide_eq_true_eq] at hlog
  obtain ⟨hhand, hlive, hkeeps⟩ := hlog
  have hreplay : ReplayLog (twoGroups 0) twoGroupsDevice 1024 10 noOverlay tx.mutator.log :=
    .running .nil (FcTx.runs_of_run htx)
  have hsplit := eq_take_append_of_getElem? hhand
  exact ⟨_, _, _, hreplay, hsplit, hlive, handOut_fresh _ _ _ _ _ _ hreplay
    (bitmapPlaced_twoGroups 0) (logKeeps_of_keepsBits hkeeps) _ _ _ hsplit⟩

def mapThenGrow : FcTx := ⟨⟨0, 7⟩, [addRangeRecord 68 0 8195, addRangeRecord 65 8 35]⟩

/-- A free block is mapped for a file, and then handed out for the tree of another one, although
    the bitmaps cover every block that is in use on the device. -/
theorem mapped_block_handed_out :
    (∀ block ∈ range' 1 34, bitAfter (twoGroups 0) twoGroupsDevice noOverlay [] block = true) ∧
    ∃ log l₁ l₂, ReplayLog (twoGroups 0) twoGroupsDevice 1024 10 noOverlay log ∧
      log = l₁ ++ .handOut 8195 :: l₂ ∧ .map 8195 1 ∈ l₁ ∧ (∀ e ∈ l₁, ∀ p n, e ≠ .free p n) ∧
      isLive 8195 l₁ = true := by
  refine ⟨by decide +kernel, ?_⟩
  have hrun : (mapThenGrow.run (twoGroups 0) twoGroupsDevice 1024 10 noOverlay).map
      (fun tx => decide (tx.mutator.log[3]? = some (.handOut 8195)) &&
        decide (tx.mutator.log.take 3 = [.write 15, .map 8195 1, .mark 1 2 1 true])) =
      some true := by
    decide +kernel
  obtain ⟨tx, htx, hlog⟩ := Option.map_eq_some_iff.mp hrun
  simp only [Bool.and_eq_true, decide_eq_true_eq] at hlog
  have hsplit := eq_take_append_of_getElem? hlog.1
  rw [hlog.2] at hsplit
  exact ⟨_, _, _, .running .nil (FcTx.runs_of_run htx), hsplit, by simp, by simp, rfl⟩

end

end Fsmnt.FsExt
