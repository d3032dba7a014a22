import Fsmnt.Spec.FsExt.FastCommitSteps

/-!
# Transactions are all or nothing

The dispatched records are grouped into transactions, from a HEAD to the TAIL that commits it.
The abstract replay runs one transaction after the other, each from a fresh mutator over the
overlay that the ones before it left, and merges the delta and the counters of each. The
apply pass does exactly this; a transaction without TAIL does not enter its result.
-/

namespace Fsmnt.FsExt

open List Bytes

variable {ctx ctx' : ApplyContext} {r : PassRecord} {rs : List PassRecord}

/-! ### The abstract replay -/

/-- A transaction: its HEAD and the records behind it. -/
structure FcTx where
  head : FcHead
  records : List PassRecord

/-- The transactions of a sequence of records: those with a TAIL, and the open one. -/
structure FcTxs where
  committed : List FcTx
  unfinished : Option FcTx

/-- A HEAD opens a transaction and drops one that is open. -/
def FcTxs.push (txs : FcTxs) (r : PassRecord) : FcTxs :=
  if r.tag = FC_TAG_HEAD then
    { txs with unfinished := (decodeHead r.payload).toOption.map (⟨·, []⟩) }
  else if r.tag = FC_TAG_TAIL then ⟨txs.committed ++ txs.unfinished.toList, none⟩
  else { txs with unfinished := txs.unfinished.map fun t => ⟨t.head, t.records ++ [r]⟩ }

def FcTxs.of (rs : List PassRecord) : FcTxs := rs.foldl FcTxs.push ⟨[], none⟩

/-- What committed transactions leave behind. -/
structure Committed where
  overlay : BlockOverlay
  plan : FastCommitPlan
  modifiedInodes : Std.TreeSet Nat

/-- Merge the delta and the counters of one more transaction. -/
def Committed.merge (done : Committed) (delta : OrphanOverlayDelta) (buffer : TxBuffer) :
    Committed where
  overlay := mergeDeltaIntoOverlay done.overlay delta
  plan := mergeTxBuffer done.plan buffer
  modifiedInodes := done.modifiedInodes.insertMany buffer.modifiedInodes

/-- A transaction before its first record: a fresh mutator. -/
def TxState.begin (overlay : BlockOverlay) (head : FcHead) : TxState where
  mutator := Mutator.new overlay.sbHostBlockContent
  buffer := { currentTid := head.tid, tagCounts := { head := 1 } }

section Replay

variable [Crc] (ext : Ext) (fs : FsReader) (blockSize fcFirst : Nat)

/-- `rs` leads from one state of a transaction to another, and no record stops it. -/
inductive TxRuns (overlay : BlockOverlay) : TxState → List PassRecord → TxState → Prop
  | nil (tx : TxState) : TxRuns overlay tx [] tx
  | snoc {tx tx₁ tx₂ : TxState} {rs : List PassRecord} {r : PassRecord}
      (hrun : TxRuns overlay tx rs tx₁)
      (hstep : applyTxRecord ext (composeReader fs overlay)
        (r.position blockSize fcFirst) tx₁ r = .ok (.next tx₂)) :
      TxRuns overlay tx (rs ++ [r]) tx₂

/-- The transaction reaches the state `tx` on top of `overlay`. -/
def FcTx.Runs (overlay : BlockOverlay) (t : FcTx) (tx : TxState) : Prop :=
  TxRuns ext fs blockSize fcFirst overlay (.begin overlay t.head) t.records tx

/-- The transactions `ts` are committed one after the other. -/
inductive Replays (start : Committed) : List FcTx → Committed → Prop
  | nil : Replays start [] start
  | snoc {ts : List FcTx} {done : Committed} {t : FcTx} {tx : TxState}
      {delta : OrphanOverlayDelta} (hdone : Replays start ts done)
      (hrun : t.Runs ext fs blockSize fcFirst done.overlay tx)
      (hdelta : tx.finalize ext fs done.overlay = .ok delta) :
      Replays start (ts ++ [t]) (done.merge delta tx.buffer)

/-- The context after the records `rs`: a replay of the committed transactions, and the open
    one on top of it. -/
structure Replayed (start : Committed) (rs : List PassRecord) (ctx : ApplyContext) : Prop where
  committed : Replays ext fs blockSize fcFirst start (FcTxs.of rs).committed
    ⟨ctx.composedOverlay, ctx.plan, ctx.modifiedInodes⟩
  closed : ctx.txState = none → (FcTxs.of rs).unfinished = none
  opened : ∀ tx, ctx.txState = some tx → ∃ t, (FcTxs.of rs).unfinished = some t ∧
    t.Runs ext fs blockSize fcFirst ctx.composedOverlay tx

variable {ext fs blockSize fcFirst} {overlay : BlockOverlay} {start : Committed}

/-- The records of a transaction determine its state. -/
theorem TxRuns.unique {tx tx₁ tx₂ : TxState}
    (h₁ : TxRuns ext fs blockSize fcFirst overlay tx rs tx₁)
    (h₂ : TxRuns ext fs blockSize fcFirst overlay tx rs tx₂) : tx₁ = tx₂ := by
  induction h₁ generalizing tx₂ with
  | nil =>
    generalize hrs : ([] : List PassRecord) = rs at h₂
    cases h₂ with
    | nil => rfl
    | snoc => simp at hrs
  | @snoc _ _ rs r _ hstep ih =>
    generalize hrs : rs ++ [r] = rs' at h₂
    cases h₂ with
    | nil => simp at hrs
    | snoc hrun' hstep' =>
      obtain ⟨rfl, hr⟩ := append_inj' hrs rfl
      injection hr with hr
      subst hr
      rw [ih hrun', hstep'] at hstep
      injection hstep with hstep
      injection hstep with hstep
      exact hstep.symm

/-- The committed transactions determine what they leave behind. -/
theorem Replays.unique {ts : List FcTx} {d₁ d₂ : Committed}
    (h₁ : Replays ext fs blockSize fcFirst start ts d₁)
    (h₂ : Replays ext fs blockSize fcFirst start ts d₂) : d₁ = d₂ := by
  induction h₁ generalizing d₂ with
  | nil =>
    generalize hts : ([] : List FcTx) = ts at h₂
    cases h₂ with
    | nil => rfl
    | snoc => simp at hts
  | @snoc ts _ t _ _ _ hrun hdelta ih =>
    generalize hts : ts ++ [t] = ts' at h₂
    cases h₂ with
    | nil => simp at hts
    | snoc hdone' hrun' hdelta' =>
      obtain ⟨rfl, ht⟩ := append_inj' hts rfl
      injection ht with ht
      subst ht
      rw [ih hdone'] at hrun hdelta ⊢
      rw [hrun.unique hrun', hdelta'] at hdelta
      injection hdelta with hdelta
      rw [hrun.unique hrun', hdelta]

/-! ### One record -/

omit [Crc] in
theorem FcTxs.of_concat (rs : List PassRecord) (r : PassRecord) :
    FcTxs.of (rs ++ [r]) = (FcTxs.of rs).push r := by
  simp [FcTxs.of]

/-- A record that does not stop the pass. -/
theorem RecordStep.replayed (hstep : RecordStep ext fs blockSize fcFirst ctx r false ctx')
    (h : Replayed ext fs blockSize fcFirst start rs ctx) :
    Replayed ext fs blockSize fcFirst start (rs ++ [r]) ctx' := by
  cases hstep with
  | head head htag hdec =>
    have hof : FcTxs.of (rs ++ [r]) = ⟨(FcTxs.of rs).committed, some ⟨head, []⟩⟩ := by
      rw [FcTxs.of_concat, FcTxs.push, if_pos htag, hdec]
      rfl
    refine ⟨by rw [hof]; exact h.committed, (fun hnone => nomatch hnone), fun tx htx =>
      ⟨⟨head, []⟩, by rw [hof], ?_⟩⟩
    injection htx with htx
    rw [← htx]
    exact .nil _
  | tail _ htag hcommit =>
    have hne : r.tag ≠ FC_TAG_HEAD := by rw [htag]; decide
    have hof : FcTxs.of (rs ++ [r]) =
        ⟨(FcTxs.of rs).committed ++ (FcTxs.of rs).unfinished.toList, none⟩ := by
      rw [FcTxs.of_concat, FcTxs.push, if_neg hne, if_pos htag]
    rcases commitTransaction_cases hcommit with ⟨hnone, rfl⟩ | ⟨tx, delta, htx, hdelta, rfl⟩
    · -- a TAIL without a HEAD commits nothing
      rw [h.closed hnone, Option.toList_none, append_nil] at hof
      refine ⟨by rw [hof]; exact h.committed, fun _ => by rw [hof], fun tx htx => ?_⟩
      rw [hnone] at htx
      cases htx
    · obtain ⟨t, ht, hrun⟩ := h.opened tx htx
      rw [ht] at hof
      refine ⟨?_, fun _ => by rw [hof], fun tx htx => nomatch htx⟩
      rw [hof]
      exact .snoc h.committed hrun hdelta
  | next tx tx' hhead htail htx hstep =>
    obtain ⟨t, ht, hrun⟩ := h.opened tx htx
    have hof : FcTxs.of (rs ++ [r]) =
        ⟨(FcTxs.of rs).committed, some ⟨t.head, t.records ++ [r]⟩⟩ := by
      rw [FcTxs.of_concat, FcTxs.push, if_neg hhead, if_neg htail, ht]
      rfl
    refine ⟨by rw [hof]; exact h.committed, (fun hnone => nomatch hnone), fun tx₂ htx₂ =>
      ⟨_, by rw [hof], ?_⟩⟩
    injection htx₂ with htx₂
    rw [← htx₂]
    exact .snoc hrun hstep
  | ignored hhead htail hnone =>
    have hof : FcTxs.of (rs ++ [r]) = ⟨(FcTxs.of rs).committed, none⟩ := by
      rw [FcTxs.of_concat, FcTxs.push, if_neg hhead, if_neg htail, h.closed hnone]
      rfl
    refine ⟨by rw [hof]; exact h.committed, fun _ => by rw [hof], fun tx htx => ?_⟩
    rw [hnone] at htx
    cases htx

/-- A record that stops the pass leaves everything but the reported stop as it was. -/
theorem RecordStep.stopped (rs : List PassRecord)
    (hstep : RecordStep ext fs blockSize fcFirst ctx r true ctx') :
    (FcTxs.of (rs ++ [r])).committed = (FcTxs.of rs).committed ∧
      ctx'.composedOverlay = ctx.composedOverlay ∧ ctx'.modifiedInodes = ctx.modifiedInodes ∧
      ctx'.plan = { ctx.plan with stop := ctx'.plan.stop } := by
  have hcommitted : r.tag ≠ FC_TAG_HEAD → r.tag ≠ FC_TAG_TAIL →
      (FcTxs.of (rs ++ [r])).committed = (FcTxs.of rs).committed := by
    intro hhead htail
    rw [FcTxs.of_concat, FcTxs.push, if_neg hhead, if_neg htail]
  cases hstep with
  | stop _ _ reason hhead htail htx hstep | stray reason hhead htail htx =>
    exact ⟨hcommitted hhead htail, rfl, rfl, rfl⟩

/-! ### The pass -/

variable (ext fs blockSize fcFirst) in
/-- `rs` are dispatched one after the other, and none stops the pass. -/
inductive Dispatches (start : ApplyContext) : List PassRecord → ApplyContext → Prop
  | nil : Dispatches start [] start
  | snoc {rs : List PassRecord} {r : PassRecord} {ctx ctx' : ApplyContext}
      (hrun : Dispatches start rs ctx)
      (hstep : RecordStep ext fs blockSize fcFirst ctx r false ctx') :
      Dispatches start (rs ++ [r]) ctx'

theorem Dispatches.replayed (h : Dispatches ext fs blockSize fcFirst ctx rs ctx')
    (htx : ctx.txState = none) :
    Replayed ext fs blockSize fcFirst ⟨ctx.composedOverlay, ctx.plan, ctx.modifiedInodes⟩ rs
      ctx' := by
  induction h with
  | nil =>
    refine ⟨.nil, fun _ => rfl, fun tx hsome => ?_⟩
    rw [htx] at hsome
    cases hsome
  | snoc _ hstep ih => exact hstep.replayed ih

/-- Every dispatched record has a context in which it was dispatched. -/
theorem Dispatches.split {init rest : List PassRecord}
    (h : Dispatches ext fs blockSize fcFirst ctx (init ++ r :: rest) ctx') :
    ∃ ctx₁ ctx₂, Dispatches ext fs blockSize fcFirst ctx init ctx₁ ∧
      RecordStep ext fs blockSize fcFirst ctx₁ r false ctx₂ := by
  generalize hall : init ++ r :: rest = all at h
  induction h generalizing rest with
  | nil => simp at hall
  | @snoc rs x ctx₁ ctx₂ hrun hstep ih =>
    rcases eq_nil_or_concat rest with rfl | ⟨rest', y, rfl⟩
    · obtain ⟨rfl, hx⟩ := append_inj' hall rfl
      injection hx with hx
      subst hx
      exact ⟨ctx₁, ctx₂, hrun, hstep⟩
    · refine @ih rest' ?_
      rw [concat_eq_append, ← cons_append, ← append_assoc] at hall
      exact (append_inj' hall rfl).1

/-- The loop is a sequence of dispatched records; if it was stopped, then by the last one. -/
theorem applyLoop_dispatches {start : ApplyContext} (fuel remaining : Nat) (c : RegionCursor)
    (run : ApplyRun) (h : Dispatches ext fs blockSize fcFirst start run.dispatched run.context)
    (hok : ∀ e, (applyLoop ext fs blockSize fcFirst fuel remaining c run).ending ≠ .failed e) :
    let out := applyLoop ext fs blockSize fcFirst fuel remaining c run
    Dispatches ext fs blockSize fcFirst start out.dispatched out.context ∨
    ∃ init r ctx, out.dispatched = init ++ [r] ∧
      Dispatches ext fs blockSize fcFirst start init ctx ∧
      RecordStep ext fs blockSize fcFirst ctx r true out.context := by
  induction fuel generalizing remaining c run with
  | zero => cases remaining <;> exact .inl h
  | succ fuel ih =>
    cases remaining with
    | zero => exact .inl h
    | succ remaining =>
      rw [applyLoop] at hok ⊢
      dsimp only at hok ⊢
      split
      · exact .inl h
      rename_i header c₁ hread
      simp only [hread] at hok
      split
      · rename_i hpad
        rw [if_pos hpad] at hok
        exact ih _ _ _ h hok
      rename_i hpad
      rw [if_neg hpad] at hok
      split
      · exact .inl h
      rename_i payload c₂ hpayload
      simp only [hpayload] at hok
      split
      · rename_i e herr
        simp only [herr] at hok
        exact absurd rfl (hok e)
      · rename_i ctx hstop
        exact .inr ⟨_, _, _, rfl, h, applyRecord_cases hstop⟩
      · rename_i ctx hnext
        simp only [hnext] at hok
        exact ih _ _ _ (.snoc h (applyRecord_cases hnext)) hok

/-- A handler that stops the transaction at `r` stops the pass there. -/
theorem Dispatches.not_stop {init rest : List PassRecord} {done : Committed} {t : FcTx}
    {tx tx' : TxState} {reason : FastCommitStopReason}
    (h : Dispatches ext fs blockSize fcFirst ctx (init ++ r :: rest) ctx')
    (htx : ctx.txState = none)
    (hdone : Replays ext fs blockSize fcFirst ⟨ctx.composedOverlay, ctx.plan, ctx.modifiedInodes⟩
      (FcTxs.of init).committed done) (ht : (FcTxs.of init).unfinished = some t)
    (hrun : t.Runs ext fs blockSize fcFirst done.overlay tx) :
    applyTxRecord ext (composeReader fs done.overlay) (r.position blockSize fcFirst) tx r ≠
      .ok (.stop tx' reason) := by
  obtain ⟨ctx₁, ctx₂, hinit, hstep⟩ := h.split
  have hrep := hinit.replayed htx
  have heq := hdone.unique hrep.committed
  subst heq
  -- records that are not handled inside of a transaction never stop it
  have hother : r.tag = FC_TAG_HEAD ∨ r.tag = FC_TAG_TAIL →
      applyTxRecord ext (composeReader fs ctx₁.composedOverlay) (r.position blockSize fcFirst) tx r
        = .ok (.next tx) := by
    rintro (htag | htag) <;>
      simp [applyTxRecord, htag, FC_TAG_HEAD, FC_TAG_TAIL, FC_TAG_PAD, FC_TAG_INODE, FC_TAG_CREAT,
        FC_TAG_LINK, FC_TAG_UNLINK, FC_TAG_ADD_RANGE, FC_TAG_DEL_RANGE]
  cases hstep with
  | head _ htag _ => rw [hother (.inl htag)]; simp
  | tail _ htag _ => rw [hother (.inr htag)]; simp
  | next tx₁ tx₂ _ _ htx₁ hnext =>
    obtain ⟨t', ht', hrun'⟩ := hrep.opened tx₁ htx₁
    rw [ht] at ht'
    injection ht' with ht'
    subst ht'
    rw [TxRuns.unique hrun hrun', hnext]
    simp
  | ignored _ _ hnone =>
    rw [hrep.closed hnone] at ht
    cases ht

end Replay

section Pass

variable [Crc]

/-- What `apply_pass` returns is the context of its loop, with the stop and the number of
    inodes filled in. -/
theorem applyPassFc_ok {ext : Ext} {fs : FsReader} {overlay : BlockOverlay} {region : FcRegion}
    {fcFirst : Nat} {scan : ScanResult} {state : ApplyState}
    (h : applyPassFc ext fs overlay region fcFirst scan = .ok state) :
    let run := applyPassRun ext fs overlay region fcFirst scan
    (∀ e, run.ending ≠ .failed e) ∧ state.composedOverlay = run.context.composedOverlay ∧
      state.modifiedInodes = run.context.modifiedInodes ∧
      state.plan = { run.context.plan with
        stop := state.plan.stop, inodesModified := state.plan.inodesModified } := by
  intro run
  have hok : ∀ e, run.ending ≠ .failed e := by
    intro e hend
    unfold applyPassFc at h
    simp only [show (applyPassRun ext fs overlay region fcFirst scan).ending = .failed e from hend]
      at h
    cases h
  refine ⟨hok, ?_⟩
  unfold applyPassFc at h
  dsimp only at h
  split at h
  · rename_i e hend
    exact absurd hend (hok e)
  injection h with h
  subst h
  refine ⟨rfl, rfl, ?_⟩
  unfold propagateScanStop
  split <;> rfl

/-- `apply_pass` replays exactly the transactions whose TAIL was dispatched: its overlay,
    inodes, counters and warnings are those of the abstract replay, and nothing is dispatched
    after a record that stops a transaction. -/
theorem applyPass_atomic (ext : Ext) (fs : FsReader) (overlay : BlockOverlay) (region : FcRegion)
    (fcFirst : Nat) (scan : ScanResult) (state : ApplyState)
    (h : applyPassFc ext fs overlay region fcFirst scan = .ok state) :
    let dispatched := (applyPassRun ext fs overlay region fcFirst scan).dispatched
    (∃ done, Replays ext fs region.blockSize fcFirst ⟨overlay, {}, ∅⟩
        (FcTxs.of dispatched).committed done ∧
      state.composedOverlay = done.overlay ∧ state.modifiedInodes = done.modifiedInodes ∧
      state.plan = { done.plan with
        stop := state.plan.stop, inodesModified := state.plan.inodesModified }) ∧
    ∀ init r rest, dispatched = init ++ r :: rest →
      ∀ done t tx tx' reason, Replays ext fs region.blockSize fcFirst ⟨overlay, {}, ∅⟩
          (FcTxs.of init).committed done →
        (FcTxs.of init).unfinished = some t →
        t.Runs ext fs region.blockSize fcFirst done.overlay tx →
        applyTxRecord ext (composeReader fs done.overlay) (r.position region.blockSize fcFirst)
          tx r = .ok (.stop tx' reason) →
        rest = [] := by
  intro dispatched
  obtain ⟨hok, hoverlay, hinodes, hplan⟩ := applyPassFc_ok h
  rcases applyLoop_dispatches _ _ _ _ .nil hok with hall | ⟨init, r, ctx, hsplit, hinit, hstop⟩
  · refine ⟨⟨_, (hall.replayed rfl).committed, hoverlay, hinodes, hplan⟩, ?_⟩
    intro init r rest heq done t tx tx' reason hdone ht hrun hstep
    change Dispatches ext fs region.blockSize fcFirst _ dispatched _ at hall
    rw [heq] at hall
    exact absurd hstep (hall.not_stop rfl hdone ht hrun)
  obtain ⟨hcommitted, hoverlay', hinodes', hplan'⟩ := hstop.stopped init
  change dispatched = init ++ [r] at hsplit
  refine ⟨⟨⟨ctx.composedOverlay, ctx.plan, ctx.modifiedInodes⟩, ?_, hoverlay.trans hoverlay',
    hinodes.trans hinodes', ?_⟩, ?_⟩
  · rw [hsplit, hcommitted]
    exact (hinit.replayed rfl).committed
  · rw [hplan]
    exact congrArg (fun plan : FastCommitPlan => { plan with
      stop := state.plan.stop, inodesModified := state.plan.inodesModified }) hplan'
  · intro init' r' rest heq done t tx tx' reason hdone ht hrun hstep
    rw [hsplit] at heq
    rcases eq_nil_or_concat rest with rfl | ⟨rest', y, rfl⟩
    · rfl
    · rw [concat_eq_append, ← cons_append, ← append_assoc] at heq
      rw [(append_inj' heq rfl).1] at hinit
      exact absurd hstep (hinit.not_stop rfl hdone ht hrun)

end Pass

/-! ### A volume

Two groups of 8192 blocks. The inodes from 65 on are those of the second group; their extent
trees have a full root, so that another extent makes the tree grow by a block of that group. -/

/-- An extent of `len` blocks. -/
def extentRecord (lblk len pblk : Nat) : Bytes :=
  toLE 4 lblk ++ toLE 2 len ++ toLE 2 0 ++ toLE 4 pblk

/-- A regular file with an extent tree of one node. -/
def extentInode (extents : List Bytes) : Bytes :=
  let root := toLE 2 0xF30A ++ toLE 2 extents.length ++ toLE 2 4 ++ zeros 6 ++ extents.flatten
  (((zeros 128).splice 0 (toLE 2 0x81A4)).splice 0x20 (toLE 4 0x80000)).splice 0x28 root

/-- A file with the blocks from `pblk` on at the even logical blocks below 8. -/
def fullInode (pblk : Nat) : Bytes :=
  extentInode ((range 4).map fun i => extentRecord (2 * i) 1 (pblk + i))

/-- A device of 1 KiB blocks, of which those that are not listed are zero. -/
def memoryDevice (blocks : List (Nat × Bytes)) : FsReader where
  readExact off len :=
    let block := (blocks.lookup (off / 1024)).getD (zeros 1024)
    .ok ((block.slice (off % 1024) len ++ zeros len).take len)
  length_readExact off len bs h := by
    cases h
    rw [length_take, length_append, length_zeros]
    omega

/-- The second group with the given flags. -/
def secondGroup (flags : Nat) : GroupDescriptor := ⟨15, 13, 14, flags⟩

def twoGroups (flags : Nat) : Ext := Ext.plain 16385 128 [⟨5, 3, 4, 0⟩, secondGroup flags]

/-- The blocks up to 40 and the first two of the second group are allocated. Inodes 65 to 67
    are full, and inode 68 is empty. -/
def twoGroupsDevice : FsReader :=
  memoryDevice [(3, replicate 5 255 ++ zeros 1019), (13, 3 :: zeros 1023),
    (15, fullInode 23 ++ fullInode 27 ++ fullInode 31 ++ extentInode [] ++ zeros 512)]

def noOverlay : BlockOverlay := ⟨1024, ∅, 1, zeros 1024⟩

section

attribute [local instance] Crc.standard

/-- A transaction in which a file grows, and one whose INODE record is longer than an inode. -/
def stoppingRegion : FcRegion where
  blocks := [toLE 2 FC_TAG_HEAD ++ toLE 2 8 ++ toLE 4 0 ++ toLE 4 7 ++
    toLE 2 FC_TAG_ADD_RANGE ++ toLE 2 16 ++ toLE 4 65 ++ extentRecord 8 1 35 ++
    toLE 2 FC_TAG_TAIL ++ toLE 2 8 ++ zeros 8 ++
    toLE 2 FC_TAG_HEAD ++ toLE 2 8 ++ toLE 4 0 ++ toLE 4 7 ++
    toLE 2 FC_TAG_INODE ++ toLE 2 164 ++ zeros 164 ++
    toLE 2 FC_TAG_TAIL ++ toLE 2 8 ++ zeros 8 ++ zeros 788]
  blockSize := 1024
  blockSize_ge := blockSize_1024_ge
  blocks_lt := by decide
  length_block := by decide +kernel

/-- Of six counted records, the fifth stops the pass and the first three are committed: the bitmap
    of the second group is in the overlay. -/
theorem applyPass_atomic_stopping :
    ∃ state, applyPassFc (twoGroups 0) twoGroupsDevice noOverlay stoppingRegion 10
        { validTagCount := 6 } = .ok state ∧
      state.plan.transactionsReplayed = 1 ∧ state.plan.tagCounts.inode = 0 ∧
      state.composedOverlay.blocks.contains 13 = true ∧
      ∃ ts done, Replays (twoGroups 0) twoGroupsDevice 1024 10 ⟨noOverlay, {}, ∅⟩ ts done ∧
        state.composedOverlay = done.overlay := by
  have hplan : ((applyPassFc (twoGroups 0) twoGroupsDevice noOverlay stoppingRegion 10
      { validTagCount := 6 }).toOption.map fun state => (state.plan.transactionsReplayed,
        state.plan.tagCounts.inode, state.composedOverlay.blocks.contains 13)) =
      some (1, 0, true) := by
    decide +kernel
  obtain ⟨state, hstate, hcounts⟩ := Option.map_eq_some_iff.mp hplan
  have hok := Except.toOption_eq_some_iff.mp hstate
  simp only [Prod.mk.injEq] at hcounts
  obtain ⟨hreplayed, hinode, hbitmap⟩ := hcounts
  obtain ⟨⟨done, hdone, hoverlay, _⟩, _⟩ := applyPass_atomic _ _ _ _ _ _ state hok
  exact ⟨state, hok, hreplayed, hinode, hbitmap, _, done, hdone, hoverlay⟩

end

end Fsmnt.FsExt
