import Fsmnt.ForStd.Except
import Fsmnt.Native.FsExt.FastCommitReplay

/-!
# What a record can do to the apply pass

`applyRecord_cases` lists the outcomes of `apply_record`: a HEAD opens a transaction, a TAIL
commits it, any other record works on the open transaction or drops it. The properties of
the pass are derived from these cases.
-/

namespace Fsmnt.FsExt

open Except

variable [Crc] {ext : Ext} {fs : FsReader} {blockSize fcFirst : Nat} {ctx ctx' : ApplyContext}
  {r : PassRecord} {stop : Bool}

/-- The position of a record. -/
def PassRecord.position (blockSize fcFirst : Nat) (r : PassRecord) : FastCommitPosition :=
  positionAt r.relativeBlock r.recordOffset blockSize fcFirst

/-- The outcomes of `apply_record`: whether it stops the pass, and the context. -/
inductive RecordStep (ext : Ext) (fs : FsReader) (blockSize fcFirst : Nat) (ctx : ApplyContext)
    (r : PassRecord) : Bool → ApplyContext → Prop
  | head (head : FcHead) (htag : r.tag = FC_TAG_HEAD) (hdec : decodeHead r.payload = .ok head) :
      RecordStep ext fs blockSize fcFirst ctx r false (ctx.beginTransaction head)
  | tail (ctx' : ApplyContext) (htag : r.tag = FC_TAG_TAIL)
      (hcommit : ctx.commitTransaction ext fs = .ok ctx') :
      RecordStep ext fs blockSize fcFirst ctx r false ctx'
  | next (tx tx' : TxState) (hhead : r.tag ≠ FC_TAG_HEAD) (htail : r.tag ≠ FC_TAG_TAIL)
      (htx : ctx.txState = some tx)
      (hstep : applyTxRecord ext (composeReader fs ctx.composedOverlay)
        (r.position blockSize fcFirst) tx r = .ok (.next tx')) :
      RecordStep ext fs blockSize fcFirst ctx r false { ctx with txState := some tx' }
  | stop (tx tx' : TxState) (reason : FastCommitStopReason) (hhead : r.tag ≠ FC_TAG_HEAD)
      (htail : r.tag ≠ FC_TAG_TAIL) (htx : ctx.txState = some tx)
      (hstep : applyTxRecord ext (composeReader fs ctx.composedOverlay)
        (r.position blockSize fcFirst) tx r = .ok (.stop tx' reason)) :
      RecordStep ext fs blockSize fcFirst ctx r true
        (ctx.stopCurrentTx (r.position blockSize fcFirst) reason)
  | ignored (hhead : r.tag ≠ FC_TAG_HEAD) (htail : r.tag ≠ FC_TAG_TAIL)
      (htx : ctx.txState = none) : RecordStep ext fs blockSize fcFirst ctx r false ctx
  | stray (reason : FastCommitStopReason) (hhead : r.tag ≠ FC_TAG_HEAD)
      (htail : r.tag ≠ FC_TAG_TAIL) (htx : ctx.txState = none) :
      RecordStep ext fs blockSize fcFirst ctx r true
        (ctx.stopCurrentTx (r.position blockSize fcFirst) reason)

omit [Crc] in
/-- Outside of a transaction a record is ignored or stops the pass. -/
theorem applyOutsideTx_cases {position : FastCommitPosition}
    (h : applyOutsideTx ext ctx position r = .ok (stop, ctx')) :
    (stop = false ∧ ctx' = ctx) ∨
      ∃ reason, stop = true ∧ ctx' = ctx.stopCurrentTx position reason := by
  have hok : ∀ {b : Bool} {c : ApplyContext}, (ok (b, c) : Except ExtError _) =
      .ok (stop, ctx') → stop = b ∧ ctx' = c := by
    intro b c heq
    injection heq with heq
    injection heq with hstop hctx
    exact ⟨hstop.symm, hctx.symm⟩
  unfold applyOutsideTx at h
  split at h
  · obtain ⟨inode, _, h⟩ := bind_eq_ok_iff.mp h
    split at h
    · exact .inr ⟨_, hok h⟩
    · exact .inl (hok h)
  split at h
  · obtain ⟨_, _, h⟩ := bind_eq_ok_iff.mp h
    exact .inl (hok h)
  split at h
  · obtain ⟨_, _, h⟩ := bind_eq_ok_iff.mp h
    exact .inl (hok h)
  split at h
  · obtain ⟨_, _, h⟩ := bind_eq_ok_iff.mp h
    exact .inl (hok h)
  · exact .inl (hok h)

/-- What a commit does: nothing without a transaction, or it merges the delta and the buffer. -/
theorem commitTransaction_cases (h : ctx.commitTransaction ext fs = .ok ctx') :
    (ctx.txState = none ∧ ctx' = ctx) ∨
    ∃ tx delta, ctx.txState = some tx ∧ tx.finalize ext fs ctx.composedOverlay = .ok delta ∧
      ctx' = ⟨mergeDeltaIntoOverlay ctx.composedOverlay delta, none,
        mergeTxBuffer ctx.plan tx.buffer,
        ctx.modifiedInodes.insertMany tx.buffer.modifiedInodes⟩ := by
  unfold ApplyContext.commitTransaction at h
  cases htx : ctx.txState with
  | none =>
    simp only [htx] at h
    injection h with h
    exact .inl ⟨rfl, h.symm⟩
  | some tx =>
    simp only [htx] at h
    obtain ⟨delta, hdelta, h⟩ := bind_eq_ok_iff.mp h
    injection h with h
    exact .inr ⟨tx, delta, rfl, hdelta, h.symm⟩

theorem applyRecord_cases (h : applyRecord ext fs blockSize fcFirst ctx r = .ok (stop, ctx')) :
    RecordStep ext fs blockSize fcFirst ctx r stop ctx' := by
  unfold applyRecord at h
  split at h
  · rename_i hhead
    obtain ⟨head, hdec, h⟩ := bind_eq_ok_iff.mp h
    injection h with h
    injection h with hstop hctx
    rw [← hstop, ← hctx]
    exact .head head hhead hdec
  rename_i hhead
  split at h
  · rename_i htail
    obtain ⟨_, _, h⟩ := bind_eq_ok_iff.mp h
    obtain ⟨ctx₁, hcommit, h⟩ := bind_eq_ok_iff.mp h
    injection h with h
    injection h with hstop hctx
    rw [← hstop, ← hctx]
    exact .tail ctx₁ htail hcommit
  rename_i htail
  cases htx : ctx.txState with
  | none =>
    simp only [htx] at h
    rcases applyOutsideTx_cases h with ⟨rfl, rfl⟩ | ⟨reason, rfl, rfl⟩
    · exact .ignored hhead htail htx
    · exact .stray reason hhead htail htx
  | some tx =>
    simp only [htx] at h
    obtain ⟨step, hstep, h⟩ := bind_eq_ok_iff.mp h
    cases step with
    | next tx' =>
      injection h with h
      injection h with hstop hctx
      rw [← hstop, ← hctx]
      exact .next tx tx' hhead htail htx hstep
    | stop tx' reason =>
      injection h with h
      injection h with hstop hctx
      rw [← hstop, ← hctx]
      exact .stop tx tx' reason hhead htail htx hstep

end Fsmnt.FsExt
