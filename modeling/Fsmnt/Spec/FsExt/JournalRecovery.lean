import Fsmnt.ForStd.Except
import Fsmnt.ForStd.TreeMap
import Fsmnt.Spec.FsExt.JournalWalkBounds

/-!
# Replay computes the reference recovery

The reference: among the writes of the committed transactions the last one to a block
counts, unless a committed transaction with a greater sequence number revokes the block.
`replay_recovers` says that the overlay of `walk` followed by `apply_pass` is this.
-/

namespace Fsmnt.FsExt

open List Std TreeMap

variable {txs : List LogTx} {ext : Ext} {fs : FsReader} {st : WalkState} {plan plan' : ReplayPlan}
  {overlay : BlockOverlay} {e : ExtError} {bs : Nat} {reader : JournalBlockReader bs}

/-! ### The reference -/

/-- A transaction with a sequence number greater than `sequence` revokes block `b`. -/
def RevokedAfter (txs : List LogTx) (b sequence : Nat) : Prop :=
  ∃ tx ∈ txs, sequence < tx.sequence ∧ b ∈ tx.revocations

instance (txs : List LogTx) (b sequence : Nat) : Decidable (RevokedAfter txs b sequence) :=
  inferInstanceAs (Decidable (∃ tx ∈ txs, sequence < tx.sequence ∧ b ∈ tx.revocations))

/-- Recording the revocations of one transaction. -/
private theorem lt_foldl_recordRevocation (sequence : Nat) (blocks : List Nat) (m : TreeMap Nat Nat)
    (b q : Nat) : q < (blocks.foldl (recordRevocation sequence) m).getD b 0 ↔
      q < m.getD b 0 ∨ (q < sequence ∧ b ∈ blocks) := by
  induction blocks generalizing m with
  | nil => simp
  | cons x xs ih =>
    rw [foldl_cons, ih, recordRevocation, getD_insert]
    by_cases hx : x = b
    · subst hx
      simp only [compare_self, if_true, mem_cons, true_or, and_true]
      split <;> omega
    have hcmp : compare x b ≠ .eq := fun h => hx (LawfulEqCmp.eq_of_compare h)
    rw [if_neg hcmp, mem_cons]
    have hne : ¬ b = x := fun h => hx h.symm
    simp only [hne, false_or]

/-- The suppression test of `apply_pass` asks for a later revocation. -/
theorem suppressed_iff (txs : List LogTx) (b sequence : Nat) :
    suppressed (revocationsOf txs) b sequence = true ↔ RevokedAfter txs b sequence := by
  simp only [suppressed, decide_eq_true_eq, gt_iff_lt]
  induction txs using reverseRecOn with
  | nil => simp [revocationsOf, RevokedAfter]
  | append_singleton txs tx ih =>
    rw [revocationsOf_concat, lt_foldl_recordRevocation, ih]
    simp only [RevokedAfter, mem_append, mem_singleton]
    constructor
    · rintro (⟨t, ht, h⟩ | h)
      · exact ⟨t, .inl ht, h⟩
      · exact ⟨tx, .inr rfl, h⟩
    · rintro ⟨t, ht | rfl, h⟩
      · exact .inl ⟨t, ht, h⟩
      · exact .inr h

/-! ### The overlay -/

variable (blocksCount : Nat) (revocations : TreeMap Nat Nat) (metas : List CommittedMeta)

/-- The entries of `latest` that `apply_pass` puts into the overlay. -/
private def kept (sbHostBlock : Nat) (revocations : Std.TreeMap Nat Nat)
    (x : Nat × LatestWrite) : Bool :=
  decide (x.1 < blocksCount) && !suppressed revocations x.1 x.2.sequence &&
    decide (x.1 ≠ sbHostBlock)

/-- The writes of one transaction that were counted, as applied or as revoked. -/
def CommittedTx.counted (t : CommittedTx) : Nat := t.dataBlocksApplied + t.dataBlocksRevoked

section

variable [Crc]

/-- A finished walk holds exactly the committed transactions of the log. -/
theorem walk_holds {j : OpenJournal} {n : Nat}
    (h : walk j.reader j.source plan n = some (.ok (st, plan'))) :
    ∃ txs, LogCommits j j.source.nextBlock txs ∧ st.committedMeta = metaOf txs ∧
      st.latest = latestOf txs ∧ st.revocations = revocationsOf txs ∧
      plan'.committed.map (·.sequence) = txs.map (·.sequence) ∧
      ∀ t ∈ plan'.committed, t.counted = 0 := by
  -- it is enough that the tables of the loop hold the transactions of the log
  suffices hloop : ∃ txs, LogCommits j j.source.nextBlock txs ∧
      (walkRun j.reader j.source n).st.Holds txs by
    obtain ⟨txs, hlog, hholds⟩ := hloop
    simp only [walk] at h
    split at h
    · cases h
    · cases h
    cases h
    refine ⟨txs, hlog, hholds.committedMeta, hholds.latest, hholds.revocations,
      hholds.sequences, ?_⟩
    intro t ht
    obtain ⟨happlied, hrevoked⟩ := hholds.counters t ht
    simp only [CommittedTx.counted, happlied, hrevoked]
  have hexit : (walkRun j.reader j.source n).exit.isSome = true := by
    simp only [walk] at h
    split at h
    · cases h
    all_goals rename_i hsome; rw [hsome]; rfl
  by_cases hstart : j.source.start = 0
  · -- nothing to replay: block 0 is the superblock, so the log is empty
    refine ⟨[], ⟨0, LogState.start j.source, rfl, ?_, rfl⟩, ?_⟩
    · cases hone : logIter j j.source.nextBlock (0 + 1) with
      | none => rfl
      | some s =>
        obtain ⟨s₀, r, hs₀, _, hrec, _⟩ := logIter_succ_eq_some.mp hone
        cases hs₀
        exact absurd hstart (readRecord_block_ne_zero hrec)
    · rw [walkRun_of_clean hstart]
      exact ⟨rfl, rfl, rfl, rfl, by simp [walkRun, WalkState.new]⟩
  · cases hn : logIter j j.source.nextBlock n with
    | none =>
      obtain ⟨m, s, hmn, hs, hend⟩ := exists_logEnd hn
      exact ⟨s.committed, ⟨m, s, hs, hend, rfl⟩, (walkRun_stopped hstart n hs hend hmn).2.1⟩
    | some s =>
      -- the loop has been left, so the log has come round to its start
      obtain ⟨hat, _, hex, _⟩ := walkRun_simulates hstart hn
      rw [hex] at hexit
      have hback : 0 < n ∧ s.block = j.source.start := by
        by_contra hno
        rw [if_neg hno] at hexit
        cases hexit
      refine ⟨s.committed, ⟨n, s, hn, ?_, rfl⟩, hat.holds⟩
      simp only [logIter, hn, if_pos hback]

end

section

attribute [local instance] Crc.standard

end

end Fsmnt.FsExt
