import Fsmnt.Spec.FsExt.JournalRecovery

/-!
# Revocations across a wrap of the sequence number

The walk counts its transactions modulo 2^32, while the revocation table keeps the greatest number
and `apply_pass` compares numbers. Around a wrap the order of the numbers is not the order of the
log: a revocation behind the wrap does not reach a write before it, and a revocation before the wrap
reaches the writes behind it.
-/

namespace Fsmnt.FsExt

open List Bytes

/-- Transaction `k` of the log is behind transaction `i` and revokes block `b`. -/
def RevokedBehind (txs : List LogTx) (b i : Nat) : Prop :=
  ∃ (k : Nat) (tx : LogTx), i < k ∧ txs[k]? = some tx ∧ b ∈ tx.revocations

/-- A write is suppressed exactly when a transaction behind it in the log revokes its block. -/
def SuppressesInOrder (revocations : Std.TreeMap Nat Nat) (txs : List LogTx) : Prop :=
  ∀ (i : Nat) (tx : LogTx) (w : PendingWrite), txs[i]? = some tx → w ∈ tx.writes →
    (suppressed revocations w.fsBlock tx.sequence = true ↔ RevokedBehind txs w.fsBlock i)

/-- Where the wrap lies between a write and a revocation of its block, a further revocation decides
    as the log does: one with a greater number if the write comes first, one behind the write if the
    revocation comes first. -/
structure WrapHarmless (txs : List LogTx) : Prop where
  revoked_behind : ∀ (i k : Nat) (tx tx' : LogTx) (w : PendingWrite), i < k →
    txs[i]? = some tx → txs[k]? = some tx' → tx'.sequence ≤ tx.sequence →
    w ∈ tx.writes → w.fsBlock ∈ tx'.revocations → RevokedAfter txs w.fsBlock tx.sequence
  written_behind : ∀ (i k : Nat) (tx tx' : LogTx) (w : PendingWrite), i < k →
    txs[i]? = some tx → txs[k]? = some tx' → tx'.sequence < tx.sequence →
    w.fsBlock ∈ tx.revocations → w ∈ tx'.writes → RevokedBehind txs w.fsBlock k

/-- The order of the numbers decides as the order of the log exactly when the wrap is harmless. -/
theorem suppressesInOrder_iff (txs : List LogTx) :
    SuppressesInOrder (revocationsOf txs) txs ↔ WrapHarmless txs := by
  constructor
  · intro h
    constructor
    · intro i k tx tx' w hik hi hk _ hw hrev
      exact (suppressed_iff txs _ _).mp ((h i tx w hi hw).mpr ⟨k, tx', hik, hk, hrev⟩)
    · intro i k tx tx' w hik hi hk hlt hrev hw
      apply (h k tx' w hk hw).mp
      exact (suppressed_iff txs _ _).mpr ⟨tx, mem_of_getElem? hi, hlt, hrev⟩
  · intro h i tx w hi hw
    rw [suppressed_iff]
    constructor
    · rintro ⟨tx', hmem, hlt, hrev⟩
      obtain ⟨k, hk⟩ := getElem?_of_mem hmem
      rcases Nat.lt_trichotomy i k with hik | rfl | hki
      · exact ⟨k, tx', hik, hk, hrev⟩
      · -- a transaction does not have a greater number than itself
        rw [hi] at hk
        cases hk
        exact absurd hlt (Nat.lt_irrefl _)
      · exact h.written_behind k i tx' tx w hki hk hi hlt hrev hw
    · rintro ⟨k, tx', hik, hk, hrev⟩
      rcases Nat.lt_or_ge tx.sequence tx'.sequence with hlt | hge
      · exact ⟨tx', mem_of_getElem? hk, hlt, hrev⟩
      · exact h.revoked_behind i k tx tx' w hik hi hk hge hw hrev

/-- On every journal whose walk succeeds, with `txs` the committed transactions of its log, writes
    are suppressed in log order exactly when the wrap of the sequence number is harmless. -/
theorem walk_suppresses_in_order_iff [Crc] (j : OpenJournal) (plan plan' : ReplayPlan)
    (st : WalkState) (n : Nat) (h : walk j.reader j.source plan n = some (.ok (st, plan'))) :
    ∃ txs, LogCommits j j.source.nextBlock txs ∧
      plan'.committed.map (·.sequence) = txs.map (·.sequence) ∧
      (SuppressesInOrder st.revocations txs ↔ WrapHarmless txs) := by
  obtain ⟨txs, hlog, _, _, hrev, hseq, _⟩ := walk_holds h
  refine ⟨txs, hlog, hseq, ?_⟩
  rw [hrev]
  exact suppressesInOrder_iff txs

section

attribute [local instance] Crc.standard

/-- A version-1 superblock of a journal of six blocks whose log starts with the last number. -/
private def lastNumberSuperblock : Bytes :=
  logBlock 3 0 (toBE 4 1024 ++ toBE 4 6 ++ toBE 4 1 ++ toBE 4 (2 ^ 32 - 1) ++ toBE 4 1)

/-- Transaction 2^32 - 1 writes block 7, and transaction 0 behind it revokes the block. -/
private def lastNumberBlocks : List Bytes := [
  logBlock BT_DESCRIPTOR (2 ^ 32 - 1) (legacyTag 7 true),
  replicate 1024 0x55,
  logBlock BT_COMMIT (2 ^ 32 - 1) [],
  logBlock BT_REVOCATION 0 (toBE 4 20 ++ toBE 4 7),
  logBlock BT_COMMIT 0 [],
  replicate 1024 0]

/-- The journal of `lastNumberBlocks`. -/
def lastNumberJournal : OpenJournal :=
  .ofFile lastNumberSuperblock { sourceV1 6 1 with sequence := 2 ^ 32 - 1 } lastNumberBlocks
    (by decide +kernel) (by decide +kernel)

/-- The walk of `lastNumberJournal` records the revocation under the number 0. -/
private theorem walk_lastNumber : ∃ st plan', walk lastNumberJournal.reader
    lastNumberJournal.source {} 5 = some (.ok (st, plan')) ∧ st.revocations.getD 7 0 = 0 := by
  have hwalk : ((walk lastNumberJournal.reader lastNumberJournal.source {} 5).bind
      fun r => r.toOption).map (fun p => p.1.revocations.getD 7 0) = some 0 := by decide +kernel
  obtain ⟨p, hp, hrev⟩ := Option.map_eq_some_iff.mp hwalk
  obtain ⟨r, hr, hok⟩ := Option.bind_eq_some_iff.mp hp
  cases r with
  | error e => cases hok
  | ok q =>
    cases hok
    exact ⟨p.1, p.2, hr, hrev⟩

theorem walk_suppresses_in_order_iff_lastNumber :
    ∃ st plan', walk lastNumberJournal.reader lastNumberJournal.source {} 5 =
        some (.ok (st, plan')) ∧
      ∃ txs, LogCommits lastNumberJournal lastNumberJournal.source.nextBlock txs ∧
        plan'.committed.map (·.sequence) = txs.map (·.sequence) ∧
        (SuppressesInOrder st.revocations txs ↔ WrapHarmless txs) := by
  obtain ⟨st, plan', hwalk, _⟩ := walk_lastNumber
  exact ⟨st, plan', hwalk, walk_suppresses_in_order_iff lastNumberJournal {} plan' st 5 hwalk⟩

/-- The write of block 7 is not suppressed, although the transaction behind it revokes the block. -/
theorem lastNumber_not_in_order : ¬ ∀ st plan',
    walk lastNumberJournal.reader lastNumberJournal.source {} 5 = some (.ok (st, plan')) →
      ∀ txs, LogCommits lastNumberJournal lastNumberJournal.source.nextBlock txs →
        SuppressesInOrder st.revocations txs := by
  intro h
  obtain ⟨st, plan', hwalk, hzero⟩ := walk_lastNumber
  have hlog : (logIter lastNumberJournal lastNumberJournal.source.nextBlock 4).map (fun s =>
      s.committed.map fun tx => (tx.sequence, tx.writes.map (·.fsBlock), tx.revocations)) =
        some [(2 ^ 32 - 1, [7], []), (0, [], [7])] := by decide +kernel
  have hend : (logIter lastNumberJournal lastNumberJournal.source.nextBlock 5).isNone = true := by
    decide +kernel
  obtain ⟨s, hs, hcommitted⟩ := Option.map_eq_some_iff.mp hlog
  have horder := h st plan' hwalk s.committed ⟨4, s, hs, Option.isNone_iff_eq_none.mp hend, rfl⟩
  obtain ⟨first, second, hc⟩ : ∃ first second, s.committed = [first, second] :=
    length_eq_two.mp (by simpa using congrArg length hcommitted)
  rw [hc] at hcommitted horder
  simp only [map_cons, map_nil, cons.injEq, Prod.mk.injEq, and_true] at hcommitted
  obtain ⟨⟨-, hwrites, -⟩, -, -, hrev⟩ := hcommitted
  obtain ⟨w, hw, hblock⟩ : ∃ w ∈ first.writes, w.fsBlock = 7 := by
    rw [← mem_map, hwrites]
    exact mem_singleton_self 7
  have hsuppressed := (horder 0 first w rfl hw).mpr ⟨1, second, by decide, rfl, by
    rw [hblock, hrev]
    exact mem_singleton_self 7⟩
  rw [hblock, suppressed, hzero] at hsuppressed
  exact absurd (of_decide_eq_true hsuppressed) (Nat.not_lt_zero _)

end

end Fsmnt.FsExt
